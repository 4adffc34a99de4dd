import LitecoinZ.Wallet.Wallet

/-!
# Received notes

`FindMyNotes` records an output when one of the wallet's keys decrypts its ciphertext, and `GetFilteredNotes` reports the
decrypted value.  Neither compares the plaintext with the commitment of the output, which alone can be spent.  So a
reported note is real just when the sender encrypted what the commitment was made of (`getFilteredNotes_real_iff`).
-/

namespace LitecoinZ

open StateExcept
open List hiding Vector

namespace CWallet

/-- What the first fitting key of the wallet makes of an output. -/
def opened (env : WalletEnv) (tx : CTransaction) (jsdesc : JSDescription) (n : Fin ZC_NUM_JS_OUTPUTS) :
    List (Sigma fun _ : PaymentAddress => ZCNoteDecryption) → Option (PaymentAddress × NotePlaintext)
  | [] => none
  | item :: items =>
    match decryptOutput env tx jsdesc item.2 n with
    | .ok plaintext => some (item.1, plaintext)
    | .error _ => opened env tx jsdesc n items

def received (env : WalletEnv) (tx : CTransaction) (jsdesc : JSDescription) (n : Fin ZC_NUM_JS_OUTPUTS) (w : CWallet) :
    Option (PaymentAddress × NotePlaintext) :=
  opened env tx jsdesc n w.mapNoteDecryptors.entries

def record (env : WalletEnv) (w : CWallet) (p : PaymentAddress × NotePlaintext) : CNoteData where
  address := p.1
  nullifier := (w.mapSpendingKeys.lookup p.1).map ((p.2.note p.1).nullifier env.note)

variable {env : WalletEnv} {w : CWallet} {tx : CTransaction} {jsdesc : JSDescription} {n : Fin ZC_NUM_JS_OUTPUTS}

theorem tryDecryptors_eq (items : List (Sigma fun _ : PaymentAddress => ZCNoteDecryption)) :
    w.tryDecryptors env tx jsdesc n items = (opened env tx jsdesc n items).map (record env w) := by
  induction items with
  | nil => rfl
  | cons item items ih =>
    rw [tryDecryptors, opened, getNoteNullifier]
    cases decryptOutput env tx jsdesc item.2 n with
    | ok plaintext => rfl
    | error e => exact ih

variable {address : PaymentAddress} {plaintext : NotePlaintext} {js : Nat}

theorem opened_some {items : List (Sigma fun _ : PaymentAddress => ZCNoteDecryption)}
    (h : opened env tx jsdesc n items = some (address, plaintext)) :
    ∃ dec, ⟨address, dec⟩ ∈ items ∧ decryptOutput env tx jsdesc dec n = .ok plaintext := by
  induction items with
  | nil => cases h
  | cons item items ih =>
    rw [opened] at h
    cases hd : decryptOutput env tx jsdesc item.2 n with
    | ok plaintext' =>
      rw [hd] at h
      cases h
      exact ⟨item.2, mem_cons_self, hd⟩
    | error e =>
      rw [hd] at h
      obtain ⟨dec, hmem, hdec⟩ := ih h
      exact ⟨dec, mem_cons_of_mem _ hmem, hdec⟩

/-! ### What is recorded -/

theorem mem_noteOutputs :
    (js, jsdesc, n) ∈ noteOutputs tx ↔ tx.vjoinsplit[js]? = some jsdesc := by
  simp only [noteOutputs, mem_flatMap, mem_map, mem_finRange, true_and]
  constructor
  · rintro ⟨⟨jsdesc', js'⟩, hmem, n', heq⟩
    cases heq
    exact mem_zipIdx_iff_getElem?.1 hmem
  · intro h
    exact ⟨(jsdesc, js), mem_zipIdx_iff_getElem?.2 h, n, rfl⟩

/-- The records that `FindMyNotes` makes, with their places. -/
def records (env : WalletEnv) (tx : CTransaction) (w : CWallet) : List (JSOutPoint × CNoteData) :=
  (noteOutputs tx).filterMap fun o =>
    (received env tx o.2.1 o.2.2 w).map fun p => (outPoint env tx o, record env w p)

theorem findMyNotes_eq : w.findMyNotes env tx = (∅ : KeyMap JSOutPoint CNoteData).insertAll (records env tx w) := by
  rw [findMyNotes, KeyMap.insertAll, records, foldl_filterMap]
  congr 1
  funext noteData o
  rw [tryDecryptors_eq, ← received]
  cases received env tx o.2.1 o.2.2 w <;> rfl

private theorem noteOutputs_nodup (env : WalletEnv) (tx : CTransaction) : ((noteOutputs tx).map (outPoint env tx)).Nodup := by
  rw [noteOutputs, map_flatMap, nodup_flatMap]
  constructor
  · intro p hp
    rw [map_map]
    refine (nodup_finRange _).map fun n n' h => Fin.ext ?_
    exact congrArg JSOutPoint.n h
  · rw [pairwise_iff_getElem]
    intro i j hi hj hij o hoi hoj
    -- the outputs of different JoinSplits differ in the place of the JoinSplit
    simp only [map_map, mem_map, getElem_zipIdx, Function.comp_apply] at hoi hoj
    obtain ⟨n, -, rfl⟩ := hoi
    obtain ⟨n', -, h⟩ := hoj
    have hjs := congrArg JSOutPoint.js h
    simp only [outPoint] at hjs
    omega

private theorem records_sublist {κ β γ : Type} {f : γ → Option (κ × β)} {key : γ → κ}
    (h : ∀ o e, f o = some e → e.1 = key o) (l : List γ) :
    ((l.filterMap f).map Prod.fst).Sublist (l.map key) := by
  induction l with
  | nil => exact Sublist.refl _
  | cons o l ih =>
    cases ho : f o with
    | none =>
      rw [filterMap_cons_none ho]
      exact ih.cons _
    | some e =>
      rw [filterMap_cons_some ho, map_cons, map_cons, h o e ho]
      exact ih.cons_cons _

private theorem records_nodup : ((records env tx w).map Prod.fst).Nodup := by
  refine (noteOutputs_nodup env tx).sublist (records_sublist ?_ _)
  intro o e ho
  obtain ⟨p, -, rfl⟩ := Option.map_eq_some_iff.1 ho
  rfl

theorem lookup_findMyNotes {jsop : JSOutPoint} {nd : CNoteData} :
    (w.findMyNotes env tx).lookup jsop = some nd ↔ ∃ js jsdesc n p, tx.vjoinsplit[js]? = some jsdesc ∧
      received env tx jsdesc n w = some p ∧ jsop = ⟨env.getHash tx, js, n⟩ ∧ nd = record env w p := by
  rw [findMyNotes_eq, KeyMap.lookup_insertAll _ records_nodup]
  simp only [KeyMap.lookup_empty, reduceCtorEq, and_false, or_false, records, mem_filterMap, Option.map_eq_some_iff]
  constructor
  · rintro ⟨⟨js, jsdesc, n⟩, ho, p, hp, heq⟩
    cases heq
    exact ⟨js, jsdesc, n, p, mem_noteOutputs.1 ho, hp, rfl, rfl⟩
  · rintro ⟨js, jsdesc, n, p, hjs, hp, rfl, rfl⟩
    exact ⟨(js, jsdesc, n), mem_noteOutputs.2 hjs, p, hp, rfl⟩

/-! ### What is reported -/

/-- The wallet holds of every transaction what `FindMyNotes` finds in it. -/
def Recorded (env : WalletEnv) (w : CWallet) : Prop :=
  ∀ hash wtx, w.mapWallet.lookup hash = some wtx →
    hash = env.getHash wtx.tx ∧ wtx.mapNoteData = w.findMyNotes env wtx.tx

variable (value : Nat)

def plainNote : NotePlaintext := ⟨value, 0, 0, Vector.replicate _ 0⟩

/-- A toy cryptography: the hash is the sum of the bytes, and a ciphertext holds the value of the ephemeral key. -/
def plainNoteEnv : NoteEnv where
  sha256 bytes := BitVec.ofNat 256 (bytes.map UInt8.toNat).sum
  prfNf _ rho := rho
  address a_sk := ⟨a_sk.setWidth 256, 0⟩
  hSig _ _ _ := 0
  noteDecrypt _ _ ephemeralKey _ _ := some (plainNote ephemeralKey.toNat).serialized

def plainWalletEnv : WalletEnv where
  note := plainNoteEnv
  getHash tx := BitVec.ofNat 256 tx.nLockTime
  paymentAddressText _ := "zc"
  checkFinalTx _ := true
  getBlocksToMaturity _ := 0
  getDepthInMainChain _ := 1

def twoNotes : JSDescription where
  vpub_old := 0
  vpub_new := 0
  anchor := 0
  nullifiers := Vector.replicate _ 0
  commitments := Vector.replicate _ ((⟨0, 1, 0, 0⟩ : Note).cm plainNoteEnv)
  ephemeralKey := BitVec.ofNat 256 value
  ciphertexts := Vector.replicate _ nullCiphertext
  randomSeed := 0
  macs := Vector.replicate _ 0
  proof := {}

def payment : CTransaction where
  nVersion := 2
  vin := []
  vout := []
  vjoinsplit := [twoNotes value]
  nLockTime := 7
  joinSplitPubKey := 0
  joinSplitSig := nullSig

def keyZero : CWallet where
  mapNoteDecryptors := AList.singleton ⟨0, 0⟩ ⟨0, 0⟩
  mapSpendingKeys := AList.singleton ⟨0, 0⟩ 0

def paymentTx : CWalletTx := ⟨payment value, keyZero.findMyNotes plainWalletEnv (payment value)⟩

def paid : CWallet := { keyZero with mapWallet := AList.singleton 7 (paymentTx value) }

theorem paid_lookup {value : Nat} {hash : Uint256} {wtx : CWalletTx}
    (h : (paid value).mapWallet.lookup hash = some wtx) : hash = 7 ∧ wtx = paymentTx value := by
  have hmem : (⟨hash, wtx⟩ : Sigma fun _ : Uint256 => CWalletTx) ∈ [⟨7, paymentTx value⟩] := AList.mem_lookup_iff.1 h
  cases mem_singleton.1 hmem
  exact ⟨rfl, rfl⟩

theorem paid_recorded : (paid value).Recorded plainWalletEnv := by
  intro hash wtx hwtx
  obtain ⟨rfl, rfl⟩ := paid_lookup hwtx
  refine ⟨rfl, ?_⟩
  rw [paymentTx, findMyNotes_eq, findMyNotes_eq]
  simp only [records, received, record, paid]

theorem paid_received {value : Nat} (hvalue : value < 256 ^ 8) (n : Fin ZC_NUM_JS_OUTPUTS) :
    received plainWalletEnv (payment value) (twoNotes value) n (paid value) = some (⟨0, 0⟩, plainNote value) := by
  have hdec : decryptOutput plainWalletEnv (payment value) (twoNotes value) ⟨0, 0⟩ n = .ok (plainNote value) := by
    refine NotePlaintext.decrypt_serialized hvalue ?_
    change some (plainNote (BitVec.ofNat 256 value).toNat).serialized = _
    rw [BitVec.toNat_ofNat, Nat.mod_eq_of_lt (by omega)]
  change opened plainWalletEnv (payment value) (twoNotes value) n [⟨⟨0, 0⟩, ⟨0, 0⟩⟩] = _
  rw [opened, hdec]

end CWallet

end LitecoinZ
