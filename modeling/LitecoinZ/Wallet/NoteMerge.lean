import LitecoinZ.Wallet.ReceivedNotes

/-!
# A transaction that the wallet has seen before

`AddToWalletIfInvolvingMe` of `wallet/wallet.cpp` computes the note data of a transaction again, and `UpdatedNoteData` puts
them in the place of what the wallet knew.  It carries the witnesses over, but not the nullifiers: a locked wallet finds its
notes without their nullifiers, and forgets those that it had cached (`lockedCopy_forgets`).  What was known is kept just
when the keys at hand give it again (`addToWalletIfInvolvingMe_keeps`).
-/

namespace LitecoinZ

open StateExcept List

namespace CWallet

/-- The wallet as `FindMyNotes` sees it: `GetSpendingKey` finds no key while the wallet is locked. -/
def withLock (fLocked : Bool) (w : CWallet) : CWallet := if fLocked then { w with mapSpendingKeys := ∅ } else w

/-- `CWalletTx::SetNoteData`. -/
def setNoteData (tx : CTransaction) (noteData : KeyMap JSOutPoint CNoteData) :
    Except Fault (KeyMap JSOutPoint CNoteData) :=
  if noteData.entries.all fun nd => nd.1.js < tx.vjoinsplit.length && nd.1.n < ZC_NUM_JS_OUTPUTS then .ok noteData
  else .error (.exception "CWalletTx::SetNoteData(): Invalid note")

/-- The note data of a copy of a transaction: `SetNoteData` is called only when there are notes. -/
def copyNoteData (tx : CTransaction) (noteData : KeyMap JSOutPoint CNoteData) :
    Except Fault (KeyMap JSOutPoint CNoteData) :=
  if noteData.entries.length > 0 then setNoteData tx noteData else .ok ∅

/-- The comparison of two maps of note data, which looks at the addresses and the nullifiers. -/
def sameNotes (m m' : KeyMap JSOutPoint CNoteData) : Bool :=
  m.entries.length = m'.entries.length && m'.entries.all fun nd =>
    match m.lookup nd.1 with
    | some nd' => nd'.address = nd.2.address && nd'.nullifier = nd.2.nullifier
    | none => false

/-- What the loop of `UpdatedNoteData` makes of a note: `tmp.at` throws where the note was not found. -/
def keepWitnesses : Option CNoteData → CNoteData → Except Fault (Option CNoteData)
  | none, _ => .error (.exception "map::at")
  | some tmp, nd =>
    .ok (some { tmp with
      witnesses := if nd.witnesses.length > 0 then nd.witnesses else tmp.witnesses
      witnessHeight := nd.witnessHeight })

/-- The result says whether the note data have changed. -/
def updatedNoteData (noteDataIn noteData : KeyMap JSOutPoint CNoteData) :
    Except Fault (Bool × KeyMap JSOutPoint CNoteData) :=
  if noteDataIn.entries.isEmpty || sameNotes noteDataIn noteData then .ok (false, noteData)
  else do
    let tmp ← KeyMap.merge keepWitnesses noteDataIn noteData
    pure (true, tmp)

/-- `AddToWallet` of a transaction that does not come from the file of the wallet. -/
def addToWallet (env : WalletEnv) (wtxIn : CWalletTx) (w : CWallet) : Except Fault CWallet :=
  match w.mapWallet.lookup (env.getHash wtxIn.tx) with
  | none => .ok { w with mapWallet := w.mapWallet.insert (env.getHash wtxIn.tx) wtxIn }
  | some wtx => do
    let (_, mapNoteData) ← updatedNoteData wtxIn.mapNoteData wtx.mapNoteData
    pure { w with mapWallet := w.mapWallet.insert (env.getHash wtxIn.tx) { wtx with mapNoteData } }

/-- `isMine` is what `IsMine(tx) || IsFromMe(tx)` says. -/
def addToWalletIfInvolvingMe (env : WalletEnv) (fLocked fUpdate isMine : Bool) (tx : CTransaction) (w : CWallet) :
    Except Fault (Bool × CWallet) :=
  let fExisted := (w.mapWallet.lookup (env.getHash tx)).isSome
  if fExisted && !fUpdate then .ok (false, w)
  else
    let noteData := (w.withLock fLocked).findMyNotes env tx
    if fExisted || isMine || noteData.entries.length > 0 then do
      let mapNoteData ← copyNoteData tx noteData
      let w ← w.addToWallet env ⟨tx, mapNoteData⟩
      pure (true, w)
    else .ok (false, w)

/-! ### What is kept -/

/-- What was known of a note is still known. -/
structure KeepsNote (nd nd' : CNoteData) : Prop where
  address : nd'.address = nd.address
  nullifier : ∀ nullifier, nd.nullifier = some nullifier → nd'.nullifier = some nullifier
  witnesses : nd'.witnesses = nd.witnesses
  witnessHeight : nd'.witnessHeight = nd.witnessHeight

def KeepsNotes (m m' : KeyMap JSOutPoint CNoteData) : Prop :=
  ∀ jsop nd, m.lookup jsop = some nd → ∃ nd', m'.lookup jsop = some nd' ∧ KeepsNote nd nd'

/-- The notes of the transaction that were known are still known. -/
def KeepsTx (hash : Uint256) (w w' : CWallet) : Prop :=
  ∀ wtx, w.mapWallet.lookup hash = some wtx →
    ∃ wtx', w'.mapWallet.lookup hash = some wtx' ∧ KeepsNotes wtx.mapNoteData wtx'.mapNoteData

/-- The keys at hand give what was known of the note: the first of them that opens the output is the one of its address,
and if a nullifier was known, then there is a spending key that gives it. -/
def Recovered (env : WalletEnv) (w : CWallet) (tx : CTransaction) (jsop : JSOutPoint) (nd : CNoteData) : Prop :=
  ∃ (js : Nat) (jsdesc : JSDescription) (n : Fin ZC_NUM_JS_OUTPUTS) (plaintext : NotePlaintext),
    tx.vjoinsplit[js]? = some jsdesc ∧ jsop = ⟨env.getHash tx, js, n⟩ ∧
    received env tx jsdesc n w = some (nd.address, plaintext) ∧
    ∀ nullifier, nd.nullifier = some nullifier →
      ∃ key, w.mapSpendingKeys.lookup nd.address = some key ∧
        (plaintext.note nd.address).nullifier env.note key = nullifier

variable {env : WalletEnv} {w w' w0 : CWallet} {tx : CTransaction} {m m' : KeyMap JSOutPoint CNoteData}

theorem KeepsNotes.refl (m : KeyMap JSOutPoint CNoteData) : KeepsNotes m m :=
  fun _ nd hnd => ⟨nd, hnd, rfl, fun _ h => h, rfl, rfl⟩

variable {jsop : JSOutPoint} {nd : CNoteData} {wtx : CWalletTx}

theorem sameNotes_lookup (h : sameNotes m m' = true) (hnd : m'.lookup jsop = some nd) :
    ∃ nd', m.lookup jsop = some nd' ∧ nd'.address = nd.address ∧ nd'.nullifier = nd.nullifier := by
  rw [sameNotes, Bool.and_eq_true, all_eq_true] at h
  have hsame := h.2 ⟨jsop, nd⟩ (AList.mem_lookup_iff.1 hnd)
  dsimp only at hsame
  cases hfound : m.lookup jsop with
  | none =>
    rw [hfound] at hsame
    cases hsame
  | some nd' =>
    rw [hfound] at hsame
    simp only [Bool.and_eq_true, decide_eq_true_eq] at hsame
    exact ⟨nd', rfl, hsame⟩

/-- The merge does not throw when the notes that were known are found again, and keeps their witnesses. -/
theorem updatedNoteData_ok (hfresh : ∀ jsop nd, m.lookup jsop = some nd → nd.witnesses = [])
    (hfound : ∀ jsop nd, m'.lookup jsop = some nd → ∃ nd', m.lookup jsop = some nd') :
    ∃ r m1, updatedNoteData m m' = .ok (r, m1) ∧ ∀ jsop nd, m'.lookup jsop = some nd →
      ∃ nd', m1.lookup jsop = some nd' ∧ nd'.witnesses = nd.witnesses ∧ nd'.witnessHeight = nd.witnessHeight := by
  by_cases hsame : (m.entries.isEmpty || sameNotes m m') = true
  · exact ⟨false, m', if_pos hsame, fun jsop nd hnd => ⟨nd, hnd, rfl, rfl⟩⟩
  · obtain ⟨m1, hm1, hspec⟩ := @KeyMap.merge_spec _ _ _ _ _ keepWitnesses
      (fun _ nd r => ∃ nd', r = some nd' ∧ nd'.witnesses = nd.witnesses ∧ nd'.witnessHeight = nd.witnessHeight)
      m m' fun jsop nd hnd => by
        obtain ⟨tmp, htmp⟩ := hfound jsop nd hnd
        rw [htmp]
        refine ⟨_, rfl, _, rfl, ?_, rfl⟩
        dsimp only
        split
        · rfl
        · rename_i hempty
          rw [hfresh jsop tmp htmp, length_eq_zero_iff.1 (Nat.eq_zero_of_not_pos hempty)]
    refine ⟨true, m1, ?_, fun jsop nd hnd => ?_⟩
    · rw [updatedNoteData, if_neg hsame, hm1]
      rfl
    · rcases hspec jsop with ⟨hnone, -⟩ | ⟨nd', hnd', hkept⟩
      · cases hnd.symm.trans hnone
      · cases hnd.symm.trans hnd'
        exact hkept

theorem updatedNoteData_keeps (hfresh : ∀ jsop nd, m.lookup jsop = some nd → nd.witnesses = []) :
    (∃ r m1, updatedNoteData m m' = .ok (r, m1) ∧ KeepsNotes m' m1) ↔
      m.entries = [] ∨ ∀ jsop nd, m'.lookup jsop = some nd → ∃ nd', m.lookup jsop = some nd' ∧
        nd'.address = nd.address ∧ ∀ nullifier, nd.nullifier = some nullifier → nd'.nullifier = some nullifier := by
  by_cases hsame : (m.entries.isEmpty || sameNotes m m') = true
  · have hskip : updatedNoteData m m' = .ok (false, m') := if_pos hsame
    refine ⟨fun _ => ?_, fun _ => ⟨false, m', hskip, KeepsNotes.refl m'⟩⟩
    rw [Bool.or_eq_true, List.isEmpty_iff] at hsame
    refine hsame.imp_right fun hsame jsop nd hnd => ?_
    obtain ⟨nd', hnd', hadr, hnf⟩ := sameNotes_lookup hsame hnd
    exact ⟨nd', hnd', hadr, fun nullifier hcac => hnf.trans hcac⟩
  · have hmerge : updatedNoteData m m' = (do
        let tmp ← KeyMap.merge keepWitnesses m m'
        pure (true, tmp)) := if_neg hsame
    rw [hmerge]
    constructor
    · rintro ⟨r, m1, hm1, hkeeps⟩
      obtain ⟨tmp, htmp, hpure⟩ := except_bind_ok.1 hm1
      obtain ⟨-, rfl⟩ := Prod.mk.inj (Except.ok.inj hpure)
      refine .inr fun jsop nd hnd => ?_
      obtain ⟨nd', hnd', hkept⟩ := hkeeps jsop nd hnd
      have hwr := KeyMap.merge_ok htmp hnd
      rw [hnd'] at hwr
      cases hfound : m.lookup jsop with
      | none =>
        rw [hfound] at hwr
        cases hwr
      | some found =>
        rw [hfound] at hwr
        obtain rfl := Option.some.inj (Except.ok.inj hwr)
        exact ⟨found, rfl, hkept.address, hkept.nullifier⟩
    · intro hcond
      have hfound := hcond.resolve_left fun hempty => hsame (by rw [hempty]; rfl)
      obtain ⟨r, m1, hm1, hwitnesses⟩ := updatedNoteData_ok hfresh fun jsop nd hnd =>
        (hfound jsop nd hnd).imp fun _ h => h.1
      rw [hmerge] at hm1
      refine ⟨r, m1, hm1, fun jsop nd hnd => ?_⟩
      obtain ⟨nd', hnd', hw, hht⟩ := hwitnesses jsop nd hnd
      obtain ⟨found, hlook, hadr, hnf⟩ := hfound jsop nd hnd
      obtain ⟨tmp, htmp, hpure⟩ := except_bind_ok.1 hm1
      obtain ⟨-, rfl⟩ := Prod.mk.inj (Except.ok.inj hpure)
      have hwr := KeyMap.merge_ok htmp hnd
      rw [hlook, hnd'] at hwr
      obtain rfl := Option.some.inj (Except.ok.inj hwr)
      exact ⟨_, hnd', hadr, hnf, hw, hht⟩

/-! ### The copy of a transaction -/

theorem opened_of_mem {jsdesc : JSDescription} {n : Fin ZC_NUM_JS_OUTPUTS}
    {items : List (Sigma fun _ : PaymentAddress => ZCNoteDecryption)} {address : PaymentAddress} {dec : ZCNoteDecryption}
    {plaintext : NotePlaintext} (hmem : ⟨address, dec⟩ ∈ items) (h : decryptOutput env tx jsdesc dec n = .ok plaintext) :
    ∃ p, opened env tx jsdesc n items = some p := by
  induction items with
  | nil => exact absurd hmem not_mem_nil
  | cons item items ih =>
    rw [opened]
    cases hd : decryptOutput env tx jsdesc item.2 n with
    | ok plaintext' => exact ⟨_, rfl⟩
    | error e =>
      rcases mem_cons.1 hmem with rfl | hmem
      · cases hd.symm.trans h
      · exact ih hmem

theorem copyNoteData_findMyNotes : copyNoteData tx (w.findMyNotes env tx) = .ok (w.findMyNotes env tx) := by
  by_cases hlen : (w.findMyNotes env tx).entries.length > 0
  · rw [copyNoteData, if_pos hlen]
    refine if_pos (all_eq_true.2 ?_)
    rintro ⟨jsop, nd⟩ hnd
    obtain ⟨js, jsdesc, n, p, hjs, -, rfl, -⟩ := lookup_findMyNotes.1 (AList.mem_lookup_iff.2 hnd)
    have hlt : js < tx.vjoinsplit.length := (List.getElem?_eq_some_iff.1 hjs).1
    rw [Bool.and_eq_true, decide_eq_true_eq, decide_eq_true_eq]
    exact ⟨hlt, n.isLt⟩
  · rw [copyNoteData, if_neg hlen]
    refine congrArg Except.ok (AList.ext ?_)
    exact (length_eq_zero_iff.1 (Nat.eq_zero_of_not_pos hlen)).symm

theorem findMyNotes_fresh (h : (w.findMyNotes env tx).lookup jsop = some nd) :
    nd.witnesses = [] := by
  obtain ⟨js, jsdesc, n, p, -, -, -, rfl⟩ := lookup_findMyNotes.1 h
  rfl

theorem recovered_iff :
    Recovered env w tx jsop nd ↔ ∃ nd', (w.findMyNotes env tx).lookup jsop = some nd' ∧ nd'.address = nd.address ∧
      ∀ nullifier, nd.nullifier = some nullifier → nd'.nullifier = some nullifier := by
  constructor
  · rintro ⟨js, jsdesc, n, plaintext, hjs, rfl, hrec, hnf⟩
    refine ⟨_, lookup_findMyNotes.2 ⟨js, jsdesc, n, _, hjs, hrec, rfl, rfl⟩, rfl, fun nullifier hcac => ?_⟩
    obtain ⟨key, hkey, rfl⟩ := hnf nullifier hcac
    exact Option.map_eq_some_iff.2 ⟨key, hkey, rfl⟩
  · rintro ⟨nd', hnd', hadr, hnf⟩
    obtain ⟨js, jsdesc, n, ⟨address, plaintext⟩, hjs, hrec, rfl, rfl⟩ := lookup_findMyNotes.1 hnd'
    obtain rfl : address = nd.address := hadr
    refine ⟨js, jsdesc, n, plaintext, hjs, rfl, hrec, fun nullifier hcac => ?_⟩
    exact Option.map_eq_some_iff.1 (hnf nullifier hcac)

/-- The wallet with other note data of a transaction. -/
def replaceNoteData (env : WalletEnv) (tx : CTransaction) (wtx : CWalletTx) (w : CWallet)
    (mapNoteData : KeyMap JSOutPoint CNoteData) : CWallet :=
  { w with mapWallet := w.mapWallet.insert (env.getHash tx) { wtx with mapNoteData } }

/-- Notes that an earlier key store has found are found again when its decryptors are still there. -/
theorem findMyNotes_grows (hdec : ∀ d ∈ w0.mapNoteDecryptors.entries, d ∈ w.mapNoteDecryptors.entries)
     (h : (w0.findMyNotes env tx).lookup jsop = some nd) :
    ∃ nd', (w.findMyNotes env tx).lookup jsop = some nd' := by
  obtain ⟨js, jsdesc, n, ⟨address, plaintext⟩, hjs, hrec, rfl, rfl⟩ := lookup_findMyNotes.1 h
  obtain ⟨dec, hmem, hopen⟩ := opened_some hrec
  obtain ⟨p, hp⟩ := opened_of_mem (hdec _ hmem) hopen
  exact ⟨_, lookup_findMyNotes.2 ⟨js, jsdesc, n, p, hjs, hp, rfl, rfl⟩⟩

theorem withLock_decryptors (fLocked : Bool) : (w.withLock fLocked).mapNoteDecryptors = w.mapNoteDecryptors := by
  cases fLocked <;> rfl

section

variable (hwtx : w.mapWallet.lookup (env.getHash tx) = some wtx)
include hwtx

/-- A copy of a transaction that the wallet has: the note data are merged. -/
theorem addToWalletIfInvolvingMe_update (fLocked isMine : Bool) :
    w.addToWalletIfInvolvingMe env fLocked true isMine tx =
      (updatedNoteData ((w.withLock fLocked).findMyNotes env tx) wtx.mapNoteData).map fun r =>
        (true, w.replaceNoteData env tx wtx r.2) := by
  have hadd : ∀ mapNoteData, w.addToWallet env ⟨tx, mapNoteData⟩ =
      (updatedNoteData mapNoteData wtx.mapNoteData).map fun r => w.replaceNoteData env tx wtx r.2 := by
    intro mapNoteData
    rw [addToWallet, hwtx]
    dsimp only
    cases updatedNoteData mapNoteData wtx.mapNoteData <;> rfl
  unfold addToWalletIfInvolvingMe
  rw [hwtx]
  dsimp only
  rw [if_neg (by rw [Option.isSome_some]; decide), if_pos (by rw [Option.isSome_some, Bool.true_or, Bool.true_or]), copyNoteData_findMyNotes]
  change (w.addToWallet env ⟨tx, _⟩ >>= _) = _
  rw [hadd]
  cases updatedNoteData ((w.withLock fLocked).findMyNotes env tx) wtx.mapNoteData <;> rfl

theorem addToWalletIfInvolvingMe_noUpdate (fLocked isMine : Bool) :
    w.addToWalletIfInvolvingMe env fLocked false isMine tx = .ok (false, w) := by
  unfold addToWalletIfInvolvingMe
  rw [hwtx]
  rfl

theorem keepsTx_update (fLocked isMine : Bool) :
    (∃ r w', w.addToWalletIfInvolvingMe env fLocked true isMine tx = .ok (r, w') ∧ KeepsTx (env.getHash tx) w w') ↔
      ∃ r m1, updatedNoteData ((w.withLock fLocked).findMyNotes env tx) wtx.mapNoteData = .ok (r, m1) ∧
        KeepsNotes wtx.mapNoteData m1 := by
  have hlook : ∀ m1, (w.replaceNoteData env tx wtx m1).mapWallet.lookup (env.getHash tx) =
      some { wtx with mapNoteData := m1 } := fun m1 => AList.lookup_insert _
  rw [addToWalletIfInvolvingMe_update hwtx]
  constructor
  · rintro ⟨r, w', hw', hkeeps⟩
    cases hm : updatedNoteData ((w.withLock fLocked).findMyNotes env tx) wtx.mapNoteData with
    | error e =>
      rw [hm] at hw'
      cases hw'
    | ok p =>
      obtain ⟨r1, m1⟩ := p
      rw [hm] at hw'
      obtain ⟨-, rfl⟩ := Prod.mk.inj (Except.ok.inj hw')
      obtain ⟨wtx', hwtx', hnotes⟩ := hkeeps wtx hwtx
      obtain rfl := Option.some.inj ((hlook m1).symm.trans hwtx')
      exact ⟨r1, m1, rfl, hnotes⟩
  · rintro ⟨r1, m1, hm, hnotes⟩
    rw [hm]
    refine ⟨true, w.replaceNoteData env tx wtx m1, rfl, fun wtx1 hwtx1 => ?_⟩
    cases hwtx.symm.trans hwtx1
    exact ⟨_, hlook m1, hnotes⟩

end

/-- A copy of a transaction of the wallet, with any note data and any key store, locked or not.  If the decryptors with which
its notes were found are still there, nothing is thrown and every note is kept with its witnesses; what else was known of
the notes is kept just when the copy is not looked at, or nothing is found in it, or the keys at hand give again the
addresses and the nullifiers that were known. -/
theorem addToWalletIfInvolvingMe_keeps {wtx : CWalletTx} (hwtx : w.mapWallet.lookup (env.getHash tx) = some wtx)
    (fLocked fUpdate isMine : Bool) :
    (∀ w₀ : CWallet, (∀ d ∈ w₀.mapNoteDecryptors.entries, d ∈ w.mapNoteDecryptors.entries) →
      (∀ jsop nd, wtx.mapNoteData.lookup jsop = some nd → ∃ nd₀, (w₀.findMyNotes env tx).lookup jsop = some nd₀) →
      ∃ r w' wtx', w.addToWalletIfInvolvingMe env fLocked fUpdate isMine tx = .ok (r, w') ∧
        w'.mapWallet.lookup (env.getHash tx) = some wtx' ∧ ∀ jsop nd, wtx.mapNoteData.lookup jsop = some nd →
          ∃ nd', wtx'.mapNoteData.lookup jsop = some nd' ∧ nd'.witnesses = nd.witnesses ∧
            nd'.witnessHeight = nd.witnessHeight) ∧
    ((∃ r w', w.addToWalletIfInvolvingMe env fLocked fUpdate isMine tx = .ok (r, w') ∧ KeepsTx (env.getHash tx) w w') ↔
      fUpdate = false ∨ (∀ jsop, ((w.withLock fLocked).findMyNotes env tx).lookup jsop = none) ∨
        ∀ jsop nd, wtx.mapNoteData.lookup jsop = some nd → Recovered env (w.withLock fLocked) tx jsop nd) := by
  have hfresh : ∀ jsop nd, ((w.withLock fLocked).findMyNotes env tx).lookup jsop = some nd → nd.witnesses = [] :=
    fun _ _ => findMyNotes_fresh
  constructor
  · intro w0 hdec hfound
    cases fUpdate with
    | false =>
      refine ⟨false, w, wtx, addToWalletIfInvolvingMe_noUpdate hwtx fLocked isMine, hwtx, fun jsop nd hnd => ?_⟩
      exact ⟨nd, hnd, rfl, rfl⟩
    | true =>
      obtain ⟨r, m1, hm1, hkept⟩ := updatedNoteData_ok hfresh fun jsop nd hnd => by
        obtain ⟨nd0, hnd0⟩ := hfound jsop nd hnd
        exact findMyNotes_grows (by rwa [withLock_decryptors fLocked]) hnd0
      refine ⟨true, w.replaceNoteData env tx wtx m1, { wtx with mapNoteData := m1 }, ?_, ?_, hkept⟩
      · rw [addToWalletIfInvolvingMe_update hwtx, hm1]
        rfl
      · exact AList.lookup_insert _
  · cases fUpdate with
    | false =>
      refine ⟨fun _ => .inl rfl, fun _ => ⟨false, w, addToWalletIfInvolvingMe_noUpdate hwtx fLocked isMine, ?_⟩⟩
      exact fun wtx hwtx => ⟨wtx, hwtx, KeepsNotes.refl _⟩
    | true =>
      have hempty : ((w.withLock fLocked).findMyNotes env tx).entries = [] ↔
          ∀ jsop, ((w.withLock fLocked).findMyNotes env tx).lookup jsop = none := by
        refine ⟨fun hents jsop => ?_, fun hnone => eq_nil_iff_forall_not_mem.2 fun e he => ?_⟩
        · rw [AList.lookup, hents, dlookup_nil]
        · cases (hnone e.1).symm.trans (AList.mem_lookup_iff.2 he)
      simp only [recovered_iff]
      rw [or_iff_right Bool.noConfusion, ← hempty, ← updatedNoteData_keeps hfresh, keepsTx_update hwtx]

private theorem paid_hash : (paid 1).mapWallet.lookup (plainWalletEnv.getHash (payment 1)) = some (paymentTx 1) := rfl

private theorem paid_data : (paymentTx 1).mapNoteData = ((paid 1).withLock false).findMyNotes plainWalletEnv (payment 1) :=
  (paid_recorded 1 _ _ paid_hash).2

private theorem paid_note (fLocked : Bool) (n : Fin ZC_NUM_JS_OUTPUTS)
    (hnd : nd = record plainWalletEnv ((paid 1).withLock fLocked) (⟨0, 0⟩, plainNote 1)) :
    (((paid 1).withLock fLocked).findMyNotes plainWalletEnv (payment 1)).lookup
      ⟨plainWalletEnv.getHash (payment 1), 0, n⟩ = some nd := by
  have hrec := paid_received (show 1 < 256 ^ 8 by decide) n
  rw [received, ← withLock_decryptors fLocked] at hrec
  exact lookup_findMyNotes.2 ⟨0, twoNotes 1, n, _, rfl, hrec, rfl, hnd⟩

/-- An unlocked wallet keeps what it knew. -/
theorem unlockedCopy_keeps : ∃ r w', (paid 1).addToWalletIfInvolvingMe plainWalletEnv false true false (payment 1) =
    .ok (r, w') ∧ KeepsTx (plainWalletEnv.getHash (payment 1)) (paid 1) w' := by
  refine (addToWalletIfInvolvingMe_keeps paid_hash false true false).2.2 (Or.inr (Or.inr ?_))
  intro jsop nd hnd
  rw [paid_data] at hnd
  exact recovered_iff.2 ⟨nd, hnd, rfl, fun _ hcac => hcac⟩

/-- The wallet had cached the nullifier of a note when it was unlocked.  The same transaction comes again, in a block, when the
wallet is locked: the nullifier is forgotten. -/
theorem lockedCopy_forgets :
    ((paid 1).mapWallet.lookup (plainWalletEnv.getHash (payment 1)) = some (paymentTx 1) ∧
      (paymentTx 1).mapNoteData.lookup ⟨plainWalletEnv.getHash (payment 1), 0, 0⟩ =
        some { address := ⟨0, 0⟩, nullifier := some 0 }) ∧
    ∃ w' wtx', (paid 1).addToWalletIfInvolvingMe plainWalletEnv true true false (payment 1) = .ok (true, w') ∧
      w'.mapWallet.lookup (plainWalletEnv.getHash (payment 1)) = some wtx' ∧
      wtx'.mapNoteData.lookup ⟨plainWalletEnv.getHash (payment 1), 0, 0⟩ = some { address := ⟨0, 0⟩ } := by
  have hknown : (paymentTx 1).mapNoteData.lookup ⟨plainWalletEnv.getHash (payment 1), 0, 0⟩ =
      some { address := ⟨0, 0⟩, nullifier := some 0 } := by
    rw [paid_data]
    exact paid_note false ⟨0, by decide⟩ rfl
  have hfound : (((paid 1).withLock true).findMyNotes plainWalletEnv (payment 1)).lookup
      ⟨plainWalletEnv.getHash (payment 1), 0, 0⟩ = some { address := ⟨0, 0⟩ } := paid_note true ⟨0, by decide⟩ rfl
  refine ⟨⟨paid_hash, hknown⟩, ?_⟩
  have hagain : ∀ jsop nd, (paymentTx 1).mapNoteData.lookup jsop = some nd →
      ∃ nd', (((paid 1).withLock true).findMyNotes plainWalletEnv (payment 1)).lookup jsop = some nd' := by
    intro jsop nd hnd
    rw [paid_data] at hnd
    refine findMyNotes_grows ?_ hnd
    rw [withLock_decryptors, withLock_decryptors]
    exact fun d hd => hd
  obtain ⟨r, m₁, hm1, -⟩ := updatedNoteData_ok (fun jsop nd hnd => findMyNotes_fresh hnd) hagain
  refine ⟨(paid 1).replaceNoteData plainWalletEnv (payment 1) (paymentTx 1) m₁, { paymentTx 1 with mapNoteData := m₁ }, ?_,
    AList.lookup_insert _, ?_⟩
  · rw [addToWalletIfInvolvingMe_update paid_hash, hm1]
    rfl
  · by_cases hsame : ((((paid 1).withLock true).findMyNotes plainWalletEnv (payment 1)).entries.isEmpty ||
        sameNotes (((paid 1).withLock true).findMyNotes plainWalletEnv (payment 1)) (paymentTx 1).mapNoteData) = true
    · -- the notes differ in the nullifier
      rw [Bool.or_eq_true, List.isEmpty_iff] at hsame
      rcases hsame with hempty | hsame
      · rw [AList.lookup, hempty, dlookup_nil] at hfound
        cases hfound
      · obtain ⟨nd', hnd', -, hnf⟩ := sameNotes_lookup hsame hknown
        obtain rfl := Option.some.inj (hfound.symm.trans hnd')
        exact absurd hnf.symm (Option.some_ne_none 0)
    · rw [updatedNoteData, if_neg hsame] at hm1
      obtain ⟨tmp, htmp, hpure⟩ := except_bind_ok.1 hm1
      obtain ⟨-, rfl⟩ := Prod.mk.inj (Except.ok.inj hpure)
      have hwr := KeyMap.merge_ok htmp hknown
      rw [hfound] at hwr
      exact (Except.ok.inj hwr).symm

end CWallet

end LitecoinZ
