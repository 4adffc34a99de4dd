import LitecoinZ.Zcash.Note

/-!
# The wallet

The notes of `wallet/wallet.{h,cpp}`: what `FindMyNotes` records of a transaction, and what `GetFilteredNotes` reports.
The chain that the wallet looks at, and the text of an address, are parameters.
-/

namespace LitecoinZ

open StateExcept

/-- What the wallet asks the rest of the node. -/
structure WalletEnv where
  note : NoteEnv
  /-- `CTransaction::GetHash`. -/
  getHash : CTransaction → Uint256
  /-- `CZCPaymentAddress(pa).ToString()`. -/
  paymentAddressText : PaymentAddress → String
  checkFinalTx : CTransaction → Bool
  getBlocksToMaturity : CTransaction → Int
  getDepthInMainChain : CTransaction → Int

structure JSOutPoint where
  hash : Uint256
  js : Nat
  n : Nat
  deriving DecidableEq, Repr

structure CNoteData where
  address : PaymentAddress
  nullifier : Option Uint256 := none
  /-- The witnesses, the most recent one first. -/
  witnesses : List ZCIncrementalWitness := []
  witnessHeight : Int := -1
  deriving DecidableEq, Repr

structure CWalletTx where
  tx : CTransaction
  mapNoteData : KeyMap JSOutPoint CNoteData := ∅

structure CWallet where
  mapWallet : KeyMap Uint256 CWalletTx := ∅
  mapNoteDecryptors : KeyMap PaymentAddress ZCNoteDecryption := ∅
  mapSpendingKeys : KeyMap PaymentAddress SpendingKey := ∅
  mapTxNullifiers : List (Uint256 × Uint256) := []
  nWitnessCacheSize : Int := 0

namespace CWallet

/-- `JSDescription::h_sig`. -/
def hSig (env : WalletEnv) (tx : CTransaction) (jsdesc : JSDescription) : Uint256 :=
  env.note.hSig jsdesc.randomSeed jsdesc.nullifiers tx.joinSplitPubKey

variable (env : WalletEnv) (tx : CTransaction)

def decryptOutput (jsdesc : JSDescription) (dec : ZCNoteDecryption)
    (n : Fin ZC_NUM_JS_OUTPUTS) : Except Fault NotePlaintext :=
  NotePlaintext.decrypt env.note dec (jsdesc.ciphertexts.get n) jsdesc.ephemeralKey (hSig env tx jsdesc) (UInt8.ofNat n)

def getNoteNullifier (jsdesc : JSDescription) (address : PaymentAddress)
    (dec : ZCNoteDecryption) (n : Fin ZC_NUM_JS_OUTPUTS) (w : CWallet) : Except Fault (Option Uint256) := do
  let note_pt ← decryptOutput env tx jsdesc dec n
  let note := note_pt.note address
  pure ((w.mapSpendingKeys.lookup address).map (note.nullifier env.note))

/-- The loop of `FindMyNotes` over the decryptors: the first that fits gives the record of the note. -/
def tryDecryptors (env : WalletEnv) (tx : CTransaction) (jsdesc : JSDescription) (n : Fin ZC_NUM_JS_OUTPUTS)
    (w : CWallet) : List (Sigma fun _ : PaymentAddress => ZCNoteDecryption) → Option CNoteData
  | [] => none
  | item :: items =>
    match w.getNoteNullifier env tx jsdesc item.1 item.2 n with
    | .ok nullifier => some { address := item.1, nullifier }
    | .error _ => w.tryDecryptors env tx jsdesc n items

/-- The outputs of the JoinSplits of a transaction, with the places of the JoinSplits. -/
def noteOutputs : List (Nat × JSDescription × Fin ZC_NUM_JS_OUTPUTS) :=
  tx.vjoinsplit.zipIdx.flatMap fun p => (List.finRange ZC_NUM_JS_OUTPUTS).map fun n => (p.2, p.1, n)

def outPoint (o : Nat × JSDescription × Fin ZC_NUM_JS_OUTPUTS) : JSOutPoint :=
  ⟨env.getHash tx, o.1, o.2.2⟩

def findMyNotes (w : CWallet) : KeyMap JSOutPoint CNoteData :=
  (noteOutputs tx).foldl (fun noteData o =>
    match w.tryDecryptors env tx o.2.1 o.2.2 w.mapNoteDecryptors.entries with
    | some nd => noteData.insert (outPoint env tx o) nd
    | none => noteData) ∅

def isSpent (nullifier : Uint256) (w : CWallet) : Bool :=
  w.mapTxNullifiers.any fun p => p.1 = nullifier &&
    match w.mapWallet.lookup p.2 with
    | some wtx => 0 ≤ env.getDepthInMainChain wtx.tx
    | none => false

/-- The filters of `GetFilteredNotes`. -/
structure NoteFilter where
  filterPaymentAddress : Option PaymentAddress := none
  minDepth : Int := 1
  ignoreSpent : Bool := true
  ignoreUnspendable : Bool := true

/-- Whether the notes of a transaction are looked at. -/
def NoteFilter.takesTx (filter : NoteFilter) (tx : CTransaction) : Bool :=
  env.checkFinalTx tx && env.getBlocksToMaturity tx ≤ 0 && filter.minDepth ≤ env.getDepthInMainChain tx

end CWallet

end LitecoinZ
