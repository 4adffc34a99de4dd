import LitecoinZ.Lib.Traverse
import LitecoinZ.Validation.CheckTransaction
import LitecoinZ.Wallet.Wallet
import LitecoinZ.Zcash.Witness

/-!
# The witnesses of the notes

`IncrementNoteWitnesses`, `DecrementNoteWitnesses` and `GetNoteWitnesses` of `wallet/wallet.cpp`, and the runs of the
first two along a chain.  Both functions walk over all the notes of the wallet; what happens to a note does not depend on
the others (`checks_mapNotes`).
-/

namespace LitecoinZ

open StateExcept

def WITNESS_CACHE_SIZE : Nat := COINBASE_MATURITY.toNat

variable (env : WalletEnv)

namespace CWallet

variable (nHeight : Int)

section

variable [MerkleHash Uint256]

/-- `nWitnessCacheSize >= nd->witnesses.size()`; the comparison is made with unsigned numbers. -/
def assertCovers (nWitnessCacheSize : Int) (nd : CNoteData) : Except Fault Unit :=
  reject ((nWitnessCacheSize % 2 ^ 64).toNat < nd.witnesses.length)
    (.assertion "nWitnessCacheSize >= nd->witnesses.size()")

def mapNotes (f : CNoteData → Except Fault CNoteData) (w : CWallet) : Except Fault CWallet := do
  let mapWallet ← w.mapWallet.mapValuesM fun wtx => do
    let mapNoteData ← wtx.mapNoteData.mapValuesM f
    pure { wtx with mapNoteData }
  pure { w with mapWallet }

/-- Put a copy of the most recent witness in front, and keep at most `WITNESS_CACHE_SIZE`. -/
def pushCopy (witnesses : List ZCIncrementalWitness) : List ZCIncrementalWitness :=
  let witnesses := witnesses.head?.toList ++ witnesses
  if witnesses.length > WITNESS_CACHE_SIZE then witnesses.dropLast else witnesses

/-- Copy the witness for the previous block, if there is one. -/
def copyWitness (nHeight nWitnessCacheSize : Int) (nd : CNoteData) : Except Fault CNoteData :=
  if nd.witnessHeight < nHeight then do
    assertCovers nWitnessCacheSize nd
    reject (nd.witnessHeight ≠ -1 ∧ nd.witnessHeight ≠ nHeight - 1)
      (.assertion "(nd->witnessHeight == -1) || (nd->witnessHeight == pindex->nHeight - 1)")
    pure { nd with witnesses := pushCopy nd.witnesses }
  else pure nd

def appendCommitment (nHeight nWitnessCacheSize : Int) (note_commitment : Uint256) (nd : CNoteData) :
    Except Fault CNoteData :=
  if nd.witnessHeight < nHeight then
    match nd.witnesses with
    | [] => pure nd
    | witness :: witnesses => do
      assertCovers nWitnessCacheSize nd
      match witness.append note_commitment with
      | .ok witness => pure { nd with witnesses := witness :: witnesses }
      | .error e => .error (.exception e.what)
  else pure nd

def setCacheSize (nWitnessCacheSize : Int) (w : CWallet) : CWallet := { w with nWitnessCacheSize }

def setNote (jsoutpt : JSOutPoint) (wtx : CWalletTx) (nd : CNoteData) (w : CWallet) : CWallet :=
  { w with
    mapWallet := w.mapWallet.insert jsoutpt.hash { wtx with mapNoteData := wtx.mapNoteData.insert jsoutpt nd } }

/-- The record of a note that was just found; an inconsistent cache is cleared. -/
def witnessed (tree : ZCIncrementalMerkleTree) (nd : CNoteData) : CNoteData :=
  { nd with
    witnesses := tree.witness :: if nd.witnesses.length > 0 then [] else nd.witnesses
    witnessHeight := nHeight - 1 }

/-- If this is our note, witness it. -/
def witnessNote (tree : ZCIncrementalMerkleTree) (jsoutpt : JSOutPoint) (w : CWallet) : Except Fault CWallet :=
  match w.mapWallet.lookup jsoutpt.hash with
  | none => pure w
  | some wtx =>
    match wtx.mapNoteData.lookup jsoutpt with
    | none => pure w
    | some nd =>
      if nd.witnessHeight < nHeight then do
        assertCovers w.nWitnessCacheSize (witnessed nHeight tree nd)
        pure (w.setNote jsoutpt wtx (witnessed nHeight tree nd))
      else pure w

/-- The commitments of a block with their places, in the order of the loops. -/
def noteCommitments (block : CBlock) : List (JSOutPoint × Uint256) :=
  block.vtx.flatMap fun tx => (noteOutputs tx).map fun o => (outPoint env tx o, o.2.1.commitments.get o.2.2)

/-- The body of the loop over the commitments of a block. -/
def incrementCommitment (s : CWallet × ZCIncrementalMerkleTree) (c : JSOutPoint × Uint256) :
    Except Fault (CWallet × ZCIncrementalMerkleTree) :=
  match s.2.append c.2 with
  | .error e => .error (.exception e.what)
  | .ok tree => do
    let w ← s.1.mapNotes (appendCommitment nHeight s.1.nWitnessCacheSize c.2)
    let w ← w.witnessNote nHeight tree c.1
    pure (w, tree)

def updateHeight (nHeight nWitnessCacheSize : Int) (nd : CNoteData) : Except Fault CNoteData :=
  if nd.witnessHeight < nHeight then do
    let nd := { nd with witnessHeight := nHeight }
    assertCovers nWitnessCacheSize nd
    pure nd
  else pure nd

/-- The size of the cache after a block was connected. -/
def grown (nWitnessCacheSize : Int) : Int :=
  if nWitnessCacheSize < WITNESS_CACHE_SIZE then nWitnessCacheSize + 1 else nWitnessCacheSize

def incrementNoteWitnesses (nHeight : Int) (block : CBlock) (tree : ZCIncrementalMerkleTree)
    (w : CWallet) : Except Fault (CWallet × ZCIncrementalMerkleTree) := do
  let w ← w.mapNotes (copyWitness nHeight w.nWitnessCacheSize)
  let w := w.setCacheSize (grown w.nWitnessCacheSize)
  let (w, tree) ← (noteCommitments env block).foldlM (incrementCommitment nHeight) (w, tree)
  let w ← w.mapNotes (updateHeight nHeight w.nWitnessCacheSize)
  pure (w, tree)

/-- Remove the witness for the block, if there is one. -/
def dropWitness (nHeight nWitnessCacheSize : Int) (nd : CNoteData) : Except Fault CNoteData :=
  if nd.witnessHeight ≤ nHeight then do
    assertCovers nWitnessCacheSize nd
    reject (nd.witnessHeight ≠ -1 ∧ nd.witnessHeight ≠ nHeight)
      (.assertion "(nd->witnessHeight == -1) || (nd->witnessHeight == pindex->nHeight)")
    pure { nd with witnesses := nd.witnesses.tail, witnessHeight := nHeight - 1 }
  else pure nd

/-- The cache must still cover the notes below the removed block. -/
def checkCovered (nHeight nWitnessCacheSize : Int) (nd : CNoteData) : Except Fault CNoteData :=
  if nd.witnessHeight < nHeight then do
    assertCovers nWitnessCacheSize nd
    pure nd
  else pure nd

def decrementNoteWitnesses (w : CWallet) : Except Fault CWallet := do
  let w ← w.mapNotes (dropWitness nHeight w.nWitnessCacheSize)
  let w := w.setCacheSize (w.nWitnessCacheSize - 1)
  let w ← w.mapNotes (checkCovered nHeight w.nWitnessCacheSize)
  reject (w.nWitnessCacheSize ≤ 0) (.assertion "nWitnessCacheSize > 0")
  pure w

end

/-! ### The notes of a wallet -/

def noteAt (w : CWallet) (hash : Uint256) (jsop : JSOutPoint) : Option CNoteData :=
  (w.mapWallet.lookup hash).bind fun wtx => wtx.mapNoteData.lookup jsop

/-- The second wallet is the first one with the records changed as `R` says. -/
structure Updated (R : Uint256 → JSOutPoint → CNoteData → CNoteData → Prop) (w w' : CWallet) : Prop where
  notes : ∀ hash jsop, Option.Rel (R hash jsop) (w.noteAt hash jsop) (w'.noteAt hash jsop)
  txs : ∀ hash, Option.Rel (fun wtx wtx' => wtx.tx = wtx'.tx) (w.mapWallet.lookup hash) (w'.mapWallet.lookup hash)
  size : w'.nWitnessCacheSize = w.nWitnessCacheSize

variable {w : CWallet} {R : Uint256 → JSOutPoint → CNoteData → CNoteData → Prop} {E : Fault → Prop}
  {f : CNoteData → Except Fault CNoteData} {P : Uint256 → JSOutPoint → CNoteData → Prop} {jsoutpt : JSOutPoint}

theorem checks_mapNotes (h : ∀ hash jsop nd, w.noteAt hash jsop = some nd → Checks E (f nd) (R hash jsop nd)) :
    Checks E (w.mapNotes f) (Updated R w) := by
  have hwtx : ∀ hash wtx, w.mapWallet.lookup hash = some wtx →
      Checks E (do
        let mapNoteData ← wtx.mapNoteData.mapValuesM f
        pure { wtx with mapNoteData }) fun wtx' => wtx.tx = wtx'.tx ∧
          ∀ jsop, Option.Rel (R hash jsop) (wtx.mapNoteData.lookup jsop) (wtx'.mapNoteData.lookup jsop) := by
    intro hash wtx hw
    refine (KeyMap.checks_mapValuesM fun jsop nd hnd => h hash jsop nd ?_).bind fun mapNoteData hdata => ?_
    · rw [noteAt, hw]
      exact hnd
    · exact Checks.ok ⟨rfl, hdata⟩
  refine (KeyMap.checks_mapValuesM hwtx).bind fun mapWallet hmap => Checks.ok ⟨?_, ?_, rfl⟩
  · intro hash jsop
    exact OptionRel.bind (hmap hash) fun wtx wtx' hrel => hrel.2 jsop
  · intro hash
    exact OptionRel.mono (hmap hash) fun wtx wtx' hrel => hrel.1

/-- All the notes of the wallet satisfy a condition. -/
def AllNotes (P : Uint256 → JSOutPoint → CNoteData → Prop) (w : CWallet) : Prop :=
  ∀ hash jsop nd, w.noteAt hash jsop = some nd → P hash jsop nd

theorem AllNotes.mapNotes {Q : Uint256 → JSOutPoint → CNoteData → Prop} (hw : w.AllNotes P)
    (hf : ∀ hash jsop nd, P hash jsop nd → Checks E (f nd) (Q hash jsop)) :
    Checks E (w.mapNotes f) fun w' => w'.AllNotes Q ∧ w'.nWitnessCacheSize = w.nWitnessCacheSize := by
  have hmap := checks_mapNotes (R := fun hash jsop _ => Q hash jsop) fun hash jsop nd hnd =>
    hf hash jsop nd (hw hash jsop nd hnd)
  refine hmap.mono fun w' hw' => ⟨fun hash jsop nd' hnd' => ?_, hw'.size⟩
  have hrel := hw'.notes hash jsop
  rw [hnd'] at hrel
  obtain ⟨nd, -, hQ⟩ := OptionRel.exists_left hrel
  exact hQ

theorem AllNotes.setCacheSize (hw : w.AllNotes P) (nWitnessCacheSize : Int) :
    (w.setCacheSize nWitnessCacheSize).AllNotes P := hw

theorem noteAt_setNote {wtx : CWalletTx} {nd : CNoteData} {hash : Uint256} {jsop : JSOutPoint}
    (hwtx : w.mapWallet.lookup jsoutpt.hash = some wtx) :
    (w.setNote jsoutpt wtx nd).noteAt hash jsop =
      if hash = jsoutpt.hash ∧ jsop = jsoutpt then some nd else w.noteAt hash jsop := by
  by_cases hhash : hash = jsoutpt.hash
  · subst hhash
    by_cases hjsop : jsop = jsoutpt
    · subst hjsop
      simp [noteAt, setNote]
    · simp [noteAt, setNote, hwtx, hjsop]
  · simp [noteAt, setNote, hhash]

@[simp] theorem witnesses_witnessed [MerkleHash Uint256] (tree : ZCIncrementalMerkleTree) (nd : CNoteData) :
    (witnessed nHeight tree nd).witnesses = [tree.witness] := by
  cases h : nd.witnesses <;> simp [witnessed, h]

/-- What witnessing a note changes: its own record, unless the wallet does not have it or is ahead. -/
theorem checks_witnessNote [MerkleHash Uint256] {nHeight : Int} {tree : ZCIncrementalMerkleTree} {Q : CWallet → Prop}
    (hsame : (∀ nd, w.noteAt jsoutpt.hash jsoutpt = some nd → nHeight ≤ nd.witnessHeight) → Q w)
    (hnew : ∀ wtx nd, w.mapWallet.lookup jsoutpt.hash = some wtx → w.noteAt jsoutpt.hash jsoutpt = some nd →
      nd.witnessHeight < nHeight →
      Checks E (assertCovers w.nWitnessCacheSize (witnessed nHeight tree nd)) fun _ =>
        Q (w.setNote jsoutpt wtx (witnessed nHeight tree nd))) :
    Checks E (w.witnessNote nHeight tree jsoutpt) Q := by
  cases hwtx : w.mapWallet.lookup jsoutpt.hash with
  | none =>
    have hnone : w.noteAt jsoutpt.hash jsoutpt = none := by rw [noteAt, hwtx]; rfl
    rw [show w.witnessNote nHeight tree jsoutpt = .ok w by rw [witnessNote, hwtx]; rfl]
    exact Checks.ok (hsame fun nd hnd => by rw [hnone] at hnd; cases hnd)
  | some wtx =>
    have hat : w.noteAt jsoutpt.hash jsoutpt = wtx.mapNoteData.lookup jsoutpt := by rw [noteAt, hwtx]; rfl
    cases hnd : wtx.mapNoteData.lookup jsoutpt with
    | none =>
      rw [show w.witnessNote nHeight tree jsoutpt = .ok w by rw [witnessNote, hwtx]; simp only [hnd]; rfl]
      exact Checks.ok (hsame fun nd hnd' => by rw [hat, hnd] at hnd'; cases hnd')
    | some nd =>
      unfold witnessNote
      simp only [hwtx, hnd]
      by_cases hlow : nd.witnessHeight < nHeight
      · rw [if_pos hlow]
        exact (hnew wtx nd hwtx (hat.trans hnd) hlow).bind fun _ hQ => Checks.ok hQ
      · rw [if_neg hlow]
        refine Checks.ok (hsame fun nd' hnd' => ?_)
        rw [hat, hnd] at hnd'
        cases hnd'
        omega

end CWallet

/-! ### Runs along a chain -/

inductive WitnessCall where
  /-- Connect the next block. -/
  | connect (block : CBlock)
  /-- Disconnect the tip. -/
  | disconnect
  | addToWallet (wtx : CWalletTx)

/-- The wallet and the chain that it follows. -/
structure WitnessRun where
  wallet : CWallet
  /-- The commitment tree of the active chain. -/
  tree : ZCIncrementalMerkleTree
  /-- The height of the tip. -/
  height : Int
  /-- The highest height reached. -/
  highest : Int
  /-- The blocks of the active chain connected since the run began, the tip first, with the trees before them. -/
  past : List (CBlock × ZCIncrementalMerkleTree) := []

namespace WitnessRun

def connected (s : WitnessRun) (block : CBlock) (wallet : CWallet) (tree : ZCIncrementalMerkleTree) : WitnessRun where
  wallet
  tree
  height := s.height + 1
  highest := max s.highest (s.height + 1)
  past := (block, s.tree) :: s.past

def disconnected (s : WitnessRun) (wallet : CWallet) : WitnessRun where
  wallet
  tree := (s.past.head?.map Prod.snd).getD s.tree
  height := s.height - 1
  highest := s.highest
  past := s.past.tail

def added (s : WitnessRun) (wtx : CWalletTx) : WitnessRun :=
  { s with wallet := { s.wallet with mapWallet := s.wallet.mapWallet.insert (env.getHash wtx.tx) wtx } }

variable [MerkleHash Uint256]

def step (s : WitnessRun) : WitnessCall → Except Fault WitnessRun
  | .connect block => do
    let (wallet, tree) ← s.wallet.incrementNoteWitnesses env (s.height + 1) block s.tree
    pure (s.connected block wallet tree)
  | .disconnect => do
    let wallet ← s.wallet.decrementNoteWitnesses s.height
    pure (s.disconnected wallet)
  | .addToWallet wtx => pure (s.added env wtx)

def run (env : WalletEnv) (calls : List WitnessCall) (s : WitnessRun) : Except Fault WitnessRun :=
  calls.foldlM (step env) s

end WitnessRun

/-- A transaction as `FindMyNotes` makes it: the notes are its own and have no witnesses yet. -/
def CWalletTx.IsNew (wtx : CWalletTx) : Prop :=
  ∀ jsop nd, wtx.mapNoteData.lookup jsop = some nd →
    jsop.hash = env.getHash wtx.tx ∧ nd.witnesses = [] ∧ nd.witnessHeight = -1

/-- A wallet without witnesses. -/
structure CWallet.IsNew (env : WalletEnv) (w : CWallet) : Prop where
  txs : ∀ hash wtx, w.mapWallet.lookup hash = some wtx → hash = env.getHash wtx.tx ∧ wtx.IsNew env
  size : w.nWitnessCacheSize = 0

end LitecoinZ
