import LitecoinZ.Coins.View
import LitecoinZ.Validation.CheckTransaction

/-!
# Connecting a block

`UpdateCoins`, `CheckTxInputs`, `ContextualCheckInputs` and `ConnectBlock` of `main.cpp`, with the members of
`CCoinsViewCache` that they use.  The code sees the view through its operations only (`CoinsViewOps`); it is run on
stacks of caches and reasoned about on plain tables of answers.  A `false` of the source, an exception, a failed
assertion and an overflow are faults: the caller then drops the view.
-/

namespace LitecoinZ

/-- The operations of a `CCoinsViewCache`. -/
class CoinsViewOps (σ : Type) where
  accessCoins : Uint256 → σ → Option CCoins × σ
  modifyCoins : {α : Type} → Uint256 → (CCoins → Except Fault (α × CCoins)) → σ → Except Fault (α × σ)
  getAnchorAt : Uint256 → σ → Option ZCIncrementalMerkleTree × σ
  pushAnchor : ZCIncrementalMerkleTree → σ → σ
  popAnchor : Option Uint256 → σ → Except Fault σ
  getNullifier : Uint256 → σ → Bool × σ
  setNullifier : Uint256 → Bool → σ → σ
  getBestBlock : σ → Option Uint256 × σ
  getBestAnchor : σ → Option Uint256 × σ
  setBestBlock : Option Uint256 → σ → σ

instance [MerkleHash Uint256] : CoinsViewOps CCoinsViewCache where
  accessCoins txid c := c.accessCoins txid
  modifyCoins txid modify c := c.modifyCoins txid modify
  getAnchorAt rt c := c.getAnchorAt rt
  pushAnchor tree c := c.pushAnchor tree
  popAnchor newrt c := c.popAnchor newrt
  getNullifier nullifier c := c.getNullifier nullifier
  setNullifier nullifier spent c := c.setNullifier nullifier spent
  getBestBlock c := c.getBestBlock
  getBestAnchor c := c.getBestAnchor
  setBestBlock hashBlock c := c.setBestBlock hashBlock

/-- Code that works on a view and may fail. -/
abbrev ViewM (σ : Type) := StateT σ (Except Fault)

namespace ViewM

variable {σ : Type} [CoinsViewOps σ]

def accessCoins (txid : Uint256) : ViewM σ (Option CCoins) := fun v => .ok (CoinsViewOps.accessCoins txid v)

def modifyCoins {α : Type} (txid : Uint256) (modify : CCoins → Except Fault (α × CCoins)) : ViewM σ α :=
  fun v => CoinsViewOps.modifyCoins txid modify v

def getAnchorAt (rt : Uint256) : ViewM σ (Option ZCIncrementalMerkleTree) := fun v => .ok (CoinsViewOps.getAnchorAt rt v)

def pushAnchor (tree : ZCIncrementalMerkleTree) : ViewM σ Unit := fun v => .ok ((), CoinsViewOps.pushAnchor tree v)

def popAnchor (newrt : Option Uint256) : ViewM σ Unit := fun v => (CoinsViewOps.popAnchor newrt v).map fun v => ((), v)

def getNullifier (nullifier : Uint256) : ViewM σ Bool := fun v => .ok (CoinsViewOps.getNullifier nullifier v)

def setNullifier (nullifier : Uint256) (spent : Bool) : ViewM σ Unit :=
  fun v => .ok ((), CoinsViewOps.setNullifier nullifier spent v)

def getBestBlock : ViewM σ (Option Uint256) := fun v => .ok (CoinsViewOps.getBestBlock v)

def getBestAnchor : ViewM σ (Option Uint256) := fun v => .ok (CoinsViewOps.getBestAnchor v)

def setBestBlock (hashBlock : Option Uint256) : ViewM σ Unit :=
  fun v => .ok ((), CoinsViewOps.setBestBlock hashBlock v)

end ViewM

open ViewM

/-- The fields of a `CBlockIndex` that connecting and disconnecting a block read. -/
structure BlockIndex where
  hash : Uint256
  nHeight : Int
  /-- The hash of `pprev`, `none` for the genesis block. -/
  pprev : Option Uint256
  /-- The height counts the blocks before. -/
  linked : 1 ≤ nHeight ↔ pprev ≠ none
  deriving DecidableEq, Repr

section

variable {σ : Type} [CoinsViewOps σ] [MerkleHash Uint256]

/-! ### Inputs -/

def getOutputFor (txin : CTxIn) : ViewM σ CTxOut := do
  match ← accessCoins txin.prevout.hash with
  | none => throw (.assertion "coins && coins->IsAvailable(input.prevout.n)")
  | some coins =>
    reject (!coins.isAvailable txin.prevout.n) (.assertion "coins && coins->IsAvailable(input.prevout.n)")
    pure (coins.vout.getD txin.prevout.n .null)

def sumOutputsFor : CAmount → List CTxIn → ViewM σ CAmount
  | nResult, [] => pure nResult
  | nResult, txin :: vin => do
    let txout ← getOutputFor txin
    let nResult ← checked (nResult + txout.nValue)
    sumOutputsFor nResult vin

def getValueIn (tx : CTransaction) : ViewM σ CAmount :=
  if tx.isCoinBase then pure 0
  else do
    let nResult ← sumOutputsFor 0 tx.vin
    let joinSplitValueIn ← tx.getJoinSplitValueIn
    checked (nResult + joinSplitValueIn)

def haveAllInputs : List CTxIn → ViewM σ Bool
  | [] => pure true
  | txin :: vin => do
    let coins ← accessCoins txin.prevout.hash
    if coins.any (·.isAvailable txin.prevout.n) then haveAllInputs vin else pure false

def haveInputs (tx : CTransaction) : ViewM σ Bool :=
  if tx.isCoinBase then pure true else haveAllInputs tx.vin

def anyNullifier : List Uint256 → ViewM σ Bool
  | [] => pure false
  | nf :: nfs => do
    if ← getNullifier nf then pure true else anyNullifier nfs

/-- `append` as it is called in validation: the exception is not caught. -/
def appendCommitments (tree : ZCIncrementalMerkleTree) (commitments : List Uint256) :
    Except Fault ZCIncrementalMerkleTree :=
  match tree.appendAll commitments with
  | .ok tree => .ok tree
  | .error e => .error (.exception e.what)

/-- The tree of an anchor: of a JoinSplit before in the transaction, or of the view. -/
def findAnchor (intermediates : KeyMap Uint256 ZCIncrementalMerkleTree) (anchor : Uint256) :
    ViewM σ (Option ZCIncrementalMerkleTree) :=
  match intermediates.lookup anchor with
  | some tree => pure (some tree)
  | none => getAnchorAt anchor

/-- The loop of `HaveJoinSplitRequirements`, with the trees of the JoinSplits before. -/
def haveJoinSplits (intermediates : KeyMap Uint256 ZCIncrementalMerkleTree) : List JSDescription → ViewM σ Bool
  | [] => pure true
  | joinsplit :: vjoinsplit => do
    if ← anyNullifier joinsplit.nullifiers.toList then pure false
    else
      match ← findAnchor intermediates joinsplit.anchor with
      | none => pure false
      | some tree =>
        let tree ← appendCommitments tree joinsplit.commitments.toList
        -- `insert` leaves an entry that is already there
        let intermediates :=
          if (intermediates.lookup tree.root).isSome then intermediates else intermediates.insert tree.root tree
        haveJoinSplits intermediates vjoinsplit

def haveJoinSplitRequirements (tx : CTransaction) : ViewM σ Bool := haveJoinSplits ∅ tx.vjoinsplit

/-- The loop of `CheckTxInputs` over the inputs. -/
def checkInputValues (env : Env) (tx : CTransaction) (nSpendHeight : Int) : CAmount → List CTxIn → ViewM σ CAmount
  | nValueIn, [] => pure nValueIn
  | nValueIn, txin :: vin => do
    match ← accessCoins txin.prevout.hash with
    | none => throw (.assertion "coins")
    | some coins =>
      reject (coins.fCoinBase && nSpendHeight - coins.nHeight < COINBASE_MATURITY)
        (rejectInvalid 0 "bad-txns-premature-spend-of-coinbase")
      reject (coins.fCoinBase && env.fCoinbaseEnforcedProtectionEnabled && env.fCoinbaseMustBeProtected &&
          !tx.vout.isEmpty) (rejectInvalid 0 "bad-txns-coinbase-spend-has-transparent-outputs")
      let nValue := (coins.vout.getD txin.prevout.n .null).nValue
      let nValueIn ← checked (nValueIn + nValue)
      reject (!moneyRange nValue || !moneyRange nValueIn) (rejectInvalid 100 "bad-txns-inputvalues-outofrange")
      checkInputValues env tx nSpendHeight nValueIn vin

variable (env : Env)

def checkTxInputs (tx : CTransaction) (nSpendHeight : Int) : ViewM σ Unit := do
  let have1 ← haveInputs tx
  reject (!have1) (.dos 0 0 "" false)
  let have2 ← haveJoinSplitRequirements tx
  reject (!have2) (.dos 0 0 "" false)
  let nValueIn ← checkInputValues env tx nSpendHeight 0 tx.vin
  let joinSplitValueIn ← tx.getJoinSplitValueIn
  let nValueIn ← checked (nValueIn + joinSplitValueIn)
  reject (!moneyRange nValueIn) (rejectInvalid 100 "bad-txns-inputvalues-outofrange")
  let valueOut ← tx.getValueOut
  reject (nValueIn < valueOut) (rejectInvalid 100 "bad-txns-in-belowout")
  let nTxFee ← checked (nValueIn - valueOut)
  reject (nTxFee < 0) (rejectInvalid 100 "bad-txns-fee-negative")
  reject (!moneyRange nTxFee) (rejectInvalid 100 "bad-txns-fee-outofrange")

/-- The script checks of the inputs from index `i` on; a failed one is reported at once, or noted for the end of the
block when other threads do it.  The result says whether the noted checks pass. -/
def checkScripts (env : Env) (tx : CTransaction) : Nat → List CTxIn → ViewM σ Bool
  | _, [] => pure true
  | i, txin :: vin => do
    match ← accessCoins txin.prevout.hash with
    | none => throw (.assertion "coins")
    | some coins =>
      let scriptPubKey := (coins.vout.getD txin.prevout.n .null).scriptPubKey
      match env.verifyScript tx i scriptPubKey ⟨true, true⟩ with
      | none => checkScripts env tx (i + 1) vin
      | some err =>
        if env.fScriptCheckThreads then do
          let _ ← checkScripts env tx (i + 1) vin
          pure false
        else do
          reject (env.verifyScript tx i scriptPubKey ⟨true, false⟩).isNone
            (.dos 0 REJECT_NONSTANDARD "non-mandatory-script-verify-flag (No error)" false)
          throw (rejectInvalid 100 ("mandatory-script-verify-flag-failed (" ++ err ++ ")"))

/-- `ContextualCheckInputs`, with `GetSpendHeight`. -/
def contextualCheckInputs (tx : CTransaction) (fScriptChecks : Bool) : ViewM σ Bool :=
  if tx.isCoinBase then pure true
  else do
    let best ← getBestBlock
    checkTxInputs env tx (env.blockHeight best + 1)
    if fScriptChecks then checkScripts env tx 0 tx.vin else pure true

def sumP2SHSigOps (env : Env) : List CTxIn → ViewM σ Nat
  | [] => pure 0
  | txin :: vin => do
    let prevout ← getOutputFor txin
    let n ← sumP2SHSigOps env vin
    pure (env.p2shSigOpCount prevout.scriptPubKey txin.scriptSig + n)

def getP2SHSigOpCount (tx : CTransaction) : ViewM σ Nat :=
  if tx.isCoinBase then pure 0 else sumP2SHSigOps env tx.vin

/-- Spending an output through a `CCoinsModifier`: the undo information, with the metadata of the transaction when
its last output goes, and the coins left. -/
def spendForUndo (nPos : Nat) (coins : CCoins) : Except Fault (CTxInUndo × CCoins) := do
  reject (!coins.isAvailable nPos) (.assertion "false")
  let txout := coins.vout.getD nPos .null
  let coins := (coins.spend nPos).2
  if coins.vout.isEmpty then
    pure ({ txout, fCoinBase := coins.fCoinBase, nHeight := coins.nHeight, nVersion := coins.nVersion }, coins)
  else pure ({ txout }, coins)

def spendInputs : List CTxIn → ViewM σ (List CTxInUndo)
  | [] => pure []
  | txin :: vin => do
    let undo ← modifyCoins txin.prevout.hash (spendForUndo txin.prevout.n)
    let undos ← spendInputs vin
    pure (undo :: undos)

def setNullifiers (spent : Bool) : List Uint256 → ViewM σ Unit
  | [] => pure ()
  | nf :: nfs => do
    setNullifier nf spent
    setNullifiers spent nfs

def updateCoins (tx : CTransaction) (nHeight : Int) : ViewM σ CTxUndo := do
  let vprevout ← (if tx.isCoinBase then pure [] else spendInputs tx.vin)
  setNullifiers true tx.nullifiers
  modifyCoins (env.getHash tx) fun _ => .ok ((), CCoins.fromTx tx nHeight)
  pure { vprevout }

/-! ### ConnectBlock -/

/-- `GetBlockSubsidy`; heights are not negative. -/
def getBlockSubsidy (nHeight : Int) : CAmount :=
  let halvings := nHeight.toNat / env.nSubsidyHalvingInterval
  if halvings ≥ 64 then 0 else 50 * COIN / 2 ^ halvings

/-- No transaction of the block has coins that are not fully spent. -/
def checkBIP30 (env : Env) : List CTransaction → ViewM σ Unit
  | [] => pure ()
  | tx :: vtx => do
    let coins ← accessCoins (env.getHash tx)
    reject (coins.any (!·.isPruned)) (rejectInvalid 100 "bad-txns-BIP30")
    checkBIP30 env vtx

/-- What `ConnectBlock` accumulates over the transactions. -/
structure BlockAcc where
  tree : ZCIncrementalMerkleTree
  nFees : CAmount := 0
  nSigOps : Nat := 0
  vtxundo : List CTxUndo := []
  fScriptsOk : Bool := true

/-- The checks of a transaction against the view: its fee, its signature operations and whether its noted script
checks pass. -/
def checkTxOnView (fExpensiveChecks : Bool) (tx : CTransaction) (acc : BlockAcc) : ViewM σ BlockAcc :=
  if tx.isCoinBase then pure acc
  else do
    let have1 ← haveInputs tx
    reject (!have1) (rejectInvalid 100 "bad-txns-inputs-missingorspent")
    let have2 ← haveJoinSplitRequirements tx
    reject (!have2) (rejectInvalid 100 "bad-txns-joinsplit-requirements-not-met")
    let p2sh ← getP2SHSigOpCount env tx
    let nSigOps := acc.nSigOps + p2sh
    reject (nSigOps > MAX_BLOCK_SIGOPS) (rejectInvalid 100 "bad-blk-sigops")
    let valueIn ← getValueIn tx
    let valueOut ← tx.getValueOut
    let fee ← checked (valueIn - valueOut)
    let nFees ← checked (acc.nFees + fee)
    let ok ← contextualCheckInputs env tx fExpensiveChecks
    pure { acc with nSigOps, nFees, fScriptsOk := acc.fScriptsOk && ok }

/-- One round of the loop of `ConnectBlock`; the undo information of the first transaction is dropped. -/
def connectTx (index : BlockIndex) (fExpensiveChecks fFirst : Bool) (tx : CTransaction) (acc : BlockAcc) :
    ViewM σ BlockAcc := do
  let nSigOps := acc.nSigOps + getLegacySigOpCount env tx
  reject (nSigOps > MAX_BLOCK_SIGOPS) (rejectInvalid 100 "bad-blk-sigops")
  let acc ← checkTxOnView env fExpensiveChecks tx { acc with nSigOps }
  let txundo ← updateCoins env tx index.nHeight
  let tree ← appendCommitments acc.tree tx.commitments
  pure { acc with tree, vtxundo := if fFirst then acc.vtxundo else acc.vtxundo ++ [txundo] }

def connectTxs (env : Env) (index : BlockIndex) (fExpensiveChecks : Bool) :
    Bool → List CTransaction → BlockAcc → ViewM σ BlockAcc
  | _, [], acc => pure acc
  | fFirst, tx :: vtx, acc => do
    let acc ← connectTx env index fExpensiveChecks fFirst tx acc
    connectTxs env index fExpensiveChecks false vtx acc

/-- What `ConnectBlock` leaves besides the view, unless it is only to check the block: the undo information that is
written to disk, none for the genesis block, and the anchors of the block index. -/
structure ConnectResult where
  undo : Option CBlockUndo
  hashAnchor : Option Uint256
  hashAnchorEnd : Uint256
  deriving DecidableEq, Repr

/-- `block.vtx[0].GetValueOut()`; that there is a first transaction is checked in `CheckBlock`. -/
def coinBaseValueOut (block : CBlock) : Except Fault CAmount :=
  match block.vtx with
  | [] => .error (.assertion "block.vtx[0]")
  | tx :: _ => tx.getValueOut

def connectBlock (block : CBlock) (index : BlockIndex) (fExpensiveChecks fJustCheck : Bool) :
    ViewM σ (Option ConnectResult) := do
  checkBlock env block fExpensiveChecks (!fJustCheck) (!fJustCheck)
  let best ← getBestBlock
  reject (index.pprev ≠ best) (.assertion "hashPrevBlock == view.GetBestBlock()")
  if env.blockHash block.header = env.hashGenesisBlock then
    if fJustCheck then pure none
    else do
      setBestBlock (some index.hash)
      let root := ({} : ZCIncrementalMerkleTree).root
      pure (some { undo := none, hashAnchor := some root, hashAnchorEnd := root })
  else do
    checkBIP30 env block.vtx
    let old_tree_root ← getBestAnchor
    match ← getAnchorAt (old_tree_root.getD 0) with
    | none => throw (.assertion "view.GetAnchorAt(old_tree_root, tree)")
    | some tree =>
      reject (some tree.root ≠ old_tree_root) (.assertion "tree.root() == old_tree_root")
      let acc ← connectTxs env index fExpensiveChecks true block.vtx { tree }
      pushAnchor acc.tree
      let blockReward ← checked (acc.nFees + getBlockSubsidy env index.nHeight)
      let valueOut ← coinBaseValueOut block
      reject (valueOut > blockReward) (rejectInvalid 100 "bad-cb-amount")
      reject (!acc.fScriptsOk) (.dos 100 0 "" false)
      if fJustCheck then pure none
      else do
        setBestBlock (some index.hash)
        pure (some { undo := some { vtxundo := acc.vtxundo, old_tree_root }, hashAnchor := old_tree_root,
                     hashAnchorEnd := acc.tree.root })

end

end LitecoinZ
