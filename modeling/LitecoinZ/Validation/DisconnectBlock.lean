import LitecoinZ.Validation.ConnectBlock

/-!
# Disconnecting a block

`ApplyTxInUndo` and `DisconnectBlock` of `main.cpp`.  The result says whether the disconnection was clean, that is
whether the view was as connecting the block must have left it.
-/

namespace LitecoinZ

open ViewM

/-- `vout.resize(n)` when it is longer than before. -/
def growVout (vout : List CTxOut) (n : Nat) : List CTxOut := vout ++ List.replicate (n - vout.length) .null

/-- `ApplyTxInUndo` on the coins it modifies. -/
def applyUndo (undo : CTxInUndo) (n : Nat) (coins : CCoins) : Bool × CCoins :=
  let r :=
    if undo.nHeight ≠ 0 then
      (coins.isPruned,
        { CCoins.clear with fCoinBase := undo.fCoinBase, nHeight := undo.nHeight, nVersion := undo.nVersion })
    else (!coins.isPruned, coins)
  (r.1 && !r.2.isAvailable n, { r.2 with vout := (growVout r.2.vout (n + 1)).set n undo.txout })

def removeOutputs (tx : CTransaction) (nHeight : Int) (outs : CCoins) : Bool × CCoins :=
  let outs := outs.clearUnspendable
  let outsBlock := CCoins.fromTx tx nHeight
  let outs := if outsBlock.nVersion < 0 then { outs with nVersion := outsBlock.nVersion } else outs
  (outs.equal outsBlock, .clear)

section

variable {σ : Type} [CoinsViewOps σ]

def applyTxInUndo (undo : CTxInUndo) (out : COutPoint) : ViewM σ Bool :=
  modifyCoins out.hash fun coins => .ok (applyUndo undo out.n coins)

/-- The loop that restores inputs, the last one first. -/
def restoreInputs : List (CTxIn × CTxInUndo) → ViewM σ Bool
  | [] => pure true
  | (txin, undo) :: rest => do
    let clean ← applyTxInUndo undo txin.prevout
    let clean' ← restoreInputs rest
    pure (clean && clean')

/-- One round of the loop of `DisconnectBlock`; the first transaction has no undo information. -/
def disconnectTx (env : Env) (index : BlockIndex) (tx : CTransaction) (txundo : Option CTxUndo) : ViewM σ Bool := do
  let clean ← modifyCoins (env.getHash tx) fun outs => .ok (removeOutputs tx index.nHeight outs)
  setNullifiers false tx.nullifiers
  match txundo with
  | none => pure clean
  | some txundo =>
    reject (txundo.vprevout.length ≠ tx.vin.length) (.error "DisconnectBlock(): transaction and undo data inconsistent")
    let clean' ← restoreInputs (tx.vin.zip txundo.vprevout).reverse
    pure (clean && clean')

def disconnectTxs (env : Env) (index : BlockIndex) : List (CTransaction × Option CTxUndo) → ViewM σ Bool
  | [] => pure true
  | (tx, txundo) :: rest => do
    let clean ← disconnectTx env index tx txundo
    let clean' ← disconnectTxs env index rest
    pure (clean && clean')

/-- The transactions of a block with their undo information. -/
def withUndo (block : CBlock) (blockUndo : CBlockUndo) : List (CTransaction × Option CTxUndo) :=
  block.vtx.zip (none :: blockUndo.vtxundo.map some)

/-- `DisconnectBlock` with the undo information read from disk, if there is any. -/
def disconnectBlock (env : Env) (block : CBlock) (index : BlockIndex) (undo : Option CBlockUndo) : ViewM σ Bool := do
  let best ← getBestBlock
  reject (some index.hash ≠ best) (.assertion "pindex->GetBlockHash() == view.GetBestBlock()")
  match undo with
  | none => throw (.error "DisconnectBlock(): no undo data available")
  | some blockUndo =>
    reject (blockUndo.vtxundo.length + 1 ≠ block.vtx.length)
      (.error "DisconnectBlock(): block and undo data inconsistent")
    let clean ← disconnectTxs env index (withUndo block blockUndo).reverse
    popAnchor blockUndo.old_tree_root
    setBestBlock index.pprev
    pure clean

end

end LitecoinZ
