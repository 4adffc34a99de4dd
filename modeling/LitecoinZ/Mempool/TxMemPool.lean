import Mathlib.Data.BitVec
import LitecoinZ.Coins.Coins
import LitecoinZ.Lib.KeyMap
import LitecoinZ.Validation.CheckTransaction

/-!
# The memory pool

`CTxMemPool` of `txmempool.cpp`: the transactions with their sizes, and the two indices that point back at them, from
the outpoints they spend and from the nullifiers they reveal.  A pointer to a transaction of the pool is the key of its
entry; following one whose entry is gone is undefined.  The fee estimator and the priorities are left out.
-/

namespace LitecoinZ

open StateExcept

structure CTxMemPoolEntry where
  tx : CTransaction
  nTxSize : BitVec 64
  nUsageSize : BitVec 64
  deriving DecidableEq, Repr

structure CInPoint where
  ptx : Uint256
  n : Nat
  deriving DecidableEq, Repr

structure CTxMemPool where
  fSanityCheck : Bool := false
  mapTx : KeyMap Uint256 CTxMemPoolEntry := ∅
  mapNextTx : KeyMap COutPoint CInPoint := ∅
  mapNullifiers : KeyMap Uint256 Uint256 := ∅
  totalTxSize : BitVec 64 := 0
  cachedInnerUsage : BitVec 64 := 0

namespace CTxMemPool

/-- The entries that a transaction gets in `mapNextTx`. -/
def inPoints (hash : Uint256) (tx : CTransaction) : List (COutPoint × CInPoint) :=
  tx.vin.mapIdx fun i txin => (txin.prevout, ⟨hash, i⟩)

def addUnchecked (hash : Uint256) (entry : CTxMemPoolEntry) (pool : CTxMemPool) : CTxMemPool :=
  { pool with
    mapTx := pool.mapTx.insert hash entry
    mapNextTx := pool.mapNextTx.insertAll (inPoints hash entry.tx)
    mapNullifiers := pool.mapNullifiers.insertAll (entry.tx.nullifiers.map fun nf => (nf, hash))
    totalTxSize := pool.totalTxSize + entry.nTxSize
    cachedInnerUsage := pool.cachedInnerUsage + entry.nUsageSize }

def getTx (pool : CTxMemPool) (ptx : Uint256) : Except Fault CTransaction :=
  match pool.mapTx.lookup ptx with
  | some entry => .ok entry.tx
  | none => .error (.exception "dangling pointer")

/-- The hashes of the transactions that spend one of the first `n` outputs of a transaction. -/
def spenders (env : Env) (pool : CTxMemPool) (hash : Uint256) : Nat → Except Fault (List Uint256)
  | 0 => .ok []
  | n + 1 => do
    let hashes ← pool.spenders env hash n
    match pool.mapNextTx.lookup ⟨hash, n⟩ with
    | none => pure hashes
    | some inPoint => do
      let tx ← pool.getTx inPoint.ptx
      pure (hashes ++ [env.getHash tx])

/-- A transaction leaves the pool and the indices. -/
def eraseEntry (hash : Uint256) (entry : CTxMemPoolEntry) (pool : CTxMemPool) : CTxMemPool :=
  { pool with
    mapTx := pool.mapTx.erase hash
    mapNextTx := pool.mapNextTx.eraseAll (entry.tx.vin.map CTxIn.prevout)
    mapNullifiers := pool.mapNullifiers.eraseAll entry.tx.nullifiers
    totalTxSize := pool.totalTxSize - entry.nTxSize
    cachedInnerUsage := pool.cachedInnerUsage - entry.nUsageSize }

def removeLoop (env : Env) (fRecursive : Bool) (txToRemove : List Uint256) (removed : List CTransaction)
    (pool : CTxMemPool) : Except Fault (CTxMemPool × List CTransaction) :=
  match txToRemove with
  | [] => .ok (pool, removed)
  | hash :: txToRemove =>
    match _h : pool.mapTx.lookup hash with
    | none => removeLoop env fRecursive txToRemove removed pool
    | some entry => do
      let children ← (if fRecursive then pool.spenders env hash entry.tx.vout.length else pure [])
      removeLoop env fRecursive (txToRemove ++ children) (removed ++ [entry.tx]) (pool.eraseEntry hash entry)
termination_by (pool.mapTx.entries.length, txToRemove.length)
decreasing_by
  · apply Prod.Lex.right
    simp
  · apply Prod.Lex.left
    have := KeyMap.length_erase _h
    exact Nat.lt_of_succ_le this.le

theorem removeLoop_none {env : Env} {fRecursive : Bool} {hash : Uint256} {pool : CTxMemPool}
    (h : pool.mapTx.lookup hash = none) (txToRemove : List Uint256) (removed : List CTransaction) :
    pool.removeLoop env fRecursive (hash :: txToRemove) removed = pool.removeLoop env fRecursive txToRemove removed := by
  rw [removeLoop]
  split
  · rfl
  · rename_i h'
    rw [h] at h'
    cases h'

theorem removeLoop_some {env : Env} {fRecursive : Bool} {hash : Uint256} {entry : CTxMemPoolEntry} {pool : CTxMemPool}
    (h : pool.mapTx.lookup hash = some entry) (txToRemove : List Uint256) (removed : List CTransaction) :
    pool.removeLoop env fRecursive (hash :: txToRemove) removed =
      (if fRecursive then pool.spenders env hash entry.tx.vout.length else pure []) >>= fun children =>
        (pool.eraseEntry hash entry).removeLoop env fRecursive (txToRemove ++ children) (removed ++ [entry.tx]) := by
  rw [removeLoop]
  split
  · rename_i h'
    rw [h] at h'
    cases h'
  · rename_i entry' h'
    cases h.symm.trans h'
    rfl

/-- `remove`, with the transactions that were removed. -/
def remove (env : Env) (origTx : CTransaction) (fRecursive : Bool) (removed : List CTransaction) (pool : CTxMemPool) :
    Except Fault (CTxMemPool × List CTransaction) := do
  let hash := env.getHash origTx
  let children ← (if fRecursive && (pool.mapTx.lookup hash).isNone then pool.spenders env hash origTx.vout.length
    else pure [])
  pool.removeLoop env fRecursive (hash :: children) removed

/-- Remove the transactions that a routine collected, with all that depends on them. -/
def removeEach (env : Env) : List CTransaction → CTxMemPool → Except Fault CTxMemPool
  | [], pool => .ok pool
  | tx :: transactionsToRemove, pool => do
    let (pool, _) ← pool.remove env tx true []
    pool.removeEach env transactionsToRemove

/-- Whether an input spends a coinbase that is immature, or coins that are not there. -/
def spendsImmature (accessCoins : Uint256 → Option CCoins) (nMemPoolHeight : Int) (pool : CTxMemPool) :
    List CTxIn → Except Fault Bool
  | [] => .ok false
  | txin :: vin =>
    if (pool.mapTx.lookup txin.prevout.hash).isSome then pool.spendsImmature accessCoins nMemPoolHeight vin
    else
      match accessCoins txin.prevout.hash with
      | none => do
        reject pool.fSanityCheck (.assertion "coins")
        pure true
      | some coins =>
        if coins.fCoinBase && nMemPoolHeight - coins.nHeight < COINBASE_MATURITY then pure true
        else pool.spendsImmature accessCoins nMemPoolHeight vin

def collectImmature (accessCoins : Uint256 → Option CCoins) (nMemPoolHeight : Int) (pool : CTxMemPool) :
    List (Sigma fun _ : Uint256 => CTxMemPoolEntry) → Except Fault (List CTransaction)
  | [] => .ok []
  | entry :: entries => do
    let immature ← pool.spendsImmature accessCoins nMemPoolHeight entry.2.tx.vin
    let transactionsToRemove ← pool.collectImmature accessCoins nMemPoolHeight entries
    pure (if immature then entry.2.tx :: transactionsToRemove else transactionsToRemove)

def removeCoinbaseSpends (env : Env) (accessCoins : Uint256 → Option CCoins) (nMemPoolHeight : Int) (pool : CTxMemPool) :
    Except Fault CTxMemPool := do
  let transactionsToRemove ← pool.collectImmature accessCoins nMemPoolHeight pool.mapTx.entries
  pool.removeEach env transactionsToRemove

def removeWithAnchor (env : Env) (invalidRoot : Uint256) (pool : CTxMemPool) : Except Fault CTxMemPool :=
  let txs := pool.mapTx.entries.map fun entry => entry.2.tx
  pool.removeEach env (txs.filter fun tx => tx.vjoinsplit.any fun joinsplit => joinsplit.anchor == invalidRoot)

/-- Remove what an index points at, unless it is the transaction itself. -/
def removeConflict (env : Env) (tx : CTransaction) (ptx : Option Uint256) (removed : List CTransaction)
    (pool : CTxMemPool) : Except Fault (CTxMemPool × List CTransaction) :=
  match ptx with
  | none => .ok (pool, removed)
  | some ptx => do
    let txConflict ← pool.getTx ptx
    if env.getHash txConflict ≠ env.getHash tx then pool.remove env txConflict true removed else pure (pool, removed)

def removeSpenders (env : Env) (tx : CTransaction) :
    List CTxIn → List CTransaction → CTxMemPool → Except Fault (CTxMemPool × List CTransaction)
  | [], removed, pool => .ok (pool, removed)
  | txin :: vin, removed, pool => do
    let (pool, removed) ← pool.removeConflict env tx ((pool.mapNextTx.lookup txin.prevout).map CInPoint.ptx) removed
    pool.removeSpenders env tx vin removed

def removeRevealers (env : Env) (tx : CTransaction) :
    List Uint256 → List CTransaction → CTxMemPool → Except Fault (CTxMemPool × List CTransaction)
  | [], removed, pool => .ok (pool, removed)
  | nf :: nullifiers, removed, pool => do
    let (pool, removed) ← pool.removeConflict env tx (pool.mapNullifiers.lookup nf) removed
    pool.removeRevealers env tx nullifiers removed

def removeConflicts (env : Env) (tx : CTransaction) (removed : List CTransaction) (pool : CTxMemPool) :
    Except Fault (CTxMemPool × List CTransaction) := do
  let (pool, removed) ← pool.removeSpenders env tx tx.vin removed
  pool.removeRevealers env tx tx.nullifiers removed

def removeForBlock (env : Env) : List CTransaction → List CTransaction → CTxMemPool →
    Except Fault (CTxMemPool × List CTransaction)
  | [], conflicts, pool => .ok (pool, conflicts)
  | tx :: vtx, conflicts, pool => do
    let (pool, _) ← pool.remove env tx false []
    let (pool, conflicts) ← pool.removeConflicts env tx conflicts
    pool.removeForBlock env vtx conflicts

/-- `clear`, which leaves `mapNullifiers` as it is. -/
def clear (pool : CTxMemPool) : CTxMemPool :=
  { pool with mapTx := ∅, mapNextTx := ∅, totalTxSize := 0, cachedInnerUsage := 0 }

end CTxMemPool

end LitecoinZ
