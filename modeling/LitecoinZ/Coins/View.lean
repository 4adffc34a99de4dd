import LitecoinZ.Lib.KeyMap
import LitecoinZ.Coins.Coins
import LitecoinZ.Zcash.IncrementalMerkleTree

/-!
# Coins views and their caches

`CCoinsViewCache` of `coins.{h,cpp}` and `CCoinsViewDB` of `txdb.cpp`.  A cache is a layer of three maps and two best
pointers over a base view, which may be a cache itself; a read that misses asks the base and stores the answer in
every layer on the way.  The database is a key-value map.

A best pointer is `none` where the source has the null `uint256`; block hashes and tree roots are never null.
-/

namespace LitecoinZ

def INCREMENTAL_MERKLE_TREE_DEPTH : Nat := 29

abbrev ZCIncrementalMerkleTree := IncrementalMerkleTree INCREMENTAL_MERKLE_TREE_DEPTH Uint256

structure CCoinsCacheEntry where
  coins : CCoins := {}
  dirty : Bool := false
  fresh : Bool := false
  deriving DecidableEq, Repr

structure CAnchorsCacheEntry where
  entered : Bool := false
  tree : ZCIncrementalMerkleTree := {}
  dirty : Bool := false
  deriving DecidableEq, Repr

structure CNullifiersCacheEntry where
  entered : Bool := false
  dirty : Bool := false
  deriving DecidableEq, Repr

/-- The members of a `CCoinsViewCache` above its base. -/
structure CacheLayer where
  cacheCoins : KeyMap Uint256 CCoinsCacheEntry := ∅
  hashBlock : Option Uint256 := none
  cacheAnchors : KeyMap Uint256 CAnchorsCacheEntry := ∅
  hashAnchor : Option Uint256 := none
  cacheNullifiers : KeyMap Uint256 CNullifiersCacheEntry := ∅

/-- The records of the database; a nullifier that is not spent has none. -/
structure CCoinsViewDB where
  coins : KeyMap Uint256 CCoins := ∅
  anchors : KeyMap Uint256 ZCIncrementalMerkleTree := ∅
  nullifiers : KeyMap Uint256 Unit := ∅
  bestBlock : Option Uint256 := none
  bestAnchor : Option Uint256 := none

@[ext] structure ViewAnswers where
  getCoins : Uint256 → Option CCoins
  getAnchorAt : Uint256 → Option ZCIncrementalMerkleTree
  getNullifier : Uint256 → Bool
  getBestBlock : Option Uint256
  getBestAnchor : Option Uint256

/-- A view: the database, a cache over a base, or any other one, known by its answers. -/
inductive CCoinsView where
  | other (answers : ViewAnswers)
  | db (d : CCoinsViewDB)
  | cache (layer : CacheLayer) (base : CCoinsView)

structure CCoinsViewCache where
  layer : CacheLayer := {}
  base : CCoinsView

variable (c : CCoinsViewCache)

def CCoinsViewCache.toView : CCoinsView := .cache c.layer c.base

variable [MerkleHash Uint256]

/-- `CCoinsViewDB::GetAnchorAt`: the empty root needs no record. -/
def CCoinsViewDB.getAnchorAt (d : CCoinsViewDB) (rt : Uint256) : Option ZCIncrementalMerkleTree :=
  if rt = emptyRoot Uint256 INCREMENTAL_MERKLE_TREE_DEPTH then some {} else d.anchors.lookup rt

def CCoinsViewDB.getBestAnchor (d : CCoinsViewDB) : Uint256 :=
  d.bestAnchor.getD (emptyRoot Uint256 INCREMENTAL_MERKLE_TREE_DEPTH)

/-! ### Reads -/

namespace CacheLayer

variable (l : CacheLayer) (base : CCoinsView)

/-- A read through a layer: what the layer holds, or what the base answers, which is stored. -/
def through {α : Type} (hit : Option α) (ask : α × CCoinsView)
    (store : α → CacheLayer) : α × CacheLayer × CCoinsView :=
  match hit with
  | some a => (a, l, base)
  | none => (ask.1, store ask.1, ask.2)

/-- `FetchCoins`; an entry for which the base has only a pruned one is fresh. -/
def fetchCoins (txid : Uint256) (ask : Option CCoins × CCoinsView) : Option CCoins × CacheLayer × CCoinsView :=
  l.through base ((l.cacheCoins.lookup txid).map fun e => some e.coins) ask fun
    | none => l
    | some tmp => { l with cacheCoins := l.cacheCoins.insert txid { coins := tmp, fresh := tmp.isPruned } }

def getAnchorAt (rt : Uint256)
    (ask : Option ZCIncrementalMerkleTree × CCoinsView) : Option ZCIncrementalMerkleTree × CacheLayer × CCoinsView :=
  l.through base ((l.cacheAnchors.lookup rt).map fun e => if e.entered then some e.tree else none) ask fun
    | none => l
    | some tree => { l with cacheAnchors := l.cacheAnchors.insert rt { entered := true, tree := tree } }

def getNullifier (nullifier : Uint256) (ask : Bool × CCoinsView) : Bool × CacheLayer × CCoinsView :=
  l.through base ((l.cacheNullifiers.lookup nullifier).map CNullifiersCacheEntry.entered) ask fun tmp =>
    { l with cacheNullifiers := l.cacheNullifiers.insert nullifier { entered := tmp } }

def getBestBlock (ask : Option Uint256 × CCoinsView) : Option Uint256 × CacheLayer × CCoinsView :=
  l.through base (l.hashBlock.map some) ask fun h => { l with hashBlock := h }

def getBestAnchor (ask : Option Uint256 × CCoinsView) : Option Uint256 × CacheLayer × CCoinsView :=
  l.through base (l.hashAnchor.map some) ask fun h => { l with hashAnchor := h }

end CacheLayer

namespace CCoinsView

def getCoins : CCoinsView → Uint256 → Option CCoins × CCoinsView
  | .other a, txid => (a.getCoins txid, .other a)
  | .db d, txid => (d.coins.lookup txid, .db d)
  | .cache l base, txid =>
    let r := l.fetchCoins base txid (base.getCoins txid)
    (r.1, .cache r.2.1 r.2.2)

def getAnchorAt : CCoinsView → Uint256 → Option ZCIncrementalMerkleTree × CCoinsView
  | .other a, rt => (a.getAnchorAt rt, .other a)
  | .db d, rt => (d.getAnchorAt rt, .db d)
  | .cache l base, rt =>
    let r := l.getAnchorAt base rt (base.getAnchorAt rt)
    (r.1, .cache r.2.1 r.2.2)

def getNullifier : CCoinsView → Uint256 → Bool × CCoinsView
  | .other a, nullifier => (a.getNullifier nullifier, .other a)
  | .db d, nullifier => ((d.nullifiers.lookup nullifier).isSome, .db d)
  | .cache l base, nullifier =>
    let r := l.getNullifier base nullifier (base.getNullifier nullifier)
    (r.1, .cache r.2.1 r.2.2)

def getBestBlock : CCoinsView → Option Uint256 × CCoinsView
  | .other a => (a.getBestBlock, .other a)
  | .db d => (d.bestBlock, .db d)
  | .cache l base =>
    let r := l.getBestBlock base base.getBestBlock
    (r.1, .cache r.2.1 r.2.2)

def getBestAnchor : CCoinsView → Option Uint256 × CCoinsView
  | .other a => (a.getBestAnchor, .other a)
  | .db d => (some d.getBestAnchor, .db d)
  | .cache l base =>
    let r := l.getBestAnchor base base.getBestAnchor
    (r.1, .cache r.2.1 r.2.2)

end CCoinsView

/-! ### Operations on a cache -/

namespace CCoinsViewCache

def ofRead {α : Type} (r : α × CacheLayer × CCoinsView) : α × CCoinsViewCache := (r.1, ⟨r.2.1, r.2.2⟩)

def accessCoins (txid : Uint256) : Option CCoins × CCoinsViewCache :=
  ofRead (c.layer.fetchCoins c.base txid (c.base.getCoins txid))

def haveCoins (txid : Uint256) : Bool × CCoinsViewCache :=
  let r := c.accessCoins txid
  (r.1.any fun coins => !coins.vout.isEmpty, r.2)

def getAnchorAt (c : CCoinsViewCache) (rt : Uint256) : Option ZCIncrementalMerkleTree × CCoinsViewCache :=
  ofRead (c.layer.getAnchorAt c.base rt (c.base.getAnchorAt rt))

def getNullifier (c : CCoinsViewCache) (nullifier : Uint256) : Bool × CCoinsViewCache :=
  ofRead (c.layer.getNullifier c.base nullifier (c.base.getNullifier nullifier))

def getBestBlock (c : CCoinsViewCache) : Option Uint256 × CCoinsViewCache :=
  ofRead (c.layer.getBestBlock c.base c.base.getBestBlock)

def getBestAnchor (c : CCoinsViewCache) : Option Uint256 × CCoinsViewCache :=
  ofRead (c.layer.getBestAnchor c.base c.base.getBestAnchor)

/-- The entry that `ModifyCoins` finds or inserts, and the base after it was asked. -/
def entryToModify (txid : Uint256) : CCoinsCacheEntry × CCoinsView :=
  match c.layer.cacheCoins.lookup txid with
  | some e => (e, c.base)
  | none =>
    match c.base.getCoins txid with
    | (none, base) => ({ coins := .clear, fresh := true }, base)
    | (some coins, base) => ({ coins := coins, fresh := coins.isPruned }, base)

/-- What `~CCoinsModifier` leaves of an entry once its coins are modified. -/
def modifiedEntry (e : CCoinsCacheEntry) (coins : CCoins) : Option CCoinsCacheEntry :=
  if e.fresh && coins.cleanup.isPruned then none
  else some { coins := coins.cleanup, dirty := true, fresh := e.fresh }

/-- `ModifyCoins`, the modification through the `CCoinsModifier` and its destruction. -/
def modifyCoins {α : Type} (txid : Uint256) (modify : CCoins → Except Fault (α × CCoins)) :
    Except Fault (α × CCoinsViewCache) := do
  let (e, base) := c.entryToModify txid
  let (a, coins) ← modify e.coins
  pure (a, ⟨{ c.layer with cacheCoins := c.layer.cacheCoins.put txid (modifiedEntry e coins) }, base⟩)

def setNullifier (nullifier : Uint256) (spent : Bool) : CCoinsViewCache :=
  { c with layer.cacheNullifiers := c.layer.cacheNullifiers.insert nullifier { entered := spent, dirty := true } }

def pushAnchor (tree : ZCIncrementalMerkleTree) : CCoinsViewCache :=
  let newrt := tree.root
  let (currentRoot, c) := c.getBestAnchor
  if currentRoot ≠ some newrt then
    { c with
      layer.cacheAnchors := c.layer.cacheAnchors.insert newrt { entered := true, tree := tree, dirty := true }
      layer.hashAnchor := some newrt }
  else c

def popAnchor (newrt : Option Uint256) : Except Fault CCoinsViewCache :=
  let (currentRoot, c) := c.getBestAnchor
  if currentRoot ≠ newrt then
    match c.getAnchorAt (currentRoot.getD 0) with
    | (none, _) => .error (.assertion "GetAnchorAt(currentRoot, tree)")
    | (some _, c) =>
      let e := (c.layer.cacheAnchors.lookup (currentRoot.getD 0)).getD {}
      .ok { c with
        layer.cacheAnchors := c.layer.cacheAnchors.insert (currentRoot.getD 0) { e with entered := false, dirty := true }
        layer.hashAnchor := newrt }
  else .ok c

def setBestBlock (hashBlock : Option Uint256) : CCoinsViewCache :=
  { c with layer.hashBlock := hashBlock }

end CCoinsViewCache

/-! ### Flushing -/

/-- What `CCoinsViewCache::BatchWrite` makes of the parent's entry for a transaction, given the child's. -/
def mergeCoins (us : Option CCoinsCacheEntry) (child : CCoinsCacheEntry) : Except Fault (Option CCoinsCacheEntry) :=
  if !child.dirty then .ok us
  else
    match us with
    | none =>
      if child.coins.isPruned then .ok none
      else if child.fresh then .ok (some { coins := child.coins, dirty := true, fresh := true })
      else .error (.assertion "it->second.flags & CCoinsCacheEntry::FRESH")
    | some e =>
      if e.fresh && child.coins.isPruned then .ok none
      else .ok (some { e with coins := child.coins, dirty := true })

/-- The parent's entry for an anchor keeps its tree. -/
def mergeAnchors (parent : Option CAnchorsCacheEntry) (child : CAnchorsCacheEntry) :
    Except Fault (Option CAnchorsCacheEntry) :=
  if !child.dirty then .ok parent
  else
    match parent with
    | none => .ok (some { child with dirty := true })
    | some e =>
      if e.entered ≠ child.entered then .ok (some { e with entered := child.entered, dirty := true }) else .ok (some e)

def mergeNullifiers (parent : Option CNullifiersCacheEntry) (child : CNullifiersCacheEntry) :
    Except Fault (Option CNullifiersCacheEntry) :=
  if !child.dirty then .ok parent
  else
    match parent with
    | none => .ok (some { child with dirty := true })
    | some e =>
      if e.entered ≠ child.entered then .ok (some { e with entered := child.entered, dirty := true }) else .ok (some e)

/-- `BatchWriteCoins`, `BatchWriteAnchor` and `BatchWriteNullifier` for an entry of a flushed cache. -/
def writeCoins (old : Option CCoins) (e : CCoinsCacheEntry) : Except Fault (Option CCoins) :=
  .ok (if e.dirty then (if e.coins.isPruned then none else some e.coins) else old)

@[inherit_doc writeCoins]
def writeAnchor (old : Option ZCIncrementalMerkleTree) (e : CAnchorsCacheEntry) :
    Except Fault (Option ZCIncrementalMerkleTree) :=
  .ok (if e.dirty then (if e.entered then some e.tree else none) else old)

@[inherit_doc writeCoins]
def writeNullifier (old : Option Unit) (e : CNullifiersCacheEntry) : Except Fault (Option Unit) :=
  .ok (if e.dirty then (if e.entered then some () else none) else old)

/-- `BatchWrite` of the maps and best pointers of a cache to its base.  The database keeps a best pointer for which the
cache has a null one, a cache takes it over. -/
def CCoinsView.batchWrite : CCoinsView → CacheLayer → Except Fault CCoinsView
  | .other _, _ => .error (.error "BatchWrite")
  | .db d, l => do
    let coins ← d.coins.merge writeCoins l.cacheCoins
    let anchors ← d.anchors.merge writeAnchor l.cacheAnchors
    let nullifiers ← d.nullifiers.merge writeNullifier l.cacheNullifiers
    pure (.db {
      coins, anchors, nullifiers
      bestBlock := l.hashBlock <|> d.bestBlock
      bestAnchor := l.hashAnchor <|> d.bestAnchor })
  | .cache p base, l => do
    let cacheCoins ← p.cacheCoins.merge mergeCoins l.cacheCoins
    let cacheAnchors ← p.cacheAnchors.merge mergeAnchors l.cacheAnchors
    let cacheNullifiers ← p.cacheNullifiers.merge mergeNullifiers l.cacheNullifiers
    pure (.cache {
      cacheCoins, cacheAnchors, cacheNullifiers
      hashBlock := l.hashBlock
      hashAnchor := l.hashAnchor } base)

/-- `Flush`: the maps are written to the base and cleared, the best pointers stay. -/
def CCoinsViewCache.flush : Except Fault CCoinsViewCache := do
  let base ← c.base.batchWrite c.layer
  pure { layer := { hashBlock := c.layer.hashBlock, hashAnchor := c.layer.hashAnchor }, base := base }

end LitecoinZ
