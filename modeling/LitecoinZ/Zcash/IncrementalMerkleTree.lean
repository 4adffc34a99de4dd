import LitecoinZ.Lib.PerfectTree

/-!
# The incremental Merkle tree

The note commitment tree of `zcash/IncrementalMerkleTree.{hpp,cpp}`: `IncrementalMerkleTree`, `PathFiller` and
`IncrementalWitness`.  Both classes are templates in the depth and in the hash, and stay so here.  An exception is
an `Except.error`; `std::vector` and `std::deque` are lists, with `push_back` at the end.
-/

namespace LitecoinZ

/-- What the trees use of their `Hash` parameter: `Hash()`, `Hash::combine` and the bytes between `begin()` and
`end()`.  For `SHA256Compress` these are the zero `uint256`, the SHA-256 compression of the two arguments and the
32 bytes of the blob. -/
class MerkleHash (Hash : Type) where
  null : Hash
  combine : Hash → Hash → Hash
  bytes : Hash → List UInt8

/-- The exceptions of the two classes. -/
inductive TreeError where
  | full
  | noCursor
  | noPath
  | tooManyParents
  | nonCanonicalParent
  | rightWithoutLeft
  | parentsWithoutLeft
  deriving DecidableEq, Repr

/-- The text the exception carries. -/
def TreeError.what : TreeError → String
  | .full => "tree is full"
  | .noCursor => "tree has no cursor"
  | .noPath => "can't create an authentication path for the beginning of the tree"
  | .tooManyParents => "tree has too many parents"
  | .nonCanonicalParent => "tree has non-canonical representation of parent"
  | .rightWithoutLeft => "tree has non-canonical representation; right should not exist"
  | .parentsWithoutLeft => "tree has non-canonical representation; parents should not be unempty"

/-- The tree keeps the last one or two leaves and the collapsed left subtrees, ordered towards the root. -/
structure IncrementalMerkleTree (Depth : Nat) (Hash : Type) where
  left : Option Hash := none
  right : Option Hash := none
  parents : List (Option Hash) := []
  deriving DecidableEq, Repr

/-- An authentication path, from the root to the leaf. -/
structure MerklePath where
  authenticationPath : List (List Bool)
  index : List Bool
  deriving DecidableEq, Repr

/-- `convertBytesVectorToVector`: the bits of each byte, from the most to the least significant one. -/
def convertBytesVectorToVector (bytes : List UInt8) : List Bool :=
  bytes.flatMap fun c => (List.range 8).map fun j => c.toNat / 2 ^ (7 - j) % 2 == 1

section

variable {Hash : Type} [MerkleHash Hash]

open MerkleHash (null combine)

def emptyRoot (Hash : Type) [MerkleHash Hash] (depth : Nat) : Hash := PerfectTree.emptyRoot combine null depth

/-- `PathFiller::next`: the front of the queue, or the root of an empty subtree once the queue is used up. -/
def pathFillerNext (queue : List Hash) (depth : Nat) : Hash × List Hash :=
  match queue with
  | h :: queue => (h, queue)
  | [] => (emptyRoot Hash depth, [])

/-- `1 << n` on an `int`; the code never shifts by 31 or more. -/
def shiftOne (n : Nat) : Nat := if n < 31 then 2 ^ n else 0

namespace IncrementalMerkleTree

variable {Depth : Nat} (t : IncrementalMerkleTree Depth Hash)

def wfcheck : Except TreeError Unit :=
  if t.parents.length ≥ Depth then .error .tooManyParents
  else if t.parents.getLast?.any Option.isNone then .error .nonCanonicalParent
  else if t.left.isNone && t.right.isSome then .error .rightWithoutLeft
  else if t.left.isNone && t.parents.length > 0 then .error .parentsWithoutLeft
  else .ok ()

def last : Except TreeError Hash :=
  match t.right, t.left with
  | some r, _ => .ok r
  | none, some l => .ok l
  | none, none => .error .noCursor

/-- The loop of `size` over the entries of `parents` from index `i` on. -/
def sizeParents : List (Option Hash) → Nat → Nat
  | [], _ => 0
  | p :: ps, i => (if p.isSome then shiftOne (i + 1) else 0) + sizeParents ps (i + 1)

def size : Nat :=
  (if t.left.isSome then 1 else 0) + (if t.right.isSome then 1 else 0) + sizeParents t.parents 0

def isComplete (depth : Nat) : Bool :=
  t.left.isSome && t.right.isSome && t.parents.length + 1 == depth && t.parents.all Option.isSome

/-- The tree after `append`.  The loop that combines the leaves and propagates them up the tree is
`PerfectTree.carry`, at most `Depth` rounds of it. -/
def append (obj : Hash) : Except TreeError (IncrementalMerkleTree Depth Hash) :=
  if t.isComplete Depth then .error .full
  else
    match t.left, t.right with
    | none, _ => .ok { t with left := some obj }
    | some _, none => .ok { t with right := some obj }
    | some l, some r =>
      .ok { left := some obj, right := none, parents := PerfectTree.carry combine Depth (combine l r) t.parents }

/-- `append` as the member function: it writes to the tree it is called on, and an exception keeps what was written
before it. -/
def appendInPlace (obj : Hash) : EStateM TreeError (IncrementalMerkleTree Depth Hash) Unit := do
  let t ← get
  if t.isComplete Depth then throw .full
  match t.left, t.right with
  | none, _ => modify fun t => { t with left := some obj }
  | some _, none => modify fun t => { t with right := some obj }
  | some l, some r =>
    modify fun t => { t with left := some obj, right := none }
    modify fun t => { t with parents := PerfectTree.carry combine Depth (combine l r) t.parents }

def appendAll (t : IncrementalMerkleTree Depth Hash) : List Hash → Except TreeError (IncrementalMerkleTree Depth Hash)
  | [] => .ok t
  | x :: xs => do
    let t ← t.append x
    t.appendAll xs

/-- The loop of `next_depth` over `parents`, at depth `d` with `skip` uncles still to skip. -/
def nextDepthParents : List (Option Hash) → Nat → Nat → Nat
  | [], d, skip => d + skip
  | none :: _, d, 0 => d
  | none :: ps, d, skip + 1 => nextDepthParents ps (d + 1) skip
  | some _ :: ps, d, skip => nextDepthParents ps (d + 1) skip

/-- `next_depth` after the test for `left`. -/
def nextDepthRight (skip : Nat) : Nat :=
  match t.right, skip with
  | some _, skip => nextDepthParents t.parents 1 skip
  | none, 0 => 0
  | none, skip + 1 => nextDepthParents t.parents 1 skip

def nextDepth (skip : Nat) : Nat :=
  match t.left, skip with
  | some _, skip => t.nextDepthRight skip
  | none, 0 => 0
  | none, skip + 1 => t.nextDepthRight skip

/-- The loop of `root` over `parents`; the depth, the root so far and the filler queue are threaded through. -/
def rootParents : List (Option Hash) → Nat → Hash → List Hash → Nat × Hash × List Hash
  | [], d, root, queue => (d, root, queue)
  | some p :: ps, d, root, queue => rootParents ps (d + 1) (combine p root) queue
  | none :: ps, d, root, queue =>
    let next := pathFillerNext queue d
    rootParents ps (d + 1) (combine root next.1) next.2

def rootFill : Nat → Nat → Hash → List Hash → Hash
  | 0, _, root, _ => root
  | n + 1, d, root, queue =>
    let next := pathFillerNext queue d
    rootFill n (d + 1) (combine root next.1) next.2

def leafOrNext (leaf : Option Hash) (queue : List Hash) : Hash × List Hash :=
  match leaf with
  | some h => (h, queue)
  | none => pathFillerNext queue 0

def rootWith (depth : Nat) (fillerHashes : List Hash) : Hash :=
  let combineLeft := leafOrNext t.left fillerHashes
  let combineRight := leafOrNext t.right combineLeft.2
  let up := rootParents t.parents 1 (combine combineLeft.1 combineRight.1) combineRight.2
  rootFill (depth - up.1) up.1 up.2.1 up.2.2

def root : Hash := t.rootWith Depth []

/-- The loop of `path` over `parents`: the depth reached, the entries pushed and the filler queue left. -/
def pathParents : List (Option Hash) → Nat → List Hash → Nat × List (Bool × Hash) × List Hash
  | [], d, queue => (d, [], queue)
  | some p :: ps, d, queue =>
    let up := pathParents ps (d + 1) queue
    (up.1, (true, p) :: up.2.1, up.2.2)
  | none :: ps, d, queue =>
    let next := pathFillerNext queue d
    let up := pathParents ps (d + 1) next.2
    (up.1, (false, next.1) :: up.2.1, up.2.2)

def pathFill : Nat → Nat → List Hash → List (Bool × Hash)
  | 0, _, _ => []
  | n + 1, d, queue =>
    let next := pathFillerNext queue d
    (false, next.1) :: pathFill n (d + 1) next.2

/-- The entries of `index` and `path` in the order they are pushed, from the leaf to the root. -/
def pathEntries (fillerHashes : List Hash) : Except TreeError (List (Bool × Hash)) :=
  match t.left with
  | none => .error .noPath
  | some l =>
    let first := match t.right with
      | some _ => ((true, l), fillerHashes)
      | none =>
        let next := pathFillerNext fillerHashes 0
        ((false, next.1), next.2)
    let up := pathParents t.parents 1 first.2
    .ok (first.1 :: up.2.1 ++ pathFill (Depth - up.1) up.1 up.2.2)

def path (fillerHashes : List Hash) : Except TreeError MerklePath := do
  let entries ← t.pathEntries fillerHashes
  pure {
    authenticationPath := (entries.map fun e => convertBytesVectorToVector (MerkleHash.bytes e.2)).reverse
    index := (entries.map Prod.fst).reverse }

end IncrementalMerkleTree

/-- A witness for the last leaf of `tree`: the uncles filled since, and the subtree being filled now. -/
structure IncrementalWitness (Depth : Nat) (Hash : Type) where
  tree : IncrementalMerkleTree Depth Hash
  filled : List Hash := []
  cursor : Option (IncrementalMerkleTree Depth Hash) := none
  cursorDepth : Nat := 0
  deriving DecidableEq, Repr

def IncrementalMerkleTree.witness {Depth : Nat} (t : IncrementalMerkleTree Depth Hash) :
    IncrementalWitness Depth Hash := { tree := t }

namespace IncrementalWitness

variable {Depth : Nat} (w : IncrementalWitness Depth Hash)

def partialPath : List Hash :=
  match w.cursor with
  | some cursor => w.filled ++ [cursor.rootWith w.cursorDepth []]
  | none => w.filled

def path : Except TreeError MerklePath := w.tree.path w.partialPath

def element : Except TreeError Hash := w.tree.last

def root : Hash := w.tree.rootWith Depth w.partialPath

def append (w : IncrementalWitness Depth Hash) (obj : Hash) : Except TreeError (IncrementalWitness Depth Hash) :=
  match w.cursor with
  | some cursor => do
    let cursor ← cursor.append obj
    if cursor.isComplete w.cursorDepth then
      pure { w with filled := w.filled ++ [cursor.rootWith w.cursorDepth []], cursor := none }
    else
      pure { w with cursor := some cursor }
  | none =>
    let cursorDepth := w.tree.nextDepth w.filled.length
    if cursorDepth ≥ Depth then .error .full
    else if cursorDepth = 0 then
      .ok { w with filled := w.filled ++ [obj], cursorDepth := cursorDepth }
    else do
      let cursor ← ({} : IncrementalMerkleTree Depth Hash).append obj
      pure { w with cursor := some cursor, cursorDepth := cursorDepth }

def appendAll (w : IncrementalWitness Depth Hash) : List Hash → Except TreeError (IncrementalWitness Depth Hash)
  | [] => .ok w
  | x :: xs => do
    let w ← w.append x
    w.appendAll xs

end IncrementalWitness

end

end LitecoinZ
