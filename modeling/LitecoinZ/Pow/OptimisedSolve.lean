import LitecoinZ.Pow.BasicSolve

/-!
# The optimised Equihash solver

`Equihash<N,K>::OptimisedSolve` of `crypto/equihash.cpp`.  A first run works on indices that are truncated to eight bits.
Each list of truncated indices that it finds is then completed: all indices with these truncations are collided again,
branch by branch (`CollideBranches`), on a stack with one list for each level.
-/

namespace LitecoinZ

open Pairs StateExcept

namespace Equihash

variable (eh : Equihash)

/-- The lists of the levels, and the lengths of the level that was stored last. -/
structure Rebuilt where
  X : List (Option (List Row))
  hashLen : Nat
  lenIndices : Nat

end Equihash

end LitecoinZ
