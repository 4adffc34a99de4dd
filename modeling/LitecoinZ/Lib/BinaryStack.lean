import Mathlib.Tactic.Ring

/-!
# Stacks that count in binary

A list with a place for each power of two, of which some are filled.  Its weight is the number whose digits these places
are: filling or clearing place `r` changes it by `2 ^ r`.
-/

namespace BinaryStack

open List

variable {α : Type}

variable {X : List (Option α)} {r : Nat}

end BinaryStack
