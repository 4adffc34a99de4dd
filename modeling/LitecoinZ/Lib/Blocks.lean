import Mathlib.Data.List.Basic
import Mathlib.Tactic.Ring

/-!
# Lists in blocks of equal length

`block k l b` is the block with number `b` when a list is cut into blocks of `k` entries.  Blocks of a list that is put
together from pieces of one length, and blocks of twice the length.
-/

namespace Blocks

open List

variable {α β : Type}

def block (k : Nat) (l : List α) (b : Nat) : List α := (l.drop (b * k)).take k

variable {k b : Nat} {l : List α}

theorem length_block (h : (b + 1) * k ≤ l.length) : (block k l b).length = k := by
  rw [Nat.add_mul, Nat.one_mul] at h
  rw [block, length_take, length_drop]
  omega

theorem block_flatMap {f : α → List β} (hf : ∀ a, (f a).length = k) {a : α} (h : l[b]? = some a) (rest : List β) :
    block k (l.flatMap f ++ rest) b = f a := by
  induction l generalizing b with
  | nil => simp at h
  | cons x l ih =>
    rw [flatMap_cons, append_assoc]
    cases b with
    | zero =>
      obtain rfl : x = a := by simpa using h
      rw [block, Nat.zero_mul, drop_zero, take_append_of_le_length (hf x).ge, ← hf x, take_length]
    | succ b =>
      rw [block, Nat.add_mul, Nat.one_mul, Nat.add_comm, ← drop_drop, ← hf x, drop_left, hf x]
      exact ih (by simpa using h)

theorem block_double (k : Nat) (l : List α) (b : Nat) :
    block (2 * k) l b = block k l (2 * b) ++ block k l (2 * b + 1) := by
  have h1 : b * (2 * k) = 2 * b * k := by ring
  have h2 : (2 * b + 1) * k = 2 * b * k + k := by ring
  rw [block, block, block, h1, h2, ← drop_drop, Nat.two_mul, take_add]

theorem block_append_left (h : (b + 1) * k ≤ l.length) (l' : List α) :
    block k (l ++ l') b = block k l b := by
  rw [Nat.add_mul, Nat.one_mul] at h
  rw [block, block, drop_append_of_le_length (by omega), take_append_of_le_length]
  rw [length_drop]
  omega

theorem block_append_right {m : Nat} (h : l.length = m * k) (l' : List α) (b : Nat) :
    block k (l ++ l') (m + b) = block k l' b := by
  rw [block, block, Nat.add_mul, ← h, ← drop_drop, drop_left]

theorem getElem?_block {j : Nat} (hj : j < k) : (block k l b)[j]? = l[b * k + j]? := by
  rw [block, getElem?_take_of_lt hj, getElem?_drop]

end Blocks
