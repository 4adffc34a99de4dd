import Mathlib.Algebra.BigOperators.Group.List.Basic
import Mathlib.Algebra.Order.Ring.Int
import Mathlib.Data.List.Perm.Subperm

/-!
# Selections from a list

The entries of a list whose flags are set, and sums of amounts over parts of a list.
-/

namespace Selection

open List

variable {α : Type}

def select : List α → List Bool → List α
  | a :: l, b :: flags => if b then a :: select l flags else select l flags
  | _, _ => []

theorem select_replicate_false (l : List α) (n : Nat) : select l (List.replicate n false) = [] := by
  induction l generalizing n with
  | nil => rfl
  | cons a l ih =>
    cases n with
    | zero => rfl
    | succ n =>
      rw [replicate_succ, select, if_neg (by decide)]
      exact ih n

theorem select_replicate_true (l : List α) : select l (List.replicate l.length true) = l := by
  induction l with
  | nil => rfl
  | cons a l ih =>
    rw [length_cons, replicate_succ, select, if_pos rfl, ih]

theorem select_sublist (l : List α) (flags : List Bool) : (select l flags).Sublist l := by
  induction l generalizing flags with
  | nil => exact Sublist.refl _
  | cons a l ih =>
    cases flags with
    | nil => exact nil_sublist _
    | cons b flags =>
      rw [select]
      split
      · exact (ih flags).cons_cons a
      · exact (ih flags).cons a

theorem select_set {l : List α} {flags : List Bool} {i : Nat} {a : α} (ha : l[i]? = some a) (hi : flags[i]? = some false) :
    (select l (flags.set i true)).Perm (a :: select l flags) := by
  induction l generalizing flags i with
  | nil => simp at ha
  | cons x l ih =>
    cases flags with
    | nil => simp at hi
    | cons b flags =>
      cases i with
      | zero =>
        obtain rfl : x = a := by simpa using ha
        obtain rfl : b = false := by simpa using hi
        rw [set_cons_zero, select, select, if_pos rfl, if_neg (by decide)]
      | succ i =>
        have hrest := ih (by simpa using ha) (by simpa using hi)
        rw [set_cons_succ, select, select]
        split
        · exact (hrest.cons x).trans (List.Perm.swap a x _)
        · exact hrest

theorem sum_le_of_sublist {l l' : List ℤ} (h : l.Sublist l') (hnn : ∀ n ∈ l', 0 ≤ n) : l.sum ≤ l'.sum := by
  induction h with
  | slnil => exact le_refl _
  | cons a _ ih =>
    rw [sum_cons]
    have h1 := ih (forall_mem_cons.1 hnn).2
    have h2 := hnn a mem_cons_self
    omega
  | cons_cons a _ ih =>
    rw [sum_cons, sum_cons]
    have h1 := ih (forall_mem_cons.1 hnn).2
    omega

theorem sum_le_of_subset {l l' : List α} (f : α → ℤ) (hnodup : l.Nodup) (hsub : l ⊆ l') (hnn : ∀ a ∈ l', 0 ≤ f a) :
    (l.map f).sum ≤ (l'.map f).sum := by
  obtain ⟨m, hperm, hsublist⟩ := subperm_of_subset hnodup hsub
  rw [← (hperm.map f).sum_eq]
  refine sum_le_of_sublist (hsublist.map f) fun n hn => ?_
  obtain ⟨a, ha, rfl⟩ := mem_map.1 hn
  exact hnn a ha

end Selection
