import Mathlib.Data.List.Basic

/-!
# The greatest entry of a list

The last entry of an ordered set, for a comparison that says whether the first argument is worse than the second one.
-/

namespace Greatest

open List

variable {α : Type} {worse : α → α → Bool}

def better (worse : α → α → Bool) (best : Option α) (a : α) : Option α :=
  match best with
  | none => some a
  | some b => if worse b a then some a else some b

def greatest (worse : α → α → Bool) (l : List α) : Option α := l.foldl (better worse) none

private theorem foldl_better (hrefl : ∀ a, worse a a = false) (hasymm : ∀ a b, worse a b = true → worse b a = false)
    (htrans : ∀ a b c, worse a b = false → worse b c = false → worse a c = false) (l : List α) (b : α) :
    ∃ m, l.foldl (better worse) (some b) = some m ∧ (m = b ∨ m ∈ l) ∧ worse m b = false ∧ ∀ a ∈ l, worse m a = false := by
  induction l generalizing b with
  | nil => exact ⟨b, rfl, .inl rfl, hrefl b, by simp⟩
  | cons x l ih =>
    rw [foldl_cons]
    by_cases hx : worse b x = true
    · obtain ⟨m, hm, hmem, hmx, hml⟩ := ih x
      have hstep : better worse (some b) x = some x := if_pos hx
      refine ⟨m, by rw [hstep, hm], ?_, htrans m x b hmx (hasymm b x hx), ?_⟩
      · rcases hmem with rfl | hmem
        · exact .inr mem_cons_self
        · exact .inr (mem_cons_of_mem _ hmem)
      · intro a ha
        rcases mem_cons.1 ha with rfl | ha'
        · exact hmx
        · exact hml a ha'
    · obtain ⟨m, hm, hmem, hmb, hml⟩ := ih b
      have hstep : better worse (some b) x = some b := if_neg hx
      refine ⟨m, by rw [hstep, hm], ?_, hmb, ?_⟩
      · rcases hmem with rfl | hmem
        · exact .inl rfl
        · exact .inr (mem_cons_of_mem _ hmem)
      · intro a ha
        rcases mem_cons.1 ha with rfl | ha'
        · exact htrans m b a hmb (Bool.eq_false_iff.2 hx)
        · exact hml a ha'

theorem greatest_none {l : List α} (h : greatest worse l = none) : l = [] := by
  cases l with
  | nil => rfl
  | cons a l =>
    have hsome : ∀ (l : List α) (b : α), l.foldl (better worse) (some b) ≠ none := by
      intro l
      induction l with
      | nil => simp
      | cons x l ih =>
        intro b
        rw [foldl_cons, better]
        split
        · exact ih x
        · exact ih b
    exact absurd h (hsome l a)

theorem greatest_some (hrefl : ∀ a, worse a a = false) (hasymm : ∀ a b, worse a b = true → worse b a = false)
    (htrans : ∀ a b c, worse a b = false → worse b c = false → worse a c = false) {l : List α} {m : α}
    (h : greatest worse l = some m) : m ∈ l ∧ ∀ a ∈ l, worse m a = false := by
  cases l with
  | nil => cases h
  | cons a l =>
    obtain ⟨m', hm', hmem, hma, hml⟩ := foldl_better hrefl hasymm htrans l a
    obtain rfl : m' = m := Option.some.inj (hm'.symm.trans h)
    refine ⟨?_, ?_⟩
    · rcases hmem with rfl | hmem
      · exact mem_cons_self
      · exact mem_cons_of_mem _ hmem
    · intro x hx
      rcases mem_cons.1 hx with rfl | hx'
      · exact hma
      · exact hml x hx'

end Greatest
