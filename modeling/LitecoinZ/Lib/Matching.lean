import Mathlib.Data.List.NodupEquivFin

/-!
# Order-preserving matchings

A list is matched into another one by assigning its elements to different elements of the other, in order, each to one that
it is related to.  The greedy search, which assigns each element to the first that it can, finds a matching if there is one
(`greedy_iff`).  Its early exit, when more elements are left than there are to assign them to, changes nothing
(`greedy_eq_false_of_lt`).
-/

namespace Matching

open List

variable {α β : Type} {r : α → β → Prop} {l1 : List α} {l2 : List β}

/-- The elements of the first list have an increasing assignment to elements of the second one. -/
def Matched (r : α → β → Prop) (l₁ : List α) (l₂ : List β) : Prop :=
  ∃ f : Fin l₁.length → Fin l₂.length, StrictMono f ∧ ∀ i, r (l₁.get i) (l₂.get (f i))

theorem matched_iff : Matched r l1 l2 ↔ List.SublistForall₂ r l1 l2 := by
  rw [sublistForall₂_iff]
  constructor
  · rintro ⟨f, hf, hr⟩
    refine ⟨List.ofFn fun i => l2.get (f i), ?_, ?_⟩
    · rw [forall₂_iff_get]
      refine ⟨length_ofFn.symm, fun i h1 h2 => ?_⟩
      rw [get_ofFn]
      exact hr ⟨i, h1⟩
    · rw [sublist_iff_exists_fin_orderEmbedding_get_eq]
      refine ⟨OrderEmbedding.ofStrictMono (fun i => f (i.cast length_ofFn)) fun i j hij => hf hij, fun i => ?_⟩
      rw [get_ofFn]
      rfl
  · rintro ⟨l, hl, hsub⟩
    obtain ⟨f, hf⟩ := sublist_iff_exists_fin_orderEmbedding_get_eq.1 hsub
    refine ⟨fun i => f (i.cast hl.length_eq), fun i j hij => f.strictMono hij, fun i => ?_⟩
    rw [← hf]
    exact (forall₂_iff_get.1 hl).2 i i.2 (hl.length_eq ▸ i.2)

theorem matched_reverse : Matched r l1.reverse l2.reverse ↔ Matched r l1 l2 := by
  have hreverse : ∀ {l1 : List α} {l2 : List β}, List.SublistForall₂ r l1 l2 →
      List.SublistForall₂ r l1.reverse l2.reverse := by
    intro l1 l2 h
    obtain ⟨l, hl, hsub⟩ := sublistForall₂_iff.1 h
    exact sublistForall₂_iff.2 ⟨l.reverse, rel_reverse hl, hsub.reverse⟩
  rw [matched_iff, matched_iff]
  constructor
  · intro h
    have := hreverse h
    rwa [reverse_reverse, reverse_reverse] at this
  · exact hreverse

variable [DecidableRel r]

/-- The search that assigns each element to the first that it can. -/
def greedy (r : α → β → Prop) [DecidableRel r] : List α → List β → Bool
  | [], _ => true
  | _ :: _, [] => false
  | a :: l₁, b :: l₂ => if r a b then greedy r l₁ l₂ else greedy r (a :: l₁) l₂

theorem greedy_iff : greedy r l1 l2 = true ↔ Matched r l1 l2 := by
  rw [matched_iff]
  induction l2 generalizing l1 with
  | nil =>
    cases l1 with
    | nil => exact ⟨fun _ => .nil, fun _ => rfl⟩
    | cons a l1 => exact ⟨nofun, nofun⟩
  | cons b l2 ih =>
    cases l1 with
    | nil => exact ⟨fun _ => .nil, fun _ => rfl⟩
    | cons a l1 =>
      rw [greedy]
      split
      · rename_i hab
        rw [ih]
        refine ⟨.cons hab, fun h => ?_⟩
        -- An assignment that does not use `b` for `a` can be changed to one that does.
        cases h with
        | cons _ h => exact h
        | cons_right h =>
          obtain ⟨l, hl, hsub⟩ := sublistForall₂_iff.1 h
          cases hl with
          | cons _ hl => exact sublistForall₂_iff.2 ⟨_, hl, (sublist_cons_self _ _).trans hsub⟩
      · rename_i hab
        rw [ih]
        refine ⟨.cons_right, fun h => ?_⟩
        cases h with
        | cons h _ => exact absurd h hab
        | cons_right h => exact h

theorem greedy_eq_false_of_lt (h : l2.length < l1.length) : greedy r l1 l2 = false := by
  rw [← Bool.not_eq_true, greedy_iff, matched_iff, sublistForall₂_iff]
  rintro ⟨l, hl, hsub⟩
  have hlen := hl.length_eq
  have hle := hsub.length_le
  omega

end Matching
