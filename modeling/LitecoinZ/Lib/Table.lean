import LitecoinZ.Lib.Threads

/-!
# Tables of finitely many slots

How often a value stands in a table, and how that changes when one slot is written.
-/

namespace Table

open List Finset Function

variable {ι α : Type} [Fintype ι] [DecidableEq α]

def occurrences (table : ι → α) (a : α) : Nat := Threads.total (fun x => if x = a then 1 else 0) table

theorem occurrences_eq_card (table : ι → α) (a : α) :
    occurrences table a = (univ.filter fun slot => table slot = a).card := by
  rw [card_filter]
  rfl

variable {table : ι → α} {a : α}

theorem occurrences_pos : 0 < occurrences table a ↔ ∃ slot, table slot = a := by
  rw [occurrences_eq_card, card_pos]
  constructor
  · rintro ⟨slot, hslot⟩
    exact ⟨slot, (mem_filter.1 hslot).2⟩
  · rintro ⟨slot, hslot⟩
    exact ⟨slot, mem_filter.2 ⟨mem_univ _, hslot⟩⟩

theorem occurrences_eq_zero : occurrences table a = 0 ↔ ∀ slot, table slot ≠ a := by
  have h := @occurrences_pos ι α _ _ table a
  constructor
  · intro hzero slot hslot
    have := h.2 ⟨slot, hslot⟩
    omega
  · intro hnone
    by_contra hzero
    obtain ⟨slot, hslot⟩ := h.1 (Nat.pos_of_ne_zero hzero)
    exact hnone slot hslot

theorem occurrences_le_one (h : ∀ i j, table i = a → table j = a → i = j) :
    occurrences table a ≤ 1 := by
  rw [occurrences_eq_card, card_le_one]
  intro i hi j hj
  exact h i j (mem_filter.1 hi).2 (mem_filter.1 hj).2

theorem occurrences_congr {table' : ι → α} {b : α} (h : ∀ slot, table slot = a ↔ table' slot = b) :
    occurrences table a = occurrences table' b := by
  rw [occurrences_eq_card, occurrences_eq_card]
  simp only [h]

theorem countP_eq_occurrences {slots : List ι} (hnodup : slots.Nodup) (hall : ∀ slot, slot ∈ slots) (table : ι → α) (a : α) :
    slots.countP (fun slot => table slot = a) = occurrences table a := by
  classical
  rw [occurrences_eq_card, countP_eq_length_filter, ← toFinset_card_of_nodup (hnodup.filter _)]
  congr 1
  ext slot
  simp [hall]

theorem countP_le_occurrences {slots : List ι} (hnodup : slots.Nodup) (table : ι → α) (a : α) :
    slots.countP (fun slot => table slot = a) ≤ occurrences table a := by
  classical
  rw [occurrences_eq_card, countP_eq_length_filter, ← toFinset_card_of_nodup (hnodup.filter _)]
  refine card_le_card fun slot hslot => ?_
  rw [mem_toFinset, mem_filter, decide_eq_true_eq] at hslot
  exact mem_filter.2 ⟨mem_univ _, hslot.2⟩

theorem length_le_card {values : List α} (hnodup : values.Nodup) (h : ∀ a ∈ values, ∃ slot, table slot = a) :
    values.length ≤ Fintype.card ι := by
  classical
  rw [← toFinset_card_of_nodup hnodup]
  have hsub : values.toFinset ⊆ univ.image table := by
    intro a ha
    obtain ⟨slot, hslot⟩ := h a (mem_toFinset.1 ha)
    exact mem_image.2 ⟨slot, mem_univ _, hslot⟩
  exact (card_le_card hsub).trans card_image_le

variable [DecidableEq ι]

attribute [grind =] Function.update_apply

theorem occurrences_update (table : ι → α) (i : ι) (x a : α) :
    occurrences (update table i x) a + (if table i = a then 1 else 0) =
      occurrences table a + (if x = a then 1 else 0) :=
  Threads.total_update (fun x => if x = a then 1 else 0) table i x

theorem occurrences_update_self {i : ι} (hold : table i ≠ a) :
    occurrences (update table i a) a = occurrences table a + 1 := by
  have h := occurrences_update table i a a
  rw [if_neg hold, if_pos rfl] at h
  exact h

theorem occurrences_update_old {i : ι} {x : α} (hnew : x ≠ table i) :
    occurrences (update table i x) (table i) + 1 = occurrences table (table i) := by
  have h := occurrences_update table i x (table i)
  rw [if_pos rfl, if_neg hnew] at h
  exact h

end Table
