import Mathlib.Data.List.Nodup
import Mathlib.Data.List.Perm.Basic
import Mathlib.Data.List.TakeWhile

/-!
# Pairs of positions of a list

`pairs l` lists the pairs of entries of a list, the earlier one first, in the order of two nested loops.  In a list
without repetitions each two entries are a pair in one order only.  In a list that is sorted by a key the pairs with
equal keys are the pairs of its runs.
-/

namespace Pairs

open List

variable {α β : Type}

def pairs : List α → List (α × α)
  | [] => []
  | a :: l => l.map (fun b => (a, b)) ++ pairs l

variable {l : List α} {a : α}

theorem mem_of_mem_pairs {b : α} (h : (a, b) ∈ pairs l) : a ∈ l ∧ b ∈ l := by
  induction l with
  | nil => cases h
  | cons x l ih =>
    rcases mem_append.1 h with h | h
    · obtain ⟨y, hy, heq⟩ := mem_map.1 h
      cases heq
      exact ⟨mem_cons_self, mem_cons_of_mem _ hy⟩
    · obtain ⟨ha, hb⟩ := ih h
      exact ⟨mem_cons_of_mem _ ha, mem_cons_of_mem _ hb⟩

theorem mem_pairs_or {b : α} (ha : a ∈ l) (hb : b ∈ l) (hne : a ≠ b) :
    (a, b) ∈ pairs l ∨ (b, a) ∈ pairs l := by
  induction l with
  | nil => cases ha
  | cons x l ih =>
    rw [pairs, mem_append, mem_append, mem_map, mem_map]
    rcases mem_cons.1 ha with rfl | ha'
    · rcases mem_cons.1 hb with rfl | hb'
      · exact absurd rfl hne
      · exact .inl (.inl ⟨b, hb', rfl⟩)
    · rcases mem_cons.1 hb with rfl | hb'
      · exact .inr (.inl ⟨a, ha', rfl⟩)
      · rcases ih ha' hb' with h | h
        · exact .inl (.inr h)
        · exact .inr (.inr h)

theorem not_mem_pairs_swap (hl : l.Nodup) {b : α} (h : (a, b) ∈ pairs l) : (b, a) ∉ pairs l := by
  induction l with
  | nil => cases h
  | cons x l ih =>
    obtain ⟨hx, hl⟩ := nodup_cons.1 hl
    intro hswap
    rcases mem_append.1 h with hx' | hrest
    · obtain ⟨y, hy, heq⟩ := mem_map.1 hx'
      cases heq
      rcases mem_append.1 hswap with hx'' | hrest'
      · obtain ⟨z, hz, heq⟩ := mem_map.1 hx''
        cases heq
        exact hx hy
      · exact hx (mem_of_mem_pairs hrest').2
    · rcases mem_append.1 hswap with hx'' | hrest'
      · obtain ⟨z, hz, heq⟩ := mem_map.1 hx''
        cases heq
        exact hx (mem_of_mem_pairs hrest).2
      · exact ih hl hrest hrest'

theorem nodup_pairs (hl : l.Nodup) : (pairs l).Nodup := by
  induction l with
  | nil => exact nodup_nil
  | cons x l ih =>
    obtain ⟨hx, hl⟩ := nodup_cons.1 hl
    rw [pairs, nodup_append']
    refine ⟨hl.map fun a b hab => (Prod.mk.inj hab).2, ih hl, ?_⟩
    intro p hp hp'
    obtain ⟨y, hy, rfl⟩ := mem_map.1 hp
    exact hx (mem_of_mem_pairs hp').1

theorem pairs_map (f : α → β) (l : List α) : pairs (l.map f) = (pairs l).map (Prod.map f f) := by
  induction l with
  | nil => rfl
  | cons x l ih =>
    rw [map_cons, pairs, pairs, ih, map_append, map_map, map_map]
    rfl

/-- When no pair across two parts counts, the pairs are those of the parts. -/
theorem filter_pairs_append {p : α × α → Bool} {l' : List α} (h : ∀ a ∈ l, ∀ b ∈ l', p (a, b) = false) :
    (pairs (l ++ l')).filter p = (pairs l).filter p ++ (pairs l').filter p := by
  induction l with
  | nil => rfl
  | cons x l ih =>
    have hcross : (l'.map fun b => (x, b)).filter p = [] := by
      rw [filter_eq_nil_iff]
      intro q hq
      obtain ⟨b, hb, rfl⟩ := mem_map.1 hq
      rw [h x mem_cons_self b hb]
      decide
    rw [cons_append, pairs, pairs, map_append, filter_append, filter_append, filter_append,
      hcross, append_nil, ih (forall_mem_cons.1 h).2, append_assoc]

/-- The pairs with equal keys of a sorted list: all of its first run, and those of the rest. -/
theorem filter_pairs_run [BEq β] [LawfulBEq β] (key : α → β) {lt : β → β → Prop}
    (htri : ∀ x y, ¬ lt x y → ¬ lt y x → x = y) (hs : (a :: l).Pairwise fun a b => ¬ lt (key b) (key a)) :
    (pairs (a :: l)).filter (fun p => key p.1 == key p.2) =
      pairs (a :: l.takeWhile fun b => key a == key b) ++
        (pairs (l.dropWhile fun b => key a == key b)).filter (fun p => key p.1 == key p.2) := by
  have hrun : ∀ x ∈ a :: l.takeWhile (fun b => key a == key b), key x = key a := by
    intro x hx
    rcases mem_cons.1 hx with rfl | hx'
    · rfl
    · have heq : (key a == key x) = true := mem_takeWhile_imp (p := fun b => key a == key b) hx'
      exact (beq_iff_eq.1 heq).symm
  -- The first entry behind the run has a larger key, and the entries behind it have none that is smaller.
  have hrest : ∀ y ∈ l.dropWhile (fun b => key a == key b), key a ≠ key y := by
    obtain ⟨hfirst, hl⟩ := pairwise_cons.1 hs
    have hsub := dropWhile_sublist (l := l) fun b => key a == key b
    match hdrop : l.dropWhile (fun b => key a == key b) with
    | [] => simp
    | z :: zs =>
      have hz : key a ≠ key z := by
        have := head_dropWhile_not (fun b => key a == key b) (l := l) (by rw [hdrop]; simp)
        simpa [hdrop] using this
      have hz' : ¬ lt (key z) (key a) := hfirst z (hsub.subset (hdrop ▸ mem_cons_self))
      have hlt : lt (key a) (key z) := by
        by_contra hnot
        exact hz (htri _ _ hnot hz')
      have hzs := pairwise_cons.1 (hdrop ▸ hl.sublist hsub)
      intro y hy heq
      rcases mem_cons.1 hy with rfl | hy'
      · exact hz heq
      · exact hzs.1 y hy' (heq ▸ hlt)
  have hpairs : (pairs (a :: l.takeWhile fun b => key a == key b)).filter (fun p => key p.1 == key p.2) =
      pairs (a :: l.takeWhile fun b => key a == key b) := by
    rw [filter_eq_self]
    rintro ⟨x, y⟩ hp
    obtain ⟨hx, hy⟩ := mem_of_mem_pairs hp
    rw [beq_iff_eq, hrun x hx, hrun y hy]
  have hsplit : a :: l = (a :: l.takeWhile fun b => key a == key b) ++ l.dropWhile fun b => key a == key b := by
    rw [cons_append, takeWhile_append_dropWhile]
  conv_lhs => rw [hsplit]
  rw [filter_pairs_append, hpairs]
  intro x hx y hy
  rw [hrun x hx]
  exact beq_eq_false_iff_ne.2 (hrest y hy)

end Pairs
