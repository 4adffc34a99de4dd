import Mathlib.Data.Finset.Basic
import LitecoinZ.Lib.KeyMap

/-!
# Maps to finite sets

A finite map from keys to sets, read as a relation between keys and elements: a key without an entry has no element.
Elements are added under a list of keys (`addAll`) and removed under a list of keys (`removeAll`), where an entry whose
set becomes empty is dropped.  Neither leaves an empty set behind (`NoEmpty`).
-/

abbrev SetMap (κ α : Type) := KeyMap κ (Finset α)

namespace SetMap

variable {κ α : Type} [DecidableEq κ] [DecidableEq α]

/-- The elements under a key. -/
def members (m : SetMap κ α) (k : κ) : Finset α := (m.lookup k).getD ∅

def NoEmpty (m : SetMap κ α) : Prop := ∀ k, m.lookup k ≠ some ∅

def add (a : α) (m : SetMap κ α) (k : κ) : SetMap κ α := m.insert k (insert a (members m k))

def addAll (a : α) (m : SetMap κ α) (ks : List κ) : SetMap κ α := ks.foldl (add a) m

def remove (a : α) (m : SetMap κ α) (k : κ) : SetMap κ α :=
  match m.lookup k with
  | none => m
  | some s => if s.erase a = ∅ then m.erase k else m.insert k (s.erase a)

def removeAll (a : α) (m : SetMap κ α) (ks : List κ) : SetMap κ α := ks.foldl (remove a) m

omit [DecidableEq α] in
theorem noEmpty_empty : NoEmpty (∅ : SetMap κ α) := by
  intro k
  rw [KeyMap.lookup_empty]
  exact fun h => by cases h

variable {m : SetMap κ α} {k : κ} {a : α}

theorem NoEmpty.lookup (hm : NoEmpty m) {s : Finset α} (hs : members m k = s) :
    m.lookup k = if s = ∅ then none else some s := by
  rw [members] at hs
  cases hk : m.lookup k with
  | none =>
    rw [hk, Option.getD_none] at hs
    rw [if_pos hs.symm]
  | some s' =>
    rw [hk] at hs
    obtain rfl : s' = s := hs
    rw [if_neg fun h => hm k (by rw [hk, h])]

theorem members_add (a : α) (m : SetMap κ α) (k k' : κ) :
    members (add a m k) k' = if k' = k then insert a (members m k') else members m k' := by
  rw [members, add]
  split
  · subst k'
    rw [AList.lookup_insert]
    rfl
  · rw [AList.lookup_insert_ne ‹_›]
    rfl

private theorem remove_none (h : m.lookup k = none) : remove a m k = m := by
  rw [remove, h]

private theorem remove_some {s : Finset α} (h : m.lookup k = some s) :
    remove a m k = if s.erase a = ∅ then m.erase k else m.insert k (s.erase a) := by
  rw [remove, h]

theorem members_remove (a : α) (m : SetMap κ α) (k k' : κ) :
    members (remove a m k) k' = if k' = k then (members m k').erase a else members m k' := by
  cases hk : m.lookup k with
  | none =>
    rw [remove_none hk]
    split
    · subst k'
      simp [members, hk]
    · rfl
  | some s =>
    rw [remove_some hk]
    by_cases hkk : k' = k
    · subst hkk
      by_cases hs : s.erase a = ∅
      · simp [members, hk, hs]
      · simp [members, hk, hs]
    · by_cases hs : s.erase a = ∅
      · simp [members, hs, hkk]
      · simp [members, hs, hkk]

theorem NoEmpty.add (hm : NoEmpty m) (a : α) (k : κ) : NoEmpty (add a m k) := by
  intro k' h
  rcases KeyMap.lookup_insert_cases h with ⟨-, hs⟩ | ⟨-, hs⟩
  · exact Finset.insert_ne_empty _ _ hs.symm
  · exact hm k' hs

theorem NoEmpty.remove (hm : NoEmpty m) (a : α) (k : κ) : NoEmpty (remove a m k) := by
  intro k' h
  cases hk : m.lookup k with
  | none =>
    rw [remove_none hk] at h
    exact hm k' h
  | some s =>
    rw [remove_some hk] at h
    split at h
    · by_cases hkk : k' = k
      · rw [hkk, AList.lookup_erase] at h
        cases h
      · rw [AList.lookup_erase_ne hkk] at h
        exact hm k' h
    · rename_i hs
      rcases KeyMap.lookup_insert_cases h with ⟨-, hs'⟩ | ⟨-, hs'⟩
      · exact hs hs'.symm
      · exact hm k' hs'

theorem NoEmpty.addAll (hm : NoEmpty m) (a : α) (ks : List κ) : NoEmpty (addAll a m ks) := by
  induction ks generalizing m with
  | nil => exact hm
  | cons k ks ih => exact ih (hm.add a k)

theorem NoEmpty.removeAll (hm : NoEmpty m) (a : α) (ks : List κ) : NoEmpty (removeAll a m ks) := by
  induction ks generalizing m with
  | nil => exact hm
  | cons k ks ih => exact ih (hm.remove a k)

theorem mem_addAll {b : α} {ks : List κ} :
    b ∈ members (addAll a m ks) k ↔ b ∈ members m k ∨ k ∈ ks ∧ b = a := by
  induction ks generalizing m with
  | nil => simp [addAll]
  | cons k0 ks ih =>
    rw [addAll, List.foldl_cons]
    refine ih.trans ?_
    rw [members_add]
    by_cases hk : k = k0
    · simp only [if_pos hk, Finset.mem_insert, List.mem_cons]
      tauto
    · rw [if_neg hk]
      simp only [List.mem_cons, hk, false_or]

theorem mem_removeAll {b : α} {ks : List κ} :
    b ∈ members (removeAll a m ks) k ↔ b ∈ members m k ∧ ¬ (k ∈ ks ∧ b = a) := by
  induction ks generalizing m with
  | nil => simp [removeAll]
  | cons k0 ks ih =>
    rw [removeAll, List.foldl_cons]
    refine ih.trans ?_
    rw [members_remove]
    by_cases hk : k = k0
    · simp only [if_pos hk, Finset.mem_erase, List.mem_cons]
      tauto
    · rw [if_neg hk]
      simp only [List.mem_cons, hk, false_or]

end SetMap
