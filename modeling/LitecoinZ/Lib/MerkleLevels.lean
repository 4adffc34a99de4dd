import Mathlib.Data.List.Nodup

/-!
# Trees of hashes over a list of any length

The levels of a tree whose nodes combine neighbours, where the last node of an odd level is its own neighbour.  Lists of
different lengths can have the same root this way.  If the function that combines two nodes has no collisions and no level
ends with a pair of twins, two lists with the same root are levels of one tree (`mem_levels_or`).
-/

namespace MerkleLevels

open List

variable {α : Type} {node : α → α → α} {null : α} {l l' : List α}

/-! ### One level -/

/-- The pairs that are combined; the last node of an odd level is its own neighbour. -/
def neighbours : List α → List (α × α)
  | [] => []
  | [a] => [(a, a)]
  | a :: b :: l => (a, b) :: neighbours l

variable (node : α → α → α)

def up (l : List α) : List α := (neighbours l).map fun p => node p.1 p.2

theorem length_neighbours : ∀ l : List α, (neighbours l).length = (l.length + 1) / 2
  | [] => by simp [neighbours]
  | [_] => by simp [neighbours]
  | a :: b :: l => by
    rw [neighbours, length_cons, length_neighbours l, length_cons, length_cons]
    omega

theorem length_up (l : List α) : (up node l).length = (l.length + 1) / 2 := by
  rw [up, length_map, length_neighbours]

theorem getElem?_neighbours : ∀ {l : List α} {i : Nat} {a b : α}, l[2 * i]? = some a →
    l[min (2 * i + 1) (l.length - 1)]? = some b → (neighbours l)[i]? = some (a, b)
  | [], i, a, b, ha, _ => by simp at ha
  | [x], i, a, b, ha, hb => by
    obtain rfl : i = 0 := by
      have := (List.getElem?_eq_some_iff.1 ha).1
      rw [length_singleton] at this
      omega
    obtain rfl : x = a := by simpa using ha
    obtain rfl : x = b := by simpa using hb
    rfl
  | x :: y :: l, 0, a, b, ha, hb => by
    obtain rfl : x = a := by simpa using ha
    obtain rfl : y = b := by simpa using hb
    rfl
  | x :: y :: l, i + 1, a, b, ha, hb => by
    rw [neighbours, getElem?_cons_succ]
    have hlt : 2 * i < l.length := by
      have := (List.getElem?_eq_some_iff.1 ha).1
      rw [length_cons, length_cons] at this
      omega
    have hi : 2 * (i + 1) = 2 * i + 1 + 1 := by omega
    have hmin : min (2 * (i + 1) + 1) ((x :: y :: l).length - 1) = min (2 * i + 1) (l.length - 1) + 1 + 1 := by
      rw [length_cons, length_cons]
      omega
    rw [hi, getElem?_cons_succ, getElem?_cons_succ] at ha
    rw [hmin, getElem?_cons_succ, getElem?_cons_succ] at hb
    exact getElem?_neighbours ha hb

theorem getElem?_up {i : Nat} {a b : α} (ha : l[2 * i]? = some a) (hb : l[min (2 * i + 1) (l.length - 1)]? = some b) :
    (up node l)[i]? = some (node a b) := by
  rw [up, getElem?_map, getElem?_neighbours ha hb]
  rfl

theorem induction_up (node : α → α → α) {P : List α → Prop} (hshort : ∀ l, l.length ≤ 1 → P l)
    (hup : ∀ l, 1 < l.length → P (up node l) → P l) (l : List α) : P l := by
  by_cases h : 1 < l.length
  · exact hup l h (induction_up node hshort hup (up node l))
  · exact hshort l (Nat.not_lt.1 h)
termination_by l.length
decreasing_by
  rw [length_up]
  omega

/-! ### All levels -/

def levels (node : α → α → α) (l : List α) : List (List α) :=
  if 1 < l.length then l :: levels node (up node l) else [l]
termination_by l.length
decreasing_by
  rw [length_up]
  omega

def root (null : α) (l : List α) : α := ((levels node l).getLastD []).headD null

/-- The pairs that are combined on any level. -/
def treePairs (l : List α) : List (α × α) :=
  (levels node l).flatMap fun level => if 1 < level.length then neighbours level else []

variable {node}

theorem levels_of_le (h : l.length ≤ 1) : levels node l = [l] := by
  rw [levels, if_neg (Nat.not_lt.2 h)]

theorem levels_of_lt (h : 1 < l.length) : levels node l = l :: levels node (up node l) := by
  rw [levels, if_pos h]

theorem levels_ne_nil (node : α → α → α) (l : List α) : levels node l ≠ [] := by
  rw [levels]
  split <;> exact cons_ne_nil _ _

theorem mem_levels_self (node : α → α → α) (l : List α) : l ∈ levels node l := by
  rw [levels]
  split <;> exact mem_cons_self

theorem root_of_le (h : l.length ≤ 1) : root node null l = l.headD null := by
  rw [root, levels_of_le h]
  rfl

theorem root_of_lt (h : 1 < l.length) : root node null l = root node null (up node l) := by
  rw [root, levels_of_lt h, root, getLastD_cons]
  obtain ⟨level, rest, hlevels⟩ := exists_cons_of_ne_nil (levels_ne_nil node (up node l))
  rw [hlevels, getLastD_cons, getLastD_cons]

private theorem flatten_levels_ne_nil (hne : l ≠ []) : (levels node l).flatten ≠ [] := by
  intro h
  exact hne (flatten_eq_nil_iff.1 h l (mem_levels_self node l))

theorem getLastD_flatten_levels (node : α → α → α) (null : α) (l : List α) :
    (levels node l).flatten.getLastD null = root node null l := by
  induction l using induction_up node with
  | hshort l h =>
    rw [levels_of_le h, root_of_le h, flatten_singleton]
    match l, h with
    | [], _ => rfl
    | [a], _ => rfl
  | hup l h ih =>
    have hne : up node l ≠ [] := by
      rw [ne_eq, ← length_eq_zero_iff, length_up]
      omega
    rw [root_of_lt h, ← ih, levels_of_lt h, flatten_cons, getLastD_eq_getLast?, getLastD_eq_getLast?,
      getLast?_append_of_ne_nil _ (flatten_levels_ne_nil hne)]

theorem root_mem_levels (hne : l ≠ []) : [root node null l] ∈ levels node l := by
  induction l using induction_up node with
  | hshort l h =>
    obtain ⟨a, rest, rfl⟩ := exists_cons_of_ne_nil hne
    obtain rfl : rest = [] := by
      rw [length_cons] at h
      exact eq_nil_of_length_eq_zero (by omega)
    rw [root_of_le h]
    exact mem_levels_self node [a]
  | hup l h ih =>
    rw [root_of_lt h, levels_of_lt h]
    refine mem_cons_of_mem _ (ih ?_)
    rw [ne_eq, ← length_eq_zero_iff, length_up]
    omega

theorem mem_levels (h : l' ∈ levels node l) : l' = l ∨ ∃ level ∈ levels node l, 1 < level.length ∧ l' = up node level := by
  induction l using induction_up node with
  | hshort l hl =>
    rw [levels_of_le hl, mem_singleton] at h
    exact .inl h
  | hup l hl ih =>
    rw [levels_of_lt hl] at h ⊢
    rcases mem_cons.1 h with rfl | h
    · exact .inl rfl
    · rcases ih h with rfl | ⟨level, hlevel, hlt, rfl⟩
      · exact .inr ⟨l, mem_cons_self, hl, rfl⟩
      · exact .inr ⟨level, mem_cons_of_mem _ hlevel, hlt, rfl⟩

theorem neighbours_subset_treePairs (h : l' ∈ levels node l) (hlt : 1 < l'.length) : neighbours l' ⊆ treePairs node l := by
  intro p hp
  refine mem_flatMap.2 ⟨l', h, ?_⟩
  rwa [if_pos hlt]

theorem treePairs_of_lt (h : 1 < l.length) : treePairs node l = neighbours l ++ treePairs node (up node l) := by
  rw [treePairs, levels_of_lt h, flatMap_cons, if_pos h, treePairs]

/-- The function has no collision among some pairs. -/
def CollisionFree (node : α → α → α) (ps : List (α × α)) : Prop :=
  ∀ p ∈ ps, ∀ q ∈ ps, node p.1 p.2 = node q.1 q.2 → p = q

theorem CollisionFree.mono {ps qs : List (α × α)} (h : CollisionFree node qs) (hsub : ps ⊆ qs) : CollisionFree node ps :=
  fun p hp q hq => h p (hsub hp) q (hsub hq)

private theorem fst_neighbours : ∀ l : List α, ((neighbours l).map Prod.fst).Sublist l
  | [] => Sublist.refl _
  | [_] => Sublist.refl _
  | a :: b :: l => by
    rw [neighbours, map_cons]
    exact ((fst_neighbours l).cons b).cons_cons a

theorem nodup_up (hnodup : l.Nodup) (hfree : CollisionFree node (neighbours l)) : (up node l).Nodup :=
  Nodup.map_on hfree (Nodup.of_map _ (hnodup.sublist (fst_neighbours l)))

private theorem neighbours_of_up (hfree : CollisionFree node (neighbours l ++ neighbours l')) (h : up node l = up node l') :
    neighbours l = neighbours l' := by
  refine ext_getElem? fun i => ?_
  have hi := congrArg (fun level => level[i]?) h
  simp only [up, getElem?_map] at hi
  cases hp : (neighbours l)[i]? with
  | none =>
    rw [hp] at hi
    cases hq : (neighbours l')[i]? with
    | none => rfl
    | some q =>
      rw [hq] at hi
      cases hi
  | some p =>
    rw [hp] at hi
    cases hq : (neighbours l')[i]? with
    | none =>
      rw [hq] at hi
      cases hi
    | some q =>
      rw [hq] at hi
      rw [hfree p (mem_append_left _ (mem_of_getElem? hp)) q (mem_append_right _ (mem_of_getElem? hq))
        (Option.some.inj hi)]

variable [DecidableEq α]

/-- The level ends with a pair of equal nodes. -/
def twins : List α → Bool
  | [] => false
  | [_] => false
  | [a, b] => a == b
  | _ :: _ :: c :: l => twins (c :: l)

theorem twins_iff : ∀ {l : List α}, twins l = true ↔ ∃ ws x, l = ws ++ [x, x] ∧ ws.length % 2 = 0
  | [] => by simp [twins]
  | [a] => by
    refine ⟨fun h => (by cases h), ?_⟩
    rintro ⟨ws, x, h, -⟩
    have hlen := congrArg List.length h
    rw [length_append, length_singleton, length_cons, length_singleton] at hlen
    omega
  | [a, b] => by
    rw [twins, beq_iff_eq]
    constructor
    · rintro rfl
      exact ⟨[], a, rfl, rfl⟩
    · rintro ⟨ws, x, h, -⟩
      have hlen := congrArg List.length h
      rw [length_append] at hlen
      obtain rfl : ws = [] := eq_nil_of_length_eq_zero (by simpa using hlen)
      simp only [nil_append, cons.injEq] at h
      rw [h.1, h.2.1]
  | a :: b :: c :: l => by
    rw [twins, twins_iff]
    constructor
    · rintro ⟨ws, x, h, heven⟩
      refine ⟨a :: b :: ws, x, by rw [h]; rfl, ?_⟩
      rw [length_cons, length_cons]
      omega
    · rintro ⟨ws, x, h, heven⟩
      match ws, h, heven with
      | [], h, _ => simp at h
      | [w], _, heven => simp at heven
      | w :: w' :: ws, h, heven =>
        simp only [cons_append, cons.injEq] at h
        refine ⟨ws, x, h.2.2, ?_⟩
        rw [length_cons, length_cons] at heven
        omega

private theorem eq_of_neighbours : ∀ {l l' : List α}, neighbours l = neighbours l' → twins l = false → twins l' = false → l = l'
  | [], l', h, _, _ => by
    have hlen := congrArg List.length h
    rw [length_neighbours, length_neighbours] at hlen
    exact (eq_nil_of_length_eq_zero (by simp at hlen; omega)).symm
  | a :: l, [], h, _, _ => by
    have hlen := congrArg List.length h
    rw [length_neighbours, length_neighbours, length_cons, length_nil] at hlen
    omega
  | [a], [c], h, _, _ => by
    cases h
    rfl
  | [a], c :: d :: l', h, _, htwins => by
    -- A single last node stands for two equal ones.
    rw [neighbours, neighbours, cons.injEq] at h
    have hlen := congrArg List.length h.2
    rw [length_neighbours, length_nil] at hlen
    obtain rfl : l' = [] := eq_nil_of_length_eq_zero (by omega)
    obtain ⟨rfl, rfl⟩ := Prod.mk.inj h.1
    simp [twins] at htwins
  | a :: b :: l, [c], h, htwins, _ => by
    rw [neighbours, neighbours, cons.injEq] at h
    have hlen := congrArg List.length h.2
    rw [length_neighbours, length_nil] at hlen
    obtain rfl : l = [] := eq_nil_of_length_eq_zero (by omega)
    obtain ⟨rfl, rfl⟩ := Prod.mk.inj h.1
    simp [twins] at htwins
  | a :: b :: l, c :: d :: l', h, htwins, htwins' => by
    rw [neighbours, neighbours, cons.injEq] at h
    obtain ⟨rfl, rfl⟩ := Prod.mk.inj h.1
    have htail : ∀ {l : List α}, twins (a :: b :: l) = false → twins l = false := by
      intro l htwins
      cases l with
      | nil => rfl
      | cons c l => exact htwins
    rw [eq_of_neighbours h.2 (htail htwins) (htail htwins')]

/-! ### Equal roots -/

omit [DecidableEq α] in
/-- Nothing else is combined to the same as one of the pairs. -/
def SecondPreimageFree (node : α → α → α) (ps : List (α × α)) : Prop :=
  ∀ p ∈ ps, ∀ a b, node a b = node p.1 p.2 → a = p.1 ∧ b = p.2

/-- Of two lists with the same root one is a level of the tree of the other. -/
theorem mem_levels_or (hne : l ≠ []) (hne' : l' ≠ []) (hfree : CollisionFree node (treePairs node l ++ treePairs node l'))
    (htwins : (levels node l).any twins = false) (htwins' : (levels node l').any twins = false)
    (hroot : root node null l = root node null l') : l ∈ levels node l' ∨ l' ∈ levels node l := by
  rw [any_eq_false] at htwins'
  induction l using induction_up node with
  | hshort l h =>
    obtain ⟨a, rest, rfl⟩ := exists_cons_of_ne_nil hne
    obtain rfl : rest = [] := eq_nil_of_length_eq_zero (by rw [length_cons] at h; omega)
    left
    have hmem : [root node null l'] ∈ levels node l' := root_mem_levels hne'
    rw [← hroot, root_of_le h] at hmem
    exact hmem
  | hup l h ih =>
    rw [levels_of_lt h, any_cons, Bool.or_eq_false_iff] at htwins
    rw [treePairs_of_lt h, append_assoc] at hfree
    have hne_up : up node l ≠ [] := by
      rw [ne_eq, ← length_eq_zero_iff, length_up]
      omega
    rw [levels_of_lt h]
    rcases ih hne_up (hfree.mono (subset_append_right _ _)) htwins.2 (by rw [← root_of_lt h, hroot]) with hmem | hmem
    · rcases mem_levels hmem with heq | ⟨level, hlevel, hlt, heq⟩
      · exact .inr (mem_cons_of_mem _ (heq ▸ mem_levels_self node (up node l)))
      · -- The level below has the same pairs.
        have hpairs : neighbours l = neighbours level := by
          refine neighbours_of_up (hfree.mono ?_) heq
          refine append_subset.2 ⟨subset_append_left _ _, ?_⟩
          refine Subset.trans (neighbours_subset_treePairs hlevel hlt) ?_
          exact Subset.trans (subset_append_right _ _) (subset_append_right _ _)
        left
        rw [eq_of_neighbours hpairs htwins.1 (by simpa using htwins' level hlevel)]
        exact hlevel
    · exact .inr (mem_cons_of_mem _ hmem)

end MerkleLevels
