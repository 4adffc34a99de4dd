import LitecoinZ.Consensus.Validation
import LitecoinZ.Lib.Simulation

/-!
# The set of the most recent elements

`mruset` of `mruset.h`: a set with a ring of iterators to its elements in the order in which they came.  The ring holds
the last elements that were inserted as new, so what is erased through it is the oldest of them (`insertAll_recent`).
-/

namespace LitecoinZ

open List StateExcept

/-- A node of the set is an element with the number of the node, so the iterators to an element that is inserted once more
are not those from before. -/
structure Mruset (T : Type) where
  set : List (T × Nat)
  order : List (Option (T × Nat))
  firstUsed : Nat
  firstUnused : Nat
  nMaxSize : Nat
  nodes : Nat

namespace Mruset

variable {T : Type}

def clear (s : Mruset T) : Mruset T :=
  { s with set := [], order := List.replicate s.nMaxSize none, firstUsed := 0, firstUnused := 0 }

/-- `if (++i == nMaxSize) i = 0`. -/
def advance (s : Mruset T) (i : Nat) : Nat := if i + 1 = s.nMaxSize then 0 else i + 1

/-- The set is the end of the list of nodes made, and the ring has it from `firstUsed` on. -/
structure Holds (made : List (T × Nat)) (s : Mruset T) : Prop where
  pos : 0 < s.nMaxSize
  set : s.set = made.drop (made.length - s.nMaxSize)
  nodup : (s.set.map Prod.fst).Nodup
  length : s.order.length = s.nMaxSize
  firstUsed : s.firstUsed = (made.length - s.nMaxSize) % s.nMaxSize
  firstUnused : s.firstUnused = made.length % s.nMaxSize
  order : ∀ i it, made[i]? = some it → made.length ≤ i + s.nMaxSize → s.order[i % s.nMaxSize]? = some (some it)

variable {s : Mruset T} {made : List (T × Nat)}

theorem Holds.clear (hpos : 0 < s.nMaxSize) : Holds [] s.clear :=
  ⟨hpos, by simp [Mruset.clear], nodup_nil, by simp [Mruset.clear], by simp [Mruset.clear], rfl, fun i it h => by simp at h⟩

private theorem advance_mod (hpos : 0 < s.nMaxSize) (i : Nat) : s.advance (i % s.nMaxSize) = (i + 1) % s.nMaxSize := by
  have hlt := Nat.mod_lt i hpos
  rw [advance, ← Nat.mod_add_mod i]
  split
  · next heq => rw [heq, Nat.mod_self]
  · rw [Nat.mod_eq_of_lt (a := i % s.nMaxSize + 1) (by omega)]

private theorem mod_ne {i j n : Nat} (hlt : i < j) (hj : j < i + n) : j % n ≠ i % n := by
  intro heq
  have hdvd := Nat.dvd_of_mod_eq_zero (Nat.sub_mod_eq_zero_of_mod_eq heq)
  have := Nat.le_of_dvd (by omega) hdvd
  omega

variable [DecidableEq T]

/-- The oldest element is erased when there is one too many. -/
def makeRoom (s : Mruset T) : Except Fault (Mruset T) :=
  if s.set.length = s.nMaxSize + 1 then
    match s.order[s.firstUsed]? with
    | some (some it) =>
      if it ∈ s.set then
        .ok { s with
          set := s.set.erase it
          order := s.order.set s.firstUsed none
          firstUsed := s.advance s.firstUsed }
      else .error (.exception "an element that was erased")
    | _ => .error (.exception "no element")
  else .ok s

def insert (x : T) (s : Mruset T) : Except Fault (Bool × Mruset T) :=
  if x ∈ s.set.map Prod.fst then .ok (false, s)
  else do
    let it := (x, s.nodes)
    let s ← makeRoom { s with set := s.set ++ [it], nodes := s.nodes + 1 }
    if s.firstUnused < s.order.length then
      .ok (true, { s with order := s.order.set s.firstUnused (some it), firstUnused := s.advance s.firstUnused })
    else .error (.exception "index past the end")

/-- A sequence of calls, with the elements that were inserted as new. -/
def insertAll : List T → Mruset T → Except Fault (List T × Mruset T)
  | [], s => .ok ([], s)
  | x :: xs, s => do
    let (isNew, s) ← s.insert x
    let (news, s) ← insertAll xs s
    pure (if isNew then x :: news else news, s)

private theorem Holds.makeRoom (h : Holds made s) (it : T × Nat) (nodes : Nat) : ∃ order : List (Option (T × Nat)),
    makeRoom { s with set := s.set ++ [it], nodes } = .ok { s with
      set := (made ++ [it]).drop (made.length + 1 - s.nMaxSize)
      order
      firstUsed := (made.length + 1 - s.nMaxSize) % s.nMaxSize
      nodes } ∧
    order.length = s.nMaxSize ∧
    ∀ i it', made[i]? = some it' → made.length < i + s.nMaxSize → order[i % s.nMaxSize]? = some (some it') := by
  have hpos := h.pos
  have hlen : (s.set ++ [it]).length = made.length - (made.length - s.nMaxSize) + 1 := by simp [h.set]
  unfold Mruset.makeRoom
  dsimp only
  by_cases hfull : s.nMaxSize ≤ made.length
  · have hlt : made.length - s.nMaxSize < made.length := by omega
    have hfirst := h.order _ _ (getElem?_eq_getElem hlt) (by omega)
    have hset : s.set = made[made.length - s.nMaxSize] :: made.drop (made.length + 1 - s.nMaxSize) := by
      rw [h.set, drop_eq_getElem_cons hlt, Nat.sub_add_comm hfull]
    rw [← h.firstUsed] at hfirst
    refine ⟨s.order.set s.firstUsed none, ?_, by rw [length_set, h.length], fun i it' hi hi' => ?_⟩
    · rw [if_pos (by omega), hfirst, hset]
      dsimp only
      rw [if_pos (by simp), cons_append, erase_cons_head, drop_append_of_le_length (by omega), h.firstUsed,
        Nat.sub_add_comm hfull, ← advance_mod hpos]
      rfl
    · have hlt' := (List.getElem?_eq_some_iff.1 hi).1
      rw [getElem?_set_ne, h.order i it' hi (by omega)]
      rw [h.firstUsed]
      exact (mod_ne (by omega) (by omega)).symm
  · refine ⟨s.order, ?_, h.length, fun i it' hi _ => h.order i it' hi (by omega)⟩
    have hzero : made.length - s.nMaxSize = 0 := by omega
    have hzero' : made.length + 1 - s.nMaxSize = 0 := by omega
    rw [if_neg (by omega), hzero', drop_zero, h.set, h.firstUsed, hzero, drop_zero]

theorem Holds.insert (h : Holds made s) {x : T} (hx : x ∉ s.set.map Prod.fst) :
    ∃ s', s.insert x = .ok (true, s') ∧ s'.nMaxSize = s.nMaxSize ∧ Holds (made ++ [(x, s.nodes)]) s' := by
  obtain ⟨order, hroom, hlen, horder⟩ := h.makeRoom (x, s.nodes) (s.nodes + 1)
  have hlt : s.firstUnused < s.nMaxSize := h.firstUnused ▸ Nat.mod_lt _ h.pos
  rw [Mruset.insert, if_neg hx]
  dsimp only
  rw [hroom]
  refine ⟨_, if_pos (hlen ▸ hlt), rfl, h.pos, ?_, ?_, ?_, ?_, ?_, fun i it hi hi' => ?_⟩
  · rw [length_append, length_singleton]
  · have hnodup : ((s.set ++ [(x, s.nodes)]).map Prod.fst).Nodup := by
      rw [map_append]
      refine nodup_append.2 ⟨h.nodup, by simp, ?_⟩
      rintro a ha _ hb rfl
      obtain rfl : a = x := mem_singleton.1 hb
      exact hx ha
    refine hnodup.sublist (Sublist.map _ ?_)
    rw [h.set, ← drop_append_of_le_length (Nat.sub_le _ _)]
    exact drop_sublist_drop_left _ (by omega)
  · rw [length_set, hlen]
  · rw [length_append, length_singleton]
  · rw [length_append, length_singleton, h.firstUnused]
    exact advance_mod h.pos _
  · rw [length_append, length_singleton] at hi'
    dsimp only at hi' ⊢
    rw [h.firstUnused] at hlt ⊢
    rcases Nat.lt_trichotomy i made.length with hi'' | rfl | hi''
    · rw [getElem?_append_left hi''] at hi
      rw [getElem?_set_ne (mod_ne hi'' (by omega)), horder i it hi (by omega)]
    · rw [getElem?_concat_length] at hi
      rw [getElem?_set_self (hlen ▸ hlt), ← hi]
    · rw [getElem?_eq_none (by simp; omega)] at hi
      cases hi

theorem Holds.insertAll (h : Holds made s) (xs : List T) :
    ∃ news s' made', insertAll xs s = .ok (news, s') ∧ s'.nMaxSize = s.nMaxSize ∧
      made'.map Prod.fst = made.map Prod.fst ++ news ∧ Holds made' s' := by
  induction xs generalizing s made with
  | nil => exact ⟨[], s, made, rfl, rfl, (append_nil _).symm, h⟩
  | cons x xs ih =>
    by_cases hx : x ∈ s.set.map Prod.fst
    · obtain ⟨news, s', made', hrun, hmade⟩ := ih h
      exact ⟨news, s', made', except_bind_ok.2 ⟨(false, s), if_pos hx, except_bind_ok.2 ⟨_, hrun, rfl⟩⟩, hmade⟩
    · obtain ⟨s1, hins, hmax, h1⟩ := h.insert hx
      obtain ⟨news, s', made', hrun, hmax', hmade, h'⟩ := ih h1
      refine ⟨x :: news, s', made', except_bind_ok.2 ⟨_, hins, except_bind_ok.2 ⟨_, hrun, rfl⟩⟩, hmax'.trans hmax, ?_, h'⟩
      rw [hmade, map_append, append_assoc]
      rfl

end Mruset

end LitecoinZ
