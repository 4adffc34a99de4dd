import LitecoinZ.Pow.Rounds
import LitecoinZ.Pow.Verifier

/-!
# Index trees

The lists of indices that can come out of a number of rounds (`IndexTree`).  A list of indices is joined on all levels
exactly if it is the tree of the last level (`indexTree_iff`), and a round takes a list of the rows of all trees of one
level to a list of the rows of all trees of the next (`solveRound_level`).
-/

namespace LitecoinZ

open BitField Blocks Pairs StateExcept List

namespace Equihash

variable {eh : Equihash} {H : eh.HashFn}

/-- The lists of indices of level `r`: two of the level below that may be merged. -/
inductive IndexTree {eh : Equihash} (generateHash : eh.HashFn) : Nat → List EhIndex → Prop where
  | leaf {i : EhIndex} : i < 2 ^ (eh.collisionBitLength + 1) → IndexTree generateHash 0 [i]
  | node {r : Nat} {a b : List EhIndex} : IndexTree generateHash r a → IndexTree generateHash r b →
      eh.Joins generateHash r a b → IndexTree generateHash (r + 1) (a ++ b)

namespace IndexTree

variable {r : Nat} {l : List EhIndex}

theorem length_eq (h : IndexTree H r l) : l.length = 2 ^ r := by
  induction h with
  | leaf _ => rfl
  | node _ _ _ iha ihb => rw [length_append, iha, ihb, pow_succ, Nat.mul_two]

theorem lt (h : IndexTree H r l) :
    ∀ i ∈ l, i < 2 ^ (eh.collisionBitLength + 1) := by
  induction h with
  | leaf hi =>
    intro i hmem
    rwa [mem_singleton.1 hmem]
  | node _ _ _ iha ihb =>
    intro i hmem
    rcases mem_append.1 hmem with hmem | hmem
    · exact iha i hmem
    · exact ihb i hmem

theorem lt_word (hs : eh.Suitable) (h : IndexTree H r l) :
    ∀ i ∈ l, i < 2 ^ 32 := by
  have hc : eh.collisionBitLength ≤ 24 := hs.le_24
  exact fun i hi => (h.lt i hi).trans_le (Nat.pow_le_pow_right (by decide) (by omega))

theorem split (h : IndexTree H (r + 1) l) :
    ∃ a b, l = a ++ b ∧ IndexTree H r a ∧ IndexTree H r b ∧ eh.Joins H r a b := by
  cases h with
  | node ha hb hj => exact ⟨_, _, rfl, ha, hb, hj⟩

theorem none_above {s : Nat} (hrs : r ≤ s) (hnone : ∀ l, ¬ IndexTree H r l) (l : List EhIndex) :
    ¬ IndexTree H s l := by
  induction s, hrs using Nat.le_induction generalizing l with
  | base => exact hnone l
  | succ s _ ih =>
    intro h
    obtain ⟨a, b, -, ha, -, -⟩ := h.split
    exact ih a ha

end IndexTree

variable {r : Nat} {a b : List EhIndex} {L : List (List EhIndex)} {X : List Row}

theorem indexTree_iff {l : List EhIndex} (hlen : l.length = 2 ^ r) : IndexTree H r l ↔
    (∀ i ∈ l, i < 2 ^ (eh.collisionBitLength + 1)) ∧ ∀ s < r, ∀ b < 2 ^ (r - 1 - s),
      eh.Joins H s (block (2 ^ s) l (2 * b)) (block (2 ^ s) l (2 * b + 1)) := by
  induction r generalizing l with
  | zero =>
    obtain ⟨i, rfl⟩ := length_eq_one_iff.1 hlen
    constructor
    · intro h
      exact ⟨h.lt, fun s hs => absurd hs (Nat.not_lt_zero s)⟩
    · rintro ⟨hlt, -⟩
      exact .leaf (hlt i mem_cons_self)
  | succ r ih =>
    obtain ⟨a, b, rfl, ha, hb⟩ : ∃ a b, l = a ++ b ∧ a.length = 2 ^ r ∧ b.length = 2 ^ r := by
      rw [pow_succ] at hlen
      exact ⟨l.take (2 ^ r), l.drop (2 ^ r), (take_append_drop _ l).symm, by rw [length_take]; omega,
        by rw [length_drop]; omega⟩
    -- The blocks of level `s` of the two halves, `2 ^ (r - s)` in each.
    have hcount : ∀ {s}, s ≤ r → 2 ^ (r - s) * 2 ^ s = 2 ^ r := by
      intro s hs
      rw [← pow_add, Nat.sub_add_cancel hs]
    have hleft : ∀ {s n}, s ≤ r → n < 2 ^ (r - s) → block (2 ^ s) (a ++ b) n = block (2 ^ s) a n := by
      intro s n hs hn
      refine block_append_left ?_ b
      rw [ha, ← hcount hs]
      exact Nat.mul_le_mul_right _ hn
    have hright : ∀ {s} (n), s ≤ r → block (2 ^ s) (a ++ b) (2 ^ (r - s) + n) = block (2 ^ s) b n := by
      intro s n hs
      exact block_append_right (by rw [ha, hcount hs]) b n
    have hhalf : ∀ {s}, s < r → 2 ^ (r + 1 - 1 - s) = 2 ^ (r - 1 - s) + 2 ^ (r - 1 - s) ∧
        2 ^ (r - s) = 2 * 2 ^ (r - 1 - s) := by
      intro s hs
      have : r - s = r - 1 - s + 1 := by omega
      rw [Nat.add_sub_cancel, this, pow_succ]
      omega
    have htop : block (2 ^ r) (a ++ b) (2 * 0) = a ∧ block (2 ^ r) (a ++ b) (2 * 0 + 1) = b := by
      have h1 := hleft (s := r) (n := 0) le_rfl (by simp)
      have h2 := hright (s := r) 0 le_rfl
      rw [Nat.sub_self, pow_zero, Nat.add_zero] at h2
      refine ⟨?_, ?_⟩
      · rw [Nat.mul_zero, h1, block, Nat.zero_mul, drop_zero, ← ha, take_length]
      · rw [Nat.mul_zero, Nat.zero_add, h2, block, Nat.zero_mul, drop_zero, ← hb, take_length]
    constructor
    · intro h
      refine ⟨h.lt, ?_⟩
      obtain ⟨a', b', heq, hta, htb, hj⟩ := h.split
      obtain ⟨rfl, rfl⟩ := append_inj heq (by rw [ha, hta.length_eq])
      intro s hs n hn
      rcases Nat.lt_succ_iff_lt_or_eq.1 hs with hlt | rfl
      · obtain ⟨h1, h2⟩ := hhalf hlt
        by_cases hn' : n < 2 ^ (r - 1 - s)
        · rw [hleft hlt.le (by omega), hleft hlt.le (by omega)]
          exact ((ih ha).1 hta).2 s hlt n hn'
        · obtain ⟨m, rfl⟩ := Nat.exists_eq_add_of_le (Nat.not_lt.1 hn')
          have h3 : 2 * (2 ^ (r - 1 - s) + m) = 2 ^ (r - s) + 2 * m := by omega
          rw [h3, Nat.add_assoc, hright _ hlt.le, hright _ hlt.le]
          exact ((ih hb).1 htb).2 s hlt m (by omega)
      · obtain rfl : n = 0 := by
          rw [Nat.add_sub_cancel, Nat.sub_self, pow_zero] at hn
          omega
        rw [htop.1, htop.2]
        exact hj
    · rintro ⟨hlt, hjoins⟩
      refine .node ((ih ha).2 ⟨fun i hi => hlt i (mem_append_left _ hi), fun s hs n hn => ?_⟩)
        ((ih hb).2 ⟨fun i hi => hlt i (mem_append_right _ hi), fun s hs n hn => ?_⟩) ?_
      · obtain ⟨h1, h2⟩ := hhalf hs
        have := hjoins s (by omega) n (by omega)
        rwa [hleft hs.le (by omega), hleft hs.le (by omega)] at this
      · obtain ⟨h1, h2⟩ := hhalf hs
        have := hjoins s (by omega) (2 ^ (r - 1 - s) + n) (by omega)
        have h3 : 2 * (2 ^ (r - 1 - s) + n) = 2 ^ (r - s) + 2 * n := by omega
        rwa [h3, Nat.add_assoc, hright _ hs.le, hright _ hs.le] at this
      · have := hjoins r (Nat.lt_succ_self r) 0 (Nat.two_pow_pos _)
        rwa [htop.1, htop.2] at this

/-- The indices of a pair in the order in which the merged row holds them. -/
def joined (generateHash : eh.HashFn) (r : Nat) (p : List EhIndex × List EhIndex) : List EhIndex :=
  if (eh.rowOf generateHash r p.1).indicesBefore (eh.rowOf generateHash r p.2)
    ((eh.K + 1 - r) * eh.collisionByteLength) (4 * 2 ^ r) then p.1 ++ p.2 else p.2 ++ p.1

def distinctPair (generateHash : eh.HashFn) (r : Nat) (p : List EhIndex × List EhIndex) : Bool :=
  (eh.rowOf generateHash r p.1).distinctIndices (eh.rowOf generateHash r p.2)
    ((eh.K + 1 - r) * eh.collisionByteLength) (4 * 2 ^ r)

theorem distinctPair_iff (hs : eh.Suitable) (ha : IndexTree H r a) (hb : IndexTree H r b) :
    distinctPair H r (a, b) = true ↔ List.Disjoint a b := by
  rw [distinctPair, ← ha.length_eq]
  exact distinctIndices_rowOf H r (ha.length_eq.trans hb.length_eq.symm) (ha.lt_word hs) (hb.lt_word hs)

theorem joined_of_joins (hs : eh.Suitable) (ha : IndexTree H r a) (hb : IndexTree H r b)
    (hj : eh.Joins H r a b) :
    joined H r (a, b) = a ++ b ∧ joined H r (b, a) = a ++ b := by
  have hbef := indicesBefore_of_disjoint H ha.length_eq hb.length_eq (ha.lt_word hs) (hb.lt_word hs)
    hj.disjoint
  have hbef' := indicesBefore_of_disjoint H hb.length_eq ha.length_eq (hb.lt_word hs) (ha.lt_word hs)
    fun i h1 h2 => hj.disjoint h2 h1
  refine ⟨if_pos (hbef.2 hj.ordered), if_neg ?_⟩
  rw [hbef']
  obtain ⟨i, t, rfl⟩ := exists_cons ha.length_eq
  obtain ⟨i', t', rfl⟩ := exists_cons hb.length_eq
  intro hord
  exact lt_asymm (hj.ordered i rfl i' rfl) (hord i' rfl i rfl)

theorem joins_or (hs : eh.Suitable) (ha : IndexTree H r a) (hb : IndexTree H r b) :
    (field (eh.xorHashes H a) (eh.collisionBitLength * (eh.K - r)) eh.collisionBitLength =
        field (eh.xorHashes H b) (eh.collisionBitLength * (eh.K - r)) eh.collisionBitLength ∧
      distinctPair H r (a, b) = true) ↔
    eh.Joins H r a b ∨ eh.Joins H r b a := by
  rw [distinctPair_iff hs ha hb]
  constructor
  · rintro ⟨hcoll, hdisj⟩
    obtain ⟨i, t, rfl⟩ := exists_cons ha.length_eq
    obtain ⟨i', t', rfl⟩ := exists_cons hb.length_eq
    have hne : i ≠ i' := by
      rintro rfl
      exact hdisj mem_cons_self mem_cons_self
    rcases lt_or_gt_of_ne hne with hlt | hlt
    · exact .inl ⟨hcoll, hdisj, by simpa using hlt⟩
    · exact .inr ⟨hcoll.symm, fun x h1 h2 => hdisj h2 h1, by simpa using hlt⟩
  · rintro (hj | hj)
    · exact ⟨hj.collide, hj.disjoint⟩
    · exact ⟨hj.collide.symm, fun x h1 h2 => hj.disjoint h2 h1⟩

/-- From a list of all trees of a level, each once, the pairs that may be merged give the trees of the next level, each
once. -/
theorem joined_pairs (hs : eh.Suitable) (hnodup : L.Nodup) (hmem : ∀ l, l ∈ L ↔ IndexTree H r l)
    {q : List EhIndex × List EhIndex → Bool} {Z : List EhIndex → Prop}
    (hq : ∀ a b, IndexTree H r a → IndexTree H r b → (q (a, b) = true ↔
      eh.Joins H r a b ∧ Z (a ++ b) ∨ eh.Joins H r b a ∧ Z (b ++ a))) :
    (((pairs L).filter q).map (joined H r)).Nodup ∧
      ∀ l, l ∈ ((pairs L).filter q).map (joined H r) ↔ IndexTree H (r + 1) l ∧ Z l := by
  have htrees : ∀ a b, (a, b) ∈ pairs L → IndexTree H r a ∧ IndexTree H r b := by
    intro a b h
    obtain ⟨ha, hb⟩ := mem_of_mem_pairs h
    exact ⟨(hmem a).1 ha, (hmem b).1 hb⟩
  constructor
  · refine Nodup.map_on ?_ ((nodup_pairs hnodup).filter q)
    rintro ⟨a, b⟩ hp ⟨a', b'⟩ hp' heq
    obtain ⟨hp, hqp⟩ := mem_filter.1 hp
    obtain ⟨hp', hqp'⟩ := mem_filter.1 hp'
    obtain ⟨ha, hb⟩ := htrees a b hp
    obtain ⟨ha', hb'⟩ := htrees a' b' hp'
    rcases (hq a b ha hb).1 hqp with ⟨hj, -⟩ | ⟨hj, -⟩ <;> rcases (hq a' b' ha' hb').1 hqp' with ⟨hj', -⟩ | ⟨hj', -⟩
    · rw [(joined_of_joins hs ha hb hj).1, (joined_of_joins hs ha' hb' hj').1] at heq
      obtain ⟨rfl, rfl⟩ := append_inj heq (ha.length_eq.trans ha'.length_eq.symm)
      rfl
    · rw [(joined_of_joins hs ha hb hj).1, (joined_of_joins hs hb' ha' hj').2] at heq
      obtain ⟨rfl, rfl⟩ := append_inj heq (ha.length_eq.trans hb'.length_eq.symm)
      exact absurd hp' (not_mem_pairs_swap hnodup hp)
    · rw [(joined_of_joins hs hb ha hj).2, (joined_of_joins hs ha' hb' hj').1] at heq
      obtain ⟨rfl, rfl⟩ := append_inj heq (hb.length_eq.trans ha'.length_eq.symm)
      exact absurd hp' (not_mem_pairs_swap hnodup hp)
    · rw [(joined_of_joins hs hb ha hj).2, (joined_of_joins hs hb' ha' hj').2] at heq
      obtain ⟨rfl, rfl⟩ := append_inj heq (hb.length_eq.trans hb'.length_eq.symm)
      rfl
  · intro l
    rw [mem_map]
    constructor
    · rintro ⟨⟨a, b⟩, hp, rfl⟩
      obtain ⟨hp, hqp⟩ := mem_filter.1 hp
      obtain ⟨ha, hb⟩ := htrees a b hp
      rcases (hq a b ha hb).1 hqp with ⟨hj, hZ⟩ | ⟨hj, hZ⟩
      · rw [(joined_of_joins hs ha hb hj).1]
        exact ⟨.node ha hb hj, hZ⟩
      · rw [(joined_of_joins hs hb ha hj).2]
        exact ⟨.node hb ha hj, hZ⟩
    · rintro ⟨h, hZ⟩
      obtain ⟨a, b, rfl, ha, hb, hj⟩ := h.split
      have hne : a ≠ b := by
        rintro rfl
        obtain ⟨i, t, rfl⟩ := exists_cons ha.length_eq
        exact hj.disjoint mem_cons_self mem_cons_self
      rcases mem_pairs_or ((hmem a).2 ha) ((hmem b).2 hb) hne with hp | hp
      · exact ⟨(a, b), mem_filter.2 ⟨hp, (hq a b ha hb).2 (.inl ⟨hj, hZ⟩)⟩, (joined_of_joins hs ha hb hj).1⟩
      · exact ⟨(b, a), mem_filter.2 ⟨hp, (hq b a hb ha).2 (.inr ⟨hj, hZ⟩)⟩, (joined_of_joins hs ha hb hj).2⟩

/-! ### Lists of rows -/

/-- The rows of all trees of a level, each once. -/
structure Level (generateHash : eh.HashFn) (r : Nat) (X : List Row) (L : List (List EhIndex)) : Prop where
  rows : X.Perm (L.map (eh.rowOf generateHash r))
  nodup : L.Nodup
  mem : ∀ l, l ∈ L ↔ IndexTree generateHash r l

private theorem perm_map {α β : Type} (f : α → β) {X : List β} {L : List α} (h : X.Perm (L.map f)) :
    ∃ L' : List α, X = L'.map f ∧ L'.Perm L := by
  generalize hY : L.map f = Y at h
  induction h generalizing L with
  | nil => exact ⟨[], rfl, by rw [map_eq_nil_iff.1 hY]⟩
  | cons x _ ih =>
    obtain ⟨a, L1, rfl, rfl, hL1⟩ := map_eq_cons_iff.1 hY
    obtain ⟨L', rfl, hperm⟩ := ih hL1
    exact ⟨a :: L', rfl, hperm.cons a⟩
  | swap x y _ =>
    obtain ⟨a, L1, rfl, rfl, hL1⟩ := map_eq_cons_iff.1 hY
    obtain ⟨b, L2, rfl, rfl, rfl⟩ := map_eq_cons_iff.1 hL1
    exact ⟨b :: a :: L2, rfl, List.Perm.swap a b L2⟩
  | trans _ _ ih1 ih2 =>
    obtain ⟨L1, rfl, hL1⟩ := ih2 hY
    obtain ⟨L2, rfl, hL2⟩ := ih1 rfl
    exact ⟨L2, rfl, hL2.trans hL1⟩

theorem Level.sort (h : Level H r X L) (stdSort : StdSort) (len : Nat) :
    ∃ L' : List (List EhIndex), stdSort.sort len X = L'.map (eh.rowOf H r) ∧ L'.Nodup ∧
      ∀ l, l ∈ L' ↔ IndexTree H r l := by
  obtain ⟨L', hmap, hperm⟩ := perm_map _ ((stdSort.perm len X).trans h.rows)
  exact ⟨L', hmap, hperm.nodup_iff.2 h.nodup, fun l => by rw [hperm.mem_iff, h.mem]⟩

theorem Level.length_lt (h : Level H r X L)
    (hsmall : ∀ L : List (List EhIndex), L.Nodup → (∀ l ∈ L, IndexTree H r l) → L.length < 2 ^ 31) :
    X.length < 2 ^ 31 := by
  rw [h.rows.length_eq, length_map]
  exact hsmall L h.nodup fun l hl => (h.mem l).1 hl

theorem Level.length_pos (h : Level H r X L) {l : List EhIndex} (hl : IndexTree H r l) :
    X.length > 0 := by
  rw [h.rows.length_eq, length_map]
  exact length_pos_of_mem ((h.mem l).2 hl)

theorem Suitable.fullWidth_le (h : eh.Suitable) (hr : r ≤ eh.K - 1) :
    (eh.K + 1 - r) * eh.collisionByteLength + 4 * 2 ^ r ≤ eh.fullWidth := by
  obtain ⟨d, hd⟩ := Nat.exists_eq_add_of_le hr
  have hK := h.three_le_K
  have hle := indices_le h.collisionByteLength_le d r
  rw [fullWidth, show eh.K + 1 - r = d + 2 by omega, hd, Nat.add_mul]
  omega

theorem collisions_map (r len : Nat) (L : List (List EhIndex)) : collisions len (L.map (eh.rowOf H r)) =
    ((pairs L).filter fun p => (eh.rowOf H r p.1).hasCollision (eh.rowOf H r p.2) len).map
      (Prod.map (eh.rowOf H r) (eh.rowOf H r)) := by
  rw [collisions, pairs_map, filter_map]
  rfl

theorem mergePairs_rowOf (hs : eh.Suitable) (hr : r + 1 < eh.K) (ps : List (List EhIndex × List EhIndex))
    (hps : ∀ p ∈ ps, IndexTree H r p.1 ∧ IndexTree H r p.2) :
    eh.mergePairs ((eh.K + 1 - r) * eh.collisionByteLength) (4 * 2 ^ r)
        (ps.map (Prod.map (eh.rowOf H r) (eh.rowOf H r))) =
      .ok (((ps.filter (distinctPair H r)).map (joined H r)).map (eh.rowOf H (r + 1))) := by
  induction ps with
  | nil => rfl
  | cons p ps ih =>
    obtain ⟨a, b⟩ := p
    obtain ⟨ha, hb⟩ : IndexTree H r a ∧ IndexTree H r b := hps (a, b) mem_cons_self
    have hrest := ih (forall_mem_cons.1 hps).2
    have hnext : (eh.K - r) * eh.collisionByteLength + 4 * 2 ^ (r + 1) ≤ eh.fullWidth := by
      simpa using hs.fullWidth_le (r := r + 1) (by omega)
    have hmerge := merge_rowOf H (show r ≤ eh.K by omega) ha.length_eq hb.length_eq
      (hs.fullWidth_le (by omega)) hnext
    rw [map_cons, Prod.map_apply, mergePairs, filter_cons]
    change (if distinctPair H r (a, b) = true then _ else _) = _
    split
    · rw [hmerge, hrest]
      rfl
    · exact hrest

theorem solveRound_level (hs : eh.Suitable) {env : SolverEnv} (hcan : ∀ pos, env.cancelled pos = false)
    (hr : r + 1 < eh.K) (hX : Level H r X L) (hsize : X.length < 2 ^ 31) :
    ∃ X' L', eh.solveRound env X ((eh.K + 1 - r) * eh.collisionByteLength) (4 * 2 ^ r) = .ok X' ∧
      Level H (r + 1) X' L' := by
  obtain ⟨L1, hsort, hnodup, hmem⟩ := hX.sort env.stdSort eh.collisionByteLength
  have hmerge := mergePairs_rowOf hs hr ((pairs L1).filter fun p =>
    (eh.rowOf H r p.1).hasCollision (eh.rowOf H r p.2) eh.collisionByteLength) fun p hp => by
      obtain ⟨h1, h2⟩ := mem_of_mem_pairs (mem_filter.1 hp).1
      exact ⟨(hmem _).1 h1, (hmem _).1 h2⟩
  rw [← collisions_map, ← hsort, filter_filter] at hmerge
  obtain ⟨X', hX', hperm⟩ := eh.solveRound_of hcan hsize hmerge
  obtain ⟨hnodup', hmem'⟩ := joined_pairs hs hnodup hmem (Z := fun _ => True)
    (q := fun p => distinctPair H r p && (eh.rowOf H r p.1).hasCollision
      (eh.rowOf H r p.2) eh.collisionByteLength) fun a b ha hb => by
      rw [Bool.and_eq_true, and_comm, hasCollision_rowOf H (by omega), joins_or hs ha hb, and_true, and_true]
  exact ⟨X', _, hX', hperm, hnodup', fun l => by rw [hmem', and_true]⟩

end Equihash

end LitecoinZ
