import LitecoinZ.Zcash.IncrementalMerkleTree

/-!
# The tree holds the leaves appended to it

`Represents t xs` says that the tree `t` holds the leaves `xs`: its parents are the frontier of the complete
subtrees before the lowest pair.  An append keeps it, the tree is complete for a depth exactly when the leaves fill
that depth, and `root` is the root of the perfect tree over the leaves followed by null hashes, where the missing
right subtrees may be given by the caller (`rootWith_eq`).
-/

namespace LitecoinZ

open List

open PerfectTree (subRoot perfectRoot leaves Blocks Canonical carry value gaps gapRoots climb)
open MerkleHash (null combine)

variable {Depth : Nat} {Hash : Type} [MerkleHash Hash]

namespace IncrementalMerkleTree

/-- The tree holds the leaves `xs`. -/
structure Represents (t : IncrementalMerkleTree Depth Hash) (xs : List Hash) : Prop where
  canonical : Canonical t.parents
  shape : (xs = [] ∧ t.left = none ∧ t.right = none ∧ t.parents = []) ∨
    ∃ o, Blocks combine (leaves null xs) 1 t.parents o ∧ t.left = some (leaves null xs o) ∧
      ((t.right = none ∧ xs.length = o + 1) ∨
        (t.right = some (leaves null xs (o + 1)) ∧ xs.length = o + 2))

theorem represents_empty : Represents ({} : IncrementalMerkleTree Depth Hash) [] :=
  ⟨by simp [Canonical], .inl ⟨rfl, rfl, rfl, rfl⟩⟩

variable {t : IncrementalMerkleTree Depth Hash} {xs : List Hash} {depth : Nat}

private theorem blocks_snoc {x : Hash} {ps : List (Option Hash)} {k o : Nat}
    (hb : Blocks combine (leaves null xs) k ps o) (ho : o ≤ xs.length) :
    Blocks combine (leaves null (xs ++ [x])) k ps o :=
  PerfectTree.blocks_congr combine hb
    (fun _ hi => (PerfectTree.leaves_append_left (Nat.lt_of_lt_of_le hi ho)).symm)

omit [MerkleHash Hash] in
private theorem sizeParents_eq (ps : List (Option Hash)) (i : Nat) (h : ps.length + i ≤ 30) :
    sizeParents ps i = 2 ^ (i + 1) * value ps := by
  induction ps generalizing i with
  | nil => simp [sizeParents, value]
  | cons p ps ih =>
    simp only [length_cons] at h
    rw [sizeParents, ih (i + 1) (by omega)]
    cases p with
    | none =>
      simp only [value, Option.isSome_none, Bool.false_eq_true, ↓reduceIte]
      ring
    | some p =>
      simp only [value, Option.isSome_some, ↓reduceIte, shiftOne, show i + 1 < 31 by omega]
      ring

/-- The fillers that `root` and `path` really use for the subtrees of depths `ms`: those of the queue, then empty
subtrees. -/
def padFillers : List Nat → List Hash → List Hash
  | [], _ => []
  | _ :: ms, h :: queue => h :: padFillers ms queue
  | m :: ms, [] => emptyRoot Hash m :: padFillers ms []

/-- The depths of the subtrees to the right of the last leaf. -/
def openDepths (t : IncrementalMerkleTree Depth Hash) (depth : Nat) : List Nat :=
  if t.right.isSome then gaps 1 t.parents (depth - 1) else 0 :: gaps 1 t.parents (depth - 1)

theorem padFillers_cons (m : Nat) (ms : List Nat) (queue : List Hash) :
    padFillers (m :: ms) queue = (pathFillerNext queue m).1 :: padFillers ms (pathFillerNext queue m).2 := by
  cases queue <;> rfl

private theorem rootFill_eq (n d : Nat) (r : Hash) (queue : List Hash) :
    rootFill n d r queue = climb combine [] n r (padFillers (gaps d ([] : List (Option Hash)) n) queue) := by
  induction n generalizing d r queue with
  | zero => simp [rootFill, climb]
  | succ n ih => simp only [rootFill, gaps, padFillers_cons, climb, ih]

private theorem rootParents_eq (ps : List (Option Hash)) (n d : Nat) (r : Hash) (queue : List Hash)
    (hn : ps.length ≤ n) :
    rootFill (d + n - (rootParents ps d r queue).1) (rootParents ps d r queue).1 (rootParents ps d r queue).2.1
      (rootParents ps d r queue).2.2 = climb combine ps n r (padFillers (gaps d ps n) queue) := by
  induction ps generalizing n d r queue with
  | nil =>
    simp only [rootParents, Nat.add_sub_cancel_left]
    exact rootFill_eq n d r queue
  | cons p ps ih =>
    obtain ⟨n, rfl⟩ := Nat.exists_eq_add_of_le' (Nat.le_trans (by simp) hn : 1 ≤ n)
    simp only [length_cons, Nat.add_le_add_iff_right] at hn
    have hd : d + (n + 1) = (d + 1) + n := by omega
    cases p with
    | none =>
      simp only [rootParents, gaps, padFillers_cons, climb]
      rw [hd]
      exact ih n (d + 1) _ _ hn
    | some p =>
      simp only [rootParents, gaps, climb]
      rw [hd]
      exact ih n (d + 1) _ _ hn

theorem padFillers_nil {L : Nat → Hash} {e : Nat} (hL : ∀ i, e ≤ i → L i = null) (ms : List Nat) :
    padFillers ms [] = gapRoots combine L ms e := by
  induction ms generalizing e with
  | nil => rfl
  | cons m ms ih =>
    simp only [padFillers, gapRoots]
    have hm := PerfectTree.subRoot_nil combine (k := m) (fun i _ => hL (e + i) (by omega))
    rw [hm, ← ih (fun i hi => hL i (Nat.le_trans (Nat.le_add_right e _) hi))]
    rfl

section

variable (h : Represents t xs)
include h

theorem Represents.parents_length (hd : 1 ≤ depth) (hlen : xs.length ≤ 2 ^ depth) : t.parents.length + 1 ≤ depth := by
  obtain ⟨d, rfl⟩ := Nat.exists_eq_add_of_le' hd
  rcases h.shape with ⟨-, -, -, hp⟩ | ⟨o, hb, -, hr⟩
  · simp [hp]
  · have ho := PerfectTree.blocks_value combine hb
    have hv : value t.parents < 2 ^ d := by
      have : 2 ^ (d + 1) = 2 * 2 ^ d := by ring
      omega
    have := PerfectTree.canonical_length h.canonical d hv
    omega

theorem Represents.isComplete_iff (hd : 1 ≤ depth) : t.isComplete depth = true ↔ xs.length = 2 ^ depth := by
  obtain ⟨d, rfl⟩ := Nat.exists_eq_add_of_le' hd
  have hpow : 2 ^ (d + 1) = 2 * 2 ^ d := by ring
  have hpos : 0 < 2 ^ d := Nat.two_pow_pos d
  rcases h.shape with ⟨rfl, hl, -, -⟩ | ⟨o, hb, hl, hr⟩
  · simp only [isComplete, hl, Option.isSome_none, Bool.false_and, Bool.false_eq_true, length_nil, false_iff]
    omega
  · have ho := PerfectTree.blocks_value combine hb
    have hv := PerfectTree.value_eq_pow_iff h.canonical d
    rcases hr with ⟨hr, hlen⟩ | ⟨hr, hlen⟩
    · -- an odd number of leaves does not fill a tree
      simp only [isComplete, hl, hr, Option.isSome_some, Option.isSome_none, Bool.false_and, Bool.and_false,
        Bool.false_eq_true, false_iff]
      omega
    · simp only [isComplete, hl, hr, Option.isSome_some, Bool.true_and, Bool.and_eq_true, beq_iff_eq,
        Nat.add_right_cancel_iff, all_eq_true]
      rw [← hv]
      omega

theorem Represents.append_error (hD : 1 ≤ Depth) (hlen : xs.length = 2 ^ Depth) (x : Hash) : t.append x = .error .full := by
  simp [append, (h.isComplete_iff hD).2 hlen]

theorem Represents.append_ok (hD : 1 ≤ Depth) (hlen : xs.length < 2 ^ Depth) (x : Hash) :
    ∃ t', t.append x = .ok t' ∧ Represents t' (xs ++ [x]) := by
  have hc : t.isComplete Depth = false := by
    rw [← Bool.not_eq_true, h.isComplete_iff hD]
    omega
  have hps := h.parents_length hD (Nat.le_of_lt hlen)
  have hx : leaves null (xs ++ [x]) xs.length = x := PerfectTree.leaves_snoc null xs x
  rcases h.shape with ⟨rfl, hl, hr, hp⟩ | ⟨o, hb, hl, ⟨hr, hlen'⟩ | ⟨hr, hlen'⟩⟩
  · refine ⟨{ t with left := some x }, by simp [append, hc, hl], h.canonical, .inr ⟨0, ?_, ?_, .inl ⟨hr, rfl⟩⟩⟩
    · simp [hp, Blocks]
    · exact congrArg some hx.symm
  · refine ⟨{ t with right := some x }, by simp [append, hc, hl, hr], h.canonical,
      .inr ⟨o, blocks_snoc hb (by omega), ?_, .inr ⟨?_, by simp; omega⟩⟩⟩
    · rw [PerfectTree.leaves_append_left (by omega)]
      exact hl
    · rw [← hlen']
      exact congrArg some hx.symm
  · -- the full pair joins the frontier as one more subtree of depth one
    refine ⟨⟨some x, none, carry combine Depth (combine (leaves null xs o) (leaves null xs (o + 1))) t.parents⟩,
      by simp [append, hc, hl, hr], PerfectTree.canonical_carry combine h.canonical (by omega),
      .inr ⟨o + 2, ?_, ?_, .inl ⟨rfl, by simp; omega⟩⟩⟩
    · exact blocks_snoc (PerfectTree.blocks_carry combine hb (by omega)) (by omega)
    · rw [← hlen']
      exact congrArg some hx.symm

theorem Represents.appendAll_ok (hD : 1 ≤ Depth) (ys : List Hash) (hlen : xs.length + ys.length ≤ 2 ^ Depth) :
    ∃ t', t.appendAll ys = .ok t' ∧ Represents t' (xs ++ ys) := by
  induction ys generalizing t xs with
  | nil => exact ⟨t, rfl, by simpa using h⟩
  | cons y ys ih =>
    simp only [length_cons] at hlen
    obtain ⟨t1, h1, hr1⟩ := h.append_ok hD (by omega) y
    obtain ⟨t2, h2, hr2⟩ := ih hr1 (by simp; omega)
    refine ⟨t2, ?_, by simpa using hr2⟩
    simp only [appendAll, h1]
    exact h2

theorem Represents.last_eq (hne : xs ≠ []) : t.last = .ok (xs.getLast hne) := by
  have hlast : xs.getLast hne = leaves null xs (xs.length - 1) := by
    have hpos := length_pos_iff.2 hne
    rw [getLast_eq_getElem, leaves, getD_eq_getElem _ _ (by omega)]
  rcases h.shape with ⟨he, -⟩ | ⟨o, -, hl, ⟨hr, hlen⟩ | ⟨hr, hlen⟩⟩
  · exact absurd he hne
  · simp [last, hl, hr, hlast, hlen]
  · simp [last, hr, hlast, hlen]

theorem Represents.size_eq (hp : t.parents.length ≤ 30) : t.size = xs.length := by
  rcases h.shape with ⟨rfl, hl, hr, hp'⟩ | ⟨o, hb, hl, hr⟩
  · simp [size, hl, hr, hp', sizeParents]
  · have ho := PerfectTree.blocks_value combine hb
    have hs := sizeParents_eq t.parents 0 (by omega)
    rcases hr with ⟨hr, hlen⟩ | ⟨hr, hlen⟩ <;>
      simp only [size, hl, hr, hs, Option.isSome_some, Option.isSome_none, Bool.false_eq_true, ↓reduceIte] <;>
      omega

theorem Represents.wfcheck_ok (hp : t.parents.length < Depth) : t.wfcheck = .ok () := by
  have hcan : t.parents.getLast?.any Option.isNone = false := by
    cases hg : t.parents.getLast? with
    | none => rfl
    | some p =>
      have := h.canonical p (by simp [hg])
      cases p <;> simp_all
  rcases h.shape with ⟨-, hl, hr, hp'⟩ | ⟨o, -, hl, -⟩
  · simp [wfcheck, hl, hr, hp'] at hp ⊢
    omega
  · simp only [wfcheck, hcan, hl]
    simp
    omega

/-! ### The root -/

theorem rootWith_eq (hne : xs ≠ []) (hd : 1 ≤ depth) (hlen : xs.length ≤ 2 ^ depth) {L : Nat → Hash}
    (hL : ∀ i, i < xs.length → leaves null xs i = L i) {queue : List Hash}
    (hq : padFillers (t.openDepths depth) queue = gapRoots combine L (t.openDepths depth) xs.length) :
    t.rootWith depth queue = subRoot combine L depth 0 := by
  have hps := h.parents_length hd hlen
  obtain ⟨d, rfl⟩ := Nat.exists_eq_add_of_le' hd
  have hone : ∀ o, subRoot combine L 1 o = combine (L o) (L (o + 1)) := fun o => rfl
  rcases h.shape with ⟨he, -⟩ | ⟨o, hb, hl, hr⟩
  · exact absurd he hne
  · have hbL : Blocks combine L 1 t.parents o :=
      PerfectTree.blocks_congr combine hb (fun i hi => hL i (by omega))
    have hclimb := PerfectTree.climb_eq combine hbL (show t.parents.length ≤ d by omega)
    have hup := fun r queue => rootParents_eq t.parents d 1 r queue (by omega)
    rcases hr with ⟨hr, hlen'⟩ | ⟨hr, hlen'⟩
    · -- the right leaf is the first gap
      simp only [openDepths, hr, Option.isSome_none, Bool.false_eq_true, ↓reduceIte, padFillers_cons, gapRoots,
        cons.injEq, Nat.add_sub_cancel] at hq
      have h0 : (pathFillerNext queue 0).1 = L (o + 1) := by rw [hq.1, hlen']; rfl
      simp only [rootWith, hl, hr, leafOrNext, h0, hL o (by omega)]
      rw [← hone, Nat.add_comm d 1, hup, hq.2, hlen', ← hclimb]
      rfl
    · simp only [openDepths, hr, Option.isSome_some, ↓reduceIte, Nat.add_sub_cancel] at hq
      simp only [rootWith, hl, hr, leafOrNext, hL o (by omega), hL (o + 1) (by omega)]
      rw [← hone, Nat.add_comm d 1, hup, hq, hlen', ← hclimb]
      rfl

theorem Represents.rootWith_nil (hd : 1 ≤ depth) (hlen : xs.length ≤ 2 ^ depth) :
    t.rootWith depth [] = subRoot combine (leaves null xs) depth 0 := by
  by_cases hne : xs = []
  · -- the empty tree: a pair of null leaves below empty subtrees
    subst hne
    obtain ⟨d, rfl⟩ := Nat.exists_eq_add_of_le' hd
    rcases h.shape with ⟨-, hl, hr, hp⟩ | ⟨o, -, -, ⟨-, hlen'⟩ | ⟨-, hlen'⟩⟩
    · have hnil : ∀ i : Nat, 0 ≤ i → leaves null ([] : List Hash) i = null :=
        fun i _ => PerfectTree.leaves_of_le (by simp)
      have hb : Blocks combine (leaves null ([] : List Hash)) 1 [] 0 := rfl
      have hclimb := PerfectTree.climb_eq combine hb (Nat.zero_le d)
      simp only [rootWith, hl, hr, hp, leafOrNext, pathFillerNext, rootParents, Nat.add_sub_cancel]
      rw [Nat.add_comm d 1, ← hclimb, rootFill_eq, padFillers_nil (e := 0 + 2 ^ 1) (fun i _ => hnil i i.zero_le)]
      rfl
    · simp at hlen'
    · simp at hlen'
  · exact rootWith_eq h hne hd hlen (fun i _ => rfl)
      (padFillers_nil (fun i hi => PerfectTree.leaves_of_le hi) _)

end

theorem root_empty (hD : 1 ≤ Depth) : ({} : IncrementalMerkleTree Depth Hash).root = emptyRoot Hash Depth := by
  rw [root, represents_empty.rootWith_nil hD (by simp)]
  exact PerfectTree.subRoot_nil combine fun i _ => PerfectTree.leaves_of_le (by simp)

theorem appendInPlace_run (t : IncrementalMerkleTree Depth Hash) (x : Hash) :
    (appendInPlace x).run t =
      match t.append x with
      | .ok t' => .ok () t'
      | .error e => .error e t := by
  rcases t with ⟨_ | l, _ | r, ps⟩ <;>
    · simp only [appendInPlace, append, EStateM.run_bind, EStateM.run_get]
      split <;> rfl

/-- For every depth `D` from 1 to 29 and every list of at most `2^D` leaves: appending them to an empty tree succeeds
and gives a tree of that size, with the last leaf as `last`, that passes `wfcheck`, and whose root is the root of the
perfect tree over the leaves followed by null hashes; the next append throws exactly when the leaves fill the tree,
and then leaves it as it is. -/
theorem appendAll_correct (D : Nat) (hD : 1 ≤ D) (hD' : D ≤ 29) (xs : List Hash) (hlen : xs.length ≤ 2 ^ D) :
    ∃ t : IncrementalMerkleTree D Hash, appendAll {} xs = .ok t ∧ t.size = xs.length ∧
      (∀ h : xs ≠ [], t.last = .ok (xs.getLast h)) ∧ t.wfcheck = .ok () ∧
      t.root = perfectRoot combine null D (xs ++ List.replicate (2 ^ D - xs.length) null) ∧
      ∀ x, ((∃ e t', (appendInPlace x).run t = .error e t') ↔ xs.length = 2 ^ D) ∧
        (∀ e t', (appendInPlace x).run t = .error e t' → e = .full ∧ t' = t) := by
  obtain ⟨t, ht, hr⟩ := (@represents_empty D Hash _).appendAll_ok hD xs (by simpa using hlen)
  rw [nil_append] at hr
  have hps := hr.parents_length hD hlen
  refine ⟨t, ht, hr.size_eq (by omega), fun h => hr.last_eq h, hr.wfcheck_ok (by omega), ?_, fun x => ?_⟩
  · rw [PerfectTree.perfectRoot_append_replicate]
    exact hr.rootWith_nil hD hlen
  · rw [appendInPlace_run]
    by_cases hfull : xs.length = 2 ^ D
    · simp [hr.append_error hD hfull x, hfull]
    · obtain ⟨t', h', -⟩ := hr.append_ok hD (by omega) x
      simp [h', hfull]

/-- A small hash on numbers. -/
@[reducible] def pairHash : MerkleHash Nat where
  null := 0
  combine a b := 2 * a + 3 * b + 1
  bytes n := [UInt8.ofNat n]

theorem appendAll_correct_three :
    ∃ t : IncrementalMerkleTree 2 Nat, @appendAll Nat pairHash 2 {} [5, 6, 7] = .ok t ∧
      @size Nat 2 t = 3 ∧ @root Nat pairHash 2 t = perfectRoot (fun a b => 2 * a + 3 * b + 1) 0 2 [5, 6, 7, 0] := by
  obtain ⟨t, h1, h2, -, -, h3, -⟩ := @appendAll_correct Nat pairHash 2 (by decide) (by decide) [5, 6, 7] (by decide)
  exact ⟨t, h1, h2, h3⟩

end IncrementalMerkleTree

end LitecoinZ
