import Mathlib.Algebra.Order.Ring.Int
import Mathlib.Data.Nat.Bitwise
import Mathlib.Data.Nat.Pairing
import LitecoinZ.Lib.MerkleLevels

/-!
# The Merkle tree of a block

`CBlock::BuildMerkleTree`, `CBlock::GetMerkleBranch` and `CBlock::CheckMerkleBranch` of `primitives/block.cpp`, for any type
of hashes.  The flat array of the source holds the levels of the tree one after the other (`buildMerkleTree_eq`), and a branch
leads from each leaf to the root (`checkMerkleBranch_getMerkleBranch`).  As the last node of an odd level is combined with
itself, different lists can have the same root; those that are not reported as mutated cannot (`merkle_root_commits`).
-/

namespace LitecoinZ

open MerkleLevels List

variable {H : Type} [DecidableEq H]

section

variable (hash : H → H → H) (null : H)

/-- What `BuildMerkleTree` returns, reports and keeps. -/
structure BuiltMerkleTree (H : Type) where
  root : H
  fMutated : Bool
  vMerkleTree : List H

/-- A round of the inner loop: a node and its neighbour, in the level that starts at `j`. -/
def hashPair (j nSize : Nat) (s : List H × Bool) (i : Nat) : List H × Bool :=
  let i2 := min (i + 1) (nSize - 1)
  let left := s.1.getD (j + i) null
  let right := s.1.getD (j + i2) null
  (s.1 ++ [hash left right], s.2 || (i2 == i + 1 && i2 + 1 == nSize && left == right))

def hashLevel (j nSize : Nat) (s : List H × Bool) : List H × Bool :=
  ((List.range ((nSize + 1) / 2)).map (2 * ·)).foldl (hashPair hash null j nSize) s

def buildLevels (nSize j : Nat) (s : List H × Bool) : List H × Bool :=
  if nSize > 1 then buildLevels ((nSize + 1) / 2) (j + nSize) (hashLevel hash null j nSize s) else s
termination_by nSize
decreasing_by omega

def buildMerkleTree (vHashes : List H) : BuiltMerkleTree H :=
  let s := buildLevels hash null vHashes.length 0 (vHashes, false)
  { root := s.1.getLastD null, fMutated := s.2, vMerkleTree := s.1 }

omit [DecidableEq H] in
def branchLevels (vMerkleTree : List H) (nSize j nIndex : Nat) : List H :=
  if nSize > 1 then
    vMerkleTree.getD (j + min (nIndex ^^^ 1) (nSize - 1)) null ::
      branchLevels vMerkleTree ((nSize + 1) / 2) (j + nSize) (nIndex / 2)
  else []
termination_by nSize
decreasing_by omega

/-- `GetMerkleBranch` of a block with these hashes, whose tree may have been built before. -/
def getMerkleBranch (vHashes vMerkleTree : List H) (nIndex : Nat) : List H :=
  let vMerkleTree := if vMerkleTree.isEmpty then (buildMerkleTree hash null vHashes).vMerkleTree else vMerkleTree
  branchLevels null vMerkleTree vHashes.length 0 nIndex

omit [DecidableEq H] in
def foldBranch (h : H) : (vMerkleBranch : List H) → (nIndex : Int) → H
  | [], _ => h
  | b :: vMerkleBranch, nIndex =>
    foldBranch (if nIndex % 2 = 1 then hash b h else hash h b) vMerkleBranch (nIndex / 2)

omit [DecidableEq H] in
def checkMerkleBranch (h : H) (vMerkleBranch : List H) (nIndex : Int) : H :=
  if nIndex = -1 then null else foldBranch hash h vMerkleBranch nIndex

end

variable {hash : H → H → H} {null : H} {l : List H}

private theorem twins_of_length {n : Nat} {a b : H} : ∀ {l : List H}, l.length = 2 * n + 2 → l[2 * n]? = some a →
    l[2 * n + 1]? = some b → twins l = (a == b) := by
  induction n with
  | zero =>
    intro l hlen ha hb
    match l, hlen, ha, hb with
    | [x, y], _, ha, hb =>
      obtain rfl : x = a := by simpa using ha
      obtain rfl : y = b := by simpa using hb
      rfl
  | succ n ih =>
    intro l hlen ha hb
    match l, hlen, ha, hb with
    | x :: y :: c :: l, hlen, ha, hb =>
      rw [twins]
      refine ih (by simpa [Nat.mul_add] using hlen) ?_ ?_
      · simpa [Nat.mul_add] using ha
      · simpa [Nat.mul_add] using hb

private theorem twins_of_odd : ∀ {l : List H}, l.length % 2 = 1 → twins l = false
  | [], h => by cases h
  | [_], _ => rfl
  | [_, _], h => by simp at h
  | _ :: _ :: c :: l, h => by
    rw [twins]
    refine twins_of_odd ?_
    simp only [length_cons] at h ⊢
    omega

private theorem foldl_hashPair (before : List H) (m : Bool) {k : Nat} (hk : k ≤ (l.length + 1) / 2) :
    ((List.range k).map (2 * ·)).foldl (hashPair hash null before.length l.length) (before ++ l, m) =
      (before ++ l ++ (up hash l).take k, m || (decide (l.length ≤ 2 * k) && twins l)) := by
  induction k with
  | zero =>
    cases l with
    | nil => simp [twins]
    | cons a l => simp
  | succ k ih =>
    rw [range_succ, map_append, foldl_append, ih (by omega)]
    -- The array has grown, the level in it has not changed.
    have hread : ∀ {i : Nat} {a : H}, l[i]? = some a →
        (before ++ l ++ (up hash l).take k).getD (before.length + i) null = a := by
      intro i a hi
      rw [append_assoc, getD_append_right _ _ _ _ (Nat.le_add_right _ _), Nat.add_sub_cancel_left,
        getD_append _ _ _ _ (List.getElem?_eq_some_iff.1 hi).1, getD_eq_getElem?_getD, hi, Option.getD_some]
    have hleft : 2 * k < l.length := by omega
    have hright : min (2 * k + 1) (l.length - 1) < l.length := by omega
    obtain ⟨a, ha⟩ : ∃ a, l[2 * k]? = some a := ⟨_, getElem?_eq_getElem hleft⟩
    obtain ⟨b, hb⟩ : ∃ b, l[min (2 * k + 1) (l.length - 1)]? = some b := ⟨_, getElem?_eq_getElem hright⟩
    have hnode := getElem?_up hash ha hb
    rw [map_singleton, foldl_cons, foldl_nil, hashPair]
    dsimp only
    rw [hread ha, hread hb]
    refine Prod.ext ?_ ?_
    · dsimp only
      rw [take_add_one, hnode, append_assoc, Option.toList_some]
    · dsimp only
      by_cases hlast : l.length = 2 * k + 2
      · have hmin : min (2 * k + 1) (l.length - 1) = 2 * k + 1 := by omega
        rw [hmin] at hb ⊢
        rw [twins_of_length hlast ha hb, decide_eq_false (by omega), decide_eq_true (by omega), hlast]
        simp
      · have hflag : (min (2 * k + 1) (l.length - 1) == 2 * k + 1 && min (2 * k + 1) (l.length - 1) + 1 == l.length) = false := by
          rw [Bool.and_eq_false_iff, beq_eq_false_iff_ne, beq_eq_false_iff_ne]
          omega
        rw [hflag, Bool.false_and, Bool.or_false, decide_eq_false (show ¬ l.length ≤ 2 * k by omega), Bool.false_and]
        by_cases hle : l.length ≤ 2 * (k + 1)
        · rw [twins_of_odd (by omega), Bool.and_false]
        · rw [decide_eq_false hle, Bool.false_and]

private theorem hashLevel_eq (before : List H) (m : Bool) :
    hashLevel hash null before.length l.length (before ++ l, m) = (before ++ l ++ up hash l, m || twins l) := by
  rw [hashLevel, foldl_hashPair before m (le_refl _), decide_eq_true (by omega), Bool.true_and, take_of_length_le]
  rw [length_up]

private theorem buildLevels_eq (before : List H) (m : Bool) :
    buildLevels hash null l.length before.length (before ++ l, m) =
      (before ++ (levels hash l).flatten, m || (levels hash l).any twins) := by
  induction l using induction_up hash generalizing before m with
  | hshort l h =>
    rw [buildLevels, if_neg (by omega), levels_of_le h]
    have htwins : twins l = false := by
      match l, h with
      | [], _ => rfl
      | [_], _ => rfl
    simp [htwins]
  | hup l h ih =>
    rw [buildLevels, if_pos h, hashLevel_eq, levels_of_lt h, ← length_up hash, ← length_append, ih]
    simp [Bool.or_assoc]

theorem buildMerkleTree_eq (hash : H → H → H) (null : H) (l : List H) :
    buildMerkleTree hash null l =
      { root := root hash null l, fMutated := (levels hash l).any twins, vMerkleTree := (levels hash l).flatten } := by
  have hbuilt : buildLevels hash null l.length 0 (l, false) = ((levels hash l).flatten, (levels hash l).any twins) :=
    buildLevels_eq [] false
  rw [buildMerkleTree, hbuilt, ← getLastD_flatten_levels]

omit [DecidableEq H] in
private theorem getElem?_up_half (hash : H → H → H) {i : Nat} {h : H} (hi : l[i]? = some h) :
    ∃ e, l[min (i ^^^ 1) (l.length - 1)]? = some e ∧
      (up hash l)[i / 2]? = some (if (i : Int) % 2 = 1 then hash e h else hash h e) := by
  have hlt := (List.getElem?_eq_some_iff.1 hi).1
  rcases Nat.even_or_odd' i with ⟨k, rfl | rfl⟩
  · rw [Nat.xor_one_of_even (even_two_mul k), Nat.mul_div_cancel_left k (by decide)]
    obtain ⟨e, he⟩ : ∃ e, l[min (2 * k + 1) (l.length - 1)]? = some e := ⟨_, getElem?_eq_getElem (by omega)⟩
    refine ⟨e, he, ?_⟩
    rw [if_neg (by omega)]
    exact getElem?_up hash hi he
  · have hhalf : (2 * k + 1) / 2 = k := by omega
    have hmin : min (2 * k + 1) (l.length - 1) = 2 * k + 1 := by omega
    rw [Nat.xor_one_of_odd (odd_two_mul_add_one k), Nat.add_sub_cancel, Nat.min_eq_left (by omega), hhalf]
    obtain ⟨e, he⟩ : ∃ e, l[2 * k]? = some e := ⟨_, getElem?_eq_getElem (by omega)⟩
    refine ⟨e, he, ?_⟩
    rw [if_pos (by omega)]
    exact getElem?_up hash he (by rw [hmin, hi])

omit [DecidableEq H] in
private theorem foldBranch_branchLevels (before : List H) {i : Nat} {h : H} (hi : l[i]? = some h) :
    foldBranch hash h (branchLevels null (before ++ (levels hash l).flatten) l.length before.length i) i =
      root hash null l := by
  induction l using induction_up hash generalizing before i h with
  | hshort l hl =>
    have hlt := (List.getElem?_eq_some_iff.1 hi).1
    rw [branchLevels, if_neg (by omega), foldBranch, root_of_le hl, headD_eq_head?_getD, head?_eq_getElem?]
    obtain rfl : i = 0 := by omega
    rw [hi, Option.getD_some]
  | hup l hl ih =>
    obtain ⟨e, he, hnext⟩ := getElem?_up_half hash hi
    have hread : (before ++ (l ++ (levels hash (up hash l)).flatten)).getD (before.length + min (i ^^^ 1) (l.length - 1)) null =
        e := by
      rw [getD_append_right _ _ _ _ (Nat.le_add_right _ _), Nat.add_sub_cancel_left,
        getD_append _ _ _ _ (List.getElem?_eq_some_iff.1 he).1, getD_eq_getElem?_getD, he, Option.getD_some]
    rw [branchLevels, if_pos hl, levels_of_lt hl, flatten_cons, hread, foldBranch, root_of_lt hl]
    have hrest := ih (before ++ l) hnext
    rw [append_assoc, length_append, length_up] at hrest
    have hcast : ((i / 2 : Nat) : Int) = (i : Int) / 2 := by omega
    rw [← hcast]
    exact hrest

theorem checkMerkleBranch_getMerkleBranch {vMerkleTree : List H} {i : Nat} {h : H} (hi : l[i]? = some h)
    (hfresh : vMerkleTree = [] ∨ vMerkleTree = (buildMerkleTree hash null l).vMerkleTree) :
    checkMerkleBranch hash null h (getMerkleBranch hash null l vMerkleTree i) i = (buildMerkleTree hash null l).root := by
  have htree : (if vMerkleTree.isEmpty then (buildMerkleTree hash null l).vMerkleTree else vMerkleTree) =
      (levels hash l).flatten := by
    rcases hfresh with rfl | rfl
    · rw [buildMerkleTree_eq]
      rfl
    · rw [ite_self, buildMerkleTree_eq]
  rw [checkMerkleBranch, if_neg (by omega), getMerkleBranch, htree, buildMerkleTree_eq]
  exact foldBranch_branchLevels [] hi

/-- Two lists with one root that are not reported are equal; reported are the lists with a level that ends with a pair of
twins. -/
theorem merkle_root_commits (hash : H → H → H) (null : H) :
    (∀ l₁ l₂ : List H, (l₁ = [] ↔ l₂ = []) → CollisionFree hash (treePairs hash l₁ ++ treePairs hash l₂) →
      (∀ x ∈ l₁ ++ l₂, ∀ p ∈ treePairs hash l₁ ++ treePairs hash l₂, x ≠ hash p.1 p.2) →
      (buildMerkleTree hash null l₁).root = (buildMerkleTree hash null l₂).root →
      (buildMerkleTree hash null l₁).fMutated = false → (buildMerkleTree hash null l₂).fMutated = false → l₁ = l₂) ∧
    ∀ l : List H, (buildMerkleTree hash null l).fMutated = true ↔
      ∃ level ∈ levels hash l, ∃ ws x, level = ws ++ [x, x] ∧ ws.length % 2 = 0 := by
  constructor
  · intro l₁ l₂ hempty hfree hleaf hroot hm1 hm2
    rw [buildMerkleTree_eq, buildMerkleTree_eq] at hroot
    rw [buildMerkleTree_eq] at hm1 hm2
    by_cases hne : l₁ = []
    · rw [hne, hempty.1 hne]
    have hne' : l₂ ≠ [] := fun h => hne (hempty.2 h)
    -- A level above the leaves consists of hashes of pairs.
    have habove : ∀ {l l' : List H}, l ≠ [] → l ∈ levels hash l' →
        (∀ x ∈ l, ∀ p ∈ treePairs hash l', x ≠ hash p.1 p.2) → l = l' := by
      intro l l' hl hmem hleaf
      rcases mem_levels hmem with rfl | ⟨level, hlevel, hlt, rfl⟩
      · rfl
      · obtain ⟨x, rest, hx⟩ := exists_cons_of_ne_nil hl
        have hmem : x ∈ up hash level := by
          rw [hx]
          exact mem_cons_self
        obtain ⟨p, hp, rfl⟩ := mem_map.1 hmem
        exact absurd rfl (hleaf _ hmem p (neighbours_subset_treePairs hlevel hlt hp))
    rcases mem_levels_or hne hne' hfree hm1 hm2 hroot with hmem | hmem
    · exact habove hne hmem fun x hx p hp => hleaf x (mem_append_left _ hx) p (mem_append_right _ hp)
    · exact (habove hne' hmem fun x hx p hp => hleaf x (mem_append_right _ hx) p (mem_append_left _ hp)).symm
  · intro l
    rw [buildMerkleTree_eq, any_eq_true]
    simp only [twins_iff]

def evenPair (a b : ℕ) : ℕ := 2 * Nat.pair a b

theorem evenPair_injective : Function.Injective2 evenPair := by
  intro a a' b b' h
  exact Nat.pair_eq_pair.1 (Nat.eq_of_mul_eq_mul_left (by decide) h)

private theorem ne_evenPair {x : ℕ} (hx : x % 2 = 1) (a b : ℕ) : x ≠ evenPair a b := by
  intro h
  rw [h, evenPair] at hx
  omega

/-- A list with twins is reported, one of odd length is not. -/
theorem merkle_root_commits_odd : (buildMerkleTree evenPair 1 [1, 3, 5, 5]).fMutated = true ∧
    (buildMerkleTree evenPair 1 [1, 3, 5]).fMutated = false ∧ [1, 3, 5] = [1, 3, 5] := by
  have hfree : CollisionFree evenPair (treePairs evenPair [1, 3, 5] ++ treePairs evenPair [1, 3, 5]) :=
    fun p _ q _ h => Prod.ext (evenPair_injective h).1 (evenPair_injective h).2
  have hodd : ∀ x ∈ [1, 3, 5] ++ [1, 3, 5], x % 2 = 1 := by decide
  have hmutated : (buildMerkleTree evenPair 1 [1, 3, 5]).fMutated = false := by decide +kernel
  obtain ⟨hcommits, htwins⟩ := merkle_root_commits evenPair 1
  exact ⟨(htwins _).2 ⟨_, mem_levels_self _ _, [1, 3], 5, rfl, rfl⟩, hmutated,
    hcommits _ _ Iff.rfl hfree (fun x hx p _ => ne_evenPair (hodd x hx) _ _) rfl hmutated hmutated⟩

/-- The last two nodes of an odd level may be equal without a report, and the empty list has the root of the list of the
null hash. -/
theorem merkle_root_not_committed : Function.Injective2 evenPair ∧ (∀ x ∈ [1, 3], ∀ a b, x ≠ evenPair a b) ∧
    [1] ++ [3, 3] ∈ levels evenPair [1, 3, 3] ∧ (buildMerkleTree evenPair 1 [1, 3, 3]).fMutated = false ∧
    (buildMerkleTree evenPair 1 []).root = (buildMerkleTree evenPair 1 [1]).root ∧
    (buildMerkleTree evenPair 1 []).fMutated = false ∧ (buildMerkleTree evenPair 1 [1]).fMutated = false := by
  have hodd : ∀ x ∈ [1, 3], x % 2 = 1 := by decide
  refine ⟨evenPair_injective, fun x hx => ne_evenPair (hodd x hx), mem_levels_self _ _, ?_, ?_, ?_, ?_⟩
  · decide +kernel
  · decide +kernel
  · decide +kernel
  · decide +kernel

end LitecoinZ
