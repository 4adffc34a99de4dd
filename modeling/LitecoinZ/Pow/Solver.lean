import Mathlib.Data.Finset.Powerset
import Mathlib.Data.Finset.Sort
import LitecoinZ.Pow.IndexTree
import LitecoinZ.Pow.Minimal

/-!
# The basic solver finds exactly the solutions

`BasicSolve` starts with the rows of all indices, goes up the levels of the index trees, and offers the trees of the
last level whose hashes cancel.  Its loops count rows in variables of type `int`, so this holds as long as there are
less than `2 ^ 31` trees on each level that is listed (`basicSolve_offers`).  When all hashes are equal there are more
of them (`basicSolve_overflow`).
-/

namespace LitecoinZ

open BitField Pairs StateExcept
open List hiding Vector

namespace Equihash

variable {eh : Equihash} {H : eh.HashFn}

variable {env : SolverEnv} {r : Nat} {L : List (List EhIndex)} {a b : List EhIndex}

/-- On none of the levels that the solver lists there are `2 ^ 31` trees. -/
def SmallLevels (generateHash : eh.HashFn) : Prop :=
  ∀ r < eh.K, ∀ L : List (List EhIndex), L.Nodup → (∀ l ∈ L, IndexTree generateHash r l) → L.length < 2 ^ 31

/-- The rounds either find a level without trees, or go on to the last level before the final round. -/
theorem solveRounds_level (hs : eh.Suitable) (hcan : ∀ pos, env.cancelled pos = false)
    (hsmall : SmallLevels H) {n : Nat} (hr : r + n = eh.K - 1) {X : List Row}
    (hX : Level H r X L) :
    ∃ X' hashLen lenIndices,
      eh.solveRounds env n X ((eh.K + 1 - r) * eh.collisionByteLength) (4 * 2 ^ r) = .ok (X', hashLen, lenIndices) ∧
      (X' = [] ∧ (∀ l, ¬ IndexTree H (eh.K - 1) l) ∨
        hashLen = (eh.K + 1 - (eh.K - 1)) * eh.collisionByteLength ∧ lenIndices = 4 * 2 ^ (eh.K - 1) ∧
          ∃ L', Level H (eh.K - 1) X' L') := by
  have hK := hs.three_le_K
  induction n generalizing r X L with
  | zero =>
    obtain rfl : r = eh.K - 1 := hr
    exact ⟨X, _, _, rfl, .inr ⟨rfl, rfl, L, hX⟩⟩
  | succ n ih =>
    rw [solveRounds]
    by_cases hpos : X.length > 0
    · obtain ⟨X1, L1, hround, hX1⟩ := solveRound_level hs hcan (show r + 1 < eh.K by omega) hX
        (hX.length_lt (hsmall r (by omega)))
      have hup : 4 * 2 ^ r * 2 = 4 * 2 ^ (r + 1) := by ring
      obtain ⟨X', hashLen, lenIndices, hrest, hend⟩ := ih (by omega) hX1
      refine ⟨X', hashLen, lenIndices, ?_, hend⟩
      rw [if_pos hpos, hround, hashLength_succ (by omega), hup]
      exact hrest
    · have hnil : X = [] := eq_nil_of_length_eq_zero (Nat.eq_zero_of_not_pos hpos)
      have hnone : ∀ l, ¬ IndexTree H r l := fun l hl => hpos (hX.length_pos hl)
      rw [if_neg hpos]
      exact ⟨X, _, _, rfl, .inl ⟨hnil, IndexTree.none_above (by omega) hnone⟩⟩

theorem merge_untrimmed {w width : Nat} (ha : IndexTree H r a) (hb : IndexTree H r b)
    (hw : (eh.K + 1 - r) * eh.collisionByteLength + 4 * 2 ^ r ≤ w)
    (hwidth : (eh.K + 1 - r) * eh.collisionByteLength + 2 * (4 * 2 ^ r) ≤ width) :
    ∃ hash : List UInt8, hash.length = (eh.K + 1 - r) * eh.collisionByteLength ∧
      Row.merge w width (eh.rowOf H r a) (eh.rowOf H r b) ((eh.K + 1 - r) * eh.collisionByteLength)
    (4 * 2 ^ r) 0 =
          .ok (hash ++ (joined H r (a, b)).flatMap ehIndexToArray) := by
  have htake : ∀ l : List EhIndex, ((eh.rowOf H r l).take ((eh.K + 1 - r) * eh.collisionByteLength)).drop 0 =
      eh.hashPart r (eh.xorHashes H l) := by
    intro l
    rw [drop_zero, rowOf, ← eh.length_hashPart r (eh.xorHashes H l), List.take_left]
  refine ⟨eh.hashPart r (eh.xorHashes H a ^^^ eh.xorHashes H b), eh.length_hashPart r _, ?_⟩
  have hinds := indices_rowOf H r a
  have hinds' := indices_rowOf H r b
  rw [ha.length_eq] at hinds
  rw [hb.length_eq] at hinds'
  unfold Row.merge
  rw [ehAssert_of (decide_eq_true hw), ehAssert_of (decide_eq_true (by rwa [Nat.sub_zero]))]
  change Except.ok _ = _
  rw [htake, htake, hashPart_xor, hinds, hinds', joined]
  congr 2
  split
  · rw [flatMap_append]
  · rw [flatMap_append]

theorem joined_bounds (ha : IndexTree H r a) (hb : IndexTree H r b) :
    (joined H r (a, b)).length = 2 ^ (r + 1) ∧
      ∀ i ∈ joined H r (a, b), i < 2 ^ (eh.collisionBitLength + 1) := by
  have hperm : (joined H r (a, b)).Perm (a ++ b) := by
    rw [joined]
    split
    · exact List.Perm.refl _
    · exact perm_append_comm
  refine ⟨?_, fun i hi => ?_⟩
  · rw [hperm.length_eq, length_append, ha.length_eq, hb.length_eq, pow_succ, Nat.mul_two]
  · rcases mem_append.1 (hperm.mem_iff.1 hi) with hmem | hmem
    · exact ha.lt i hmem
    · exact hb.lt i hmem

theorem offerPairs_rowOf (hs : eh.Suitable) (hvalid : ∀ soln, env.validBlock soln = false)
    (ps : List (List EhIndex × List EhIndex))
    (hps : ∀ p ∈ ps, IndexTree H (eh.K - 1) p.1 ∧ IndexTree H (eh.K - 1) p.2)
    (offered : List (List UInt8)) :
    eh.offerPairs env ((eh.K + 1 - (eh.K - 1)) * eh.collisionByteLength) (4 * 2 ^ (eh.K - 1))
        (ps.map (Prod.map (eh.rowOf H (eh.K - 1)) (eh.rowOf H (eh.K - 1)))) offered =
      .ok (false, offered ++
        ((ps.filter (distinctPair H (eh.K - 1))).map (joined H (eh.K - 1))).map eh.minimal) := by
  have hK := hs.three_le_K
  have hup : 2 * (4 * 2 ^ (eh.K - 1)) = 4 * 2 ^ eh.K := by
    have : eh.K = eh.K - 1 + 1 := by omega
    rw [this, pow_succ, Nat.add_sub_cancel]
    ring
  induction ps generalizing offered with
  | nil => rw [map_nil, offerPairs, filter_nil, map_nil, map_nil, append_nil]
  | cons p ps ih =>
    obtain ⟨a, b⟩ := p
    obtain ⟨ha, hb⟩ : IndexTree H (eh.K - 1) a ∧ IndexTree H (eh.K - 1) b :=
      hps (a, b) mem_cons_self
    have hrest := ih (forall_mem_cons.1 hps).2
    have hwidth : (eh.K + 1 - (eh.K - 1)) * eh.collisionByteLength + 2 * (4 * 2 ^ (eh.K - 1)) ≤ eh.finalFullWidth := by
      have htwo : eh.K + 1 - (eh.K - 1) = 2 := by omega
      rw [hup, htwo, finalFullWidth]
    obtain ⟨hash, hhash, hmerge⟩ := merge_untrimmed ha hb (hs.fullWidth_le le_rfl) hwidth
    obtain ⟨hlen, hlt⟩ := joined_bounds ha hb
    have hlen' : (joined H (eh.K - 1) (a, b)).length = 2 ^ eh.K := by
      rw [hlen]
      congr 1
      omega
    have hget := hs.getIndices hlen' hlt hash
    rw [hhash, ← hup] at hget
    have hsize : (eh.minimal (joined H (eh.K - 1) (a, b))).length = eh.solutionWidth := length_beBytes _ _
    rw [map_cons, Prod.map_apply, offerPairs, hmerge, filter_cons]
    change (if distinctPair H (eh.K - 1) (a, b) = true then _ else _) = _
    split
    · rw [hget]
      change (ehAssert (decide (_ = _)) _ >>= _) = _
      rw [ehAssert_of (decide_eq_true hsize)]
      change (if env.validBlock _ = true then _ else _) = _
      rw [hvalid, if_neg (by decide), hrest, map_cons, map_cons, append_assoc]
      rfl
    · exact hrest offered

theorem hasCollision_last (hs : eh.Suitable) (a b : List EhIndex) :
    (eh.rowOf H (eh.K - 1) a).hasCollision (eh.rowOf H (eh.K - 1) b)
        ((eh.K + 1 - (eh.K - 1)) * eh.collisionByteLength) = true ↔
      field (eh.xorHashes H a) (eh.collisionBitLength * (eh.K - (eh.K - 1))) eh.collisionBitLength =
          field (eh.xorHashes H b) (eh.collisionBitLength * (eh.K - (eh.K - 1))) eh.collisionBitLength ∧
        field (eh.xorHashes H (a ++ b)) 0 eh.collisionBitLength = 0 := by
  have hK := hs.three_le_K
  have htake : ∀ l : List EhIndex, (eh.rowOf H (eh.K - 1) l).take
      ((eh.K + 1 - (eh.K - 1)) * eh.collisionByteLength) =
      beBytes eh.collisionByteLength
        (field (eh.xorHashes H l) (eh.collisionBitLength * (eh.K - (eh.K - 1))) eh.collisionBitLength) ++
      beBytes eh.collisionByteLength (field (eh.xorHashes H l) 0 eh.collisionBitLength) := by
    intro l
    have hlast : eh.K - 1 + 1 = eh.K := by omega
    have hend : eh.hashPart (eh.K + 1) (eh.xorHashes H l) = [] := by simp [hashPart]
    rw [rowOf, ← eh.length_hashPart (eh.K - 1) (eh.xorHashes H l), List.take_left,
      hashPart_succ eh (Nat.sub_le _ _), hlast, hashPart_succ eh le_rfl, hend, append_nil, Nat.sub_self, Nat.mul_zero]
  have hfs := fun x y p => beBytes_inj (w := eh.collisionByteLength)
    (Suitable.field_lt eh x p) (Suitable.field_lt eh y p)
  rw [Row.hasCollision, beq_iff_eq, htake, htake, ← hfs, xorHashes_append, field_xor, Nat.xor_eq_zero_iff, ← hfs]
  constructor
  · intro heq
    exact append_inj heq (by simp)
  · rintro ⟨h1, h2⟩
    rw [h1, h2]

def offerable (generateHash : eh.HashFn) (p : List EhIndex × List EhIndex) : Bool :=
  distinctPair generateHash (eh.K - 1) p && (eh.rowOf generateHash (eh.K - 1) p.1).hasCollision
    (eh.rowOf generateHash (eh.K - 1) p.2) ((eh.K + 1 - (eh.K - 1)) * eh.collisionByteLength)

def offers (generateHash : eh.HashFn) (L : List (List EhIndex)) : List (List UInt8) :=
  (((pairs L).filter (offerable generateHash)).map (joined generateHash (eh.K - 1))).map eh.minimal

section

variable (hs : eh.Suitable) (hout : 0 < eh.indicesPerHashOutput)
include hs hout

theorem outputRows_eq {g count : Nat} (hcount : count ≤ eh.indicesPerHashOutput) :
    eh.outputRows H g count =
      .ok ((List.range' (g * eh.indicesPerHashOutput) count).map fun i => eh.rowOf H 0 [i]) := by
  have hwidth : eh.hashLength ≤ eh.fullWidth := by
    have := hs.fullWidth_le (Nat.zero_le (eh.K - 1))
    rw [Nat.sub_zero] at this
    rw [hashLength]
    omega
  have hrow : ∀ i ∈ List.range count,
      fullStepRow eh.fullWidth (((H g).toList.drop (i * eh.N / 8)).take (eh.N / 8)) eh.hashLength
        eh.collisionBitLength (g * eh.indicesPerHashOutput + i) =
      .ok (eh.rowOf H 0 [g * eh.indicesPerHashOutput + i]) := by
    intro i hi
    have hi' : i < eh.indicesPerHashOutput := (mem_range.1 hi).trans_le hcount
    have hdiv : (g * eh.indicesPerHashOutput + i) / eh.indicesPerHashOutput = g := by
      rw [Nat.mul_comm, Nat.mul_add_div hout, Nat.div_eq_of_lt hi', Nat.add_zero]
    have hmod : (g * eh.indicesPerHashOutput + i) % eh.indicesPerHashOutput = i := by
      rw [Nat.mul_comm, Nat.mul_add_mod, Nat.mod_eq_of_lt hi']
    have hfor := hs.rowFor H hout hwidth (g * eh.indicesPerHashOutput + i)
    rwa [rowFor, if_neg (Nat.pos_iff_ne_zero.1 hout), hashBytes, hdiv, hmod] at hfor
  rw [outputRows, range'_eq_map_range, map_map]
  exact mapM_ok hrow

theorem generateList_eq (hcan : ∀ pos, env.cancelled pos = false) (g missing : Nat) :
    eh.generateList env H g missing =
      .ok ((List.range' (g * eh.indicesPerHashOutput) missing).map fun i => eh.rowOf H 0 [i]) := by
  induction missing using Nat.strongRecOn generalizing g with
  | _ missing ih =>
    rw [generateList]
    by_cases hzero : missing = 0
    · rw [dif_pos hzero, hzero]
      rfl
    · rw [dif_neg hzero, dif_neg (Nat.pos_iff_ne_zero.1 hout), outputRows_eq hs hout (Nat.min_le_left _ _),
        SolverEnv.check_of hcan, ih _ (by omega)]
      change Except.ok _ = _
      rw [← map_append]
      congr 2
      by_cases hle : missing ≤ eh.indicesPerHashOutput
      · rw [Nat.min_eq_right hle, Nat.sub_self, range'_zero, append_nil]
      · have hsum : missing = eh.indicesPerHashOutput + (missing - eh.indicesPerHashOutput) := by omega
        rw [Nat.min_eq_left (by omega), Nat.add_mul, Nat.one_mul, range'_append_1, ← hsum]

/-! ### The final round -/

theorem isValidSolution_indexTree (soln : List UInt8) :
    eh.isValidSolution H soln = .ok true ↔ ∃ l, (IndexTree H eh.K l ∧
      field (eh.xorHashes H l) 0 eh.collisionBitLength = 0) ∧ eh.minimal l = soln := by
  rw [isValidSolution_allJoined H hs]
  constructor
  · rintro ⟨hlen, -, hjoins, hzero⟩
    have hcount : (eh.solutionIndices soln).length = 2 ^ eh.K := by simp [solutionIndices]
    have hlt : ∀ i ∈ eh.solutionIndices soln, i < 2 ^ (eh.collisionBitLength + 1) := by
      intro i hi
      obtain ⟨j, -, rfl⟩ := mem_map.1 hi
      exact eh.solutionIndex_lt soln j
    exact ⟨_, ⟨(indexTree_iff hcount).2 ⟨hlt, hjoins⟩, hzero⟩, hs.minimal_solutionIndices hlen⟩
  · rintro ⟨l, ⟨htree, hzero⟩, rfl⟩
    rw [hs.solutionIndices_minimal htree.length_eq htree.lt]
    exact ⟨length_beBytes _ _, hout, ((indexTree_iff htree.length_eq).1 htree).2, hzero⟩

/-- From a list of the trees of the last level in any order each solution is offered once, and nothing else. -/
theorem offers_of_level (hnodup : L.Nodup) (hmem : ∀ l, l ∈ L ↔ IndexTree H (eh.K - 1) l) :
    (offers H L).Nodup ∧
      ∀ soln, soln ∈ offers H L ↔ eh.isValidSolution H soln = .ok true := by
  have hK := hs.three_le_K
  have hlast : eh.K - 1 + 1 = eh.K := by omega
  obtain ⟨hnodup', hmem'⟩ := joined_pairs hs hnodup hmem (q := offerable H)
    (Z := fun l => field (eh.xorHashes H l) 0 eh.collisionBitLength = 0) fun a b ha hb => by
      have hcomm : eh.xorHashes H (b ++ a) = eh.xorHashes H (a ++ b) := by
        rw [xorHashes_append, xorHashes_append, Nat.xor_comm]
      rw [offerable, Bool.and_eq_true, and_comm, hasCollision_last hs, and_right_comm, joins_or hs ha hb, hcomm,
        or_and_right]
  rw [hlast] at hmem'
  refine ⟨hnodup'.map_on fun l hl l' hl' heq => ?_, fun soln => ?_⟩
  · have htree := ((hmem' l).1 hl).1
    have htree' := ((hmem' l').1 hl').1
    rw [← hs.solutionIndices_minimal htree.length_eq htree.lt, heq,
      hs.solutionIndices_minimal htree'.length_eq htree'.lt]
  · rw [isValidSolution_indexTree hs hout, offers, mem_map]
    simp only [hmem']

end

theorem generateList_level (H : eh.HashFn) (hs : eh.Suitable) (hout : 0 < eh.indicesPerHashOutput)
    (hcan : ∀ pos, env.cancelled pos = false) :
    ∃ X L, eh.generateList env H 0 (2 ^ (eh.collisionBitLength + 1)) = .ok X ∧ Level H 0 X L := by
  refine ⟨_, (List.range (2 ^ (eh.collisionBitLength + 1))).map fun i => [i], generateList_eq hs hout hcan 0 _, ?_, ?_, ?_⟩
  · rw [Nat.zero_mul, ← range_eq_range', map_map]
    exact List.Perm.refl _
  · exact nodup_range.map fun i j hij => head_eq_of_cons_eq hij
  · intro l
    rw [mem_map]
    constructor
    · rintro ⟨i, hi, rfl⟩
      exact .leaf (mem_range.1 hi)
    · intro h
      cases h with
      | leaf hi => exact ⟨_, mem_range.2 hi, rfl⟩

theorem offerRuns_level (hs : eh.Suitable) (hcan : ∀ pos, env.cancelled pos = false)
    (hvalid : ∀ soln, env.validBlock soln = false) {X : List Row} (hX : Level H (eh.K - 1) X L)
    (hsize : X.length < 2 ^ 31) :
    ∃ L' : List (List EhIndex), L'.Nodup ∧ (∀ l, l ∈ L' ↔ IndexTree H (eh.K - 1) l) ∧
      eh.offerRuns env (env.stdSort.sort ((eh.K + 1 - (eh.K - 1)) * eh.collisionByteLength) X)
        ((eh.K + 1 - (eh.K - 1)) * eh.collisionByteLength) (4 * 2 ^ (eh.K - 1)) 0 [] =
          .ok (false, offers H L') := by
  obtain ⟨L', hsort, hnodup, hmem⟩ := hX.sort env.stdSort ((eh.K + 1 - (eh.K - 1)) * eh.collisionByteLength)
  have hperm := env.stdSort.perm ((eh.K + 1 - (eh.K - 1)) * eh.collisionByteLength) X
  have hoffer := offerPairs_rowOf hs hvalid ((pairs L').filter fun p =>
    (eh.rowOf H (eh.K - 1) p.1).hasCollision (eh.rowOf H (eh.K - 1) p.2)
      ((eh.K + 1 - (eh.K - 1)) * eh.collisionByteLength)) (fun p hp => by
        obtain ⟨h1, h2⟩ := mem_of_mem_pairs (mem_filter.1 hp).1
        exact ⟨(hmem _).1 h1, (hmem _).1 h2⟩) []
  rw [← collisions_map, ← hsort, filter_filter, nil_append] at hoffer
  exact ⟨L', hnodup, hmem, eh.offerRuns_of hcan (i := 0) (Nat.zero_le _) (by rwa [hperm.length_eq])
    (env.stdSort.sorted ((eh.K + 1 - (eh.K - 1)) * eh.collisionByteLength) X) hoffer⟩

/-- The instances of the class template. -/
def Supported (eh : Equihash) : Prop := (eh.N, eh.K) ∈ [(96, 3), (200, 9), (96, 5), (48, 5)]

theorem Supported.suitable (h : eh.Supported) : eh.Suitable ∧ 0 < eh.indicesPerHashOutput := by
  simp only [Supported, mem_cons, Prod.mk.injEq, not_mem_nil, or_false] at h
  rcases h with ⟨hN, hK⟩ | ⟨hN, hK⟩ | ⟨hN, hK⟩ | ⟨hN, hK⟩
  all_goals
    refine ⟨⟨?_, ?_, ?_, ?_⟩, ?_⟩
    all_goals
      simp only [indicesPerHashOutput, hN, hK]
      decide

/-- When it is never cancelled and no block is valid, the solver offers each solution once, and nothing else. -/
theorem basicSolve_offers (eh : Equihash) (h : eh.Supported) (generateHash : eh.HashFn) (env : SolverEnv)
    (hcancel : ∀ pos, env.cancelled pos = false) (hvalid : ∀ soln, env.validBlock soln = false)
    (hsmall : SmallLevels generateHash) :
    ∃ offered, eh.basicSolve env generateHash = .ok (false, offered) ∧ offered.Nodup ∧
      ∀ soln, soln ∈ offered ↔ eh.isValidSolution generateHash soln = .ok true := by
  obtain ⟨hs, hout⟩ := h.suitable
  have hK := hs.three_le_K
  obtain ⟨X₀, L₀, hgen, hX0⟩ := generateList_level generateHash hs hout hcancel
  obtain ⟨X, hashLen, lenIndices, hrs, hend⟩ := solveRounds_level hs hcancel hsmall (Nat.zero_add (eh.K - 1)) hX0
  rw [Nat.sub_zero, pow_zero, Nat.mul_one] at hrs
  have hsolve : eh.basicSolve env generateHash = if X.length > 1 then (do
      env.check .finalSorting
      eh.offerRuns env (env.stdSort.sort hashLen X) hashLen lenIndices 0 []) else pure (false, []) := by
    rw [basicSolve, hgen]
    change (eh.solveRounds env (eh.K - 1) X₀ ((eh.K + 1) * eh.collisionByteLength) 4 >>= _) = _
    rw [hrs]
    rfl
  rw [hsolve]
  rcases hend with ⟨rfl, hnone⟩ | ⟨rfl, rfl, L, hX⟩
  · refine ⟨[], rfl, nodup_nil, fun soln => ?_⟩
    rw [isValidSolution_indexTree hs hout]
    constructor
    · rintro ⟨⟩
    · rintro ⟨l, ⟨htree, -⟩, -⟩
      exact absurd htree (IndexTree.none_above (Nat.sub_le _ _) hnone l)
  · by_cases hlen : X.length > 1
    · obtain ⟨L', hnodup, hmem, hruns⟩ := offerRuns_level hs hcancel hvalid hX (hX.length_lt (hsmall _ (by omega)))
      refine ⟨_, ?_, offers_of_level hs hout hnodup hmem⟩
      rw [if_pos hlen, SolverEnv.check_of hcancel]
      exact hruns
    · -- One tree makes no pair.
      have hshort : L.length ≤ 1 := by
        have := hX.rows.length_eq
        rw [length_map] at this
        omega
      have hnil : offers generateHash L = [] := by
        match L, hshort with
        | [], _ => rfl
        | [_], _ => rfl
      have hoffers := offers_of_level hs hout hX.nodup hX.mem
      rw [hnil] at hoffers
      refine ⟨[], ?_, hoffers⟩
      rw [if_neg hlen]
      rfl

/-! ### How many trees there are -/

theorem length_le_of_indexTree (hnodup : L.Nodup) (htree : ∀ l ∈ L, IndexTree H r l) :
    L.length ≤ 2 ^ ((eh.collisionBitLength + 1) * 2 ^ r) := by
  have hinj : (L.map (packed (eh.collisionBitLength + 1))).Nodup := by
    refine hnodup.map_on fun l hl l' hl' heq => ?_
    have hlen := (htree l hl).length_eq
    have hlen' := (htree l' hl').length_eq
    refine ext_getElem (hlen.trans hlen'.symm) fun j h1 h2 => ?_
    have hget := field_packed (htree l hl).lt (getElem?_eq_getElem h1)
    have hget' := field_packed (htree l' hl').lt (getElem?_eq_getElem h2)
    rw [hlen] at hget
    rw [hlen'] at hget'
    rw [← hget, ← hget', heq]
  have hsub : L.map (packed (eh.collisionBitLength + 1)) ⊆ List.range (2 ^ ((eh.collisionBitLength + 1) * 2 ^ r)) := by
    intro x hx
    obtain ⟨l, hl, rfl⟩ := mem_map.1 hx
    have hlt := packed_lt (htree l hl).lt
    rw [(htree l hl).length_eq] at hlt
    exact mem_range.2 hlt
  have hle := (subperm_of_subset hinj hsub).length_le
  rwa [length_map, length_range] at hle

def mergeSort : StdSort where
  sort len X := X.mergeSort fun a b => !decide (b.take len < a.take len)
  perm len X := mergeSort_perm X _
  sorted len X := by
    have hsorted : (X.mergeSort fun a b => !decide (b.take len < a.take len)).Pairwise
        fun a b => (!decide (b.take len < a.take len)) = true := pairwise_mergeSort
      (fun a b c hab hbc => by
        simp only [Bool.not_eq_true', decide_eq_false_iff_not] at hab hbc ⊢
        exact List.le_trans hab hbc)
      (fun a b => by
        simp only [Bool.or_eq_true, Bool.not_eq_true', decide_eq_false_iff_not]
        exact List.le_total _ _) X
    exact hsorted.imp fun h => by simpa using h

def quietEnv : SolverEnv := ⟨mergeSort, fun _ => false, fun _ => false⟩

/-- Hashes that collide in pairs only: the first byte for an index `i` is `i / 2`, and the second is the same for even
indices. -/
def pairedHash : eh48_5.HashFn := fun g => Vector.ofFn fun k =>
  if k.val % 6 = 0 ∨ k.val % 6 = 1 ∧ (g * 10 + k.val / 6) % 2 = 0 then UInt8.ofNat ((g * 10 + k.val / 6) / 2) else 0

private theorem field_pairedHash {i j : Nat} (hi : i < 512) (hj : j < 6) :
    field (eh48_5.indexHash pairedHash i) (8 * 6 - (j + 1) * 8) 8 = if j = 0 ∨ j = 1 ∧ i % 2 = 0 then i / 2 else 0 := by
  have hbyte : (eh48_5.hashBytes pairedHash i)[j]? =
      some (if j = 0 ∨ j = 1 ∧ i % 2 = 0 then UInt8.ofNat (i / 2) else 0) := by
    have hN : eh48_5.N = 48 := rfl
    have hper : eh48_5.indicesPerHashOutput = 10 := rfl
    have hpos : i % 10 * 48 / 8 + j < eh48_5.hashOutput := by
      change _ < 60
      omega
    have hindex : i / 10 * 10 + (i % 10 * 48 / 8 + j) / 6 = i := by omega
    have hmod : (i % 10 * 48 / 8 + j) % 6 = j := by omega
    have hlist : (pairedHash (i / 10)).toList[i % 10 * 48 / 8 + j]? = some ((pairedHash (i / 10))[i % 10 * 48 / 8 + j]) := by
      rw [← Vector.getElem?_eq_getElem hpos, Vector.getElem?_toList]
    rw [hashBytes, hper, hN, getElem?_take_of_lt (by omega), getElem?_drop, hlist, pairedHash, Vector.getElem_ofFn,
      hindex, hmod]
  have hlen : ((eh48_5.hashBytes pairedHash i).map UInt8.toNat).length = 6 := by
    rw [length_map, length_hashBytes pairedHash (by decide)]
    rfl
  have hfield := field_packed (bytes_lt (eh48_5.hashBytes pairedHash i)) (by rw [getElem?_map, hbyte]; rfl)
  rw [hlen] at hfield
  refine hfield.trans ?_
  split
  · rw [UInt8.toNat_ofNat']
    omega
  · rfl

private theorem eq_of_half_eq {i i' : Nat} (hlt : i < i') (hi' : i' < 512) (h : i / 2 = i' / 2) :
    i / 2 < 256 ∧ i = 2 * (i / 2) ∧ i' = 2 * (i / 2) + 1 := by omega

private theorem indexTree_pairedHash_one {l : List EhIndex} (h : IndexTree pairedHash 1 l) :
    ∃ i : Nat, i < 256 ∧ l = [2 * i, 2 * i + 1] := by
  obtain ⟨a, b, rfl, ha, hb, hj⟩ := h.split
  cases ha with
  | leaf hi =>
    cases hb with
    | leaf hi' =>
      rename_i i i'
      have hcoll : field (eh48_5.indexHash pairedHash i ^^^ 0) (8 * 6 - (0 + 1) * 8) 8 =
          field (eh48_5.indexHash pairedHash i' ^^^ 0) (8 * 6 - (0 + 1) * 8) 8 := hj.collide
      have hlt : i < i' := hj.ordered i rfl i' rfl
      have hi : i < 512 := hi
      have hi' : i' < 512 := hi'
      rw [Nat.xor_zero, Nat.xor_zero, field_pairedHash hi (by decide), field_pairedHash hi' (by decide), if_pos (.inl rfl),
        if_pos (.inl rfl)] at hcoll
      obtain ⟨h1, h2, h3⟩ := eq_of_half_eq hlt hi' hcoll
      exact ⟨i / 2, h1, congrArg₂ (fun a b => [a, b]) h2 h3⟩

private theorem not_indexTree_pairedHash_two (l : List EhIndex) : ¬ IndexTree pairedHash 2 l := by
  intro h
  obtain ⟨a, b, rfl, ha, hb, hj⟩ := h.split
  obtain ⟨i, hi, rfl⟩ := indexTree_pairedHash_one ha
  obtain ⟨i', hi', rfl⟩ := indexTree_pairedHash_one hb
  have hfield : ∀ i : Nat, i < 256 → field (eh48_5.indexHash pairedHash (2 * i) ^^^ (eh48_5.indexHash pairedHash (2 * i + 1) ^^^ 0))
      (8 * 6 - (1 + 1) * 8) 8 = i := by
    intro i hi
    rw [Nat.xor_zero, field_xor, field_pairedHash (by omega) (by decide), field_pairedHash (by omega) (by decide),
      if_pos (.inr ⟨rfl, by omega⟩), if_neg (by omega), Nat.xor_zero]
    omega
  have hcoll := hj.collide
  have heq : i = i' := ((hfield i hi).symm.trans hcoll).trans (hfield i' hi')
  rw [heq] at hj
  exact hj.disjoint mem_cons_self mem_cons_self

theorem smallLevels_pairedHash : SmallLevels pairedHash := by
  intro r hr L hnodup htree
  by_cases hlow : r ≤ 1
  · have hle := length_le_of_indexTree hnodup htree
    have hbits : eh48_5.collisionBitLength + 1 = 9 := rfl
    have hpow : 2 ^ ((eh48_5.collisionBitLength + 1) * 2 ^ r) ≤ 2 ^ (9 * 2 ^ 1) := by
      rw [hbits]
      exact Nat.pow_le_pow_right (by decide) (Nat.mul_le_mul_left 9 (Nat.pow_le_pow_right (by decide) hlow))
    omega
  · match L, htree with
    | [], _ => exact Nat.two_pow_pos 31
    | l :: _, htree =>
      exact absurd (htree l mem_cons_self)
        (IndexTree.none_above (show 2 ≤ r by omega) not_indexTree_pairedHash_two l)

theorem basicSolve_offers_pairedHash : SmallLevels pairedHash ∧
    ∃ offered, eh48_5.basicSolve quietEnv pairedHash = .ok (false, offered) ∧ offered.Nodup ∧
      ∀ soln, soln ∈ offered ↔ eh48_5.isValidSolution pairedHash soln = .ok true :=
  ⟨smallLevels_pairedHash, basicSolve_offers eh48_5 (by simp [Supported, eh48_5]) pairedHash quietEnv (fun _ => rfl)
    (fun _ => rfl) smallLevels_pairedHash⟩

/-! ### Too many trees -/

def zeroHash : eh48_5.HashFn := fun _ => .replicate _ 0

private theorem xorHashes_zeroHash (l : List EhIndex) : eh48_5.xorHashes zeroHash l = 0 := by
  have hzero : ∀ n, beValue (List.replicate n 0) = 0 := by
    intro n
    induction n with
    | zero => rfl
    | succ n ih => rw [replicate_succ, beValue_cons, ih, UInt8.toNat_zero, Nat.zero_mul]
  have hindex : ∀ i, eh48_5.indexHash zeroHash i = 0 := by
    intro i
    rw [indexHash, hashBytes, zeroHash, Vector.toList_replicate, drop_replicate, take_replicate, hzero]
  induction l with
  | nil => rfl
  | cons i l ih =>
    change eh48_5.indexHash zeroHash i ^^^ eh48_5.xorHashes zeroHash l = 0
    rw [hindex, ih, Nat.xor_zero]

private theorem joins_zeroHash (hdisj : List.Disjoint a b) (hord : ∀ i ∈ a.head?, ∀ i' ∈ b.head?, i < i') :
    eh48_5.Joins zeroHash r a b :=
  ⟨by rw [xorHashes_zeroHash, xorHashes_zeroHash], hdisj, hord⟩

private theorem indexTree_pair {a b : EhIndex} (hab : a < b) (hb : b < 512) : IndexTree zeroHash 1 [a, b] := by
  refine .node (a := [a]) (b := [b]) (.leaf (hab.trans hb : a < 512)) (.leaf hb) (joins_zeroHash ?_ ?_)
  · simp [hab.ne']
  · simpa using hab

private theorem indexTree_quadruple {a b c d : EhIndex} (hab : a < b) (hbc : b < c) (hcd : c < d) (hd : d < 512) :
    IndexTree zeroHash 2 [a, b, c, d] := by
  refine .node (indexTree_pair hab (hbc.trans (hcd.trans hd))) (indexTree_pair hcd hd) (joins_zeroHash ?_ ?_)
  · have h1 := (hab.trans hbc).ne'
    have h2 := (hab.trans (hbc.trans hcd)).ne'
    simp [h1, h2, hbc.ne', (hbc.trans hcd).ne']
  · simpa using hab.trans hbc

private theorem le_length_zeroHash (hmem : ∀ l, l ∈ L ↔ IndexTree zeroHash 2 l) :
    2 ^ 31 ≤ L.length := by
  have hcount : (Finset.powersetCard 4 (Finset.range 512)).card ≤ L.toFinset.card := by
    refine Finset.card_le_card_of_injOn (fun S : Finset Nat => S.sort) (fun S hS => ?_) fun S _ S' _ heq => ?_
    · obtain ⟨hsub, hcard⟩ := Finset.mem_powersetCard.1 (Finset.mem_coe.1 hS)
      have hsort := (Finset.sortedLT_sort S).pairwise
      have hlt : ∀ i ∈ S.sort, i < 512 := fun i hi => Finset.mem_range.1 (hsub ((Finset.mem_sort _).1 hi))
      have hlen : S.sort.length = 4 := (Finset.length_sort _).trans hcard
      rw [Finset.mem_coe, mem_toFinset, hmem]
      dsimp only
      generalize S.sort = l at hlen hsort hlt
      match l, hlen with
      | [a, b, c, d], _ =>
        simp only [pairwise_cons, mem_cons, not_mem_nil, or_false, forall_eq_or_imp, forall_eq] at hsort
        obtain ⟨⟨hab, -, -⟩, ⟨hbc, -⟩, hcd, -⟩ := hsort
        exact indexTree_quadruple hab hbc hcd (hlt d (by simp))
    · have hset := congrArg List.toFinset heq
      rwa [Finset.sort_toFinset, Finset.sort_toFinset] at hset
  rw [Finset.card_powersetCard, Finset.card_range, Nat.choose_eq_descFactorial_div_factorial] at hcount
  have hchoose : 2 ^ 31 ≤ Nat.descFactorial 512 4 / Nat.factorial 4 := by decide
  exact hchoose.trans (hcount.trans (toFinset_card_le L))

/-- In the third round there are too many rows. -/
theorem basicSolve_overflow :
    eh48_5.basicSolve quietEnv zeroHash = .error (.undefined "int overflow") := by
  have hcan : ∀ pos, quietEnv.cancelled pos = false := fun _ => rfl
  have hsmall : ∀ {r : Nat} {X : List Row} {L : List (List EhIndex)}, r ≤ 1 → Level zeroHash r X L → X.length < 2 ^ 31 := by
    intro r X L hr hX
    refine hX.length_lt fun L' hnodup htree => ?_
    have hpow : 2 ^ ((eh48_5.collisionBitLength + 1) * 2 ^ r) ≤ 2 ^ (9 * 2 ^ 1) :=
      Nat.pow_le_pow_right (by decide) (Nat.mul_le_mul_left 9 (Nat.pow_le_pow_right (by decide) hr))
    have := (length_le_of_indexTree hnodup htree).trans hpow
    omega
  obtain ⟨X₀, L₀, hgen, hX0⟩ := generateList_level zeroHash suitable_eh48_5 (by decide) hcan
  obtain ⟨X₁, L₁, hround1, hX1⟩ := solveRound_level suitable_eh48_5 hcan (r := 0) (by decide) hX0
    (hsmall (Nat.zero_le 1) hX0)
  obtain ⟨X₂, L₂, hround2, hX2⟩ := solveRound_level suitable_eh48_5 hcan (r := 1) (by decide) hX1
    (hsmall le_rfl hX1)
  have hsize : 2 ^ 31 ≤ X₂.length := by
    rw [hX2.rows.length_eq, length_map]
    exact le_length_zeroHash hX2.mem
  have hround3 := eh48_5.solveRound_overflow hcan 4 16 hsize fun a ha b hb => by
    obtain ⟨l, -, rfl⟩ := mem_map.1 (hX2.rows.mem_iff.1 ha)
    obtain ⟨l', -, rfl⟩ := mem_map.1 (hX2.rows.mem_iff.1 hb)
    rw [hasCollision_rowOf zeroHash (by decide), xorHashes_zeroHash, xorHashes_zeroHash]
  have h0 := hX0.length_pos (.leaf (i := 0) (by decide))
  have h1 := hX1.length_pos (indexTree_pair (a := 0) (b := 1) (by decide) (by decide))
  have hrs : eh48_5.solveRounds quietEnv 4 X₀ 6 4 = .error (.undefined "int overflow") := by
    rw [solveRounds, if_pos h0]
    change (eh48_5.solveRound quietEnv X₀ ((eh48_5.K + 1 - 0) * eh48_5.collisionByteLength) (4 * 2 ^ 0) >>= _) = _
    rw [hround1]
    change eh48_5.solveRounds quietEnv 3 X₁ 5 8 = _
    rw [solveRounds, if_pos h1]
    change (eh48_5.solveRound quietEnv X₁ ((eh48_5.K + 1 - 1) * eh48_5.collisionByteLength) (4 * 2 ^ 1) >>= _) = _
    rw [hround2]
    change eh48_5.solveRounds quietEnv 2 X₂ 4 16 = _
    rw [solveRounds, if_pos (by omega), hround3]
    rfl
  rw [basicSolve, hgen]
  change (eh48_5.solveRounds quietEnv 4 X₀ 6 4 >>= _) = _
  rw [hrs]
  rfl

end Equihash

end LitecoinZ
