import Mathlib.Algebra.Group.Action.Defs
import Mathlib.Algebra.Order.BigOperators.Group.List
import Mathlib.Algebra.Order.Group.Nat
import Mathlib.Data.List.Sort
import LitecoinZ.Consensus.ArithUint256
import LitecoinZ.Primitives.Transaction

/-!
# The difficulty adjustment

`GetNextWorkRequired`, `CalculateNextWorkRequired` and the range test of `CheckProofOfWork` of `pow.cpp`, with the parameters
of `consensus/params.h`.  A chain is the list of its blocks from the last one back to the genesis block.  For parameters that
are `Sound` the computation is exact: the target of the next block is `target` of the average target and of the timespan
between the medians (`calculateNextWorkRequired_eq`), which is monotone in both.
-/

namespace LitecoinZ

open List

/-- The parameters of the proof of work in `Consensus::Params`. -/
structure PowParams where
  powLimit : Uint256
  nPowAveragingWindow : Int
  nPowMaxAdjustDown : Int
  nPowMaxAdjustUp : Int
  nPowTargetSpacing : Int

variable (p : PowParams)

namespace PowParams

def averagingWindowTimespan : Except Fault Int := checked (p.nPowAveragingWindow * p.nPowTargetSpacing)

def minActualTimespan : Except Fault Int := do
  let timespan ← p.averagingWindowTimespan
  let percent ← checked (100 - p.nPowMaxAdjustUp)
  let product ← checked (timespan * percent)
  pure (product.tdiv 100)

def maxActualTimespan : Except Fault Int := do
  let timespan ← p.averagingWindowTimespan
  let percent ← checked (100 + p.nPowMaxAdjustDown)
  let product ← checked (timespan * percent)
  pure (product.tdiv 100)

end PowParams

/-- The fields of a `CBlockIndex` that the adjustment reads. -/
structure PowBlock where
  nTime : UInt32
  nBits : UInt32
  deriving DecidableEq

/-- `CBlockIndex::GetMedianTimePast`. -/
def getMedianTimePast (chain : List PowBlock) : Except Fault Int :=
  let pmedian := ((chain.take 11).map fun block => (block.nTime.toNat : Int)).insertionSort (· ≤ ·)
  match pmedian[pmedian.length / 2]? with
  | some nTime => .ok nTime
  | none => .error (.exception "null pointer")

/-- The timespan, dampened and within its bounds. -/
def limitTimespan (nActualTimespan : Int) : Except Fault Int := do
  let timespan ← p.averagingWindowTimespan
  let difference ← checked (nActualTimespan - timespan)
  let nActualTimespan ← checked (timespan + difference.tdiv 4)
  let lower ← p.minActualTimespan
  let nActualTimespan := if nActualTimespan < lower then lower else nActualTimespan
  let upper ← p.maxActualTimespan
  pure (if nActualTimespan > upper then upper else nActualTimespan)

def calculateNextWorkRequired (bnAvg : Nat) (nLastBlockTime nFirstBlockTime : Int) : Except Fault Nat := do
  let nActualTimespan ← checked (nLastBlockTime - nFirstBlockTime)
  let nActualTimespan ← limitTimespan p nActualTimespan
  let timespan ← p.averagingWindowTimespan
  let bnNew ← arithDiv bnAvg (arithOfInt64 timespan)
  let bnNew := arithMul32 bnNew nActualTimespan
  getCompact (if bnNew > p.powLimit.toNat then p.powLimit.toNat else bnNew) false

/-- The loop over the averaging interval: the sum of the targets and the blocks before the interval. -/
def sumTargets (nPowAveragingWindow : Int) : Int → List PowBlock → Nat → Except Fault (Nat × List PowBlock)
  | _, [], bnTot => .ok (bnTot, [])
  | i, block :: chain, bnTot =>
    if i < nPowAveragingWindow then do
      let next ← checkedInt (i + 1)
      sumTargets nPowAveragingWindow next chain (arithAdd bnTot (setCompact block.nBits.toNat).value)
    else .ok (bnTot, block :: chain)

def getNextWorkRequired (pindexLast : List PowBlock) : Except Fault Nat := do
  let nProofOfWorkLimit ← getCompact p.powLimit.toNat false
  if pindexLast.isEmpty then pure nProofOfWorkLimit
  else
    let (bnTot, pindexFirst) ← sumTargets p.nPowAveragingWindow 0 pindexLast 0
    if pindexFirst.isEmpty then pure nProofOfWorkLimit
    else
      let bnAvg ← arithDiv bnTot (arithOfInt64 p.nPowAveragingWindow)
      let nLastBlockTime ← getMedianTimePast pindexLast
      let nFirstBlockTime ← getMedianTimePast pindexFirst
      calculateNextWorkRequired p bnAvg nLastBlockTime nFirstBlockTime

def checkProofOfWork (hash : Uint256) (nBits : Nat) (p : PowParams) : Except Fault Unit :=
  let bnTarget := setCompact nBits
  if bnTarget.fNegative || bnTarget.value = 0 || bnTarget.fOverflow || bnTarget.value > p.powLimit.toNat then
    .error (.error "CheckProofOfWork(): nBits below minimum work")
  else if hash.toNat > bnTarget.value then .error (.error "CheckProofOfWork(): hash doesn't match nBits")
  else .ok ()

/-! ### The exact computation -/

namespace PowParams

def timespan : Int := p.nPowAveragingWindow * p.nPowTargetSpacing

def minTimespan : Int := p.timespan * (100 - p.nPowMaxAdjustUp) / 100

def maxTimespan : Int := p.timespan * (100 + p.nPowMaxAdjustDown) / 100

/-- The parameters for which nothing overflows. -/
structure Sound (p : PowParams) : Prop where
  window : 0 < p.nPowAveragingWindow ∧ p.nPowAveragingWindow < 2 ^ 31
  spacing : 0 < p.nPowTargetSpacing
  up : 0 ≤ p.nPowMaxAdjustUp ∧ p.nPowMaxAdjustUp ≤ 100
  down : 0 ≤ p.nPowMaxAdjustDown
  min_pos : 0 < p.minTimespan
  max_lt : p.maxTimespan < 2 ^ 32
  room : p.powLimit.toNat / p.timespan.toNat * p.maxTimespan.toNat < 2 ^ 256

/-- The timespan that is used when `nActualTimespan` lies between the medians. -/
def limited (nActualTimespan : Int) : Int :=
  min (max (p.timespan + (nActualTimespan - p.timespan).tdiv 4) p.minTimespan) p.maxTimespan

def nextTarget (average : Nat) (nActualTimespan : Int) : Nat :=
  min p.powLimit.toNat (average / p.timespan.toNat * (p.limited nActualTimespan).toNat)

def average (chain : List PowBlock) : Nat :=
  ((chain.take p.nPowAveragingWindow.toNat).map fun block => (setCompact block.nBits.toNat).value).sum /
    p.nPowAveragingWindow.toNat

variable {p : PowParams}

theorem limited_mono {d d' : Int} (h : d ≤ d') : p.limited d ≤ p.limited d' := by
  have := Int.tdiv_le_tdiv (show (0 : Int) < 4 by decide) (show d - p.timespan ≤ d' - p.timespan by omega)
  unfold limited
  omega

variable {average : Nat}

section

variable (h : p.Sound)
include h

theorem Sound.timespan_pos : 0 < p.timespan := Int.mul_pos h.window.1 h.spacing

theorem Sound.product_lt : p.timespan * (100 + p.nPowMaxAdjustDown) < 2 ^ 39 := by
  have := h.max_lt
  unfold maxTimespan at this
  omega

theorem Sound.timespan_lt : p.timespan < 2 ^ 39 ∧ p.nPowMaxAdjustDown < 2 ^ 39 := by
  have hpos := h.timespan_pos
  have hdown := h.down
  have hproduct := h.product_lt
  have h1 := Int.mul_le_mul_of_nonneg_left (show 1 ≤ 100 + p.nPowMaxAdjustDown by omega) (le_of_lt hpos)
  have h2 := Int.mul_le_mul_of_nonneg_right (show 1 ≤ p.timespan by omega) (show 0 ≤ 100 + p.nPowMaxAdjustDown by omega)
  omega

theorem Sound.min_le : p.minTimespan ≤ p.timespan ∧ p.timespan ≤ p.maxTimespan := by
  have hpos := h.timespan_pos
  have hdown := h.down
  have hup := h.up
  have h1 := Int.mul_le_mul_of_nonneg_left (show 100 - p.nPowMaxAdjustUp ≤ 100 by omega) (le_of_lt hpos)
  have h2 := Int.mul_le_mul_of_nonneg_left (show 100 ≤ 100 + p.nPowMaxAdjustDown by omega) (le_of_lt hpos)
  unfold minTimespan maxTimespan
  omega

theorem Sound.averagingWindowTimespan_eq : p.averagingWindowTimespan = .ok p.timespan := by
  have hpos := h.timespan_pos
  have hlt := h.timespan_lt.1
  exact checked_ok ⟨by change _ ≤ p.timespan; omega, by change p.timespan < _; omega⟩

theorem Sound.minActualTimespan_eq : p.minActualTimespan = .ok p.minTimespan := by
  have hpos := h.timespan_pos
  have hlt := h.timespan_lt.1
  have hup := h.up
  have h0 : 0 ≤ p.timespan * (100 - p.nPowMaxAdjustUp) := Int.mul_nonneg (le_of_lt hpos) (by omega)
  have h1 := Int.mul_le_mul_of_nonneg_left (show 100 - p.nPowMaxAdjustUp ≤ 100 by omega) (le_of_lt hpos)
  rw [minActualTimespan, h.averagingWindowTimespan_eq]
  change (checked (100 - p.nPowMaxAdjustUp) >>= _) = _
  rw [checked_ok ⟨by omega, by omega⟩]
  change (checked (p.timespan * (100 - p.nPowMaxAdjustUp)) >>= _) = _
  rw [checked_ok ⟨by omega, by omega⟩]
  exact congrArg Except.ok (Int.tdiv_eq_ediv_of_nonneg h0)

theorem Sound.maxActualTimespan_eq : p.maxActualTimespan = .ok p.maxTimespan := by
  have hpos := h.timespan_pos
  have hlt := h.timespan_lt.2
  have hdown := h.down
  have hproduct := h.product_lt
  have h0 : 0 ≤ p.timespan * (100 + p.nPowMaxAdjustDown) := Int.mul_nonneg (le_of_lt hpos) (by omega)
  rw [maxActualTimespan, h.averagingWindowTimespan_eq]
  change (checked (100 + p.nPowMaxAdjustDown) >>= _) = _
  rw [checked_ok ⟨by omega, by omega⟩]
  change (checked (p.timespan * (100 + p.nPowMaxAdjustDown)) >>= _) = _
  rw [checked_ok ⟨by omega, by omega⟩]
  exact congrArg Except.ok (Int.tdiv_eq_ediv_of_nonneg h0)

theorem Sound.limited_range (d : Int) : p.minTimespan ≤ p.limited d ∧ p.limited d ≤ p.maxTimespan := by
  have := h.min_le
  unfold limited
  omega

theorem Sound.limitTimespan_eq {d : Int} (h0 : -2 ^ 32 < d) (h1 : d < 2 ^ 32) : limitTimespan p d = .ok (p.limited d) := by
  have hpos := h.timespan_pos
  have hlt := h.timespan_lt.1
  have hupper := Int.tdiv_le_tdiv (show (0 : Int) < 4 by decide) (show d - p.timespan ≤ 2 ^ 32 by omega)
  have hlower := Int.tdiv_le_tdiv (show (0 : Int) < 4 by decide) (show -2 ^ 40 ≤ d - p.timespan by omega)
  rw [show (2 ^ 32 : Int).tdiv 4 = 2 ^ 30 from rfl] at hupper
  rw [show (-2 ^ 40 : Int).tdiv 4 = -2 ^ 38 from rfl] at hlower
  rw [limitTimespan, h.averagingWindowTimespan_eq, h.minActualTimespan_eq, h.maxActualTimespan_eq]
  change (checked (d - p.timespan) >>= _) = _
  rw [checked_ok ⟨by omega, by omega⟩]
  change (checked (p.timespan + (d - p.timespan).tdiv 4) >>= _) = _
  rw [checked_ok ⟨by omega, by omega⟩]
  refine congrArg Except.ok ?_
  have hle := h.min_le
  unfold limited
  generalize p.timespan + (d - p.timespan).tdiv 4 = n
  by_cases hmin : n < p.minTimespan
  · rw [if_pos hmin, if_neg (by omega)]
    omega
  · rw [if_neg hmin]
    by_cases hmax : n > p.maxTimespan
    · rw [if_pos hmax]
      omega
    · rw [if_neg hmax]
      omega

theorem Sound.nextTarget_exact (havg : average ≤ p.powLimit.toNat) (d : Int) :
    arithMul32 (average / p.timespan.toNat) (p.limited d) = average / p.timespan.toNat * (p.limited d).toNat := by
  have hmin := h.min_pos
  have hmax := h.max_lt
  obtain ⟨hlower, hupper⟩ := h.limited_range d
  have hle : average / p.timespan.toNat * (p.limited d).toNat ≤ p.powLimit.toNat / p.timespan.toNat * p.maxTimespan.toNat :=
    Nat.mul_le_mul (Nat.div_le_div_right havg) (by omega)
  unfold arithMul32
  rw [Int.emod_eq_of_lt (by omega) (by omega)]
  exact Nat.mod_eq_of_lt (hle.trans_lt h.room)

theorem Sound.calculateNextWorkRequired_eq (havg : average ≤ p.powLimit.toNat) {nLast nFirst : Int}
    (hlast : 0 ≤ nLast ∧ nLast < 2 ^ 32) (hfirst : 0 ≤ nFirst ∧ nFirst < 2 ^ 32) :
    ∃ nBits, calculateNextWorkRequired p average nLast nFirst = .ok nBits ∧
      setCompact nBits =
        { value := compactTruncate (p.nextTarget average (nLast - nFirst)), fNegative := false, fOverflow := false } := by
  have hpos := h.timespan_pos
  have hlt := h.timespan_lt.1
  have hlimit : p.powLimit.toNat < 2 ^ 256 := p.powLimit.isLt
  obtain ⟨nBits, hcode, -, hset⟩ := @setCompact_getCompact (p.nextTarget average (nLast - nFirst))
    (lt_of_le_of_lt (Nat.min_le_left _ _) hlimit)
  refine ⟨nBits, ?_, hset⟩
  have htimespan : arithOfInt64 p.timespan = p.timespan.toNat := by
    rw [arithOfInt64, Int.emod_eq_of_lt (by omega) (by omega)]
  rw [calculateNextWorkRequired, checked_ok ⟨by omega, by omega⟩]
  change (limitTimespan p (nLast - nFirst) >>= _) = _
  rw [h.limitTimespan_eq (by omega) (by omega), h.averagingWindowTimespan_eq]
  change (arithDiv average (arithOfInt64 p.timespan) >>= _) = _
  rw [arithDiv, htimespan, if_neg (by omega)]
  change getCompact (if arithMul32 (average / p.timespan.toNat) (p.limited (nLast - nFirst)) > p.powLimit.toNat then _
    else arithMul32 (average / p.timespan.toNat) (p.limited (nLast - nFirst))) false = _
  rw [h.nextTarget_exact havg, ← hcode]
  congr 1
  unfold nextTarget
  split <;> omega

theorem Sound.nextTarget_pos (hlimit : 0 < p.powLimit.toNat) (havg : p.timespan ≤ average) (d : Int) :
    0 < p.nextTarget average d := by
  have hpos := h.timespan_pos
  have hmin := h.min_pos
  have hlower := (h.limited_range d).1
  have hquotient : 0 < average / p.timespan.toNat := Nat.div_pos (by omega) (by omega)
  exact Nat.lt_min.2 ⟨hlimit, Nat.mul_pos hquotient (by omega)⟩

end

theorem nextTarget_mono {average' : Nat} {d d' : Int} (havg : average ≤ average') (hd : d ≤ d') :
    p.nextTarget average d ≤ p.nextTarget average' d' := by
  have hlimited := limited_mono (p := p) hd
  have hle : average / p.timespan.toNat * (p.limited d).toNat ≤ average' / p.timespan.toNat * (p.limited d').toNat :=
    Nat.mul_le_mul (Nat.div_le_div_right havg) (by omega)
  unfold nextTarget
  omega

end PowParams

/-! ### The chain -/

def targetOf (block : PowBlock) : Nat := (setCompact block.nBits.toNat).value

variable {chain : List PowBlock}

theorem sumTargets_eq {window i : Int} (h0 : 0 ≤ i) (hi : i ≤ window) (hwin : window < 2 ^ 31)
    (hlen : window - i ≤ chain.length) {bnTot : Nat}
    (hsum : bnTot + ((chain.take (window - i).toNat).map targetOf).sum < 2 ^ 256) :
    sumTargets window i chain bnTot =
      .ok (bnTot + ((chain.take (window - i).toNat).map targetOf).sum, chain.drop (window - i).toNat) := by
  induction chain generalizing i bnTot with
  | nil => 
    rw [sumTargets, take_nil, drop_nil]
    rfl
  | cons block chain ih =>
    rw [sumTargets]
    split
    · rename_i hlt
      obtain ⟨n, hn⟩ : ∃ n : Nat, (window - i).toNat = n + 1 := ⟨(window - i).toNat - 1, by omega⟩
      have hn' : (window - (i + 1)).toNat = n := by omega
      rw [hn, take_succ_cons, map_cons, sum_cons] at hsum
      rw [hn, take_succ_cons, map_cons, sum_cons, drop_succ_cons, checkedInt_ok (by omega) (by omega)]
      change sumTargets window (i + 1) chain (arithAdd bnTot (targetOf block)) = _
      rw [arithAdd, Nat.mod_eq_of_lt (by omega)]
      have hlen' : window - (i + 1) ≤ chain.length := by
        rw [length_cons] at hlen
        push_cast at hlen
        omega
      rw [ih (by omega) (by omega) hlen' (by rw [hn']; omega), hn', Nat.add_assoc]
    · have hzero : (window - i).toNat = 0 := by omega
      rw [hzero]
      rfl

theorem getMedianTimePast_range (h : chain ≠ []) :
    ∃ nTime, getMedianTimePast chain = .ok nTime ∧ 0 ≤ nTime ∧ nTime < 2 ^ 32 := by
  unfold getMedianTimePast
  generalize hmedian : ((chain.take 11).map fun block => (block.nTime.toNat : Int)).insertionSort (· ≤ ·) = pmedian
  have hlen : 0 < pmedian.length := by
    rw [← hmedian, length_insertionSort, length_map, length_take]
    have := length_pos_iff.2 h
    omega
  have hindex : pmedian.length / 2 < pmedian.length := by omega
  dsimp only
  rw [getElem?_eq_getElem hindex]
  refine ⟨_, rfl, ?_⟩
  have hmem : pmedian[pmedian.length / 2] ∈ (chain.take 11).map fun block => (block.nTime.toNat : Int) := by
    rw [← mem_insertionSort (· ≤ ·), hmedian]
    exact getElem_mem hindex
  obtain ⟨block, -, hblock⟩ := mem_map.1 hmem
  have hlt : block.nTime.toNat < 2 ^ 32 := block.nTime.toNat_lt
  rw [← hblock]
  omega

theorem checkProofOfWork_eq {hash : Uint256} {nBits target : Nat} {p : PowParams}
    (h : setCompact nBits = { value := target, fNegative := false, fOverflow := false }) (hpos : 0 < target)
    (hle : target ≤ p.powLimit.toNat) : checkProofOfWork hash nBits p =
      if hash.toNat > target then .error (.error "CheckProofOfWork(): hash doesn't match nBits") else .ok () := by
  unfold checkProofOfWork
  rw [h]
  dsimp only
  rw [if_neg (by simp; omega)]

theorem average_le {p : PowParams} (h : ∀ block ∈ chain, targetOf block ≤ p.powLimit.toNat) :
    p.average chain ≤ p.powLimit.toNat ∧
      ((chain.take p.nPowAveragingWindow.toNat).map targetOf).sum ≤ p.nPowAveragingWindow.toNat * p.powLimit.toNat := by
  have hsum : ((chain.take p.nPowAveragingWindow.toNat).map targetOf).sum ≤ p.nPowAveragingWindow.toNat * p.powLimit.toNat := by
    have hle := sum_le_card_nsmul ((chain.take p.nPowAveragingWindow.toNat).map targetOf) p.powLimit.toNat (by
      intro x hx
      obtain ⟨block, hblock, rfl⟩ := mem_map.1 hx
      exact h block (mem_of_mem_take hblock))
    rw [smul_eq_mul, length_map, length_take] at hle
    exact hle.trans (Nat.mul_le_mul_right _ (Nat.min_le_left _ _))
  refine ⟨?_, hsum⟩
  exact Nat.div_le_of_le_mul hsum

/-- A chain that fills the averaging window with targets within the limit. -/
structure Windowed (p : PowParams) (chain : List PowBlock) : Prop where
  limit : p.nPowAveragingWindow * p.powLimit.toNat < 2 ^ 256
  length : p.nPowAveragingWindow + 1 ≤ chain.length
  targets : ∀ block ∈ chain, (setCompact block.nBits.toNat).fNegative = false ∧
    (setCompact block.nBits.toNat).fOverflow = false ∧ targetOf block ≠ 0 ∧ targetOf block ≤ p.powLimit.toNat
  average : p.timespan ≤ p.average chain

/-- The next target is exact and in range, lies between the bounds of the adjustment and is monotone. -/
theorem getNextWorkRequired_range {p : PowParams} (hp : p.Sound) {chain : List PowBlock} (h : Windowed p chain) :
    (∃ nLast nFirst nBits target, getMedianTimePast chain = .ok nLast ∧
      getMedianTimePast (chain.drop p.nPowAveragingWindow.toNat) = .ok nFirst ∧
      sumTargets p.nPowAveragingWindow 0 chain 0 =
        .ok (((chain.take p.nPowAveragingWindow.toNat).map targetOf).sum, chain.drop p.nPowAveragingWindow.toNat) ∧
      arithMul32 (p.average chain / p.timespan.toNat) (p.limited (nLast - nFirst)) =
        p.average chain / p.timespan.toNat * (p.limited (nLast - nFirst)).toNat ∧
      getNextWorkRequired p chain = .ok nBits ∧
      setCompact nBits = { value := target, fNegative := false, fOverflow := false } ∧
      0 < target ∧ target ≤ p.powLimit.toNat ∧
      (∀ hash, checkProofOfWork hash nBits p =
        if hash.toNat > target then .error (.error "CheckProofOfWork(): hash doesn't match nBits") else .ok ()) ∧
      compactTruncate (min p.powLimit.toNat (p.average chain / p.timespan.toNat * p.minTimespan.toNat)) ≤ target ∧
      target ≤ compactTruncate (min p.powLimit.toNat (p.average chain / p.timespan.toNat * p.maxTimespan.toNat))) ∧
    ∀ {average average' : Nat} {nLast nFirst nLast' nFirst' : Int}, average ≤ average' → average' ≤ p.powLimit.toNat →
      nLast - nFirst ≤ nLast' - nFirst' → 0 ≤ nLast → nLast < 2 ^ 32 → 0 ≤ nFirst → nFirst < 2 ^ 32 →
      0 ≤ nLast' → nLast' < 2 ^ 32 → 0 ≤ nFirst' → nFirst' < 2 ^ 32 →
      ∃ nBits nBits', calculateNextWorkRequired p average nLast nFirst = .ok nBits ∧
        calculateNextWorkRequired p average' nLast' nFirst' = .ok nBits' ∧
        (setCompact nBits).value ≤ (setCompact nBits').value := by
  obtain ⟨hlimit, hlen, htargets, havg⟩ := h
  have hwin := hp.window
  have hpos := hp.timespan_pos
  have hne : chain ≠ [] := by
    rintro rfl
    rw [length_nil] at hlen
    omega
  obtain ⟨hle, hsum⟩ := average_le fun block hblock => (htargets block hblock).2.2.2
  have hlimit' : p.nPowAveragingWindow.toNat * p.powLimit.toNat < 2 ^ 256 := by
    have hcast : ((p.nPowAveragingWindow.toNat * p.powLimit.toNat : Nat) : Int) < 2 ^ 256 := by
      push_cast
      rw [Int.toNat_of_nonneg (le_of_lt hwin.1)]
      exact hlimit
    exact_mod_cast hcast
  have hlimit0 : 0 < p.powLimit.toNat := by
    obtain ⟨block, hblock⟩ := exists_mem_of_ne_nil _ hne
    have := htargets block hblock
    omega
  constructor
  · have hrest : chain.drop p.nPowAveragingWindow.toNat ≠ [] := by
      intro hnil
      have := drop_eq_nil_iff.1 hnil
      omega
    obtain ⟨nLast, hlast, hlast'⟩ := getMedianTimePast_range hne
    obtain ⟨nFirst, hfirst, hfirst'⟩ := getMedianTimePast_range hrest
    obtain ⟨nBits, hcode, hset⟩ := hp.calculateNextWorkRequired_eq hle hlast' hfirst'
    have hpositive := Truncation.truncate_pos (b := 8) (p := 2) (by decide) (by decide)
      (Nat.ne_of_gt (hp.nextTarget_pos hlimit0 havg (nLast - nFirst)))
    have hbelow : compactTruncate (p.nextTarget (p.average chain) (nLast - nFirst)) ≤ p.powLimit.toNat :=
      Truncation.truncate_le.trans (Nat.min_le_left _ _)
    have hexact : 0 + ((chain.take (p.nPowAveragingWindow - 0).toNat).map targetOf).sum < 2 ^ 256 := by
      rw [Int.sub_zero]
      omega
    have htotal := sumTargets_eq (le_refl 0) (le_of_lt hwin.1) hwin.2 (show _ ≤ (chain.length : Int) by omega) hexact
    rw [Int.sub_zero, Nat.zero_add] at htotal
    obtain ⟨hlower, hupper⟩ := hp.limited_range (nLast - nFirst)
    refine ⟨nLast, nFirst, nBits, _, hlast, hfirst, htotal, hp.nextTarget_exact hle _, ?_, hset, hpositive, hbelow,
      fun hash => checkProofOfWork_eq hset hpositive hbelow, ?_, ?_⟩
    · obtain ⟨limit, hlimitCode, -⟩ := setCompact_getCompact p.powLimit.isLt
      have hwindowNat : arithOfInt64 p.nPowAveragingWindow = p.nPowAveragingWindow.toNat := by
        rw [arithOfInt64, Int.emod_eq_of_lt (by omega) (by omega)]
      rw [getNextWorkRequired, hlimitCode]
      change (if chain.isEmpty = true then _ else _) = _
      rw [if_neg (by rwa [List.isEmpty_iff]), htotal]
      change (if (chain.drop p.nPowAveragingWindow.toNat).isEmpty = true then _ else _) = _
      rw [if_neg (by rwa [List.isEmpty_iff]), hwindowNat, arithDiv, if_neg (by omega), hlast, hfirst]
      exact hcode
    · refine Truncation.truncate_mono (by decide) (by decide) ?_
      have hmul := Nat.mul_le_mul_left (p.average chain / p.timespan.toNat)
        (show p.minTimespan.toNat ≤ (p.limited (nLast - nFirst)).toNat by omega)
      unfold PowParams.nextTarget
      omega
    · refine Truncation.truncate_mono (by decide) (by decide) ?_
      have hmul := Nat.mul_le_mul_left (p.average chain / p.timespan.toNat)
        (show (p.limited (nLast - nFirst)).toNat ≤ p.maxTimespan.toNat by omega)
      unfold PowParams.nextTarget
      omega
  · intro average average' nLast nFirst nLast' nFirst' havg' hle' hd h1 h2 h3 h4 h5 h6 h7 h8
    obtain ⟨nBits, hcode, hset⟩ := hp.calculateNextWorkRequired_eq (havg'.trans hle') ⟨h1, h2⟩ ⟨h3, h4⟩
    obtain ⟨nBits', hcode', hset'⟩ := hp.calculateNextWorkRequired_eq hle' ⟨h5, h6⟩ ⟨h7, h8⟩
    refine ⟨nBits, nBits', hcode, hcode', ?_⟩
    rw [hset, hset']
    exact Truncation.truncate_mono (by decide) (by decide) (PowParams.nextTarget_mono havg' hd)

/-! ### Networks -/

def mainPow : PowParams where
  powLimit := 0x0007ffffffffffffffffffffffffffffffffffffffffffffffffffffffffffff
  nPowAveragingWindow := 17
  nPowMaxAdjustDown := 32
  nPowMaxAdjustUp := 16
  nPowTargetSpacing := 150

def testnetPow : PowParams :=
  { mainPow with powLimit := 0x07ffffffffffffffffffffffffffffffffffffffffffffffffffffffffffffff }

def regtestPow : PowParams :=
  { mainPow with
    powLimit := 0x0f0f0f0f0f0f0f0f0f0f0f0f0f0f0f0f0f0f0f0f0f0f0f0f0f0f0f0f0f0f0f0f
    nPowMaxAdjustDown := 0
    nPowMaxAdjustUp := 0 }

theorem sound_mainPow : mainPow.Sound where
  window := by decide
  spacing := by decide
  up := by decide
  down := by decide
  min_pos := by decide
  max_lt := by decide
  room := by decide +kernel

theorem sound_testnetPow : testnetPow.Sound where
  window := by decide
  spacing := by decide
  up := by decide
  down := by decide
  min_pos := by decide
  max_lt := by decide
  room := by decide +kernel

theorem sound_regtestPow : regtestPow.Sound where
  window := by decide
  spacing := by decide
  up := by decide
  down := by decide
  min_pos := by decide
  max_lt := by decide
  room := by decide +kernel

theorem getNextWorkRequired_range_mainPow : ∃ nBits,
    getNextWorkRequired mainPow (List.replicate 18 ⟨0, 0x1f07ffff⟩) = .ok nBits ∧ checkProofOfWork 0 nBits mainPow = .ok () := by
  have hwindowed : Windowed mainPow (List.replicate 18 ⟨0, 0x1f07ffff⟩) :=
    ⟨by decide +kernel, by decide +kernel, by decide +kernel, by decide +kernel⟩
  obtain ⟨nLast, nFirst, nBits, target, -, -, -, -, hbits, -, -, -, hcheck, -⟩ :=
    (getNextWorkRequired_range sound_mainPow hwindowed).1
  exact ⟨nBits, hbits, (hcheck 0).trans (if_neg (Nat.not_lt_zero _))⟩

theorem sumTargets_overflow {window i : Int} (hwin : 2 ^ 31 ≤ window) (h0 : 0 ≤ i) (hi : i < 2 ^ 31)
    (hlen : 2 ^ 31 ≤ i + chain.length) (bnTot : Nat) :
    sumTargets window i chain bnTot = .error .overflow := by
  induction chain generalizing i bnTot with
  | nil =>
    rw [length_nil] at hlen
    omega
  | cons block chain ih =>
    rw [length_cons] at hlen
    push_cast at hlen
    rw [sumTargets, if_pos (by omega), checkedInt]
    split
    · exact ih (by omega) (by omega) (by omega) _
    · rfl

/-- The main network with a window of `2 ^ 31` blocks. -/
def longPow : PowParams := { mainPow with powLimit := BitVec.ofNat 256 (2 ^ 200), nPowAveragingWindow := 2 ^ 31 }

theorem getNextWorkRequired_longPow {n : Nat} (hn : n = 2 ^ 31 + 1) :
    Windowed longPow (List.replicate n ⟨0, 0x19010000⟩) ∧
      getNextWorkRequired longPow (List.replicate n ⟨0, 0x19010000⟩) = .error .overflow := by
  have hlen : ((List.replicate n (⟨0, 0x19010000⟩ : PowBlock)).length : Int) = 2 ^ 31 + 1 := by
    rw [length_replicate, hn]
    rfl
  refine ⟨⟨by decide +kernel, le_of_eq hlen.symm, ?_, ?_⟩, ?_⟩
  · intro block hblock
    rw [eq_of_mem_replicate hblock]
    decide +kernel
  · have hwin : longPow.nPowAveragingWindow.toNat = 2 ^ 31 := rfl
    rw [PowParams.average, hwin, take_replicate, map_replicate, sum_replicate, hn, smul_eq_mul,
      Nat.min_eq_left (Nat.le_succ _), Nat.mul_div_cancel_left _ (Nat.two_pow_pos 31)]
    decide +kernel
  · obtain ⟨limit, hlimit, -⟩ := setCompact_getCompact longPow.powLimit.isLt
    have hne : ¬ (List.replicate n (⟨0, 0x19010000⟩ : PowBlock)).isEmpty = true := by
      rw [List.isEmpty_iff, replicate_eq_nil_iff]
      omega
    rw [getNextWorkRequired, hlimit]
    change (if _ then _ else _) = _
    have hwin : 2 ^ 31 ≤ longPow.nPowAveragingWindow := le_refl _
    rw [if_neg hne, sumTargets_overflow hwin (le_refl 0) (by decide) (by rw [hlen]; decide)]
    rfl

/-- With other parameters the product wraps around, the multiplier is zero or cut off, the division fails or the loop does. -/
theorem getNextWorkRequired_unsound :
    (∃ p chain nBits, Windowed p chain ∧ getNextWorkRequired p chain = .ok nBits ∧
      (setCompact nBits).value <
        compactTruncate (min p.powLimit.toNat (p.average chain / p.timespan.toNat * p.minTimespan.toNat))) ∧
    (∃ chain nBits, Windowed { mainPow with nPowMaxAdjustUp := 100 } chain ∧
      getNextWorkRequired { mainPow with nPowMaxAdjustUp := 100 } chain = .ok nBits ∧ (setCompact nBits).value = 0) ∧
    (∃ chain nBits, Windowed { regtestPow with nPowTargetSpacing := 2 ^ 32 } chain ∧
      getNextWorkRequired { regtestPow with nPowTargetSpacing := 2 ^ 32 } chain = .ok nBits ∧ (setCompact nBits).value = 0) ∧
    (∃ chain, Windowed { mainPow with nPowTargetSpacing := 0 } chain ∧
      getNextWorkRequired { mainPow with nPowTargetSpacing := 0 } chain = .error (.exception "Division by zero")) ∧
    ∃ chain, Windowed longPow chain ∧ getNextWorkRequired longPow chain = .error .overflow := by
  refine ⟨⟨{ mainPow with powLimit := BitVec.allOnes 256, nPowAveragingWindow := 1 },
      [⟨1000000, 0x2100ffff⟩, ⟨0, 0x2100ffff⟩], 0x2051ea33, ⟨?_, ?_, ?_, ?_⟩, ?_, ?_⟩,
    ⟨List.replicate 17 ⟨0, 0x1f07ffff⟩ ++ [⟨4000000000, 0x1f07ffff⟩], 0, ⟨?_, ?_, ?_, ?_⟩, ?_, rfl⟩,
    ⟨List.replicate 18 ⟨0, 0x1f07ffff⟩, 0, ⟨?_, ?_, ?_, ?_⟩, ?_, rfl⟩,
    ⟨List.replicate 18 ⟨0, 0x1f07ffff⟩, ⟨?_, ?_, ?_, ?_⟩, ?_⟩, ⟨_, getNextWorkRequired_longPow rfl⟩⟩
  all_goals decide +kernel

end LitecoinZ
