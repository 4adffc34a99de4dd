import Mathlib.Data.Nat.Bitwise
import LitecoinZ.Consensus.Validation
import LitecoinZ.Lib.Truncation

/-!
# 256-bit numbers and their compact form

`arith_uint256` of `arith_uint256.cpp`: the operators as far as the difficulty adjustment uses them, on natural numbers
modulo `2 ^ 256`, and `SetCompact` and `GetCompact`.  The compact form keeps the leading three bytes of a number, or two of
them if the highest bit of the first one is set; decoding it gives the number truncated to them (`setCompact_getCompact`).
-/

namespace LitecoinZ

open Truncation

/-- The number from an `int64_t`, by way of `uint64_t`. -/
def arithOfInt64 (n : Int) : Nat := (n % 2 ^ 64).toNat

/-- `operator+=`. -/
def arithAdd (a b : Nat) : Nat := (a + b) % 2 ^ 256

/-- `operator/=`. -/
def arithDiv (a b : Nat) : Except Fault Nat := if b = 0 then .error (.exception "Division by zero") else .ok (a / b)

/-- `operator*=(uint32_t)`, which is the one that an `int64_t` selects. -/
def arithMul32 (a : Nat) (n : Int) : Nat := a * (n % 2 ^ 32).toNat % 2 ^ 256

/-! ### The compact form -/

/-- What `SetCompact` sets. -/
structure CompactTarget where
  value : Nat
  fNegative : Bool
  fOverflow : Bool
  deriving DecidableEq, Repr

/-- The mantissa, shifted if the size is less than three bytes. -/
def compactWord (nCompact : Nat) : Nat :=
  if nCompact >>> 24 ≤ 3 then (nCompact &&& 0x007fffff) >>> (8 * (3 - nCompact >>> 24)) else nCompact &&& 0x007fffff

def setCompact (nCompact : Nat) : CompactTarget :=
  let nSize := nCompact >>> 24
  let nWord := compactWord nCompact
  { value := if nSize ≤ 3 then nWord else nWord <<< (8 * (nSize - 3)) % 2 ^ 256
    fNegative := nWord ≠ 0 && nCompact &&& 0x00800000 ≠ 0
    fOverflow := nWord ≠ 0 && (nSize > 34 || (nWord > 0xff && nSize > 33) || (nWord > 0xffff && nSize > 32)) }

/-- The leading three bytes, `nSize` being the number of bytes. -/
def leadingBytes (a nSize : Nat) : Nat :=
  if nSize ≤ 3 then (a % 2 ^ 64) <<< (8 * (3 - nSize)) % 2 ^ 64 % 2 ^ 32
  else (a >>> (8 * (nSize - 3))) % 2 ^ 64 % 2 ^ 32

/-- The mantissa and the size of the compact form: the bit of the sign is kept clear. -/
def clearSign (nCompact nSize : Nat) : Nat × Nat :=
  if nCompact &&& 0x00800000 ≠ 0 then (nCompact >>> 8, nSize + 1) else (nCompact, nSize)

def getCompact (a : Nat) (fNegative : Bool) : Except Fault Nat := do
  let nSize := (bits a + 7) / 8
  let (nCompact, nSize) := clearSign (leadingBytes a nSize) nSize
  if nCompact &&& 0xff800000 ≠ 0 then throw (.assertion "(nCompact & ~0x007fffff) == 0")
  if ¬ nSize < 256 then throw (.assertion "nSize < 256")
  let nCompact := nCompact ||| nSize <<< 24 % 2 ^ 32
  pure (nCompact ||| if fNegative && nCompact &&& 0x007fffff ≠ 0 then 0x00800000 else 0)

/-- The number that the compact form stands for. -/
def compactTruncate (a : Nat) : Nat := truncate 8 2 a

/-! ### Bits -/

private theorem and_signBit (x : Nat) : x &&& 0x00800000 ≠ 0 ↔ x / 2 ^ 23 % 2 = 1 := by
  have h := Nat.and_two_pow x 23
  rw [Nat.testBit_eq_decide_div_mod_eq] at h
  change x &&& 2 ^ 23 ≠ 0 ↔ _
  rw [h]
  simp

private theorem and_mantissa (x : Nat) : x &&& 0x007fffff = x % 2 ^ 23 := Nat.and_two_pow_sub_one_eq_mod x 23

private theorem and_high {x : Nat} (hx : x < 2 ^ 23) : x &&& 0xff800000 = 0 := by
  refine Nat.eq_of_testBit_eq fun i => ?_
  rw [Nat.testBit_and, Nat.zero_testBit]
  rcases Nat.lt_or_ge i 23 with hlt | hge
  · have hlow : ∀ i < 23, Nat.testBit 0xff800000 i = false := by decide
    rw [hlow i hlt, Bool.and_false]
  · rw [Nat.testBit_lt_two_pow (hx.trans_le (Nat.pow_le_pow_right Nat.two_pos hge)), Bool.false_and]

private theorem or_size {w : Nat} (hw : w < 2 ^ 24) (s : Nat) : w ||| s <<< 24 = s * 2 ^ 24 + w := by
  rw [Nat.or_comm, ← Nat.shiftLeft_add_eq_or_of_lt hw, Nat.shiftLeft_eq]

section

variable {a e k t : Nat}

private theorem mul_lt_two_pow (h : a < 2 ^ k) (hk : k + e ≤ t) : a * 2 ^ e < 2 ^ t := by
  calc a * 2 ^ e < 2 ^ k * 2 ^ e := Nat.mul_lt_mul_of_pos_right h (Nat.two_pow_pos e)
    _ = 2 ^ (k + e) := (Nat.pow_add 2 k e).symm
    _ ≤ 2 ^ t := Nat.pow_le_pow_right Nat.two_pos hk

private theorem two_pow_le_mul (h : 2 ^ k ≤ a) (hk : t ≤ k + e) : 2 ^ t ≤ a * 2 ^ e := by
  calc 2 ^ t ≤ 2 ^ (k + e) := Nat.pow_le_pow_right Nat.two_pos hk
    _ = 2 ^ k * 2 ^ e := Nat.pow_add 2 k e
    _ ≤ a * 2 ^ e := Nat.mul_le_mul_right _ h

private theorem div_lt_two_pow (h : a < 2 ^ k) (hk : k ≤ t + e) : a / 2 ^ e < 2 ^ t := by
  rw [Nat.div_lt_iff_lt_mul (Nat.two_pow_pos e), ← Nat.pow_add]
  exact h.trans_le (Nat.pow_le_pow_right Nat.two_pos hk)

private theorem two_pow_le_div (h : 2 ^ k ≤ a) (hk : t + e ≤ k) : 2 ^ t ≤ a / 2 ^ e := by
  rw [Nat.le_div_iff_mul_le (Nat.two_pow_pos e), ← Nat.pow_add]
  exact (Nat.pow_le_pow_right Nat.two_pos hk).trans h

end

/-! ### Coding and decoding -/

def mantissa (a nSize : Nat) : Nat := if nSize ≤ 3 then a * 2 ^ (8 * (3 - nSize)) else a / 2 ^ (8 * (nSize - 3))

variable {a : Nat}

theorem leadingBytes_eq {nSize : Nat} (h : a < 2 ^ (8 * nSize)) : leadingBytes a nSize = mantissa a nSize ∧
    mantissa a nSize < 2 ^ 24 := by
  unfold leadingBytes mantissa
  split
  · rename_i hle
    have hlt : a * 2 ^ (8 * (3 - nSize)) < 2 ^ 24 := mul_lt_two_pow h (by omega)
    have ha : a < 2 ^ 64 := h.trans_le (Nat.pow_le_pow_right Nat.two_pos (by omega))
    rw [Nat.mod_eq_of_lt ha, Nat.shiftLeft_eq, Nat.mod_eq_of_lt (show _ < 2 ^ 64 by omega),
      Nat.mod_eq_of_lt (show _ < 2 ^ 32 by omega)]
    exact ⟨rfl, hlt⟩
  · have hlt : a / 2 ^ (8 * (nSize - 3)) < 2 ^ 24 := div_lt_two_pow h (by omega)
    rw [Nat.shiftRight_eq_div_pow, Nat.mod_eq_of_lt (show _ < 2 ^ 64 by omega), Nat.mod_eq_of_lt (show _ < 2 ^ 32 by omega)]
    exact ⟨rfl, hlt⟩

theorem mantissa_div {nSize : Nat} (h : 0 < nSize) : mantissa a nSize / 2 ^ 8 = mantissa a (nSize + 1) := by
  unfold mantissa
  split
  · rename_i hle
    split
    · have hsplit : 8 * (3 - nSize) = 8 * (3 - (nSize + 1)) + 8 := by omega
      rw [hsplit, Nat.pow_add, ← Nat.mul_assoc, Nat.mul_div_cancel _ (Nat.two_pow_pos 8)]
    · obtain rfl : nSize = 3 := by omega
      rw [Nat.sub_self, Nat.mul_zero, Nat.pow_zero, Nat.mul_one]
  · have hsplit : 8 * (nSize + 1 - 3) = 8 * (nSize - 3) + 8 := by omega
    rw [if_neg (by omega), hsplit, Nat.pow_add, Nat.div_div_eq_div_mul]

theorem clearSign_eq (ha : a ≠ 0) : clearSign (leadingBytes a ((bits a + 7) / 8)) ((bits a + 7) / 8) =
    (mantissa a (bits a / 8 + 1), bits a / 8 + 1) ∧ mantissa a (bits a / 8 + 1) < 2 ^ 23 := by
  have hlow := two_pow_le_of_bits ha
  have hhigh := lt_two_pow_bits a
  have hpos := bits_pos ha
  obtain ⟨hbytes, hlt⟩ := @leadingBytes_eq a ((bits a + 7) / 8)
    (hhigh.trans_le (Nat.pow_le_pow_right Nat.two_pos (by omega)))
  rw [hbytes]
  unfold clearSign
  by_cases hfull : bits a % 8 = 0
  · have hsize : (bits a + 7) / 8 = bits a / 8 := by omega
    have hset : 2 ^ 23 ≤ mantissa a (bits a / 8) := by
      unfold mantissa
      split
      · exact two_pow_le_mul hlow (by omega)
      · exact two_pow_le_div hlow (by omega)
    rw [hsize] at hlt ⊢
    rw [if_pos ((and_signBit _).2 (by omega)), Nat.shiftRight_eq_div_pow, mantissa_div (by omega)]
    have hdiv := @mantissa_div a (bits a / 8) (by omega)
    exact ⟨rfl, by omega⟩
  · have hsize : (bits a + 7) / 8 = bits a / 8 + 1 := by omega
    have hclear : mantissa a (bits a / 8 + 1) < 2 ^ 23 := by
      unfold mantissa
      split
      · exact mul_lt_two_pow hhigh (by omega)
      · exact div_lt_two_pow hhigh (by omega)
    rw [hsize, if_neg (fun h => absurd ((and_signBit _).1 h) (by omega))]
    exact ⟨rfl, hclear⟩

theorem getCompact_eq (ha : a ≠ 0) (hrange : a < 2 ^ 256) :
    getCompact a false = .ok ((bits a / 8 + 1) * 2 ^ 24 + mantissa a (bits a / 8 + 1)) := by
  have hbits := bits_le hrange
  obtain ⟨hclear, hlt⟩ := clearSign_eq ha
  unfold getCompact
  dsimp only
  rw [hclear]
  dsimp only
  rw [if_neg (not_not.2 (and_high hlt)), if_neg (by omega)]
  have hshift : (bits a / 8 + 1) <<< 24 % 2 ^ 32 = (bits a / 8 + 1) <<< 24 := by
    rw [Nat.shiftLeft_eq]
    omega
  rw [hshift, or_size (by omega), Bool.false_and, if_neg (by decide), Nat.or_zero]
  rfl

theorem setCompact_getCompact (hrange : a < 2 ^ 256) :
    ∃ nCompact, getCompact a false = .ok nCompact ∧ nCompact < 2 ^ 32 ∧
      setCompact nCompact = { value := compactTruncate a, fNegative := false, fOverflow := false } := by
  by_cases ha : a = 0
  · subst ha
    exact ⟨0, rfl, by decide, rfl⟩
  have hbits := bits_le hrange
  obtain ⟨-, hlt⟩ := clearSign_eq ha
  refine ⟨_, getCompact_eq ha hrange, by omega, ?_⟩
  generalize hnSize : bits a / 8 + 1 = nSize at hlt ⊢
  generalize hnWord : mantissa a nSize = nWord at hlt ⊢
  have hsize : (nSize * 2 ^ 24 + nWord) >>> 24 = nSize := by
    rw [Nat.shiftRight_eq_div_pow]
    omega
  have hmantissa : (nSize * 2 ^ 24 + nWord) &&& 0x007fffff = nWord := by
    rw [and_mantissa]
    omega
  have hsign : ¬ (nSize * 2 ^ 24 + nWord) &&& 0x00800000 ≠ 0 := by
    rw [and_signBit]
    omega
  have hshift : shift 8 2 a = 8 * (nSize - 3) := by
    unfold shift
    omega
  have hvalue : (if nSize ≤ 3 then nWord >>> (8 * (3 - nSize)) else nWord <<< (8 * (nSize - 3)) % 2 ^ 256) =
      a / 2 ^ (8 * (nSize - 3)) * 2 ^ (8 * (nSize - 3)) := by
    unfold mantissa at hnWord
    split
    · rename_i hsmall
      have hzero : 8 * (nSize - 3) = 0 := by omega
      rw [if_pos hsmall] at hnWord
      rw [hzero, ← hnWord, Nat.shiftRight_eq_div_pow, Nat.mul_div_cancel _ (Nat.two_pow_pos _), Nat.pow_zero,
        Nat.div_one, Nat.mul_one]
    · rename_i hlarge
      rw [if_neg hlarge] at hnWord
      rw [Nat.shiftLeft_eq, ← hnWord]
      exact Nat.mod_eq_of_lt ((Nat.div_mul_le_self _ _).trans_lt hrange)
  have hlast : nSize = 33 → nWord < 2 ^ 16 := by
    rintro rfl
    rw [← hnWord, mantissa, if_neg (by decide)]
    exact div_lt_two_pow hrange (by decide)
  unfold setCompact compactWord
  rw [hsize, hmantissa, CompactTarget.mk.injEq, compactTruncate, truncate, hshift, ← hvalue]
  refine ⟨?_, ?_, ?_⟩
  · split <;> rfl
  · rw [Bool.and_eq_false_iff]
    exact .inr (decide_eq_false hsign)
  · rw [Bool.and_eq_false_iff]
    right
    by_cases hsmall : nSize ≤ 3
    · rw [if_pos hsmall]
      simp only [Bool.or_eq_false_iff, Bool.and_eq_false_iff, decide_eq_false_iff_not]
      omega
    · rw [if_neg hsmall]
      simp only [Bool.or_eq_false_iff, Bool.and_eq_false_iff, decide_eq_false_iff_not]
      omega

/-- What a code without flags stands for: a mantissa of 23 bits and some bytes. -/
theorem setCompact_digits {n v : Nat} (h : setCompact n = ⟨v, false, false⟩) :
    ∃ c e, c < 2 ^ 23 ∧ v = c * 2 ^ (8 * e) ∧ v < 2 ^ 256 := by
  unfold setCompact compactWord at h
  rw [and_mantissa, CompactTarget.mk.injEq] at h
  obtain ⟨rfl, -, hovf⟩ := h
  have hlt : n % 2 ^ 23 < 2 ^ 23 := Nat.mod_lt _ (by decide)
  generalize n % 2 ^ 23 = w at hlt hovf ⊢
  generalize n >>> 24 = s at hovf ⊢
  by_cases hsize : s ≤ 3
  · simp only [if_pos hsize]
    have hle : w >>> (8 * (3 - s)) ≤ w := Nat.shiftRight_le _ _
    exact ⟨_, 0, hle.trans_lt hlt, by simp, by omega⟩
  · simp only [if_neg hsize] at hovf ⊢
    refine ⟨w, s - 3, hlt, ?_, Nat.mod_lt _ (by decide)⟩
    rw [Nat.shiftLeft_eq]
    refine Nat.mod_eq_of_lt ?_
    by_cases hzero : w = 0
    · simp [hzero]
    · -- The three tests of the overflow leave no bit above the highest one.
      have hfits : s ≤ 32 ∨ w < 2 ^ 16 ∧ s ≤ 33 ∨ w < 2 ^ 8 ∧ s ≤ 34 := by
        simp [hzero] at hovf
        omega
      rcases hfits with hs | ⟨hw, hs⟩ | ⟨hw, hs⟩
      · exact mul_lt_two_pow hlt (by omega)
      · exact mul_lt_two_pow hw (by omega)
      · exact mul_lt_two_pow hw (by omega)

end LitecoinZ
