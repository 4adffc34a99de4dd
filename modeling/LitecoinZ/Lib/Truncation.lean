import Mathlib.Algebra.Order.Ring.Int

/-!
# Truncation to the leading digits

`truncate b p n` keeps of a number its leading digits of `b` bits each: those above the digit with number
`bits n / b - p`.  It is the greatest number with so few digits that is not above (`digits_le_truncate`).
-/

namespace Truncation

/-- The number of bits up to the highest one that is set. -/
def bits (n : Nat) : Nat := if n = 0 then 0 else n.log2 + 1

theorem lt_two_pow_bits (n : Nat) : n < 2 ^ bits n := by
  unfold bits
  split
  · rename_i h
    rw [h]
    exact Nat.one_pos
  · exact Nat.lt_log2_self

theorem two_pow_le_of_bits {n : Nat} (h : n ≠ 0) : 2 ^ (bits n - 1) ≤ n := by
  rw [bits, if_neg h, Nat.add_sub_cancel]
  exact Nat.log2_self_le h

theorem bits_pos {n : Nat} (h : n ≠ 0) : 0 < bits n := by
  rw [bits, if_neg h]
  exact Nat.succ_pos _

theorem bits_le {n k : Nat} (h : n < 2 ^ k) : bits n ≤ k := by
  by_cases hn : n = 0
  · rw [bits, if_pos hn]
    exact Nat.zero_le k
  · have hlt := (two_pow_le_of_bits hn).trans_lt h
    have := (Nat.pow_lt_pow_iff_right Nat.one_lt_two).1 hlt
    have := bits_pos hn
    omega

/-- The exponent of the last digit that is kept. -/
def shift (b p n : Nat) : Nat := b * (bits n / b - p)

def truncate (b p n : Nat) : Nat := n / 2 ^ shift b p n * 2 ^ shift b p n

variable {b p n m : Nat}

theorem truncate_le : truncate b p n ≤ n := Nat.div_mul_le_self _ _

theorem le_truncate {k : Nat} (hk : 2 ^ shift b p n ∣ k) (h : k ≤ n) : k ≤ truncate b p n := by
  obtain ⟨c, rfl⟩ := hk
  rw [Nat.mul_comm] at h ⊢
  exact Nat.mul_le_mul_right _ ((Nat.le_div_iff_mul_le (Nat.two_pow_pos _)).2 h)

theorem shift_lt (hb : 0 < b) (hp : 0 < p) (hn : n ≠ 0) : shift b p n ≤ bits n - 1 := by
  unfold shift
  have hdiv := Nat.mul_div_le (bits n) b
  have hpos := bits_pos hn
  rcases Nat.lt_or_ge (bits n / b) p with hlt | hge
  · rw [Nat.sub_eq_zero_of_le (le_of_lt hlt), Nat.mul_zero]
    exact Nat.zero_le _
  · have hle : b * (bits n / b - p) + b * p = b * (bits n / b) := by
      rw [← Nat.mul_add, Nat.sub_add_cancel hge]
    have := Nat.mul_pos hb hp
    omega

theorem truncate_pos (hb : 0 < b) (hp : 0 < p) (hn : n ≠ 0) : 0 < truncate b p n := by
  have hle : 2 ^ (bits n - 1) ≤ truncate b p n :=
    le_truncate (Nat.pow_dvd_pow 2 (shift_lt hb hp hn)) (two_pow_le_of_bits hn)
  exact (Nat.two_pow_pos _).trans_le hle

/-- Numbers with that many digits are not above the truncation if they are not above the number. -/
theorem digits_le_truncate (hb : 0 < b) (hp : 0 < p) {c e : Nat} (hc : c < 2 ^ (b * (p + 1) - 1))
    (h : c * 2 ^ (b * e) ≤ n) : c * 2 ^ (b * e) ≤ truncate b p n := by
  by_cases he : bits n / b - p ≤ e
  · exact le_truncate (Nat.dvd_mul_left_of_dvd (Nat.pow_dvd_pow 2 (Nat.mul_le_mul_left b he)) c) h
  · -- The number has more digits than `e` leaves: a power of two lies between the two.
    have hn : n ≠ 0 := by
      rintro rfl
      simp [bits] at he
    have hlow : b * (bits n / b) - 1 ≤ bits n - 1 := Nat.sub_le_sub_right (Nat.mul_div_le _ _) 1
    have hpow : 2 ^ (b * (bits n / b) - 1) ≤ truncate b p n := by
      refine le_truncate (Nat.pow_dvd_pow 2 ?_) ((Nat.pow_le_pow_right Nat.two_pos hlow).trans (two_pow_le_of_bits hn))
      have := Nat.mul_pos hb hp
      rw [shift, Nat.mul_sub]
      omega
    have hle : b * (p + 1 + e) ≤ b * (bits n / b) := Nat.mul_le_mul_left b (by omega)
    refine le_trans (Nat.mul_le_mul_right _ (le_of_lt hc)) (le_trans ?_ hpow)
    rw [← Nat.pow_add]
    refine Nat.pow_le_pow_right Nat.two_pos ?_
    rw [Nat.mul_add] at hle
    have : b ≤ b * (p + 1) := Nat.le_mul_of_pos_right b (Nat.succ_pos p)
    omega

theorem truncate_mono (hb : 0 < b) (hp : 0 < p) (h : n ≤ m) : truncate b p n ≤ truncate b p m := by
  refine digits_le_truncate hb hp ?_ (truncate_le.trans h)
  rw [Nat.div_lt_iff_lt_mul (Nat.two_pow_pos _), ← Nat.pow_add]
  refine (lt_two_pow_bits n).trans_le (Nat.pow_le_pow_right Nat.two_pos ?_)
  have := Nat.lt_mul_div_succ (bits n) hb
  rw [shift, Nat.mul_sub, Nat.mul_add]
  rw [Nat.mul_add] at this
  omega

end Truncation
