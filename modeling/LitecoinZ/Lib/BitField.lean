import Mathlib.Data.Nat.Bitwise
import Mathlib.Data.List.Lex
import Mathlib.Tactic.Ring
import Mathlib.Tactic.Linarith

/-!
# Bit fields and big endian bytes

A number read as a row of bits: `field v p w` are the `w` bits above position `p`.  Fields of a number with more bits
below, of an exclusive or, and a row of fields that are zero.  `beBytes w v` are the `w` big endian bytes of a number and
`beValue` reads them back; they compare as the numbers do (`beBytes_append_lt_iff`).
-/

namespace BitField

open List Nat

/-! ### Fields -/

/-- The `w` bits of `v` above position `p`. -/
def field (v p w : Nat) : Nat := v >>> p % 2 ^ w

theorem field_lt (v p w : Nat) : field v p w < 2 ^ w := mod_lt _ (Nat.two_pow_pos w)

theorem field_eq (v p w : Nat) : field v p w = v / 2 ^ p % 2 ^ w := by
  rw [field, shiftRight_eq_div_pow]

variable {v v' w n : Nat}

theorem field_congr {p : Nat} (hn : p + w ≤ n) (h : v % 2 ^ n = v' % 2 ^ n) : field v p w = field v' p w := by
  have hcut : ∀ u : Nat, field u p w = field (u % 2 ^ n) p w := by
    intro u
    rw [field_eq, field_eq, ← mod_mul_right_div_self, ← mod_mul_right_div_self, ← pow_add,
      mod_mod_of_dvd u (pow_dvd_pow 2 hn)]
  rw [hcut v, hcut v', h]

theorem field_append {t : Nat} (ht : t < 2 ^ n) (p w : Nat) : field (v * 2 ^ n + t) (n + p) w = field v p w := by
  rw [field_eq, field_eq, pow_add, ← Nat.div_div_eq_div_mul, Nat.mul_comm v, mul_add_div (Nat.two_pow_pos n),
    div_eq_of_lt ht, Nat.add_zero]

theorem field_mod_append {t k p : Nat} (hp : p + w ≤ n + k) :
    field (v % 2 ^ k * 2 ^ n + t) p w = field (v * 2 ^ n + t) p w := by
  refine field_congr hp ?_
  rw [pow_add, add_mod, Nat.mul_comm _ (2 ^ n), mul_mod_mul_left, mod_mod, ← mul_mod_mul_left,
    ← add_mod, Nat.mul_comm]

theorem shiftLeft_mod_or {g k : Nat} (hg : g < 2 ^ w) (hw : w ≤ k) :
    (v <<< w) % 2 ^ k ||| g = (v * 2 ^ w + g) % 2 ^ k := by
  obtain ⟨m, rfl⟩ := Nat.exists_eq_add_of_le hw
  have hcut : (v <<< w) % 2 ^ (w + m) = (v % 2 ^ m) <<< w := by
    rw [shiftLeft_eq, shiftLeft_eq, pow_add, Nat.mul_comm v, mul_mod_mul_left, Nat.mul_comm]
  have hlt : v % 2 ^ m * 2 ^ w + g < 2 ^ (w + m) := by
    have := mod_lt v (Nat.two_pow_pos m)
    calc v % 2 ^ m * 2 ^ w + g < (v % 2 ^ m + 1) * 2 ^ w := by rw [Nat.add_mul, Nat.one_mul]; omega
      _ ≤ 2 ^ m * 2 ^ w := mul_le_mul_right _ this
      _ = 2 ^ (w + m) := by rw [pow_add, Nat.mul_comm]
  have hmod : (v * 2 ^ w + g) % 2 ^ (w + m) = v % 2 ^ m * 2 ^ w + g := by
    have hsplit : v * 2 ^ w + g = v % 2 ^ m * 2 ^ w + g + 2 ^ (w + m) * (v / 2 ^ m) := by
      calc v * 2 ^ w + g = (2 ^ m * (v / 2 ^ m) + v % 2 ^ m) * 2 ^ w + g := by rw [div_add_mod]
        _ = v % 2 ^ m * 2 ^ w + g + 2 ^ (w + m) * (v / 2 ^ m) := by ring
    rw [hsplit, add_mul_mod_self_left, mod_eq_of_lt hlt]
  rw [hcut, ← shiftLeft_add_eq_or_of_lt hg, shiftLeft_eq, hmod]

theorem field_xor (a b p w : Nat) : field (a ^^^ b) p w = field a p w ^^^ field b p w := by
  rw [field, field, field, shiftRight_xor_distrib, xor_mod_two_pow]

theorem field_zero_iff {p : Nat} : v >>> p = 0 ↔ v >>> (p + w) = 0 ∧ field v p w = 0 := by
  rw [shiftRight_add, field]
  constructor
  · intro h
    rw [h]
    simp
  · rintro ⟨hhigh, hlow⟩
    rw [shiftRight_eq_div_pow _ w] at hhigh
    have := div_add_mod (v >>> p) (2 ^ w)
    rw [hhigh, hlow] at this
    omega

/-- The bits above a row of fields are zero, and so are the fields, when the number is small. -/
theorem shiftRight_eq_zero_iff {c : Nat} (hv : v < 2 ^ (c * n)) {r : Nat} (hr : r ≤ n) :
    v >>> (c * (n - r)) = 0 ↔ ∀ j < r, field v (c * (n - 1 - j)) c = 0 := by
  induction r with
  | zero =>
    rw [Nat.sub_zero, shiftRight_eq_div_pow, div_eq_of_lt hv]
    simp
  | succ r ih =>
    have hpos : c * (n - (r + 1)) + c = c * (n - r) := by
      rw [← mul_succ]
      congr 1
      omega
    rw [field_zero_iff (w := c), hpos, ih (by omega), forall_lt_succ_right]
    have : n - 1 - r = n - (r + 1) := by omega
    rw [this]

theorem eq_of_fields {c : Nat} (hv : v < 2 ^ (c * n)) (hv' : v' < 2 ^ (c * n))
    (h : ∀ j < n, field v (c * n - (j + 1) * c) c = field v' (c * n - (j + 1) * c) c) : v = v' := by
  have hxor : (v ^^^ v') >>> (c * (n - n)) = 0 := by
    refine (shiftRight_eq_zero_iff (xor_lt_two_pow hv hv') le_rfl).2 fun j hj => ?_
    have hpos : c * (n - 1 - j) = c * n - (j + 1) * c := by
      rw [Nat.mul_comm (j + 1), ← Nat.mul_sub]
      congr 1
      omega
    rw [hpos, field_xor, h j hj, Nat.xor_self]
  rw [Nat.sub_self, Nat.mul_zero, shiftRight_zero] at hxor
  exact Nat.xor_eq_zero_iff.1 hxor

/-- The number with a row of fields of width `w`. -/
def packed (w : Nat) (gs : List Nat) : Nat := gs.foldl (fun v g => v * 2 ^ w + g) 0

theorem foldl_packed (w : Nat) (gs : List Nat) (v : Nat) :
    gs.foldl (fun v g => v * 2 ^ w + g) v = v * 2 ^ (w * gs.length) + packed w gs := by
  induction gs generalizing v with
  | nil => simp [packed]
  | cons g gs ih =>
    rw [packed, foldl_cons, foldl_cons, ih, ih, length_cons]
    ring

theorem packed_cons (w g : Nat) (gs : List Nat) : packed w (g :: gs) = g * 2 ^ (w * gs.length) + packed w gs := by
  rw [packed, foldl_cons, foldl_packed, Nat.zero_mul, Nat.zero_add]

theorem packed_lt {gs : List Nat} (h : ∀ g ∈ gs, g < 2 ^ w) : packed w gs < 2 ^ (w * gs.length) := by
  induction gs with
  | nil => simp [packed]
  | cons g gs ih =>
    have hg := h g mem_cons_self
    have hgs := ih (forall_mem_cons.1 h).2
    rw [packed_cons, length_cons, mul_succ, pow_add]
    calc g * 2 ^ (w * gs.length) + packed w gs
        < (g + 1) * 2 ^ (w * gs.length) := by rw [Nat.add_mul, Nat.one_mul]; omega
      _ ≤ 2 ^ w * 2 ^ (w * gs.length) := mul_le_mul_right _ hg
      _ = 2 ^ (w * gs.length) * 2 ^ w := Nat.mul_comm _ _

theorem field_packed {gs : List Nat} (h : ∀ g ∈ gs, g < 2 ^ w) {j g : Nat} (hj : gs[j]? = some g) :
    field (packed w gs) (w * gs.length - (j + 1) * w) w = g := by
  induction gs generalizing j with
  | nil => simp at hj
  | cons x gs ih =>
    have hgs := fun g' hg' => h g' (mem_cons_of_mem x hg')
    rw [packed_cons, length_cons, mul_succ]
    cases j with
    | zero =>
      obtain rfl : x = g := by simpa using hj
      have hpos : w * gs.length + w - (0 + 1) * w = w * gs.length + 0 := by omega
      rw [hpos, field_append (packed_lt hgs), field, shiftRight_zero, mod_eq_of_lt (h x mem_cons_self)]
    | succ j =>
      have hj' : gs[j]? = some g := by simpa using hj
      have hlt : (j + 1) * w ≤ w * gs.length := by
        rw [Nat.mul_comm w]
        exact mul_le_mul_right _ (List.getElem?_eq_some_iff.1 hj').1
      have hpos : w * gs.length + w - (j + 1 + 1) * w = w * gs.length - (j + 1) * w := by
        rw [Nat.add_mul (j + 1), Nat.one_mul]
        omega
      have hend : w * gs.length - (j + 1) * w + w ≤ w * gs.length := by
        rw [Nat.add_mul, Nat.one_mul] at hlt ⊢
        omega
      rw [hpos, ← ih hgs hj']
      refine field_congr hend ?_
      rw [Nat.mul_comm x, mul_add_mod]

/-- The `n` fields of width `w` that a number packs. -/
def fields (w n v : Nat) : List Nat := (List.range n).map fun j => field v (w * n - (j + 1) * w) w

@[simp] theorem length_fields (w n v : Nat) : (fields w n v).length = n := by simp [fields]

theorem fields_lt (w n v : Nat) : ∀ g ∈ fields w n v, g < 2 ^ w := by
  intro g hg
  obtain ⟨j, -, rfl⟩ := mem_map.1 hg
  exact field_lt _ _ _

theorem getElem?_fields {j : Nat} (hj : j < n) : (fields w n v)[j]? = some (field v (w * n - (j + 1) * w) w) := by
  simp [fields, hj]

theorem fields_packed {gs : List Nat} (h : ∀ g ∈ gs, g < 2 ^ w) : fields w gs.length (packed w gs) = gs := by
  refine ext_getElem (by simp) fun j hj hj' => ?_
  rw [← Option.some_inj, ← getElem?_eq_getElem, getElem?_fields hj', field_packed h (getElem?_eq_getElem hj')]

theorem packed_fields (hv : v < 2 ^ (w * n)) : packed w (fields w n v) = v := by
  have hlt := packed_lt (fields_lt w n v)
  rw [length_fields] at hlt
  refine eq_of_fields hlt hv fun j hj => ?_
  have hget := field_packed (fields_lt w n v) (getElem?_fields hj)
  rwa [length_fields] at hget

/-! ### Bytes -/

def beBytes (w v : Nat) : List UInt8 := (List.range w).map fun x => UInt8.ofNat (v >>> (8 * (w - x - 1)))

variable (bytes : List UInt8)

def beValue : Nat := packed 8 (bytes.map UInt8.toNat)

@[simp] theorem length_beBytes (w v : Nat) : (beBytes w v).length = w := by simp [beBytes]

theorem beBytes_succ (w v : Nat) : beBytes (w + 1) v = UInt8.ofNat (v >>> (8 * w)) :: beBytes w v := by
  rw [beBytes, range_succ_eq_map, map_cons, map_map, beBytes]
  congr 1
  refine map_congr_left fun x _ => ?_
  have : w + 1 - (x + 1) - 1 = w - x - 1 := by omega
  simp only [Function.comp_apply, succ_eq_add_one, this]

theorem beValue_cons (b : UInt8) (bytes : List UInt8) :
    beValue (b :: bytes) = b.toNat * 2 ^ (8 * bytes.length) + beValue bytes := by
  rw [beValue, map_cons, packed_cons, length_map, beValue]

theorem bytes_lt : ∀ g ∈ bytes.map UInt8.toNat, g < 2 ^ 8 := by
  intro g hg
  obtain ⟨b, -, rfl⟩ := mem_map.1 hg
  exact b.toNat_lt

theorem beValue_lt : beValue bytes < 2 ^ (8 * bytes.length) := by
  have hlt := packed_lt (bytes_lt bytes)
  rwa [length_map] at hlt

theorem beValue_beBytes (w v : Nat) : beValue (beBytes w v) = v % 2 ^ (8 * w) := by
  induction w with
  | zero => simp [beBytes, beValue, packed, mod_one]
  | succ w ih =>
    rw [beBytes_succ, beValue_cons, ih, length_beBytes, UInt8.toNat_ofNat', shiftRight_eq_div_pow, mul_succ,
      pow_add, mod_mul, Nat.mul_comm]
    omega

theorem beBytes_beValue : beBytes bytes.length (beValue bytes) = bytes := by
  induction bytes with
  | nil => rfl
  | cons b bytes ih =>
    have hlow : ∀ w t : Nat, beBytes w (t * 2 ^ (8 * w) + beValue bytes) = beBytes w (beValue bytes) := by
      intro w t
      rw [beBytes, beBytes]
      refine map_congr_left fun x hx => ?_
      have hx' := mem_range.1 hx
      apply UInt8.toNat_inj.1
      rw [UInt8.toNat_ofNat', UInt8.toNat_ofNat']
      refine field_congr (n := 8 * w) (by omega) ?_
      rw [Nat.mul_comm, mul_add_mod]
    have hhigh : (b.toNat * 2 ^ (8 * bytes.length) + beValue bytes) >>> (8 * bytes.length) = b.toNat := by
      rw [shiftRight_eq_div_pow, Nat.mul_comm, mul_add_div (Nat.two_pow_pos _),
        div_eq_of_lt (beValue_lt bytes), Nat.add_zero]
    rw [length_cons, beValue_cons, beBytes_succ, hhigh, hlow, ih, UInt8.ofNat_toNat]

theorem beBytes_inj (hv : v < 2 ^ (8 * w)) (hv' : v' < 2 ^ (8 * w)) :
    beBytes w v = beBytes w v' ↔ v = v' := by
  constructor
  · intro h
    have := congrArg beValue h
    rwa [beValue_beBytes, beValue_beBytes, mod_eq_of_lt hv, mod_eq_of_lt hv'] at this
  · rintro rfl
    rfl

theorem beBytes_xor (w a b : Nat) :
    List.zipWith (· ^^^ ·) (beBytes w a) (beBytes w b) = beBytes w (a ^^^ b) := by
  rw [beBytes, beBytes, beBytes, zipWith_map]
  rw [zipWith_self]
  refine map_congr_left fun x _ => ?_
  rw [shiftRight_xor_distrib]
  apply UInt8.toNat_inj.1
  rw [UInt8.toNat_xor, UInt8.toNat_ofNat', UInt8.toNat_ofNat', UInt8.toNat_ofNat', xor_mod_two_pow]

theorem beBytes_all_zero_iff (hv : v < 2 ^ (8 * w)) : (beBytes w v).all (· == 0) = true ↔ v = 0 := by
  have hzero : beBytes w 0 = List.replicate w 0 := by
    rw [beBytes, eq_replicate_iff]
    simp
  rw [← beBytes_inj hv (Nat.two_pow_pos _), hzero, eq_replicate_iff, length_beBytes, all_eq_true]
  simp

private theorem beBytes_append_lt_iff_mod {a b : Nat} (hne : a % 2 ^ (8 * w) ≠ b % 2 ^ (8 * w)) (s t : List UInt8) :
    beBytes w a ++ s < beBytes w b ++ t ↔ a % 2 ^ (8 * w) < b % 2 ^ (8 * w) := by
  induction w with
  | zero => simp [mod_one] at hne
  | succ w ih =>
    have hsplit : ∀ v : Nat, v % 2 ^ (8 * (w + 1)) = 2 ^ (8 * w) * (v / 2 ^ (8 * w) % 256) + v % 2 ^ (8 * w) := by
      intro v
      rw [mul_succ, pow_add, mod_mul]
      exact Nat.add_comm _ _
    have hlow : ∀ v : Nat, v % 2 ^ (8 * w) < 2 ^ (8 * w) := fun v => mod_lt _ (Nat.two_pow_pos _)
    have hbyte : ∀ v : Nat, (UInt8.ofNat (v >>> (8 * w))).toNat = v / 2 ^ (8 * w) % 256 := by
      intro v
      rw [UInt8.toNat_ofNat', shiftRight_eq_div_pow]
    rw [hsplit a, hsplit b] at hne ⊢
    rw [beBytes_succ, beBytes_succ, cons_append, cons_append, cons_lt_cons_iff, UInt8.lt_iff_toNat_lt,
      ← UInt8.toNat_inj, hbyte, hbyte]
    have ha := hlow a
    have hb := hlow b
    rcases Nat.lt_trichotomy (a / 2 ^ (8 * w) % 256) (b / 2 ^ (8 * w) % 256) with hlt | heq | hgt
    · have := mul_le_mul_left (2 ^ (8 * w)) (succ_le_of_lt hlt)
      rw [mul_succ] at this
      constructor
      · intro
        omega
      · intro
        exact .inl hlt
    · rw [heq] at hne ⊢
      rw [ih (by omega)]
      omega
    · have := mul_le_mul_left (2 ^ (8 * w)) (succ_le_of_lt hgt)
      rw [mul_succ] at this
      constructor
      · rintro (hlt | ⟨heq, -⟩) <;> omega
      · intro
        omega

theorem beBytes_append_lt_iff {a b : Nat} (ha : a < 2 ^ (8 * w)) (hb : b < 2 ^ (8 * w)) (hne : a ≠ b)
    (s t : List UInt8) : beBytes w a ++ s < beBytes w b ++ t ↔ a < b := by
  have hmod := beBytes_append_lt_iff_mod (w := w) (a := a) (b := b)
  rw [mod_eq_of_lt ha, mod_eq_of_lt hb] at hmod
  exact hmod hne s t

end BitField
