import LitecoinZ.Pow.BasicSolve
import LitecoinZ.Pow.Verifier

/-!
# Solutions and their indices

`CompressArray` is the inverse of `ExpandArray`: the solver packs the indices of a row into the bytes (`minimal`) from
which the verifier reads the same indices, and bytes of the right length are given by their indices.
-/

namespace LitecoinZ

open BitField Blocks Pairs StateExcept List Nat

/-! ### Packing indices -/

private theorem testBit_foldl_or {α : Type} (f : α → Nat) (l : List α) (a i : Nat) :
    (l.foldl (fun acc x => acc ||| f x) a).testBit i = (a.testBit i || l.any fun x => (f x).testBit i) := by
  induction l generalizing a with
  | nil => simp
  | cons x l ih => rw [foldl_cons, ih, testBit_or, any_cons, Bool.or_assoc]

variable {w : Nat}

private theorem testBit_byte {g k : Nat} (hg : g < 2 ^ w) (i : Nat) :
    (((UInt8.ofNat (g >>> (8 * k))).toNat &&& (((2 ^ w - 1) >>> (8 * k)) &&& 0xFF)) <<< (8 * k)).testBit i =
      (decide (8 * k ≤ i ∧ i < 8 * k + 8) && g.testBit i) := by
  have hff : (0xFF : Nat) = 2 ^ 8 - 1 := rfl
  rw [hff, UInt8.toNat_ofNat']
  simp only [testBit_shiftLeft, testBit_and, testBit_mod_two_pow, testBit_shiftRight,
    testBit_two_pow_sub_one]
  by_cases hlow : 8 * k ≤ i
  · have hsum : 8 * k + (i - 8 * k) = i := by omega
    rw [hsum]
    by_cases hw : i < w
    · by_cases hhigh : i < 8 * k + 8
      · have : i - 8 * k < 8 := by omega
        simp [hlow, hhigh, hw, this]
      · have : ¬ i - 8 * k < 8 := by omega
        simp [hhigh, this]
    · have hbit : g.testBit i = false :=
        testBit_lt_two_pow (hg.trans_le (Nat.pow_le_pow_right (by decide) (by omega)))
      simp [hbit]
  · simp [hlow]

theorem compressElement_eq {bytePad inWidth g : Nat} (hwidth : w ≤ 8 * (inWidth - bytePad)) (hg : g < 2 ^ w)
    (rest : List UInt8) (acc : Nat) :
    compressElement w inWidth bytePad (beBytes inWidth g ++ rest) acc = (acc <<< w) % 2 ^ 32 ||| g := by
  have hread : ∀ x ∈ List.range' bytePad (inWidth - bytePad),
      (beBytes inWidth g ++ rest).getD x 0 = UInt8.ofNat (g >>> (8 * (inWidth - x - 1))) := by
    intro x hx
    obtain ⟨hpad, hx'⟩ := mem_range'_1.1 hx
    have hlt : x < (beBytes inWidth g).length := by
      rw [length_beBytes]
      omega
    rw [getD_append _ _ _ _ hlt, getD_eq_getElem _ _ hlt]
    simp [beBytes]
  apply eq_of_testBit_eq
  intro i
  rw [compressElement, testBit_foldl_or, testBit_or]
  congr 1
  rw [Bool.eq_iff_iff, any_eq_true]
  constructor
  · rintro ⟨x, hx, hbit⟩
    rw [hread x hx, testBit_byte hg, Bool.and_eq_true] at hbit
    exact hbit.2
  · intro hbit
    have hi : i < w := by
      by_contra hge
      rw [testBit_lt_two_pow (hg.trans_le (Nat.pow_le_pow_right (by decide) (by omega)))] at hbit
      cases hbit
    refine ⟨inWidth - 1 - i / 8, mem_range'_1.2 ⟨by omega, by omega⟩, ?_⟩
    have hk : inWidth - (inWidth - 1 - i / 8) - 1 = i / 8 := by omega
    rw [hread _ (mem_range'_1.2 ⟨by omega, by omega⟩), hk, testBit_byte hg, hbit, Bool.and_true,
      decide_eq_true_iff]
    omega

theorem compressLoop_eq {inWidth bytePad : Nat} (hw : 8 ≤ w) (hw' : w + 7 ≤ 32) (hwidth : w ≤ 8 * (inWidth - bytePad))
    {gs : List Nat} (hgs : ∀ g ∈ gs, g < 2 ^ w) {n a acc : Nat} (ha : a ≤ w) (hn : 8 * n ≤ a + w * gs.length) :
    compressLoop w inWidth bytePad n (gs.flatMap (beBytes inWidth)) a acc =
      (List.range n).map fun i => UInt8.ofNat
        (field (acc * 2 ^ (w * gs.length) + packed w gs) (a + w * gs.length - 8 * (i + 1)) 8) := by
  induction n generalizing gs a acc with
  | zero => rfl
  | succ n ih =>
    have hbyte : ∀ v p : Nat, UInt8.ofNat ((v >>> p) &&& 0xFF) = UInt8.ofNat (field v p 8) := by
      intro v p
      have hff : (0xFF : Nat) = 2 ^ 8 - 1 := rfl
      rw [hff, and_two_pow_sub_one_eq_mod, field]
    rw [range_succ_eq_map, map_cons, map_map, compressLoop]
    by_cases hread : a < 8
    · -- The next element is read.
      cases gs with
      | nil =>
        rw [length_nil] at hn
        omega
      | cons g gs =>
        have hg := hgs g mem_cons_self
        have hgs' := fun g' hg' => hgs g' (mem_cons_of_mem g hg')
        have hvalue : acc * 2 ^ (w * (gs.length + 1)) + packed w (g :: gs) =
            (acc * 2 ^ w + g) * 2 ^ (w * gs.length) + packed w gs := by
          rw [packed_cons]
          ring
        have hlen : w * (gs.length + 1) = w * gs.length + w := mul_succ _ _
        rw [length_cons, hlen] at hn
        rw [if_pos hread, flatMap_cons, compressElement_eq hwidth hg, shiftLeft_mod_or hg (by omega)]
        dsimp only
        rw [drop_left' (length_beBytes _ _), hbyte, length_cons, hvalue, hlen]
        congr 1
        · have hpos : a + (w * gs.length + w) - 8 * (0 + 1) = w * gs.length + (a + w - 8) := by omega
          rw [hpos, field_append (packed_lt hgs')]
          congr 1
          exact field_congr (n := 32) (by omega) (mod_mod _ _)
        · rw [ih hgs' (by omega) (by omega)]
          refine map_congr_left fun i hi => ?_
          have hi' := mem_range.1 hi
          have hpos : a + (w * gs.length + w) - 8 * (i.succ + 1) = a + w - 8 + w * gs.length - 8 * (i + 1) := by omega
          rw [Function.comp_apply, hpos, field_mod_append (by omega)]
    · rw [if_neg hread]
      dsimp only
      rw [hbyte]
      congr 1
      · have hpos : a + w * gs.length - 8 * (0 + 1) = w * gs.length + (a - 8) := by omega
        rw [hpos, field_append (packed_lt hgs)]
      · rw [ih hgs (by omega) (by omega)]
        refine map_congr_left fun i hi => ?_
        have hpos : a + w * gs.length - 8 * (i.succ + 1) = a - 8 + w * gs.length - 8 * (i + 1) := by omega
        rw [Function.comp_apply, hpos]

theorem compressArray_eq {n : Nat} (bytePad : Nat) (hw : 8 ≤ w) (hw' : w + 7 ≤ 32) {gs : List Nat}
    (hgs : ∀ g ∈ gs, g < 2 ^ w) (hn : 8 * n = w * gs.length) :
    compressArray (gs.flatMap (beBytes ((w + 7) / 8 + bytePad))) n w bytePad = .ok (beBytes n (packed w gs)) := by
  have hlen : (gs.flatMap (beBytes ((w + 7) / 8 + bytePad))).length = gs.length * ((w + 7) / 8 + bytePad) := by
    simp [length_flatMap]
  have hwpos : 0 < 8 * ((w + 7) / 8 + bytePad) := by omega
  have hout : n = w * (gs.flatMap (beBytes ((w + 7) / 8 + bytePad))).length / (8 * ((w + 7) / 8 + bytePad)) := by
    have : w * (gs.length * ((w + 7) / 8 + bytePad)) = n * (8 * ((w + 7) / 8 + bytePad)) := by
      rw [← Nat.mul_assoc, ← hn]
      ring
    rw [hlen, this, Nat.mul_div_cancel _ hwpos]
  have hword : 8 * 4 ≥ 7 + w := by omega
  unfold compressArray
  dsimp only
  rw [ehAssert_of (decide_eq_true hw), ehAssert_of (decide_eq_true hword), ehAssert_of (decide_eq_true hout)]
  change Except.ok _ = _
  rw [compressLoop_eq hw hw' (by omega) hgs (by omega) (by omega), beBytes]
  congr 1
  refine map_congr_left fun i hi => ?_
  have hi' := mem_range.1 hi
  have hpos : 0 + w * gs.length - 8 * (i + 1) = 8 * (n - i - 1) := by omega
  apply UInt8.toNat_inj.1
  rw [hpos, Nat.zero_mul, Nat.zero_add, UInt8.toNat_ofNat', UInt8.toNat_ofNat', field, mod_mod]

theorem getMinimalFromIndices_eq {n cBitLen : Nat} (hc : 8 ≤ cBitLen) (hc' : cBitLen ≤ 24) {indices : List EhIndex}
    (hl : ∀ i ∈ indices, i < 2 ^ (cBitLen + 1)) (hn : 8 * n = (cBitLen + 1) * indices.length) :
    getMinimalFromIndices indices cBitLen = .ok (beBytes n (packed (cBitLen + 1) indices)) := by
  have hpad : (cBitLen + 1 + 7) / 8 + (4 - (cBitLen + 1 + 7) / 8) = 4 := by omega
  have hmin : (cBitLen + 1) * (indices.length * 4) / (8 * 4) = n := by
    rw [← Nat.mul_assoc, ← hn]
    omega
  have hfits : (cBitLen + 1 + 7) / 8 ≤ 4 := by omega
  have hcomp := compressArray_eq (4 - (cBitLen + 1 + 7) / 8) (by omega) (by omega) hl hn
  rw [hpad] at hcomp
  unfold getMinimalFromIndices
  dsimp only
  rw [ehAssert_of (decide_eq_true hfits), hmin]
  exact hcomp

/-- Packing the indices and reading them are inverse to each other, and so are `CompressArray` and `ExpandArray`, which
writes each group of bits as an element. -/
theorem array_packing_bijective :
    (∀ (b k : Nat) (l : List EhIndex), 8 ≤ b - 1 → b - 1 ≤ 24 → 3 ≤ k → k ≤ 20 → l.length = 2 ^ k → (∀ i ∈ l, i < 2 ^ b) →
      ∃ minimal, getMinimalFromIndices l (b - 1) = .ok minimal ∧ getIndicesFromMinimal minimal (b - 1) = .ok l) ∧
    (∀ (b k : Nat) (minimal : List UInt8), 8 ≤ b - 1 → b - 1 ≤ 24 → 3 ≤ k → k ≤ 20 → minimal.length = 2 ^ k * b / 8 →
      ∃ l, getIndicesFromMinimal minimal (b - 1) = .ok l ∧ getMinimalFromIndices l (b - 1) = .ok minimal) ∧
    ∀ (b bytePad : Nat) (inp : List UInt8), 8 ≤ b → b ≤ 25 → b ∣ 8 * inp.length →
      ∃ out, expandArray inp (8 * ((b + 7) / 8 + bytePad) * inp.length / b) b bytePad = .ok out ∧
        compressArray out inp.length b bytePad = .ok inp ∧
        out.length = 8 * inp.length / b * ((b + 7) / 8 + bytePad) ∧
        ∀ i < 8 * inp.length / b, block ((b + 7) / 8 + bytePad) out i =
          beBytes ((b + 7) / 8 + bytePad) (field (beValue inp) (8 * inp.length - (i + 1) * b) b) := by
  have hdvd : ∀ b k : Nat, 3 ≤ k → 8 * (2 ^ k * b / 8) = b * 2 ^ k := by
    intro b k hk
    obtain ⟨j, rfl⟩ := Nat.exists_eq_add_of_le hk
    rw [pow_add, Nat.mul_assoc, show 2 ^ 3 = 8 from rfl, Nat.mul_div_cancel_left _ (by decide)]
    ring
  refine ⟨fun b k l hb hb' hk _ hlen hl => ?_, fun b k minimal hb hb' hk _ hlen => ?_, fun b bytePad inp hb hb' hdiv => ?_⟩
  · obtain ⟨c, rfl⟩ : ∃ c, b = c + 1 := ⟨b - 1, by omega⟩
    rw [Nat.add_sub_cancel] at hb hb' ⊢
    have hbits : 8 * (2 ^ k * (c + 1) / 8) = (c + 1) * l.length := by rw [hlen, hdvd _ _ hk]
    refine ⟨_, getMinimalFromIndices_eq hb hb' hl hbits, ?_⟩
    rw [getIndicesFromMinimal_eq (m := l.length) hb hb' (by rw [length_beBytes, hbits, Nat.mul_comm]), beValue_beBytes, hbits,
      mod_eq_of_lt (packed_lt hl), fields_packed hl]
  · obtain ⟨c, rfl⟩ : ∃ c, b = c + 1 := ⟨b - 1, by omega⟩
    rw [Nat.add_sub_cancel] at hb hb' ⊢
    have hbits : 8 * minimal.length = (c + 1) * 2 ^ k := by rw [hlen, hdvd _ _ hk]
    have hvalue := beValue_lt minimal
    rw [hbits] at hvalue
    refine ⟨_, getIndicesFromMinimal_eq hb hb' (by rw [hbits, Nat.mul_comm]), ?_⟩
    rw [getMinimalFromIndices_eq (n := minimal.length) hb hb' (fields_lt _ _ _) (by rw [length_fields, hbits]),
      packed_fields hvalue, beBytes_beValue]
  · obtain ⟨m, hm⟩ := hdiv
    have hcount : 8 * inp.length / b = m := by rw [hm, Nat.mul_div_cancel_left _ (by omega)]
    have hvalue := beValue_lt inp
    rw [hm] at hvalue
    have hout : 8 * ((b + 7) / 8 + bytePad) * inp.length / b = m * ((b + 7) / 8 + bytePad) := by
      have : 8 * ((b + 7) / 8 + bytePad) * inp.length = b * (m * ((b + 7) / 8 + bytePad)) := by
        calc 8 * ((b + 7) / 8 + bytePad) * inp.length = 8 * inp.length * ((b + 7) / 8 + bytePad) := by ring
          _ = b * (m * ((b + 7) / 8 + bytePad)) := by rw [hm]; ring
      rw [this, Nat.mul_div_cancel_left _ (by omega)]
    rw [hout, hcount, hm]
    refine ⟨_, expandArray_eq bytePad hb (by omega) (by rw [hm, Nat.mul_comm]), ?_, by simp [length_flatMap], fun i hi => ?_⟩
    · rw [compressArray_eq (n := inp.length) bytePad hb (by omega) (fields_lt _ _ _) (by rw [length_fields, hm]),
        packed_fields hvalue, beBytes_beValue]
    · have hblock := block_flatMap (f := beBytes ((b + 7) / 8 + bytePad)) (fun _ => length_beBytes _ _)
        (getElem?_fields (w := b) (v := beValue inp) hi) []
      rwa [append_nil] at hblock

namespace Equihash

variable {eh : Equihash}

/-- The bytes of a solution with given indices. -/
def minimal (eh : Equihash) (l : List EhIndex) : List UInt8 :=
  beBytes eh.solutionWidth (packed (eh.collisionBitLength + 1) l)

theorem Suitable.getIndices (h : eh.Suitable) {l : List EhIndex} (hlen : l.length = 2 ^ eh.K)
    (hl : ∀ i ∈ l, i < 2 ^ (eh.collisionBitLength + 1)) (hash : List UInt8) :
    Row.getIndices (hash ++ l.flatMap ehIndexToArray) hash.length (4 * 2 ^ eh.K) eh.collisionBitLength =
      .ok (eh.minimal l) := by
  have hbits : 8 * eh.solutionWidth = (eh.collisionBitLength + 1) * l.length := by
    rw [h.eight_mul_solutionWidth, hlen, Nat.mul_comm]
  have hinds : Row.indices (hash ++ l.flatMap ehIndexToArray) hash.length (4 * 2 ^ eh.K) = l.flatMap ehIndexToArray := by
    rw [Row.indices, drop_left, ← hlen, ← length_indexBytes, take_length]
  have hmin := getMinimalFromIndices_eq h.eight_le h.le_24 hl hbits
  unfold getMinimalFromIndices at hmin
  rw [Row.getIndices, hinds, ← hlen, Nat.mul_comm 4]
  exact hmin

theorem Suitable.solutionIndices_minimal (h : eh.Suitable) {l : List EhIndex} (hlen : l.length = 2 ^ eh.K)
    (hl : ∀ i ∈ l, i < 2 ^ (eh.collisionBitLength + 1)) : eh.solutionIndices (eh.minimal l) = l := by
  have hbits : 8 * eh.solutionWidth = (eh.collisionBitLength + 1) * l.length := by
    rw [h.eight_mul_solutionWidth, hlen, Nat.mul_comm]
  rw [minimal, h.solutionIndices_eq (length_beBytes _ _), beValue_beBytes, hbits, mod_eq_of_lt (packed_lt hl), ← hlen,
    fields_packed hl]

theorem Suitable.minimal_solutionIndices (h : eh.Suitable) {soln : List UInt8}
    (hlen : soln.length = eh.solutionWidth) : eh.minimal (eh.solutionIndices soln) = soln := by
  have hvalue := beValue_lt soln
  rw [hlen, h.eight_mul_solutionWidth, Nat.mul_comm] at hvalue
  rw [h.solutionIndices_eq hlen, minimal, packed_fields hvalue, ← hlen, beBytes_beValue]

end Equihash

end LitecoinZ
