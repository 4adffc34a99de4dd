import Mathlib.Data.Vector.Defs
import Mathlib.Data.List.Nodup
import LitecoinZ.Lib.Blocks
import LitecoinZ.Pow.Equihash

/-!
# The Equihash verifier meets the definition

`IsValidSolution` merges rows of expanded bytes level by level and trims what has collided.  Its rows are the exclusive
ors of the hashes of aligned blocks of indices, from the field on that is compared next, with the indices behind them
(`rowOf`).  A round succeeds exactly if each two neighbouring blocks collide, are in order and share no index (`Joins`),
so the whole verifier accepts exactly the solutions of the definition (`isValidSolution_iff`).
-/

namespace LitecoinZ

open BitField Blocks StateExcept Nat List
open List hiding Vector

/-- How `ExpandArray` writes an element. -/
def element (bytePad outWidth g : Nat) : List UInt8 :=
  List.replicate bytePad (0 : UInt8) ++ (List.range' bytePad (outWidth - bytePad)).map
    fun x => UInt8.ofNat (g >>> (8 * (outWidth - x - 1)))

variable {w : Nat}

private theorem element_eq {bytePad outWidth g : Nat} (hpad : bytePad ≤ outWidth) (hw : w ≤ 8 * (outWidth - bytePad))
    (hg : g < 2 ^ w) : element bytePad outWidth g = beBytes outWidth g := by
  have hrange : range outWidth = range bytePad ++ range' bytePad (outWidth - bytePad) := by
    have happ := range'_append_1 (s := 0) (m := bytePad) (n := outWidth - bytePad)
    rw [Nat.zero_add, Nat.add_sub_cancel' hpad] at happ
    rw [range_eq_range', range_eq_range', happ]
  rw [element, beBytes, hrange, map_append]
  congr 1
  symm
  rw [eq_replicate_iff]
  refine ⟨by simp, ?_⟩
  intro b hb
  obtain ⟨x, hx, rfl⟩ := mem_map.1 hb
  have hx' := mem_range.1 hx
  have hzero : g >>> (8 * (outWidth - x - 1)) = 0 := by
    rw [shiftRight_eq_div_pow]
    exact div_eq_of_lt (hg.trans_le (Nat.pow_le_pow_right (by decide) (by omega)))
  rw [hzero]
  rfl

private theorem masked_byte {a v k : Nat} :
    UInt8.ofNat ((v >>> (a + 8 * k)) &&& (((2 ^ w - 1) >>> (8 * k)) &&& 0xFF)) = UInt8.ofNat (field v a w >>> (8 * k)) := by
  apply UInt8.toNat_inj.1
  rw [UInt8.toNat_ofNat', UInt8.toNat_ofNat', field]
  apply eq_of_testBit_eq
  intro i
  have hff : (0xFF : Nat) = 2 ^ 8 - 1 := rfl
  rw [hff]
  simp only [testBit_mod_two_pow, testBit_and, testBit_shiftRight, testBit_two_pow_sub_one,
    Nat.add_assoc]
  by_cases hi : i < 8
  · simp only [hi, decide_true, Bool.true_and, Bool.and_true]
    rw [Bool.and_comm]
  · simp [hi]

theorem expandLoop_eq {outWidth bytePad : Nat} (hw : 8 ≤ w) (hw' : w + 7 ≤ 32) (inp : List UInt8) {a acc : Nat}
    (ha : a < w) :
    expandLoop w outWidth bytePad inp a acc =
      (range ((a + 8 * inp.length) / w)).flatMap fun j => element bytePad outWidth
        (field (acc * 2 ^ (8 * inp.length) + beValue inp) (a + 8 * inp.length - (j + 1) * w) w) := by
  induction inp generalizing a acc with
  | nil => simp [expandLoop, div_eq_of_lt ha]
  | cons b inp ih =>
    -- What has been read is a number of which the accumulator keeps the low 32 bits.
    have hvalue : acc * 2 ^ (8 * (inp.length + 1)) + beValue (b :: inp) =
        (acc * 2 ^ 8 + b.toNat) * 2 ^ (8 * inp.length) + beValue inp := by
      rw [beValue_cons]
      ring
    rw [length_cons, expandLoop, shiftLeft_mod_or b.toNat_lt (by decide)]
    dsimp only
    by_cases hemit : a + 8 ≥ w
    · have hcount : (a + 8 * (inp.length + 1)) / w = (a + 8 - w + 8 * inp.length) / w + 1 := by
        rw [← add_div_right _ (by omega)]
        congr 1
        omega
      rw [if_pos hemit, hcount, range_succ_eq_map, flatMap_cons, flatMap_map, hvalue,
        ih (a := a + 8 - w) (by omega)]
      congr 1
      · have hpos : a + 8 * (inp.length + 1) - (0 + 1) * w = 8 * inp.length + (a + 8 - w) := by omega
        rw [hpos, field_append (beValue_lt inp), element]
        congr 1
        refine map_congr_left fun x _ => ?_
        rw [masked_byte]
        congr 2
        exact field_congr (n := 32) (by omega) (mod_mod _ _)
      · refine flatMap_congr fun j hj => ?_
        have hj' := succ_le_of_lt (mem_range.1 hj)
        have hend : (j + 1) * w ≤ a + 8 - w + 8 * inp.length := (le_div_iff_mul_le (by omega)).1 hj'
        have hpos : a + 8 * (inp.length + 1) - (j.succ + 1) * w = a + 8 - w + 8 * inp.length - (j + 1) * w := by
          rw [succ_eq_add_one, Nat.add_mul (j + 1), Nat.one_mul]
          omega
        rw [hpos, field_mod_append]
        rw [Nat.add_mul, Nat.one_mul] at hend ⊢
        omega
    · have hcount : a + 8 + 8 * inp.length = a + 8 * (inp.length + 1) := by omega
      rw [if_neg hemit, hvalue, ih (a := a + 8) (by omega), hcount]
      refine flatMap_congr fun j hj => ?_
      have hj' := succ_le_of_lt (mem_range.1 hj)
      have hend : (j + 1) * w ≤ a + 8 * (inp.length + 1) := (le_div_iff_mul_le (by omega)).1 hj'
      rw [field_mod_append]
      rw [Nat.add_mul, Nat.one_mul] at hend ⊢
      omega

theorem expandArray_eq {m : Nat} (bytePad : Nat) (hw : 8 ≤ w) (hw' : w + 7 ≤ 32) {inp : List UInt8}
    (hlen : 8 * inp.length = m * w) :
    expandArray inp (m * ((w + 7) / 8 + bytePad)) w bytePad =
      .ok ((fields w m (beValue inp)).flatMap (beBytes ((w + 7) / 8 + bytePad))) := by
  have hout : m * ((w + 7) / 8 + bytePad) = 8 * ((w + 7) / 8 + bytePad) * inp.length / w := by
    have : 8 * ((w + 7) / 8 + bytePad) * inp.length = m * ((w + 7) / 8 + bytePad) * w := by
      calc 8 * ((w + 7) / 8 + bytePad) * inp.length = ((w + 7) / 8 + bytePad) * (8 * inp.length) := by ring
        _ = m * ((w + 7) / 8 + bytePad) * w := by rw [hlen]; ring
    rw [this, Nat.mul_div_cancel _ (by omega)]
  have hcount : (0 + 8 * inp.length) / w = m := by
    rw [Nat.zero_add, hlen, Nat.mul_div_cancel _ (by omega)]
  have hword : 8 * 4 ≥ 7 + w := by omega
  unfold expandArray
  dsimp only
  rw [ehAssert_of (decide_eq_true hw), ehAssert_of (decide_eq_true hword), ehAssert_of (decide_eq_true hout)]
  change Except.ok _ = _
  rw [expandLoop_eq hw hw' inp (by omega), hcount, fields, flatMap_map]
  congr 1
  refine flatMap_congr fun j _ => ?_
  rw [Nat.zero_mul, Nat.zero_add, Nat.zero_add, element_eq (w := w) (by omega) (by omega) (field_lt _ _ _), hlen,
    Nat.mul_comm m]

theorem readIndices_indexBytes {l : List EhIndex} (hl : ∀ i ∈ l, i < 2 ^ 32) :
    readIndices (l.flatMap (beBytes 4)) l.length = l := by
  refine ext_getElem (by simp [readIndices]) fun j hj hj' => ?_
  have hblock := block_flatMap (k := 4) (f := beBytes 4) (fun _ => length_beBytes _ _) (getElem?_eq_getElem hj') []
  rw [append_nil, block, Nat.mul_comm] at hblock
  simp only [readIndices, getElem_map, getElem_range, arrayToEhIndex]
  rw [hblock, beValue_beBytes, mod_eq_of_lt (hl _ (getElem_mem hj'))]

theorem getIndicesFromMinimal_eq {m cBitLen : Nat} (hc : 8 ≤ cBitLen) (hc' : cBitLen ≤ 24) {minimal : List UInt8}
    (hlen : 8 * minimal.length = m * (cBitLen + 1)) :
    getIndicesFromMinimal minimal cBitLen = .ok (fields (cBitLen + 1) m (beValue minimal)) := by
  have hpad : (cBitLen + 1 + 7) / 8 + (4 - (cBitLen + 1 + 7) / 8) = 4 := by omega
  have hcount : 8 * 4 * minimal.length / (cBitLen + 1) = m * 4 := by
    have : 8 * 4 * minimal.length = m * 4 * (cBitLen + 1) := by
      calc 8 * 4 * minimal.length = 4 * (8 * minimal.length) := by ring
        _ = m * 4 * (cBitLen + 1) := by rw [hlen]; ring
    rw [this, Nat.mul_div_cancel _ (by omega)]
  have hexp := expandArray_eq (4 - (cBitLen + 1 + 7) / 8) (by omega) (by omega) hlen
  rw [hpad] at hexp
  have hfits : (cBitLen + 1 + 7) / 8 ≤ 4 := by omega
  have hread := readIndices_indexBytes (l := fields (cBitLen + 1) m (beValue minimal)) fun i hi =>
    (fields_lt _ _ _ i hi).trans_le (Nat.pow_le_pow_right (by decide) (by omega))
  have hn : (m * 4 + 3) / 4 = m := by omega
  unfold getIndicesFromMinimal
  dsimp only
  rw [ehAssert_of (decide_eq_true hfits), hcount, hexp]
  change Except.ok _ = _
  rw [length_fields] at hread
  rw [hn, hread]

/-! ### Parameters -/

namespace Equihash

/-- The parameters for which the widths fit. -/
structure Suitable (eh : Equihash) : Prop where
  three_le_K : 3 ≤ eh.K
  dvd : eh.K + 1 ∣ eh.N
  eight_le : 8 ≤ eh.N / (eh.K + 1)
  le_24 : eh.N / (eh.K + 1) ≤ 24

variable {eh : Equihash}

namespace Suitable

theorem N_eq (h : eh.Suitable) : eh.N = (eh.K + 1) * eh.collisionBitLength := (Nat.mul_div_cancel' h.dvd).symm

theorem collisionByteLength_le (h : eh.Suitable) : eh.collisionByteLength ≤ 3 := by
  have := h.le_24
  rw [collisionByteLength, collisionBitLength]
  omega

theorem collisionBitLength_le (eh : Equihash) : eh.collisionBitLength ≤ 8 * eh.collisionByteLength := by
  rw [collisionByteLength]
  omega

theorem eight_mul_solutionWidth (h : eh.Suitable) :
    8 * eh.solutionWidth = 2 ^ eh.K * (eh.collisionBitLength + 1) := by
  obtain ⟨k, hk⟩ := Nat.exists_eq_add_of_le h.three_le_K
  have : 2 ^ eh.K * (eh.collisionBitLength + 1) = 8 * (2 ^ k * (eh.collisionBitLength + 1)) := by
    rw [hk, pow_add]
    ring
  rw [solutionWidth, this, Nat.mul_div_cancel_left _ (by decide)]

/-- What the indices of `d` rounds need is more than what `d` collision lengths free. -/
theorem indices_le {c : Nat} (hc : c ≤ 3) (d r : Nat) : d * c + 4 * 2 ^ r ≤ 4 * 2 ^ (r + d) := by
  have hpow : d + 1 ≤ 2 ^ d := Nat.lt_two_pow_self
  have hone : 1 ≤ 2 ^ r := Nat.one_le_two_pow
  calc d * c + 4 * 2 ^ r ≤ d * (4 * 2 ^ r) + 4 * 2 ^ r :=
        Nat.add_le_add_right (mul_le_mul_left d (by omega)) _
    _ = 4 * 2 ^ r * (d + 1) := by ring
    _ ≤ 4 * 2 ^ r * 2 ^ d := mul_le_mul_left _ hpow
    _ = 4 * 2 ^ (r + d) := by rw [pow_add, Nat.mul_assoc]

theorem width_le (h : eh.Suitable) {r : Nat} (hr : r ≤ eh.K) :
    (eh.K + 1 - r) * eh.collisionByteLength + 4 * 2 ^ r ≤ eh.finalFullWidth := by
  obtain ⟨d, hd⟩ := Nat.exists_eq_add_of_le hr
  have hle := indices_le h.collisionByteLength_le d r
  rw [finalFullWidth, show eh.K + 1 - r = d + 1 by omega, hd, Nat.add_mul]
  omega

end Suitable

/-- The index with number `j` that a solution packs. -/
def solutionIndex (eh : Equihash) (soln : List UInt8) (j : Nat) : EhIndex :=
  field (beValue soln) (8 * soln.length - (j + 1) * (eh.collisionBitLength + 1)) (eh.collisionBitLength + 1)

def solutionIndices (eh : Equihash) (soln : List UInt8) : List EhIndex :=
  (List.range (2 ^ eh.K)).map (eh.solutionIndex soln)

variable (generateHash : eh.HashFn)

/-- The hash of an index, a number of `N` bits. -/
def indexHash (i : EhIndex) : Nat := beValue (eh.hashBytes generateHash i)

def xorHashes (indices : List EhIndex) : Nat :=
  (indices.map (eh.indexHash generateHash)).foldr (· ^^^ ·) 0

/-- The definition of a solution. -/
structure IsSolution (eh : Equihash) (generateHash : eh.HashFn) (soln : List UInt8) : Prop where
  length : soln.length = 2 ^ eh.K * (eh.N / (eh.K + 1) + 1) / 8
  /-- An output of 512 bits holds the hash of an index. -/
  hashed : 0 < 512 / eh.N
  distinct : ∀ i < 2 ^ eh.K, ∀ j < 2 ^ eh.K, eh.solutionIndex soln i = eh.solutionIndex soln j → i = j
  /-- At level `r` the hashes of an aligned block cancel in their first `r * N / (K + 1)` bits. -/
  collides : ∀ r, 1 ≤ r → r ≤ eh.K → ∀ b < 2 ^ (eh.K - r),
    eh.xorHashes generateHash (block (2 ^ r) (eh.solutionIndices soln) b) >>> (eh.N - r * (eh.N / (eh.K + 1))) = 0
  /-- The first index of the left half of a block is below that of the right half. -/
  ordered : ∀ r, 1 ≤ r → r ≤ eh.K → ∀ b < 2 ^ (eh.K - r),
    eh.solutionIndex soln (b * 2 ^ r) < eh.solutionIndex soln (b * 2 ^ r + 2 ^ (r - 1))
  zero : eh.xorHashes generateHash (eh.solutionIndices soln) = 0

/-! ### Rows of blocks -/

def hashPart (eh : Equihash) (r x : Nat) : List UInt8 :=
  (List.range' r (eh.K + 1 - r)).flatMap fun j =>
    beBytes eh.collisionByteLength (field x (eh.collisionBitLength * (eh.K - j)) eh.collisionBitLength)

/-- The row of a block of indices after `r` rounds. -/
def rowOf (r : Nat) (l : List EhIndex) : Row :=
  eh.hashPart r (eh.xorHashes generateHash l) ++ l.flatMap ehIndexToArray

variable (H : eh.HashFn)

theorem length_hashPart (eh : Equihash) (r x : Nat) :
    (eh.hashPart r x).length = (eh.K + 1 - r) * eh.collisionByteLength := by
  simp [hashPart, length_flatMap]

theorem length_indexBytes (l : List EhIndex) : (l.flatMap ehIndexToArray).length = 4 * l.length := by
  simp [length_flatMap, ehIndexToArray, Nat.mul_comm]

variable {r width : Nat} {l l' : List EhIndex}

theorem hashPart_succ (eh : Equihash) (hr : r ≤ eh.K) (x : Nat) :
    eh.hashPart r x = beBytes eh.collisionByteLength (field x (eh.collisionBitLength * (eh.K - r)) eh.collisionBitLength) ++
      eh.hashPart (r + 1) x := by
  have hcount : eh.K + 1 - r = eh.K + 1 - (r + 1) + 1 := by omega
  rw [hashPart, hcount, range'_succ, flatMap_cons, hashPart]

theorem hashPart_xor (eh : Equihash) (r x y : Nat) :
    zipWith (· ^^^ ·) (eh.hashPart r x) (eh.hashPart r y) = eh.hashPart r (x ^^^ y) := by
  rw [hashPart, hashPart, hashPart]
  induction range' r (eh.K + 1 - r) with
  | nil => rfl
  | cons j js ih =>
    rw [flatMap_cons, flatMap_cons, flatMap_cons, zipWith_append (by simp), ih, beBytes_xor, field_xor]

theorem xorHashes_append (l l' : List EhIndex) :
    eh.xorHashes H (l ++ l') = eh.xorHashes H l ^^^ eh.xorHashes H l' := by
  induction l with
  | nil => simp [xorHashes]
  | cons i l ih =>
    rw [cons_append]
    change _ ^^^ eh.xorHashes H (l ++ l') = (_ ^^^ eh.xorHashes H l) ^^^ _
    rw [ih, Nat.xor_assoc]

theorem Suitable.field_lt (eh : Equihash) (x p : Nat) :
    field x p eh.collisionBitLength < 2 ^ (8 * eh.collisionByteLength) :=
  (BitField.field_lt x p _).trans_le (Nat.pow_le_pow_right (by decide) (Suitable.collisionBitLength_le eh))

theorem indices_rowOf (r : Nat) (l : List EhIndex) :
    (eh.rowOf H r l).indices ((eh.K + 1 - r) * eh.collisionByteLength) (4 * l.length) =
      l.flatMap ehIndexToArray := by
  rw [Row.indices, rowOf, ← eh.length_hashPart r, drop_left, ← length_indexBytes, take_length]

theorem hasCollision_rowOf (hr : r ≤ eh.K) (l l' : List EhIndex) :
    (eh.rowOf H r l).hasCollision (eh.rowOf H r l') eh.collisionByteLength = true ↔
      field (eh.xorHashes H l) (eh.collisionBitLength * (eh.K - r)) eh.collisionBitLength =
        field (eh.xorHashes H l') (eh.collisionBitLength * (eh.K - r)) eh.collisionBitLength := by
  have htake : ∀ l : List EhIndex, (eh.rowOf H r l).take eh.collisionByteLength =
      beBytes eh.collisionByteLength
        (field (eh.xorHashes H l) (eh.collisionBitLength * (eh.K - r)) eh.collisionBitLength) := by
    intro l
    rw [rowOf, hashPart_succ eh hr, append_assoc, take_append_of_le_length (by simp)]
    exact take_of_length_le (by simp)
  rw [Row.hasCollision, beq_iff_eq, htake, htake]
  exact beBytes_inj (Suitable.field_lt eh _ _) (Suitable.field_lt eh _ _)

theorem indicesBefore_rowOf (r : Nat) {i i' : EhIndex} (hlen : l.length = l'.length) (hi : i < 2 ^ 32)
    (hi' : i' < 2 ^ 32) (hne : i ≠ i') :
    (eh.rowOf H r (i :: l)).indicesBefore (eh.rowOf H r (i' :: l'))
      ((eh.K + 1 - r) * eh.collisionByteLength) (4 * (i :: l).length) = true ↔ i < i' := by
  have hlen' : (i :: l).length = (i' :: l').length := by simp [hlen]
  rw [Row.indicesBefore, decide_eq_true_iff, indices_rowOf, hlen', indices_rowOf, flatMap_cons, flatMap_cons]
  exact beBytes_append_lt_iff hi hi' hne _ _

theorem distinctIndices_rowOf (r : Nat) (hlen : l.length = l'.length) (hl : ∀ i ∈ l, i < 2 ^ 32)
    (hl' : ∀ i ∈ l', i < 2 ^ 32) :
    (eh.rowOf H r l).distinctIndices (eh.rowOf H r l') ((eh.K + 1 - r) * eh.collisionByteLength)
    (4 * l.length) = true ↔ Disjoint l l' := by
  have hread : ∀ {l : List EhIndex} {n : Nat} {i : EhIndex}, l[n]? = some i →
      ((eh.rowOf H r l).drop ((eh.K + 1 - r) * eh.collisionByteLength + 4 * n)).take 4 = beBytes 4 i := by
    intro l n i hi
    rw [rowOf, ← eh.length_hashPart r, ← drop_drop, drop_left, Nat.mul_comm]
    have hblock := block_flatMap (k := 4) (f := ehIndexToArray) (fun _ => length_beBytes _ _) hi []
    rwa [append_nil] at hblock
  have hcount : (4 * l.length + 3) / 4 = l.length := by omega
  rw [Row.distinctIndices, hcount, all_eq_true]
  constructor
  · intro hall i hi hi'
    obtain ⟨m, hm⟩ := mem_iff_getElem?.1 hi
    obtain ⟨n, hn⟩ := mem_iff_getElem?.1 hi'
    have hm' : m < l.length := (List.getElem?_eq_some_iff.1 hm).1
    have hn' : n < l.length := hlen ▸ (List.getElem?_eq_some_iff.1 hn).1
    have hne := all_eq_true.1 (hall m (mem_range.2 hm')) n (mem_range.2 hn')
    rw [hread hm, hread hn, bne_self_eq_false] at hne
    cases hne
  · intro hdisj m hm
    rw [all_eq_true]
    intro n hn
    have hm' := getElem?_eq_getElem (mem_range.1 hm)
    have hn' := getElem?_eq_getElem (hlen ▸ mem_range.1 hn : n < l'.length)
    rw [hread hm', hread hn', bne_iff_ne]
    intro heq
    have hmem := getElem_mem (mem_range.1 hm)
    have hmem' := getElem_mem (hlen ▸ mem_range.1 hn : n < l'.length)
    rw [(beBytes_inj (hl _ hmem) (hl' _ hmem')).1 heq] at hmem
    exact hdisj hmem hmem'

theorem merge_rowOf {w : Nat} (hr : r ≤ eh.K) (hl : l.length = 2 ^ r) (hl' : l'.length = 2 ^ r)
    (hw : (eh.K + 1 - r) * eh.collisionByteLength + 4 * 2 ^ r ≤ w)
    (hwidth : (eh.K - r) * eh.collisionByteLength + 4 * 2 ^ (r + 1) ≤ width) :
    Row.merge w width (eh.rowOf H r l) (eh.rowOf H r l') ((eh.K + 1 - r) * eh.collisionByteLength)
    (4 * 2 ^ r) eh.collisionByteLength =
        .ok (eh.rowOf H (r + 1) (if (eh.rowOf H r l).indicesBefore (eh.rowOf H r l')
            ((eh.K + 1 - r) * eh.collisionByteLength) (4 * 2 ^ r) then l ++ l' else l' ++ l)) := by
  have htrim : ∀ l : List EhIndex, ((eh.rowOf H r l).take ((eh.K + 1 - r) * eh.collisionByteLength)).drop
      eh.collisionByteLength = eh.hashPart (r + 1) (eh.xorHashes H l) := by
    intro l
    rw [rowOf, ← eh.length_hashPart r (eh.xorHashes H l), take_left, hashPart_succ eh hr]
    exact drop_left' (length_beBytes _ _)
  have hlen : (eh.K + 1 - r) * eh.collisionByteLength - eh.collisionByteLength + 2 * (4 * 2 ^ r) ≤ width := by
    have hdown : eh.K + 1 - r = eh.K - r + 1 := by omega
    rw [hdown, Nat.add_mul, Nat.one_mul, Nat.add_sub_cancel]
    rw [pow_succ] at hwidth
    omega
  unfold Row.merge
  rw [ehAssert_of (decide_eq_true hw), ehAssert_of (decide_eq_true hlen)]
  change Except.ok _ = _
  rw [htrim, htrim, hashPart_xor]
  congr 1
  have hinds := indices_rowOf H r l
  have hinds' := indices_rowOf H r l'
  rw [hl] at hinds
  rw [hl'] at hinds'
  by_cases hbef : (eh.rowOf H r l).indicesBefore (eh.rowOf H r l')
      ((eh.K + 1 - r) * eh.collisionByteLength) (4 * 2 ^ r) = true
  · rw [if_pos hbef, if_pos hbef, hinds, hinds', rowOf, xorHashes_append, flatMap_append]
  · rw [if_neg hbef, if_neg hbef, hinds, hinds', rowOf, xorHashes_append, flatMap_append,
      Nat.xor_comm]

/-! ### Rounds -/

/-- Two blocks of a level may be merged. -/
structure Joins (generateHash : eh.HashFn) (r : Nat) (l l' : List EhIndex) : Prop where
  collide : field (eh.xorHashes generateHash l) (eh.collisionBitLength * (eh.K - r)) eh.collisionBitLength =
    field (eh.xorHashes generateHash l') (eh.collisionBitLength * (eh.K - r)) eh.collisionBitLength
  disjoint : List.Disjoint l l'
  ordered : ∀ i ∈ l.head?, ∀ i' ∈ l'.head?, i < i'

theorem exists_cons (hl : l.length = 2 ^ r) : ∃ i t, l = i :: t := by
  refine exists_cons_of_length_pos ?_
  rw [hl]
  exact Nat.two_pow_pos r

theorem indicesBefore_of_disjoint (hl : l.length = 2 ^ r) (hl' : l'.length = 2 ^ r) (hb : ∀ i ∈ l, i < 2 ^ 32)
    (hb' : ∀ i ∈ l', i < 2 ^ 32) (hdisj : Disjoint l l') :
    (eh.rowOf H r l).indicesBefore (eh.rowOf H r l') ((eh.K + 1 - r) * eh.collisionByteLength)
    (4 * 2 ^ r) = true ↔ ∀ i ∈ l.head?, ∀ i' ∈ l'.head?, i < i' := by
  obtain ⟨i, t, rfl⟩ := exists_cons hl
  obtain ⟨i', t', rfl⟩ := exists_cons hl'
  have hne : i ≠ i' := by
    rintro rfl
    exact hdisj mem_cons_self mem_cons_self
  have hlen : t.length = t'.length := by
    simp only [length_cons] at hl hl'
    omega
  have hbef := indicesBefore_rowOf H r hlen (hb i mem_cons_self) (hb' i' mem_cons_self) hne
  rw [hl] at hbef
  rw [hbef]
  simp

theorem joins_iff (hr : r ≤ eh.K) (hl : l.length = 2 ^ r) (hl' : l'.length = 2 ^ r) (hb : ∀ i ∈ l, i < 2 ^ 32)
    (hb' : ∀ i ∈ l', i < 2 ^ 32) :
    ((eh.rowOf H r l).hasCollision (eh.rowOf H r l') eh.collisionByteLength = true ∧
      (eh.rowOf H r l').indicesBefore (eh.rowOf H r l) ((eh.K + 1 - r) * eh.collisionByteLength)
    (4 * 2 ^ r) = false ∧
      (eh.rowOf H r l).distinctIndices (eh.rowOf H r l') ((eh.K + 1 - r) * eh.collisionByteLength)
    (4 * 2 ^ r) = true) ↔ eh.Joins H r l l' := by
  have hdist := distinctIndices_rowOf H r (hl.trans hl'.symm) hb hb'
  rw [hl] at hdist
  -- Disjoint blocks have different first indices, so one of them is before the other.
  have hback : Disjoint l l' → ((eh.rowOf H r l').indicesBefore (eh.rowOf H r l)
      ((eh.K + 1 - r) * eh.collisionByteLength) (4 * 2 ^ r) = false ↔ ∀ i ∈ l.head?, ∀ i' ∈ l'.head?, i < i') := by
    intro hdisj
    rw [← Bool.not_eq_true, indicesBefore_of_disjoint H hl' hl hb' hb fun i h1 h2 => hdisj h2 h1]
    obtain ⟨i, t, rfl⟩ := exists_cons hl
    obtain ⟨i', t', rfl⟩ := exists_cons hl'
    have hne : i ≠ i' := by
      rintro rfl
      exact hdisj mem_cons_self mem_cons_self
    simp only [head?_cons, Option.mem_some_iff, forall_eq', not_lt]
    exact ⟨fun hle => lt_of_le_of_ne hle hne, le_of_lt⟩
  rw [hasCollision_rowOf H hr, hdist]
  constructor
  · rintro ⟨hcoll, hnot, hdisj⟩
    exact ⟨hcoll, hdisj, (hback hdisj).1 hnot⟩
  · rintro ⟨hcoll, hdisj, hord⟩
    exact ⟨hcoll, (hback hdisj).2 hord, hdisj⟩

theorem merge_of_joins {w : Nat} (hr : r ≤ eh.K) (hl : l.length = 2 ^ r) (hl' : l'.length = 2 ^ r)
    (hb : ∀ i ∈ l, i < 2 ^ 32) (hb' : ∀ i ∈ l', i < 2 ^ 32)
    (hw : (eh.K + 1 - r) * eh.collisionByteLength + 4 * 2 ^ r ≤ w)
    (hwidth : (eh.K - r) * eh.collisionByteLength + 4 * 2 ^ (r + 1) ≤ width) (h : eh.Joins H r l l') :
    Row.merge w width (eh.rowOf H r l) (eh.rowOf H r l') ((eh.K + 1 - r) * eh.collisionByteLength)
    (4 * 2 ^ r) eh.collisionByteLength =
        .ok (eh.rowOf H (r + 1) (l ++ l')) := by
  rw [merge_rowOf H hr hl hl' hw hwidth,
    if_pos ((indicesBefore_of_disjoint H hl hl' hb hb' h.disjoint).2 h.ordered)]

/-- A round over rows of blocks `B b` succeeds when neighbours may be merged, and leaves the rows of the blocks of twice
the length. -/
theorem verifyPairs_iff (h : eh.Suitable) (hr : r < eh.K) {B : Nat → List EhIndex} {s n : Nat}
    (hB : ∀ b < 2 * (s + n), (B b).length = 2 ^ r ∧ ∀ i ∈ B b, i < 2 ^ 32) (Xc : List Row) :
    eh.verifyPairs ((eh.K + 1 - r) * eh.collisionByteLength) (4 * 2 ^ r)
        ((range' (2 * s) (2 * n)).map fun b => eh.rowOf H r (B b)) = .ok Xc ↔
      (∀ b, s ≤ b → b < s + n → eh.Joins H r (B (2 * b)) (B (2 * b + 1))) ∧
      Xc = (range' s n).map fun b => eh.rowOf H (r + 1) (B (2 * b) ++ B (2 * b + 1)) := by
  induction n generalizing s Xc with
  | zero =>
    simp only [Nat.mul_zero, range'_zero, map_nil, verifyPairs, Except.ok.injEq]
    constructor
    · rintro rfl
      exact ⟨fun b h1 h2 => by omega, rfl⟩
    · rintro ⟨-, rfl⟩
      rfl
  | succ n ih =>
    have hrange : range' (2 * s) (2 * (n + 1)) = 2 * s :: (2 * s + 1) :: range' (2 * (s + 1)) (2 * n) := by
      rw [mul_succ, range'_succ, range'_succ]
      rfl
    obtain ⟨hl, hb⟩ := hB (2 * s) (by omega)
    obtain ⟨hl', hb'⟩ := hB (2 * s + 1) (by omega)
    have hjoins := joins_iff H hr.le hl hl' hb hb'
    have hB' : ∀ b < 2 * (s + 1 + n), (B b).length = 2 ^ r ∧ ∀ i ∈ B b, i < 2 ^ 32 := fun b hlt => hB b (by omega)
    rw [hrange, map_cons, map_cons, verifyPairs, range'_succ, map_cons]
    simp only [except_bind_ok, ehReject_ok, Bool.not_eq_false']
    constructor
    · rintro ⟨_, hcoll, _, hnot, _, hdist, row, hrow, Xc', hXc', hok⟩
      have hj := hjoins.1 ⟨hcoll, hnot, hdist⟩
      rw [merge_of_joins H hr.le hl hl' hb hb' (h.width_le hr.le)
        (by simpa using h.width_le (r := r + 1) hr) hj] at hrow
      obtain ⟨hall, rfl⟩ := (ih hB' Xc').1 hXc'
      cases hrow
      cases hok
      refine ⟨fun b h1 h2 => ?_, rfl⟩
      rcases Nat.eq_or_lt_of_le h1 with rfl | hlt
      · exact hj
      · exact hall b hlt (by omega)
    · rintro ⟨hall, rfl⟩
      have hj := hall s (le_refl s) (by omega)
      obtain ⟨hcoll, hnot, hdist⟩ := hjoins.2 hj
      exact ⟨(), hcoll, (), hnot, (), hdist, _, merge_of_joins H hr.le hl hl' hb hb' (h.width_le hr.le)
        (by simpa using h.width_le (r := r + 1) hr) hj, _, (ih hB' _).2 ⟨fun b h1 h2 => hall b (by omega) (by omega), rfl⟩, rfl⟩

theorem hashLength_succ {r : Nat} (hr : r < eh.K + 1) : (eh.K + 1 - r) * eh.collisionByteLength - eh.collisionByteLength =
    (eh.K + 1 - (r + 1)) * eh.collisionByteLength := by
  have : eh.K + 1 - r = eh.K + 1 - (r + 1) + 1 := by omega
  rw [this, Nat.add_mul, Nat.one_mul, Nat.add_sub_cancel]

theorem verifyRounds_eq (eh : Equihash) {X : List Row} (hX : 2 ≤ X.length) (hashLen lenIndices : Nat) :
    eh.verifyRounds X hashLen lenIndices = (do
      let Xc ← eh.verifyPairs hashLen lenIndices X
      eh.verifyRounds Xc (hashLen - eh.collisionByteLength) (lenIndices * 2)) := by
  match X, hX with
  | a :: b :: X, _ =>
    rw [verifyRounds]
    cases hpairs : eh.verifyPairs hashLen lenIndices (a :: b :: X) with
    | error e => rfl
    | ok Xc => rfl

theorem verifyRounds_iff (h : eh.Suitable) (hlen : l.length = 2 ^ eh.K) (hl : ∀ i ∈ l, i < 2 ^ 32) {m : Nat}
    (hr : r + m = eh.K) :
    eh.verifyRounds ((range (2 ^ m)).map fun b => eh.rowOf H r (block (2 ^ r) l b))
        ((eh.K + 1 - r) * eh.collisionByteLength) (4 * 2 ^ r) = .ok true ↔
      (∀ s, r ≤ s → s < eh.K → ∀ b < 2 ^ (eh.K - 1 - s),
        eh.Joins H s (block (2 ^ s) l (2 * b)) (block (2 ^ s) l (2 * b + 1))) ∧
      field (eh.xorHashes H l) 0 eh.collisionBitLength = 0 := by
  induction m generalizing r with
  | zero =>
    obtain rfl : r = eh.K := hr
    have hblock : block (2 ^ eh.K) l 0 = l := by
      rw [block, Nat.zero_mul, drop_zero, ← hlen, take_length]
    have hone : (range (2 ^ 0)).map (fun b => eh.rowOf H eh.K (block (2 ^ eh.K) l b)) =
        [eh.rowOf H eh.K l] := by
      change [eh.rowOf H eh.K (block (2 ^ eh.K) l 0)] = _
      rw [hblock]
    have hlast : (eh.rowOf H eh.K l).take ((eh.K + 1 - eh.K) * eh.collisionByteLength) =
        beBytes eh.collisionByteLength (field (eh.xorHashes H l) 0 eh.collisionBitLength) := by
      rw [rowOf, ← eh.length_hashPart eh.K (eh.xorHashes H l), take_left, hashPart_succ eh le_rfl,
        Nat.sub_self, Nat.mul_zero]
      simp [hashPart]
    rw [hone, verifyRounds, Except.ok.injEq, Row.isZero, hlast, beBytes_all_zero_iff (Suitable.field_lt eh _ _)]
    constructor
    · intro hzero
      exact ⟨fun s h1 h2 => by omega, hzero⟩
    · rintro ⟨-, hzero⟩
      exact hzero
  | succ m ih =>
    have hB : ∀ b < 2 * (0 + 2 ^ m), (block (2 ^ r) l b).length = 2 ^ r ∧ ∀ i ∈ block (2 ^ r) l b, i < 2 ^ 32 := by
      intro b hlt
      refine ⟨length_block ?_, fun i hi => hl i (mem_of_mem_drop (mem_of_mem_take hi))⟩
      rw [hlen, ← hr, pow_add, pow_succ, Nat.mul_comm (2 ^ r)]
      exact mul_le_mul_right _ (by omega)
    have htwo : 2 ≤ ((range (2 ^ (m + 1))).map fun b => eh.rowOf H r (block (2 ^ r) l b)).length := by
      rw [length_map, length_range, pow_succ]
      have := Nat.two_pow_pos m
      omega
    have hpairs := fun Xc => verifyPairs_iff H h (show r < eh.K by omega) hB Xc
    have hhalf : eh.K - 1 - r = m := by omega
    have hdouble : ∀ b, block (2 ^ r) l (2 * b) ++ block (2 ^ r) l (2 * b + 1) = block (2 ^ (r + 1)) l b := by
      intro b
      rw [pow_succ', block_double]
    rw [verifyRounds_eq eh htwo, except_bind_ok, range_eq_range', pow_succ, Nat.mul_comm (2 ^ m),
      hashLength_succ (by omega)]
    simp only [Nat.mul_zero, Nat.zero_add, hdouble] at hpairs
    constructor
    · rintro ⟨Xc, hXc, hrest⟩
      obtain ⟨hjoins, rfl⟩ := (hpairs Xc).1 hXc
      rw [← range_eq_range', Nat.mul_assoc, ← pow_succ, ih (by omega)] at hrest
      refine ⟨fun s h1 h2 b hlt => ?_, hrest.2⟩
      rcases Nat.eq_or_lt_of_le h1 with rfl | hlt'
      · rw [hhalf] at hlt
        exact hjoins b (zero_le b) hlt
      · exact hrest.1 s hlt' h2 b hlt
    · rintro ⟨hjoins, hzero⟩
      refine ⟨_, (hpairs _).2 ⟨fun b _ hlt => hjoins r (le_refl r) (by omega) b (by rwa [hhalf]), rfl⟩, ?_⟩
      rw [← range_eq_range', Nat.mul_assoc, ← pow_succ, ih (by omega)]
      exact ⟨fun s h1 h2 => hjoins s (by omega) h2, hzero⟩

theorem Suitable.solutionIndices_eq (h : eh.Suitable) {soln : List UInt8} (hlen : soln.length = eh.solutionWidth) :
    eh.solutionIndices soln = fields (eh.collisionBitLength + 1) (2 ^ eh.K) (beValue soln) := by
  refine map_congr_left fun j _ => ?_
  rw [solutionIndex, hlen, h.eight_mul_solutionWidth, Nat.mul_comm (2 ^ eh.K)]

theorem Suitable.getIndicesFromMinimal (h : eh.Suitable) {soln : List UInt8} (hlen : soln.length = eh.solutionWidth) :
    getIndicesFromMinimal soln eh.collisionBitLength = .ok (eh.solutionIndices soln) := by
  have hbits : 8 * soln.length = 2 ^ eh.K * (eh.collisionBitLength + 1) := by rw [hlen, h.eight_mul_solutionWidth]
  rw [h.solutionIndices_eq hlen]
  exact getIndicesFromMinimal_eq h.eight_le h.le_24 hbits

theorem length_hashBytes (hout : 0 < eh.indicesPerHashOutput) (i : EhIndex) :
    (eh.hashBytes H i).length = eh.N / 8 := by
  have hN := div_add_mod eh.N 8
  rw [eh.N_mod, Nat.add_zero] at hN
  have hlt := mod_lt i hout
  have hoffset : i % eh.indicesPerHashOutput * eh.N / 8 = i % eh.indicesPerHashOutput * (eh.N / 8) := by
    rw [← hN, Nat.mul_left_comm, Nat.mul_div_cancel_left _ (by decide), Nat.mul_div_cancel_left _ (by decide)]
  have houtput : eh.hashOutput = eh.indicesPerHashOutput * (eh.N / 8) := by
    rw [hashOutput, ← hN, Nat.mul_left_comm, Nat.mul_div_cancel_left _ (by decide), Nat.mul_div_cancel_left _ (by decide)]
  have hend := mul_le_mul_right (eh.N / 8) hlt
  rw [succ_mul] at hend
  rw [hashBytes, length_take, length_drop, Vector.length_toList, hoffset, houtput]
  omega

theorem indexHash_lt (hout : 0 < eh.indicesPerHashOutput) (i : EhIndex) : eh.indexHash H i < 2 ^ eh.N := by
  have hlt := beValue_lt (eh.hashBytes H i)
  rwa [length_hashBytes H hout, Nat.mul_div_cancel' (dvd_of_mod_eq_zero eh.N_mod)] at hlt

theorem xorHashes_lt (hout : 0 < eh.indicesPerHashOutput) (l : List EhIndex) :
    eh.xorHashes H l < 2 ^ eh.N := by
  induction l with
  | nil => exact Nat.two_pow_pos _
  | cons i l ih => exact xor_lt_two_pow (indexHash_lt H hout i) ih

theorem Suitable.rowFor (h : eh.Suitable) (hout : 0 < eh.indicesPerHashOutput) (hwidth : eh.hashLength ≤ width)
    (i : EhIndex) :
    eh.rowFor width H i = .ok (eh.rowOf H 0 [i]) := by
  have hbits : 8 * (eh.hashBytes H i).length = (eh.K + 1) * eh.collisionBitLength := by
    rw [length_hashBytes H hout, Nat.mul_div_cancel' (dvd_of_mod_eq_zero eh.N_mod), ← h.N_eq]
  have hc : 8 ≤ eh.collisionBitLength := h.eight_le
  have hc' : eh.collisionBitLength ≤ 24 := h.le_24
  have hexp := expandArray_eq (w := eh.collisionBitLength) 0 hc (by omega) hbits
  simp only [Nat.add_zero] at hexp
  unfold Equihash.rowFor fullStepRow
  rw [if_neg (Nat.pos_iff_ne_zero.1 hout), ehAssert_of (decide_eq_true hwidth), hashLength, collisionByteLength, hexp]
  change Except.ok _ = _
  rw [rowOf, flatMap_singleton, hashPart, Nat.sub_zero, ← range_eq_range', fields, flatMap_map]
  congr 2
  refine flatMap_congr fun j hj => ?_
  have hj' := mem_range.1 hj
  have hpos : eh.collisionBitLength * (eh.K + 1) - (j + 1) * eh.collisionBitLength =
      eh.collisionBitLength * (eh.K - j) := by
    rw [Nat.mul_comm, ← Nat.sub_mul, Nat.mul_comm]
    congr 1
    omega
  rw [hpos, collisionByteLength, xorHashes, map_singleton, foldr_cons, foldr_nil, xor_zero, indexHash]

/-! ### The definition, level by level -/

theorem solutionIndex_lt (eh : Equihash) (soln : List UInt8) (j : Nat) :
    eh.solutionIndex soln j < 2 ^ (eh.collisionBitLength + 1) := field_lt _ _ _

theorem Suitable.index_lt (h : eh.Suitable) (soln : List UInt8) : ∀ i ∈ eh.solutionIndices soln, i < 2 ^ 32 := by
  intro i hi
  obtain ⟨j, -, rfl⟩ := mem_map.1 hi
  have hc : eh.collisionBitLength ≤ 24 := h.le_24
  exact (eh.solutionIndex_lt soln j).trans_le (Nat.pow_le_pow_right (by decide) (by omega))

/-- Neighbouring blocks are joined on all levels. -/
def AllJoined (l : List EhIndex) : Prop :=
  ∀ s < eh.K, ∀ b < 2 ^ (eh.K - 1 - s),
    eh.Joins generateHash s (block (2 ^ s) l (2 * b)) (block (2 ^ s) l (2 * b + 1))

private theorem halves_lt {K s b : Nat} (hs : s < K) (hb : b < 2 ^ (K - (s + 1))) :
    2 * b < 2 ^ (K - s) ∧ 2 * b + 1 < 2 ^ (K - s) := by
  have hdown : K - s = K - (s + 1) + 1 := by omega
  rw [hdown, pow_succ]
  omega

theorem block_pow_succ (s : Nat) (l : List EhIndex) (b : Nat) :
    block (2 ^ (s + 1)) l b = block (2 ^ s) l (2 * b) ++ block (2 ^ s) l (2 * b + 1) := by
  rw [pow_succ', block_double]

theorem collides_iff (hout : 0 < eh.indicesPerHashOutput) (h : eh.Suitable) :
    (∀ r, 1 ≤ r → r ≤ eh.K → ∀ b < 2 ^ (eh.K - r),
      eh.xorHashes H (block (2 ^ r) l b) >>> (eh.N - r * (eh.N / (eh.K + 1))) = 0) ↔
    ∀ s < eh.K, ∀ b < 2 ^ (eh.K - 1 - s),
      field (eh.xorHashes H (block (2 ^ s) l (2 * b))) (eh.collisionBitLength * (eh.K - s))
          eh.collisionBitLength =
        field (eh.xorHashes H (block (2 ^ s) l (2 * b + 1))) (eh.collisionBitLength * (eh.K - s))
          eh.collisionBitLength := by
  have hfs : ∀ {r : Nat} (l : List EhIndex), r ≤ eh.K →
      (eh.xorHashes H l >>> (eh.N - r * (eh.N / (eh.K + 1))) = 0 ↔
        ∀ j < r, field (eh.xorHashes H l) (eh.collisionBitLength * (eh.K - j)) eh.collisionBitLength = 0) := by
    intro r l hr
    have hlt := xorHashes_lt H hout l
    rw [h.N_eq, Nat.mul_comm] at hlt
    have hpos : eh.N - r * (eh.N / (eh.K + 1)) = eh.collisionBitLength * (eh.K + 1 - r) := by
      change eh.N - r * eh.collisionBitLength = _
      rw [h.N_eq, ← Nat.sub_mul, Nat.mul_comm]
    rw [hpos, shiftRight_eq_zero_iff hlt (by omega)]
    rfl
  constructor
  · intro hcoll s hs b hb
    have hzero := (hfs _ (succ_le_of_lt hs)).1 (hcoll (s + 1) (by omega) hs b (by rwa [Nat.sub_sub, Nat.add_comm] at hb))
      s (lt_succ_self s)
    rw [block_pow_succ, xorHashes_append, field_xor] at hzero
    exact Nat.xor_eq_zero_iff.1 hzero
  · intro hjoin
    -- Level by level: the fields below are zero in both halves, the last one is equal in them.
    have hall : ∀ r, r ≤ eh.K → ∀ b < 2 ^ (eh.K - r), ∀ j < r,
        field (eh.xorHashes H (block (2 ^ r) l b)) (eh.collisionBitLength * (eh.K - j))
          eh.collisionBitLength = 0 := by
      intro r
      induction r with
      | zero => exact fun _ _ _ j hj => absurd hj (not_lt_zero j)
      | succ r ih =>
        intro hr b hb j hj
        obtain ⟨hleft, hright⟩ := halves_lt hr hb
        rw [block_pow_succ, xorHashes_append, field_xor]
        rcases Nat.lt_succ_iff_lt_or_eq.1 hj with hlt | rfl
        · rw [ih (by omega) _ hleft j hlt, ih (by omega) _ hright j hlt]
          rfl
        · rw [hjoin j (by omega) b (by rwa [Nat.sub_sub, Nat.add_comm]), Nat.xor_self]
    exact fun r _ hr b hb => (hfs _ hr).2 (hall r hr b hb)

theorem nodup_iff {K : Nat} (hlen : l.length = 2 ^ K) :
    l.Nodup ↔ ∀ s < K, ∀ b < 2 ^ (K - 1 - s), Disjoint (block (2 ^ s) l (2 * b)) (block (2 ^ s) l (2 * b + 1)) := by
  have hwhole : block (2 ^ K) l 0 = l := by
    rw [block, Nat.zero_mul, drop_zero, ← hlen, take_length]
  constructor
  · intro hnodup s _ b _
    have hsub : (block (2 ^ (s + 1)) l b).Nodup :=
      hnodup.sublist ((take_sublist _ _).trans (drop_sublist _ _))
    rw [block_pow_succ, nodup_append'] at hsub
    exact hsub.2.2
  · intro hdisj
    have hall : ∀ r, r ≤ K → ∀ b < 2 ^ (K - r), (block (2 ^ r) l b).Nodup := by
      intro r
      induction r with
      | zero =>
        intro _ b _
        have hle : (block (2 ^ 0) l b).length ≤ 1 := by
          rw [block, length_take]
          exact Nat.min_le_left _ _
        cases hb : block (2 ^ 0) l b with
        | nil => exact nodup_nil
        | cons i t =>
          rw [hb, length_cons] at hle
          rw [eq_nil_of_length_eq_zero (show t.length = 0 by omega)]
          exact nodup_singleton i
      | succ r ih =>
        intro hr b hb
        obtain ⟨hleft, hright⟩ := halves_lt hr hb
        rw [block_pow_succ, nodup_append']
        exact ⟨ih (by omega) _ hleft, ih (by omega) _ hright, hdisj r hr b (by rwa [Nat.sub_sub, Nat.add_comm])⟩
    have := hall K le_rfl 0 (by simp)
    rwa [hwhole] at this

/-! ### The verifier -/

theorem Suitable.rows (h : eh.Suitable) (hout : 0 < eh.indicesPerHashOutput) (hwidth : eh.hashLength ≤ width)
    (l : List EhIndex) :
    l.mapM (eh.rowFor width H) = .ok (l.map fun i => eh.rowOf H 0 [i]) :=
  mapM_ok fun i _ => h.rowFor H hout hwidth i

theorem isValidSolution_allJoined (h : eh.Suitable) (soln : List UInt8) :
    eh.isValidSolution H soln = .ok true ↔
      soln.length = eh.solutionWidth ∧ 0 < eh.indicesPerHashOutput ∧
      AllJoined H (eh.solutionIndices soln) ∧
      field (eh.xorHashes H (eh.solutionIndices soln)) 0 eh.collisionBitLength = 0 := by
  have hcount : (eh.solutionIndices soln).length = 2 ^ eh.K := by simp [solutionIndices]
  rw [isValidSolution]
  simp only [except_bind_ok, ehReject_ok, decide_eq_false_iff_not, Decidable.not_not]
  by_cases hlen : soln.length = eh.solutionWidth
  · rw [h.getIndicesFromMinimal hlen]
    by_cases hout : 0 < eh.indicesPerHashOutput
    · have hwidth : eh.hashLength ≤ eh.finalFullWidth := by
        have := h.width_le (zero_le eh.K)
        rw [Nat.sub_zero] at this
        rw [hashLength]
        omega
      have hbs : (eh.solutionIndices soln).map (fun i => eh.rowOf H 0 [i]) =
          (range (2 ^ eh.K)).map fun b => eh.rowOf H 0 (block (2 ^ 0) (eh.solutionIndices soln) b) := by
        rw [← hcount]
        refine ext_getElem (by simp) fun n hn _ => ?_
        have hn' : n < (eh.solutionIndices soln).length := by simpa using hn
        rw [getElem_map, getElem_map, getElem_range, block, pow_zero, Nat.mul_one,
          drop_eq_getElem_cons hn']
        rfl
      have hrs := verifyRounds_iff H h hcount (h.index_lt soln) (Nat.zero_add eh.K)
      rw [Nat.sub_zero, pow_zero, Nat.mul_one] at hrs
      constructor
      · rintro ⟨_, -, l, hl, X, hX, hverify⟩
        cases hl
        rw [h.rows H hout hwidth, hbs] at hX
        cases hX
        obtain ⟨hjoins, hzero⟩ := hrs.1 hverify
        exact ⟨hlen, hout, fun s => hjoins s (zero_le s), hzero⟩
      · rintro ⟨-, -, hjoins, hzero⟩
        refine ⟨(), hlen, _, rfl, _, ?_, hrs.2 ⟨fun s _ => hjoins s, hzero⟩⟩
        rw [h.rows H hout hwidth, hbs, pow_zero]
    · -- The first index is divided by zero.
      constructor
      · rintro ⟨_, -, l, hl, X, hX, -⟩
        cases hl
        obtain ⟨i, t, hcons⟩ := exists_cons hcount
        rw [hcons, mapM_cons, rowFor, if_pos (Nat.eq_zero_of_not_pos hout)] at hX
        cases hX
      · rintro ⟨-, hpos, -⟩
        exact absurd hpos hout
  · constructor
    · rintro ⟨_, hlen', -⟩
      exact absurd hlen' hlen
    · rintro ⟨hlen', -⟩
      exact absurd hlen' hlen

theorem getElem?_solutionIndices (eh : Equihash) (soln : List UInt8) {j : Nat} (hj : j < 2 ^ eh.K) :
    (eh.solutionIndices soln)[j]? = some (eh.solutionIndex soln j) := by
  simp [solutionIndices, hj]

theorem nodup_solutionIndices (eh : Equihash) (soln : List UInt8) : (eh.solutionIndices soln).Nodup ↔
    ∀ i < 2 ^ eh.K, ∀ j < 2 ^ eh.K, eh.solutionIndex soln i = eh.solutionIndex soln j → i = j := by
  rw [solutionIndices, nodup_map_iff_inj_on nodup_range]
  simp only [mem_range]

theorem ordered_iff (eh : Equihash) (soln : List UInt8) {s b : Nat} (hs : s < eh.K) (hb : b < 2 ^ (eh.K - 1 - s)) :
    (∀ i ∈ (block (2 ^ s) (eh.solutionIndices soln) (2 * b)).head?,
      ∀ i' ∈ (block (2 ^ s) (eh.solutionIndices soln) (2 * b + 1)).head?, i < i') ↔
    eh.solutionIndex soln (b * 2 ^ (s + 1)) < eh.solutionIndex soln (b * 2 ^ (s + 1) + 2 ^ s) := by
  have hpos := Nat.two_pow_pos s
  have hend : (b + 1) * 2 ^ (s + 1) ≤ 2 ^ eh.K := by
    have hsum : eh.K = eh.K - 1 - s + (s + 1) := by omega
    rw [hsum, pow_add 2 (eh.K - 1 - s)]
    exact mul_le_mul_right _ hb
  have h1 : 2 * b * 2 ^ s = b * 2 ^ (s + 1) := by ring
  have h2 : (2 * b + 1) * 2 ^ s = b * 2 ^ (s + 1) + 2 ^ s := by ring
  have h3 : (b + 1) * 2 ^ (s + 1) = b * 2 ^ (s + 1) + 2 ^ s + 2 ^ s := by ring
  rw [head?_eq_getElem?, head?_eq_getElem?, getElem?_block hpos, getElem?_block hpos, Nat.add_zero,
    Nat.add_zero, h1, h2, getElem?_solutionIndices eh soln (by omega), getElem?_solutionIndices eh soln (by omega)]
  simp

/-- The verifier accepts exactly the solutions. -/
theorem isValidSolution_iff (eh : Equihash) (h : eh.Suitable) (generateHash : eh.HashFn) (soln : List UInt8) :
    eh.isValidSolution generateHash soln = .ok true ↔ eh.IsSolution generateHash soln := by
  have hcount : (eh.solutionIndices soln).length = 2 ^ eh.K := by simp [solutionIndices]
  rw [isValidSolution_allJoined generateHash h]
  constructor
  · rintro ⟨hlen, hout, hjoins, hlast⟩
    have hcoll := (collides_iff generateHash hout h).2 fun s hs b hb => (hjoins s hs b hb).collide
    refine ⟨hlen, hout, ?_, hcoll, ?_, ?_⟩
    · exact (nodup_solutionIndices eh soln).1 ((nodup_iff hcount).2 fun s hs b hb => (hjoins s hs b hb).disjoint)
    · intro r hr hr' b hb
      obtain ⟨s, rfl⟩ : ∃ s, r = s + 1 := ⟨r - 1, by omega⟩
      have hb' : b < 2 ^ (eh.K - 1 - s) := by rwa [Nat.sub_sub, Nat.add_comm]
      exact (ordered_iff eh soln hr' hb').1 (hjoins s hr' b hb').ordered
    · have hfirst := hcoll eh.K (by have := h.three_le_K; omega) le_rfl 0 (by simp)
      have hwhole : block (2 ^ eh.K) (eh.solutionIndices soln) 0 = eh.solutionIndices soln := by
        rw [block, Nat.zero_mul, drop_zero, ← hcount, take_length]
      have hpos : eh.N - eh.K * (eh.N / (eh.K + 1)) = 0 + eh.collisionBitLength := by
        change eh.N - eh.K * eh.collisionBitLength = _
        rw [h.N_eq, Nat.add_mul, Nat.one_mul]
        omega
      rw [hwhole, hpos] at hfirst
      exact field_zero_iff.2 ⟨hfirst, hlast⟩
  · rintro ⟨hlen, hout, hdist, hcoll, hord, hzero⟩
    have hnodup := (nodup_iff hcount).1 ((nodup_solutionIndices eh soln).2 hdist)
    have hcollide := (collides_iff generateHash hout h).1 hcoll
    refine ⟨hlen, hout, fun s hs b hb => ⟨hcollide s hs b hb, hnodup s hs b hb, ?_⟩, ?_⟩
    · exact (ordered_iff eh soln hs hb).2 (hord (s + 1) (by omega) hs b (by rwa [Nat.sub_sub, Nat.add_comm] at hb))
    · rw [hzero]
      simp [field]

def eh48_5 : Equihash := ⟨48, 5, by decide, by decide, by decide⟩

theorem suitable_eh48_5 : eh48_5.Suitable := ⟨by decide, by decide, by decide, by decide⟩

def firstIndices : List UInt8 :=
  [0, 0, 64, 64, 48, 32, 20, 12, 7, 4, 2, 65, 64, 176, 96, 52, 28, 15, 8, 4, 66, 65, 48, 160, 84, 44, 23, 12, 6,
    67, 65, 176, 224, 116, 60, 31]

/-- When all hashes are zero they are a solution. -/
theorem isValidSolution_iff_firstIndices :
    eh48_5.isValidSolution (fun _ => .replicate _ 0) firstIndices = .ok true ∧
      eh48_5.IsSolution (fun _ => .replicate _ 0) firstIndices := by
  have hvalid : eh48_5.isValidSolution (fun _ => .replicate _ 0) firstIndices = .ok true := by decide +kernel
  exact ⟨hvalid, (isValidSolution_iff eh48_5 suitable_eh48_5 _ firstIndices).1 hvalid⟩

end Equihash

end LitecoinZ
