import Mathlib.Data.List.Induction
import Mathlib.Data.Nat.ModEq
import LitecoinZ.Primitives.Serialize

/-!
# Variable-length integers

`GetSizeOfVarInt`, `WriteVarInt` and `ReadVarInt` of `serialize.h` for an unsigned type of `w` bits.  All bytes of a code but
the last have their highest bit set, and count for one more than their digit.  So a number has one code, which fits the
buffer; but the reader drops what leaves the type, and takes bytes for the code of another number just when the number that
they stand for is not one of the type (`varInt_unique_iff`).
-/

namespace LitecoinZ.VarInt

open List Nat

def getSizeOfVarInt (n : Nat) : Nat := if n ≤ 0x7F then 1 else getSizeOfVarInt (n / 128 - 1) + 1
termination_by n
decreasing_by omega

/-- The loop of `WriteVarInt` with so many bytes of `tmp` left; `high` is set in the next one. -/
def fill : Nat → Nat → Nat → Except Fault (List UInt8)
  | 0, _, _ => .error (.exception "index past the end")
  | room + 1, n, high => do
    let bytes ← if n ≤ 0x7F then .ok [] else fill room (n / 128 - 1) 0x80
    pure (bytes ++ [UInt8.ofNat (n % 128 + high)])

def writeVarInt (w n : Nat) : Except Fault (List UInt8) := fill ((w + 6) / 7) n 0

def readVarInt (w : Nat) : Nat → List UInt8 → Except Fault (Nat × List UInt8)
  | _, [] => .error endOfData
  | n, chData :: bytes =>
    let n := (n * 128 + chData.toNat % 128) % 2 ^ w
    if chData &&& 0x80 ≠ 0 then readVarInt w ((n + 1) % 2 ^ w) bytes else .ok (n, bytes)

/-- The number with one more byte behind it. -/
def digit (n : Nat) (ch : UInt8) : Nat := n * 128 + ch.toNat % 128 + ch.toNat / 128

/-- The number that bytes stand for. -/
def value (bytes : List UInt8) : Nat := bytes.foldl digit 0

/-- Another byte follows each of them. -/
def Continued (bytes : List UInt8) : Prop := ∀ ch ∈ bytes, 128 ≤ ch.toNat

variable {w n acc room : Nat} {c c' bytes rest : List UInt8} {ch : UInt8}

private theorem high_iff : ch &&& 0x80 ≠ 0 ↔ 128 ≤ ch.toNat := by
  have h : ∀ m < 256, UInt8.ofNat m &&& 0x80 ≠ 0 ↔ 128 ≤ m := by decide +kernel
  simpa using h ch.toNat ch.toNat_lt

private theorem value_concat : value (c ++ [ch]) = value c * 128 + ch.toNat % 128 + ch.toNat / 128 := by
  simp [value, digit]

private theorem continued_concat : Continued (c ++ [ch]) ↔ Continued c ∧ 128 ≤ ch.toNat := by
  simp [Continued, or_imp, forall_and]

private theorem read_continued (h : Continued c) :
    readVarInt w (acc % 2 ^ w) (c ++ rest) = readVarInt w (c.foldl digit acc % 2 ^ w) rest := by
  induction c generalizing acc with
  | nil => rfl
  | cons ch c ih =>
    obtain ⟨hch, hc⟩ := forall_mem_cons.1 h
    have hlt := ch.toNat_lt
    have hdigit : digit acc ch = acc * 128 + ch.toNat % 128 + 1 := by
      unfold digit
      omega
    have hmod : (acc % 2 ^ w * 128 + ch.toNat % 128 + 1) % 2 ^ w = digit acc ch % 2 ^ w := by
      rw [hdigit]
      exact (((mod_modEq acc _).mul_right 128).add_right _).add_right 1
    rw [cons_append, readVarInt, if_pos (high_iff.2 hch), mod_add_mod, hmod]
    exact ih hc

private theorem read_code (h : Continued c) (hch : ch.toNat < 128) :
    readVarInt w 0 (c ++ ch :: rest) = .ok (value (c ++ [ch]) % 2 ^ w, rest) := by
  have hmod := ((mod_modEq (value c) (2 ^ w)).mul_right 128).add_right (ch.toNat % 128)
  have hread := @read_continued w 0 c (ch :: rest) h
  rw [zero_mod] at hread
  rw [hread, readVarInt, if_neg (fun hb => absurd (high_iff.1 hb) (by omega)), value_concat, div_eq_of_lt hch]
  exact congrArg (fun n => Except.ok (n, rest)) hmod

private theorem exists_code (h : readVarInt w acc bytes = .ok (n, rest)) :
    ∃ c ch, bytes = c ++ ch :: rest ∧ Continued c ∧ ch.toNat < 128 := by
  induction bytes generalizing acc with
  | nil => cases h
  | cons ch bytes ih =>
    rw [readVarInt] at h
    split at h
    · rename_i hhigh
      obtain ⟨c, last, rfl, hc, hlast⟩ := ih h
      exact ⟨ch :: c, last, rfl, forall_mem_cons.2 ⟨high_iff.1 hhigh, hc⟩, hlast⟩
    · rename_i hlow
      cases h
      exact ⟨[], ch, rfl, by simp [Continued], Nat.lt_of_not_le fun hge => hlow (high_iff.2 hge)⟩

/-! ### Writing -/

theorem fill_ok (hn : n < 128 ^ (room + 1)) (high : Nat) :
    ∃ c, fill (room + 1) n high = .ok (c ++ [UInt8.ofNat (n % 128 + high)]) ∧ Continued c ∧ value c = n / 128 ∧
      c.length + 1 = getSizeOfVarInt n ∧ c.length ≤ room := by
  induction room generalizing n high with
  | zero =>
    have hlow : n ≤ 0x7F := by omega
    refine ⟨[], by simp [fill, hlow], by simp [Continued], ?_, by simp [getSizeOfVarInt, hlow], le_refl 0⟩
    simp [value]
    omega
  | succ room ih =>
    by_cases hlow : n ≤ 0x7F
    · refine ⟨[], by simp [fill, hlow], by simp [Continued], ?_, by simp [getSizeOfVarInt, hlow], zero_le _⟩
      simp [value]
      omega
    · have hquot : n / 128 - 1 < 128 ^ (room + 1) := by
        rw [Nat.pow_succ] at hn
        omega
      obtain ⟨c, hfill, hc, hvalue, hsize, hroom⟩ := ih hquot 0x80
      have hbyte : (UInt8.ofNat ((n / 128 - 1) % 128 + 0x80)).toNat = (n / 128 - 1) % 128 + 0x80 := by
        rw [UInt8.toNat_ofNat']
        omega
      refine ⟨_, ?_, continued_concat.2 ⟨hc, by rw [hbyte]; omega⟩, ?_, ?_, by simpa using hroom⟩
      · rw [fill, if_neg hlow, hfill]
        rfl
      · rw [value_concat, hvalue, hbyte]
        omega
      · rw [getSizeOfVarInt, if_neg hlow, ← hsize, length_append, length_singleton]

private theorem value_inj (h : Continued c) (h' : Continued c') (heq : value c = value c') : c = c' := by
  induction c using List.reverseRecOn generalizing c' with
  | nil =>
    rcases eq_nil_or_concat' c' with rfl | ⟨d, ch, rfl⟩
    · rfl
    · have := (continued_concat.1 h').2
      rw [value_concat] at heq
      simp [value] at heq
      omega
  | append_singleton c ch ih =>
    obtain ⟨hc, hch⟩ := continued_concat.1 h
    have hlt := ch.toNat_lt
    rcases eq_nil_or_concat' c' with rfl | ⟨d, ch', rfl⟩
    · rw [value_concat] at heq
      simp [value] at heq
      omega
    · obtain ⟨hd, hch'⟩ := continued_concat.1 h'
      have hlt' := ch'.toNat_lt
      rw [value_concat, value_concat] at heq
      rw [ih hc hd (by omega), UInt8.toNat_inj.1 (show ch.toNat = ch'.toNat by omega)]

private theorem write_ok (hw : 0 < w) (hn : n < 2 ^ w) :
    ∃ c ch, writeVarInt w n = .ok (c ++ [ch]) ∧ Continued c ∧ ch.toNat = n % 128 ∧ value (c ++ [ch]) = n ∧
      c.length + 1 = getSizeOfVarInt n ∧ c.length + 1 ≤ (w + 6) / 7 := by
  obtain ⟨room, hroom⟩ : ∃ room, (w + 6) / 7 = room + 1 := ⟨(w + 6) / 7 - 1, by omega⟩
  have hlt : n < 128 ^ (room + 1) := by
    refine hn.trans_le ?_
    rw [show (128 : Nat) = 2 ^ 7 from rfl, ← Nat.pow_mul]
    exact Nat.pow_le_pow_right Nat.two_pos (by omega)
  obtain ⟨c, hfill, hc, hvalue, hsize, hlen⟩ := fill_ok hlt 0
  have hbyte : (UInt8.ofNat (n % 128 + 0)).toNat = n % 128 := by
    rw [UInt8.toNat_ofNat']
    omega
  refine ⟨c, _, by rw [writeVarInt, hroom, hfill], hc, hbyte, ?_, hsize, by omega⟩
  rw [value_concat, hvalue, hbyte]
  omega

theorem read_write (hw : 0 < w) (hn : n < 2 ^ w) :
    ∃ bytes, writeVarInt w n = .ok bytes ∧ bytes.length = getSizeOfVarInt n ∧ bytes.length ≤ (w + 6) / 7 ∧
      ∀ rest, readVarInt w 0 (bytes ++ rest) = .ok (n, rest) := by
  obtain ⟨c, ch, hrun, hc, hch, hvalue, hsize, hlen⟩ := write_ok hw hn
  refine ⟨_, hrun, by simpa using hsize, by simpa using hlen, fun rest => ?_⟩
  rw [append_assoc, singleton_append, read_code hc (by omega), hvalue, mod_eq_of_lt hn]

/-- A number has one code, which fits the buffer and is read again; other bytes are read as it just when they stand for a
number that is not in the type. -/
theorem varInt_unique_iff (hw : w = 32 ∨ w = 64) :
    (∀ n < 2 ^ w, ∃ bytes, writeVarInt w n = .ok bytes ∧ bytes.length = getSizeOfVarInt n ∧ bytes.length ≤ (w + 6) / 7 ∧
      ∀ rest, readVarInt w 0 (bytes ++ rest) = .ok (n, rest)) ∧
    ∀ bytes n rest, readVarInt w 0 bytes = .ok (n, rest) → ∃ consumed, bytes = consumed ++ rest ∧
      (writeVarInt w n = .ok consumed ↔ value consumed < 2 ^ w) := by
  have hpos : 0 < w := by omega
  refine ⟨fun n hn => read_write hpos hn, fun bytes n rest hread => ?_⟩
  obtain ⟨c, ch, rfl, hc, hch⟩ := exists_code hread
  rw [read_code hc hch] at hread
  cases hread
  refine ⟨c ++ [ch], by simp, ?_⟩
  have hmod : value (c ++ [ch]) % 2 ^ w < 2 ^ w := Nat.mod_lt _ (Nat.two_pow_pos w)
  obtain ⟨c', ch', hrun, hc', hch', hvalue, -⟩ := write_ok hpos hmod
  rw [hrun]
  constructor
  · intro heq
    rwa [← Except.ok.inj heq, hvalue]
  · intro hlt
    rw [Nat.mod_eq_of_lt hlt] at hvalue hch'
    rw [value_concat, value_concat] at hvalue
    rw [value_concat] at hch'
    rw [value_inj hc' hc (by omega), UInt8.toNat_inj.1 (show ch'.toNat = ch.toNat by omega)]

/-- The code of 128, and a byte behind it. -/
theorem varInt_unique_iff_two : ∃ consumed, [0x80, 0x00, 7] = consumed ++ [7] ∧
    (writeVarInt 32 128 = .ok consumed ↔ value consumed < 2 ^ 32) :=
  (varInt_unique_iff (.inl rfl)).2 [0x80, 0x00, 7] 128 [7] (by decide)

/-- The code of `2 ^ 32` is read as 0, which has another code. -/
theorem readVarInt_wraps : readVarInt 32 0 [0x8E, 0xFE, 0xFE, 0xFF, 0x00] = .ok (0, []) ∧
    writeVarInt 32 0 = .ok [0x00] := by
  decide

end LitecoinZ.VarInt
