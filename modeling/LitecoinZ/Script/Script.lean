import Mathlib.Data.Nat.Digits.Lemmas
import LitecoinZ.Primitives.Transaction

/-!
# Scripts

`script/script.h`: the opcodes, the numbers of scripts (`CScriptNum`) and how scripts are written and read.  A script
starts with at most one height, as `CScript() << nHeight` writes it (`pushInt64_inj_of_prefix`).
-/

namespace LitecoinZ

open List

/-! ### Opcodes -/

@[match_pattern] def OP_0 : UInt8 := 0x00
@[match_pattern] def OP_PUSHDATA1 : UInt8 := 0x4c
@[match_pattern] def OP_PUSHDATA2 : UInt8 := 0x4d
@[match_pattern] def OP_PUSHDATA4 : UInt8 := 0x4e
@[match_pattern] def OP_1 : UInt8 := 0x51
@[match_pattern] def OP_1NEGATE : UInt8 := 0x4f
@[match_pattern] def OP_2 : UInt8 := 0x52
@[match_pattern] def OP_3 : UInt8 := 0x53
@[match_pattern] def OP_4 : UInt8 := 0x54
@[match_pattern] def OP_5 : UInt8 := 0x55
@[match_pattern] def OP_6 : UInt8 := 0x56
@[match_pattern] def OP_7 : UInt8 := 0x57
@[match_pattern] def OP_8 : UInt8 := 0x58
@[match_pattern] def OP_9 : UInt8 := 0x59
@[match_pattern] def OP_10 : UInt8 := 0x5a
@[match_pattern] def OP_11 : UInt8 := 0x5b
@[match_pattern] def OP_12 : UInt8 := 0x5c
@[match_pattern] def OP_13 : UInt8 := 0x5d
@[match_pattern] def OP_14 : UInt8 := 0x5e
@[match_pattern] def OP_15 : UInt8 := 0x5f
@[match_pattern] def OP_16 : UInt8 := 0x60

@[match_pattern] def OP_NOP : UInt8 := 0x61
@[match_pattern] def OP_IF : UInt8 := 0x63
@[match_pattern] def OP_NOTIF : UInt8 := 0x64
@[match_pattern] def OP_ELSE : UInt8 := 0x67
@[match_pattern] def OP_ENDIF : UInt8 := 0x68
@[match_pattern] def OP_VERIFY : UInt8 := 0x69

@[match_pattern] def OP_TOALTSTACK : UInt8 := 0x6b
@[match_pattern] def OP_FROMALTSTACK : UInt8 := 0x6c
@[match_pattern] def OP_2DROP : UInt8 := 0x6d
@[match_pattern] def OP_2DUP : UInt8 := 0x6e
@[match_pattern] def OP_3DUP : UInt8 := 0x6f
@[match_pattern] def OP_2OVER : UInt8 := 0x70
@[match_pattern] def OP_2ROT : UInt8 := 0x71
@[match_pattern] def OP_2SWAP : UInt8 := 0x72
@[match_pattern] def OP_IFDUP : UInt8 := 0x73
@[match_pattern] def OP_DEPTH : UInt8 := 0x74
@[match_pattern] def OP_DROP : UInt8 := 0x75
@[match_pattern] def OP_DUP : UInt8 := 0x76
@[match_pattern] def OP_NIP : UInt8 := 0x77
@[match_pattern] def OP_OVER : UInt8 := 0x78
@[match_pattern] def OP_PICK : UInt8 := 0x79
@[match_pattern] def OP_ROLL : UInt8 := 0x7a
@[match_pattern] def OP_ROT : UInt8 := 0x7b
@[match_pattern] def OP_SWAP : UInt8 := 0x7c
@[match_pattern] def OP_TUCK : UInt8 := 0x7d

@[match_pattern] def OP_CAT : UInt8 := 0x7e
@[match_pattern] def OP_SUBSTR : UInt8 := 0x7f
@[match_pattern] def OP_LEFT : UInt8 := 0x80
@[match_pattern] def OP_RIGHT : UInt8 := 0x81
@[match_pattern] def OP_SIZE : UInt8 := 0x82

@[match_pattern] def OP_INVERT : UInt8 := 0x83
@[match_pattern] def OP_AND : UInt8 := 0x84
@[match_pattern] def OP_OR : UInt8 := 0x85
@[match_pattern] def OP_XOR : UInt8 := 0x86
@[match_pattern] def OP_EQUAL : UInt8 := 0x87
@[match_pattern] def OP_EQUALVERIFY : UInt8 := 0x88

@[match_pattern] def OP_1ADD : UInt8 := 0x8b
@[match_pattern] def OP_1SUB : UInt8 := 0x8c
@[match_pattern] def OP_2MUL : UInt8 := 0x8d
@[match_pattern] def OP_2DIV : UInt8 := 0x8e
@[match_pattern] def OP_NEGATE : UInt8 := 0x8f
@[match_pattern] def OP_ABS : UInt8 := 0x90
@[match_pattern] def OP_NOT : UInt8 := 0x91
@[match_pattern] def OP_0NOTEQUAL : UInt8 := 0x92
@[match_pattern] def OP_ADD : UInt8 := 0x93
@[match_pattern] def OP_SUB : UInt8 := 0x94
@[match_pattern] def OP_MUL : UInt8 := 0x95
@[match_pattern] def OP_DIV : UInt8 := 0x96
@[match_pattern] def OP_MOD : UInt8 := 0x97
@[match_pattern] def OP_LSHIFT : UInt8 := 0x98
@[match_pattern] def OP_RSHIFT : UInt8 := 0x99
@[match_pattern] def OP_BOOLAND : UInt8 := 0x9a
@[match_pattern] def OP_BOOLOR : UInt8 := 0x9b
@[match_pattern] def OP_NUMEQUAL : UInt8 := 0x9c
@[match_pattern] def OP_NUMEQUALVERIFY : UInt8 := 0x9d
@[match_pattern] def OP_NUMNOTEQUAL : UInt8 := 0x9e
@[match_pattern] def OP_LESSTHAN : UInt8 := 0x9f
@[match_pattern] def OP_GREATERTHAN : UInt8 := 0xa0
@[match_pattern] def OP_LESSTHANOREQUAL : UInt8 := 0xa1
@[match_pattern] def OP_GREATERTHANOREQUAL : UInt8 := 0xa2
@[match_pattern] def OP_MIN : UInt8 := 0xa3
@[match_pattern] def OP_MAX : UInt8 := 0xa4
@[match_pattern] def OP_WITHIN : UInt8 := 0xa5

@[match_pattern] def OP_RIPEMD160 : UInt8 := 0xa6
@[match_pattern] def OP_SHA1 : UInt8 := 0xa7
@[match_pattern] def OP_SHA256 : UInt8 := 0xa8
@[match_pattern] def OP_HASH160 : UInt8 := 0xa9
@[match_pattern] def OP_HASH256 : UInt8 := 0xaa
@[match_pattern] def OP_CODESEPARATOR : UInt8 := 0xab
@[match_pattern] def OP_CHECKSIG : UInt8 := 0xac
@[match_pattern] def OP_CHECKSIGVERIFY : UInt8 := 0xad
@[match_pattern] def OP_CHECKMULTISIG : UInt8 := 0xae
@[match_pattern] def OP_CHECKMULTISIGVERIFY : UInt8 := 0xaf

@[match_pattern] def OP_NOP1 : UInt8 := 0xb0
@[match_pattern] def OP_CHECKLOCKTIMEVERIFY : UInt8 := 0xb1
@[match_pattern] def OP_NOP3 : UInt8 := 0xb2
@[match_pattern] def OP_NOP4 : UInt8 := 0xb3
@[match_pattern] def OP_NOP5 : UInt8 := 0xb4
@[match_pattern] def OP_NOP6 : UInt8 := 0xb5
@[match_pattern] def OP_NOP7 : UInt8 := 0xb6
@[match_pattern] def OP_NOP8 : UInt8 := 0xb7
@[match_pattern] def OP_NOP9 : UInt8 := 0xb8
@[match_pattern] def OP_NOP10 : UInt8 := 0xb9

/-! ### Numbers and scripts -/

/-- The little endian bytes of a number, as the loops on `absvalue` and `WriteLE16` and `WriteLE32` write them. -/
def leBytes (n : Nat) : List UInt8 := (Nat.digits 256 n).map UInt8.ofNat

/-- `CScriptNum::serialize`: the top bit of the last byte is the sign. -/
def CScriptNum.serialize (value : Int) : List UInt8 :=
  if value = 0 then []
  else
    let result := leBytes value.natAbs
    if result.getLastD 0 &&& 0x80 ≠ 0 then result ++ [if value < 0 then 0x80 else 0]
    else if value < 0 then result.dropLast ++ [result.getLastD 0 ||| 0x80]
    else result

/-- The bytes of a number, filled up with zeros to a width. -/
def writeLE (width n : Nat) : List UInt8 := leBytes n ++ List.replicate (width - (leBytes n).length) 0

def readLE (bytes : List UInt8) : Nat := Nat.ofDigits 256 (bytes.map UInt8.toNat)

/-- `CScriptNum::set_vch`.  The top bit of the last byte is cleared and read as the sign. -/
def CScriptNum.setVch (vch : List UInt8) : Int :=
  if vch.getLastD 0 &&& 0x80 ≠ 0 then -((readLE vch % 0x80 <<< (8 * (vch.length - 1)) : Nat) : Int) else readLE vch

/-- A number is longer than it has to be: the last byte adds no more than a sign that the byte before had room for. -/
def CScriptNum.padded (vch : List UInt8) : Bool :=
  vch.length > 0 && vch.getLastD 0 &&& 0x7f == 0 &&
    (vch.length ≤ 1 || vch.getD (vch.length - 2) 0 &&& 0x80 == 0)

def CScriptNum.getint (n : Int) : Int := max (-2 ^ 31) (min n (2 ^ 31 - 1))

namespace CScript

def pushData (b : List UInt8) : CScript :=
  if b.length < OP_PUSHDATA1.toNat then UInt8.ofNat b.length :: b
  else if b.length ≤ 0xff then OP_PUSHDATA1 :: UInt8.ofNat b.length :: b
  else if b.length ≤ 0xffff then OP_PUSHDATA2 :: writeLE 2 b.length ++ b
  else OP_PUSHDATA4 :: writeLE 4 b.length ++ b

def pushInt64 (n : Int) : CScript :=
  if n = -1 ∨ 1 ≤ n ∧ n ≤ 16 then [UInt8.ofNat (n + (OP_1.toNat - 1)).toNat]
  else if n = 0 then [OP_0]
  else pushData (CScriptNum.serialize n)

/-- The size in front of pushed data. -/
def readSize (width : Nat) (pc : CScript) : Option (Nat × CScript) :=
  if pc.length < width then none else some (readLE (pc.take width), pc.drop width)

def sizeOfPush (opcode : UInt8) (pc : CScript) : Option (Nat × CScript) :=
  if opcode < OP_PUSHDATA1 then some (opcode.toNat, pc)
  else if opcode = OP_PUSHDATA1 then readSize 1 pc
  else if opcode = OP_PUSHDATA2 then readSize 2 pc
  else readSize 4 pc

/-- `GetOp2`, at the rest of a script: the opcode, the data it pushes and what follows. -/
def getOp : CScript → Option (UInt8 × List UInt8 × CScript)
  | [] => none
  | opcode :: pc =>
    if opcode ≤ OP_PUSHDATA4 then
      match sizeOfPush opcode pc with
      | none => none
      | some (nSize, pc') => if pc'.length < nSize then none else some (opcode, pc'.take nSize, pc'.drop nSize)
    else some (opcode, [], pc)

private theorem length_readSize {width nSize : Nat} {pc pc' : CScript} (h : readSize width pc = some (nSize, pc')) :
    pc'.length ≤ pc.length := by
  unfold readSize at h
  split at h
  · cases h
  · cases h
    rw [length_drop]
    omega

private theorem length_sizeOfPush {opcode : UInt8} {nSize : Nat} {pc pc' : CScript}
    (h : sizeOfPush opcode pc = some (nSize, pc')) : pc'.length ≤ pc.length := by
  unfold sizeOfPush at h
  split at h
  · cases h
    exact le_refl _
  · split at h
    · exact length_readSize h
    · split at h <;> exact length_readSize h

theorem length_getOp {script rest : CScript} {opcode : UInt8} {vch : List UInt8}
    (h : getOp script = some (opcode, vch, rest)) : rest.length < script.length := by
  cases script with
  | nil => cases h
  | cons op pc =>
    rw [length_cons]
    rw [getOp] at h
    split at h
    · split at h
      · cases h
      · rename_i nSize pc' hsize
        have hle := length_sizeOfPush hsize
        split at h
        · cases h
        · cases h
          rw [length_drop]
          omega
    · cases h
      omega

def isPayToScriptHash (script : CScript) : Bool :=
  script.length == 23 && script[0]? == some OP_HASH160 && script[1]? == some 0x14 && script[22]? == some OP_EQUAL

def isPushOnly (script : CScript) : Bool :=
  match script with
  | [] => true
  | op :: pc =>
    match _h : getOp (op :: pc) with
    | none => false
    | some (opcode, _, rest) => if opcode > OP_16 then false else isPushOnly rest
termination_by script.length
decreasing_by exact length_getOp _h

end CScript

private theorem toNat_leBytes (n : Nat) : (leBytes n).map UInt8.toNat = Nat.digits 256 n := by
  rw [leBytes, map_map]
  refine (map_congr_left fun d hd => ?_).trans (map_id _)
  have hlt : d < 256 := Nat.digits_lt_base (by decide) hd
  simp [Nat.mod_eq_of_lt hlt]

theorem readLE_lt (bytes : List UInt8) : readLE bytes < 256 ^ bytes.length := by
  rw [← length_map UInt8.toNat]
  refine Nat.ofDigits_lt_base_pow_length (by decide) fun d hd => ?_
  obtain ⟨b, -, rfl⟩ := mem_map.1 hd
  exact b.toNat_lt

namespace CScriptNum

def signed (neg : Bool) (m : Nat) : Int := if neg then -(m : Int) else m

/-- The last byte, with the sign in its top bit. -/
def lastByte (neg : Bool) (k : Nat) : UInt8 := UInt8.ofNat (k + if neg then 128 else 0)

/-- The bytes of a number with the digits `l` and `c`.  The sign is in the last digit or, when that needs its top bit, in
a byte of its own. -/
inductive Written : Int → List UInt8 → Prop
  | zero : Written 0 []
  | digits (neg : Bool) (l : List UInt8) {c : UInt8} (hc : c ≠ 0) : Written (signed neg (readLE (l ++ [c])))
      (if c.toNat < 128 then l ++ [lastByte neg c.toNat] else l ++ [c] ++ [lastByte neg 0])

variable {vch l : List UInt8} {c : UInt8} {neg : Bool} {n : Int} {m k : Nat}

private theorem readLE_concat : readLE (l ++ [c]) = readLE l + 256 ^ l.length * c.toNat := by
  rw [readLE, map_append, Nat.ofDigits_append, length_map]
  rfl

private theorem leBytes_readLE (hc : c ≠ 0) : leBytes (readLE (l ++ [c])) = l ++ [c] := by
  rw [leBytes, readLE, Nat.digits_ofDigits 256 (by decide), map_map]
  · refine (map_congr_left fun b _ => ?_).trans (map_id _)
    exact UInt8.ofNat_toNat
  · intro d hd
    obtain ⟨b, -, rfl⟩ := mem_map.1 hd
    exact b.toNat_lt
  · intro hne hzero
    simp only [map_append, map_cons, map_nil, getLast_append_singleton] at hzero
    exact hc (UInt8.toNat_inj.1 hzero)

private theorem top_iff : c &&& 0x80 ≠ 0 ↔ 128 ≤ c.toNat := by
  have h : ∀ n < 256, UInt8.ofNat n &&& 0x80 ≠ 0 ↔ 128 ≤ n := by decide +kernel
  simpa using h c.toNat c.toNat_lt

private theorem toNat_lastByte (hk : k < 128) : (lastByte neg k).toNat = k + if neg then 128 else 0 := by
  rw [lastByte, UInt8.toNat_ofNat']
  split <;> omega

private theorem exists_lastByte (c : UInt8) : ∃ neg, ∃ k < 128, c = lastByte neg k := by
  have hlt := c.toNat_lt
  refine ⟨128 ≤ c.toNat, c.toNat % 128, Nat.mod_lt _ (by decide), UInt8.toNat_inj.1 ?_⟩
  rw [toNat_lastByte (Nat.mod_lt _ (by decide))]
  by_cases h : 128 ≤ c.toNat <;> simp [h] <;> omega

private theorem setVch_concat (hk : k < 128) :
    setVch (l ++ [lastByte neg k]) = signed neg (readLE l + 256 ^ l.length * k) := by
  have hlt := readLE_lt l
  have hbyte : (lastByte neg k).toNat = k + if neg then 128 else 0 := toNat_lastByte hk
  rw [setVch, getLastD_concat]
  cases neg with
  | false =>
    rw [if_neg (top_iff.not.2 (by simpa [hbyte])), readLE_concat, hbyte]
    rfl
  | true =>
    have hpow : 0x80 <<< (8 * ((l ++ [lastByte true k]).length - 1)) = 256 ^ l.length * 128 := by
      rw [Nat.shiftLeft_eq, length_append, length_singleton, Nat.add_sub_cancel, Nat.mul_comm, Nat.pow_mul]
    rw [if_pos (top_iff.2 (by simp [hbyte])), readLE_concat, hbyte, hpow, Nat.mod_mul, Nat.add_mul_mod_self_left,
      Nat.mod_eq_of_lt hlt, Nat.add_mul_div_left _ _ (by positivity), Nat.div_eq_of_lt hlt, Nat.zero_add, if_pos rfl,
      Nat.add_mod_right, Nat.mod_eq_of_lt hk]
    rfl

private theorem padded_concat (hk : k < 128) :
    padded (l ++ [lastByte neg k]) = true ↔ k = 0 ∧ (l.getLastD 0).toNat < 128 := by
  have hlow : ∀ k < 128, ∀ neg, lastByte neg k &&& 0x7f = 0 ↔ k = 0 := by decide +kernel
  rcases eq_nil_or_concat l with rfl | ⟨l, c, rfl⟩
  · simp [padded, hlow k hk]
  · have htop := not_congr (top_iff (c := c))
    rw [ne_eq, not_not, not_le] at htop
    simp [padded, hlow k hk, htop]

theorem Written.setVch (h : Written n vch) : setVch vch = n := by
  cases h with
  | zero => rfl
  | digits neg l hc =>
    split
    · next hlt => rw [setVch_concat hlt, readLE_concat]
    · rw [setVch_concat (by decide), Nat.mul_zero, Nat.add_zero]

theorem Written.padded (h : Written n vch) : padded vch = false := by
  rw [← Bool.not_eq_true]
  cases h with
  | zero => decide
  | digits neg l hc =>
    split
    · next hlt =>
      rw [padded_concat hlt]
      exact fun h => hc (UInt8.toNat_inj.1 h.1)
    · rw [padded_concat (by decide), getLastD_concat]
      omega

theorem Written.serialize (h : Written n vch) : serialize n = vch := by
  cases h with
  | zero => rfl
  | @digits neg l c hc =>
    have hbytes := leBytes_readLE (l := l) hc
    generalize readLE (l ++ [c]) = m at *
    have hm : m ≠ 0 := by
      rintro rfl
      simp [leBytes] at hbytes
    have habs : (signed neg m).natAbs = m := by
      cases neg <;> simp [signed]
    have hneg : signed neg m < 0 ↔ neg = true := by
      cases neg <;> simp [signed, Nat.pos_of_ne_zero hm]
    have hor : ∀ k < 128, UInt8.ofNat k ||| 0x80 = lastByte true k := by decide +kernel
    rw [CScriptNum.serialize, if_neg (by omega), habs, hbytes]
    dsimp only
    simp only [getLastD_concat, dropLast_concat, top_iff, hneg]
    by_cases hlt : c.toNat < 128
    · rw [if_neg (not_le.2 hlt), if_pos hlt]
      cases neg with
      | false => simp [lastByte]
      | true => rw [← hor _ hlt, UInt8.ofNat_toNat, if_pos rfl]
    · rw [if_pos (not_lt.1 hlt), if_neg hlt]
      cases neg <;> rfl

private theorem exists_written (h : CScriptNum.padded vch = false) : ∃ n, Written n vch := by
  rcases eq_nil_or_concat vch with rfl | ⟨l, b, rfl⟩
  · exact ⟨0, .zero⟩
  obtain ⟨neg, k, hk, rfl⟩ := exists_lastByte b
  rw [concat_eq_append, ← Bool.not_eq_true, padded_concat hk] at *
  by_cases hpos : k = 0
  · subst hpos
    rcases eq_nil_or_concat l with rfl | ⟨l, c, rfl⟩
    · simp at h
    · rw [concat_eq_append, getLastD_concat] at *
      have hc : c ≠ 0 := by
        rintro rfl
        simp at h
      have := Written.digits neg l hc
      rw [if_neg (by omega)] at this
      exact ⟨_, this⟩
  · have hval : (UInt8.ofNat k).toNat = k := by
      rw [UInt8.toNat_ofNat']
      omega
    have hc : UInt8.ofNat k ≠ 0 := fun h => hpos (by simpa [h] using hval.symm)
    have := Written.digits neg l hc
    rw [hval, if_pos hk] at this
    exact ⟨_, this⟩

private theorem written_serialize (n : Int) : Written n (CScriptNum.serialize n) := by
  rcases eq_or_ne n 0 with rfl | hn
  · exact .zero
  have hread : readLE (leBytes n.natAbs) = n.natAbs := by rw [readLE, toNat_leBytes, Nat.ofDigits_digits]
  have hlast := Nat.getLast_digit_ne_zero 256 (Int.natAbs_ne_zero.2 hn)
  have hsign : signed (n < 0) n.natAbs = n := by
    rw [signed]
    by_cases h : n < 0
    · rw [decide_eq_true h, if_pos rfl]
      omega
    · rw [decide_eq_false h, if_neg Bool.false_ne_true]
      omega
  simp only [← toNat_leBytes] at hlast
  rcases eq_nil_or_concat (leBytes n.natAbs) with hnil | ⟨l, c, hbytes⟩
  · rw [hnil] at hread
    exact absurd (Int.natAbs_eq_zero.1 hread.symm) hn
  · rw [concat_eq_append] at hbytes
    have hc : c ≠ 0 := by
      rintro rfl
      simp [hbytes] at hlast
    have h := Written.digits (n < 0) l hc
    rw [← hbytes, hread, hsign] at h
    rwa [h.serialize]

theorem eq_serialize_iff : vch = CScriptNum.serialize n ↔ CScriptNum.padded vch = false ∧ CScriptNum.setVch vch = n := by
  constructor
  · rintro rfl
    exact ⟨(written_serialize n).padded, (written_serialize n).setVch⟩
  · rintro ⟨hpad, rfl⟩
    obtain ⟨n, h⟩ := exists_written hpad
    rw [h.setVch, h.serialize]

end CScriptNum

theorem length_serialize {n : Int} {k : Nat} (h : n.natAbs < 256 ^ k) : (CScriptNum.serialize n).length ≤ k + 1 := by
  have hbytes : (leBytes n.natAbs).length ≤ k := by
    rw [leBytes, length_map, Nat.digits_length_le_iff (by decide)]
    exact h
  rw [CScriptNum.serialize]
  split
  · exact Nat.zero_le _
  · dsimp only
    split
    · rw [length_append, length_singleton]
      omega
    · split
      · rw [length_append, length_singleton, length_dropLast]
        omega
      · omega

/-- How a height is written: one byte that is no small number, or a length and the bytes. -/
private theorem pushInt64_cases {n : Int} (h : 0 < n) (hn : n < 2 ^ 31) :
    n ≤ 16 ∧ CScript.pushInt64 n = [UInt8.ofNat (n.toNat + 80)] ∨
    16 < n ∧ CScript.pushInt64 n = UInt8.ofNat (CScriptNum.serialize n).length :: CScriptNum.serialize n := by
  by_cases hle : n ≤ 16
  · refine .inl ⟨hle, ?_⟩
    rw [CScript.pushInt64, if_pos (.inr ⟨h, hle⟩)]
    congr 2
    change (n + (((0x51 : UInt8).toNat : Int) - 1)).toNat = n.toNat + 80
    have : ((0x51 : UInt8).toNat : Int) = 81 := rfl
    omega
  · refine .inr ⟨by omega, ?_⟩
    have hlen := length_serialize (k := 4) (n := n) (by omega)
    have hsmall : (CScriptNum.serialize n).length < OP_PUSHDATA1.toNat := hlen.trans_lt (by decide)
    rw [CScript.pushInt64, if_neg (by omega), if_neg (by omega), CScript.pushData, if_pos hsmall]

theorem pushInt64_inj_of_prefix {a b : Int} {script : CScript} (ha : 0 < a) (ha' : a < 2 ^ 31) (hb : 0 < b)
    (hb' : b < 2 ^ 31) (h1 : CScript.pushInt64 a <+: script) (h2 : CScript.pushInt64 b <+: script) : a = b := by
  obtain ⟨s1, h1⟩ := h1
  obtain ⟨s2, h2⟩ := h2
  have heq := h1.trans h2.symm
  have hbyte : ∀ {x y : Nat}, x < 256 → y < 256 → UInt8.ofNat x = UInt8.ofNat y → x = y := by
    intro x y hx hy hxy
    have := congrArg UInt8.toNat hxy
    simpa [Nat.mod_eq_of_lt hx, Nat.mod_eq_of_lt hy] using this
  have hla := length_serialize (k := 4) (n := a) (by omega)
  have hlb := length_serialize (k := 4) (n := b) (by omega)
  rcases pushInt64_cases ha ha' with ⟨hle, hpush⟩ | ⟨hlt, hpush⟩ <;>
    rcases pushInt64_cases hb hb' with ⟨hle', hpush'⟩ | ⟨hlt', hpush'⟩ <;>
    rw [hpush, hpush'] at heq <;> simp only [cons_append, nil_append, cons.injEq] at heq
  · have := hbyte (by omega) (by omega) heq.1
    omega
  · have := hbyte (by omega) (by omega) heq.1
    omega
  · have := hbyte (by omega) (by omega) heq.1
    omega
  · have hlen := hbyte (by omega) (by omega) heq.1
    have hser := append_inj_left heq.2 hlen
    rw [← (CScriptNum.eq_serialize_iff.1 hser).2]
    exact (CScriptNum.eq_serialize_iff.1 rfl).2.symm

end LitecoinZ
