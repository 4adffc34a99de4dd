import LitecoinZ.Lib.Codec
import LitecoinZ.Primitives.Transaction

/-!
# Serialization

The formats of `serialize.h` and the `SerializationOp`s of `transaction.h` and `Proof.hpp`.  One `SerializationOp` serves
both directions, and so does a codec.  Reading stops with the exceptions of the source.  The vectors of a wire format
have at most `MAX_SIZE` elements (`maxSize`); writing knows no limit.
-/

namespace LitecoinZ

open Codec

def MAX_SIZE : Nat := 0x02000000

/-- The version of a configured build; what is written to disk has it in front of every entry, and it is not used. -/
def CLIENT_VERSION : Int := 1001550

def endOfData : Fault := .exception "CBaseDataStream::read(): end of data"

/-! ### Numbers -/

variable (width : Nat)

def uintLE : Codec Fault Nat := le endOfData width

theorem exact_uintLE : (uintLE width).Exact (· < 256 ^ width) := exact_le _ _

/-- A signed integer of a number of bytes, in two's complement. -/
def intLE : Codec Fault Int :=
  (uintLE width).imap (fun n => if 2 * n < 256 ^ width then n else n - 256 ^ width) fun i => (i % 256 ^ width).toNat

theorem exact_intLE : (intLE width).Exact fun i => -256 ^ width ≤ 2 * i ∧ 2 * i < 256 ^ width := by
  have hpos : 0 < 256 ^ width := Nat.pow_pos (by decide)
  have hcast : ((256 ^ width : Nat) : Int) = 256 ^ width := by push_cast; rfl
  refine exact_imap (exact_uintLE width) ?_ ?_
  · intro n hn
    rw [← hcast]
    generalize 256 ^ width = m at hn hpos
    split
    · refine ⟨by omega, ?_⟩
      rw [Int.emod_eq_of_lt (by omega) (by omega)]
      omega
    · refine ⟨by omega, ?_⟩
      rw [← Int.add_emod_right, Int.emod_eq_of_lt (by omega) (by omega)]
      omega
  · rintro i ⟨hlow, hhigh⟩
    rw [← hcast] at hlow hhigh ⊢
    generalize 256 ^ width = m at hlow hhigh hpos
    rcases lt_or_ge i 0 with hneg | hnneg
    · have hmod : i % m = i + m := by rw [← Int.add_emod_right, Int.emod_eq_of_lt (by omega) (by omega)]
      rw [hmod]
      refine ⟨by omega, ?_⟩
      rw [if_neg (by omega)]
      omega
    · rw [Int.emod_eq_of_lt hnneg (by omega)]
      refine ⟨by omega, ?_⟩
      rw [if_pos (by omega)]
      omega

def blob : Codec Fault (BitVec (8 * width)) := (uintLE width).imap (BitVec.ofNat (8 * width)) BitVec.toNat

theorem exact_blob : (blob width).Exact fun _ => True := by
  have hpow : 256 ^ width = 2 ^ (8 * width) := by rw [Nat.pow_mul]
  refine exact_imap (exact_uintLE width) ?_ ?_
  · intro n hn
    rw [hpow] at hn
    exact ⟨trivial, by rw [BitVec.toNat_ofNat, Nat.mod_eq_of_lt hn]⟩
  · intro x _
    exact ⟨by rw [hpow]; exact x.isLt, by simp⟩

def uint256 : Codec Fault Uint256 := blob 32

/-! ### Sizes -/

/-- What follows the first byte of a size. -/
def sizeAfter (chSize : UInt8) : Codec Fault Nat :=
  let canonical (least : Nat) (n : Nat) := reject (n < least) (.exception "non-canonical ReadCompactSize()")
  if chSize < 253 then const chSize.toNat
  else if chSize = 253 then (uintLE 2).guard (canonical 253)
  else if chSize = 254 then (uintLE 4).guard (canonical 0x10000)
  else (uintLE 8).guard (canonical 0x100000000)

/-- The first byte that `WriteCompactSize` writes. -/
def sizeByte (nSize : Nat) : UInt8 :=
  if nSize < 253 then UInt8.ofNat nSize else if nSize ≤ 0xFFFF then 253 else if nSize ≤ 0xFFFFFFFF then 254 else 255

variable (maxSize : Nat)

/-- `WriteCompactSize` and `ReadCompactSize`, which refuses sizes over `maxSize`. -/
def compactSize : Codec Fault Nat :=
  (((byte endOfData).seq sizeAfter).imap Prod.snd fun n => (sizeByte n, n)).guard fun n =>
    reject (n > maxSize) (.exception "ReadCompactSize(): size too large")

/-- The sizes that follow a first byte. -/
def SizeAfter (chSize : UInt8) (n : Nat) : Prop := n < 2 ^ 64 ∧ chSize = sizeByte n

theorem toNat_sizeByte (n : Nat) :
    (sizeByte n).toNat = if n < 253 then n else if n ≤ 0xFFFF then 253 else if n ≤ 0xFFFFFFFF then 254 else 255 := by
  unfold sizeByte
  split
  · rw [UInt8.toNat_ofNat']
    omega
  · split
    · rfl
    · split <;> rfl

theorem sizeAfter_iff {chSize : UInt8} {n : Nat} :
    SizeAfter chSize n ↔ n < 2 ^ 64 ∧
      chSize.toNat = if n < 253 then n else if n ≤ 0xFFFF then 253 else if n ≤ 0xFFFFFFFF then 254 else 255 := by
  rw [SizeAfter, ← toNat_sizeByte, UInt8.toNat_inj]

theorem exact_sizeAfter (chSize : UInt8) : (sizeAfter chSize).Exact (SizeAfter chSize) := by
  have hlt := chSize.toNat_lt
  have hguard : ∀ width least : Nat, ((uintLE width).guard fun n =>
      reject (n < least) (.exception "non-canonical ReadCompactSize()")).Exact fun n => n < 256 ^ width ∧ least ≤ n := by
    intro width least
    refine (exact_guard (exact_uintLE width)).congr fun n => ?_
    rw [reject_ok, decide_eq_false_iff_not, Nat.not_lt]
  unfold sizeAfter
  simp only
  split
  · rename_i hsmall
    refine (exact_const chSize.toNat).congr fun n => ?_
    rw [sizeAfter_iff]
    have hsmall' : chSize.toNat < 253 := hsmall
    split_ifs <;> omega
  · rename_i hsmall
    have hlarge : ¬ chSize.toNat < 253 := hsmall
    split
    · rename_i heq
      subst heq
      refine (hguard 2 253).congr fun n => ?_
      rw [sizeAfter_iff, show (253 : UInt8).toNat = 253 from rfl]
      split_ifs <;> omega
    · rename_i hne
      have hne' : chSize.toNat ≠ 253 := fun h => hne (UInt8.toNat_inj.1 h)
      split
      · rename_i heq
        subst heq
        refine (hguard 4 0x10000).congr fun n => ?_
        rw [sizeAfter_iff, show (254 : UInt8).toNat = 254 from rfl]
        split_ifs <;> omega
      · rename_i hne4
        have hne4' : chSize.toNat ≠ 254 := fun h => hne4 (UInt8.toNat_inj.1 h)
        refine (hguard 8 0x100000000).congr fun n => ?_
        rw [sizeAfter_iff]
        split_ifs <;> omega

theorem exact_compactSize : (compactSize maxSize).Exact fun n => n < 2 ^ 64 ∧ n ≤ maxSize := by
  have hsize : (((byte endOfData).seq sizeAfter).imap Prod.snd fun n => (sizeByte n, n)).Exact (· < 2 ^ 64) := by
    refine exact_imap (exact_seq (exact_byte endOfData) fun chSize _ => exact_sizeAfter chSize) ?_ ?_
    · rintro ⟨chSize, n⟩ ⟨-, hn, hbyte⟩
      exact ⟨hn, Prod.ext hbyte.symm rfl⟩
    · intro n hn
      exact ⟨⟨trivial, hn, rfl⟩, rfl⟩
  refine (exact_guard hsize).congr fun n => ?_
  rw [reject_ok, decide_eq_false_iff_not, Nat.not_lt]

def vectorOf {α : Type} (c : Codec Fault α) : Codec Fault (List α) := list (compactSize maxSize) c

/-- A vector of bytes, a script for example. -/
def byteVector : Codec Fault (List UInt8) := vectorOf maxSize (byte endOfData)

theorem exact_vectorOf {α : Type} {c : Codec Fault α} {P : α → Prop} (hc : c.Exact P) {maxSize : Nat}
    (hmax : maxSize < 2 ^ 64) : (vectorOf maxSize c).Exact fun l => l.length ≤ maxSize ∧ ∀ x ∈ l, P x :=
  (exact_list (exact_compactSize maxSize) hc).congr fun _ =>
    and_congr_left fun _ => ⟨And.right, fun h => ⟨by omega, h⟩⟩

theorem exact_byteVector {maxSize : Nat} (hmax : maxSize < 2 ^ 64) :
    (byteVector maxSize).Exact fun l => l.length ≤ maxSize :=
  (exact_vectorOf (exact_byte endOfData) hmax).congr fun _ => ⟨And.left, fun h => ⟨h, fun _ _ => trivial⟩⟩

/-! ### Proofs -/

def G1_PREFIX_MASK : UInt8 := 0x02
def G2_PREFIX_MASK : UInt8 := 0x0a

/-- The lead byte of a compressed point: a mask with a bit. -/
def leadByte (mask : UInt8) (message : String) : Codec Fault Bool :=
  ((byte endOfData).guard fun b => reject (b &&& ~~~1 ≠ mask) (.exception message)).imap (fun b => b &&& 1 ≠ 0)
    fun bit => if bit then mask ||| 1 else mask

theorem forall_byte {P : UInt8 → Prop} (h : ∀ n < 256, P (UInt8.ofNat n)) (b : UInt8) : P b := by
  have hb := h b.toNat b.toNat_lt
  rwa [UInt8.ofNat_toNat] at hb

theorem exact_leadByte {mask : UInt8} (hmask : mask &&& 1 = 0) (message : String) :
    (leadByte mask message).Exact fun _ => True := by
  have hlow : ∀ b : UInt8, (if b &&& 1 ≠ 0 then (b &&& ~~~1) ||| 1 else b &&& ~~~1) = b :=
    forall_byte (by decide +kernel)
  have hmasked : ∀ m : UInt8, m &&& 1 = 0 → (m ||| 1) &&& ~~~1 = m ∧ m &&& ~~~1 = m ∧ (m ||| 1) &&& 1 ≠ 0 :=
    forall_byte (by decide +kernel)
  obtain ⟨hone, hzero, hbit⟩ := hmasked mask hmask
  refine exact_imap (exact_guard (exact_byte endOfData)) ?_ ?_
  · rintro b ⟨-, hb⟩
    rw [reject_ne_ok] at hb
    refine ⟨trivial, ?_⟩
    rw [← hb]
    simpa using hlow b
  · intro bit _
    rw [reject_ne_ok]
    cases bit
    · exact ⟨⟨trivial, hzero⟩, by simp [hmask]⟩
    · exact ⟨⟨trivial, hone⟩, by simp [hbit]⟩

def CompressedG1.serializationOp : Codec Fault CompressedG1 :=
  ((leadByte G1_PREFIX_MASK "lead byte of G1 point not recognized").seq fun _ => blob 32).imap (fun p => ⟨p.1, p.2⟩)
    fun p => (p.y_lsb, p.x)

def CompressedG2.serializationOp : Codec Fault CompressedG2 :=
  ((leadByte G2_PREFIX_MASK "lead byte of G2 point not recognized").seq fun _ => blob 64).imap (fun p => ⟨p.1, p.2⟩)
    fun p => (p.y_gt, p.x)

theorem CompressedG1.exact_serializationOp : CompressedG1.serializationOp.Exact fun _ => True :=
  (exact_equiv (exact_seq (exact_leadByte rfl _) fun _ _ => exact_blob 32) (fun _ => rfl) fun _ => rfl).congr
    fun _ => by simp

theorem CompressedG2.exact_serializationOp : CompressedG2.serializationOp.Exact fun _ => True :=
  (exact_equiv (exact_seq (exact_leadByte rfl _) fun _ _ => exact_blob 64) (fun _ => rfl) fun _ => rfl).congr
    fun _ => by simp

def ZCProof.serializationOp : Codec Fault ZCProof :=
  let g1 := CompressedG1.serializationOp
  let g2 := CompressedG2.serializationOp
  (g1.seq fun _ => g1.seq fun _ => g2.seq fun _ => g1.seq fun _ => g1.seq fun _ => g1.seq fun _ => g1.seq fun _ => g1).imap
    (fun (g_A, g_A_prime, g_B, g_B_prime, g_C, g_C_prime, g_K, g_H) =>
      { g_A, g_A_prime, g_B, g_B_prime, g_C, g_C_prime, g_K, g_H })
    fun p => (p.g_A, p.g_A_prime, p.g_B, p.g_B_prime, p.g_C, p.g_C_prime, p.g_K, p.g_H)

theorem ZCProof.exact_serializationOp : ZCProof.serializationOp.Exact fun _ => True := by
  have h1 := CompressedG1.exact_serializationOp
  have h2 := CompressedG2.exact_serializationOp
  have hseq := exact_seq h1 fun _ _ => exact_seq h1 fun _ _ => exact_seq h2 fun _ _ => exact_seq h1 fun _ _ =>
    exact_seq h1 fun _ _ => exact_seq h1 fun _ _ => exact_seq h1 fun _ _ => h1
  unfold ZCProof.serializationOp
  refine Exact.congr (exact_equiv hseq ?_ ?_) ?_
  · intro _
    rfl
  · intro _
    rfl
  · simp

def COutPoint.serializationOp : Codec Fault COutPoint :=
  (uint256.seq fun _ => uintLE 4).imap (fun x => ⟨x.1, x.2⟩) fun o => (o.hash, o.n)

def CTxIn.serializationOp (maxSize : Nat) : Codec Fault CTxIn :=
  (COutPoint.serializationOp.seq fun _ => (byteVector maxSize).seq fun _ => uintLE 4).imap
    (fun (prevout, scriptSig, nSequence) => { prevout, scriptSig, nSequence })
    fun txin => (txin.prevout, txin.scriptSig, txin.nSequence)

def CTxOut.serializationOp : Codec Fault CTxOut :=
  ((intLE 8).seq fun _ => byteVector maxSize).imap (fun (nValue, scriptPubKey) => { nValue, scriptPubKey })
    fun txout => (txout.nValue, txout.scriptPubKey)

def JSDescription.serializationOp : Codec Fault JSDescription :=
  ((intLE 8).seq fun _ => (intLE 8).seq fun _ => uint256.seq fun _ => (uint256.vector ZC_NUM_JS_INPUTS).seq fun _ =>
    (uint256.vector ZC_NUM_JS_OUTPUTS).seq fun _ => uint256.seq fun _ => uint256.seq fun _ =>
    (uint256.vector ZC_NUM_JS_INPUTS).seq fun _ => ZCProof.serializationOp.seq fun _ =>
    ((byte endOfData).vector CLEN).vector ZC_NUM_JS_OUTPUTS).imap
    (fun (vpub_old, vpub_new, anchor, nullifiers, commitments, ephemeralKey, randomSeed, macs, proof, ciphertexts) =>
      { vpub_old, vpub_new, anchor, nullifiers, commitments, ephemeralKey, ciphertexts, randomSeed, macs, proof })
    fun js => (js.vpub_old, js.vpub_new, js.anchor, js.nullifiers, js.commitments, js.ephemeralKey, js.randomSeed,
      js.macs, js.proof, js.ciphertexts)

/-- The part of a transaction from version 2 on; what is not there is as in a new transaction. -/
def joinSplitsOp (nVersion : Int) : Codec Fault (List JSDescription × Uint256 × Vector UInt8 64) :=
  if 2 ≤ nVersion then
    (vectorOf maxSize JSDescription.serializationOp).seq fun vjoinsplit =>
      if vjoinsplit.length > 0 then uint256.seq fun _ => (byte endOfData).vector 64 else const (0, nullSig)
  else const ([], 0, nullSig)

def CTransaction.serializationOp (maxSize : Nat) : Codec Fault CTransaction :=
  ((intLE 4).seq fun nVersion => (vectorOf maxSize (CTxIn.serializationOp maxSize)).seq fun _ =>
    (vectorOf maxSize (CTxOut.serializationOp maxSize)).seq fun _ => (uintLE 4).seq fun _ =>
    joinSplitsOp maxSize nVersion).imap
    (fun (nVersion, vin, vout, nLockTime, vjoinsplit, joinSplitPubKey, joinSplitSig) =>
      { nVersion, vin, vout, vjoinsplit, nLockTime, joinSplitPubKey, joinSplitSig })
    fun tx => (tx.nVersion, tx.vin, tx.vout, tx.nLockTime, tx.vjoinsplit, tx.joinSplitPubKey, tx.joinSplitSig)

end LitecoinZ
