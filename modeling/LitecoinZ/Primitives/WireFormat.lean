import LitecoinZ.Primitives.Serialize

/-!
# The wire format of transactions

Reading a written transaction gives it back and leaves the bytes behind it, and a transaction that was read writes the
bytes it was read from, whatever these were (`wire_format`).  Both say that the codec of transactions is exact for the
transactions that can be written (`exact_serializationOp`): their fields are in the ranges of their types, their vectors
are not longer than the limit, and what the format leaves out has its default.
-/

namespace LitecoinZ

open Codec

def COutPoint.Fits (o : COutPoint) : Prop := o.n < 2 ^ 32

structure CTxIn.Fits (maxSize : Nat) (txin : CTxIn) : Prop where
  prevout : txin.prevout.Fits
  scriptSig : txin.scriptSig.length ≤ maxSize
  nSequence : txin.nSequence < 2 ^ 32

structure CTxOut.Fits (maxSize : Nat) (txout : CTxOut) : Prop where
  nValue : Int64Range txout.nValue
  scriptPubKey : txout.scriptPubKey.length ≤ maxSize

structure JSDescription.Fits (js : JSDescription) : Prop where
  vpub_old : Int64Range js.vpub_old
  vpub_new : Int64Range js.vpub_new

/-- The fields are in the ranges of their types, and no vector has more than `maxSize` elements. -/
structure CTransaction.Fits (maxSize : Nat) (tx : CTransaction) : Prop where
  nVersion : -2 ^ 31 ≤ tx.nVersion ∧ tx.nVersion < 2 ^ 31
  vin : tx.vin.length ≤ maxSize ∧ ∀ txin ∈ tx.vin, txin.Fits maxSize
  vout : tx.vout.length ≤ maxSize ∧ ∀ txout ∈ tx.vout, txout.Fits maxSize
  nLockTime : tx.nLockTime < 2 ^ 32
  vjoinsplit : tx.vjoinsplit.length ≤ maxSize ∧ ∀ js ∈ tx.vjoinsplit, js.Fits

/-- What the format leaves out is as in a new transaction. -/
structure CTransaction.Plain (tx : CTransaction) : Prop where
  vjoinsplit : tx.nVersion < 2 → tx.vjoinsplit = []
  signature : tx.vjoinsplit = [] → tx.joinSplitPubKey = 0 ∧ tx.joinSplitSig = nullSig

/-! ### Exactness -/

theorem exact_uint256 : uint256.Exact fun _ => True := exact_blob 32

theorem exact_int64 : (intLE 8).Exact Int64Range :=
  (exact_intLE 8).congr fun i => by
    unfold Int64Range
    omega

theorem COutPoint.exact_serializationOp : COutPoint.serializationOp.Exact COutPoint.Fits := by
  refine Exact.congr (exact_equiv (exact_seq exact_uint256 fun _ _ => exact_uintLE 4) ?_ ?_) ?_
  · intro _
    rfl
  · intro _
    rfl
  · intro o
    exact ⟨And.right, fun h => ⟨trivial, h⟩⟩

section

variable {maxSize : Nat} (hmax : maxSize < 2 ^ 64)

include hmax

theorem CTxIn.exact_serializationOp : (CTxIn.serializationOp maxSize).Exact (CTxIn.Fits maxSize) := by
  refine Exact.congr (exact_equiv (exact_seq COutPoint.exact_serializationOp fun _ _ =>
    exact_seq (exact_byteVector hmax) fun _ _ => exact_uintLE 4) ?_ ?_) ?_
  · intro _
    rfl
  · intro _
    rfl
  · intro txin
    exact ⟨fun ⟨h1, h2, h3⟩ => ⟨h1, h2, h3⟩, fun ⟨h1, h2, h3⟩ => ⟨h1, h2, h3⟩⟩

theorem CTxOut.exact_serializationOp : (CTxOut.serializationOp maxSize).Exact (CTxOut.Fits maxSize) := by
  refine Exact.congr (exact_equiv (exact_seq exact_int64 fun _ _ => exact_byteVector hmax) ?_ ?_) ?_
  · intro _
    rfl
  · intro _
    rfl
  · intro txout
    exact ⟨fun ⟨h1, h2⟩ => ⟨h1, h2⟩, fun ⟨h1, h2⟩ => ⟨h1, h2⟩⟩

omit hmax in
theorem JSDescription.exact_serializationOp : JSDescription.serializationOp.Exact JSDescription.Fits := by
  have hvec := exact_vector exact_uint256 2
  have hciphertexts := exact_vector (exact_vector (exact_byte endOfData) CLEN) 2
  have hseq := exact_seq exact_int64 fun _ _ => exact_seq exact_int64 fun _ _ => exact_seq exact_uint256 fun _ _ =>
    exact_seq hvec fun _ _ => exact_seq hvec fun _ _ => exact_seq exact_uint256 fun _ _ =>
    exact_seq exact_uint256 fun _ _ => exact_seq hvec fun _ _ => exact_seq ZCProof.exact_serializationOp fun _ _ =>
    hciphertexts
  unfold JSDescription.serializationOp
  refine Exact.congr (exact_equiv hseq ?_ ?_) ?_
  · intro _
    rfl
  · intro _
    rfl
  · intro js
    constructor
    · rintro ⟨hold, hnew, -⟩
      exact ⟨hold, hnew⟩
    · rintro ⟨hold, hnew⟩
      exact ⟨hold, hnew, by simp⟩

theorem exact_joinSplitsOp (nVersion : Int) : (joinSplitsOp maxSize nVersion).Exact fun (vjoinsplit, pubKey, sig) =>
    (vjoinsplit.length ≤ maxSize ∧ ∀ js ∈ vjoinsplit, js.Fits) ∧ (nVersion < 2 → vjoinsplit = []) ∧
      (vjoinsplit = [] → pubKey = 0 ∧ sig = nullSig) := by
  unfold joinSplitsOp
  split
  · rename_i hver
    have hkeys : ∀ vjoinsplit : List JSDescription,
        (if vjoinsplit.length > 0 then uint256.seq fun _ => (byte endOfData).vector 64 else const (0, nullSig)).Exact
          fun x => vjoinsplit = [] → x.1 = 0 ∧ x.2 = nullSig := by
      intro vjoinsplit
      cases vjoinsplit with
      | nil =>
        refine (exact_const _).congr fun x => ?_
        simp [Prod.ext_iff]
      | cons js vjoinsplit =>
        refine (exact_seq exact_uint256 fun _ _ => exact_vector (exact_byte endOfData) 64).congr fun x => ?_
        simp
    refine (exact_seq (exact_vectorOf JSDescription.exact_serializationOp hmax) fun v _ => hkeys v).congr fun x => ?_
    constructor
    · rintro ⟨hsize, hsig⟩
      exact ⟨hsize, fun h => absurd hver (by omega), hsig⟩
    · rintro ⟨hsize, -, hsig⟩
      exact ⟨hsize, hsig⟩
  · rename_i hver
    refine (exact_const _).congr fun ⟨vjoinsplit, pubKey, sig⟩ => ?_
    constructor
    · rintro ⟨⟩
      simp
    · rintro ⟨-, hnone, hsig⟩
      have hnil := hnone (by omega)
      obtain ⟨hpub, hnull⟩ := hsig hnil
      rw [hnil, hpub, hnull]

theorem CTransaction.exact_serializationOp :
    (CTransaction.serializationOp maxSize).Exact fun tx => tx.Fits maxSize ∧ tx.Plain := by
  have hseq := exact_seq (exact_intLE 4) fun nVersion _ =>
    exact_seq (exact_vectorOf (CTxIn.exact_serializationOp hmax) hmax) fun _ _ =>
    exact_seq (exact_vectorOf (CTxOut.exact_serializationOp hmax) hmax) fun _ _ =>
    exact_seq (exact_uintLE 4) fun _ _ => exact_joinSplitsOp hmax nVersion
  unfold CTransaction.serializationOp
  refine Exact.congr (exact_equiv hseq ?_ ?_) ?_
  · intro _
    rfl
  · intro _
    rfl
  · intro tx
    constructor
    · rintro ⟨hver, hvin, hvout, hlock, hjs, hnone, hsig⟩
      exact ⟨⟨by omega, hvin, hvout, hlock, hjs⟩, hnone, hsig⟩
    · rintro ⟨⟨hver, hvin, hvout, hlock, hjs⟩, hnone, hsig⟩
      exact ⟨by omega, hvin, hvout, hlock, hjs, hnone, hsig⟩

end

def CTransaction.serialize (tx : CTransaction) : List UInt8 := (CTransaction.serializationOp MAX_SIZE).put tx

def CTransaction.unserialize (bytes : List UInt8) : Except Fault (CTransaction × List UInt8) :=
  (CTransaction.serializationOp MAX_SIZE).get bytes

theorem wire_format :
    (∀ tx : CTransaction, tx.Fits MAX_SIZE → tx.Plain → ∀ rest,
      CTransaction.unserialize (tx.serialize ++ rest) = .ok (tx, rest)) ∧
    (∀ bytes tx rest, CTransaction.unserialize bytes = .ok (tx, rest) → tx.serialize ++ rest = bytes) ∧
    ∀ bytes bytes' tx rest, CTransaction.unserialize bytes = .ok (tx, rest) →
      CTransaction.unserialize bytes' = .ok (tx, rest) → bytes = bytes' := by
  have hexact : (CTransaction.serializationOp MAX_SIZE).Exact _ := CTransaction.exact_serializationOp (by decide)
  refine ⟨?_, ?_, ?_⟩
  · intro tx hfits hplain rest
    exact hexact.decodes tx ⟨hfits, hplain⟩ rest
  · intro bytes tx rest h
    exact (hexact.canonical h).2.symm
  · intro bytes bytes' tx rest h h'
    rw [(hexact.canonical h).2, (hexact.canonical h').2]

/-- A transaction with an input, an output and a JoinSplit. -/
theorem wire_format_joinSplit :
    ∃ tx : CTransaction, tx.vin.length = 1 ∧ tx.vout.length = 1 ∧ tx.vjoinsplit.length = 1 ∧ ∀ rest,
      CTransaction.unserialize (tx.serialize ++ rest) = .ok (tx, rest) := by
  refine ⟨⟨2, [⟨⟨7, 1⟩, [0x51], 2 ^ 32 - 1⟩], [⟨COIN, [0x51]⟩], [⟨0, 0, 1, #v[2, 3], #v[4, 5], 6,
    #v[nullCiphertext, nullCiphertext], 7, #v[8, 9], {}⟩], 0, 10, nullSig⟩, rfl, rfl, rfl, wire_format.1 _ ?_ ?_⟩
  · refine ⟨by decide, ⟨by decide, ?_⟩, ⟨by decide, ?_⟩, by decide, ⟨by decide, ?_⟩⟩
    · intro txin h
      rw [List.mem_singleton.1 h]
      exact ⟨by unfold COutPoint.Fits; decide, by decide, by decide⟩
    · intro txout h
      rw [List.mem_singleton.1 h]
      exact ⟨by decide, by decide⟩
    · intro js h
      rw [List.mem_singleton.1 h]
      exact ⟨by decide, by decide⟩
  · exact ⟨by decide, by simp⟩

end LitecoinZ
