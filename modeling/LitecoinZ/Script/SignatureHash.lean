import Mathlib.Data.List.Induction
import LitecoinZ.Lib.Simulation
import LitecoinZ.Primitives.WireFormat

/-!
# What a signature covers

`CTransactionSignatureSerializer` and `SignatureHash` of `script/interpreter.cpp`, up to the bytes that are hashed.  They
are the wire bytes of a transaction in which the parts a signature does not cover are blanked (`blanked`), with the hash
type behind it (`signatureHashBytes_eq`).  As the wire format is exact, equal bytes mean equal blanked transactions, and
these say which parts are covered (`signatureHashBytes_eq_iff`).  The counters of the serializer are `unsigned int`, so
the inputs and the outputs must be fewer than `2 ^ 32`.
-/

namespace LitecoinZ

open Codec StateExcept List

/-! ### The serializer -/

def SIGHASH_NONE : BitVec 32 := 2
def SIGHASH_SINGLE : BitVec 32 := 3
def SIGHASH_ANYONECANPAY : BitVec 32 := 0x80

/-- An `unsigned int` that is no index of an input. -/
def NOT_AN_INPUT : Nat := 2 ^ 32 - 1

structure CTransactionSignatureSerializer where
  txTo : CTransaction
  scriptCode : CScript
  nIn : Nat
  fAnyoneCanPay : Bool
  fHashSingle : Bool
  fHashNone : Bool

def hashesAnyoneCanPay (nHashType : BitVec 32) : Bool := nHashType &&& SIGHASH_ANYONECANPAY ≠ 0

def hashesSingle (nHashType : BitVec 32) : Bool := nHashType &&& 0x1f = SIGHASH_SINGLE

def hashesNone (nHashType : BitVec 32) : Bool := nHashType &&& 0x1f = SIGHASH_NONE

def writeCompactSize (nSize : Nat) : List UInt8 := (compactSize MAX_SIZE).put nSize

/-- The loops of the serializer: the pieces with the numbers below `n`. -/
def serializeBelow (piece : Nat → Except Fault (List UInt8)) : Nat → Except Fault (List UInt8)
  | 0 => .ok []
  | n + 1 => do
    let bytes ← serializeBelow piece n
    let next ← piece n
    pure (bytes ++ next)

/-- Reading an element of a vector; past its end it is undefined. -/
def elementAt {α : Type} (v : List α) (i : Nat) : Except Fault α :=
  match v[i]? with
  | some a => .ok a
  | none => .error (.exception "index past the end")

namespace CTransactionSignatureSerializer

variable (z : CTransactionSignatureSerializer)

def serializeScriptCode : List UInt8 :=
  writeCompactSize z.scriptCode.length ++ z.scriptCode

def serializeInput (nInput : Nat) : Except Fault (List UInt8) := do
  let nInput := if z.fAnyoneCanPay then z.nIn else nInput
  let txin ← elementAt z.txTo.vin nInput
  reject (nInput = NOT_AN_INPUT) (.assertion "nInput != NOT_AN_INPUT")
  pure (COutPoint.serializationOp.put txin.prevout ++
    ((if nInput ≠ z.nIn then (byteVector MAX_SIZE).put [] else z.serializeScriptCode) ++
    (uintLE 4).put (if nInput ≠ z.nIn && (z.fHashSingle || z.fHashNone) then 0 else txin.nSequence)))

def serializeOutput (nOutput : Nat) : Except Fault (List UInt8) :=
  if z.fHashSingle && nOutput ≠ z.nIn then .ok ((CTxOut.serializationOp MAX_SIZE).put .null)
  else do
    let txout ← elementAt z.txTo.vout nOutput
    pure ((CTxOut.serializationOp MAX_SIZE).put txout)

def serializeJoinSplits : List UInt8 :=
  if 2 ≤ z.txTo.nVersion then
    (vectorOf MAX_SIZE JSDescription.serializationOp).put z.txTo.vjoinsplit ++
      if z.txTo.vjoinsplit.length > 0 then
        uint256.put z.txTo.joinSplitPubKey ++ ((byte endOfData).vector 64).put nullSig
      else []
  else []

def serialize : Except Fault (List UInt8) := do
  let nInputs := if z.fAnyoneCanPay then 1 else z.txTo.vin.length % 2 ^ 32
  let vin ← serializeBelow z.serializeInput nInputs
  let nOutputs := if z.fHashNone then 0 else if z.fHashSingle then (z.nIn + 1) % 2 ^ 32 else z.txTo.vout.length % 2 ^ 32
  let vout ← serializeBelow z.serializeOutput nOutputs
  pure ((intLE 4).put z.txTo.nVersion ++ ((writeCompactSize nInputs ++ vin) ++ ((writeCompactSize nOutputs ++ vout) ++
    ((uintLE 4).put z.txTo.nLockTime ++ z.serializeJoinSplits))))

end CTransactionSignatureSerializer

variable (scriptCode : CScript)

/-- `SignatureHash`, up to the hash of the bytes. -/
def signatureHashBytes (txTo : CTransaction) (nIn : Nat) (nHashType : BitVec 32) : Except Fault (List UInt8) := do
  reject (nIn ≥ txTo.vin.length && nIn ≠ NOT_AN_INPUT) (.exception "input index is out of range")
  reject (hashesSingle nHashType && nIn ≥ txTo.vout.length) (.exception "no matching output for SIGHASH_SINGLE")
  let txTmp : CTransactionSignatureSerializer :=
    ⟨txTo, scriptCode, nIn, hashesAnyoneCanPay nHashType, hashesSingle nHashType, hashesNone nHashType⟩
  let bytes ← txTmp.serialize
  pure (bytes ++ (blob 4).put nHashType)

/-- An input with the script code at the place it signs for; others lose their script, and their sequence number unless
all outputs are signed. -/
def blankedInput (nIn : Nat) (nHashType : BitVec 32) (i : Nat) (txin : CTxIn) : CTxIn where
  prevout := txin.prevout
  scriptSig := if i = nIn then scriptCode else []
  nSequence := if i ≠ nIn && (hashesSingle nHashType || hashesNone nHashType) then 0 else txin.nSequence

def blankedVin (vin : List CTxIn) (nIn : Nat) (nHashType : BitVec 32) : List CTxIn :=
  if hashesAnyoneCanPay nHashType then (vin[nIn]?).toList.map (blankedInput scriptCode nIn nHashType nIn)
  else vin.mapIdx (blankedInput scriptCode nIn nHashType)

def blankedVout (vout : List CTxOut) (nIn : Nat) (nHashType : BitVec 32) : List CTxOut :=
  if hashesNone nHashType then []
  else if hashesSingle nHashType then List.replicate nIn .null ++ (vout[nIn]?).toList
  else vout

/-- The transaction that is written for a signature. -/
def blanked (tx : CTransaction) (nIn : Nat) (nHashType : BitVec 32) : CTransaction where
  nVersion := tx.nVersion
  vin := blankedVin scriptCode tx.vin nIn nHashType
  vout := blankedVout tx.vout nIn nHashType
  vjoinsplit := if 2 ≤ tx.nVersion then tx.vjoinsplit else []
  nLockTime := tx.nLockTime
  joinSplitPubKey := if 2 ≤ tx.nVersion ∧ tx.vjoinsplit ≠ [] then tx.joinSplitPubKey else 0
  joinSplitSig := nullSig

/-! ### The bytes are those of the blanked transaction -/

theorem serializeBelow_ok {α : Type} {put : α → List UInt8} {piece : Nat → Except Fault (List UInt8)} {l : List α}
    (h : ∀ i a, l[i]? = some a → piece i = .ok (put a)) : serializeBelow piece l.length = .ok (l.flatMap put) := by
  induction l using List.reverseRecOn with
  | nil => rfl
  | append_singleton l a ih =>
    have hinit := ih fun i b hb => h i b (by
      have hi := (List.getElem?_eq_some_iff.1 hb).1
      rw [getElem?_append_left hi]
      exact hb)
    have hlast := h l.length a (by simp)
    rw [length_append, length_singleton, serializeBelow, hinit, hlast]
    simp [bind, Except.bind, pure, Except.pure]

/-- The index is one of an input, or no index where none is needed. -/
def ValidIndex (tx : CTransaction) (nIn : Nat) (nHashType : BitVec 32) : Prop :=
  nIn < tx.vin.length ∨ nIn = NOT_AN_INPUT ∧ hashesAnyoneCanPay nHashType = false ∧ hashesSingle nHashType = false

theorem put_byteVector (maxSize : Nat) (bytes : List UInt8) :
    (byteVector maxSize).put bytes = writeCompactSize bytes.length ++ bytes := by
  show writeCompactSize bytes.length ++ bytes.flatMap (fun b => [b]) = _
  rw [flatMap_singleton']

section

variable (scriptCode : CScript) {tx : CTransaction} {nIn : Nat} {nHashType : BitVec 32}

private abbrev serializer (tx : CTransaction) (nIn : Nat) (nHashType : BitVec 32) : CTransactionSignatureSerializer :=
  ⟨tx, scriptCode, nIn, hashesAnyoneCanPay nHashType, hashesSingle nHashType, hashesNone nHashType⟩

private theorem serializeInput_ok (nIn i maxSize : Nat) {txin : CTxIn}
    (hi : tx.vin[if hashesAnyoneCanPay nHashType then nIn else i]? = some txin) (hvin : tx.vin.length < 2 ^ 32) :
    (serializer scriptCode tx nIn nHashType).serializeInput i = .ok ((CTxIn.serializationOp maxSize).put
      (blankedInput scriptCode nIn nHashType (if hashesAnyoneCanPay nHashType then nIn else i) txin)) := by
  generalize hj : (if hashesAnyoneCanPay nHashType then nIn else i) = j at hi
  have hlt := (List.getElem?_eq_some_iff.1 hi).1
  have hinput : j ≠ NOT_AN_INPUT := by
    unfold NOT_AN_INPUT
    omega
  unfold CTransactionSignatureSerializer.serializeInput
  simp only [hj, elementAt, hi, hinput, decide_false, reject, bind, Except.bind, pure, Except.pure]
  change _ = Except.ok (COutPoint.serializationOp.put _ ++ ((byteVector maxSize).put _ ++ (uintLE 4).put _))
  by_cases hsame : j = nIn
  · simp [hsame, blankedInput, CTransactionSignatureSerializer.serializeScriptCode, put_byteVector]
  · simp [hsame, blankedInput, put_byteVector]

private theorem serialize_vin (maxSize : Nat) (hvin : tx.vin.length < 2 ^ 32) (hindex : ValidIndex tx nIn nHashType) :
    (if hashesAnyoneCanPay nHashType then 1 else tx.vin.length % 2 ^ 32) =
      (blankedVin scriptCode tx.vin nIn nHashType).length ∧
    serializeBelow (serializer scriptCode tx nIn nHashType).serializeInput
        (blankedVin scriptCode tx.vin nIn nHashType).length =
      .ok ((blankedVin scriptCode tx.vin nIn nHashType).flatMap (CTxIn.serializationOp maxSize).put) := by
  unfold blankedVin
  cases hany : hashesAnyoneCanPay nHashType with
  | true =>
    obtain hlt | ⟨-, hfalse, -⟩ := hindex
    · have hget := getElem?_eq_getElem hlt
      refine ⟨by simp [hget], serializeBelow_ok fun i txin hi => ?_⟩
      rw [hget] at hi
      obtain ⟨rfl, rfl⟩ : i = 0 ∧ blankedInput scriptCode nIn nHashType nIn tx.vin[nIn] = txin := by
        cases i with
        | zero => simpa using hi
        | succ i => simp at hi
      have hinput := serializeInput_ok scriptCode nIn 0 maxSize (by rw [hany]; exact hget) hvin
      rwa [hany] at hinput
    · rw [hany] at hfalse
      cases hfalse
  | false =>
    refine ⟨by simp; omega, serializeBelow_ok fun i txin hi => ?_⟩
    rw [if_neg Bool.false_ne_true, getElem?_mapIdx, Option.map_eq_some_iff] at hi
    obtain ⟨a, ha, rfl⟩ := hi
    have hinput := serializeInput_ok scriptCode nIn i maxSize (by rw [hany]; exact ha) hvin
    rwa [hany] at hinput

private theorem serialize_vout (maxSize : Nat) (hvout : tx.vout.length < 2 ^ 32)
    (hsing : hashesSingle nHashType = true → nIn < tx.vout.length) :
    (if hashesNone nHashType then 0 else if hashesSingle nHashType then (nIn + 1) % 2 ^ 32
      else tx.vout.length % 2 ^ 32) = (blankedVout tx.vout nIn nHashType).length ∧
    serializeBelow (serializer scriptCode tx nIn nHashType).serializeOutput (blankedVout tx.vout nIn nHashType).length =
      .ok ((blankedVout tx.vout nIn nHashType).flatMap (CTxOut.serializationOp maxSize).put) := by
  unfold blankedVout
  cases hnone : hashesNone nHashType with
  | true => exact ⟨rfl, rfl⟩
  | false =>
    cases hone : hashesSingle nHashType with
    | false =>
      refine ⟨by simp; omega, serializeBelow_ok fun i txout hi => ?_⟩
      simp only [if_neg Bool.false_ne_true] at hi
      simp only [CTransactionSignatureSerializer.serializeOutput, hone, Bool.false_and, if_neg Bool.false_ne_true,
        elementAt, hi]
      rfl
    | true =>
      have hlt := hsing hone
      have hget := getElem?_eq_getElem hlt
      refine ⟨by simp [hget]; omega, serializeBelow_ok fun i txout hi => ?_⟩
      simp only [if_neg Bool.false_ne_true, if_pos, hget, Option.toList_some] at hi
      by_cases hsame : i = nIn
      · subst hsame
        rw [getElem?_append_right (by simp)] at hi
        obtain rfl : tx.vout[i] = txout := by simpa using hi
        simp only [CTransactionSignatureSerializer.serializeOutput, ne_eq, not_true, decide_false, Bool.and_false,
          if_neg Bool.false_ne_true, elementAt, hget]
        rfl
      · have hi' := (List.getElem?_eq_some_iff.1 hi).1
        rw [length_append, length_replicate, length_singleton] at hi'
        rw [getElem?_append_left (by rw [length_replicate]; omega), getElem?_replicate_of_lt (by omega),
          Option.some.injEq] at hi
        subst hi
        simp only [CTransactionSignatureSerializer.serializeOutput, hone, ne_eq, hsame, not_false_iff, decide_true,
          Bool.and_true, if_pos]
        rfl

private theorem serialize_joinSplits (maxSize : Nat) :
    (serializer scriptCode tx nIn nHashType).serializeJoinSplits = (joinSplitsOp maxSize tx.nVersion).put
      ((blanked scriptCode tx nIn nHashType).vjoinsplit, (blanked scriptCode tx nIn nHashType).joinSplitPubKey,
        (blanked scriptCode tx nIn nHashType).joinSplitSig) := by
  unfold CTransactionSignatureSerializer.serializeJoinSplits joinSplitsOp blanked
  by_cases hver : 2 ≤ tx.nVersion
  · simp only [hver, if_true, true_and]
    cases tx.vjoinsplit with
    | nil => rfl
    | cons js vjoinsplit => simp [Codec.seq]; rfl
  · simp only [hver, if_false]
    rfl

/-- Where `SignatureHash` does not throw, it hashes the blanked transaction and the hash type. -/
theorem signatureHashBytes_eq (maxSize : Nat) (hvin : tx.vin.length < 2 ^ 32) (hvout : tx.vout.length < 2 ^ 32)
    (hindex : ValidIndex tx nIn nHashType) {bytes : List UInt8}
    (hrun : signatureHashBytes scriptCode tx nIn nHashType = .ok bytes) :
    bytes = (CTransaction.serializationOp maxSize).put (blanked scriptCode tx nIn nHashType) ++
      (blob 4).put nHashType := by
  obtain ⟨_, -, hrun⟩ := except_bind_ok.1 hrun
  obtain ⟨_, hrej, hrun⟩ := except_bind_ok.1 hrun
  obtain ⟨body, hbody, hrun⟩ := except_bind_ok.1 hrun
  cases hrun
  have hsing : hashesSingle nHashType = true → nIn < tx.vout.length := by
    intro hone
    simpa [hone] using reject_ok.1 hrej
  obtain ⟨hnin, hvin⟩ := serialize_vin scriptCode maxSize hvin hindex
  obtain ⟨hnout, hvout⟩ := serialize_vout scriptCode maxSize hvout hsing
  simp only [CTransactionSignatureSerializer.serialize] at hbody
  rw [hnin, hvin, hnout] at hbody
  simp only [bind, Except.bind] at hbody
  rw [hvout] at hbody
  cases hbody
  rw [serialize_joinSplits scriptCode maxSize]
  rfl

private theorem blankedInput_fits {i : Nat} {txin : CTxIn} (hs : scriptCode.length < 2 ^ 64)
    (h : txin.Fits (2 ^ 64 - 1)) : (blankedInput scriptCode nIn nHashType i txin).Fits (2 ^ 64 - 1) := by
  refine ⟨h.prevout, ?_, ?_⟩
  · unfold blankedInput
    dsimp only
    split
    · omega
    · exact Nat.zero_le _
  · unfold blankedInput
    dsimp only
    split
    · decide
    · exact h.nSequence

theorem blanked_fits (hs : scriptCode.length < 2 ^ 64) (hfits : tx.Fits (2 ^ 64 - 1)) (hvin : tx.vin.length < 2 ^ 32)
    (hindex : ValidIndex tx nIn nHashType) : (blanked scriptCode tx nIn nHashType).Fits (2 ^ 64 - 1) := by
  have hnIn : nIn < 2 ^ 32 := by
    rcases hindex with hlt | ⟨rfl, -⟩
    · omega
    · decide
  refine ⟨hfits.nVersion, ?_, ?_, hfits.nLockTime, ?_⟩
  · unfold blanked blankedVin
    dsimp only
    split
    · constructor
      · cases tx.vin[nIn]? <;> simp
      · intro x hx
        obtain ⟨txin, htxin, rfl⟩ := mem_map.1 hx
        exact blankedInput_fits scriptCode hs
          (hfits.vin.2 txin (mem_of_getElem? (Option.mem_toList.1 htxin)))
    · constructor
      · rw [length_mapIdx]
        exact hfits.vin.1
      · intro x hx
        obtain ⟨i, hi, rfl⟩ := mem_mapIdx.1 hx
        exact blankedInput_fits scriptCode hs (hfits.vin.2 _ (getElem_mem hi))
  · unfold blanked blankedVout
    dsimp only
    split
    · exact ⟨Nat.zero_le _, fun x hx => absurd hx not_mem_nil⟩
    · split
      · constructor
        · rw [length_append, length_replicate]
          have : (tx.vout[nIn]?).toList.length ≤ 1 := by cases tx.vout[nIn]? <;> simp
          omega
        · intro x hx
          rcases mem_append.1 hx with hnull | hout
          · rw [(mem_replicate.1 hnull).2]
            exact ⟨by decide, by decide⟩
          · exact hfits.vout.2 x (mem_of_getElem? (Option.mem_toList.1 hout))
      · exact hfits.vout
  · unfold blanked
    dsimp only
    split
    · exact hfits.vjoinsplit
    · exact ⟨Nat.zero_le _, fun x hx => absurd hx not_mem_nil⟩

theorem blanked_plain : (blanked scriptCode tx nIn nHashType).Plain := by
  constructor
  · intro hver
    exact if_neg (by simpa [blanked] using hver)
  · intro hnone
    refine ⟨if_neg ?_, rfl⟩
    rintro ⟨hver, hjs⟩
    exact hjs (by simpa [blanked, hver] using hnone)

end

/-! ### What is covered -/

/-- The parts of two transactions that a signature covers agree. -/
structure SameCommitted (scriptCode scriptCode' : CScript) (tx tx' : CTransaction) (nIn : Nat) (nHashType : BitVec 32) :
    Prop where
  scriptCode : nIn ≠ NOT_AN_INPUT → scriptCode = scriptCode'
  nVersion : tx.nVersion = tx'.nVersion
  nLockTime : tx.nLockTime = tx'.nLockTime
  vin : if hashesAnyoneCanPay nHashType then
      tx.vin[nIn]?.map CTxIn.prevout = tx'.vin[nIn]?.map CTxIn.prevout ∧
        tx.vin[nIn]?.map CTxIn.nSequence = tx'.vin[nIn]?.map CTxIn.nSequence
    else tx.vin.map CTxIn.prevout = tx'.vin.map CTxIn.prevout ∧
      tx.vin[nIn]?.map CTxIn.nSequence = tx'.vin[nIn]?.map CTxIn.nSequence ∧
      (hashesNone nHashType = false → hashesSingle nHashType = false →
        tx.vin.map CTxIn.nSequence = tx'.vin.map CTxIn.nSequence)
  vout : hashesNone nHashType = false →
    if hashesSingle nHashType then tx.vout[nIn]? = tx'.vout[nIn]? else tx.vout = tx'.vout
  vjoinsplit : 2 ≤ tx.nVersion → tx.vjoinsplit = tx'.vjoinsplit ∧
    (tx.vjoinsplit ≠ [] → tx.joinSplitPubKey = tx'.joinSplitPubKey)

section

variable {scriptCode scriptCode' : CScript} {nIn : Nat} {nHashType : BitVec 32}

private theorem map_blankedInput_iff {i : Nat} {o o' : Option CTxIn} :
    o.map (blankedInput scriptCode nIn nHashType i) = o'.map (blankedInput scriptCode' nIn nHashType i) ↔
      o.map CTxIn.prevout = o'.map CTxIn.prevout ∧ (i = nIn → o.isSome → scriptCode = scriptCode') ∧
      ((i = nIn ∨ (hashesSingle nHashType || hashesNone nHashType) = false) →
        o.map CTxIn.nSequence = o'.map CTxIn.nSequence) := by
  cases o with
  | none => cases o' <;> simp
  | some a =>
    cases o' with
    | none => simp
    | some b =>
      by_cases hi : i = nIn
      · simp [hi, blankedInput]
      · cases hblank : hashesSingle nHashType || hashesNone nHashType <;> simp [hi, hblank, blankedInput]

private theorem map_eq_iff {α β : Type} {f : α → β} {l l' : List α} :
    l.map f = l'.map f ↔ ∀ i : Nat, l[i]?.map f = l'[i]?.map f := by
  simp only [List.ext_getElem?_iff, getElem?_map]

variable {tx' : CTransaction}

theorem blankedVin_eq_iff {tx : CTransaction} (hvin : tx.vin.length < 2 ^ 32) (hindex : ValidIndex tx nIn nHashType) :
    blankedVin scriptCode tx.vin nIn nHashType = blankedVin scriptCode' tx'.vin nIn nHashType ↔
      (nIn ≠ NOT_AN_INPUT → scriptCode = scriptCode') ∧
      if hashesAnyoneCanPay nHashType then
        tx.vin[nIn]?.map CTxIn.prevout = tx'.vin[nIn]?.map CTxIn.prevout ∧
          tx.vin[nIn]?.map CTxIn.nSequence = tx'.vin[nIn]?.map CTxIn.nSequence
      else tx.vin.map CTxIn.prevout = tx'.vin.map CTxIn.prevout ∧
        tx.vin[nIn]?.map CTxIn.nSequence = tx'.vin[nIn]?.map CTxIn.nSequence ∧
        (hashesNone nHashType = false → hashesSingle nHashType = false →
          tx.vin.map CTxIn.nSequence = tx'.vin.map CTxIn.nSequence) := by
  -- the index is one of an input just when it is not the mark
  have hsome : tx.vin[nIn]?.isSome ↔ nIn ≠ NOT_AN_INPUT := by
    rw [Option.isSome_iff_ne_none, ne_eq, List.getElem?_eq_none_iff, Nat.not_le]
    rcases hindex with hlt | ⟨rfl, -⟩
    · have hne : nIn ≠ NOT_AN_INPUT := by
        unfold NOT_AN_INPUT
        omega
      exact ⟨fun _ => hne, fun _ => hlt⟩
    · refine ⟨fun h => ?_, fun h => absurd rfl h⟩
      unfold NOT_AN_INPUT at h
      omega
  unfold blankedVin
  split
  · rename_i hany
    have hinj : ∀ o o' : Option CTxIn, o.toList.map (blankedInput scriptCode nIn nHashType nIn) =
        o'.toList.map (blankedInput scriptCode' nIn nHashType nIn) ↔
        o.map (blankedInput scriptCode nIn nHashType nIn) = o'.map (blankedInput scriptCode' nIn nHashType nIn) := by
      intro o o'
      cases o <;> cases o' <;> simp
    rw [hinj, map_blankedInput_iff, hsome]
    constructor
    · rintro ⟨hprev, hscr, hseq⟩
      exact ⟨hscr rfl, hprev, hseq (.inl rfl)⟩
    · rintro ⟨hscr, hprev, hseq⟩
      exact ⟨hprev, fun _ => hscr, fun _ => hseq⟩
  · rw [List.ext_getElem?_iff]
    simp only [getElem?_mapIdx, map_blankedInput_iff]
    constructor
    · intro h
      refine ⟨fun hne => (h nIn).2.1 rfl (hsome.2 hne), map_eq_iff.2 fun i => (h i).1, (h nIn).2.2 (.inl rfl), ?_⟩
      intro hnone hsing
      exact map_eq_iff.2 fun i => (h i).2.2 (.inr (by rw [hnone, hsing]; rfl))
    · rintro ⟨hscr, hprev, hseq, hall⟩ i
      refine ⟨map_eq_iff.1 hprev i, ?_, ?_⟩
      · rintro rfl hi
        exact hscr (hsome.1 hi)
      · rintro (rfl | hblank)
        · exact hseq
        · rw [Bool.or_eq_false_iff] at hblank
          exact map_eq_iff.1 (hall hblank.2 hblank.1) i

theorem blankedVout_eq_iff {vout vout' : List CTxOut} :
    blankedVout vout nIn nHashType = blankedVout vout' nIn nHashType ↔
      (hashesNone nHashType = false → if hashesSingle nHashType then vout[nIn]? = vout'[nIn]? else vout = vout') := by
  unfold blankedVout
  cases hashesNone nHashType with
  | true => simp
  | false =>
    cases hashesSingle nHashType with
    | true =>
      simp only [Bool.false_eq_true, if_false, if_true, append_cancel_left_eq, true_imp_iff]
      exact ⟨fun h => by simpa using congrArg List.head? h, fun h => by rw [h]⟩
    | false => simp

theorem blanked_eq_iff {tx : CTransaction} (hvin : tx.vin.length < 2 ^ 32) (hindex : ValidIndex tx nIn nHashType) :
    blanked scriptCode tx nIn nHashType = blanked scriptCode' tx' nIn nHashType ↔
      SameCommitted scriptCode scriptCode' tx tx' nIn nHashType := by
  unfold blanked
  rw [CTransaction.mk.injEq, blankedVin_eq_iff hvin hindex, blankedVout_eq_iff]
  constructor
  · rintro ⟨hver, ⟨hscr, hin⟩, hout, hjs, hlock, hkey, -⟩
    refine ⟨hscr, hver, hlock, hin, hout, fun hnew => ?_⟩
    rw [← hver, if_pos hnew, if_pos hnew] at hjs
    refine ⟨hjs, fun hsome => ?_⟩
    rwa [← hver, ← hjs, if_pos ⟨hnew, hsome⟩, if_pos ⟨hnew, hsome⟩] at hkey
  · rintro ⟨hscr, hver, hlock, hin, hout, hjs⟩
    refine ⟨hver, ⟨hscr, hin⟩, hout, ?_, hlock, ?_, rfl⟩
    · rw [← hver]
      split
      · exact (hjs ‹_›).1
      · rfl
    · rw [← hver]
      by_cases hnew : 2 ≤ tx.nVersion
      · obtain ⟨hsame, hkey⟩ := hjs hnew
        rw [← hsame]
        split
        · rename_i h
          exact hkey h.2
        · rfl
      · rw [if_neg fun h => hnew h.1, if_neg fun h => hnew h.1]

end

/-- The hashed bytes agree if and only if the covered parts do. -/
theorem signatureHashBytes_eq_iff (scriptCode scriptCode' : CScript) (tx tx' : CTransaction) (nIn : Nat)
    (nHashType : BitVec 32) (hsize : scriptCode.length < 2 ^ 64) (hsize' : scriptCode'.length < 2 ^ 64)
    (hfits : tx.Fits (2 ^ 64 - 1)) (hfits' : tx'.Fits (2 ^ 64 - 1))
    (hcount : tx.vin.length < 2 ^ 32 ∧ tx.vout.length < 2 ^ 32)
    (hcount' : tx'.vin.length < 2 ^ 32 ∧ tx'.vout.length < 2 ^ 32)
    (hindex : ValidIndex tx nIn nHashType) (hindex' : ValidIndex tx' nIn nHashType) (bytes bytes' : List UInt8)
    (hrun : signatureHashBytes scriptCode tx nIn nHashType = .ok bytes)
    (hrun' : signatureHashBytes scriptCode' tx' nIn nHashType = .ok bytes') :
    bytes = bytes' ↔ SameCommitted scriptCode scriptCode' tx tx' nIn nHashType := by
  rw [signatureHashBytes_eq scriptCode (2 ^ 64 - 1) hcount.1 hcount.2 hindex hrun,
    signatureHashBytes_eq scriptCode' (2 ^ 64 - 1) hcount'.1 hcount'.2 hindex' hrun',
    ← blanked_eq_iff hcount.1 hindex]
  constructor
  · intro h
    have hexact : (CTransaction.serializationOp (2 ^ 64 - 1)).Exact _ := CTransaction.exact_serializationOp (by decide)
    exact (hexact.put_inj ⟨blanked_fits scriptCode hsize hfits hcount.1 hindex, blanked_plain scriptCode⟩
      ⟨blanked_fits scriptCode' hsize' hfits' hcount'.1 hindex', blanked_plain scriptCode'⟩ h).1
  · intro h
    rw [h]

def signedTx (scriptSig : CScript) : CTransaction :=
  ⟨1, [⟨⟨7, 0⟩, scriptSig, 0⟩], [⟨COIN, [0x51]⟩], [], 0, 0, nullSig⟩

theorem signedTx_fits {scriptSig : CScript} (h : scriptSig.length ≤ 2 ^ 64 - 1) :
    (signedTx scriptSig).Fits (2 ^ 64 - 1) := by
  refine ⟨by simp [signedTx], ⟨by simp [signedTx], fun txin hin => ?_⟩, ⟨by simp [signedTx], fun txout hout => ?_⟩,
    by simp [signedTx], by simp [signedTx], ?_⟩
  · rw [mem_singleton.1 hin]
    exact ⟨by simp [COutPoint.Fits], h, by simp⟩
  · rw [mem_singleton.1 hout]
    exact ⟨by decide, by decide⟩
  · exact fun js hjs => absurd hjs not_mem_nil

/-- A signature does not cover itself. -/
theorem signatureHashBytes_eq_iff_scriptSig :
    ∃ bytes, signatureHashBytes [0x51] (signedTx [1]) 0 1 = .ok bytes ∧
      signatureHashBytes [0x51] (signedTx [2, 3]) 0 1 = .ok bytes := by
  obtain ⟨bytes, hrun⟩ : ∃ bytes, signatureHashBytes [0x51] (signedTx [1]) 0 1 = .ok bytes := ⟨_, rfl⟩
  obtain ⟨bytes', hrun'⟩ : ∃ bytes, signatureHashBytes [0x51] (signedTx [2, 3]) 0 1 = .ok bytes := ⟨_, rfl⟩
  have heq := (signatureHashBytes_eq_iff [0x51] [0x51] (signedTx [1]) (signedTx [2, 3]) 0 1 (by decide) (by decide)
    (signedTx_fits (by decide)) (signedTx_fits (by decide)) (by decide) (by decide) (Or.inl (by decide))
    (Or.inl (by decide)) bytes bytes' hrun hrun').2 ⟨fun _ => rfl, rfl, rfl, by decide, by decide, by decide⟩
  exact ⟨bytes, hrun, heq ▸ hrun'⟩

def manyInputs (n : Nat) (prevout : COutPoint) : CTransaction :=
  ⟨1, List.replicate n ⟨prevout, [], 0⟩, [], [], 0, 0, nullSig⟩

theorem signatureHashBytes_manyInputs {n : Nat} (hpos : 0 < n) (hn : n % 2 ^ 32 = 0) (prevout : COutPoint) :
    signatureHashBytes [] (manyInputs n prevout) 0 1 =
      .ok ((intLE 4).put 1 ++ ((writeCompactSize 0 ++ []) ++ ((writeCompactSize 0 ++ []) ++ ((uintLE 4).put 0 ++ []))) ++
        (blob 4).put 1) := by
  have hlen : (manyInputs n prevout).vin.length = n := length_replicate
  have hrange : ¬ 0 ≥ n := by omega
  have hany : hashesAnyoneCanPay 1 = false := by decide
  have hsing : hashesSingle 1 = false := by decide
  have hnone : hashesNone 1 = false := by decide
  simp only [signatureHashBytes, CTransactionSignatureSerializer.serialize, hlen, hrange, hany, hsing, hnone, hn]
  rfl

variable {prevout : COutPoint}

theorem manyInputs_fits {n : Nat} (hn : n ≤ 2 ^ 64 - 1) (h : prevout.Fits) :
    (manyInputs n prevout).Fits (2 ^ 64 - 1) := by
  refine ⟨by simp [manyInputs], ⟨?_, fun txin hin => ?_⟩, ⟨Nat.zero_le _, fun x hx => absurd hx not_mem_nil⟩,
    by simp [manyInputs], Nat.zero_le _, fun x hx => absurd hx not_mem_nil⟩
  · rw [manyInputs, length_replicate]
    exact hn
  · rw [(mem_replicate.1 hin).2]
    exact ⟨h, Nat.zero_le _, by simp⟩

theorem prevout_of_sameCommitted {n : Nat} (hpos : 0 < n) {prevout' : COutPoint}
    (h : SameCommitted [] [] (manyInputs n prevout) (manyInputs n prevout') 0 1) : prevout = prevout' := by
  have hvin := h.vin
  rw [if_neg (by decide)] at hvin
  obtain ⟨hprev, -⟩ := hvin
  simp only [manyInputs, map_replicate] at hprev
  exact (replicate_right_inj (by omega)).1 hprev

/-- Transactions that spend different outputs, and hash the same. -/
theorem signatureHashBytes_wraps :
    ∃ tx tx' : CTransaction, tx.Fits (2 ^ 64 - 1) ∧ tx'.Fits (2 ^ 64 - 1) ∧ ValidIndex tx 0 1 ∧ ValidIndex tx' 0 1 ∧
      (∃ bytes, signatureHashBytes [] tx 0 1 = .ok bytes ∧ signatureHashBytes [] tx' 0 1 = .ok bytes) ∧
      ¬ SameCommitted [] [] tx tx' 0 1 := by
  obtain ⟨n, hpos, hle, hmod⟩ : ∃ n : Nat, 0 < n ∧ n ≤ 2 ^ 64 - 1 ∧ n % 2 ^ 32 = 0 :=
    ⟨2 ^ 32, by decide, by decide, by decide⟩
  have hindex : ∀ prevout, ValidIndex (manyInputs n prevout) 0 1 := fun prevout => Or.inl (by
    rw [manyInputs, length_replicate]
    exact hpos)
  refine ⟨manyInputs n ⟨7, 0⟩, manyInputs n ⟨8, 0⟩, manyInputs_fits hle (by unfold COutPoint.Fits; decide),
    manyInputs_fits hle (by unfold COutPoint.Fits; decide), hindex _, hindex _,
    ⟨_, signatureHashBytes_manyInputs hpos hmod _, signatureHashBytes_manyInputs hpos hmod _⟩, fun h => ?_⟩
  have hprev := prevout_of_sameCommitted hpos h
  revert hprev
  decide

end LitecoinZ
