import LitecoinZ.Consensus.Validation

/-!
# Transactions and blocks

The data of `primitives/transaction.h`, `primitives/block.h` and `undo.h` that validation reads, and the sums of
`CTransaction`.  A `uint256` is a bit vector; the sums stop at the first amount out of range.
-/

namespace LitecoinZ

abbrev Uint256 := BitVec 256

instance : LawfulBEq Uint256 := inferInstance

/-- A serialized script. -/
abbrev CScript := List UInt8

@[match_pattern] def OP_RETURN : UInt8 := 0x6a

def MAX_SCRIPT_SIZE : Nat := 10000

/-- `CScript::IsUnspendable`. -/
def isUnspendable (script : CScript) : Bool := script.head? == some OP_RETURN || script.length > MAX_SCRIPT_SIZE

structure COutPoint where
  hash : Uint256
  n : Nat
  deriving DecidableEq, Repr

def COutPoint.isNull (o : COutPoint) : Bool := o.hash == 0 && o.n == 2 ^ 32 - 1

structure CTxIn where
  prevout : COutPoint
  scriptSig : CScript
  nSequence : Nat
  deriving DecidableEq, Repr

structure CTxOut where
  nValue : CAmount
  scriptPubKey : CScript
  deriving DecidableEq, Repr

/-- `CTxOut()` and `SetNull`. -/
def CTxOut.null : CTxOut := ⟨-1, []⟩

def CTxOut.isNull (o : CTxOut) : Bool := o.nValue == -1

@[simp] theorem CTxOut.isNull_null : CTxOut.null.isNull = true := rfl

/-- `CompressedG1`, with the bytes of its `Fq`. -/
structure CompressedG1 where
  y_lsb : Bool := false
  x : BitVec 256 := 0
  deriving DecidableEq, Repr

/-- `CompressedG2`, with the bytes of its `Fq2`. -/
structure CompressedG2 where
  y_gt : Bool := false
  x : BitVec 512 := 0
  deriving DecidableEq, Repr

/-- A compressed zkSNARK proof. -/
structure ZCProof where
  g_A : CompressedG1 := {}
  g_A_prime : CompressedG1 := {}
  g_B : CompressedG2 := {}
  g_B_prime : CompressedG1 := {}
  g_C : CompressedG1 := {}
  g_C_prime : CompressedG1 := {}
  g_K : CompressedG1 := {}
  g_H : CompressedG1 := {}
  deriving DecidableEq, Repr

/-- `ZCNoteEncryption::CLEN`: a note plaintext and its authentication tag. -/
def CLEN : Nat := 1 + 8 + 32 + 32 + 512 + 16

def nullCiphertext : Vector UInt8 CLEN := Vector.replicate CLEN 0

def ZC_NUM_JS_INPUTS : Nat := 2

def ZC_NUM_JS_OUTPUTS : Nat := 2

structure JSDescription where
  vpub_old : CAmount
  vpub_new : CAmount
  anchor : Uint256
  nullifiers : Vector Uint256 ZC_NUM_JS_INPUTS
  commitments : Vector Uint256 ZC_NUM_JS_OUTPUTS
  ephemeralKey : Uint256
  ciphertexts : Vector (Vector UInt8 CLEN) ZC_NUM_JS_OUTPUTS
  randomSeed : Uint256
  macs : Vector Uint256 ZC_NUM_JS_INPUTS
  proof : ZCProof
  deriving DecidableEq, Repr

def nullSig : Vector UInt8 64 := Vector.replicate 64 0

structure CTransaction where
  nVersion : Int
  vin : List CTxIn
  vout : List CTxOut
  vjoinsplit : List JSDescription
  nLockTime : Nat
  joinSplitPubKey : Uint256
  joinSplitSig : Vector UInt8 64
  deriving DecidableEq, Repr

structure CBlockHeader where
  nVersion : Int
  hashPrevBlock : Uint256
  hashMerkleRoot : Uint256
  hashReserved : Uint256
  nTime : Nat
  nBits : Nat
  nNonce : Uint256
  nSolution : List UInt8
  deriving DecidableEq, Repr

structure CBlock where
  header : CBlockHeader
  vtx : List CTransaction
  deriving DecidableEq, Repr

/-- Undo information of an input: the output it spent and, if that was the last one, the metadata of its
transaction. -/
structure CTxInUndo where
  txout : CTxOut
  fCoinBase : Bool := false
  nHeight : Int := 0
  nVersion : Int := 0
  deriving DecidableEq, Repr

structure CTxUndo where
  vprevout : List CTxInUndo
  deriving DecidableEq, Repr

/-- Undo information of a block; `none` is the null root. -/
structure CBlockUndo where
  vtxundo : List CTxUndo
  old_tree_root : Option Uint256
  deriving DecidableEq, Repr

namespace CTransaction

def isCoinBase (tx : CTransaction) : Bool :=
  match tx.vin with
  | [txin] => txin.prevout.isNull
  | _ => false

/-- The nullifiers the transaction reveals, in the order of its JoinSplits. -/
def nullifiers (tx : CTransaction) : List Uint256 := tx.vjoinsplit.flatMap fun joinsplit => joinsplit.nullifiers.toList

/-- The note commitments of the transaction, in the order of its JoinSplits. -/
def commitments (tx : CTransaction) : List Uint256 := tx.vjoinsplit.flatMap fun joinsplit => joinsplit.commitments.toList

/-- The loops of `GetValueOut` and `GetJoinSplitValueIn`: add amounts one by one, each and every partial sum within
the money range. -/
def sumInRange (what : String) : CAmount → List CAmount → Except Fault CAmount
  | total, [] => .ok total
  | total, v :: vs => do
    let total ← checked (total + v)
    reject (!moneyRange v || !moneyRange total) (.exception what)
    sumInRange what total vs

def getValueOut (tx : CTransaction) : Except Fault CAmount := do
  let nValueOut ← sumInRange "CTransaction::GetValueOut(): value out of range" 0 (tx.vout.map CTxOut.nValue)
  sumInRange "CTransaction::GetValueOut(): value out of range" nValueOut (tx.vjoinsplit.map JSDescription.vpub_old)

def getJoinSplitValueIn (tx : CTransaction) : Except Fault CAmount :=
  sumInRange "CTransaction::GetJoinSplitValueIn(): value out of range" 0 (tx.vjoinsplit.map JSDescription.vpub_new)

end CTransaction

end LitecoinZ
