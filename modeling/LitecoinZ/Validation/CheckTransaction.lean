import LitecoinZ.Primitives.Transaction
import LitecoinZ.Lib.Simulation

/-!
# Context-free checks

`CheckTransactionWithoutProofVerification`, `CheckTransaction`, `CheckBlockHeader` and `CheckBlock` of `main.cpp`.
What the source takes from elsewhere (hashes, sizes, signatures, proofs, scripts, proof of work, the clock and the
chain parameters) is given by an `Env`.
-/

namespace LitecoinZ

def MIN_BLOCK_VERSION : Int := 4
def MIN_TX_VERSION : Int := 1
def MAX_BLOCK_SIZE : Nat := 2000000
def MAX_BLOCK_SIGOPS : Nat := 20000
def MAX_TX_SIZE : Nat := 100000
def COINBASE_MATURITY : Int := 100

/-- The flags of a script verification that `ConnectBlock` sets. -/
structure ScriptFlags where
  p2sh : Bool
  checkLockTimeVerify : Bool
  deriving DecidableEq, Repr

/-- What validation uses from outside. -/
structure Env where
  /-- `CTransaction::GetHash`. -/
  getHash : CTransaction → Uint256
  /-- `CBlockHeader::GetHash`. -/
  blockHash : CBlockHeader → Uint256
  txSize : CTransaction → Nat
  blockSize : CBlock → Nat
  /-- `CBlock::BuildMerkleTree`, with the mutation flag. -/
  buildMerkleTree : List CTransaction → Uint256 × Bool
  checkEquihashSolution : CBlockHeader → Bool
  checkProofOfWork : Uint256 → Nat → Bool
  getAdjustedTime : Nat
  /-- `CScript::GetSigOpCount(false)`. -/
  sigOpCount : CScript → Nat
  /-- The signature operations of a pay-to-script-hash input, given its output script and its `scriptSig`. -/
  p2shSigOpCount : CScript → CScript → Nat
  /-- `VerifyScript` of an input against the script of the output it spends; the text of the error if it fails. -/
  verifyScript : CTransaction → Nat → CScript → ScriptFlags → Option String
  /-- `JSDescription::Verify` with the strict verifier. -/
  verifyJoinSplit : JSDescription → Uint256 → Bool
  /-- `SignatureHash` of the whole transaction; `none` when it throws. -/
  signatureHash : CTransaction → Option Uint256
  /-- `crypto_sign_verify_detached`. -/
  verifySignature : Vector UInt8 64 → Uint256 → Uint256 → Bool
  /-- `GetBlockProof`: the expected work for the header. -/
  getBlockProof : CBlockHeader → Nat
  /-- Where the entry of a block is in memory. -/
  address : Uint256 ↪ Nat
  /-- The height of a block in `mapBlockIndex`. -/
  blockHeight : Option Uint256 → Int
  hashGenesisBlock : Uint256
  nSubsidyHalvingInterval : Nat
  fCoinbaseMustBeProtected : Bool
  fCoinbaseEnforcedProtectionEnabled : Bool
  /-- Whether script checks are handed to other threads and waited for at the end of the block. -/
  fScriptCheckThreads : Bool

/-- Surroundings in which all signatures, scripts and proofs of work are accepted, and a transaction has its lock time
for a txid. -/
def plainEnv : Env where
  getHash tx := tx.nLockTime
  blockHash header := header.nTime
  txSize _ := 0
  blockSize _ := 0
  buildMerkleTree _ := (0, false)
  checkEquihashSolution _ := true
  checkProofOfWork _ _ := true
  getAdjustedTime := 0
  sigOpCount _ := 0
  p2shSigOpCount _ _ := 0
  verifyScript _ _ _ _ := none
  verifyJoinSplit _ _ := true
  signatureHash _ := some 0
  verifySignature _ _ _ := true
  getBlockProof _ := 1
  address := ⟨BitVec.toNat, fun _ _ => BitVec.eq_of_toNat_eq⟩
  blockHeight _ := 1000
  hashGenesisBlock := 1
  nSubsidyHalvingInterval := 840000
  fCoinbaseMustBeProtected := false
  fCoinbaseEnforcedProtectionEnabled := false
  fScriptCheckThreads := false

/-- The loop over the outputs: no amount negative or too high, no partial sum out of range. -/
def checkVout : CAmount → List CTxOut → Except Fault CAmount
  | nValueOut, [] => .ok nValueOut
  | nValueOut, txout :: vout => do
    reject (txout.nValue < 0) (rejectInvalid 100 "bad-txns-vout-negative")
    reject (txout.nValue > MAX_MONEY) (rejectInvalid 100 "bad-txns-vout-toolarge")
    let nValueOut ← checked (nValueOut + txout.nValue)
    reject (!moneyRange nValueOut) (rejectInvalid 100 "bad-txns-txouttotal-toolarge")
    checkVout nValueOut vout

def checkVpub : CAmount → List JSDescription → Except Fault CAmount
  | nValueOut, [] => .ok nValueOut
  | nValueOut, joinsplit :: vjoinsplit => do
    reject (joinsplit.vpub_old < 0) (rejectInvalid 100 "bad-txns-vpub_old-negative")
    reject (joinsplit.vpub_new < 0) (rejectInvalid 100 "bad-txns-vpub_new-negative")
    reject (joinsplit.vpub_old > MAX_MONEY) (rejectInvalid 100 "bad-txns-vpub_old-toolarge")
    reject (joinsplit.vpub_new > MAX_MONEY) (rejectInvalid 100 "bad-txns-vpub_new-toolarge")
    reject (joinsplit.vpub_new ≠ 0 && joinsplit.vpub_old ≠ 0) (rejectInvalid 100 "bad-txns-vpubs-both-nonzero")
    let nValueOut ← checked (nValueOut + joinsplit.vpub_old)
    reject (!moneyRange nValueOut) (rejectInvalid 100 "bad-txns-txouttotal-toolarge")
    checkVpub nValueOut vjoinsplit

/-- The loop that keeps the values JoinSplits add within the money range. -/
def checkVpubNew : CAmount → List JSDescription → Except Fault CAmount
  | nValueIn, [] => .ok nValueIn
  | nValueIn, joinsplit :: vjoinsplit => do
    let nValueIn ← checked (nValueIn + joinsplit.vpub_new)
    reject (!moneyRange joinsplit.vpub_new || !moneyRange nValueIn) (rejectInvalid 100 "bad-txns-txintotal-toolarge")
    checkVpubNew nValueIn vjoinsplit

/-- The loops with a `set` of what was seen. -/
def checkDuplicates {α : Type} [DecidableEq α] (fault : Fault) : List α → List α → Except Fault Unit
  | _, [] => .ok ()
  | seen, x :: xs => do
    reject (seen.contains x) fault
    checkDuplicates fault (x :: seen) xs

def checkCoinBase (tx : CTransaction) : Except Fault Unit := do
  reject (tx.vjoinsplit.length > 0) (rejectInvalid 100 "bad-cb-has-joinsplits")
  let scriptSize := (tx.vin.map fun txin => txin.scriptSig.length).headD 0
  reject (scriptSize < 2 || scriptSize > 100) (rejectInvalid 100 "bad-cb-length")

variable (env : Env)

def checkNotCoinBase (tx : CTransaction) : Except Fault Unit := do
  reject (tx.vin.any fun txin => txin.prevout.isNull) (rejectInvalid 10 "bad-txns-prevout-null")
  if tx.vjoinsplit.length > 0 then
    match env.signatureHash tx with
    | none => throw (rejectInvalid 100 "error-computing-signature-hash")
    | some dataToBeSigned =>
      reject (!env.verifySignature tx.joinSplitSig dataToBeSigned tx.joinSplitPubKey)
        (rejectInvalid 100 "bad-txns-invalid-joinsplit-signature")

def checkTransactionWithoutProofVerification (tx : CTransaction) : Except Fault Unit := do
  reject (tx.nVersion < MIN_TX_VERSION) (rejectInvalid 100 "bad-txns-version-too-low")
  reject (tx.vin.isEmpty && tx.vjoinsplit.isEmpty) (rejectInvalid 10 "bad-txns-vin-empty")
  reject (tx.vout.isEmpty && tx.vjoinsplit.isEmpty) (rejectInvalid 10 "bad-txns-vout-empty")
  reject (env.txSize tx > MAX_TX_SIZE) (rejectInvalid 100 "bad-txns-oversize")
  let nValueOut ← checkVout 0 tx.vout
  let _ ← checkVpub nValueOut tx.vjoinsplit
  let _ ← checkVpubNew 0 tx.vjoinsplit
  checkDuplicates (rejectInvalid 100 "bad-txns-inputs-duplicate") [] (tx.vin.map CTxIn.prevout)
  checkDuplicates (rejectInvalid 100 "bad-joinsplits-nullifiers-duplicate") [] tx.nullifiers
  if tx.isCoinBase then checkCoinBase tx else checkNotCoinBase env tx

/-- `CheckTransaction`; the disabled verifier accepts every proof. -/
def checkTransaction (fVerifyProofs : Bool) (tx : CTransaction) : Except Fault Unit := do
  checkTransactionWithoutProofVerification env tx
  reject (tx.vjoinsplit.any fun joinsplit => fVerifyProofs && !env.verifyJoinSplit joinsplit tx.joinSplitPubKey)
    (rejectInvalid 100 "bad-txns-joinsplit-verification-failed")

def checkBlockHeader (header : CBlockHeader) (fCheckPOW : Bool) : Except Fault Unit := do
  reject (header.nVersion < MIN_BLOCK_VERSION) (rejectInvalid 100 "version-too-low")
  reject (fCheckPOW && !env.checkEquihashSolution header) (rejectInvalid 100 "invalid-solution")
  reject (fCheckPOW && !env.checkProofOfWork (env.blockHash header) header.nBits) (rejectInvalid 50 "high-hash")
  reject (header.nTime > env.getAdjustedTime + 2 * 60 * 60) (rejectInvalid 0 "time-too-new")

def getLegacySigOpCount (tx : CTransaction) : Nat :=
  (tx.vin.map fun txin => env.sigOpCount txin.scriptSig).sum +
    (tx.vout.map fun txout => env.sigOpCount txout.scriptPubKey).sum

def checkTransactions (env : Env) (fVerifyProofs : Bool) : List CTransaction → Except Fault Unit
  | [] => .ok ()
  | tx :: vtx => do
    checkTransaction env fVerifyProofs tx
    checkTransactions env fVerifyProofs vtx

def checkBlock (block : CBlock) (fVerifyProofs fCheckPOW fCheckMerkleRoot : Bool) : Except Fault Unit := do
  checkBlockHeader env block.header fCheckPOW
  let merkle := env.buildMerkleTree block.vtx
  reject (fCheckMerkleRoot && block.header.hashMerkleRoot ≠ merkle.1) (.dos 100 REJECT_INVALID "bad-txnmrklroot" true)
  reject (fCheckMerkleRoot && merkle.2) (.dos 100 REJECT_INVALID "bad-txns-duplicate" true)
  reject (block.vtx.isEmpty || block.vtx.length > MAX_BLOCK_SIZE || env.blockSize block > MAX_BLOCK_SIZE)
    (rejectInvalid 100 "bad-blk-length")
  reject (!block.vtx.head?.any CTransaction.isCoinBase) (rejectInvalid 100 "bad-cb-missing")
  reject (block.vtx.tail.any CTransaction.isCoinBase) (rejectInvalid 100 "bad-cb-multiple")
  checkTransactions env fVerifyProofs block.vtx
  reject ((block.vtx.map (getLegacySigOpCount env)).sum > MAX_BLOCK_SIGOPS)
    (.dos 100 REJECT_INVALID "bad-blk-sigops" true)

end LitecoinZ
