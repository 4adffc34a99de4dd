import LitecoinZ.Lib.Loop
import LitecoinZ.Validation.ContextualCheck
import LitecoinZ.Wallet.CoinSelection

/-!
# Creating a transaction

`CWallet::CreateTransaction` of `wallet/wallet.cpp`.  A round of its loop makes the outputs for a fee, chooses coins, adds
the change and signs.  If the fee is too low for the size there is another round with a higher one.
-/

namespace LitecoinZ

open StateExcept

def MAX_FREE_TRANSACTION_CREATE_SIZE : Nat := 1000

structure CRecipient where
  scriptPubKey : CScript
  nAmount : CAmount
  fSubtractFeeFromAmount : Bool
  deriving DecidableEq, Repr

/-- What `CreateTransaction` asks the rest of the node.  What may differ from round to round depends on the round. -/
structure SpendEnv extends CoinEnv where
  minRelayTxFee : CFeeRate
  /-- `GetMinimumFee(nBytes, nTxConfirmTarget, mempool)`. -/
  getMinimumFee : (nBytes : Nat) → CAmount
  /-- `chainActive.Height()`. -/
  height : Int
  /-- `GetRandInt` for the lock time. -/
  randLockTime : (call nMax : Nat) → Fin (nMax + 1)
  coinRandom : (round call : Nat) → CoinRandom
  /-- The order of a set of coins, which is that of pointers. -/
  setOrder : (round : Nat) → List WalletCoin → List WalletCoin
  setOrder_perm : ∀ round coins, (setOrder round coins).Perm coins
  /-- The script of a key from the key pool. -/
  getReservedKey : (round : Nat) → Option CScript
  /-- `GetRandInt(nMax)` for the position of the change. -/
  randChangePos : (round nMax : Nat) → Fin (nMax + 1)
  /-- `GetArg("-mempooltxinputlimit", 0)`. -/
  mempoolTxInputLimit : Nat
  /-- `ProduceSignature` with a real or a dummy signature creator. -/
  produceSignature : (sign : Bool) → CTransaction → (nIn : Nat) → (scriptPubKey : CScript) → Option CScript
  fSendFreeTransactions : Bool
  /-- The priority of a transaction of the given inputs and size is enough for it to be free. -/
  enoughPriority : List WalletCoin → CTransaction → (nBytes : Nat) → Bool

def failWith (strFailReason : String) : Fault := .error strFailReason

/-- The sum of the amounts, and `nSubtractFeeFromAmount`, an `unsigned int`. -/
def sumRecipients : List CRecipient → (nValue : CAmount) → (nSubtractFeeFromAmount : Nat) → Except Fault (CAmount × Nat)
  | [], nValue, nSubtractFeeFromAmount => .ok (nValue, nSubtractFeeFromAmount)
  | recipient :: vecSend, nValue, nSubtractFeeFromAmount =>
    if nValue < 0 || recipient.nAmount < 0 then .error (failWith "Transaction amounts must be positive")
    else do
      let nValue ← checked (nValue + recipient.nAmount)
      sumRecipients vecSend nValue
        (if recipient.fSubtractFeeFromAmount then (nSubtractFeeFromAmount + 1) % 2 ^ 32 else nSubtractFeeFromAmount)

def toUnsigned (n : Int) : Nat := (n % 2 ^ 32).toNat

variable (env : SpendEnv)

def pickLockTime : Except Fault Nat := do
  let nLockTime := if (env.randLockTime 0 9).val = 0 then toUnsigned (max 0 (env.height - (env.randLockTime 1 99).val))
    else toUnsigned env.height
  reject (nLockTime > toUnsigned env.height) (.assertion "txNew.nLockTime <= (unsigned int)chainActive.Height()")
  reject (nLockTime ≥ LOCKTIME_THRESHOLD) (.assertion "txNew.nLockTime < LOCKTIME_THRESHOLD")
  pure nLockTime

/-! ### The outputs -/

/-- What a recipient gets: one that pays its share of the fee gets less, and the first of them pays the remainder. -/
def payeeValue (nFeeRet : CAmount) (nSubtractFeeFromAmount : Nat) (recipient : CRecipient) (fFirst : Bool) :
    Except Fault CAmount :=
  if recipient.fSubtractFeeFromAmount then
    if nSubtractFeeFromAmount = 0 then .error (.exception "nFeeRet / nSubtractFeeFromAmount")
    else do
      let nValue ← checked (recipient.nAmount - nFeeRet.tdiv nSubtractFeeFromAmount)
      if fFirst then checked (nValue - nFeeRet.tmod nSubtractFeeFromAmount) else pure nValue
  else pure recipient.nAmount

def dustReason (nFeeRet : CAmount) (recipient : CRecipient) (txout : CTxOut) : String :=
  if recipient.fSubtractFeeFromAmount && nFeeRet > 0 then
    if txout.nValue < 0 then "The transaction amount is too small to pay the fee"
    else "The transaction amount is too small to send after the fee has been deducted"
  else "Transaction amount too small"

def payees (env : SpendEnv) (nFeeRet : CAmount) (nSubtractFeeFromAmount : Nat) : List CRecipient → (fFirst : Bool) →
    Except Fault (List CTxOut)
  | [], _ => .ok []
  | recipient :: vecSend, fFirst => do
    let nValue ← payeeValue nFeeRet nSubtractFeeFromAmount recipient fFirst
    let txout : CTxOut := ⟨nValue, recipient.scriptPubKey⟩
    reject (txout.isDust env.minRelayTxFee) (failWith (dustReason nFeeRet recipient txout))
    let vout ← payees env nFeeRet nSubtractFeeFromAmount vecSend (fFirst && !recipient.fSubtractFeeFromAmount)
    pure (txout :: vout)

def selectReason (selected : Selected) : String :=
  if selected.fOnlyCoinbaseCoins && env.fCoinbaseMustBeProtected then "Coinbase funds can only be sent to a zaddr"
  else if selected.fNeedCoinbaseCoins then
    "Insufficient funds, coinbase funds can only be spent after they have been sent to a zaddr"
  else "Insufficient funds"

def chosenCoins (selected : Selected) : Except Fault Chosen :=
  match selected.chosen with
  | some chosen => .ok chosen
  | none => .error (failWith (selectReason env selected))

def scriptChange (coinControl : Option CCoinControl) (round : Nat) : Except Fault CScript :=
  match coinControl.bind CCoinControl.destChange with
  | some script => .ok script
  | none =>
    match env.getReservedKey round with
    | some script => .ok script
    | none => .error (.assertion "ret")

/-- The first recipient that pays fees pays for raising the change. -/
def subtractDust (env : SpendEnv) (nDust : CAmount) : List CRecipient → List CTxOut → Except Fault (List CTxOut)
  | recipient :: vecSend, txout :: vout =>
    if recipient.fSubtractFeeFromAmount then do
      let nValue ← checked (txout.nValue - nDust)
      let txout : CTxOut := ⟨nValue, txout.scriptPubKey⟩
      reject (txout.isDust env.minRelayTxFee)
        (failWith "The transaction amount is too small to send after the fee has been deducted")
      pure (txout :: vout)
    else do
      let vout ← subtractDust env nDust vecSend vout
      pure (txout :: vout)
  | _, vout => .ok vout

/-- Change that would be dust is raised when recipients pay the fee. -/
def raiseChange (vecSend : List CRecipient) (nSubtractFeeFromAmount : Nat) (newTxOut : CTxOut)
    (vout : List CTxOut) : Except Fault (CTxOut × List CTxOut) :=
  if nSubtractFeeFromAmount > 0 && newTxOut.isDust env.minRelayTxFee then do
    let nDust := newTxOut.getDustThreshold env.minRelayTxFee - newTxOut.nValue
    let vout ← subtractDust env nDust vecSend vout
    pure (⟨newTxOut.nValue + nDust, newTxOut.scriptPubKey⟩, vout)
  else pure (newTxOut, vout)

/-- `txNew.vout`, `nFeeRet` and `nChangePosRet`. -/
structure Outputs where
  vout : List CTxOut
  nFeeRet : CAmount
  nChangePosRet : Int

/-- Change that is dust is added to the fee. -/
def placeChange (round : Nat) (nFeeRet nChange : CAmount) (newTxOut : CTxOut) (vout : List CTxOut) :
    Except Fault Outputs :=
  if newTxOut.isDust env.minRelayTxFee then do
    let nFeeRet ← checked (nFeeRet + nChange)
    pure ⟨vout, nFeeRet, -1⟩
  else
    let nChangePosRet := (env.randChangePos round vout.length).val
    pure ⟨vout.insertIdx nChangePosRet newTxOut, nFeeRet, nChangePosRet⟩

def addChange (coinControl : Option CCoinControl) (round : Nat) (vecSend : List CRecipient)
    (nSubtractFeeFromAmount : Nat) (nFeeRet nChange : CAmount) (vout : List CTxOut) : Except Fault Outputs :=
  if nChange > 0 then do
    let script ← scriptChange env coinControl round
    let (newTxOut, vout) ← raiseChange env vecSend nSubtractFeeFromAmount ⟨nChange, script⟩ vout
    placeChange env round nFeeRet nChange newTxOut vout
  else pure ⟨vout, nFeeRet, -1⟩

/-- What is left of the coins; the fee comes from them unless recipients pay it. -/
def change (nSubtractFeeFromAmount : Nat) (nValueIn nValue nFeeRet : CAmount) : Except Fault CAmount := do
  let nChange ← checked (nValueIn - nValue)
  if nSubtractFeeFromAmount = 0 then checked (nChange - nFeeRet) else pure nChange

def totalValue (nSubtractFeeFromAmount : Nat) (nValue nFeeRet : CAmount) : Except Fault CAmount :=
  if nSubtractFeeFromAmount = 0 then checked (nValue + nFeeRet) else pure nValue

/-! ### Inputs and size -/

def toInput (coin : WalletCoin) (scriptSig : CScript) : CTxIn := ⟨coin.prevout, scriptSig, 2 ^ 32 - 2⟩

def unsignedTx (nLockTime : Nat) (coins : List WalletCoin) (vout : List CTxOut) : CTransaction where
  nVersion := 1
  vin := coins.map fun coin => toInput coin []
  vout := vout
  vjoinsplit := []
  nLockTime := nLockTime
  joinSplitPubKey := 0
  joinSplitSig := nullSig

def signInput (sign : Bool) (txNewConst : CTransaction) (coin : WalletCoin) (nIn : Nat) : Except Fault CTxIn :=
  match env.produceSignature sign txNewConst nIn coin.txout.scriptPubKey with
  | some scriptSig => .ok (toInput coin scriptSig)
  | none => .error (failWith "Signing transaction failed")

def signInputs (env : SpendEnv) (sign : Bool) (txNewConst : CTransaction) : List WalletCoin → (nIn : Nat) →
    Except Fault (List CTxIn)
  | [], _ => .ok []
  | coin :: coins, nIn => do
    let txin ← signInput env sign txNewConst coin nIn
    let vin ← signInputs env sign txNewConst coins (nIn + 1)
    pure (txin :: vin)

/-- What `CreateTransaction` gives when it returns `true`. -/
structure Created where
  /-- The transaction with the signatures that count for its size. -/
  txNew : CTransaction
  wtxNew : CTransaction
  nFeeRet : CAmount
  nChangePosRet : Int
  nBytes : Nat
  /-- The transaction is sent for free. -/
  free : Bool

/-- The end of a round: the transaction is done, or another fee is needed. -/
def checkFee (sign : Bool) (coins : List WalletCoin) (txNew : CTransaction) (outputs : Outputs) :
    Except Fault (Created ⊕ CAmount) := do
  let nBytes := txNew.getSerializeSize % 2 ^ 32
  let wtxNew := if sign then txNew else { txNew with vin := txNew.vin.map fun txin => { txin with scriptSig := [] } }
  reject (nBytes ≥ MAX_TX_SIZE) (failWith "Transaction too large")
  if env.fSendFreeTransactions && nBytes ≤ MAX_FREE_TRANSACTION_CREATE_SIZE && env.enoughPriority coins txNew nBytes then
    pure (.inl ⟨txNew, wtxNew, outputs.nFeeRet, outputs.nChangePosRet, nBytes, true⟩)
  else do
    let nFeeNeeded := env.getMinimumFee nBytes
    reject (nFeeNeeded < env.minRelayTxFee.getFee nBytes) (failWith "Transaction too large for fee policy")
    if outputs.nFeeRet ≥ nFeeNeeded then
      pure (.inl ⟨txNew, wtxNew, outputs.nFeeRet, outputs.nChangePosRet, nBytes, false⟩)
    else pure (.inr nFeeNeeded)

def inputLimitReason (n limit : Nat) : String := "Too many transparent inputs " ++ toString n ++ " > limit " ++ toString limit

/-- What the loop works on. -/
structure Payment where
  vecSend : List CRecipient
  coinControl : Option CCoinControl
  sign : Bool
  nValue : CAmount
  nSubtractFeeFromAmount : Nat
  nLockTime : Nat

def createRound (w : CWallet) (payment : Payment) (round : Nat) (nFeeRet : CAmount) :
    Except Fault (Created ⊕ CAmount) := do
  let nTotalValue ← totalValue payment.nSubtractFeeFromAmount payment.nValue nFeeRet
  let vout ← payees env nFeeRet payment.nSubtractFeeFromAmount payment.vecSend true
  let selected ← selectCoins env.toCoinEnv w (env.coinRandom round) nTotalValue payment.coinControl
  let chosen ← chosenCoins env selected
  let nChange ← change payment.nSubtractFeeFromAmount chosen.nValue payment.nValue nFeeRet
  let outputs ← addChange env payment.coinControl round payment.vecSend payment.nSubtractFeeFromAmount nFeeRet nChange vout
  let coins := env.setOrder round chosen.setCoins
  reject (env.mempoolTxInputLimit > 0 && coins.length > env.mempoolTxInputLimit)
    (failWith (inputLimitReason coins.length env.mempoolTxInputLimit))
  let txNewConst := unsignedTx payment.nLockTime coins outputs.vout
  let vin ← signInputs env payment.sign txNewConst coins 0
  checkFee env payment.sign coins { txNewConst with vin } outputs

/-- What comes before the loop. -/
def preparePayment (vecSend : List CRecipient) (coinControl : Option CCoinControl) (sign : Bool) :
    Except Fault Payment := do
  let (nValue, nSubtractFeeFromAmount) ← sumRecipients vecSend 0 0
  reject (vecSend.isEmpty || nValue < 0) (failWith "Transaction amounts must be positive")
  let nLockTime ← pickLockTime env
  pure { vecSend, coinControl, sign, nValue, nSubtractFeeFromAmount, nLockTime }

/-- The function with a number of rounds; `none` if the loop has not ended by then. -/
def createTransaction (w : CWallet) (vecSend : List CRecipient) (coinControl : Option CCoinControl)
    (sign : Bool) (fuel : Nat) : Option (Except Fault Created) :=
  match preparePayment env vecSend coinControl sign with
  | .error e => some (.error e)
  | .ok payment => loop (createRound env w payment) fuel 0 0

end LitecoinZ
