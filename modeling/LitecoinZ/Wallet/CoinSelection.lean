import LitecoinZ.Lib.Selection
import LitecoinZ.Primitives.FeeRate
import LitecoinZ.Wallet.Wallet

/-!
# Choosing coins

`AvailableCoins`, `SelectCoinsMinConf` and `SelectCoins` of `wallet/wallet.cpp`.  What the wallet knows about the chain and
about its keys is a parameter, and so are all random choices.  A pointer to a wallet transaction and an index are written
as the output they lead to; `mapWallet` has each transaction under its hash.
-/

namespace LitecoinZ

open Selection StateExcept

inductive IsMineType where
  | no | watchOnly | spendable
  deriving DecidableEq, Repr

/-- An output of a transaction of the wallet: `pair<const CWalletTx*, unsigned int>`. -/
structure WalletCoin where
  wtx : CTransaction
  prevout : COutPoint
  txout : CTxOut
  deriving DecidableEq, Repr

def WalletCoin.nValue (coin : WalletCoin) : CAmount := coin.txout.nValue

structure COutput where
  coin : WalletCoin
  nDepth : Int
  fSpendable : Bool
  deriving DecidableEq, Repr

structure CCoinControl where
  /-- The script of `destChange`; `none` is `CNoDestination`. -/
  destChange : Option CScript := none
  fAllowOtherInputs : Bool := false
  setSelected : List COutPoint := []
  nodup : setSelected.Nodup := by simp

/-- The random choices of a call of `SelectCoinsMinConf`. -/
structure CoinRandom where
  shuffle : List COutput → List COutput
  shuffle_perm : ∀ l, (shuffle l).Perm l
  /-- `sort(vValue.rbegin(), vValue.rend(), CompareValueOnly())`. -/
  sort : List WalletCoin → List WalletCoin
  sort_perm : ∀ l, (sort l).Perm l
  sort_sorted : ∀ l, (sort l).Pairwise fun a b => b.nValue ≤ a.nValue
  /-- `insecure_rand()&1` in a call of `ApproximateBestSubset`, a repetition and for a coin. -/
  insecureRand : (call nRep i : Nat) → Bool

/-- What coin selection asks the rest of the wallet. -/
structure CoinEnv extends WalletEnv where
  isTrusted : CTransaction → Bool
  inMempool : CTransaction → Bool
  /-- `IsFromMe(ISMINE_ALL)`. -/
  isFromMe : CTransaction → Bool
  isMine : CTxOut → IsMineType
  isSpent : COutPoint → Bool
  isLockedCoin : COutPoint → Bool
  fCoinbaseMustBeProtected : Bool
  bSpendZeroConfChange : Bool

/-! ### Available coins -/

def CWalletTx.coins (hash : Uint256) (wtx : CWalletTx) : List WalletCoin :=
  wtx.tx.vout.zipIdx.map fun o => ⟨wtx.tx, ⟨hash, o.2⟩, o.1⟩

def CWallet.coins (w : CWallet) : List WalletCoin := w.mapWallet.entries.flatMap fun p => p.2.coins p.1

def CCoinControl.hasSelected : Option CCoinControl → Bool
  | some coinControl => coinControl.setSelected.length > 0
  | none => false

/-- Only the selected coins are wanted. -/
def CCoinControl.onlySelected : Option CCoinControl → Bool
  | some coinControl => coinControl.setSelected.length > 0 && !coinControl.fAllowOtherInputs
  | none => false

def CCoinControl.isSelected : Option CCoinControl → COutPoint → Bool
  | some coinControl, outpoint => outpoint ∈ coinControl.setSelected
  | none, _ => false

def CCoinControl.listSelected : Option CCoinControl → List COutPoint
  | some coinControl => coinControl.setSelected
  | none => []

variable (env : CoinEnv)

def takesTx (fOnlyConfirmed fIncludeCoinBase : Bool) (tx : CTransaction) : Bool :=
  env.checkFinalTx tx && !(fOnlyConfirmed && !env.isTrusted tx) && !(tx.isCoinBase && !fIncludeCoinBase) &&
    !(tx.isCoinBase && env.getBlocksToMaturity tx > 0) && !(env.getDepthInMainChain tx < 0) &&
    !(env.getDepthInMainChain tx = 0 && !env.inMempool tx)

def takesCoin (coinControl : Option CCoinControl) (fIncludeZeroValue : Bool) (coin : WalletCoin) : Bool :=
  !env.isSpent coin.prevout && env.isMine coin.txout ≠ .no && !env.isLockedCoin coin.prevout &&
    (coin.nValue > 0 || fIncludeZeroValue) &&
    (!CCoinControl.onlySelected coinControl || CCoinControl.isSelected coinControl coin.prevout)

def availableCoins (w : CWallet) (fOnlyConfirmed : Bool) (coinControl : Option CCoinControl)
    (fIncludeZeroValue fIncludeCoinBase : Bool) : List COutput :=
  w.mapWallet.entries.flatMap fun p =>
    if takesTx env fOnlyConfirmed fIncludeCoinBase p.2.tx then
      ((p.2.coins p.1).filter (takesCoin env coinControl fIncludeZeroValue)).map fun coin =>
        ⟨coin, env.getDepthInMainChain p.2.tx, env.isMine coin.txout = .spendable⟩
    else []

/-! ### The best subset -/

/-- The state of a repetition of `ApproximateBestSubset`. -/
structure Subset where
  vfIncluded : List Bool
  nTotal : CAmount
  fReachedTarget : Bool
  vfBest : List Bool
  nBest : CAmount

variable (nTargetValue : CAmount)

/-- Coin `i` is included, and taken out again if the target is reached. -/
def Subset.add (i : Nat) (n : CAmount) (s : Subset) : Except Fault Subset := do
  let nTotal ← checked (s.nTotal + n)
  let vfIncluded := s.vfIncluded.set i true
  if nTotal ≥ nTargetValue then
    pure { vfIncluded := vfIncluded.set i false, nTotal := nTotal - n, fReachedTarget := true
           vfBest := if nTotal < s.nBest then vfIncluded else s.vfBest
           nBest := if nTotal < s.nBest then nTotal else s.nBest }
  else pure { s with vfIncluded, nTotal }

/-- A pass over the coins from coin `i` on. -/
def subsetPass (nTargetValue : CAmount) (takes : (i : Nat) → (included : Bool) → Bool) : List WalletCoin → (i : Nat) →
    Subset → Except Fault Subset
  | [], _, s => .ok s
  | coin :: vValue, i, s =>
    if takes i (s.vfIncluded.getD i false) then do
      let s ← s.add nTargetValue i coin.nValue
      subsetPass nTargetValue takes vValue (i + 1) s
    else subsetPass nTargetValue takes vValue (i + 1) s

def secondPass (vValue : List WalletCoin) (s : Subset) : Except Fault Subset :=
  if s.fReachedTarget then .ok s else subsetPass nTargetValue (fun _ included => !included) vValue 0 s

def subsetRep (insecureRand : (i : Nat) → Bool) (vValue : List WalletCoin) (nTargetValue : CAmount)
    (best : List Bool × CAmount) : Except Fault (List Bool × CAmount) := do
  let s ← subsetPass nTargetValue (fun i _ => insecureRand i) vValue 0
    ⟨List.replicate vValue.length false, 0, false, best.1, best.2⟩
  let s ← secondPass nTargetValue vValue s
  pure (s.vfBest, s.nBest)

def subsetReps (insecureRand : (nRep i : Nat) → Bool) (vValue : List WalletCoin) (nTargetValue : CAmount) :
    (count nRep : Nat) → List Bool × CAmount → Except Fault (List Bool × CAmount)
  | 0, _, best => .ok best
  | n + 1, nRep, best =>
    if best.2 ≠ nTargetValue then do
      let best ← subsetRep (insecureRand nRep) vValue nTargetValue best
      subsetReps insecureRand vValue nTargetValue n (nRep + 1) best
    else .ok best

/-- Gives `vfBest` and `nBest`. -/
def approximateBestSubset (insecureRand : (nRep i : Nat) → Bool) (vValue : List WalletCoin)
    (nTotalLower nTargetValue : CAmount) (iterations : Nat) : Except Fault (List Bool × CAmount) :=
  subsetReps insecureRand vValue nTargetValue iterations 0 (List.replicate vValue.length true, nTotalLower)

/-! ### Coins of enough confirmations -/

/-- `setCoinsRet` and `nValueRet`. -/
structure Chosen where
  setCoins : List WalletCoin := []
  nValue : CAmount := 0

def insertCoin (coin : WalletCoin) (setCoins : List WalletCoin) : List WalletCoin :=
  if setCoins.any (·.prevout = coin.prevout) then setCoins else setCoins ++ [coin]

/-- Coins are chosen one after the other. -/
def Chosen.add : List WalletCoin → Chosen → Except Fault Chosen
  | [], chosen => .ok chosen
  | coin :: coins, chosen => do
    let nValue ← checked (chosen.nValue + coin.nValue)
    Chosen.add coins ⟨insertCoin coin chosen.setCoins, nValue⟩

/-- What `SelectCoinsMinConf` has found in its list. -/
structure Scan where
  coinLowestLarger : CAmount × Option WalletCoin := (2 ^ 63 - 1, none)
  vValue : List WalletCoin := []
  nTotalLower : CAmount := 0

/-- A coin that can be spent and has enough confirmations. -/
def isCandidate (nConfMine nConfTheirs : Int) (output : COutput) : Bool :=
  output.fSpendable && !(output.nDepth < if env.isFromMe output.coin.wtx then nConfMine else nConfTheirs)

/-- The loop over the coins.  A coin of the right value ends it. -/
def scanCoins (env : CoinEnv) (nTargetValue nConfMine nConfTheirs : Int) : List COutput → Scan →
    Except Fault (WalletCoin ⊕ Scan)
  | [], s => .ok (.inr s)
  | output :: vCoins, s =>
    if !isCandidate env nConfMine nConfTheirs output then scanCoins env nTargetValue nConfMine nConfTheirs vCoins s
    else if output.coin.nValue = nTargetValue then .ok (.inl output.coin)
    else do
      let limit ← checked (nTargetValue + CENT)
      if output.coin.nValue < limit then do
        let nTotalLower ← checked (s.nTotalLower + output.coin.nValue)
        scanCoins env nTargetValue nConfMine nConfTheirs vCoins { s with vValue := s.vValue ++ [output.coin], nTotalLower }
      else if output.coin.nValue < s.coinLowestLarger.1 then
        scanCoins env nTargetValue nConfMine nConfTheirs vCoins
          { s with coinLowestLarger := (output.coin.nValue, some output.coin) }
      else scanCoins env nTargetValue nConfMine nConfTheirs vCoins s

/-- A subset for the target, or with at least a cent of change. -/
def bestSubset (rand : CoinRandom) (vValue : List WalletCoin) (nTotalLower nTargetValue : CAmount) :
    Except Fault (List Bool × CAmount) := do
  let best ← approximateBestSubset (rand.insecureRand 0) vValue nTotalLower nTargetValue 1000
  if best.2 ≠ nTargetValue then do
    let limit ← checked (nTargetValue + CENT)
    if nTotalLower ≥ limit then approximateBestSubset (rand.insecureRand 1) vValue nTotalLower limit 1000 else pure best
  else pure best

/-- Whether the next bigger coin is better than the subset. -/
def takesLarger (nTargetValue nBest nLarger : CAmount) : Except Fault Bool :=
  if nBest ≠ nTargetValue then do
    let limit ← checked (nTargetValue + CENT)
    pure (nBest < limit || nLarger ≤ nBest)
  else pure (nLarger ≤ nBest)

/-- The coins of the subset, or the next bigger coin. -/
def chooseSubset (rand : CoinRandom) (nTargetValue : CAmount) (s : Scan) : Except Fault Chosen := do
  let vValue := rand.sort s.vValue
  let best ← bestSubset rand vValue s.nTotalLower nTargetValue
  match s.coinLowestLarger.2 with
  | some coin => do
    let larger ← takesLarger nTargetValue best.2 s.coinLowestLarger.1
    if larger then Chosen.add [coin] {} else Chosen.add (select vValue best.1) {}
  | none => Chosen.add (select vValue best.1) {}

/-- `none` is a return of `false`. -/
def selectCoinsMinConf (rand : CoinRandom) (nTargetValue nConfMine nConfTheirs : Int)
    (vCoins : List COutput) : Except Fault (Option Chosen) := do
  match ← scanCoins env nTargetValue nConfMine nConfTheirs (rand.shuffle vCoins) {} with
  | .inl coin => some <$> Chosen.add [coin] {}
  | .inr s =>
    if s.nTotalLower = nTargetValue then some <$> Chosen.add s.vValue {}
    else if s.nTotalLower < nTargetValue then
      match s.coinLowestLarger.2 with
      | some coin => some <$> Chosen.add [coin] {}
      | none => pure none
    else some <$> chooseSubset rand nTargetValue s

/-! ### Preset and other coins -/

def spendableValue : List COutput → CAmount → Except Fault CAmount
  | [], value => .ok value
  | out :: vCoins, value =>
    if out.fSpendable then do
      let value ← checked (value + out.coin.nValue)
      spendableValue vCoins value
    else spendableValue vCoins value

def needsCoinbaseCoins (vCoinsNoCoinbase vCoinsWithCoinbase : List COutput) : Except Fault Bool :=
  if env.fCoinbaseMustBeProtected && vCoinsWithCoinbase.length > vCoinsNoCoinbase.length then do
    let value ← spendableValue vCoinsNoCoinbase 0
    if value ≤ nTargetValue then do
      let valueWithCoinbase ← spendableValue vCoinsWithCoinbase 0
      pure (valueWithCoinbase ≥ nTargetValue)
    else pure false
  else pure false

def chooseAll (vCoins : List COutput) : Except Fault (Option Chosen) := do
  let chosen ← Chosen.add ((vCoins.filter COutput.fSpendable).map COutput.coin) {}
  pure (if chosen.nValue ≥ nTargetValue then some chosen else none)

/-- The output of the wallet that an outpoint names. -/
def CWallet.coin? (w : CWallet) (outpoint : COutPoint) : Option WalletCoin :=
  match w.mapWallet.lookup outpoint.hash with
  | some wtx => wtx.tx.vout[outpoint.n]?.map fun txout => ⟨wtx.tx, outpoint, txout⟩
  | none => none

/-- The preset inputs; `none` if one of them is not an output of the wallet. -/
def presetCoins (w : CWallet) : List COutPoint → Chosen → Except Fault (Option Chosen)
  | [], preset => .ok (some preset)
  | outpoint :: vPresetInputs, preset =>
    match w.coin? outpoint with
    | some coin => do
      let preset ← Chosen.add [coin] preset
      presetCoins w vPresetInputs preset
    | none => .ok none

/-- What the preset inputs lack is chosen from the other coins, in three ways. -/
def chooseRest (rand : (call : Nat) → CoinRandom) (nTargetValue nValueFromPresetInputs : CAmount)
    (vCoins : List COutput) : Except Fault (Option Chosen) :=
  if nTargetValue ≤ nValueFromPresetInputs then pure (some {})
  else do
    let nRest ← checked (nTargetValue - nValueFromPresetInputs)
    match ← selectCoinsMinConf env (rand 0) nRest 1 6 vCoins with
    | some chosen => pure (some chosen)
    | none =>
      match ← selectCoinsMinConf env (rand 1) nRest 1 1 vCoins with
      | some chosen => pure (some chosen)
      | none => if env.bSpendZeroConfChange then selectCoinsMinConf env (rand 2) nRest 0 1 vCoins else pure none

def chooseWithPreset (w : CWallet) (rand : (call : Nat) → CoinRandom) (nTargetValue : CAmount)
    (coinControl : Option CCoinControl) (vCoins : List COutput) : Except Fault (Option Chosen) := do
  match ← presetCoins w (CCoinControl.listSelected coinControl) {} with
  | none => pure none
  | some preset =>
    let vCoins := if CCoinControl.hasSelected coinControl then
      vCoins.filter fun out => !preset.setCoins.any (·.prevout = out.coin.prevout) else vCoins
    match ← chooseRest env rand nTargetValue preset.nValue vCoins with
    | none => pure none
    | some chosen => do
      let nValue ← checked (chosen.nValue + preset.nValue)
      pure (some ⟨preset.setCoins.foldl (fun setCoins coin => insertCoin coin setCoins) chosen.setCoins, nValue⟩)

def chooseCoins (w : CWallet) (rand : (call : Nat) → CoinRandom) (nTargetValue : CAmount)
    (coinControl : Option CCoinControl) (vCoins : List COutput) : Except Fault (Option Chosen) :=
  if CCoinControl.onlySelected coinControl then chooseAll nTargetValue vCoins
  else chooseWithPreset env w rand nTargetValue coinControl vCoins

/-- What `SelectCoins` gives; no coins is a return of `false`. -/
structure Selected where
  chosen : Option Chosen
  fOnlyCoinbaseCoins : Bool
  fNeedCoinbaseCoins : Bool

def selectCoins (w : CWallet) (rand : (call : Nat) → CoinRandom) (nTargetValue : CAmount)
    (coinControl : Option CCoinControl) : Except Fault Selected := do
  let vCoinsNoCoinbase := availableCoins env w true coinControl false false
  let vCoinsWithCoinbase := availableCoins env w true coinControl false true
  let vCoins := if env.fCoinbaseMustBeProtected then vCoinsNoCoinbase else vCoinsWithCoinbase
  let fNeedCoinbaseCoins ← needsCoinbaseCoins env nTargetValue vCoinsNoCoinbase vCoinsWithCoinbase
  let chosen ← chooseCoins env w rand nTargetValue coinControl vCoins
  pure ⟨chosen, vCoinsNoCoinbase.length = 0 && vCoinsWithCoinbase.length > 0, fNeedCoinbaseCoins⟩

end LitecoinZ
