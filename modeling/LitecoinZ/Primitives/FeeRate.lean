import LitecoinZ.Primitives.Serialize

/-!
# Fee rates and dust

`CFeeRate` of `amount.{h,cpp}`, and the outputs that are too small to be worth spending (`CTxOut::IsDust`).
-/

namespace LitecoinZ

def CENT : CAmount := 1000000

/-- A fee rate, of the amounts that `ParseMoney` reads. -/
structure CFeeRate where
  nSatoshisPerK : CAmount
  nonneg : 0 ≤ nSatoshisPerK
  le_parsed : nSatoshisPerK ≤ 10 ^ 18
  deriving DecidableEq, Repr

/-- The product has the type of `nSize`, which is unsigned. -/
def CFeeRate.getFee (rate : CFeeRate) (nSize : Nat) : CAmount :=
  let nFee := rate.nSatoshisPerK * nSize % 2 ^ 64 / 1000
  if nFee = 0 ∧ rate.nSatoshisPerK > 0 then rate.nSatoshisPerK else nFee

def CTxOut.getSerializeSize (txout : CTxOut) : Nat := ((serializationOp MAX_SIZE).put txout).length

def CTransaction.getSerializeSize (tx : CTransaction) : Nat := ((serializationOp MAX_SIZE).put tx).length

def CTxOut.getDustThreshold (txout : CTxOut) (minRelayTxFee : CFeeRate) : CAmount :=
  if isUnspendable txout.scriptPubKey then 0 else 3 * minRelayTxFee.getFee (txout.getSerializeSize + 148)

def CTxOut.isDust (txout : CTxOut) (minRelayTxFee : CFeeRate) : Bool :=
  txout.nValue < txout.getDustThreshold minRelayTxFee

theorem CFeeRate.getFee_range (rate : CFeeRate) (nSize : Nat) : 0 ≤ rate.getFee nSize ∧ rate.getFee nSize ≤ 10 ^ 18 := by
  have hmod : 0 ≤ rate.nSatoshisPerK * nSize % 2 ^ 64 := Int.emod_nonneg _ (by decide)
  have hmod' : rate.nSatoshisPerK * nSize % 2 ^ 64 < 2 ^ 64 := Int.emod_lt_of_pos _ (by decide)
  unfold getFee
  dsimp only
  split
  · exact ⟨rate.nonneg, rate.le_parsed⟩
  · have hdiv : ∀ x : ℤ, 0 ≤ x → x < 2 ^ 64 → 0 ≤ x / 1000 ∧ x / 1000 ≤ 10 ^ 18 := by omega
    exact hdiv _ hmod hmod'

theorem CTxOut.getDustThreshold_range (txout : CTxOut) (minRelayTxFee : CFeeRate) :
    0 ≤ txout.getDustThreshold minRelayTxFee ∧ txout.getDustThreshold minRelayTxFee ≤ 3 * 10 ^ 18 := by
  unfold getDustThreshold
  split
  · decide
  · obtain ⟨h1, h2⟩ := minRelayTxFee.getFee_range (txout.getSerializeSize + 148)
    exact ⟨by linarith, by linarith⟩

theorem CTxOut.getDustThreshold_congr {txout txout' : CTxOut} (h : txout.scriptPubKey = txout'.scriptPubKey)
    (minRelayTxFee : CFeeRate) : txout.getDustThreshold minRelayTxFee = txout'.getDustThreshold minRelayTxFee := by
  have hsize : ∀ txout : CTxOut, txout.getSerializeSize = 8 + ((byteVector MAX_SIZE).put txout.scriptPubKey).length := by
    intro txout
    have hvalue : ∀ n, ((intLE 8).put n).length = 8 := fun n => Codec.length_put_le endOfData 8 _
    change ((intLE 8).put txout.nValue ++ (byteVector MAX_SIZE).put txout.scriptPubKey).length = _
    rw [List.length_append, hvalue]
  rw [getDustThreshold, getDustThreshold, hsize, hsize, h]

end LitecoinZ
