import Mathlib.Algebra.Order.BigOperators.Group.List
import LitecoinZ.Validation.CheckTransaction

/-!
# What the context-free checks ensure

Transactions and blocks that pass the checks are well formed: amounts and their sums are within the money range, no
outpoint is spent and no nullifier revealed twice in a transaction, and the first transaction of a block is its only
coinbase, without JoinSplits.
-/

namespace LitecoinZ

open StateExcept List

def IsMoney (n : CAmount) : Prop := 0 ≤ n ∧ n ≤ MAX_MONEY

namespace CTransaction

def voutValue (tx : CTransaction) : CAmount := (tx.vout.map CTxOut.nValue).sum

/-- The value that JoinSplits take from the transaction. -/
def vpubOld (tx : CTransaction) : CAmount := (tx.vjoinsplit.map JSDescription.vpub_old).sum

/-- The value that JoinSplits add to the transaction. -/
def vpubNew (tx : CTransaction) : CAmount := (tx.vjoinsplit.map JSDescription.vpub_new).sum

structure WellFormed (tx : CTransaction) : Prop where
  sources : tx.vin ≠ [] ∨ tx.vjoinsplit ≠ []
  vout : ∀ txout ∈ tx.vout, IsMoney txout.nValue
  vpub_old : ∀ joinsplit ∈ tx.vjoinsplit, IsMoney joinsplit.vpub_old
  vpub_new : ∀ joinsplit ∈ tx.vjoinsplit, IsMoney joinsplit.vpub_new
  valueOut : tx.voutValue + tx.vpubOld ≤ MAX_MONEY
  valueNew : tx.vpubNew ≤ MAX_MONEY
  inputs : (tx.vin.map CTxIn.prevout).Nodup
  nullifiers : tx.nullifiers.Nodup
  coinBase : tx.isCoinBase = true → tx.vjoinsplit = []

end CTransaction

variable {n m : CAmount} {vjoinsplit : List JSDescription} {u : Unit} {env : Env} {block : CBlock}
  {fVerifyProofs : Bool}

private theorem checkVout_ok {vout : List CTxOut} (h : checkVout n vout = .ok m) (hn : IsMoney n) :
    (∀ txout ∈ vout, IsMoney txout.nValue) ∧ m = n + (vout.map CTxOut.nValue).sum ∧ IsMoney m := by
  induction vout generalizing n with
  | nil =>
    cases h
    exact ⟨fun _ h => absurd h not_mem_nil, by simp, hn⟩
  | cons o vout ih =>
    simp only [checkVout, except_bind_ok, reject_ok, checked_eq_ok] at h
    obtain ⟨_, h1, _, h2, _, ⟨-, rfl⟩, _, h3, h⟩ := h
    obtain ⟨hv, hm, hr⟩ := ih h (moneyRange_iff.1 (by simpa using h3))
    refine ⟨forall_mem_cons.2 ⟨⟨by simpa using h1, by simpa using h2⟩, hv⟩, ?_, hr⟩
    rw [hm, map_cons, sum_cons, add_assoc]

private theorem checkVpub_ok (h : checkVpub n vjoinsplit = .ok m) (hn : IsMoney n) :
    (∀ joinsplit ∈ vjoinsplit, IsMoney joinsplit.vpub_old ∧ IsMoney joinsplit.vpub_new) ∧
      m = n + (vjoinsplit.map JSDescription.vpub_old).sum ∧ IsMoney m := by
  induction vjoinsplit generalizing n with
  | nil =>
    cases h
    exact ⟨fun _ h => absurd h not_mem_nil, by simp, hn⟩
  | cons js vjoinsplit ih =>
    simp only [checkVpub, except_bind_ok, reject_ok, checked_eq_ok] at h
    obtain ⟨_, h1, _, h2, _, h3, _, h4, _, -, _, ⟨-, rfl⟩, _, h5, h⟩ := h
    obtain ⟨hv, hm, hr⟩ := ih h (moneyRange_iff.1 (by simpa using h5))
    refine ⟨forall_mem_cons.2 ⟨⟨⟨?_, ?_⟩, ?_, ?_⟩, hv⟩, ?_, hr⟩
    · simpa using h1
    · simpa using h3
    · simpa using h2
    · simpa using h4
    · rw [hm, map_cons, sum_cons, add_assoc]

private theorem checkVpubNew_ok (h : checkVpubNew n vjoinsplit = .ok m) (hn : IsMoney n) :
    n + (vjoinsplit.map JSDescription.vpub_new).sum ≤ MAX_MONEY := by
  induction vjoinsplit generalizing n with
  | nil => simpa using hn.2
  | cons js vjoinsplit ih =>
    simp only [checkVpubNew, except_bind_ok, reject_ok, checked_eq_ok, Bool.or_eq_false_iff] at h
    obtain ⟨_, ⟨-, rfl⟩, _, ⟨-, h2⟩, h⟩ := h
    have hsum := ih h (moneyRange_iff.1 (by simpa using h2))
    rw [map_cons, sum_cons, ← add_assoc]
    exact hsum

private theorem checkDuplicates_ok {α : Type} [DecidableEq α] {fault : Fault} {seen xs : List α}
    (h : checkDuplicates fault seen xs = .ok u) : xs.Nodup ∧ ∀ x ∈ xs, x ∉ seen := by
  induction xs generalizing seen with
  | nil => exact ⟨nodup_nil, fun _ h => absurd h not_mem_nil⟩
  | cons x xs ih =>
    simp only [checkDuplicates, except_bind_ok, reject_ok] at h
    obtain ⟨_, h1, h⟩ := h
    obtain ⟨hnd, hseen⟩ := ih h
    refine ⟨nodup_cons.2 ⟨fun hx => hseen x hx mem_cons_self, hnd⟩, ?_⟩
    refine forall_mem_cons.2 ⟨by simpa using h1, fun y hy hs => hseen y hy (mem_cons_of_mem x hs)⟩

theorem checkTransactionWithoutProofVerification_ok {tx : CTransaction}
    (h : checkTransactionWithoutProofVerification env tx = .ok u) : tx.WellFormed := by
  simp only [checkTransactionWithoutProofVerification, except_bind_ok, reject_ok] at h
  obtain ⟨_, -, _, hsrc, _, -, _, -, _, hvout, _, hvpub, _, hnew, _, hin, _, hnf, h⟩ := h
  have hzero : IsMoney 0 := ⟨le_refl _, by decide⟩
  obtain ⟨hv, rfl, hvr⟩ := checkVout_ok hvout hzero
  obtain ⟨hjs, hm, hmr⟩ := checkVpub_ok hvpub hvr
  refine ⟨?_, hv, fun js hj => (hjs js hj).1, fun js hj => (hjs js hj).2, ?_, ?_, (checkDuplicates_ok hin).1,
    (checkDuplicates_ok hnf).1, fun hcb => ?_⟩
  · by_contra hne
    rw [not_or, not_not, not_not] at hne
    simp [hne.1, hne.2] at hsrc
  · rw [hm, zero_add] at hmr
    exact hmr.2
  · simpa [CTransaction.vpubNew] using checkVpubNew_ok hnew hzero
  · simp only [hcb, if_true, checkCoinBase, except_bind_ok, reject_ok] at h
    obtain ⟨_, hlen, -⟩ := h
    simpa using hlen

/-- A coinbase and ordinary transactions, all well formed. -/
structure CBlock.WellFormed (block : CBlock) : Prop where
  head : ∃ coinbase, block.vtx.head? = some coinbase ∧ coinbase.isCoinBase = true
  tail : ∀ tx ∈ block.vtx.tail, tx.isCoinBase = false
  vtx : ∀ tx ∈ block.vtx, tx.WellFormed

theorem CBlock.WellFormed.vtx_eq (h : block.WellFormed) :
    ∃ coinbase vtx, block.vtx = coinbase :: vtx ∧ coinbase.isCoinBase = true ∧ ∀ tx ∈ vtx, tx.isCoinBase = false := by
  obtain ⟨coinbase, hhead, hcb⟩ := h.head
  have htail := h.tail
  cases hv : block.vtx with
  | nil =>
    rw [hv] at hhead
    cases hhead
  | cons tx vtx =>
    rw [hv] at hhead htail
    cases hhead
    exact ⟨coinbase, vtx, rfl, hcb, htail⟩

theorem CBlock.WellFormed.filter_isCoinBase (h : block.WellFormed) :
    ∃ coinbase, block.vtx.head? = some coinbase ∧ coinbase.isCoinBase = true ∧
      block.vtx.filter CTransaction.isCoinBase = [coinbase] := by
  obtain ⟨coinbase, vtx, hvtx, hcb, htail⟩ := h.vtx_eq
  refine ⟨coinbase, by rw [hvtx]; rfl, hcb, ?_⟩
  rw [hvtx, filter_cons, if_pos hcb, filter_eq_nil_iff.2 fun tx hm => by simp [htail tx hm]]

theorem checkTransactions_ok {vtx : List CTransaction} (h : checkTransactions env fVerifyProofs vtx = .ok u) :
    ∀ tx ∈ vtx, tx.WellFormed := by
  induction vtx with
  | nil => exact fun _ h => absurd h not_mem_nil
  | cons tx vtx ih =>
    simp only [checkTransactions, checkTransaction, except_bind_ok] at h
    obtain ⟨_, ⟨_, h1, -⟩, h⟩ := h
    exact forall_mem_cons.2 ⟨checkTransactionWithoutProofVerification_ok h1, ih h⟩

theorem checkBlock_ok {fCheckPOW fCheckMerkleRoot : Bool}
    (h : checkBlock env block fVerifyProofs fCheckPOW fCheckMerkleRoot = .ok u) : block.WellFormed := by
  simp only [checkBlock, except_bind_ok, reject_ok] at h
  obtain ⟨_, -, _, -, _, -, _, -, _, hhead, _, htail, _, htxs, -⟩ := h
  refine ⟨?_, ?_, checkTransactions_ok htxs⟩
  · simpa [Option.any_eq_true] using hhead
  · simpa [any_eq_false] using htail

end LitecoinZ
