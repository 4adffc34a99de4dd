import Mathlib.Tactic.Linarith
import LitecoinZ.Lib.Triple
import LitecoinZ.Validation.Checked
import LitecoinZ.Validation.ConnectBlock

/-!
# Amounts in the context-free checks

Sums of amounts within the money range stay far within an `int64_t`, so the checks of transactions and blocks never
overflow (`checkBlock_checks`), and the values of a well formed transaction are the plain sums
(`getValueOut_checks`, `getJoinSplitValueIn_checks`).  The two getters add before they look at an amount, so on a
transaction that has not passed the checks they can overflow; `transaction_totals` says when.
-/

namespace LitecoinZ

open StateExcept List

/-- All failures but an overflow. -/
def NoOverflow (fault : Fault) : Prop := fault ≠ .overflow

section

variable {β : Type} {condition : Bool} {fault : Fault} {n : ℤ}

theorem reject_checks (h : NoOverflow fault := by rintro ⟨⟩) :
    Checks NoOverflow (reject condition fault) fun _ => condition = false := by
  cases condition with
  | true => exact .error h
  | false => exact .ok rfl

theorem checked_checks (h : Int64Range n) : Checks NoOverflow (checked n) (· = n) := by
  rw [checked_ok h]
  exact .ok rfl

theorem reject_bind {f : Unit → Except Fault β} {Q : β → Prop}
    (hf : condition = false → Checks NoOverflow (f ()) Q) (h : NoOverflow fault := by rintro ⟨⟩) :
    Checks NoOverflow (reject condition fault >>= f) Q := (reject_checks h).bind fun _ => hf

theorem checked_bind {f : CAmount → Except Fault β} {Q : β → Prop} (h : Int64Range n)
    (hf : Checks NoOverflow (f n) Q) : Checks NoOverflow (checked n >>= f) Q :=
  (checked_checks h).bind fun _ hm => hm ▸ hf

theorem reject_bind_run {σ : Type} {s : σ} {f : Unit → ViewM σ β} {Q : β → σ → Prop}
    (hf : condition = false → Triple NoOverflow s (f ()) Q) (h : NoOverflow fault := by rintro ⟨⟩) :
    Triple NoOverflow s (liftM (reject condition fault) >>= f) Q := Triple.lift_bind (reject_checks h) fun _ => hf

theorem checked_bind_run {σ : Type} {s : σ} {f : CAmount → ViewM σ β} {Q : β → σ → Prop} (h : Int64Range n)
    (hf : Triple NoOverflow s (f n) Q) : Triple NoOverflow s (liftM (checked n) >>= f) Q :=
  Triple.lift_bind (checked_checks h) fun _ hm => hm ▸ hf

theorem reject_bind_readOnly {σ : Type} {f : Unit → ViewM σ β} (hf : ReadOnly NoOverflow (f ()))
    (h : NoOverflow fault := by rintro ⟨⟩) : ReadOnly NoOverflow (liftM (reject condition fault) >>= f) :=
  (ReadOnly.lift (reject_checks h)).bind fun _ => hf

end

/-- A bound for the amounts that are added up: some multiples of it are still in range. -/
theorem int64Range_of_le {n : ℤ} (h1 : -(8 * MAX_MONEY) ≤ n) (h2 : n ≤ 8 * MAX_MONEY) : Int64Range n := by
  have hmax : (8 * MAX_MONEY : ℤ) < 2 ^ 63 := by decide
  constructor <;> linarith

theorem isMoney_zero : IsMoney 0 := ⟨le_refl _, by decide⟩

private theorem int64Range_add {a b : CAmount} (ha : IsMoney a) (hb : IsMoney b) : Int64Range (a + b) := by
  have h1 := ha.1
  have h2 := ha.2
  have h3 := hb.1
  have h4 := hb.2
  have h5 : (0 : ℤ) ≤ MAX_MONEY := by decide
  exact int64Range_of_le (by linarith) (by linarith)

/-! ### Sums -/

variable {n : CAmount} {vs : List CAmount}

private theorem checkVout_checks (vout : List CTxOut) (hn : IsMoney n) :
    Checks NoOverflow (checkVout n vout) IsMoney := by
  induction vout generalizing n with
  | nil => exact .ok hn
  | cons o vout ih =>
    refine reject_bind fun h1 => reject_bind fun h2 => ?_
    have ho : IsMoney o.nValue := ⟨by simpa using h1, by simpa using h2⟩
    exact checked_bind (int64Range_add hn ho) (reject_bind fun h3 => ih (moneyRange_iff.1 (by simpa using h3)))

private theorem checkVpub_checks (vjoinsplit : List JSDescription) (hn : IsMoney n) :
    Checks NoOverflow (checkVpub n vjoinsplit) fun _ => ∀ joinsplit ∈ vjoinsplit, IsMoney joinsplit.vpub_new := by
  induction vjoinsplit generalizing n with
  | nil => exact .ok fun _ h => absurd h not_mem_nil
  | cons js vjoinsplit ih =>
    refine reject_bind fun h1 => reject_bind fun h2 => reject_bind fun h3 => reject_bind fun h4 =>
      reject_bind fun _ => ?_
    have hold : IsMoney js.vpub_old := ⟨by simpa using h1, by simpa using h3⟩
    have hnew : IsMoney js.vpub_new := ⟨by simpa using h2, by simpa using h4⟩
    refine checked_bind (int64Range_add hn hold) (reject_bind fun h5 => ?_)
    exact (ih (moneyRange_iff.1 (by simpa using h5))).mono fun _ h => forall_mem_cons.2 ⟨hnew, h⟩

private theorem checkVpubNew_checks {vjoinsplit : List JSDescription} (hn : IsMoney n)
    (hjs : ∀ joinsplit ∈ vjoinsplit, IsMoney joinsplit.vpub_new) :
    Checks NoOverflow (checkVpubNew n vjoinsplit) fun _ => True := by
  induction vjoinsplit generalizing n with
  | nil => exact .ok trivial
  | cons js vjoinsplit ih =>
    obtain ⟨h1, h2⟩ := forall_mem_cons.1 hjs
    refine checked_bind (int64Range_add hn h1) (reject_bind fun h3 => ?_)
    rw [Bool.or_eq_false_iff] at h3
    exact ih (moneyRange_iff.1 (by simpa using h3.2)) h2

private theorem checkDuplicates_checks {α : Type} [DecidableEq α] {fault : Fault} (hf : NoOverflow fault)
    (seen xs : List α) : Checks NoOverflow (checkDuplicates fault seen xs) fun _ => True := by
  induction xs generalizing seen with
  | nil => exact .ok trivial
  | cons x xs ih => exact reject_bind (fun _ => ih _) hf

theorem sumInRange_checks {what : String} (hn : IsMoney n) (hvs : ∀ v ∈ vs, IsMoney v) :
    Checks NoOverflow (CTransaction.sumInRange what n vs) fun m => m = n + vs.sum ∧ IsMoney m := by
  induction vs generalizing n with
  | nil => exact .ok ⟨by simp, hn⟩
  | cons v vs ih =>
    obtain ⟨h1, h2⟩ := forall_mem_cons.1 hvs
    refine checked_bind (int64Range_add hn h1) (reject_bind fun h3 => ?_)
    rw [Bool.or_eq_false_iff] at h3
    refine (ih (moneyRange_iff.1 (by simpa using h3.2)) h2).mono fun m hm => ⟨?_, hm.2⟩
    rw [hm.1, sum_cons, add_assoc]

theorem getValueOut_checks {tx : CTransaction} (h : tx.WellFormed) :
    Checks NoOverflow tx.getValueOut fun v => v = tx.voutValue + tx.vpubOld ∧ IsMoney v := by
  refine (sumInRange_checks isMoney_zero ?_).bind fun n hn => ?_
  · intro v hv
    obtain ⟨o, ho, rfl⟩ := mem_map.1 hv
    exact h.vout o ho
  refine (sumInRange_checks hn.2 ?_).mono fun m hm => ⟨?_, hm.2⟩
  · intro v hv
    obtain ⟨js, hj, rfl⟩ := mem_map.1 hv
    exact h.vpub_old js hj
  · rw [hm.1, hn.1, zero_add]
    rfl

theorem getJoinSplitValueIn_checks {tx : CTransaction} (h : tx.WellFormed) :
    Checks NoOverflow tx.getJoinSplitValueIn fun v => v = tx.vpubNew ∧ IsMoney v := by
  refine (sumInRange_checks isMoney_zero ?_).mono fun m hm => ⟨?_, hm.2⟩
  · intro v hv
    obtain ⟨js, hj, rfl⟩ := mem_map.1 hv
    exact h.vpub_new js hj
  · rw [hm.1, zero_add]
    rfl

theorem checkTransactionWithoutProofVerification_checks (env : Env) (tx : CTransaction) :
    Checks NoOverflow (checkTransactionWithoutProofVerification env tx) fun _ => True := by
  refine reject_bind fun _ => reject_bind fun _ => reject_bind fun _ => reject_bind fun _ => ?_
  refine (checkVout_checks tx.vout isMoney_zero).bind fun n hn => (checkVpub_checks tx.vjoinsplit hn).bind fun _ hjs => ?_
  refine (checkVpubNew_checks isMoney_zero hjs).bind fun _ _ => ?_
  refine (checkDuplicates_checks (by rintro ⟨⟩) _ _).bind fun _ _ => ?_
  refine (checkDuplicates_checks (by rintro ⟨⟩) _ _).bind fun _ _ => ?_
  split
  · exact reject_bind fun _ => Checks.mono reject_checks fun _ _ => trivial
  · refine reject_bind fun _ => ?_
    split
    · split
      · exact .error (by rintro ⟨⟩)
      · exact Checks.mono reject_checks fun _ _ => trivial
    · exact .ok trivial

theorem checkTransactions_checks (env : Env) (fVerifyProofs : Bool) (vtx : List CTransaction) :
    Checks NoOverflow (checkTransactions env fVerifyProofs vtx) fun _ => True := by
  induction vtx with
  | nil => exact .ok trivial
  | cons tx vtx ih =>
    have htx : Checks NoOverflow (checkTransaction env fVerifyProofs tx) fun _ => True :=
      (checkTransactionWithoutProofVerification_checks env tx).bind fun _ _ => Checks.mono reject_checks fun _ _ => trivial
    exact htx.bind fun _ _ => ih

theorem checkBlock_checks (env : Env) (block : CBlock) (fVerifyProofs fCheckPOW fCheckMerkleRoot : Bool) :
    Checks NoOverflow (checkBlock env block fVerifyProofs fCheckPOW fCheckMerkleRoot) fun _ => block.WellFormed := by
  have hsafe : Checks NoOverflow (checkBlock env block fVerifyProofs fCheckPOW fCheckMerkleRoot) fun _ => True := by
    have hhd : Checks NoOverflow (checkBlockHeader env block.header fCheckPOW) fun _ => True :=
      reject_bind fun _ => reject_bind fun _ => reject_bind fun _ => Checks.mono reject_checks fun _ _ => trivial
    refine hhd.bind fun _ _ => reject_bind fun _ => reject_bind fun _ => reject_bind fun _ => ?_
    refine reject_bind fun _ => reject_bind fun _ => (checkTransactions_checks env _ block.vtx).bind fun _ _ => ?_
    exact Checks.mono reject_checks fun _ _ => trivial
  exact ⟨fun _ h => checkBlock_ok h, hsafe.2⟩

/-! ### Totals of transactions that were not checked -/

/-- An amount after amounts and a sum within the money range can be added to them. -/
def SumsFit (total : CAmount) (vs : List CAmount) : Prop :=
  ∀ ws v us, vs = ws ++ v :: us → (∀ w ∈ ws, IsMoney w) → total + ws.sum ≤ MAX_MONEY → total + ws.sum + v < 2 ^ 63

private theorem sumsFit_nil (total : CAmount) : SumsFit total [] := by
  intro ws v us h
  simp at h

private theorem sumsFit_cons {total v : CAmount} :
    SumsFit total (v :: vs) ↔ (total ≤ MAX_MONEY → total + v < 2 ^ 63) ∧ (IsMoney v → SumsFit (total + v) vs) := by
  constructor
  · intro h
    refine ⟨fun hle => ?_, fun hv ws w us heq hws hle => ?_⟩
    · have := h [] v vs rfl (fun _ hw => absurd hw not_mem_nil) (by simpa using hle)
      simpa using this
    · have := h (v :: ws) w us (by rw [heq, cons_append]) (forall_mem_cons.2 ⟨hv, hws⟩)
      rw [sum_cons, ← add_assoc] at this
      exact this hle
  · rintro ⟨hfirst, hrest⟩ ws w us heq hws hle
    cases ws with
    | nil =>
      obtain ⟨rfl, rfl⟩ := cons.inj heq
      rw [sum_nil, add_zero] at hle ⊢
      exact hfirst hle
    | cons w' ws =>
      obtain ⟨rfl, rfl⟩ := cons.inj heq
      obtain ⟨hv, hws⟩ := forall_mem_cons.1 hws
      rw [sum_cons, ← add_assoc] at hle ⊢
      exact hrest hv ws w us rfl hws hle

private theorem sumsFit_of_lt {total : CAmount} (h : MAX_MONEY < total) (vs : List CAmount) : SumsFit total vs := by
  intro ws v us _ hws hle
  have hsum := sum_nonneg fun w hw => (hws w hw).1
  linarith

private theorem sumInRange_overflow_iff {what : String} (hn : IsMoney n) (hvs : ∀ v ∈ vs, Int64Range v) :
    CTransaction.sumInRange what n vs ≠ .error .overflow ↔ SumsFit n vs := by
  induction vs generalizing n with
  | nil => exact ⟨fun _ => sumsFit_nil n, fun _ => by rintro ⟨⟩⟩
  | cons v vs ih =>
    obtain ⟨hv, hvs⟩ := forall_mem_cons.1 hvs
    rw [CTransaction.sumInRange, sumsFit_cons]
    by_cases hlt : n + v < 2 ^ 63
    · have hrange : Int64Range (n + v) := ⟨by linarith [hn.1, hv.1], hlt⟩
      rw [checked_ok hrange]
      change (reject _ _ >>= fun _ => CTransaction.sumInRange what (n + v) vs) ≠ _ ↔ _
      by_cases hmoney : IsMoney v ∧ IsMoney (n + v)
      · rw [moneyRange_iff.2 hmoney.1, moneyRange_iff.2 hmoney.2]
        exact (ih hmoney.2 hvs).trans ⟨fun h => ⟨fun _ => hlt, fun _ => h⟩, fun h => h.2 hmoney.1⟩
      · -- The getter throws; nothing is added after the amount.
        have hrej : (!moneyRange v || !moneyRange (n + v)) = true := by
          rw [Bool.or_eq_true, Bool.not_eq_true', Bool.not_eq_true', ← Bool.not_eq_true, ← Bool.not_eq_true, moneyRange_iff,
            moneyRange_iff]
          exact not_and_or.1 hmoney
        rw [hrej]
        refine ⟨fun _ => ⟨fun _ => hlt, fun hv' => ?_⟩, fun _ => by rintro ⟨⟩⟩
        refine sumsFit_of_lt ?_ vs
        by_contra hle
        exact hmoney ⟨hv', by linarith [hn.1, hv'.1], not_lt.1 hle⟩
    · have hovf : checked (n + v) = .error .overflow := if_neg fun h => hlt h.2
      rw [hovf]
      refine ⟨fun h => absurd rfl h, fun h => absurd (h.1 hn.2) hlt⟩

private theorem sumInRange_ok (what : String) (hn : IsMoney n) (hvs : ∀ v ∈ vs, IsMoney v)
    (hle : n + vs.sum ≤ MAX_MONEY) : CTransaction.sumInRange what n vs = .ok (n + vs.sum) := by
  induction vs generalizing n with
  | nil => rw [CTransaction.sumInRange, sum_nil, add_zero]
  | cons v vs ih =>
    obtain ⟨hv, hvs⟩ := forall_mem_cons.1 hvs
    have hnn := sum_nonneg fun w hw => (hvs w hw).1
    rw [sum_cons, ← add_assoc] at hle ⊢
    have hnext : IsMoney (n + v) := ⟨by linarith [hn.1, hv.1], by linarith⟩
    rw [CTransaction.sumInRange, checked_ok (int64Range_add hn hv)]
    change (reject (!moneyRange v || !moneyRange (n + v)) _ >>= fun _ => CTransaction.sumInRange what (n + v) vs) = _
    rw [moneyRange_iff.2 hv, moneyRange_iff.2 hnext]
    exact ih hnext hvs hle

private theorem sumInRange_append (what : String) (n : CAmount) (vs us : List CAmount) :
    CTransaction.sumInRange what n (vs ++ us) =
      CTransaction.sumInRange what n vs >>= fun m => CTransaction.sumInRange what m us := by
  induction vs generalizing n with
  | nil => rfl
  | cons v vs ih => simp only [cons_append, CTransaction.sumInRange, ih, bind_assoc]

namespace CTransaction

def valuesOut (tx : CTransaction) : List CAmount := tx.vout.map CTxOut.nValue ++ tx.vjoinsplit.map JSDescription.vpub_old

def valuesIn (tx : CTransaction) : List CAmount := tx.vjoinsplit.map JSDescription.vpub_new

private theorem getValueOut_eq (tx : CTransaction) :
    tx.getValueOut = sumInRange "CTransaction::GetValueOut(): value out of range" 0 tx.valuesOut := by
  rw [valuesOut, sumInRange_append]
  rfl

/-- The check never overflows.  The getters give the sums of a transaction that it accepts, and do not overflow on one where
no amount is too high for the sum before it. -/
theorem transaction_totals (env : Env) (tx : CTransaction) (hout : ∀ v ∈ tx.valuesOut, Int64Range v)
    (hin : ∀ v ∈ tx.valuesIn, Int64Range v) :
    checkTransactionWithoutProofVerification env tx ≠ .error .overflow ∧
    (checkTransactionWithoutProofVerification env tx = .ok () →
      tx.getValueOut = .ok (tx.voutValue + tx.vpubOld) ∧ IsMoney (tx.voutValue + tx.vpubOld) ∧
      tx.getJoinSplitValueIn = .ok tx.vpubNew ∧ IsMoney tx.vpubNew) ∧
    (tx.getValueOut ≠ .error .overflow ↔ SumsFit 0 tx.valuesOut) ∧
    (tx.getJoinSplitValueIn ≠ .error .overflow ↔ SumsFit 0 tx.valuesIn) := by
  refine ⟨fun h => ?_, fun h => ?_, ?_, sumInRange_overflow_iff isMoney_zero hin⟩
  · exact (checkTransactionWithoutProofVerification_checks env tx).2 _ h rfl
  · have hwf := checkTransactionWithoutProofVerification_ok h
    have hvout : ∀ v ∈ tx.valuesOut, IsMoney v := by
      intro v hv
      rcases mem_append.1 hv with hv | hv
      · obtain ⟨o, ho, rfl⟩ := mem_map.1 hv
        exact hwf.vout o ho
      · obtain ⟨js, hjs, rfl⟩ := mem_map.1 hv
        exact hwf.vpub_old js hjs
    have hvin : ∀ v ∈ tx.valuesIn, IsMoney v := by
      intro v hv
      obtain ⟨js, hjs, rfl⟩ := mem_map.1 hv
      exact hwf.vpub_new js hjs
    have hsum : tx.valuesOut.sum = tx.voutValue + tx.vpubOld := sum_append
    have hnn := sum_nonneg fun v hv => (hvout v hv).1
    rw [hsum] at hnn
    refine ⟨?_, ⟨hnn, hwf.valueOut⟩, ?_, sum_nonneg fun v hv => (hvin v hv).1, hwf.valueNew⟩
    · have hok := sumInRange_ok "CTransaction::GetValueOut(): value out of range" isMoney_zero hvout
        (by rw [zero_add, hsum]; exact hwf.valueOut)
      rw [zero_add, hsum] at hok
      rw [getValueOut_eq, hok]
    · have hok := sumInRange_ok "CTransaction::GetJoinSplitValueIn(): value out of range" isMoney_zero hvin
        (by rw [zero_add]; exact hwf.valueNew)
      rw [zero_add] at hok
      exact hok
  · rw [getValueOut_eq]
    exact sumInRange_overflow_iff isMoney_zero hout

def twoOutputs (v₁ v₂ : CAmount) : CTransaction where
  nVersion := 1
  vin := [{ prevout := { hash := 7, n := 0 }, scriptSig := [], nSequence := 0 }]
  vout := [⟨v₁, []⟩, ⟨v₂, []⟩]
  vjoinsplit := []
  nLockTime := 0
  joinSplitPubKey := 0
  joinSplitSig := nullSig

theorem transaction_totals_accepted : checkTransactionWithoutProofVerification plainEnv (twoOutputs 5 6) = .ok () ∧
    (twoOutputs 5 6).getValueOut = .ok 11 ∧ IsMoney 11 := by
  have hvalues : ∀ v ∈ (twoOutputs 5 6).valuesOut, Int64Range v := by decide
  have hcheck : checkTransactionWithoutProofVerification plainEnv (twoOutputs 5 6) = .ok () := by decide
  obtain ⟨-, htotals, -⟩ := transaction_totals plainEnv (twoOutputs 5 6) hvalues (by decide)
  obtain ⟨hvalue, hmoney, -⟩ := htotals hcheck
  exact ⟨hcheck, hvalue, hmoney⟩

/-- The first output is added, then the second one overflows before its range is looked at. -/
theorem getValueOut_overflows : Int64Range (2 ^ 63 - 1) ∧
    checkTransactionWithoutProofVerification plainEnv (twoOutputs 1 (2 ^ 63 - 1)) =
      .error (rejectInvalid 100 "bad-txns-vout-toolarge") ∧
    (twoOutputs 1 (2 ^ 63 - 1)).getValueOut = .error .overflow := by
  refine ⟨by decide, by decide, by decide⟩

end CTransaction

end LitecoinZ
