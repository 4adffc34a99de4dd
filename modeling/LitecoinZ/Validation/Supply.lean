import LitecoinZ.Validation.Value

/-!
# The money supply

Connecting a block adds at most its subsidy to the value of the unspent outputs and of the shielded pool together,
as long as the pool is never overdrawn, and no amount that is computed on the way leaves the range of an `int64_t`
(`connectBlock_value`).  Over a whole chain the supply is at most the sum of the subsidies, which is within the money
range (`supply_bound`).
-/

namespace LitecoinZ

open StateExcept ViewM List

variable {env : Env} {index : BlockIndex} {L : Ledger} {tx : CTransaction} {vtx : List CTransaction} {acc : BlockAcc}
  {pool : CAmount}

private theorem available_coins {txin : CTxIn} (h : L.Available txin) :
    ∃ c, L.getCoins txin.prevout.hash = some c ∧ c.isAvailable txin.prevout.n = true ∧
      (c.vout.getD txin.prevout.n .null).nValue = L.outputValue txin.prevout := by
  obtain ⟨c, hc, hav⟩ := (Option.any_eq_true _ _).1 h
  refine ⟨c, hc, hav, ?_⟩
  obtain ⟨o, ho⟩ := Option.isSome_iff_exists.1 ((CCoins.isAvailable_eq c _).symm.trans hav)
  obtain ⟨hget, -⟩ := Option.filter_eq_some_iff.1 ho
  simp [Ledger.outputValue, Ledger.output, hc, ho, getD_eq_getElem?_getD, hget]

def vinValue (L : Ledger) (vin : List CTxIn) : CAmount := ((vin.map CTxIn.prevout).map L.outputValue).sum

theorem vinValue_cons (L : Ledger) (txin : CTxIn) (vin : List CTxIn) :
    vinValue L (txin :: vin) = L.outputValue txin.prevout + vinValue L vin := by
  simp [vinValue]

theorem vinValue_nonneg (h : L.Nonneg) (vin : List CTxIn) : 0 ≤ vinValue L vin := by
  refine sum_nonneg fun v hv => ?_
  obtain ⟨out, -, rfl⟩ := mem_map.1 hv
  exact h.outputValue out

private theorem inputsValue_eq (hcb : tx.isCoinBase = false) (L : Ledger) :
    tx.inputsValue L = vinValue L tx.vin := by
  rw [CTransaction.inputsValue, CTransaction.spends, hcb]
  rfl

variable [MerkleHash Uint256]

/-! ### Inputs -/

theorem sumOutputsFor_value (hL : L.Nonneg) {n : CAmount} {vin : List CTxIn} (hn : 0 ≤ n)
    (hav : ∀ txin ∈ vin, L.Available txin) (hmax : n + vinValue L vin ≤ 8 * MAX_MONEY) :
    Triple NoOverflow L (sumOutputsFor n vin) fun m L' => L' = L ∧ m = n + vinValue L vin := by
  induction vin generalizing n with
  | nil => exact Triple.pure ⟨rfl, by simp [vinValue]⟩
  | cons txin vin ih =>
    obtain ⟨h1, h2⟩ := forall_mem_cons.1 hav
    obtain ⟨c, hc, hcav, hval⟩ := available_coins h1
    have hpos := hL.outputValue txin.prevout
    have hrest := vinValue_nonneg hL vin
    rw [vinValue_cons] at hmax
    have hout : Triple NoOverflow L (getOutputFor txin : ViewM Ledger _) fun o L' =>
        L' = L ∧ o.nValue = L.outputValue txin.prevout := by
      refine ⟨fun o L' h => ?_, ((getOutputFor_readOnly txin) L).2⟩
      have hrun : (getOutputFor txin).run L = .ok (c.vout.getD txin.prevout.n .null, L) := by
        refine run_bind_ok.2 ⟨some c, L, by rw [← hc]; rfl, ?_⟩
        exact run_bind_ok.2 ⟨(), L, run_lift_ok.2 ⟨reject_ok.2 (by simp [hcav]), rfl⟩, rfl⟩
      rw [hrun] at h
      cases h
      exact ⟨rfl, hval⟩
    refine hout.bind fun o L' h => ?_
    obtain ⟨rfl, ho⟩ := h
    refine checked_bind_run (int64Range_of_le ?_ ?_) ?_
    · have : (0 : ℤ) ≤ MAX_MONEY := by decide
      rw [ho]
      linarith
    · rw [ho]
      linarith
    · refine (ih (n := n + o.nValue) (by rw [ho]; linarith) h2 (by rw [ho]; linarith)).mono fun m L' hm => ⟨hm.1, ?_⟩
      rw [hm.2, ho, vinValue_cons]
      ring

def CTransaction.fee (tx : CTransaction) (L : Ledger) : CAmount :=
  tx.inputsValue L + tx.vpubNew - (tx.voutValue + tx.vpubOld)

private theorem haveInputs_available (hcb : tx.isCoinBase = false) :
    Triple NoOverflow L (haveInputs tx : ViewM Ledger _) fun a L' =>
      L' = L ∧ (a = true → ∀ txin ∈ tx.vin, L.Available txin) := by
  refine ⟨fun a L' h => ⟨(haveInputs_readOnly tx).state h, ?_⟩, (haveInputs_readOnly tx L).2⟩
  rintro rfl
  rw [haveInputs, hcb] at h
  exact haveAllInputs_true h

/-- The fees that a transaction adds in a block. -/
def CTransaction.feeInBlock (tx : CTransaction) (L : Ledger) : CAmount := if tx.isCoinBase then 0 else tx.fee L

variable {fExpensiveChecks fFirst : Bool}

section

variable (hL : L.Nonneg) (hmax : L.value ≤ 2 * MAX_MONEY)
include hL hmax

theorem checkInputValues_value {nSpendHeight : Int} {n : CAmount} {vin : List CTxIn} (hn : IsMoney n)
    (hav : ∀ txin ∈ vin, L.Available txin) :
    Triple NoOverflow L (checkInputValues env tx nSpendHeight n vin) fun m L' =>
      L' = L ∧ m = n + vinValue L vin ∧ IsMoney m := by
  induction vin generalizing n with
  | nil => exact Triple.pure ⟨rfl, by simp [vinValue], hn⟩
  | cons txin vin ih =>
    obtain ⟨h1, h2⟩ := forall_mem_cons.1 hav
    obtain ⟨c, hc, hcav, hval⟩ := available_coins h1
    have hpos := hL.outputValue txin.prevout
    have hle : L.outputValue txin.prevout ≤ L.value := by
      have := Ledger.outputValues_le hL (nodup_singleton txin.prevout)
        (by simpa using Ledger.available_iff.1 h1)
      simpa using this
    have hget : Triple NoOverflow L (accessCoins txin.prevout.hash : ViewM Ledger _) fun coins L' =>
        L' = L ∧ coins = some c := by
      refine ⟨?_, (accessCoins_readOnly _ L).2⟩
      rintro _ _ ⟨⟩
      exact ⟨rfl, hc⟩
    refine hget.bind fun coins L' h => ?_
    obtain ⟨rfl, rfl⟩ := h
    refine reject_bind_run fun _ => reject_bind_run fun _ => ?_
    have hn1 : 0 ≤ n := hn.1
    have hn2 : n ≤ MAX_MONEY := hn.2
    have hm : (0 : ℤ) ≤ MAX_MONEY := by decide
    refine checked_bind_run (int64Range_of_le (by rw [hval]; linarith) (by rw [hval]; linarith)) ?_
    refine reject_bind_run fun h3 => ?_
    rw [Bool.or_eq_false_iff] at h3
    refine (ih (moneyRange_iff.1 (by simpa using h3.2)) h2).mono fun m L' hm => ⟨hm.1, ?_, hm.2.2⟩
    rw [hm.2.1, hval, vinValue_cons]
    ring

section

variable (htx : tx.WellFormed) (hcb : tx.isCoinBase = false)
include htx hcb

theorem checkTxInputs_value {nSpendHeight : Int} :
    Triple NoOverflow L (checkTxInputs env tx nSpendHeight) fun _ L' => L' = L ∧ 0 ≤ tx.fee L := by
  have hm : (0 : ℤ) ≤ MAX_MONEY := by decide
  refine (haveInputs_available hcb).bind fun ok L' h => ?_
  obtain ⟨rfl, hav⟩ := h
  refine reject_bind_run fun hok => (haveJoinSplits_readOnly _ _ L').bind fun ok' L'' h => ?_
  subst h
  refine reject_bind_run fun _ => ?_
  refine (checkInputValues_value hL hmax isMoney_zero (hav (by simpa using hok))).bind fun n L1 h => ?_
  obtain ⟨rfl, hn, hn1, hn2⟩ := h
  refine Triple.lift_bind (getJoinSplitValueIn_checks htx) fun v hv => ?_
  obtain ⟨rfl, hv1, hv2⟩ := hv
  refine checked_bind_run (int64Range_of_le (by linarith) (by linarith)) (reject_bind_run fun hr => ?_)
  obtain ⟨hr1, hr2⟩ := moneyRange_iff.1 (by simpa using hr)
  refine Triple.lift_bind (getValueOut_checks htx) fun w hw => reject_bind_run fun hle => ?_
  obtain ⟨rfl, hw1, hw2⟩ := hw
  refine checked_bind_run (int64Range_of_le (by linarith) (by linarith)) (reject_bind_run fun _ => ?_)
  refine (Triple.lift reject_checks).mono fun _ L'' h => ⟨h.2, ?_⟩
  have hle' : tx.voutValue + tx.vpubOld ≤ n + tx.vpubNew := by simpa using hle
  rw [CTransaction.fee, inputsValue_eq hcb]
  linarith

theorem getValueIn_value (hav : ∀ txin ∈ tx.vin, L.Available txin) :
    Triple NoOverflow L (getValueIn tx) fun v L' => L' = L ∧ v = tx.inputsValue L + tx.vpubNew ∧ 0 ≤ v ∧ v ≤ 3 * MAX_MONEY := by
  have hm : (0 : ℤ) ≤ MAX_MONEY := by decide
  have hpos := vinValue_nonneg hL tx.vin
  have hle : vinValue L tx.vin ≤ L.value := by
    refine Ledger.outputValues_le hL htx.inputs fun out hout => ?_
    obtain ⟨txin, hin, rfl⟩ := mem_map.1 hout
    exact Ledger.available_iff.1 (hav txin hin)
  refine Triple.ite (fun h => absurd (h.symm.trans hcb) Bool.noConfusion) fun _ => ?_
  refine (sumOutputsFor_value hL (le_refl 0) hav (by linarith)).bind fun n L' h => ?_
  obtain ⟨rfl, rfl⟩ := h
  refine Triple.lift_bind (getJoinSplitValueIn_checks htx) fun v hv => ?_
  obtain ⟨rfl, hv1, hv2⟩ := hv
  refine (Triple.lift (checked_checks (int64Range_of_le (by linarith) (by linarith)))).mono fun v L'' h => ?_
  obtain ⟨rfl, rfl⟩ := h
  refine ⟨rfl, ?_, by linarith, by linarith⟩
  rw [inputsValue_eq hcb, zero_add]

theorem contextualCheckInputs_value {fScriptChecks : Bool} :
    Triple NoOverflow L (contextualCheckInputs env tx fScriptChecks) fun _ L' => L' = L ∧ 0 ≤ tx.fee L := by
  refine Triple.ite (fun h => absurd (h.symm.trans hcb) Bool.noConfusion) fun _ => ?_
  refine (getBestBlock_readOnly L).bind fun _ L' h => ?_
  subst h
  refine (checkTxInputs_value hL hmax htx hcb).bind fun _ L' h => ?_
  obtain ⟨rfl, hfee⟩ := h
  refine Triple.ite (fun _ => ?_) fun _ => Triple.pure ⟨rfl, hfee⟩
  exact (checkScripts_readOnly env tx 0 tx.vin L').mono fun _ _ h => ⟨h, hfee⟩

end

theorem checkTxOnView_value (htx : tx.WellFormed) (hfees1 : 0 ≤ acc.nFees) (hfees2 : acc.nFees ≤ 2 * MAX_MONEY) :
    Triple NoOverflow L (checkTxOnView env fExpensiveChecks tx acc) fun acc' L' =>
      L' = L ∧ acc'.nFees = acc.nFees + tx.feeInBlock L ∧ 0 ≤ tx.feeInBlock L := by
  have hm : (0 : ℤ) ≤ MAX_MONEY := by decide
  refine Triple.ite (fun hcb => Triple.pure ⟨rfl, ?_⟩) fun hcb => ?_
  · simp [CTransaction.feeInBlock, hcb]
  have hcb' : tx.isCoinBase = false := Bool.eq_false_iff.2 hcb
  have hfee : tx.feeInBlock L = tx.fee L := if_neg hcb
  refine (haveInputs_available hcb').bind fun ok L' h => ?_
  obtain ⟨rfl, hav⟩ := h
  refine reject_bind_run fun hok => (haveJoinSplits_readOnly _ _ L').bind fun _ L'' h => ?_
  subst h
  refine reject_bind_run fun _ => (getP2SHSigOpCount_readOnly _ _ L'').bind fun _ L' h => ?_
  subst h
  refine reject_bind_run fun _ => ?_
  refine (getValueIn_value hL hmax htx hcb' (hav (by simpa using hok))).bind fun v L'' h => ?_
  obtain ⟨rfl, hv, hv1, hv2⟩ := h
  refine Triple.lift_bind (getValueOut_checks htx) fun w hw => ?_
  obtain ⟨rfl, hw1, hw2⟩ := hw
  refine checked_bind_run (int64Range_of_le (by linarith) (by linarith)) ?_
  refine checked_bind_run (int64Range_of_le (by linarith) (by linarith)) ?_
  refine (contextualCheckInputs_value hL hmax htx hcb').bind fun ok L' h => ?_
  obtain ⟨rfl, hpos⟩ := h
  refine Triple.pure ⟨rfl, ?_, by rwa [hfee]⟩
  rw [hfee, CTransaction.fee, ← hv]

end

/-! ### Blocks -/

def poolValue (vtx : List CTransaction) : CAmount := (vtx.map fun tx => tx.vpubOld - tx.vpubNew).sum

/-- What is known in the middle of a block: with the fees so far, unspent outputs and pool are worth at most `T`. -/
structure WithinBlock (T pool : CAmount) (acc : BlockAcc) (L : Ledger) : Prop where
  nonneg : L.Nonneg
  fees : 0 ≤ acc.nFees
  total : L.value + pool + acc.nFees ≤ T

private theorem modifyCoins_noOverflow {α : Type} {f : CCoins → Except Fault (α × CCoins)}
    (hf : ∀ c, Checks NoOverflow (f c) fun _ => True) (k : Uint256) (L : Ledger) :
    Triple NoOverflow L (modifyCoins k f : ViewM Ledger _) fun _ _ => True := by
  refine ⟨fun _ _ _ => trivial, fun e h => ?_⟩
  change Except.map _ (f ((L.getCoins k).getD .clear)) = _ at h
  cases hr : f ((L.getCoins k).getD .clear) with
  | ok r =>
    rw [hr] at h
    cases h
  | error e' =>
    rw [hr] at h
    cases h
    exact (hf _).2 _ hr

omit [MerkleHash Uint256] in
private theorem spendForUndo_noOverflow (n : Nat) (c : CCoins) : Checks NoOverflow (spendForUndo n c) fun _ => True := by
  refine reject_bind fun _ => ?_
  dsimp only
  split
  · exact .ok trivial
  · exact .ok trivial

private theorem spendInputs_noOverflow (vin : List CTxIn) (L : Ledger) :
    Triple NoOverflow L (spendInputs vin : ViewM Ledger _) fun _ _ => True := by
  induction vin generalizing L with
  | nil => exact Triple.pure trivial
  | cons txin vin ih =>
    refine (modifyCoins_noOverflow (spendForUndo_noOverflow _) _ L).bind fun _ L' _ => ?_
    exact (ih L').bind fun _ _ _ => Triple.pure trivial

private theorem updateCoins_noOverflow (env : Env) (tx : CTransaction) (nHeight : Int) (L : Ledger) :
    Triple NoOverflow L (updateCoins env tx nHeight : ViewM Ledger _) fun _ _ => True := by
  have hspend : Triple NoOverflow L (if tx.isCoinBase then pure [] else spendInputs tx.vin : ViewM Ledger _)
      fun _ _ => True := Triple.ite (fun _ => Triple.pure trivial) fun _ => spendInputs_noOverflow tx.vin L
  refine hspend.bind fun _ L' _ => ?_
  have hnf : Triple NoOverflow L' (setNullifiers true tx.nullifiers : ViewM Ledger _) fun _ _ => True := by
    rw [Triple, setNullifiers_run]
    exact ⟨fun _ _ _ => trivial, fun _ h => by simp at h⟩
  refine hnf.bind fun _ L'' _ => ?_
  exact (modifyCoins_noOverflow (fun _ => .ok trivial) _ L'').bind fun _ _ _ => Triple.pure trivial

omit [MerkleHash Uint256] in
theorem total_of_updated (htx : tx.WellFormed) {v : CAmount} (pool : CAmount)
    (h : v ≤ L.value - tx.inputsValue L + tx.voutValue) :
    v + (pool + (tx.vpubOld - tx.vpubNew)) + tx.feeInBlock L ≤
      L.value + pool + if tx.isCoinBase then tx.voutValue else 0 := by
  by_cases hcb : tx.isCoinBase = true
  · have hin : tx.inputsValue L = 0 := by simp [CTransaction.inputsValue, CTransaction.spends, hcb]
    have hjs : tx.vpubOld - tx.vpubNew = 0 := by simp [CTransaction.vpubOld, CTransaction.vpubNew, htx.coinBase hcb]
    rw [CTransaction.feeInBlock, if_pos hcb, if_pos hcb, hjs]
    rw [hin] at h
    linarith
  · rw [CTransaction.feeInBlock, if_neg hcb, if_neg hcb, CTransaction.fee]
    linarith

theorem connectTx_value {T : CAmount}
    (h : WithinBlock T pool acc L) (hT : T ≤ 2 * MAX_MONEY) (hpool : 0 ≤ pool) (htx : tx.WellFormed) :
    Triple NoOverflow L (connectTx env index fExpensiveChecks fFirst tx acc) fun acc' L' =>
      WithinBlock (T + if tx.isCoinBase then tx.voutValue else 0) (pool + (tx.vpubOld - tx.vpubNew)) acc' L' := by
  have hvalue := h.nonneg.value
  have htotal := h.total
  have hfees := h.fees
  refine reject_bind_run fun _ => ?_
  refine (checkTxOnView_value h.nonneg (by linarith) htx ?_ ?_).bind fun acc1 L1 h1 => ?_
  · exact hfees
  · change acc.nFees ≤ _
    linarith
  obtain ⟨rfl, hacc, hfee⟩ := h1
  have hup : Triple NoOverflow L1 (updateCoins env tx index.nHeight : ViewM Ledger _) fun _ L' =>
      L'.Nonneg ∧ L'.value ≤ L1.value - tx.inputsValue L1 + tx.voutValue :=
    ⟨fun _ _ hrun => updateCoins_value h.nonneg htx hrun, (updateCoins_noOverflow env tx index.nHeight L1).2⟩
  refine hup.bind fun txundo L' hL' => Triple.lift_bind (appendCommitments_checks _ _) fun tree _ => Triple.pure ?_
  refine ⟨hL'.1, ?_, ?_⟩
  · change 0 ≤ acc1.nFees
    rw [hacc]
    exact add_nonneg hfees hfee
  · change L'.value + _ + acc1.nFees ≤ _
    have hstep := total_of_updated htx pool hL'.2
    rw [hacc]
    linarith

omit [MerkleHash Uint256] in
theorem poolValue_cons (tx : CTransaction) (vtx : List CTransaction) :
    poolValue (tx :: vtx) = (tx.vpubOld - tx.vpubNew) + poolValue vtx := by
  simp [poolValue]

/-- The pool is not overdrawn by the first transactions of a list, as far as they can be connected. -/
def PoolCovered (env : Env) (index : BlockIndex) (fExpensiveChecks fFirst : Bool) (pool : CAmount)
    (vtx : List CTransaction) (acc : BlockAcc) (L : Ledger) : Prop :=
  ∀ n acc' L', (connectTxs env index fExpensiveChecks fFirst (vtx.take n) acc).run L = .ok (acc', L') →
    0 ≤ pool + poolValue (vtx.take n)

private theorem PoolCovered.start
    (h : PoolCovered env index fExpensiveChecks fFirst pool vtx acc L) : 0 ≤ pool := by
  simpa [poolValue] using h 0 acc L rfl

private theorem PoolCovered.tail
    {acc1 : BlockAcc} {L1 : Ledger}
    (h : PoolCovered env index fExpensiveChecks fFirst pool (tx :: vtx) acc L)
    (h1 : (connectTx env index fExpensiveChecks fFirst tx acc).run L = .ok (acc1, L1)) :
    PoolCovered env index fExpensiveChecks false (pool + (tx.vpubOld - tx.vpubNew)) vtx acc1 L1 := by
  intro n acc' L' hrun
  have hn := h (n + 1) acc' L' (run_bind_ok.2 ⟨acc1, L1, h1, hrun⟩)
  rwa [take_succ_cons, poolValue_cons, ← add_assoc] at hn

theorem connectTxs_value {T : CAmount}
    (h : WithinBlock T pool acc L) (hT : T ≤ 2 * MAX_MONEY)
    (hpool : PoolCovered env index fExpensiveChecks fFirst pool vtx acc L) (hwf : ∀ tx ∈ vtx, tx.WellFormed)
    (hord : ∀ tx ∈ vtx, tx.isCoinBase = false) :
    Triple NoOverflow L (connectTxs env index fExpensiveChecks fFirst vtx acc) fun acc' L' =>
      WithinBlock T (pool + poolValue vtx) acc' L' := by
  induction vtx generalizing fFirst pool acc L with
  | nil => exact Triple.pure (by simpa [poolValue] using h)
  | cons tx vtx ih =>
    obtain ⟨hwf1, hwf2⟩ := forall_mem_cons.1 hwf
    obtain ⟨hord1, hord2⟩ := forall_mem_cons.1 hord
    refine (connectTx_value h hT hpool.start hwf1).bind_run fun acc1 L1 hrun h1 => ?_
    rw [hord1, if_neg Bool.false_ne_true, add_zero] at h1
    rw [poolValue_cons, ← add_assoc]
    exact ih h1 (hpool.tail hrun) hwf2 hord2

omit [MerkleHash Uint256] in
theorem getBlockSubsidy_range (env : Env) (nHeight : Int) :
    0 ≤ getBlockSubsidy env nHeight ∧ getBlockSubsidy env nHeight ≤ 50 * COIN := by
  unfold getBlockSubsidy
  dsimp only
  split
  · decide
  · exact ⟨Int.ediv_nonneg (by decide) (by positivity), Int.ediv_le_self _ (by decide)⟩

theorem connectTxs_block_value {block : CBlock} {S : CAmount}
    {tree : ZCIncrementalMerkleTree} (hL : L.Nonneg) (hS : L.value + pool ≤ S) (hmax : S ≤ MAX_MONEY)
    (hpool : PoolCovered env index fExpensiveChecks true pool block.vtx { tree } L) (hwf : block.WellFormed) :
    Triple NoOverflow L (connectTxs env index fExpensiveChecks true block.vtx { tree }) fun acc L' =>
      ∃ coinbase, block.vtx.head? = some coinbase ∧ coinbase.isCoinBase = true ∧ coinbase.WellFormed ∧
        WithinBlock (S + coinbase.voutValue) (pool + poolValue block.vtx) acc L' := by
  have hm : (0 : ℤ) ≤ MAX_MONEY := by decide
  obtain ⟨coinbase, hhead, hcb⟩ := hwf.head
  have htail := hwf.tail
  have hall := hwf.vtx
  cases hvtx : block.vtx with
  | nil =>
    rw [hvtx] at hhead
    cases hhead
  | cons tx vtx =>
    rw [hvtx] at hhead htail hall hpool
    cases hhead
    obtain ⟨hwf1, hwf2⟩ := forall_mem_cons.1 hall
    have hvout : coinbase.voutValue ≤ MAX_MONEY := by
      have hle := hwf1.valueOut
      have hold : coinbase.vpubOld = 0 := by simp [CTransaction.vpubOld, hwf1.coinBase hcb]
      linarith
    have hstart : WithinBlock S pool { tree } L := ⟨hL, le_refl _, by simpa using hS⟩
    refine (connectTx_value hstart (by linarith) hpool.start hwf1).bind_run fun acc1 L1 hrun h1 => ?_
    rw [if_pos hcb] at h1
    refine (connectTxs_value h1 (by linarith) (hpool.tail hrun) hwf2 htail).mono fun acc L' h => ?_
    refine ⟨coinbase, rfl, hcb, hwf1, ?_⟩
    rwa [poolValue_cons, ← add_assoc]

private theorem getCoins_pushAnchor (L : Ledger) (tree : ZCIncrementalMerkleTree) :
    (L.pushAnchor tree).getCoins = L.getCoins := by
  unfold ViewAnswers.pushAnchor
  split <;> rfl

omit [MerkleHash Uint256] in
private theorem nonneg_value_congr {L' : Ledger} (h : L'.getCoins = L.getCoins) (hL : L.Nonneg) :
    L'.Nonneg ∧ L'.value = L.value := by
  unfold Ledger.Nonneg Ledger.value at *
  rw [h]
  exact ⟨hL, rfl⟩

omit [MerkleHash Uint256] in
private theorem write_triple {E : Fault → Prop} (g : Ledger → Ledger) :
    Triple E L (fun L => .ok ((), g L) : ViewM Ledger Unit) fun _ L' => L' = g L := by
  refine ⟨?_, ?_⟩
  · rintro _ _ ⟨⟩
    rfl
  · rintro _ ⟨⟩

/-- Connecting a block, the supply before it being at most `S`: no amount overflows, and the supply grows by at most
the subsidy. -/
theorem connectBlock_value {block : CBlock} {fJustCheck : Bool} {S : CAmount}
    (hL : L.Nonneg) (hS : L.value + pool ≤ S) (hmax : S ≤ MAX_MONEY)
    (hpool : ∀ tree, PoolCovered env index fExpensiveChecks true pool block.vtx { tree } L)
    (hgen : env.blockHash block.header ≠ env.hashGenesisBlock) :
    Triple NoOverflow L (connectBlock env block index fExpensiveChecks fJustCheck) fun _ L' =>
      L'.Nonneg ∧ L'.value + (pool + poolValue block.vtx) ≤ S + getBlockSubsidy env index.nHeight := by
  have hm : (0 : ℤ) ≤ MAX_MONEY := by decide
  refine Triple.lift_bind (checkBlock_checks env block _ _ _) fun _ hwf => ?_
  refine (getBestBlock_readOnly L).bind fun _ L' h => ?_
  subst h
  refine reject_bind_run fun _ => Triple.ite (fun h => absurd h hgen) fun _ => ?_
  refine (checkBIP30_readOnly env block.vtx L').bind fun _ L'' h => ?_
  subst h
  refine (getBestAnchor_readOnly L'').bind fun root L' h => ?_
  subst h
  refine (getAnchorAt_readOnly _ L').bind fun found L'' h => ?_
  subst h
  cases found with
  | none => exact Triple.throw nofun
  | some tree =>
    refine reject_bind_run fun _ => ?_
    refine (connectTxs_block_value hL hS hmax (hpool tree) hwf).bind_run fun acc L1 hrun h => ?_
    obtain ⟨coinbase, hhead, hcb, hwf1, hin⟩ := h
    have hold : coinbase.vpubOld = 0 := by simp [CTransaction.vpubOld, hwf1.coinBase hcb]
    have hsub := getBlockSubsidy_range env index.nHeight
    have hcoin : (50 * COIN : ℤ) ≤ MAX_MONEY := by decide
    have hvalue := hin.nonneg.value
    have hfees := hin.fees
    have htotal := hin.total
    have hpoolAll : 0 ≤ pool + poolValue block.vtx := by
      simpa using hpool tree block.vtx.length acc L1 (by rwa [take_length])
    have hvout := hwf1.valueOut
    refine (write_triple fun L => L.pushAnchor acc.tree).bind fun _ L2 h2 => ?_
    obtain ⟨hnn, hv⟩ := nonneg_value_congr (h2 ▸ getCoins_pushAnchor L1 acc.tree : L2.getCoins = L1.getCoins) hin.nonneg
    refine checked_bind_run (int64Range_of_le (by linarith) (by linarith)) ?_
    have hcoinbase : Checks NoOverflow (coinBaseValueOut block) fun v => v = coinbase.voutValue := by
      unfold coinBaseValueOut
      cases hvtx : block.vtx with
      | nil =>
        rw [hvtx] at hhead
        cases hhead
      | cons tx vtx =>
        rw [hvtx] at hhead
        cases hhead
        exact (getValueOut_checks hwf1).mono fun v hv => by rw [hv.1, hold, add_zero]
    refine Triple.lift_bind hcoinbase fun v hv' => reject_bind_run fun hle => reject_bind_run fun _ => ?_
    have hle' : coinbase.voutValue ≤ acc.nFees + getBlockSubsidy env index.nHeight := by
      rw [← hv']
      simpa using hle
    have hfinal : L2.value + (pool + poolValue block.vtx) ≤ S + getBlockSubsidy env index.nHeight := by linarith
    refine Triple.ite (fun _ => Triple.pure ⟨hnn, hfinal⟩) fun _ => ?_
    refine (write_triple fun L => { L with getBestBlock := some index.hash }).bind fun _ L3 h3 => ?_
    obtain ⟨hnn3, hv3⟩ := nonneg_value_congr (h3 ▸ rfl : L3.getCoins = L2.getCoins) hnn
    exact Triple.pure ⟨hnn3, by rw [hv3]; exact hfinal⟩

end LitecoinZ
