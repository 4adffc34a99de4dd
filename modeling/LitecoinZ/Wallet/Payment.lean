import LitecoinZ.Wallet.ChosenCoins
import LitecoinZ.Wallet.CreateTransaction
import LitecoinZ.Wallet.ReceivedNotes

/-!
# Created transactions balance and pay

The loop of `CreateTransaction` ends, since each round that is not the last one raises the fee, and there are only so many
fees for sizes below the limit.  A transaction that it creates spends different outputs of the wallet; inputs and outputs
differ by the fee; the recipients get their amounts, less the fee for those that pay it (`createTransaction_pays`).  No sum
overflows if those of the wallet, the amounts and the fees fit.
-/

namespace LitecoinZ

open Selection StateExcept List 

variable {P : Prop} {w : CWallet} {env : SpendEnv}

theorem checks_reject {condition : Bool} {fault : Fault} (h : fault ≠ .overflow) :
    Checks (OverflowUnless P) (reject condition fault) fun _ => condition = false := by
  cases condition with
  | true => exact .error fun heq => absurd heq h
  | false => exact .ok rfl

/-! ### What is paid -/

def amountsValue (vecSend : List CRecipient) : CAmount := (vecSend.map CRecipient.nAmount).sum

def txoutsValue (vout : List CTxOut) : CAmount := (vout.map CTxOut.nValue).sum

def payers (vecSend : List CRecipient) : Nat := vecSend.countP CRecipient.fSubtractFeeFromAmount

/-- What the recipients that pay the fee give up. -/
def givenUp : List CRecipient → List CTxOut → CAmount
  | recipient :: vecSend, txout :: vout =>
    (if recipient.fSubtractFeeFromAmount then recipient.nAmount - txout.nValue else 0) + givenUp vecSend vout
  | _, _ => 0

/-- The output of a recipient. -/
structure PaysTo (env : SpendEnv) (recipient : CRecipient) (txout : CTxOut) : Prop where
  script : txout.scriptPubKey = recipient.scriptPubKey
  exact_amount : recipient.fSubtractFeeFromAmount = false → txout.nValue = recipient.nAmount
  le_amount : txout.nValue ≤ recipient.nAmount
  noDust : txout.isDust env.minRelayTxFee = false

/-- The change is among the outputs at the position that is reported. -/
def Placed (outs : List CTxOut) (change : Option CTxOut) (vout : List CTxOut) (nChangePosRet : Int) : Prop :=
  match change with
  | none => nChangePosRet = -1 ∧ vout = outs
  | some out => ∃ n ≤ outs.length, nChangePosRet = n ∧ vout = outs.insertIdx n out

/-- By how much change of a value has to be raised so that it is not dust. -/
def raisedBy (env : SpendEnv) (nChange : CAmount) : Option CTxOut → CAmount
  | none => 0
  | some out => max 0 (out.getDustThreshold env.minRelayTxFee - nChange)

/-- A transaction that spends some coins, pays the recipients and gives change. -/
structure Pays (env : SpendEnv) (w : CWallet) (vecSend : List CRecipient) (sign : Bool) (created : Created)
    (coins : List WalletCoin) (outs : List CTxOut) (change : Option CTxOut) : Prop where
  spends : Coins w coins
  inputs : created.wtxNew.vin.map CTxIn.prevout = coins.map WalletCoin.prevout
  outputs : Placed outs change created.wtxNew.vout created.nChangePosRet
  recipients : List.Forall₂ (PaysTo env) vecSend outs
  balance : walletValue coins - txoutsValue created.wtxNew.vout = created.nFeeRet
  fee_nonneg : 0 ≤ created.nFeeRet
  givenUp : 0 < payers vecSend →
    givenUp vecSend outs = created.nFeeRet + raisedBy env (walletValue coins - amountsValue vecSend) change
  change_value : 0 < payers vecSend → ∀ out, change = some out → out.nValue =
    walletValue coins - amountsValue vecSend + raisedBy env (walletValue coins - amountsValue vecSend) change
  noDust : ∀ out ∈ created.wtxNew.vout, out.isDust env.minRelayTxFee = false
  nBytes : created.nBytes = created.txNew.getSerializeSize % 2 ^ 32
  signed : created.wtxNew =
    if sign then created.txNew
    else { created.txNew with vin := created.txNew.vin.map fun txin => { txin with scriptSig := [] } }
  enough : created.free = false → env.getMinimumFee created.nBytes ≤ created.nFeeRet

theorem txoutsValue_cons (txout : CTxOut) (vout : List CTxOut) :
    txoutsValue (txout :: vout) = txout.nValue + txoutsValue vout := sum_cons

theorem amountsValue_cons (recipient : CRecipient) (vecSend : List CRecipient) :
    amountsValue (recipient :: vecSend) = recipient.nAmount + amountsValue vecSend := sum_cons

variable {vecSend : List CRecipient} {outs vout : List CTxOut} {recipient : CRecipient} {n : Nat} {nFeeRet : CAmount}
  {sign : Bool}

theorem givenUp_eq (h : Forall₂ (PaysTo env) vecSend outs) :
    givenUp vecSend outs = amountsValue vecSend - txoutsValue outs := by
  induction h with
  | nil => rfl
  | @cons recipient txout vecSend outs hpays _ ih =>
    rw [givenUp, ih, amountsValue_cons, txoutsValue_cons]
    split
    · ring
    · rename_i hflag
      rw [hpays.exact_amount (by simpa using hflag)]
      ring

theorem PaysTo.nonneg {txout : CTxOut} (h : PaysTo env recipient txout) : 0 ≤ txout.nValue := by
  have hdust : ¬ txout.nValue < txout.getDustThreshold env.minRelayTxFee := of_decide_eq_false h.noDust
  exact (txout.getDustThreshold_range env.minRelayTxFee).1.trans (not_lt.1 hdust)

theorem noDust_of_recipients (h : Forall₂ (PaysTo env) vecSend outs) :
    ∀ out ∈ outs, out.isDust env.minRelayTxFee = false := by
  induction h with
  | nil => exact fun _ h => absurd h not_mem_nil
  | cons hpays _ ih => exact forall_mem_cons.2 ⟨hpays.noDust, ih⟩

theorem Placed.perm {out : CTxOut} {nChangePosRet : Int} (h : Placed outs (some out) vout nChangePosRet) :
    vout.Perm (out :: outs) := by
  obtain ⟨n, hn, -, rfl⟩ := h
  exact perm_insertIdx _ _ hn

theorem payers_cons : payers (recipient :: vecSend) =
    payers vecSend + if recipient.fSubtractFeeFromAmount then 1 else 0 :=
  countP_cons

theorem share_range {fee : ℤ} (hfee : 0 ≤ fee) (hn : n ≠ 0) :
    0 ≤ fee.tdiv n ∧ 0 ≤ fee.tmod n ∧ fee.tdiv n + fee.tmod n ≤ fee ∧ n * fee.tdiv n + fee.tmod n = fee := by
  have hpos : (0 : ℤ) < n := by exact_mod_cast Nat.pos_of_ne_zero hn
  have hdiv : 0 ≤ fee.tdiv n := Int.tdiv_nonneg hfee hpos.le
  have hmod : 0 ≤ fee.tmod n := Int.tmod_nonneg _ hfee
  have hsum : n * fee.tdiv n + fee.tmod n = fee := Int.mul_tdiv_add_tmod fee n
  refine ⟨hdiv, hmod, ?_, hsum⟩
  have hle : fee.tdiv n ≤ n * fee.tdiv n := le_mul_of_one_le_left hdiv (by omega)
  linarith

theorem checks_payeeValue (hfee : 0 ≤ nFeeRet) (hfee' : P → nFeeRet < 2 ^ 63) (n : Nat)
    (hamount : P → 0 ≤ recipient.nAmount ∧ recipient.nAmount < 2 ^ 63) (fFirst : Bool) :
    Checks (OverflowUnless P) (payeeValue nFeeRet n recipient fFirst) fun nValue =>
      nValue ≤ recipient.nAmount ∧ recipient.nAmount - nValue =
        if recipient.fSubtractFeeFromAmount then nFeeRet.tdiv n + if fFirst then nFeeRet.tmod n else 0 else 0 := by
  rw [payeeValue]
  by_cases hflag : recipient.fSubtractFeeFromAmount = true
  · rw [if_pos hflag, if_pos hflag]
    by_cases hn : n = 0
    · rw [if_pos hn]
      exact .error (by rintro ⟨⟩)
    · rw [if_neg hn]
      obtain ⟨hdiv, hmod, hle, -⟩ := share_range hfee hn
      have hrange : ∀ share : ℤ, 0 ≤ share → share ≤ nFeeRet → P → Int64Range (recipient.nAmount - share) := by
        intro share h1 h2 hP
        have h3 := hamount hP
        have h4 := hfee' hP
        exact ⟨by linarith [h3.1], by linarith [h3.2]⟩
      refine (checks_checked (hrange _ hdiv (by linarith))).bind fun nValue hvalue => ?_
      subst hvalue
      cases fFirst with
      | false => exact .ok ⟨by linarith, by simp⟩
      | true =>
        simp only [if_true]
        refine (checks_checked fun hP => ?_).mono fun nValue hvalue => ?_
        · have := hrange (nFeeRet.tdiv n + nFeeRet.tmod n) (by linarith) hle hP
          rwa [← sub_sub] at this
        · rw [hvalue]
          exact ⟨by linarith, by ring⟩
  · rw [if_neg hflag, if_neg hflag]
    exact .ok ⟨le_refl _, sub_self _⟩

theorem checks_payees (hfee : 0 ≤ nFeeRet) (hfee' : P → nFeeRet < 2 ^ 63) (n : Nat)
    (hams : P → ∀ recipient ∈ vecSend, 0 ≤ recipient.nAmount ∧ recipient.nAmount < 2 ^ 63) (fFirst : Bool) :
    Checks (OverflowUnless P) (payees env nFeeRet n vecSend fFirst) fun vout =>
      Forall₂ (PaysTo env) vecSend vout ∧ amountsValue vecSend - txoutsValue vout =
        payers vecSend * nFeeRet.tdiv n + if fFirst = true ∧ 0 < payers vecSend then nFeeRet.tmod n else 0 := by
  induction vecSend generalizing fFirst with
  | nil => exact .ok ⟨.nil, by simp [amountsValue, txoutsValue, payers]⟩
  | cons recipient vecSend ih =>
    rw [payees]
    have hamount : P → 0 ≤ recipient.nAmount ∧ recipient.nAmount < 2 ^ 63 := fun hP => hams hP _ mem_cons_self
    refine (checks_payeeValue hfee hfee' n hamount fFirst).bind fun nValue hvalue => ?_
    obtain ⟨hle, hvalue⟩ := hvalue
    refine (checks_reject (by rintro ⟨⟩)).bind fun _ hdust => ?_
    refine (ih (fun hP r hr => hams hP r (mem_cons_of_mem _ hr)) _).bind fun vout hvout => .ok ?_
    obtain ⟨hpays, hsum⟩ := hvout
    refine ⟨.cons ⟨rfl, fun hflag => ?_, hle, hdust⟩ hpays, ?_⟩
    · rw [if_neg (by simp [hflag])] at hvalue
      exact (sub_eq_zero.1 hvalue).symm
    · rw [amountsValue_cons, txoutsValue_cons, add_sub_add_comm, hsum, hvalue, payers_cons]
      cases recipient.fSubtractFeeFromAmount with
      | false => simp
      | true => cases fFirst <;> push_cast <;> simp <;> ring

theorem shares_total (hfee : 0 ≤ nFeeRet) (n : Nat) :
    (n * nFeeRet.tdiv n + if true = true ∧ 0 < n then nFeeRet.tmod n else 0 : ℤ) = if n = 0 then 0 else nFeeRet := by
  by_cases hn : n = 0
  · subst hn
    simp
  · rw [if_pos ⟨rfl, Nat.pos_of_ne_zero hn⟩, if_neg hn]
    exact (share_range hfee hn).2.2.2

theorem checks_subtractDust {nDust : CAmount} (hdust : 0 ≤ nDust) (hdust' : P → nDust < 2 ^ 63)
     (h : Forall₂ (PaysTo env) vecSend vout) (hams : P → ∀ recipient ∈ vecSend, recipient.nAmount < 2 ^ 63) :
    Checks (OverflowUnless P) (subtractDust env nDust vecSend vout) fun vout' =>
      Forall₂ (PaysTo env) vecSend vout' ∧ (0 < payers vecSend → txoutsValue vout' = txoutsValue vout - nDust) := by
  induction h with
  | nil => exact .ok ⟨.nil, fun h => absurd h (lt_irrefl 0)⟩
  | @cons recipient txout vecSend vout hpays hrest ih =>
    rw [subtractDust]
    split
    · rename_i hflag
      refine (checks_checked fun hP => ?_).bind fun nValue hvalue => ?_
      · have h1 := hpays.nonneg
        have h2 := hpays.le_amount
        have h3 := hams hP _ mem_cons_self
        have h4 := hdust' hP
        exact ⟨by linarith, by linarith⟩
      · subst hvalue
        refine (checks_reject (by rintro ⟨⟩)).bind fun _ hnoDust => .ok ⟨.cons ⟨hpays.script, ?_, ?_, hnoDust⟩ hrest, ?_⟩
        · intro hflag'
          rw [hflag] at hflag'
          cases hflag'
        · exact (sub_le_self _ hdust).trans hpays.le_amount
        · intro _
          rw [txoutsValue_cons, txoutsValue_cons]
          ring
    · rename_i hflag
      refine (ih fun hP r hr => hams hP r (mem_cons_of_mem _ hr)).bind fun vout' h => .ok ⟨.cons hpays h.1, ?_⟩
      intro hpos
      rw [payers_cons, if_neg hflag] at hpos
      rw [txoutsValue_cons, txoutsValue_cons, h.2 hpos]
      ring

theorem checks_raiseChange (hn : 0 < n → 0 < payers vecSend) {newTxOut : CTxOut} (hchg : 0 < newTxOut.nValue)
    (h : Forall₂ (PaysTo env) vecSend vout) (hams : P → ∀ recipient ∈ vecSend, recipient.nAmount < 2 ^ 63) :
    Checks (OverflowUnless P) (raiseChange env vecSend n newTxOut vout) fun r =>
      Forall₂ (PaysTo env) vecSend r.2 ∧ r.1.scriptPubKey = newTxOut.scriptPubKey ∧
        txoutsValue r.2 + r.1.nValue = txoutsValue vout + newTxOut.nValue ∧
        r.1.nValue = newTxOut.nValue + if 0 < n then raisedBy env newTxOut.nValue (some r.1) else 0 := by
  obtain ⟨hthreshold, hthreshold'⟩ := newTxOut.getDustThreshold_range env.minRelayTxFee
  rw [raiseChange]
  split
  · rename_i hdust
    rw [Bool.and_eq_true, decide_eq_true_eq] at hdust
    have hlt : newTxOut.nValue < newTxOut.getDustThreshold env.minRelayTxFee := of_decide_eq_true hdust.2
    refine (checks_subtractDust (by linarith) (fun _ => by linarith) h hams).bind fun vout' hvout' => .ok ?_
    obtain ⟨hpays, hsum⟩ := hvout'
    refine ⟨hpays, rfl, ?_, ?_⟩
    · rw [hsum (hn hdust.1)]
      dsimp only
      ring
    · have hsame : CTxOut.getDustThreshold
          ⟨newTxOut.nValue + (newTxOut.getDustThreshold env.minRelayTxFee - newTxOut.nValue), newTxOut.scriptPubKey⟩
          env.minRelayTxFee = newTxOut.getDustThreshold env.minRelayTxFee := CTxOut.getDustThreshold_congr rfl _
      dsimp only
      rw [if_pos hdust.1, raisedBy, hsame, max_eq_right (by linarith)]
  · rename_i hnot
    refine .ok ⟨h, rfl, rfl, ?_⟩
    by_cases hpos : 0 < n
    · have hdust : newTxOut.isDust env.minRelayTxFee = false := by simpa [hpos] using hnot
      have hge : newTxOut.getDustThreshold env.minRelayTxFee ≤ newTxOut.nValue := not_lt.1 (of_decide_eq_false hdust)
      rw [if_pos hpos, raisedBy, max_eq_left (by linarith), add_zero]
    · rw [if_neg hpos, add_zero]

/-- What adding the change does to the outputs and to the fee. -/
structure Settled (env : SpendEnv) (vecSend : List CRecipient) (n : Nat) (nFeeRet nChange : CAmount) (vout : List CTxOut)
    (outs : List CTxOut) (change : Option CTxOut) (outputs : Outputs) : Prop where
  recipients : List.Forall₂ (PaysTo env) vecSend outs
  placed : Placed outs change outputs.vout outputs.nChangePosRet
  noDust : ∀ out, change = some out → out.isDust env.minRelayTxFee = false
  balance : txoutsValue outputs.vout + outputs.nFeeRet = txoutsValue vout + nFeeRet + nChange
  le_fee : nFeeRet ≤ outputs.nFeeRet
  kept : 0 < n → outputs.nFeeRet = nFeeRet ∧ txoutsValue outs = txoutsValue vout - raisedBy env nChange change ∧
    ∀ out, change = some out → out.nValue = nChange + raisedBy env nChange change

theorem checks_addChange (coinControl : Option CCoinControl) (round : Nat) (hn : 0 < n → 0 < payers vecSend)
    {nChange : CAmount} (hchg : 0 ≤ nChange) (hfee : P → n = 0 → Int64Range (nFeeRet + nChange))
    (h : Forall₂ (PaysTo env) vecSend vout) (hams : P → ∀ recipient ∈ vecSend, recipient.nAmount < 2 ^ 63) :
    Checks (OverflowUnless P) (addChange env coinControl round vecSend n nFeeRet nChange vout) fun outputs =>
      ∃ outs change, Settled env vecSend n nFeeRet nChange vout outs change outputs := by
  rw [addChange]
  split
  · rename_i hpos
    have hscr : Checks (OverflowUnless P) (scriptChange env coinControl round) fun _ => True := by
      rw [scriptChange]
      split
      · exact .ok trivial
      · split
        · exact .ok trivial
        · exact .error (by rintro ⟨⟩)
    refine hscr.bind fun script _ => ?_
    have hpos' : 0 < (⟨nChange, script⟩ : CTxOut).nValue := hpos
    refine (checks_raiseChange hn hpos' h hams).bind fun r hr => ?_
    obtain ⟨newTxOut, vout'⟩ := r
    obtain ⟨hpays, hsame, hsum, hvalue⟩ := hr
    dsimp only at hpays hsame hsum hvalue ⊢
    rw [placeChange]
    split
    · rename_i hdust
      -- Change that has been raised is no dust.
      have hzero : n = 0 := by
        by_contra hne
        have hlt : newTxOut.nValue < newTxOut.getDustThreshold env.minRelayTxFee := of_decide_eq_true hdust
        rw [if_pos (Nat.pos_of_ne_zero hne), raisedBy] at hvalue
        have := le_max_right 0 (newTxOut.getDustThreshold env.minRelayTxFee - nChange)
        linarith
      subst hzero
      refine (checks_checked fun hP => hfee hP rfl).bind fun nFee hnFee => .ok ⟨vout', none, hpays, ⟨rfl, rfl⟩, ?_, ?_, ?_, ?_⟩
      · rintro _ ⟨⟩
      · rw [if_neg (lt_irrefl 0), add_zero] at hvalue
        dsimp only
        linarith
      · dsimp only
        linarith
      · exact fun h => absurd h (lt_irrefl 0)
    · rename_i hdust
      have hpl : Placed vout' (some newTxOut) (vout'.insertIdx (env.randChangePos round vout'.length).val newTxOut)
          ((env.randChangePos round vout'.length).val : Int) :=
        ⟨_, Nat.lt_succ_iff.1 (env.randChangePos round vout'.length).isLt, rfl, rfl⟩
      refine .ok ⟨vout', some newTxOut, hpays, hpl, ?_, ?_, le_refl _, fun hpos => ⟨rfl, ?_, ?_⟩⟩
      · rintro _ ⟨⟩
        simpa using hdust
      · have hperm : txoutsValue (vout'.insertIdx (env.randChangePos round vout'.length).val newTxOut) =
            newTxOut.nValue + txoutsValue vout' := by
          rw [txoutsValue, (hpl.perm.map _).sum_eq]
          exact sum_cons
        dsimp only
        rw [hperm]
        linarith
      · rw [if_pos hpos] at hvalue
        linarith
      · rintro _ ⟨⟩
        rw [if_pos hpos] at hvalue
        exact hvalue
  · rename_i hnot
    have hzero : nChange = 0 := le_antisymm (not_lt.1 hnot) hchg
    refine .ok ⟨vout, none, h, ⟨rfl, rfl⟩, ?_, ?_, le_refl _, fun _ => ⟨rfl, ?_, ?_⟩⟩
    · rintro _ ⟨⟩
    · rw [hzero]
      dsimp only
      ring
    · simp [raisedBy]
    · rintro _ ⟨⟩

/-! ### A round -/

theorem checks_signInputs (sign : Bool) (txNewConst : CTransaction) (coins : List WalletCoin) (nIn : Nat) :
    Checks (OverflowUnless P) (signInputs env sign txNewConst coins nIn) fun vin =>
      vin.map CTxIn.prevout = coins.map WalletCoin.prevout := by
  induction coins generalizing nIn with
  | nil => exact .ok rfl
  | cons coin coins ih =>
    have hsign : Checks (OverflowUnless P) (signInput env sign txNewConst coin nIn) fun txin =>
        txin.prevout = coin.prevout := by
      rw [signInput]
      split
      · exact .ok rfl
      · exact .error (by rintro ⟨⟩)
    refine hsign.bind fun txin htxin => (ih (nIn + 1)).bind fun vin hvin => .ok ?_
    rw [map_cons, map_cons, htxin, hvin]

/-- A fee that a round can ask for. -/
def NeededFee (env : SpendEnv) (nFeeRet : CAmount) : Prop :=
  0 ≤ nFeeRet ∧ (nFeeRet = 0 ∨ ∃ nBytes < MAX_TX_SIZE, nFeeRet = env.getMinimumFee nBytes)

/-- What is true of a transaction that is created from the outputs. -/
structure Finished (env : SpendEnv) (sign : Bool) (tx : CTransaction) (outputs : Outputs) (created : Created) : Prop where
  txNew : created.txNew = tx
  wtxNew : created.wtxNew = if sign then tx else { tx with vin := tx.vin.map fun txin => { txin with scriptSig := [] } }
  nFeeRet : created.nFeeRet = outputs.nFeeRet
  nChangePosRet : created.nChangePosRet = outputs.nChangePosRet
  nBytes : created.nBytes = tx.getSerializeSize % 2 ^ 32
  enough : created.free = false → env.getMinimumFee created.nBytes ≤ created.nFeeRet

theorem checks_checkFee (sign : Bool) (coins : List WalletCoin) (txNew : CTransaction) (outputs : Outputs) :
    Checks (OverflowUnless P) (checkFee env sign coins txNew outputs) fun r =>
      (∀ created, r = .inl created → Finished env sign txNew outputs created) ∧
        ∀ nFeeNeeded, r = .inr nFeeNeeded → NeededFee env nFeeNeeded ∧ outputs.nFeeRet < nFeeNeeded := by
  refine (checks_reject (by rintro ⟨⟩)).bind fun _ hsize => ?_
  split
  · refine .ok ⟨?_, ?_⟩
    · rintro _ ⟨⟩
      exact ⟨rfl, rfl, rfl, rfl, rfl, by rintro ⟨⟩⟩
    · rintro _ ⟨⟩
  · refine (checks_reject (by rintro ⟨⟩)).bind fun _ hrelay => ?_
    have hneed : 0 ≤ env.getMinimumFee (txNew.getSerializeSize % 2 ^ 32) :=
      (env.minRelayTxFee.getFee_range _).1.trans (not_lt.1 (of_decide_eq_false hrelay))
    split
    · rename_i hge
      refine .ok ⟨?_, ?_⟩
      · rintro _ ⟨⟩
        exact ⟨rfl, rfl, rfl, rfl, rfl, fun _ => hge⟩
      · rintro _ ⟨⟩
    · rename_i hlt
      refine .ok ⟨?_, ?_⟩
      · rintro _ ⟨⟩
      · rintro _ ⟨⟩
        exact ⟨⟨hneed, .inr ⟨_, not_le.1 (of_decide_eq_false hsize), rfl⟩⟩, not_le.1 hlt⟩

/-- All sums fit: those of the wallet, and that of the amounts with any fee that may be needed. -/
structure PaymentFits (env : SpendEnv) (w : CWallet) (vecSend : List CRecipient) : Prop where
  wallet : w.Fits
  amounts : ∀ recipient ∈ vecSend, 0 ≤ recipient.nAmount
  total : amountsValue vecSend + CENT < 2 ^ 63
  fees : ∀ nBytes < MAX_TX_SIZE, amountsValue vecSend + env.getMinimumFee nBytes + CENT < 2 ^ 63

theorem amountsValue_nonneg (h : ∀ recipient ∈ vecSend, 0 ≤ recipient.nAmount) :
    0 ≤ amountsValue vecSend := by
  refine sum_nonneg fun n hn => ?_
  obtain ⟨recipient, hr, rfl⟩ := mem_map.1 hn
  exact h recipient hr

theorem PaymentFits.fee (h : PaymentFits env w vecSend) (hfee : NeededFee env nFeeRet) :
    amountsValue vecSend + nFeeRet + CENT < 2 ^ 63 := by
  rcases hfee.2 with rfl | ⟨nBytes, hlt, rfl⟩
  · rw [add_zero]
    exact h.total
  · exact h.fees nBytes hlt

theorem PaymentFits.amount (h : PaymentFits env w vecSend) :
    ∀ recipient ∈ vecSend, 0 ≤ recipient.nAmount ∧ recipient.nAmount < 2 ^ 63 := by
  intro recipient hr
  have hle : recipient.nAmount ≤ amountsValue vecSend := single_le_sum (fun n hn => by
    obtain ⟨r, hr, rfl⟩ := mem_map.1 hn
    exact h.amounts r hr) _ (mem_map_of_mem hr)
  have hcent : (0 : ℤ) ≤ CENT := by decide
  have := h.total
  exact ⟨h.amounts recipient hr, by linarith⟩

/-- A payment as it is prepared for the loop. -/
structure Prepared (vecSend : List CRecipient) (sign : Bool) (payment : Payment) : Prop where
  recipients : payment.vecSend = vecSend
  signs : payment.sign = sign
  total : payment.nValue = amountsValue vecSend
  nonneg : 0 ≤ payment.nValue
  subtract : payment.nSubtractFeeFromAmount = payers vecSend

theorem checks_totalValue (hfee : NeededFee env nFeeRet) :
    Checks (OverflowUnless (PaymentFits env w vecSend)) (totalValue (payers vecSend) (amountsValue vecSend) nFeeRet)
      fun nTotalValue => nTotalValue = amountsValue vecSend + if payers vecSend = 0 then nFeeRet else 0 := by
  have hcent : (0 : ℤ) ≤ CENT := by decide
  rw [totalValue]
  split
  · refine checks_checked fun hP => int64Range_of ⟨add_nonneg (amountsValue_nonneg hP.amounts) hfee.1, ?_⟩
    have := hP.fee hfee
    linarith
  · exact .ok (add_zero _).symm

theorem PaymentFits.target (h : PaymentFits env w vecSend) (hfee : NeededFee env nFeeRet) :
    TargetFits (amountsValue vecSend + if payers vecSend = 0 then nFeeRet else 0) := by
  have h1 := h.fee hfee
  have h2 := h.total
  have h3 := amountsValue_nonneg h.amounts
  have h4 := hfee.1
  split
  · exact ⟨by linarith, by linarith⟩
  · exact ⟨by linarith, by linarith⟩

theorem checks_change {nValueIn nValue : CAmount} (hvalue : 0 ≤ nValue) (hfee : 0 ≤ nFeeRet)
    (hin : P → nValueIn < 2 ^ 63) (hge : (nValue + if n = 0 then nFeeRet else 0) ≤ nValueIn) :
    Checks (OverflowUnless P) (change n nValueIn nValue nFeeRet) fun nChange =>
      nChange = nValueIn - (nValue + if n = 0 then nFeeRet else 0) := by
  by_cases hn : n = 0
  · rw [if_pos hn] at hge ⊢
    refine (checks_checked fun hP => int64Range_of ?_).bind fun nChange hnc => ?_
    · have := hin hP
      exact ⟨by linarith, by linarith⟩
    · rw [if_pos hn, hnc]
      refine (checks_checked fun hP => int64Range_of ?_).mono fun m hm => ?_
      · have := hin hP
        exact ⟨by linarith, by linarith⟩
      · rw [hm]
        ring
  · rw [if_neg hn, add_zero] at hge ⊢
    refine (checks_checked fun hP => int64Range_of ?_).bind fun nChange hnc => ?_
    · have := hin hP
      exact ⟨by linarith, by linarith⟩
    · rw [if_neg hn]
      exact .ok hnc

theorem Settled.pays {nChange : CAmount} {change : Option CTxOut} {outputs : Outputs}
    (h : Settled env vecSend (payers vecSend) nFeeRet nChange vout outs change outputs) {tx : CTransaction}
    {created : Created} (hfin : Finished env sign tx outputs created) {coins : List WalletCoin}
    (hcoins : Coins w coins) (hvin : tx.vin.map CTxIn.prevout = coins.map WalletCoin.prevout)
    (hvout : tx.vout = outputs.vout) (hfee : 0 ≤ nFeeRet)
    (hgiven : amountsValue vecSend - txoutsValue vout = if payers vecSend = 0 then 0 else nFeeRet)
    (hchg : nChange = walletValue coins - (amountsValue vecSend + if payers vecSend = 0 then nFeeRet else 0)) :
    Pays env w vecSend sign created coins outs change := by
  have hwtx : created.wtxNew.vin.map CTxIn.prevout = coins.map WalletCoin.prevout ∧ created.wtxNew.vout = outputs.vout := by
    rw [hfin.wtxNew]
    split
    · exact ⟨hvin, hvout⟩
    · rw [map_map]
      exact ⟨hvin, hvout⟩
  -- With recipients that pay the fee what is left is the change before it is raised.
  have hleft : 0 < payers vecSend → nChange = walletValue coins - amountsValue vecSend := by
    intro hpos
    rw [hchg, if_neg (by omega), add_zero]
  refine ⟨hcoins, hwtx.1, ?_, h.recipients, ?_, ?_, ?_, ?_, ?_, ?_, ?_, hfin.enough⟩
  · rw [hwtx.2, hfin.nChangePosRet]
    exact h.placed
  · rw [hwtx.2, hfin.nFeeRet]
    have hbalance := h.balance
    split at hgiven <;> rename_i hn
    · rw [if_pos hn] at hchg
      linarith
    · rw [if_neg hn] at hchg
      linarith
  · rw [hfin.nFeeRet]
    exact hfee.trans h.le_fee
  · intro hpos
    obtain ⟨hkept, hvalue, -⟩ := h.kept hpos
    rw [if_neg (by omega)] at hgiven
    rw [givenUp_eq h.recipients, hfin.nFeeRet, hkept, hvalue, ← hleft hpos]
    linarith
  · intro hpos
    rw [← hleft hpos]
    exact (h.kept hpos).2.2
  · rw [hwtx.2]
    intro out hout
    cases change with
    | none =>
      rw [h.placed.2] at hout
      exact noDust_of_recipients h.recipients out hout
    | some newTxOut =>
      rcases mem_cons.1 ((Placed.perm h.placed).mem_iff.1 hout) with rfl | hout
      · exact h.noDust _ rfl
      · exact noDust_of_recipients h.recipients out hout
  · rw [hfin.nBytes, hfin.txNew]
  · rw [hfin.wtxNew, hfin.txNew]

theorem checks_createRound {payment : Payment} (h : Prepared vecSend sign payment) (round : Nat)
    (hfee : NeededFee env nFeeRet) :
    Checks (OverflowUnless (PaymentFits env w vecSend)) (createRound env w payment round nFeeRet) fun r =>
      (∀ created, r = .inl created → ∃ coins outs change, Pays env w vecSend sign created coins outs change) ∧
        ∀ nFeeNeeded, r = .inr nFeeNeeded → NeededFee env nFeeNeeded ∧ nFeeRet < nFeeNeeded := by
  obtain ⟨vecSend', coinControl, sign', nValue, n, nLockTime⟩ := payment
  obtain ⟨hrecipients, hsigns, hvalue, hnn, hsubtract⟩ := h
  dsimp only at hrecipients hsigns hvalue hnn hsubtract
  subst hrecipients hsigns hvalue hsubtract
  have hfee' : PaymentFits env w vecSend' → nFeeRet < 2 ^ 63 := by
    intro hP
    have h1 := (hP.fee hfee)
    have h2 := amountsValue_nonneg hP.amounts
    have hcent : (0 : ℤ) ≤ CENT := by decide
    linarith
  refine (checks_totalValue hfee).bind fun nTotalValue hnt => ?_
  refine (checks_payees hfee.1 hfee' (payers vecSend') (fun hP => hP.amount) true).bind fun vout hvout => ?_
  obtain ⟨hpays, hgiven⟩ := hvout
  rw [shares_total hfee.1] at hgiven
  refine (checks_selectCoins (fun hP => hP.wallet) (fun hP => hnt ▸ hP.target hfee) env.toCoinEnv
    (env.coinRandom round) coinControl).bind fun selected hselected => ?_
  have hcho : Checks (OverflowUnless (PaymentFits env w vecSend')) (chosenCoins env selected)
      (Chosen.Enough w w.coins nTotalValue) := by
    rw [chosenCoins]
    split
    · rename_i chosen heq
      exact .ok (hselected chosen heq)
    · exact .error (by rintro ⟨⟩)
  refine hcho.bind fun chosen hcho => ?_
  obtain ⟨hsound, hge⟩ := hcho
  have hin : PaymentFits env w vecSend' → chosen.nValue < 2 ^ 63 := by
    intro hP
    rw [hsound.value]
    exact (hsound.coins.range hP.wallet).2
  refine (checks_change hnn hfee.1 hin (hnt ▸ hge)).bind fun nChange hnc => ?_
  have hfeeChange : PaymentFits env w vecSend' → payers vecSend' = 0 → Int64Range (nFeeRet + nChange) := by
    intro hP hn
    rw [if_pos hn] at hnt hnc
    have h1 := hin hP
    have h2 := hfee.1
    exact int64Range_of ⟨by linarith, by linarith⟩
  refine (checks_addChange coinControl round (n := payers vecSend') id (by linarith) hfeeChange hpays
    fun hP r hr => (hP.amount r hr).2).bind fun outputs houtputs => ?_
  obtain ⟨outs, change, hsettled⟩ := houtputs
  refine (checks_reject (by rintro ⟨⟩)).bind fun _ _ => ?_
  refine (checks_signInputs sign' _ _ 0).bind fun vin hvin => ?_
  refine (checks_checkFee sign' _ _ outputs).mono fun r hr => ⟨fun created hcreated => ?_, fun nFeeNeeded hneed => ?_⟩
  · have hperm := env.setOrder_perm round chosen.setCoins
    refine ⟨_, outs, change, hsettled.pays (hr.1 created hcreated) (hsound.coins.perm hperm) hvin rfl hfee.1 hgiven ?_⟩
    rw [walletValue_perm hperm, ← hsound.value]
    exact hnc
  · obtain ⟨hneed, hlt⟩ := hr.2 nFeeNeeded hneed
    exact ⟨hneed, hsettled.le_fee.trans_lt hlt⟩

theorem checks_sumRecipients {nValue : CAmount} (hnn : P → 0 ≤ nValue)
    (hams : P → ∀ recipient ∈ vecSend, 0 ≤ recipient.nAmount) (htotal : P → nValue + amountsValue vecSend < 2 ^ 63)
    (hn : n + vecSend.length < 2 ^ 32) :
    Checks (OverflowUnless P) (sumRecipients vecSend nValue n) fun r =>
      r.1 = nValue + amountsValue vecSend ∧ r.2 = n + payers vecSend := by
  induction vecSend generalizing nValue n with
  | nil => exact .ok ⟨(add_zero _).symm, rfl⟩
  | cons recipient vecSend ih =>
    rw [length_cons] at hn
    rw [sumRecipients]
    split
    · exact .error (by rintro ⟨⟩)
    · have hrest : P → 0 ≤ nValue + recipient.nAmount ∧ 0 ≤ amountsValue vecSend := by
        intro hP
        have h1 := hnn hP
        have h2 := hams hP _ mem_cons_self
        exact ⟨by linarith, amountsValue_nonneg fun r hr => hams hP r (mem_cons_of_mem _ hr)⟩
      refine (checks_checked fun hP => int64Range_of ⟨(hrest hP).1, ?_⟩).bind fun nValue' hvalue => ?_
      · have h1 := htotal hP
        have h2 := (hrest hP).2
        rw [amountsValue_cons] at h1
        linarith
      · subst hvalue
        have hcount : (if recipient.fSubtractFeeFromAmount then (n + 1) % 2 ^ 32 else n) + payers vecSend =
            n + payers (recipient :: vecSend) := by
          rw [payers_cons]
          split
          · rw [Nat.mod_eq_of_lt (by omega)]
            omega
          · rfl
        refine (ih (fun hP => (hrest hP).1) (fun hP r hr => hams hP r (mem_cons_of_mem _ hr)) (fun hP => ?_) ?_).mono
          fun r hr => ?_
        · have := htotal hP
          rwa [amountsValue_cons, ← add_assoc] at this
        · split
          · rw [Nat.mod_eq_of_lt (by omega)]
            omega
          · omega
        · rw [hr.1, hr.2, hcount, amountsValue_cons, add_assoc]
          exact ⟨rfl, rfl⟩

theorem checks_preparePayment (hcount : vecSend.length < 2 ^ 32) (coinControl : Option CCoinControl) (sign : Bool) :
    Checks (OverflowUnless (PaymentFits env w vecSend)) (preparePayment env vecSend coinControl sign)
      (Prepared vecSend sign) := by
  have htotal : PaymentFits env w vecSend → 0 + amountsValue vecSend < 2 ^ 63 := by
    intro hP
    have h1 := hP.total
    have hcent : (0 : ℤ) ≤ CENT := by decide
    linarith
  refine (checks_sumRecipients (fun _ => le_refl 0) (fun hP => hP.amounts) htotal (by omega)).bind fun r hr => ?_
  obtain ⟨nValue, n⟩ := r
  obtain ⟨hvalue, hn⟩ := hr
  refine (checks_reject (by rintro ⟨⟩)).bind fun _ hpos => ?_
  have hlock : Checks (OverflowUnless (PaymentFits env w vecSend)) (pickLockTime env) fun _ => True :=
    (checks_reject (by rintro ⟨⟩)).bind fun _ _ => (checks_reject (by rintro ⟨⟩)).bind fun _ _ => .ok trivial
  refine hlock.bind fun nLockTime _ => .ok ⟨rfl, rfl, ?_, ?_, ?_⟩
  · exact hvalue.trans (zero_add _)
  · simp only [Bool.or_eq_false_iff, decide_eq_false_iff_not] at hpos
    exact not_lt.1 hpos.2
  · exact hn.trans (Nat.zero_add _)

theorem createTransaction_of_le {coinControl : Option CCoinControl} {fuel fuel' : Nat} {result : Except Fault Created}
    (h : createTransaction env w vecSend coinControl sign fuel = some result) (hle : fuel ≤ fuel') :
    createTransaction env w vecSend coinControl sign fuel' = some result := by
  rw [createTransaction] at h ⊢
  split at h
  · exact h
  · exact loop_of_le h hle

theorem exists_feeBound (env : SpendEnv) : ∃ bound : ℤ, ∀ nFeeRet, NeededFee env nFeeRet → nFeeRet ≤ bound := by
  obtain ⟨bound, hbound⟩ := (insert 0 ((Finset.range MAX_TX_SIZE).image env.getMinimumFee)).exists_le
  refine ⟨bound, fun nFeeRet hfee => hbound nFeeRet (Finset.mem_insert.2 ?_)⟩
  rcases hfee.2 with h | ⟨nBytes, hlt, rfl⟩
  · exact .inl h
  · exact .inr (Finset.mem_image_of_mem _ (Finset.mem_range.2 hlt))

/-- The loop ends; a transaction that is created balances and pays; no sum overflows if all sums fit. -/
theorem createTransaction_pays (env : SpendEnv) (w : CWallet) (vecSend : List CRecipient)
    (coinControl : Option CCoinControl) (sign : Bool) (hcount : vecSend.length < 2 ^ 32) :
    ∃ fuel result, (∀ fuel' ≥ fuel, createTransaction env w vecSend coinControl sign fuel' = some result) ∧
      (∀ created, result = .ok created → ∃ coins outs change, Pays env w vecSend sign created coins outs change) ∧
      (PaymentFits env w vecSend → result ≠ .error .overflow) := by
  have hprepare : Checks (OverflowUnless (PaymentFits env w vecSend)) (preparePayment env vecSend coinControl sign)
    (Prepared vecSend sign) := checks_preparePayment hcount coinControl sign
  cases hpayment : preparePayment env vecSend coinControl sign with
  | error fault =>
    refine ⟨0, .error fault, fun fuel _ => ?_, ?_, fun hP heq => ?_⟩
    · rw [createTransaction, hpayment]
    · rintro _ ⟨⟩
    · cases heq
      exact hprepare.2 _ hpayment rfl hP
  | ok payment =>
    have hround round nFeeRet (hfee : NeededFee env nFeeRet) :=
      checks_createRound (w := w) (hprepare.1 payment hpayment) round hfee
    have hzero : NeededFee env 0 := ⟨le_refl 0, Or.inl rfl⟩
    obtain ⟨bound, hbound⟩ := exists_feeBound env
    obtain ⟨fuel, result, hres⟩ := exists_loop (fun nFeeRet => nFeeRet)
      (fun round nFeeRet nFeeNeeded hfee hnext => ((hround round nFeeRet hfee).1 _ hnext).2 nFeeNeeded rfl) hbound hzero 0
    have hloop : Checks (OverflowUnless (PaymentFits env w vecSend)) result fun created =>
        ∃ coins outs change, Pays env w vecSend sign created coins outs change := by
      refine Checks.loop (I := NeededFee env) (fun round nFeeRet hfee => (hround round nFeeRet hfee).mono fun r hr => ?_)
        hzero hres
      exact ⟨hr.1, fun nFeeNeeded hnext => (hr.2 nFeeNeeded hnext).1⟩
    refine ⟨fuel, result, fun fuel' => createTransaction_of_le ?_, hloop.1, fun hP heq => hloop.2 _ heq rfl hP⟩
    rw [createTransaction, hpayment]
    exact hres

/-! ### A wallet of one coin -/

/-- Nothing is random, a transaction has the fee 10, and all coins are spendable. -/
def plainSpendEnv : SpendEnv where
  toWalletEnv := CWallet.plainWalletEnv
  isTrusted _ := true
  inMempool _ := true
  isFromMe _ := true
  isMine _ := .spendable
  isSpent _ := false
  isLockedCoin _ := false
  fCoinbaseMustBeProtected := false
  bSpendZeroConfChange := false
  minRelayTxFee := ⟨0, by decide, by decide⟩
  getMinimumFee _ := 10
  height := 0
  randLockTime _ _ := 0
  coinRandom _ _ :=
    { shuffle := id
      shuffle_perm := fun _ => .refl _
      sort := List.insertionSort fun a b => b.nValue ≤ a.nValue
      sort_perm := perm_insertionSort _
      sort_sorted := fun l => by
        have : Std.Total fun a b : WalletCoin => b.nValue ≤ a.nValue := ⟨fun a b => le_total b.nValue a.nValue⟩
        have : IsTrans WalletCoin fun a b => b.nValue ≤ a.nValue := ⟨fun _ _ _ h1 h2 => le_trans h2 h1⟩
        exact pairwise_insertionSort _ l
      insecureRand := fun _ _ _ => false }
  setOrder _ coins := coins
  setOrder_perm _ _ := .refl _
  getReservedKey _ := some []
  randChangePos _ _ := 0
  mempoolTxInputLimit := 0
  produceSignature _ _ _ _ := some []
  fSendFreeTransactions := false
  enoughPriority _ _ _ := false

def oneCoin (nValue : CAmount) : CWallet where
  mapWallet := AList.singleton 7 ⟨⟨1, [], [⟨nValue, []⟩], [], 7, 0, nullSig⟩, ∅⟩

def oneOutput (nValue : CAmount) : COutput := ⟨⟨⟨1, [], [⟨nValue, []⟩], [], 7, 0, nullSig⟩, ⟨7, 0⟩, ⟨nValue, []⟩⟩, 6, true⟩

theorem selectCoinsMinConf_exact_oneCoin : ∃ r,
    selectCoinsMinConf plainSpendEnv.toCoinEnv (plainSpendEnv.coinRandom 0 0) 3 1 6 [oneOutput 5] = .ok r ∧ r.isSome = true := by
  obtain ⟨r, hr, hiff, -⟩ := selectCoinsMinConf_exact plainSpendEnv.toCoinEnv (plainSpendEnv.coinRandom 0 0) 3 1 6
    [oneOutput 5] (by decide) (by decide) (by decide) (by decide) (by decide)
  exact ⟨r, hr, hiff.2 (by decide)⟩

/-- A coin of the largest amount is not smaller than what the search for larger coins begins with. -/
theorem selectCoinsMinConf_misses : Int64Range (walletValue [(oneOutput (2 ^ 63 - 1)).coin]) ∧
    1 ≤ walletValue (eligible plainSpendEnv.toCoinEnv 1 6 [oneOutput (2 ^ 63 - 1)]) ∧
    selectCoinsMinConf plainSpendEnv.toCoinEnv (plainSpendEnv.coinRandom 0 0) 1 1 6 [oneOutput (2 ^ 63 - 1)] = .ok none :=
  ⟨by decide +kernel, by decide +kernel, rfl⟩

/-- The amount with a cent added to it overflows. -/
theorem createTransaction_overflows :
    CWallet.Fits (oneCoin 1) ∧ Int64Range (amountsValue [⟨[], 2 ^ 63 - 1, false⟩]) ∧
      createTransaction plainSpendEnv (oneCoin 1) [⟨[], 2 ^ 63 - 1, false⟩] none true 1 = some (.error .overflow) :=
  ⟨⟨by decide +kernel, by decide +kernel⟩, by decide +kernel, rfl⟩

/-- The second round pays the fee; it is taken from the second recipient. -/
theorem createTransaction_pays_oneCoin : ∃ created coins outs change,
    createTransaction plainSpendEnv (oneCoin 2000000) [⟨[], 100, false⟩, ⟨[], 100, true⟩] none true 2 = some (.ok created) ∧
      created.wtxNew.vout.map CTxOut.nValue = [1999800, 100, 90] ∧
      Pays plainSpendEnv (oneCoin 2000000) [⟨[], 100, false⟩, ⟨[], 100, true⟩] true created coins outs change := by
  obtain ⟨fuel, result, hres, hpays, -⟩ := createTransaction_pays plainSpendEnv (oneCoin 2000000)
    [⟨[], 100, false⟩, ⟨[], 100, true⟩] none true (by decide)
  obtain ⟨created, hrun, hvout⟩ : ∃ created,
      createTransaction plainSpendEnv (oneCoin 2000000) [⟨[], 100, false⟩, ⟨[], 100, true⟩] none true 2 = some (.ok created) ∧
        created.wtxNew.vout.map CTxOut.nValue = [1999800, 100, 90] := ⟨_, rfl, rfl⟩
  have hsame := (hres _ (le_max_left fuel 2)).symm.trans (createTransaction_of_le hrun (le_max_right fuel 2))
  obtain ⟨coins, outs, change, h⟩ := hpays created (Option.some.inj hsame)
  exact ⟨created, coins, outs, change, hrun, hvout, h⟩

end LitecoinZ
