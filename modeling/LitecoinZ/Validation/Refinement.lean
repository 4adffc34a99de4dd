import LitecoinZ.Validation.Ledger

/-!
# Validation on a stack of caches is validation on its ledger

`connectBlock` on a coherent stack fails or succeeds as it does on the ledger of the stack, with the same result, and
leaves a stack that simulates the ledger it leaves there (`connectBlock_sim`).  A clean disconnection on the ledger
is a clean one on the stack (`disconnectTxs_forward`); an unclean one may see the leftovers of spent coins, which a
ledger does not have.
-/

namespace LitecoinZ

open StateExcept ViewM

theorem eq_some_of_unspent {a : Option CCoins} {c : CCoins} (h : unspent a = some c) : a = some c :=
  (Option.filter_eq_some_iff.1 h).1

theorem not_pruned_of_available {c : CCoins} {n : Nat} (h : c.isAvailable n = true) : c.isPruned = false := by
  rw [CCoins.isAvailable, Option.any_eq_true] at h
  obtain ⟨o, ho, hnull⟩ := h
  rw [CCoins.isPruned, List.all_eq_false]
  exact ⟨o, List.mem_of_getElem? ho, by simpa using hnull⟩

theorem any_available_unspent (a : Option CCoins) (n : Nat) :
    (unspent a).any (·.isAvailable n) = a.any (·.isAvailable n) := by
  cases a with
  | none => rfl
  | some c =>
    by_cases hp : c.isPruned = true
    · have : c.isAvailable n = false := by
        by_contra h
        rw [not_pruned_of_available (by simpa using h)] at hp
        cases hp
      rw [unspent_some_of_pruned hp]
      simp [this]
    · rw [unspent_some_of_not_pruned (by simpa using hp)]

theorem any_not_pruned_unspent (a : Option CCoins) : (unspent a).any (!·.isPruned) = a.any (!·.isPruned) := by
  cases a with
  | none => rfl
  | some c =>
    by_cases hp : c.isPruned = true
    · simp [unspent_some_of_pruned hp, hp]
    · rw [unspent_some_of_not_pruned (by simpa using hp)]

variable [MerkleHash Uint256]

/-- The output that an input spends is available. -/
def Ledger.Available (L : Ledger) (txin : CTxIn) : Prop :=
  (L.getCoins txin.prevout.hash).any (·.isAvailable txin.prevout.n) = true

section

variable {P : Uint256 → ZCIncrementalMerkleTree → Prop} {L : Ledger}

/-! ### Reads -/

theorem getOutputFor_sim (txin : CTxIn) :
    Mirrors (At P L) (At P L) (getOutputFor txin) := by
  unfold getOutputFor
  refine (accessCoins_sim L txin.prevout.hash).bind fun a b => ?_
  rintro c M ⟨⟨rfl, -⟩, hat⟩
  -- coins that are fully spent fail the same assertion as no coins
  cases a with
  | none => exact Or.inl ⟨_, rfl, rfl⟩
  | some coins =>
    by_cases hp : coins.isPruned = true
    · have : coins.isAvailable txin.prevout.n = false := by
        by_contra h
        rw [not_pruned_of_available (by simpa using h)] at hp
        cases hp
      rw [unspent_some_of_pruned hp]
      simp only [this, reject]
      exact Or.inl ⟨_, rfl, rfl⟩
    · rw [unspent_some_of_not_pruned (by simpa using hp)]
      exact (Sim.lift_bind fun _ _ => Sim.pure_same _) c M hat

theorem sumOutputsFor_sim (nResult : CAmount) (vin : List CTxIn) :
    Mirrors (At P L) (At P L) (sumOutputsFor nResult vin) := by
  induction vin generalizing nResult with
  | nil => exact Sim.pure_same _
  | cons txin vin ih => exact (getOutputFor_sim txin).bind_same fun _ => Sim.lift_bind fun nResult _ => ih nResult

theorem getValueIn_sim (tx : CTransaction) :
    Mirrors (At P L) (At P L) (getValueIn tx) :=
  Sim.ite (fun _ => Sim.pure_same _) fun _ =>
    (sumOutputsFor_sim 0 tx.vin).bind_same fun _ => Sim.lift_bind fun _ _ => Sim.lift _

theorem haveAllInputs_sim (vin : List CTxIn) :
    Sim (At P L) (haveAllInputs vin : ViewM CCoinsViewCache _) (haveAllInputs vin : ViewM Ledger _)
      fun a c b M => (a = b ∧ (a = true → ∀ txin ∈ vin, L.Available txin)) ∧ At P L c M := by
  induction vin with
  | nil => exact Sim.pure fun _ _ hat => ⟨⟨rfl, fun _ _ h => absurd h List.not_mem_nil⟩, hat⟩
  | cons txin vin ih =>
    refine (accessCoins_sim L txin.prevout.hash).bind fun a b => ?_
    rintro c M ⟨⟨rfl, hL⟩, hat⟩
    rw [← any_available_unspent]
    refine (Sim.ite (fun hav => ih.mono (fun _ _ h => h) ?_) fun _ => ?_) c M hat
    · rintro a _ _ _ ⟨⟨rfl, hall⟩, hat⟩
      refine ⟨⟨rfl, fun ha => List.forall_mem_cons.2 ⟨?_, hall ha⟩⟩, hat⟩
      rwa [Ledger.Available, ← hL]
    · exact Sim.pure fun _ _ hat => ⟨⟨rfl, fun h => nomatch h⟩, hat⟩

theorem haveInputs_sim (tx : CTransaction) :
    Sim (At P L) (haveInputs tx : ViewM CCoinsViewCache _) (haveInputs tx : ViewM Ledger _)
      fun a c b M => (a = b ∧ (a = true → tx.isCoinBase = false → ∀ txin ∈ tx.vin, L.Available txin)) ∧ At P L c M := by
  refine Sim.ite (fun hcb => ?_) fun _ => ?_
  · exact Sim.pure fun _ _ hat => ⟨⟨rfl, fun _ h => absurd (hcb.symm.trans h) Bool.noConfusion⟩, hat⟩
  · exact (haveAllInputs_sim tx.vin).mono (fun _ _ h => h) fun _ _ _ _ h => ⟨⟨h.1.1, fun ha _ => h.1.2 ha⟩, h.2⟩

variable {tx : CTransaction} {c : CCoinsViewCache} {L' : Ledger} {env : Env} {index : BlockIndex}

theorem haveInputs_bind_sim {α : Type} (htx : tx.isCoinBase = false) {fault : Fault} {m : ViewM CCoinsViewCache α}
    {n : ViewM Ledger α} {Q : α → CCoinsViewCache → α → Ledger → Prop}
    (h : (∀ txin ∈ tx.vin, L.Available txin) → Sim (At P L) m n Q) :
    Sim (At P L) (do let ok ← haveInputs tx; reject (!ok) fault; m) (do let ok ← haveInputs tx; reject (!ok) fault; n)
      Q := by
  refine (haveInputs_sim tx).bind fun a b => ?_
  rintro c M ⟨⟨rfl, hav⟩, hat⟩
  refine (Sim.lift_bind fun _ hok => h (hav ?_ htx)) c M hat
  simpa [reject_ok] using hok

theorem anyNullifier_sim (nfs : List Uint256) :
    Mirrors (At P L) (At P L) (anyNullifier nfs) := by
  induction nfs with
  | nil => exact Sim.pure_same _
  | cons nf nfs ih => exact (getNullifier_sim L nf).bind_same fun _ => Sim.ite (fun _ => Sim.pure_same _) fun _ => ih

theorem findAnchor_sim (intermediates : KeyMap Uint256 ZCIncrementalMerkleTree) (anchor : Uint256) :
    Mirrors (At P L) (At P L) (findAnchor intermediates anchor) := by
  unfold findAnchor
  cases intermediates.lookup anchor with
  | some tree => exact Sim.pure_same _
  | none => exact getAnchorAt_sim L _

theorem haveJoinSplits_sim (intermediates : KeyMap Uint256 ZCIncrementalMerkleTree) (vjoinsplit : List JSDescription) :
    Mirrors (At P L) (At P L) (haveJoinSplits intermediates vjoinsplit) := by
  induction vjoinsplit generalizing intermediates with
  | nil => exact Sim.pure_same _
  | cons joinsplit vjoinsplit ih =>
    refine (anyNullifier_sim _).bind_same fun spent => Sim.ite (fun _ => Sim.pure_same _) fun _ => ?_
    refine (findAnchor_sim _ _).bind_same fun found => ?_
    cases found with
    | none => exact Sim.pure_same _
    | some tree => exact Sim.lift_bind fun tree _ => ih _

theorem haveJoinSplitRequirements_sim (tx : CTransaction) :
    Mirrors (At P L) (At P L) (haveJoinSplitRequirements tx) := haveJoinSplits_sim ∅ tx.vjoinsplit

theorem accessCoins_available_sim {txin : CTxIn} (hav : L.Available txin) :
    Mirrors (At P L) (At P L) (accessCoins txin.prevout.hash) := by
  refine (accessCoins_sim L txin.prevout.hash).mono (fun _ _ h => h) ?_
  rintro a c b M ⟨⟨rfl, hL⟩, hat⟩
  refine ⟨?_, hat⟩
  rw [Ledger.Available, Option.any_eq_true] at hav
  obtain ⟨coins, hcoins, -⟩ := hav
  rw [hL, hcoins]
  exact eq_some_of_unspent (hL.trans hcoins)

omit [MerkleHash Uint256] in
theorem spendForUndo_blind (n : Nat) : PruneBlind (spendForUndo n) := by
  have hfail : ∀ coins : CCoins, coins.isPruned = true → spendForUndo n coins = .error (.assertion "false") := by
    intro coins hp
    have : coins.isAvailable n = false := by
      by_contra h
      rw [not_pruned_of_available (by simpa using h)] at hp
      cases hp
    simp only [spendForUndo, this, reject]
    rfl
  intro coins hp
  rw [hfail coins hp, hfail .clear rfl]

theorem spendInputs_sim (vin : List CTxIn) :
    Mirrors (Simulates P) (Simulates P) (spendInputs vin) := by
  induction vin with
  | nil => exact Sim.pure_same _
  | cons txin vin ih =>
    refine (sim_of_at fun L => modifyCoins_sim fun _ => spendForUndo_blind _).bind_same fun _ => ?_
    exact ih.bind_same fun _ => Sim.pure_same _

theorem setNullifiers_sim (spent : Bool) (nfs : List Uint256) :
    Mirrors (Simulates P) (Simulates P) (setNullifiers spent nfs) := by
  induction nfs with
  | nil => exact Sim.pure_same _
  | cons nf nfs ih => exact (setNullifier_sim nf spent).bind_same fun _ => ih

section

variable (env)

theorem checkInputValues_sim (tx : CTransaction) (nSpendHeight : Int) (nValueIn : CAmount) {vin : List CTxIn}
    (hav : ∀ txin ∈ vin, L.Available txin) :
    Mirrors (At P L) (At P L) (checkInputValues env tx nSpendHeight nValueIn vin) := by
  induction vin generalizing nValueIn with
  | nil => exact Sim.pure_same _
  | cons txin vin ih =>
    obtain ⟨h1, h2⟩ := List.forall_mem_cons.1 hav
    refine (accessCoins_available_sim h1).bind_same fun coins => ?_
    cases coins with
    | none => exact Sim.throw _
    | some coins =>
      exact Sim.lift_bind fun _ _ => Sim.lift_bind fun _ _ => Sim.lift_bind fun nValueIn _ => Sim.lift_bind fun _ _ =>
        ih nValueIn h2

theorem checkTxInputs_sim (htx : tx.isCoinBase = false) (nSpendHeight : Int) :
    Mirrors (At P L) (At P L) (checkTxInputs env tx nSpendHeight) := by
  refine haveInputs_bind_sim htx fun hav => ?_
  refine (haveJoinSplitRequirements_sim tx).bind_same fun _ => Sim.lift_bind fun _ _ => ?_
  refine (checkInputValues_sim env tx nSpendHeight 0 hav).bind_same fun _ => ?_
  exact Sim.lift_bind fun _ _ => Sim.lift_bind fun _ _ => Sim.lift_bind fun _ _ => Sim.lift_bind fun _ _ =>
    Sim.lift_bind fun _ _ => Sim.lift_bind fun _ _ => Sim.lift_bind fun _ _ => Sim.lift _

theorem checkScripts_sim (tx : CTransaction) (i : Nat) {vin : List CTxIn} (hav : ∀ txin ∈ vin, L.Available txin) :
    Mirrors (At P L) (At P L) (checkScripts env tx i vin) := by
  induction vin generalizing i with
  | nil => exact Sim.pure_same _
  | cons txin vin ih =>
    obtain ⟨h1, h2⟩ := List.forall_mem_cons.1 hav
    refine (accessCoins_available_sim h1).bind_same fun coins => ?_
    cases coins with
    | none => exact Sim.throw _
    | some coins =>
      dsimp only
      cases env.verifyScript tx i (coins.vout.getD txin.prevout.n .null).scriptPubKey ⟨true, true⟩ with
      | none => exact ih (i + 1) h2
      | some err =>
        refine Sim.ite (fun _ => ?_) fun _ => ?_
        · exact (ih (i + 1) h2).bind_same fun _ => Sim.pure_same _
        · exact Sim.lift_bind fun _ _ => Sim.throw _

theorem contextualCheckInputs_sim (fScriptChecks : Bool) (hav : ∀ txin ∈ tx.vin, L.Available txin) :
    Mirrors (At P L) (At P L) (contextualCheckInputs env tx fScriptChecks) := by
  refine Sim.ite (fun _ => Sim.pure_same _) fun htx => ?_
  refine (getBestBlock_sim L).bind_same fun _ => (checkTxInputs_sim env (by simpa using htx) _).bind_same fun _ => ?_
  exact Sim.ite (fun _ => checkScripts_sim env tx 0 hav) fun _ => Sim.pure_same _

theorem sumP2SHSigOps_sim (vin : List CTxIn) :
    Mirrors (At P L) (At P L) (sumP2SHSigOps env vin) := by
  induction vin with
  | nil => exact Sim.pure_same _
  | cons txin vin ih => exact (getOutputFor_sim txin).bind_same fun _ => ih.bind_same fun _ => Sim.pure_same _

theorem getP2SHSigOpCount_sim (tx : CTransaction) : Mirrors (At P L) (At P L) (getP2SHSigOpCount env tx) :=
  Sim.ite (fun _ => Sim.pure_same _) fun _ => sumP2SHSigOps_sim env tx.vin

theorem checkBIP30_sim (vtx : List CTransaction) :
    Mirrors (At P L) (At P L) (checkBIP30 env vtx) := by
  induction vtx with
  | nil => exact Sim.pure_same _
  | cons tx vtx ih =>
    refine (accessCoins_sim L (env.getHash tx)).bind fun a b => ?_
    rintro c M ⟨⟨rfl, -⟩, hat⟩
    rw [any_not_pruned_unspent]
    exact (Sim.lift_bind fun _ _ => ih) c M hat

theorem checkTxOnView_sim (fExpensiveChecks : Bool) (tx : CTransaction) (acc : BlockAcc) :
    Mirrors (At P L) (At P L) (checkTxOnView env fExpensiveChecks tx acc) := by
  refine Sim.ite (fun _ => Sim.pure_same _) fun htx => haveInputs_bind_sim (by simpa using htx) fun hav => ?_
  refine (haveJoinSplitRequirements_sim tx).bind_same fun _ => Sim.lift_bind fun _ _ => ?_
  refine (getP2SHSigOpCount_sim env tx).bind_same fun _ => Sim.lift_bind fun _ _ => ?_
  refine (getValueIn_sim tx).bind_same fun _ => Sim.lift_bind fun _ _ => Sim.lift_bind fun _ _ => ?_
  exact Sim.lift_bind fun _ _ => (contextualCheckInputs_sim env _ hav).bind_same fun _ => Sim.pure_same _

/-! ### Writes -/

theorem updateCoins_sim (tx : CTransaction) (nHeight : Int) :
    Mirrors (Simulates P) (Simulates P) (updateCoins env tx nHeight) := by
  refine (Sim.ite (fun _ => Sim.pure_same _) fun _ => spendInputs_sim tx.vin).bind_same fun _ => ?_
  refine (setNullifiers_sim true _).bind_same fun _ => ?_
  exact (sim_of_at fun L => modifyCoins_sim fun _ _ _ => rfl).bind_same fun _ => Sim.pure_same _

theorem connectTx_sim (index : BlockIndex) (fExpensiveChecks fFirst : Bool) (tx : CTransaction) (acc : BlockAcc) :
    Mirrors (Simulates P) (Simulates P) (connectTx env index fExpensiveChecks fFirst tx acc) := by
  refine sim_of_at fun L => Sim.lift_bind fun _ _ => (checkTxOnView_sim env _ tx _).bind_same fun _ => ?_
  exact (sim_weaken (updateCoins_sim env tx _)).bind_same fun _ => Sim.lift_bind fun _ _ => Sim.pure_same _

theorem connectTxs_sim (index : BlockIndex) (fExpensiveChecks fFirst : Bool) (vtx : List CTransaction) (acc : BlockAcc) :
    Mirrors (Simulates P) (Simulates P) (connectTxs env index fExpensiveChecks fFirst vtx acc) := by
  induction vtx generalizing fFirst acc with
  | nil => exact Sim.pure_same _
  | cons tx vtx ih => exact (connectTx_sim env index _ _ tx acc).bind_same fun acc => ih false acc

/-- Connecting a block to a stack of caches is connecting it to the ledger, if the tree that is pushed stands for its
root. -/
theorem connectBlock_sim (block : CBlock) (index : BlockIndex) (fExpensiveChecks fJustCheck : Bool)
    (hpush : ∀ tree acc L', L.getAnchorAt (L.getBestAnchor.getD 0) = some tree →
      (connectTxs env index fExpensiveChecks true block.vtx { tree }).run L = .ok (acc, L') → P acc.tree.root acc.tree) :
    Mirrors (At P L) (Simulates P) (connectBlock env block index fExpensiveChecks fJustCheck) := by
  have hknown : ∀ {c : CCoinsViewCache} {M : Ledger}, At P L c M → M = L := fun h => h.1
  refine Sim.lift_bind fun _ _ => (getBestBlock_sim L).bind_same fun best => Sim.lift_bind fun _ _ => ?_
  refine Sim.ite (fun _ => ?_) fun _ => ?_
  · refine sim_weaken (Sim.ite (fun _ => Sim.pure_same _) fun _ => ?_)
    exact (setBestBlock_sim _).bind_same fun _ => Sim.pure_same _
  refine (checkBIP30_sim env block.vtx).bind_same fun _ => ?_
  refine (getBestAnchor_sim L).bind_run (fun _ _ => hknown) fun root M hroot => ?_
  cases hroot
  refine Sim.mono ?_ (fun _ _ h => h.2) fun _ _ _ _ h => h
  refine (getAnchorAt_sim L _).bind_run (fun _ _ => hknown) fun tree M htree => ?_
  obtain ⟨htree, -⟩ := Prod.mk.inj (Except.ok.inj htree)
  refine Sim.mono ?_ (fun _ _ h => h.2) fun _ _ _ _ h => h
  cases tree with
  | none => exact Sim.throw _
  | some tree =>
    refine Sim.lift_bind fun _ _ => ?_
    refine (sim_weaken (connectTxs_sim env index _ _ _ _)).bind_run (fun _ _ => hknown) fun acc L' hrun => ?_
    refine Sim.mono ?_ (fun _ _ h => h.2) fun _ _ _ _ h => h
    refine (pushAnchor_sim (hpush tree acc L' htree hrun)).bind_same fun _ => ?_
    refine Sim.lift_bind fun _ _ => Sim.lift_bind fun _ _ => Sim.lift_bind fun _ _ => Sim.lift_bind fun _ _ => ?_
    refine Sim.ite (fun _ => Sim.pure_same _) fun _ => ?_
    exact (setBestBlock_sim _).bind_same fun _ => Sim.pure_same _

end

/-! ### Disconnecting -/

omit [MerkleHash Uint256] in
theorem removeOutputs_of_isPruned (tx : CTransaction) (nHeight : Int) {outs : CCoins} (hp : outs.isPruned = true) :
    removeOutputs tx nHeight outs = ((CCoins.fromTx tx nHeight).isPruned, .clear) := by
  have hp' := CCoins.isPruned_clearUnspendable hp
  refine Prod.ext ?_ rfl
  simp only [removeOutputs]
  split
  · exact CCoins.equal_of_isPruned hp'
  · exact CCoins.equal_of_isPruned hp'

omit [MerkleHash Uint256] in
theorem removeOutputs_blind (tx : CTransaction) (nHeight : Int) :
    PruneBlind fun outs => .ok (removeOutputs tx nHeight outs) := by
  intro outs hp
  simp only [removeOutputs_of_isPruned tx nHeight hp, @removeOutputs_of_isPruned tx nHeight .clear rfl]

omit [MerkleHash Uint256] in
theorem applyUndo_blind {undo : CTxInUndo} (h : undo.nHeight ≠ 0) (n : Nat) :
    PruneBlind fun coins => .ok (applyUndo undo n coins) := by
  intro coins hp
  have hclear : CCoins.clear.isPruned = true := rfl
  simp only [applyUndo, if_pos h, hp, hclear]

/-- A clean run on the ledger is one on the stack. -/
abbrev Clean (P : Uint256 → ZCIncrementalMerkleTree → Prop) (m : ∀ {σ : Type} [CoinsViewOps σ], ViewM σ Bool) : Prop :=
  Forward (Simulates P) (m : ViewM CCoinsViewCache Bool) m

/-- Leftovers of spent coins are only seen when the undo information has no metadata, and then the ledger has no coins
to restore into. -/
theorem applyTxInUndo_forward (undo : CTxInUndo) (out : COutPoint) : Clean P (applyTxInUndo undo out) := by
  intro c L L' hs hrun
  refine Sim.forward (modifyCoins_sim fun hnone => applyUndo_blind (fun h0 => ?_) out.n) ⟨rfl, hs⟩ hrun
  have hclean : (applyUndo undo out.n ((L.getCoins out.hash).getD .clear)).1 = true :=
    (Prod.mk.inj (Except.ok.inj hrun)).1
  have hclear : CCoins.clear.isPruned = true := rfl
  simp [hnone, applyUndo, h0, hclear] at hclean

theorem restoreInputs_forward (spent : List (CTxIn × CTxInUndo)) : Clean P (restoreInputs spent) := by
  induction spent with
  | nil => exact fun _ _ _ => (Sim.pure_same true).forward
  | cons p spent ih => exact (applyTxInUndo_forward _ _).and ih

theorem disconnectTx_forward (txundo : Option CTxUndo) : Clean P (disconnectTx env index tx txundo) := by
  intro c L L' hs hrun
  obtain ⟨clean, L1, h1, h⟩ := run_bind_ok.1 hrun
  obtain ⟨_, L2, h2, h⟩ := run_bind_ok.1 h
  obtain ⟨c1, hc1, hs1⟩ := Sim.forward (modifyCoins_sim fun _ => removeOutputs_blind tx index.nHeight) ⟨rfl, hs⟩ h1
  obtain ⟨c2, hc2, hs2⟩ := (setNullifiers_sim false _).forward hs1 h2
  cases txundo with
  | none =>
    obtain ⟨rfl, rfl⟩ := run_pure_ok.1 h
    exact ⟨c2, run_bind_ok.2 ⟨_, _, hc1, run_bind_ok.2 ⟨_, _, hc2, rfl⟩⟩, hs2⟩
  | some txundo =>
    obtain ⟨_, L3, h3, hrest⟩ := run_bind_ok.1 h
    obtain ⟨hlen, rfl⟩ := run_lift_ok.1 h3
    obtain ⟨clean', L4, h4, hpure⟩ := run_bind_ok.1 hrest
    obtain ⟨hclean, rfl⟩ := run_pure_ok.1 hpure
    obtain ⟨rfl, rfl⟩ := (Bool.and_eq_true_iff.1 hclean.symm)
    obtain ⟨c4, hc4, hs4⟩ := restoreInputs_forward _ hs2 h4
    have hrest : (do reject (txundo.vprevout.length ≠ tx.vin.length)
                       (.error "DisconnectBlock(): transaction and undo data inconsistent")
                     let clean' ← restoreInputs (tx.vin.zip txundo.vprevout).reverse
                     pure (true && clean') : ViewM CCoinsViewCache Bool).run c2 = .ok (true, c4) :=
      run_bind_ok.2 ⟨_, _, run_lift_ok.2 ⟨hlen, rfl⟩, run_bind_ok.2 ⟨_, _, hc4, rfl⟩⟩
    exact ⟨c4, run_bind_ok.2 ⟨_, _, hc1, run_bind_ok.2 ⟨_, _, hc2, hrest⟩⟩, hs4⟩

theorem disconnectTxs_forward (vtx : List (CTransaction × Option CTxUndo)) :
    Clean P (disconnectTxs env index vtx) := by
  induction vtx with
  | nil => exact fun _ _ _ => (Sim.pure_same true).forward
  | cons p vtx ih => exact (disconnectTx_forward _).and ih

theorem disconnectBlock_forward {block : CBlock} {undo : CBlockUndo} (hroot : undo.old_tree_root ≠ none)
    (hprev : index.pprev ≠ none) : Clean P (disconnectBlock env block index (some undo)) := by
  intro c L L' hs hrun
  obtain ⟨rt, hrt⟩ := Option.ne_none_iff_exists'.1 hroot
  obtain ⟨h, hh⟩ := Option.ne_none_iff_exists'.1 hprev
  simp only [disconnectBlock, run_bind_ok, run_lift_ok, hrt, hh] at hrun
  obtain ⟨best, M1, h1, _, M2, ⟨h2, e2⟩, _, M3, ⟨h3, e3⟩, clean, M4, h4, _, M5, h5, _, M6, h6, h7⟩ := hrun
  obtain ⟨rfl, rfl⟩ := run_pure_ok.1 h7
  subst M3 M2
  obtain ⟨c1, hc1, hs1⟩ := (getBestBlock_sim L).forward ⟨rfl, hs⟩ h1
  obtain ⟨c4, hc4, hs4⟩ := disconnectTxs_forward _ (hs1.1 ▸ hs1.2) h4
  obtain ⟨c5, hc5, hs5⟩ := (popAnchor_sim rt).forward hs4 h5
  obtain ⟨c6, hc6, hs6⟩ := (setBestBlock_sim h).forward hs5 h6
  refine ⟨c6, ?_, hs6⟩
  simp only [disconnectBlock, run_bind_ok, run_lift_ok, hrt, hh]
  exact ⟨_, _, hc1, _, _, ⟨h2, rfl⟩, _, _, ⟨h3, rfl⟩, _, _, hc4, _, _, hc5, _, _, hc6, rfl⟩

end

end LitecoinZ
