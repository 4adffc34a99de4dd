import LitecoinZ.Validation.Amounts
import LitecoinZ.Validation.Refinement

/-!
# What connecting a block does to a ledger

For each function of `ConnectBlock` that succeeds on a ledger: what it found there and the ledger it leaves.  The
checks leave the ledger as it is; a transaction spends its inputs, sets its nullifiers and adds its outputs
(`updateCoins_ok`); a block applies its transactions one after the other (`connectTxs_ok`, `connectBlock_ok`).
-/

namespace LitecoinZ

open StateExcept ViewM List

variable [MerkleHash Uint256]

/-! ### Checks leave the ledger as it is -/

section ReadOnly

/-- `m` leaves the ledger as it is, and adds no amounts. -/
abbrev Looks {α : Type} (m : ViewM Ledger α) : Prop := ReadOnly NoOverflow m

omit [MerkleHash Uint256] in
private theorem read_readOnly {α : Type} (answer : Ledger → α) : Looks fun L => .ok (answer L, L) := by
  refine fun L => ⟨?_, ?_⟩
  · rintro _ _ ⟨⟩
    rfl
  · rintro _ ⟨⟩

theorem accessCoins_readOnly (k : Uint256) : Looks (accessCoins k) := read_readOnly _

theorem getAnchorAt_readOnly (rt : Uint256) : Looks (getAnchorAt rt) :=
  read_readOnly _

theorem getBestBlock_readOnly : Looks getBestBlock := read_readOnly _

theorem getBestAnchor_readOnly : Looks getBestAnchor := read_readOnly _

theorem getOutputFor_readOnly (txin : CTxIn) : Looks (getOutputFor txin) := by
  refine (accessCoins_readOnly _).bind fun coins => ?_
  cases coins with
  | none => exact .throw nofun
  | some coins => exact reject_bind_readOnly (.pure _)

theorem haveAllInputs_readOnly (vin : List CTxIn) : Looks (haveAllInputs vin) := by
  induction vin with
  | nil => exact .pure _
  | cons txin vin ih => exact (accessCoins_readOnly _).bind fun _ => .ite ih (.pure _)

theorem haveInputs_readOnly (tx : CTransaction) : Looks (haveInputs tx) :=
  ReadOnly.ite (.pure _) (haveAllInputs_readOnly tx.vin)

theorem anyNullifier_readOnly (nfs : List Uint256) : Looks (anyNullifier nfs) := by
  induction nfs with
  | nil => exact .pure _
  | cons nf nfs ih => exact (read_readOnly _).bind fun _ => .ite (.pure _) ih

private theorem findAnchor_readOnly (intermediates : KeyMap Uint256 ZCIncrementalMerkleTree) (anchor : Uint256) :
    Looks (findAnchor intermediates anchor) := by
  unfold findAnchor
  cases intermediates.lookup anchor with
  | some tree => exact .pure _
  | none => exact getAnchorAt_readOnly _

theorem appendCommitments_checks (tree : ZCIncrementalMerkleTree) (commitments : List Uint256) :
    Checks NoOverflow (appendCommitments tree commitments) fun _ => True := by
  unfold appendCommitments
  split
  · exact .ok trivial
  · exact .error nofun

theorem haveJoinSplits_readOnly (intermediates : KeyMap Uint256 ZCIncrementalMerkleTree)
    (vjoinsplit : List JSDescription) :
    Looks (haveJoinSplits intermediates vjoinsplit) := by
  induction vjoinsplit generalizing intermediates with
  | nil => exact .pure _
  | cons joinsplit vjoinsplit ih =>
    refine (anyNullifier_readOnly _).bind fun _ => .ite (.pure _) ((findAnchor_readOnly _ _).bind fun found => ?_)
    cases found with
    | none => exact .pure _
    | some tree => exact (ReadOnly.lift (appendCommitments_checks _ _)).bind fun _ => ih _

theorem checkBIP30_readOnly (env : Env) (vtx : List CTransaction) :
    Looks (checkBIP30 env vtx) := by
  induction vtx with
  | nil => exact .pure _
  | cons tx vtx ih => exact (accessCoins_readOnly _).bind fun _ => reject_bind_readOnly ih

theorem getValueIn_readOnly (tx : CTransaction) : ReadOnly (fun _ => True) (getValueIn tx : ViewM Ledger _) := by
  have hsum : ∀ (n : CAmount) (vin : List CTxIn), ReadOnly (fun _ => True) (sumOutputsFor n vin : ViewM Ledger _) := by
    intro n vin
    induction vin generalizing n with
    | nil => exact .pure _
    | cons txin vin ih => exact (getOutputFor_readOnly txin).weaken.bind fun _ => (ReadOnly.lift_any _).bind fun n => ih n
  exact ReadOnly.ite (.pure _) ((hsum 0 tx.vin).bind fun _ => (ReadOnly.lift_any _).bind fun _ => .lift_any _)

section

variable (env : Env) (tx : CTransaction)

theorem checkScripts_readOnly (i : Nat) (vin : List CTxIn) :
    Looks (checkScripts env tx i vin) := by
  induction vin generalizing i with
  | nil => exact .pure _
  | cons txin vin ih =>
    refine (accessCoins_readOnly _).bind fun coins => ?_
    cases coins with
    | none => exact .throw nofun
    | some coins =>
      dsimp only
      cases env.verifyScript tx i (coins.vout.getD txin.prevout.n .null).scriptPubKey ⟨true, true⟩ with
      | none => exact ih (i + 1)
      | some err =>
        refine .ite ((ih (i + 1)).bind fun _ => .pure _) (reject_bind_readOnly (.throw ?_))
        rintro ⟨⟩

theorem getP2SHSigOpCount_readOnly : Looks (getP2SHSigOpCount env tx) := by
  refine ReadOnly.ite (.pure _) ?_
  induction tx.vin with
  | nil => exact .pure _
  | cons txin vin ih => exact (getOutputFor_readOnly txin).bind fun _ => ih.bind fun _ => .pure _

/-! The checks that add amounts, as far as the ledger is concerned. -/

private theorem checkInputValues_readOnly (nSpendHeight : Int) (n : CAmount) (vin : List CTxIn) :
    ReadOnly (fun _ => True) (checkInputValues env tx nSpendHeight n vin : ViewM Ledger _) := by
  induction vin generalizing n with
  | nil => exact .pure _
  | cons txin vin ih =>
    refine (accessCoins_readOnly _).weaken.bind fun coins => ?_
    cases coins with
    | none => exact .throw trivial
    | some coins =>
      exact (ReadOnly.lift_any _).bind fun _ => (ReadOnly.lift_any _).bind fun _ => (ReadOnly.lift_any _).bind fun n =>
        (ReadOnly.lift_any _).bind fun _ => ih n

private theorem checkTxInputs_readOnly (nSpendHeight : Int) :
    ReadOnly (fun _ => True) (checkTxInputs env tx nSpendHeight : ViewM Ledger _) := by
  refine (haveInputs_readOnly tx).weaken.bind fun _ => (ReadOnly.lift_any _).bind fun _ => ?_
  refine (haveJoinSplits_readOnly ∅ tx.vjoinsplit).weaken.bind fun _ => (ReadOnly.lift_any _).bind fun _ => ?_
  refine (checkInputValues_readOnly env tx nSpendHeight 0 tx.vin).bind fun _ => (ReadOnly.lift_any _).bind fun _ => ?_
  exact (ReadOnly.lift_any _).bind fun _ => (ReadOnly.lift_any _).bind fun _ => (ReadOnly.lift_any _).bind fun _ =>
    (ReadOnly.lift_any _).bind fun _ => (ReadOnly.lift_any _).bind fun _ => (ReadOnly.lift_any _).bind fun _ => .lift_any _

theorem contextualCheckInputs_readOnly (fScriptChecks : Bool) :
    ReadOnly (fun _ => True) (contextualCheckInputs env tx fScriptChecks : ViewM Ledger _) :=
  ReadOnly.ite (.pure _) ((ReadOnly.weaken getBestBlock_readOnly).bind fun _ => (checkTxInputs_readOnly env tx _).bind fun _ =>
    .ite (checkScripts_readOnly env tx 0 tx.vin).weaken (.pure _))

end

end ReadOnly

variable {L L' : Ledger} {env : Env} {vtx : List CTransaction} {fExpensiveChecks : Bool} {tx : CTransaction}
  {acc acc' : BlockAcc} {index : BlockIndex} {tree : ZCIncrementalMerkleTree} {block : CBlock}
  {result : Option ConnectResult}

theorem haveAllInputs_true {vin : List CTxIn} (h : (haveAllInputs vin).run L = .ok (true, L')) :
    ∀ txin ∈ vin, L.Available txin := by
  induction vin with
  | nil => exact fun _ h => absurd h not_mem_nil
  | cons txin vin ih =>
    obtain ⟨coins, L1, h1, h2⟩ := run_bind_ok.1 h
    cases h1
    by_cases hav : (L.getCoins txin.prevout.hash).any (·.isAvailable txin.prevout.n) = true
    · rw [if_pos hav] at h2
      exact forall_mem_cons.2 ⟨hav, ih h2⟩
    · rw [if_neg hav] at h2
      cases h2

theorem anyNullifier_false {nfs : List Uint256} (h : (anyNullifier nfs).run L = .ok (false, L')) :
    ∀ nf ∈ nfs, L.getNullifier nf = false := by
  induction nfs with
  | nil => exact fun _ h => absurd h not_mem_nil
  | cons nf nfs ih =>
    obtain ⟨spent, L1, h1, h2⟩ := run_bind_ok.1 h
    cases h1
    by_cases hnf : L.getNullifier nf = true
    · rw [if_pos hnf] at h2
      cases h2
    · rw [if_neg hnf] at h2
      exact forall_mem_cons.2 ⟨by simpa using hnf, ih h2⟩

theorem haveJoinSplits_true {intermediates : KeyMap Uint256 ZCIncrementalMerkleTree} {vjoinsplit : List JSDescription}
    (h : (haveJoinSplits intermediates vjoinsplit).run L = .ok (true, L')) :
    ∀ joinsplit ∈ vjoinsplit, ∀ nf ∈ joinsplit.nullifiers.toList, L.getNullifier nf = false := by
  induction vjoinsplit generalizing intermediates with
  | nil => exact fun _ h => absurd h not_mem_nil
  | cons joinsplit vjoinsplit ih =>
    obtain ⟨spent, L1, h1, h2⟩ := run_bind_ok.1 h
    obtain rfl := (anyNullifier_readOnly _).state h1
    cases spent with
    | true => cases h2
    | false =>
      obtain ⟨found, L2, h3, h4⟩ := run_bind_ok.1 h2
      obtain rfl := (findAnchor_readOnly _ _).state h3
      cases found with
      | none => cases h4
      | some tree =>
        obtain ⟨tree', L3, h5, h6⟩ := run_bind_ok.1 h4
        obtain ⟨-, rfl⟩ := run_lift_ok.1 h5
        exact forall_mem_cons.2 ⟨anyNullifier_false h1, ih h6⟩

theorem checkBIP30_ok {u : Unit} (h : (checkBIP30 env vtx).run L = .ok (u, L')) :
    ∀ tx ∈ vtx, (L.getCoins (env.getHash tx)).any (!·.isPruned) = false := by
  induction vtx with
  | nil => exact fun _ h => absurd h not_mem_nil
  | cons tx vtx ih =>
    obtain ⟨coins, L1, h1, h2⟩ := run_bind_ok.1 h
    cases h1
    obtain ⟨_, L2, h3, h4⟩ := run_bind_ok.1 h2
    obtain ⟨hr, rfl⟩ := run_lift_ok.1 h3
    exact forall_mem_cons.2 ⟨reject_ok.1 hr, ih h4⟩

/-- A transaction may be applied: the outputs it spends are there and its nullifiers are new. -/
structure Ledger.Admits (L : Ledger) (tx : CTransaction) : Prop where
  inputs : tx.isCoinBase = false → ∀ txin ∈ tx.vin, L.Available txin
  nullifiers : tx.isCoinBase = false → ∀ nf ∈ tx.nullifiers, L.getNullifier nf = false

theorem checkTxOnView_ok (h : (checkTxOnView env fExpensiveChecks tx acc).run L = .ok (acc', L')) :
    L' = L ∧ L.Admits tx ∧ acc'.tree = acc.tree ∧ acc'.vtxundo = acc.vtxundo := by
  unfold checkTxOnView at h
  by_cases hcb : tx.isCoinBase = true
  · rw [if_pos hcb] at h
    obtain ⟨rfl, rfl⟩ := run_pure_ok.1 h
    exact ⟨rfl, ⟨fun h => absurd (hcb.symm.trans h) Bool.noConfusion,
      fun h => absurd (hcb.symm.trans h) Bool.noConfusion⟩, rfl, rfl⟩
  rw [if_neg hcb] at h
  simp only [run_bind_ok, run_lift_ok, run_pure_ok, reject_ok, Bool.not_eq_false'] at h
  obtain ⟨_, _, hin, _, _, ⟨rfl, rfl⟩, _, _, hjs, _, _, ⟨rfl, rfl⟩, _, _, hp2sh, _, _, ⟨-, rfl⟩, _, _, hval, _, _,
    ⟨-, rfl⟩, _, _, ⟨-, rfl⟩, _, _, ⟨-, rfl⟩, _, _, hctx, rfl, rfl⟩ := h
  have e1 := (haveInputs_readOnly _).state hin
  have e2 := (haveJoinSplits_readOnly _ _).state hjs
  have e3 := (getP2SHSigOpCount_readOnly _ _).state hp2sh
  have e4 := (getValueIn_readOnly _).state hval
  have e5 := (contextualCheckInputs_readOnly _ _ _).state hctx
  refine ⟨by rw [e5, e4, e3, e2, e1], ⟨fun _ => ?_, fun _ nf hnf => ?_⟩, rfl, rfl⟩
  · rw [haveInputs, if_neg hcb] at hin
    exact haveAllInputs_true hin
  · obtain ⟨joinsplit, hj, hn⟩ := mem_flatMap.1 hnf
    rw [← e1]
    exact haveJoinSplits_true hjs joinsplit hj nf hn

/-! ### Updates -/

def Ledger.output (L : Ledger) (out : COutPoint) : Option CTxOut := (L.getCoins out.hash).bind (·.output out.n)

omit [MerkleHash Uint256] in
theorem Ledger.available_iff {txin : CTxIn} : L.Available txin ↔ L.output txin.prevout ≠ none := by
  simp only [Available, output]
  cases L.getCoins txin.prevout.hash with
  | none => simp
  | some c => simp [CCoins.isAvailable_eq, Option.isSome_iff_ne_none]

omit [MerkleHash Uint256] in
theorem Ledger.output_setCoins (L : Ledger) (k : Uint256) (coins : CCoins) (out : COutPoint) :
    Ledger.output (L.setCoins k coins) out = if out.hash = k then coins.output out.n else L.output out := by
  simp only [output, ViewAnswers.setCoins, Function.update_apply]
  split
  · by_cases hp : coins.isPruned = true
    · rw [unspent_some_of_pruned (by simpa using hp), CCoins.isPruned_iff.1 hp]
      rfl
    · rw [unspent_some_of_not_pruned (by simpa using hp)]
      simp
  · rfl

def Ledger.markNullifiers (L : Ledger) (spent : Bool) (nfs : List Uint256) : Ledger :=
  { L with getNullifier := fun nf => if nf ∈ nfs then spent else L.getNullifier nf }

theorem setNullifiers_run (spent : Bool) (nfs : List Uint256) (L : Ledger) :
    (setNullifiers spent nfs).run L = .ok ((), L.markNullifiers spent nfs) := by
  induction nfs generalizing L with
  | nil => simp [setNullifiers, Ledger.markNullifiers]; rfl
  | cons nf nfs ih =>
    refine run_bind_ok.2 ⟨(), L.setNullifier nf spent, rfl, (ih _).trans ?_⟩
    congr 2
    simp only [Ledger.markNullifiers, ViewAnswers.setNullifier]
    congr 1
    funext n
    by_cases h : n = nf
    · subst h
      simp
    · simp [h]

omit [MerkleHash Uint256] in
theorem spendForUndo_ok {n : Nat} {c c' : CCoins} {undo : CTxInUndo} (h : spendForUndo n c = .ok (undo, c')) :
    c.isAvailable n = true ∧ c' = (c.spend n).2 ∧
      undo = if c'.vout.isEmpty then ⟨c.vout.getD n .null, c'.fCoinBase, c'.nHeight, c'.nVersion⟩
        else { txout := c.vout.getD n .null } := by
  simp only [spendForUndo, except_bind_ok, reject_ok, Bool.not_eq_false'] at h
  obtain ⟨_, hav, h⟩ := h
  split at h
  · cases h
    exact ⟨hav, rfl, by rw [if_pos ‹_›]⟩
  · cases h
    exact ⟨hav, rfl, by rw [if_neg ‹_›]⟩

omit [MerkleHash Uint256] in
theorem Ledger.output_spend {out : COutPoint} {c : CCoins} (hc : L.getCoins out.hash = some c)
    (hav : c.isAvailable out.n = true) (out' : COutPoint) :
    Ledger.output (L.setCoins out.hash (c.spend out.n).2) out' = if out' = out then none else L.output out' := by
  rw [output_setCoins, CCoins.output_spend hav]
  obtain ⟨h, n⟩ := out
  obtain ⟨h', n'⟩ := out'
  by_cases hh : h' = h
  · subst hh
    have hn : (⟨h', n'⟩ : COutPoint) = ⟨h', n⟩ ↔ n' = n := by simp
    simp only [if_true, hn, Ledger.output, hc]
    rfl
  · rw [if_neg hh, if_neg fun he => hh (COutPoint.mk.inj he).1]

theorem spendInput_ok {out : COutPoint} {undo : CTxInUndo}
    (h : (modifyCoins out.hash (spendForUndo out.n)).run L = .ok (undo, L')) :
    ∃ c c', L.getCoins out.hash = some c ∧ spendForUndo out.n c = .ok (undo, c') ∧ L' = L.setCoins out.hash c' := by
  change ((spendForUndo out.n ((L.getCoins out.hash).getD .clear)).map fun r => (r.1, L.setCoins out.hash r.2)) = _ at h
  cases hs : spendForUndo out.n ((L.getCoins out.hash).getD .clear) with
  | error e =>
    rw [hs] at h
    cases h
  | ok r =>
    rw [hs] at h
    cases h
    cases hc : L.getCoins out.hash with
    | none =>
      rw [hc] at hs
      obtain ⟨hav, -⟩ := spendForUndo_ok hs
      cases hav
    | some c =>
      rw [hc] at hs
      exact ⟨c, r.2, rfl, hs, rfl⟩

/-- Spending inputs takes away their outputs and changes nothing else. -/
structure Ledger.Spends (L : Ledger) (vin : List CTxIn) (L' : Ledger) : Prop where
  output : ∀ out, Ledger.output L' out = if out ∈ vin.map CTxIn.prevout then none else L.output out
  absent : ∀ k, L.getCoins k = none → L'.getCoins k = none
  frame : L' = { L with getCoins := L'.getCoins }

theorem spendInputs_ok {vin : List CTxIn} {undos : List CTxInUndo}
    (h : (spendInputs vin).run L = .ok (undos, L')) :
    L.Spends vin L' ∧ undos.length = vin.length := by
  induction vin generalizing L undos with
  | nil =>
    obtain ⟨rfl, rfl⟩ := run_pure_ok.1 h
    exact ⟨⟨fun out => by simp, fun _ h => h, rfl⟩, rfl⟩
  | cons txin vin ih =>
    obtain ⟨undo, L1, h1, h2⟩ := run_bind_ok.1 h
    obtain ⟨undos', L2, h3, h4⟩ := run_bind_ok.1 h2
    obtain ⟨rfl, rfl⟩ := run_pure_ok.1 h4
    obtain ⟨⟨hout, habs, hframe⟩, hlen⟩ := ih h3
    obtain ⟨c, c', hc, hspend, rfl⟩ := spendInput_ok h1
    obtain ⟨hav, rfl, -⟩ := spendForUndo_ok hspend
    refine ⟨⟨fun out => ?_, fun k hk => habs k ?_, ?_⟩, by simp [hlen]⟩
    · rw [hout, Ledger.output_spend hc hav, map_cons]
      by_cases hm : out ∈ vin.map CTxIn.prevout
      · rw [if_pos hm, if_pos (mem_cons_of_mem _ hm)]
      · by_cases he : out = txin.prevout
        · rw [if_neg hm, if_pos he, if_pos (he ▸ mem_cons_self)]
        · rw [if_neg hm, if_neg he, if_neg fun h => (mem_cons.1 h).elim he hm]
    · have hne : k ≠ txin.prevout.hash := by
        rintro rfl
        rw [hc] at hk
        cases hk
      simpa [ViewAnswers.setCoins, Function.update_of_ne hne] using hk
    · rw [hframe]
      rfl

/-- What a transaction does to the ledger: its inputs are spent, its nullifiers set, its outputs added. -/
theorem updateCoins_ok {nHeight : Int} {txundo : CTxUndo}
    (h : (updateCoins env tx nHeight).run L = .ok (txundo, L')) :
    ∃ L1 : Ledger,
      (if tx.isCoinBase then pure [] else spendInputs tx.vin).run L = .ok (txundo.vprevout, L1) ∧
      L' = ViewAnswers.setCoins (L1.markNullifiers true tx.nullifiers) (env.getHash tx) (.fromTx tx nHeight) := by
  obtain ⟨undos, L1, h1, h⟩ := run_bind_ok.1 h
  obtain ⟨_, L2, h2, h⟩ := run_bind_ok.1 h
  rw [setNullifiers_run] at h2
  cases h2
  obtain ⟨_, L3, h3, h⟩ := run_bind_ok.1 h
  cases h3
  obtain ⟨rfl, rfl⟩ := run_pure_ok.1 h
  exact ⟨L1, h1, rfl⟩

/-- The outpoints that a transaction spends; the input of a coinbase spends nothing. -/
def CTransaction.spends (tx : CTransaction) : List COutPoint :=
  if tx.isCoinBase then [] else tx.vin.map CTxIn.prevout

/-- The ledger after a transaction, in terms of outputs and nullifiers. -/
structure Ledger.Updates (env : Env) (nHeight : Int) (L : Ledger) (tx : CTransaction) (L' : Ledger) : Prop where
  output : ∀ out, Ledger.output L' out =
    if out.hash = env.getHash tx then (CCoins.fromTx tx nHeight).output out.n
    else if out ∈ tx.spends then none else L.output out
  absent : ∀ k, k ≠ env.getHash tx → L.getCoins k = none → L'.getCoins k = none
  nullifier : ∀ nf, L'.getNullifier nf = if nf ∈ tx.nullifiers then true else L.getNullifier nf
  frame : L' = { L with getCoins := L'.getCoins, getNullifier := L'.getNullifier }

theorem updateCoins_updates {nHeight : Int} {txundo : CTxUndo}
    (h : (updateCoins env tx nHeight).run L = .ok (txundo, L')) : L.Updates env nHeight tx L' := by
  obtain ⟨L1, h1, rfl⟩ := updateCoins_ok h
  obtain ⟨hout, habs, hframe⟩ : (∀ out, L1.output out = if out ∈ tx.spends then none else L.output out) ∧
      (∀ k, L.getCoins k = none → L1.getCoins k = none) ∧ L1 = { L with getCoins := L1.getCoins } := by
    unfold CTransaction.spends
    split at h1
    · obtain ⟨-, rfl⟩ := run_pure_ok.1 h1
      rw [if_pos ‹_›]
      exact ⟨fun out => by simp, fun _ h => h, rfl⟩
    · rw [if_neg ‹_›]
      obtain ⟨⟨h1, h2, h3⟩, -⟩ := spendInputs_ok h1
      exact ⟨h1, h2, h3⟩
  refine ⟨fun out => ?_, fun k hk hnone => ?_, fun nf => ?_, ?_⟩
  · rw [Ledger.output_setCoins]
    split
    · rfl
    · exact hout out
  · exact (Function.update_of_ne hk _ _).trans (habs k hnone)
  · rw [hframe]
    rfl
  · rw [hframe]
    rfl

theorem connectTx_ok {fFirst : Bool}
    (h : (connectTx env index fExpensiveChecks fFirst tx acc).run L = .ok (acc', L')) :
    L.Admits tx ∧ appendCommitments acc.tree tx.commitments = .ok acc'.tree ∧
      ∃ txundo, (updateCoins env tx index.nHeight).run L = .ok (txundo, L') ∧
        acc'.vtxundo = if fFirst then acc.vtxundo else acc.vtxundo ++ [txundo] := by
  simp only [connectTx, run_bind_ok, run_lift_ok, run_pure_ok] at h
  obtain ⟨_, _, ⟨-, rfl⟩, acc1, _, hcheck, txundo, _, hup, tree, _, ⟨htree, rfl⟩, rfl, rfl⟩ := h
  obtain ⟨rfl, hadm, ht, hu⟩ := checkTxOnView_ok hcheck
  exact ⟨hadm, ht ▸ htree, txundo, hup, by rw [hu]⟩

/-- Transactions applied one after the other, with the undo information of each. -/
inductive Ledger.Applies (env : Env) (nHeight : Int) : Ledger → List (CTransaction × CTxUndo) → Ledger → Prop
  | nil (L : Ledger) : Applies env nHeight L [] L
  | cons {L L₁ L₂ : Ledger} {tx : CTransaction} {txundo : CTxUndo} {txs : List (CTransaction × CTxUndo)}
      (admits : L.Admits tx)
      (update : (updateCoins env tx nHeight).run L = .ok (txundo, L₁))
      (rest : Applies env nHeight L₁ txs L₂) : Applies env nHeight L ((tx, txundo) :: txs) L₂

theorem appendCommitments_ok {tree' : ZCIncrementalMerkleTree} {xs : List Uint256} :
    appendCommitments tree xs = .ok tree' ↔ tree.appendAll xs = .ok tree' := by
  unfold appendCommitments
  split
  · simp [*]
  · simp [*]

theorem appendCommitments_append {tree1 tree2 : ZCIncrementalMerkleTree} {xs ys : List Uint256}
    (h1 : appendCommitments tree xs = .ok tree1) (h2 : appendCommitments tree1 ys = .ok tree2) :
    appendCommitments tree (xs ++ ys) = .ok tree2 := by
  rw [appendCommitments_ok] at *
  induction xs generalizing tree with
  | nil =>
    cases h1
    exact h2
  | cons x xs ih =>
    obtain ⟨tree', hx, hxs⟩ := except_bind_ok.1 h1
    exact except_bind_ok.2 ⟨tree', hx, ih hxs⟩

theorem connectTxs_ok {fFirst : Bool}
    (h : (connectTxs env index fExpensiveChecks fFirst vtx acc).run L = .ok (acc', L')) :
    appendCommitments acc.tree (vtx.flatMap CTransaction.commitments) = .ok acc'.tree ∧
      ∃ txs : List (CTransaction × CTxUndo), txs.map Prod.fst = vtx ∧ Ledger.Applies env index.nHeight L txs L' ∧
        acc'.vtxundo = acc.vtxundo ++ (if fFirst then txs.tail else txs).map Prod.snd := by
  induction vtx generalizing fFirst acc L with
  | nil =>
    obtain ⟨rfl, rfl⟩ := run_pure_ok.1 h
    exact ⟨rfl, [], rfl, .nil _, by simp⟩
  | cons tx vtx ih =>
    obtain ⟨acc1, L1, h1, h2⟩ := run_bind_ok.1 h
    obtain ⟨hadm, htree, txundo, hup, hundo⟩ := connectTx_ok h1
    obtain ⟨htree', txs, hmap, happ, hundo'⟩ := ih h2
    refine ⟨appendCommitments_append htree htree', (tx, txundo) :: txs, by simp [hmap], .cons hadm hup happ, ?_⟩
    rw [hundo', hundo]
    cases fFirst <;> simp

/-- How `ConnectBlock` got through, past the genesis block. -/
structure ConnectBlockOk (env : Env) (block : CBlock) (index : BlockIndex) (fExpensiveChecks : Bool) (L : Ledger)
    (undo : CBlockUndo) (L' : Ledger) : Prop where
  wellFormed : block.WellFormed
  best : L.getBestBlock = index.pprev
  unspent : ∀ tx ∈ block.vtx, (L.getCoins (env.getHash tx)).any (!·.isPruned) = false
  applied : ∃ (tree : ZCIncrementalMerkleTree) (acc : BlockAcc) (L₁ : Ledger) (valueOut : CAmount),
    L.getAnchorAt tree.root = some tree ∧ L.getBestAnchor = some tree.root ∧
    (connectTxs env index fExpensiveChecks true block.vtx { tree }).run L = .ok (acc, L₁) ∧
    coinBaseValueOut block = .ok valueOut ∧ valueOut ≤ acc.nFees + getBlockSubsidy env index.nHeight ∧
    undo = { vtxundo := acc.vtxundo, old_tree_root := some tree.root } ∧
    L' = { ViewAnswers.pushAnchor L₁ acc.tree with getBestBlock := some index.hash }

theorem connectBlock_ok {fJustCheck : Bool} {undo : CBlockUndo} {result : ConnectResult}
    (h : (connectBlock env block index fExpensiveChecks fJustCheck).run L = .ok (some result, L'))
    (hundo : result.undo = some undo) : ConnectBlockOk env block index fExpensiveChecks L undo L' := by
  simp only [connectBlock, run_bind_ok, run_lift_ok] at h
  obtain ⟨_, M1, ⟨hblock, e1⟩, best, _, hbest, _, M2, ⟨hr, e2⟩, h⟩ := h
  subst M1
  cases hbest
  change M2 = L at e2
  subst M2
  split at h
  · -- the genesis block has no undo information
    split at h
    · cases h
    · cases h
      cases hundo
  obtain ⟨_, M3, hbip, root, _, hroot, found, _, hfound, h⟩ := by simpa only [run_bind_ok] using h
  have e3 : M3 = L := (checkBIP30_readOnly _ _).state hbip
  subst M3
  cases hroot
  cases hfound
  cases htree : L.getAnchorAt (L.getBestAnchor.getD 0) with
  | none =>
    simp only [htree] at h
    cases h
  | some tree =>
    simp only [htree, run_bind_ok, run_lift_ok] at h
    obtain ⟨_, M4, ⟨hroot, e4⟩, acc, L1, htxs, _, _, hpush, reward, M5, ⟨hreward, e5⟩, valueOut, M6, ⟨hvalue, e6⟩, _, M7,
      ⟨hle, e7⟩, _, M8, ⟨-, e8⟩, h⟩ := h
    subst M4
    cases hpush
    subst M8 M7 M6 M5
    split at h
    · cases h
    cases h
    cases hundo
    have hroot' := (reject_ne_ok.1 hroot).symm
    rw [hroot'] at htree
    refine ⟨checkBlock_ok hblock, (reject_ne_ok.1 hr).symm, checkBIP30_ok hbip, tree, acc, L1, valueOut, htree, hroot',
      htxs, hvalue, ?_, by rw [hroot'], rfl⟩
    obtain ⟨-, rfl⟩ := checked_eq_ok.1 hreward
    simpa using reject_ok.1 hle

theorem connectBlock_genesis_ok {σ : Type} [CoinsViewOps σ] {v v' : σ}
    (hgen : env.blockHash block.header = env.hashGenesisBlock)
    (h : (connectBlock env block index fExpensiveChecks false).run v = .ok (result, v')) :
    block.WellFormed ∧ result.bind (·.undo) = none ∧
      v' = CoinsViewOps.setBestBlock (some index.hash) (CoinsViewOps.getBestBlock v).2 := by
  simp only [connectBlock, run_bind_ok, run_lift_ok, if_pos hgen] at h
  obtain ⟨_, M1, ⟨hblock, e1⟩, best, M2, hbest, _, M3, ⟨-, e3⟩, h⟩ := h
  subst M1 M3
  have hread : CoinsViewOps.getBestBlock v = (best, M2) := Except.ok.inj hbest
  cases h
  exact ⟨checkBlock_ok hblock, rfl, by rw [hread]⟩

theorem connectBlock_pushes {σ : Type} [CoinsViewOps σ] {v v' : σ}
    (hgen : env.blockHash block.header ≠ env.hashGenesisBlock)
    (h : (connectBlock env block index fExpensiveChecks false).run v = .ok (result, v')) :
    ∃ r undo tree v0, result = some r ∧ r.undo = some undo ∧
      v' = CoinsViewOps.setBestBlock (some index.hash) (CoinsViewOps.pushAnchor tree v0) := by
  simp only [connectBlock, run_bind_ok, run_lift_ok, if_neg hgen] at h
  obtain ⟨_, _, -, _, _, -, _, _, -, _, _, -, _, _, -, found, _, -, h⟩ := h
  cases found with
  | none => cases h
  | some tree =>
    simp only [run_bind_ok, run_lift_ok] at h
    obtain ⟨_, _, -, acc, v0, -, _, _, hpush, _, M1, ⟨-, e1⟩, _, M2, ⟨-, e2⟩, _, M3, ⟨-, e3⟩, _, M4, ⟨-, e4⟩, h⟩ := h
    subst M4 M3 M2 M1
    cases hpush
    cases h
    exact ⟨_, _, acc.tree, v0, rfl, rfl, rfl⟩

end LitecoinZ
