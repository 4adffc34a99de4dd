import LitecoinZ.Validation.Reorg
import LitecoinZ.Validation.Supply

/-!
# The supply of a chain

Blocks connected one after the other to a view without coins (`ConnectsChain`): the unspent outputs and the shielded
pool are together worth at most the subsidies of the blocks, these are at most a tenth of `MAX_MONEY`, and no amount
that is computed when the next block is connected overflows.
-/

namespace LitecoinZ

open StateExcept ViewM Finset

def totalSubsidy (env : Env) (H : Nat) : CAmount := ∑ h ∈ Finset.range H, getBlockSubsidy env (h + 1)

/-- The subsidy after a number of halvings. -/
private def subsidyAfter (halvings : Nat) : CAmount := if halvings ≥ 64 then 0 else 50 * COIN / 2 ^ halvings

private theorem subsidyAfter_nonneg (i : Nat) : 0 ≤ subsidyAfter i := by
  unfold subsidyAfter
  split
  · exact le_refl _
  · exact Int.ediv_nonneg (by decide) (by positivity)

private theorem sum_subsidyAfter_div {I : Nat} (hI : 0 < I) (m : Nat) :
    ∑ h ∈ range (I * m), subsidyAfter (h / I) = I * ∑ i ∈ range m, subsidyAfter i := by
  induction m with
  | zero => simp
  | succ m ih =>
    -- one more period of `I` blocks with the same number of halvings
    have hperiod : ∀ j ∈ range I, subsidyAfter ((I * m + j) / I) = subsidyAfter m := by
      intro j hj
      rw [Nat.mul_add_div hI, Nat.div_eq_of_lt (mem_range.1 hj), Nat.add_zero]
    rw [Nat.mul_succ, sum_range_add, ih, sum_congr rfl hperiod, sum_range_succ]
    simp [mul_add]

private theorem sum_subsidyAfter_le (m : Nat) : ∑ i ∈ range m, subsidyAfter i ≤ 100 * COIN := by
  have hsub : ∑ i ∈ range m, subsidyAfter i ≤ ∑ i ∈ range (64 + m), subsidyAfter i :=
    sum_le_sum_of_subset_of_nonneg (range_subset_range.2 (by omega)) fun i _ _ => subsidyAfter_nonneg i
  have htail : ∑ j ∈ range m, subsidyAfter (64 + j) = 0 :=
    sum_eq_zero fun j _ => if_pos (Nat.le_add_right 64 j)
  have h64 : ∑ i ∈ range 64, subsidyAfter i ≤ 100 * COIN := by decide +kernel
  rw [sum_range_add, htail, add_zero] at hsub
  exact hsub.trans h64

theorem totalSubsidy_le {env : Env} (hlow : 1 ≤ env.nSubsidyHalvingInterval)
    (hhigh : env.nSubsidyHalvingInterval ≤ 840000) (H : Nat) : totalSubsidy env H ≤ MAX_MONEY := by
  have hI : 0 < env.nSubsidyHalvingInterval := hlow
  have hle : totalSubsidy env H ≤
      ∑ h ∈ range (env.nSubsidyHalvingInterval * (H + 1)), subsidyAfter (h / env.nSubsidyHalvingInterval) := by
    have hterm : totalSubsidy env H = ∑ h ∈ range H, subsidyAfter ((h + 1) / env.nSubsidyHalvingInterval) :=
      sum_congr rfl fun h _ => rfl
    have hshift := sum_range_succ' (fun h => subsidyAfter (h / env.nSubsidyHalvingInterval)) H
    have hsub : ∑ h ∈ range (H + 1), subsidyAfter (h / env.nSubsidyHalvingInterval) ≤
        ∑ h ∈ range (env.nSubsidyHalvingInterval * (H + 1)), subsidyAfter (h / env.nSubsidyHalvingInterval) :=
      sum_le_sum_of_subset_of_nonneg (range_subset_range.2 (Nat.le_mul_of_pos_left _ hI))
        fun h _ _ => subsidyAfter_nonneg _
    have hzero := subsidyAfter_nonneg (0 / env.nSubsidyHalvingInterval)
    rw [hterm]
    linarith
  rw [sum_subsidyAfter_div hI] at hle
  have hsum := sum_subsidyAfter_le (H + 1)
  have hnn : 0 ≤ ∑ i ∈ range (H + 1), subsidyAfter i := sum_nonneg fun i _ => subsidyAfter_nonneg i
  have hI' : (env.nSubsidyHalvingInterval : ℤ) ≤ 840000 := by exact_mod_cast hhigh
  have hmul : (env.nSubsidyHalvingInterval : ℤ) * ∑ i ∈ range (H + 1), subsidyAfter i ≤ 840000 * (100 * COIN) :=
    mul_le_mul hI' hsum hnn (by norm_num)
  have hmax : (840000 * (100 * COIN) : ℤ) ≤ MAX_MONEY := by decide
  linarith

/-! ### Chains -/

def chainTxs (blocks : List CBlock) : List CTransaction := blocks.flatMap CBlock.vtx

theorem chainTxs_snoc (blocks : List CBlock) (block : CBlock) :
    chainTxs (blocks ++ [block]) = chainTxs blocks ++ block.vtx := by
  simp [chainTxs]

theorem poolValue_append (xs ys : List CTransaction) : poolValue (xs ++ ys) = poolValue xs + poolValue ys := by
  simp [poolValue]

theorem subsidyIndex_linked : 1 ≤ (1 : ℤ) ↔ (some 1 : Option Uint256) ≠ none := by decide

variable [MerkleHash Uint256]

/-- Blocks connected to a view one after the other, at heights from 1 on. -/
inductive ConnectsChain (env : Env) (c₀ : CCoinsViewCache) : List CBlock → CCoinsViewCache → Prop
  | nil : ConnectsChain env c₀ [] c₀
  | snoc {blocks : List CBlock} {c c' : CCoinsViewCache} {block : CBlock} {index : BlockIndex}
      {fExpensiveChecks : Bool} {result : Option ConnectResult} (chain : ConnectsChain env c₀ blocks c)
      (height : index.nHeight = blocks.length + 1)
      (notGenesis : env.blockHash block.header ≠ env.hashGenesisBlock)
      (connect : (connectBlock env block index fExpensiveChecks false).run c = .ok (result, c')) :
      ConnectsChain env c₀ (blocks ++ [block]) c'

theorem ConnectsChain.value {env : Env} (hlow : 1 ≤ env.nSubsidyHalvingInterval)
    (hhigh : env.nSubsidyHalvingInterval ≤ 840000) {c0 c : CCoinsViewCache} (hc0 : c0.InUse)
    (hempty : ∀ k, c0.answers.norm.getCoins k = none) {blocks : List CBlock} (hchain : ConnectsChain env c0 blocks c)
    (hpool : ∀ n, 0 ≤ poolValue ((chainTxs blocks).take n)) :
    Simulates (fun _ _ => True) c c.answers.norm ∧ Ledger.Nonneg c.answers.norm ∧
      Ledger.value c.answers.norm + poolValue (chainTxs blocks) ≤ totalSubsidy env blocks.length := by
  induction hchain with
  | nil =>
    obtain ⟨hcoh, hanch⟩ := hc0.coherent
    refine ⟨⟨hcoh, hanch, rfl⟩, fun k c hk => ?_, ?_⟩
    · rw [hempty] at hk
      cases hk
    · have hzero : Ledger.value c0.answers.norm = 0 := sum_eq_zero fun k _ => by rw [hempty]; rfl
      rw [hzero]
      exact le_refl _
  | @snoc blocks c c' block index fExpensiveChecks result _ hht hgen hcon ih =>
    have hprefix : ∀ n, 0 ≤ poolValue ((chainTxs blocks).take n) := by
      intro n
      have hn := hpool (min n (chainTxs blocks).length)
      rwa [chainTxs_snoc, List.take_append_of_le_length (by omega), ← List.take_take, List.take_length] at hn
    obtain ⟨hs, hnn, hval⟩ := ih hprefix
    obtain ⟨L', hrun, hs'⟩ :=
      (connectBlock_sim env block index fExpensiveChecks false fun _ _ _ _ _ => trivial).backward ⟨rfl, hs⟩ hcon
    have hcovered : ∀ tree, PoolCovered env index fExpensiveChecks true (poolValue (chainTxs blocks)) block.vtx { tree }
        c.answers.norm := by
      intro tree n _ _ _
      have hn := hpool ((chainTxs blocks).length + n)
      rwa [chainTxs_snoc, List.take_length_add_append, poolValue_append] at hn
    obtain ⟨hnn', hval'⟩ :=
      (connectBlock_value hnn hval (totalSubsidy_le hlow hhigh _) hcovered hgen).1 result L' hrun
    have hL' := hs'.answers
    subst hL'
    refine ⟨hs', hnn', ?_⟩
    have hsucc : totalSubsidy env (blocks ++ [block]).length =
        totalSubsidy env blocks.length + getBlockSubsidy env index.nHeight := by
      rw [hht, List.length_append, List.length_singleton]
      exact sum_range_succ _ _
    rw [hsucc, chainTxs_snoc, poolValue_append]
    exact hval'

/-- The supply of a chain is at most the subsidies of its blocks, which are within the money range, and no amount that
is computed to connect a further block overflows.  The zero-knowledge proofs are trusted for the pool: it is never
overdrawn by transactions that are connected. -/
theorem supply_bound (env : Env) (hlow : 1 ≤ env.nSubsidyHalvingInterval)
    (hhigh : env.nSubsidyHalvingInterval ≤ 840000) (c₀ c : CCoinsViewCache) (hc0 : c₀.InUse)
    (hempty : ∀ k, c₀.answers.norm.getCoins k = none) (blocks : List CBlock) (hchain : ConnectsChain env c₀ blocks c)
    (hpool : ∀ n, 0 ≤ poolValue ((chainTxs blocks).take n)) :
    Ledger.value c.answers.norm + poolValue (chainTxs blocks) ≤ totalSubsidy env blocks.length ∧
    totalSubsidy env blocks.length ≤ MAX_MONEY ∧
    ∀ (block : CBlock) (index : BlockIndex) (fExpensiveChecks fJustCheck : Bool),
      env.blockHash block.header ≠ env.hashGenesisBlock →
      (∀ tree n acc c', (connectTxs env index fExpensiveChecks true (block.vtx.take n) { tree }).run c = .ok (acc, c') →
        0 ≤ poolValue (chainTxs blocks ++ block.vtx.take n)) →
      (connectBlock env block index fExpensiveChecks fJustCheck).run c ≠ .error .overflow := by
  obtain ⟨hs, hnn, hval⟩ := hchain.value hlow hhigh hc0 hempty hpool
  have hmax := totalSubsidy_le hlow hhigh blocks.length
  refine ⟨hval, hmax, fun block index fExpensiveChecks fJustCheck hgen hblock herr => ?_⟩
  have hcovered : ∀ tree, PoolCovered env index fExpensiveChecks true (poolValue (chainTxs blocks)) block.vtx { tree }
      c.answers.norm := by
    intro tree n acc L' hrun
    obtain ⟨c', hc', -⟩ := (connectTxs_sim env index fExpensiveChecks true _ _).forward hs hrun
    have hn := hblock tree n acc c' hc'
    rwa [poolValue_append] at hn
  -- the stack fails as the ledger does
  have hsim := connectBlock_sim env block index fExpensiveChecks fJustCheck (P := fun _ _ => True)
    (L := c.answers.norm) (fun _ _ _ _ _ => trivial) c _ ⟨rfl, hs⟩
  rcases hsim with ⟨e, he, hL⟩ | ⟨a, c', b, L', hok, -⟩
  · rw [herr] at he
    cases he
    exact (connectBlock_value hnn hval hmax hcovered hgen).2 _ hL rfl
  · rw [herr] at hok
    cases hok

def subsidyBlock : CBlock where
  header := ⟨4, 1, 0, 0, 2, 0, 0, []⟩
  vtx := [⟨1, [⟨⟨0, 2 ^ 32 - 1⟩, [0x51, 1], 0⟩], [⟨50 * COIN, []⟩], [], 10, 0, nullSig⟩]

def subsidyIndex : BlockIndex := ⟨2, 1, some 1, subsidyIndex_linked⟩

def viewAfterGenesis : CCoinsViewCache := ⟨{}, .db { bestBlock := some 1 }⟩

omit [MerkleHash Uint256] in
theorem supply_bound_one_block :
    letI := leftHash
    ∃ c, ConnectsChain plainEnv viewAfterGenesis [subsidyBlock] c ∧
      Ledger.value c.answers.norm + poolValue (chainTxs [subsidyBlock]) ≤ totalSubsidy plainEnv 1 := by
  let _ := leftHash
  have hrun : ((connectBlock plainEnv subsidyBlock subsidyIndex true false).run viewAfterGenesis).isOk = true := by
    decide +kernel
  cases hcon : (connectBlock plainEnv subsidyBlock subsidyIndex true false).run viewAfterGenesis with
  | error e =>
    rw [hcon] at hrun
    cases hrun
  | ok r =>
    have hchain : ConnectsChain plainEnv viewAfterGenesis [subsidyBlock] r.2 :=
      .snoc .nil (by decide) (by decide) hcon
    have huse : viewAfterGenesis.InUse := .cache ⟨rfl, rfl, rfl⟩ (.db fun _ _ _ => trivial)
    have hpool : ∀ n, 0 ≤ poolValue ((chainTxs [subsidyBlock]).take n) := by
      intro n
      cases n with
      | zero => exact le_refl _
      | succ n => simp [chainTxs, subsidyBlock, poolValue, CTransaction.vpubOld, CTransaction.vpubNew]
    exact ⟨r.2, hchain, (supply_bound plainEnv (by decide) (by decide) viewAfterGenesis r.2 huse (fun _ => rfl)
      [subsidyBlock] hchain hpool).1⟩

end LitecoinZ
