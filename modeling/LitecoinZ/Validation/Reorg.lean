import LitecoinZ.Validation.Undo

/-!
# A block connected and disconnected

`DisconnectBlock` with the undo information of `ConnectBlock` is clean and gives back the view, up to coins that are
fully spent, if spent outputs in the middle of stored coins are null as `SetNull` writes them
(`disconnectBlock_connectBlock`).  Otherwise the view may differ: outputs are restored with `SetNull` in the gaps
(`disconnectBlock_loses_null_scripts`).
-/

namespace LitecoinZ

open StateExcept ViewM

variable [MerkleHash Uint256]

theorem ConnectBlockOk.disconnectBlock_run {env : Env} {block : CBlock} {index : BlockIndex} {fExpensiveChecks : Bool}
    {L L' : Ledger} {undo : CBlockUndo} (h : ConnectBlockOk env block index fExpensiveChecks L undo L') (hL : L.Proper)
    (hht : 1 ≤ index.nHeight)
    (htxids : ∀ tx ∈ block.vtx, ∀ tx' ∈ block.vtx, env.getHash tx = env.getHash tx' → tx = tx')
    (hroot : ∀ rt, L'.getBestAnchor = some rt → L.getBestAnchor ≠ some rt → L.getAnchorAt rt = none) :
    undo.old_tree_root ≠ none ∧
      (disconnectBlock env block index (some undo)).run L' = .ok (true, L) := by
  obtain ⟨tree, tree', txs, L1, hc⟩ := h.connects
  have hwf : ∀ p ∈ txs, p.1.WellFormed := fun p hp =>
    h.wellFormed.vtx _ (hc.vtx ▸ List.mem_map_of_mem hp)
  have h0 : ∀ p ∈ txs, L.getCoins (env.getHash p.1) = none := by
    intro p hp
    have hun := h.unspent p.1 (hc.vtx ▸ List.mem_map_of_mem hp)
    cases hk : L.getCoins (env.getHash p.1) with
    | none => rfl
    | some coins => simp [hk, (hL _ _ hk).2] at hun
  have hdist : Distinct env ([] ++ txs.map Prod.fst) := by
    rw [List.nil_append, hc.vtx]
    obtain ⟨coinbase, -, -, hfilt⟩ := h.wellFormed.filter_isCoinBase
    exact ⟨htxids, hfilt ▸ List.nodup_singleton _⟩
  obtain ⟨-, -, hback⟩ := hc.applies.undo (.refl env L) hL (by omega) hwf h0 hdist
  -- the block leaves the anchors of `L` with the new tree pushed
  have hL' : L' = Ledger.withCoins { ViewAnswers.pushAnchor L tree' with getBestBlock := some index.hash } L1 := by
    rw [hc.ledger, ← hc.applies.frame, pushAnchor_withCoins]
    rfl
  have hpush : Ledger.withCoins { ViewAnswers.pushAnchor L tree' with getBestBlock := some index.hash } L =
      { ViewAnswers.pushAnchor L tree' with getBestBlock := some index.hash } := by
    conv_rhs => rw [show L = L.withCoins L from rfl, pushAnchor_withCoins]
    rfl
  have hbest : L'.getBestBlock = some index.hash := by rw [hL']; rfl
  have hanc : L'.getBestAnchor = some tree'.root := by
    rw [hL']
    exact getBestAnchor_pushAnchor L tree'
  have hpop : ViewAnswers.popAnchor (L.pushAnchor tree') undo.old_tree_root = .ok L := by
    rw [hc.old_tree_root]
    refine popAnchor_pushAnchor hc.bestAnchor fun hne => hroot _ hanc ?_
    rw [hc.bestAnchor]
    simpa using Ne.symm hne
  refine ⟨by simp [hc.old_tree_root], ?_⟩
  have hrun := LitecoinZ.disconnectBlock_run hbest hc.vtxundo
    (by rw [hc.withUndo, hL']; exact hback _) (by rw [hpush]; exact popAnchor_bestBlock hpop)
  rw [hrun]
  simp only [← h.best]

/-- A view as the code sets it up: a cache over other caches and a database, or over any other view, after any
operations and flushes. -/
abbrev CCoinsViewCache.InUse (c : CCoinsViewCache) : Prop := Reachable (fun _ _ => True) c.toView

theorem disconnectBlock_connectBlock (env : Env) (block : CBlock) (index : BlockIndex) (fExpensiveChecks : Bool)
    (c c₁ : CCoinsViewCache) (result : ConnectResult) (undo : CBlockUndo) (hc : c.InUse)
    (hcoins : ∀ k coins, c.answers.norm.getCoins k = some coins →
      1 ≤ coins.nHeight ∧ dropNulls coins.vout = coins.vout ∧ NullsCleared coins.vout)
    (hheight : 1 ≤ index.nHeight)
    (htxids : ∀ tx ∈ block.vtx, ∀ tx' ∈ block.vtx, env.getHash tx = env.getHash tx' → tx = tx')
    (hconnect : (connectBlock env block index fExpensiveChecks false).run c = .ok (some result, c₁))
    (hundo : result.undo = some undo)
    (hroot : ∀ rt, c₁.answers.getBestAnchor = some rt → c.answers.getBestAnchor ≠ some rt →
      c.answers.getAnchorAt rt = none) :
    ∃ c₂, (disconnectBlock env block index (some undo)).run c₁ = .ok (true, c₂) ∧
      c₂.answers.norm = c.answers.norm := by
  obtain ⟨hcoh, hanch⟩ := hc.coherent
  have hs : Simulates (fun _ _ => True) c c.answers.norm := ⟨hcoh, hanch, rfl⟩
  obtain ⟨L', hrun, hs'⟩ :=
    (connectBlock_sim env block index fExpensiveChecks false fun _ _ _ _ _ => trivial).backward ⟨rfl, hs⟩ hconnect
  have hok := connectBlock_ok hrun hundo
  have hproper : Ledger.Proper c.answers.norm := by
    intro k coins hk
    obtain ⟨hh, hclean, hnulls⟩ := hcoins k coins hk
    exact ⟨⟨by omega, hclean, hnulls⟩, not_pruned_of_unspent hk⟩
  obtain ⟨hsome, hdis⟩ := hok.disconnectBlock_run hproper hheight htxids fun rt => by
    rw [← hs'.getBestAnchor]
    exact hroot rt
  obtain ⟨c₂, hrun2, hs2⟩ := disconnectBlock_forward hsome (index.linked.1 hheight) hs' hdis
  exact ⟨c₂, hrun2, hs2.answers⟩

/-! ### A small chain -/

/-- A block on block 1 in which transaction 11 spends the second output of transaction 7. -/
def spendingBlock : CBlock where
  header := ⟨4, 1, 0, 0, 2, 0, 0, []⟩
  vtx :=
    [⟨1, [⟨⟨0, 2 ^ 32 - 1⟩, [1, 1], 0⟩], [⟨0, []⟩], [], 10, 0, nullSig⟩,
     ⟨1, [⟨⟨7, 1⟩, [], 0⟩], [⟨4, []⟩], [], 11, 0, nullSig⟩]

def spendingIndex : BlockIndex := ⟨2, 1001, some 1, by decide⟩

def viewWith (vout : List CTxOut) : CCoinsViewCache :=
  ⟨{}, .db { coins := (∅ : KeyMap Uint256 CCoins).insert 7 ⟨false, vout, 500, 1⟩, bestBlock := some 1 }⟩

private theorem viewWith_inUse (vout : List CTxOut) : (viewWith vout).InUse :=
  .cache ⟨rfl, rfl, rfl⟩ (.db fun _ _ _ => trivial)

variable {vout : List CTxOut}

private theorem viewWith_getCoins {k : Uint256} {coins : CCoins} (h : (viewWith vout).answers.getCoins k = some coins) :
    coins = ⟨false, vout, 500, 1⟩ := by
  change ((∅ : KeyMap Uint256 CCoins).insert 7 ⟨false, vout, 500, 1⟩).lookup k = some coins at h
  by_cases hk : k = 7
  · subst hk
    rw [AList.lookup_insert] at h
    exact (Option.some.inj h).symm
  · rw [AList.lookup_insert_ne hk] at h
    cases h

private theorem viewWith_getAnchorAt {rt : Uint256} (h : (viewWith vout).answers.getBestAnchor ≠ some rt) :
    (viewWith vout).answers.getAnchorAt rt = none := by
  change (if rt = emptyRoot Uint256 INCREMENTAL_MERKLE_TREE_DEPTH then some ({} : ZCIncrementalMerkleTree) else none) = none
  refine if_neg fun he => h ?_
  rw [he]
  rfl

/-- The coins of a transaction before a block is connected and after it is disconnected again, and whether the
disconnection was clean. -/
def coinsAroundBlock (env : Env) (block : CBlock) (index : BlockIndex) (c : CCoinsViewCache) (txid : Uint256) :
    Except Fault (Bool × Option CCoins × Option CCoins) := do
  let (before, c) := c.accessCoins txid
  let (result, c) ← (connectBlock env block index true false).run c
  let (clean, c) ← (disconnectBlock env block index (result.bind (·.undo))).run c
  .ok (clean, before, (c.accessCoins txid).1)

omit [MerkleHash Uint256] in
/-- A spent output of transaction 7 is null, but with a script: after the reorganisation the script is gone. -/
theorem disconnectBlock_loses_null_scripts :
    letI := leftHash
    let c := viewWith [⟨-1, [1]⟩, ⟨5, []⟩]
    c.InUse ∧
    (∀ k coins, c.answers.getCoins k = some coins →
      1 ≤ coins.nHeight ∧ 1 ≤ coins.nVersion ∧ dropNulls coins.vout = coins.vout) ∧
    (∃ tree, c.answers.getBestAnchor = some tree.root ∧ c.answers.getAnchorAt tree.root = some tree) ∧
    (∀ rt, c.answers.getBestAnchor ≠ some rt → c.answers.getAnchorAt rt = none) ∧
    1 ≤ spendingIndex.nHeight ∧
    (∀ tx ∈ spendingBlock.vtx, ∀ tx' ∈ spendingBlock.vtx, plainEnv.getHash tx = plainEnv.getHash tx' → tx = tx') ∧
    coinsAroundBlock plainEnv spendingBlock spendingIndex c 7 =
      .ok (true, some ⟨false, [⟨-1, [1]⟩, ⟨5, []⟩], 500, 1⟩, some ⟨false, [.null, ⟨5, []⟩], 500, 1⟩) := by
  let _ := leftHash
  refine ⟨viewWith_inUse _, fun k coins h => ?_, ⟨{}, ?_, ?_⟩, fun rt hrt => ?_, ?_, ?_, ?_⟩
  · rw [viewWith_getCoins h]
    decide
  · decide +kernel
  · decide +kernel
  · exact viewWith_getAnchorAt hrt
  · decide
  · decide
  · decide +kernel

private def connectsWithUndo (env : Env) (block : CBlock) (index : BlockIndex) (c : CCoinsViewCache) : Bool :=
  match (connectBlock env block index true false).run c with
  | .ok (some result, c') => result.undo.isSome && c'.answers.getBestAnchor == c.answers.getBestAnchor
  | _ => false

omit [MerkleHash Uint256] in
theorem disconnectBlock_connectBlock_spending :
    letI := leftHash
    ∃ (c₁ c₂ : CCoinsViewCache) (undo : CBlockUndo),
      (disconnectBlock plainEnv spendingBlock spendingIndex (some undo)).run c₁ = .ok (true, c₂) ∧
      c₂.answers.norm = (viewWith [.null, ⟨5, []⟩]).answers.norm := by
  let _ := leftHash
  have hrun : connectsWithUndo plainEnv spendingBlock spendingIndex (viewWith [.null, ⟨5, []⟩]) = true := by decide +kernel
  unfold connectsWithUndo at hrun
  split at hrun
  · rename_i result c₁ hcon
    rw [Bool.and_eq_true, beq_iff_eq] at hrun
    obtain ⟨undo, hundo⟩ := Option.isSome_iff_exists.1 hrun.1
    have hnulls : NullsCleared [.null, ⟨5, []⟩] := by
      unfold NullsCleared
      decide
    have hcoins : ∀ k coins, (viewWith [.null, ⟨5, []⟩]).answers.norm.getCoins k = some coins →
        1 ≤ coins.nHeight ∧ dropNulls coins.vout = coins.vout ∧ NullsCleared coins.vout := by
      intro k coins h
      rw [viewWith_getCoins (eq_some_of_unspent h)]
      exact ⟨by decide, by decide, hnulls⟩
    obtain ⟨c₂, h⟩ := disconnectBlock_connectBlock plainEnv spendingBlock spendingIndex true _ c₁ result undo
      (viewWith_inUse _) hcoins (by decide) (by decide) hcon hundo fun rt h hne => absurd (hrun.2 ▸ h) hne
    exact ⟨c₁, c₂, undo, h⟩
  · cases hrun

end LitecoinZ
