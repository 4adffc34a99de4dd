import LitecoinZ.Validation.ChainLedger
import LitecoinZ.Validation.Reorg

/-!
# No double spend along any history

Whatever blocks were connected and disconnected before, the coins and nullifiers of `pcoinsTip` are those of the ledger
of the active chain, and the undo information on disk is that of the only chain to its block (`Consistent`).  Every
step keeps this, so in every history the transactions of the active chain spend each outpoint and reveal each
nullifier at most once, and the nullifiers of the view are those revealed (`no_double_spend`).
-/

namespace LitecoinZ

open StateExcept ViewM

private theorem sameCoins_of_answers {a a' : ViewAnswers} (h : SameAnswers a a') :
    Ledger.SameCoins a'.norm a.norm :=
  ⟨funext fun k => (h.coins k).symm, funext fun nf => (h.nullifiers nf).symm⟩

variable {c c' : CCoinsViewCache} {L : Ledger}

private theorem sameCoins_popAnchor {L' : Ledger} {rt : Option Uint256} (h : L.popAnchor rt = .ok L') :
    L.SameCoins L' := by
  unfold ViewAnswers.popAnchor at h
  split at h
  · split at h
    · cases h
    · cases h
      exact ⟨rfl, rfl⟩
  · cases h
    exact .refl L

variable [MerkleHash Uint256]

/-- `UndoOf env tree h undo`: the undo information of the block `h`, after the blocks before it. -/
inductive UndoOf (env : Env) (tree : BlockTree env) : Uint256 → CBlockUndo → Prop
  | mk {block : CBlock} {index : BlockIndex} {chain : List (CBlock × BlockIndex)} {done : List CTransaction}
      {L L' : Ledger} {txs : List (CTransaction × CTxUndo)} {undo : CBlockUndo}
      (isChain : tree.IsChain ((block, index) :: chain)) (linked : index.pprev ≠ none)
      (root : undo.old_tree_root ≠ none) (ledger : ChainLedger env chain done L) (vtx : txs.map Prod.fst = block.vtx)
      (applies : Ledger.Applies env index.nHeight L txs L') (kept : withUndo block undo = txs.map keptUndo) :
      UndoOf env tree index.hash undo

structure Consistent (env : Env) (tree : BlockTree env) (s : ChainState) : Prop where
  isChain : tree.IsChain s.chain
  ledger : ∃ done L, Simulates (fun _ _ => True) s.coinsTip L ∧ ChainLedger env s.chain done L
  undo : ∀ h undo, s.undo.lookup h = some undo → UndoOf env tree h undo

private theorem batchWrite_sameCoins {l : CacheLayer} {v v' : CCoinsView} (hc : (CCoinsView.cache l v).Coherent)
    (h : v.batchWrite l = .ok v') : Ledger.SameCoins (CCoinsView.cache l v).answers.norm v'.answers.norm := by
  cases v with
  | other a => cases h
  | db d =>
    obtain ⟨d', hd, hsame, -⟩ := batchWrite_db hc
    cases hd.symm.trans h
    exact sameCoins_of_answers hsame
  | cache p b =>
    obtain ⟨p', hp, -, -, -, hsame, -⟩ := batchWrite_cache hc
    cases hp.symm.trans h
    exact sameCoins_of_answers hsame

private theorem written (hs : Simulates (fun _ _ => True) c L) (h : c.base.batchWrite c.layer = .ok c'.toView) :
    ∃ L', Simulates (fun _ _ => True) c' L' ∧ L.SameCoins L' := by
  obtain ⟨hcoh, hanch⟩ := batchWrite_coherent hs.coherent h
  have hsame := batchWrite_sameCoins hs.coherent h
  exact ⟨_, ⟨hcoh, hanch _ hs.anchored, rfl⟩, hs.answers ▸ hsame⟩

private theorem flushed (hs : Simulates (fun _ _ => True) c L) (h : c.flush = .ok c') :
    ∃ L', Simulates (fun _ _ => True) c' L' ∧ L.SameCoins L' := by
  obtain ⟨v, hwrite, hno, rfl⟩ := flush_ok h
  obtain ⟨hcoh, hanch⟩ := batchWrite_coherent hs.coherent hwrite
  have hsame := batchWrite_sameCoins hs.coherent hwrite
  refine ⟨_, ⟨⟨hno.coherent _, hcoh⟩, ⟨fun _ _ _ => trivial, hanch _ hs.anchored⟩, rfl⟩, ?_⟩
  obtain ⟨h1, -, h3⟩ := hno
  rw [← hs.answers]
  refine hsame.trans ⟨?_, ?_⟩
  · simp [CCoinsViewCache.answers, CCoinsViewCache.toView, CCoinsView.answers, CacheLayer.answersOver,
      ViewAnswers.norm, h1]
  · simp [CCoinsViewCache.answers, CCoinsViewCache.toView, CCoinsView.answers, CacheLayer.answersOver,
      ViewAnswers.norm, h3]

/-! ### Steps -/

private theorem sameCoins_pushAnchor (L : Ledger) (tree : ZCIncrementalMerkleTree) : L.SameCoins (L.pushAnchor tree) := by
  unfold ViewAnswers.pushAnchor
  split
  · exact ⟨rfl, rfl⟩
  · exact .refl L

namespace Consistent

variable {env : Env} {tree : BlockTree env} {s s' : ChainState}

theorem start (env : Env) (tree : BlockTree env) : Consistent env tree .start where
  isChain := trivial
  ledger := by
    have hno : CacheLayer.NoEntries {} := ⟨rfl, rfl, rfl⟩
    exact ⟨[], _, ⟨⟨hno.coherent _, trivial⟩, ⟨fun _ _ _ => trivial, fun _ _ _ => trivial⟩, rfl⟩,
      .nil (fun _ => rfl) fun _ => rfl⟩
  undo h undo hlook := by cases hlook

theorem connect (hs : Consistent env tree s) {h : Uint256} {block : CBlock} {index : BlockIndex}
    {fExpensiveChecks : Bool} (hfound : tree.find h = some (block, index))
    (hacc : 1 ≤ index.nHeight → contextualCheckBlock block index.nHeight = .ok ())
    (hrun : s.connectTip env block index fExpensiveChecks = .ok s') : Consistent env tree s' := by
  obtain ⟨hprev, hchain', c, view, result, hfill, hcon, hwrite, hundo⟩ := ChainState.connectTip_ok hrun
  obtain ⟨done, L, hsim, hled⟩ := hs.ledger
  obtain ⟨rfl, hblock⟩ := tree.hash hfound
  have hchain : tree.IsChain ((block, index) :: s.chain) := ⟨hfound, hprev, hs.isChain⟩
  obtain ⟨L', hL', hsim'⟩ := (connectBlock_sim env block index fExpensiveChecks false
    fun _ _ _ _ _ => trivial).backward ⟨rfl, (hsim.filled (assertBestAnchor_ok hfill)).child⟩ hcon
  obtain ⟨L'', hsim'', hsame⟩ := written hsim' hwrite
  by_cases hroot : index.pprev = none
  · -- the genesis block
    obtain ⟨hgen, -⟩ := tree.genesis hfound hroot
    obtain ⟨hwf, hnone, rfl⟩ := connectBlock_genesis_ok (hblock.trans hgen) hL'
    refine ⟨hchain' ▸ hchain, ⟨done, L'', hsim'', ?_⟩, ?_⟩
    · rw [hchain']
      exact (hled.genesis hroot hwf).sameCoins (⟨hsame.coins, hsame.nullifiers⟩ : L.SameCoins L'')
    · intro h undo hlook
      rw [hundo, hnone] at hlook
      rcases ChainState.lookup_recordUndo hlook with hold | ⟨-, hnew⟩
      · exact hs.undo h undo hold
      · cases hnew
  · obtain ⟨p, hp⟩ := Option.ne_none_iff_exists'.1 hroot
    obtain ⟨hgen, -⟩ := tree.parent hfound hp
    obtain ⟨r, undo, -, -, rfl, hr, -⟩ := connectBlock_pushes (hblock.symm ▸ hgen) hL'
    have hok := connectBlock_ok hL' hr
    obtain ⟨tr, tr', txs, L1, hc⟩ := hok.connects
    have hsame' : L1.SameCoins L'' := by
      have hpush := sameCoins_pushAnchor L1 tr'
      have hL : Ledger.SameCoins (L1.pushAnchor tr') L' := by
        rw [hc.ledger]
        exact ⟨rfl, rfl⟩
      exact hpush.trans (hL.trans hsame)
    refine ⟨hchain' ▸ hchain, ⟨done ++ block.vtx, L'', hsim'', ?_⟩, ?_⟩
    · rw [hchain']
      exact .block hroot hok.wellFormed (hacc (index.linked.2 hroot)) hled hc.vtx hc.applies hsame'
    · intro h undo' hlook
      rw [hundo] at hlook
      rcases ChainState.lookup_recordUndo hlook with hold | ⟨rfl, hnew⟩
      · exact hs.undo h undo' hold
      · obtain rfl : undo = undo' := Option.some.inj (hr.symm.trans hnew)
        exact .mk hchain hroot (by simp [hc.old_tree_root]) hled hc.vtx hc.applies hc.withUndo

theorem disconnect (htxids : tree.DistinctTxids) (hs : Consistent env tree s)
    (hrun : s.disconnectTip env = .ok s') : Consistent env tree s' := by
  obtain ⟨block, index, undo, c, c1, c2, hchain, hundo, hlook, hfill, htxs, hpop, coinsTip, hwrite, hfill'⟩ :=
    ChainState.disconnectTip_ok hrun
  obtain ⟨done, L, hsim, hled⟩ := hs.ledger
  have hch := hs.isChain
  rw [hchain] at hled hch
  -- the block of the undo information is the tip, and the chain before it the same
  generalize hh : index.hash = h at hlook
  cases hs.undo h undo hlook with
  | @mk block' index' chain' _ _ _ txs' _ isChain' linked' root' ledger' vtx' applies' kept' =>
  have hfound := hch.1
  rw [hh] at hfound
  cases isChain'.1.symm.trans hfound
  obtain rfl := isChain'.unique hch
  obtain ⟨rt, hrt⟩ := Option.ne_none_iff_exists'.1 root'
  obtain ⟨p, hp⟩ := Option.ne_none_iff_exists'.1 linked'
  cases hled with
  | genesis root => exact absurd root linked'
  | @block _ _ _ done Lr Lb _ txs linked wellFormed accepted rest vtx applies same =>
    obtain ⟨-, hsameR⟩ := ledger'.unique rest
    obtain ⟨rfl, -⟩ := applies'.unique applies hsameR (vtx'.trans vtx.symm)
    have hback := (ChainLedger.applied htxids hch wellFormed linked accepted rest (rest.sound htxids hch.2.2) vtx
      applies).2 L
    rw [same.withCoins_eq, ← kept'] at hback
    obtain ⟨c1', hrun1, hsim1⟩ := disconnectTxs_forward _ (hsim.child.filled hfill) hback
    cases hrun1.symm.trans htxs
    rw [hrt] at hpop
    obtain ⟨L2, hpopL, hsim2⟩ := (popAnchor_sim rt).backward hsim1 hpop
    have hset : (setBestBlock (some p)).run c2 = .ok ((), c2.setBestBlock (some p)) := rfl
    obtain ⟨L3, hsetL, hsim3⟩ := (setBestBlock_sim p).backward hsim2 hset
    cases hsetL
    rw [hp] at hwrite
    obtain ⟨L4, hsim4, hsame4⟩ := written hsim3 hwrite
    have hsame : Lr.SameCoins L4 := by
      have hpop' := sameCoins_popAnchor (popAnchor_run_ok.1 hpopL)
      exact ⟨hpop'.coins.trans hsame4.coins, hpop'.nullifiers.trans hsame4.nullifiers⟩
    refine ⟨hch.2.2, ⟨done, L4, hsim4.filled (assertBestAnchor_ok hfill'), rest.sameCoins hsame⟩, fun h undo hl => hs.undo h undo ?_⟩
    rwa [hundo] at hl

theorem step (htxids : tree.DistinctTxids) (hs : Consistent env tree s) (hstep : ChainState.Step env tree s s') :
    Consistent env tree s' := by
  cases hstep with
  | connect found accepted run => exact hs.connect found accepted run
  | disconnect run => exact hs.disconnect htxids run
  | read read run =>
    obtain ⟨done, L, hsim, hled⟩ := hs.ledger
    exact ⟨hs.isChain, ⟨done, L, hsim.filled (exec_isRead read run), hled⟩, hs.undo⟩
  | flush run =>
    obtain ⟨done, L, hsim, hled⟩ := hs.ledger
    obtain ⟨L', hsim', hsame⟩ := flushed hsim run
    exact ⟨hs.isChain, ⟨done, L', hsim', hled.sameCoins hsame⟩, hs.undo⟩

theorem of_reached (htxids : tree.DistinctTxids) (h : s.Reached env tree) : Consistent env tree s := by
  induction h with
  | refl => exact start env tree
  | tail _ hstep ih => exact ih.step htxids hstep

end Consistent

def smallGenesis : CBlock where
  header := ⟨4, 0, 0, 0, 1, 0, 0, []⟩
  vtx := [⟨1, [⟨⟨0, 2 ^ 32 - 1⟩, [1, 1], 0⟩], [⟨0, []⟩], [], 9, 0, nullSig⟩]

/-- A block on the genesis block whose second transaction moves the subsidy into the pool. -/
def shieldingBlock : CBlock where
  header := ⟨4, 1, 0, 0, 2, 0, 0, []⟩
  vtx :=
    [⟨1, [⟨⟨0, 2 ^ 32 - 1⟩, [0x51, 1], 2 ^ 32 - 1⟩], [⟨50 * COIN, []⟩], [], 10, 0, nullSig⟩,
     ⟨2, [⟨⟨10, 0⟩, [], 2 ^ 32 - 1⟩], [], [⟨50 * COIN, 0, 29, #v[5, 6], #v[7, 8], 0,
       #v[nullCiphertext, nullCiphertext], 0, #v[0, 0], {}⟩], 11, 0, nullSig⟩]

def smallFind (h : Uint256) : Option (CBlock × BlockIndex) :=
  if h = 1 then some (smallGenesis, ⟨1, 0, none, by decide⟩)
  else if h = 2 then some (shieldingBlock, ⟨2, 1, some 1, by decide⟩) else none

omit [MerkleHash Uint256] in
theorem smallFind_eq_some {h : Uint256} {block : CBlock} {index : BlockIndex} (hfind : smallFind h = some (block, index)) :
    h = 1 ∧ block = smallGenesis ∧ index = ⟨1, 0, none, by decide⟩ ∨
    h = 2 ∧ block = shieldingBlock ∧ index = ⟨2, 1, some 1, by decide⟩ := by
  unfold smallFind at hfind
  split at hfind
  · cases hfind
    exact Or.inl ⟨‹_›, rfl, rfl⟩
  · split at hfind
    · cases hfind
      exact Or.inr ⟨‹_›, rfl, rfl⟩
    · cases hfind

def smallTree : BlockTree plainEnv where
  find := smallFind
  hash h := by rcases smallFind_eq_some h with ⟨rfl, rfl, rfl⟩ | ⟨rfl, rfl, rfl⟩ <;> decide
  genesis h hp := by
    rcases smallFind_eq_some h with ⟨rfl, rfl, rfl⟩ | ⟨rfl, rfl, rfl⟩
    · decide
    · cases hp
  parent h hp := by
    rcases smallFind_eq_some h with ⟨rfl, rfl, rfl⟩ | ⟨rfl, rfl, rfl⟩
    · cases hp
    · cases hp
      exact ⟨by decide, rfl, _, _, rfl, rfl⟩
  height h := by rcases smallFind_eq_some h with ⟨rfl, rfl, rfl⟩ | ⟨rfl, rfl, rfl⟩ <;> decide

/-- Accept and connect the blocks with the given hashes one after the other, or disconnect the tip. -/
def ChainState.replay {env : Env} (tree : BlockTree env) : List (Option Uint256) → ChainState → Except Fault ChainState
  | [], s => .ok s
  | none :: steps, s => do
    let s ← s.disconnectTip env
    s.replay tree steps
  | some h :: steps, s =>
    match tree.find h with
    | none => .error (.error "no such block")
    | some (block, index) => do
      let _ ← (if 1 ≤ index.nHeight then contextualCheckBlock block index.nHeight else pure ())
      let s ← s.connectTip env block index true
      s.replay tree steps

theorem ChainState.reached_of_replay {env : Env} {tree : BlockTree env} {steps : List (Option Uint256)}
    {s s' : ChainState} (hs : s.Reached env tree) (h : s.replay tree steps = .ok s') : s'.Reached env tree := by
  induction steps generalizing s with
  | nil =>
    cases h
    exact hs
  | cons step steps ih =>
    cases step with
    | none =>
      obtain ⟨s1, hrun, h⟩ := except_bind_ok.1 h
      exact ih (hs.tail (.disconnect hrun)) h
    | some hash =>
      unfold replay at h
      split at h
      · cases h
      · rename_i block index hfound
        obtain ⟨_, hacc, h⟩ := except_bind_ok.1 h
        obtain ⟨s1, hrun, h⟩ := except_bind_ok.1 h
        refine ih (hs.tail (.connect hfound (fun hlow => ?_) hrun)) h
        rwa [if_pos hlow] at hacc

end LitecoinZ
