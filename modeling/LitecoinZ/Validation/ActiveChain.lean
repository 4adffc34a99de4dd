import LitecoinZ.Coins.BestPointers
import LitecoinZ.Chain.BlockTree
import LitecoinZ.Validation.ContextualCheck
import LitecoinZ.Validation.Ledger

/-!
# The active chain

`ConnectTip` and `DisconnectTip` of `main.cpp`: a block is connected to, or disconnected from, a new cache over
`pcoinsTip`, which is then flushed.  The blocks come from a tree that grows from the genesis block.  Between two blocks
`pcoinsTip` may be read, by the mempool, the wallet or a block that is refused, and flushed to the database.
-/

namespace LitecoinZ

variable [MerkleHash Uint256]

/-- `assert(pcoinsTip->GetAnchorAt(pcoinsTip->GetBestAnchor(), tree))`. -/
def CCoinsViewCache.assertBestAnchor (c : CCoinsViewCache) (tree : String) : Except Fault CCoinsViewCache :=
  let (root, c) := c.getBestAnchor
  match c.getAnchorAt (root.getD 0) with
  | (none, _) => .error (.assertion ("pcoinsTip->GetAnchorAt(pcoinsTip->GetBestAnchor(), " ++ tree ++ ")"))
  | (some _, c) => .ok c

/-- `CCoinsViewCache view(pcoinsTip)`. -/
def CCoinsViewCache.child (c : CCoinsViewCache) : CCoinsViewCache := ⟨{}, c.toView⟩

/-- `assert(view.Flush())`, after which the view goes away and its parent is used. -/
def CCoinsViewCache.flushToParent (view : CCoinsViewCache) : Except Fault CCoinsViewCache := do
  let view ← view.flush
  match view.base with
  | .cache layer base => .ok ⟨layer, base⟩
  | _ => .error (.assertion "view.Flush()")

/-- `pcoinsTip`, `chainActive` with its blocks, the last one first, and the undo information on disk. -/
structure ChainState where
  coinsTip : CCoinsViewCache
  chain : List (CBlock × BlockIndex) := []
  undo : KeyMap Uint256 CBlockUndo := ∅

namespace ChainState

/-- An empty database under a new cache. -/
def start : ChainState := { coinsTip := ⟨{}, .db {}⟩ }

/-- Undo information is written for a block that has none yet. -/
def recordUndo (s : ChainState) (h : Uint256) (undo : Option CBlockUndo) : KeyMap Uint256 CBlockUndo :=
  match s.undo.lookup h with
  | some _ => s.undo
  | none => s.undo.put h undo

def connectTip (env : Env) (block : CBlock) (index : BlockIndex) (fExpensiveChecks : Bool) (s : ChainState) :
    Except Fault ChainState := do
  reject (index.pprev ≠ tipHash s.chain) (.assertion "pindexNew->pprev == chainActive.Tip()")
  let coinsTip ← s.coinsTip.assertBestAnchor "oldTree"
  let (result, view) ← (connectBlock env block index fExpensiveChecks false).run coinsTip.child
  let coinsTip ← view.flushToParent
  pure { coinsTip, chain := (block, index) :: s.chain, undo := s.recordUndo index.hash (result.bind (·.undo)) }

def disconnectTip (env : Env) (s : ChainState) : Except Fault ChainState :=
  match s.chain with
  | [] => .error (.assertion "pindexDelete")
  | (block, index) :: chain => do
    let (clean, view) ← (disconnectBlock env block index (s.undo.lookup index.hash)).run s.coinsTip.child
    reject (!clean) (.error "DisconnectTip(): DisconnectBlock failed")
    let coinsTip ← view.flushToParent
    let coinsTip ← coinsTip.assertBestAnchor "newTree"
    pure { s with coinsTip, chain }

end ChainState

/-- What happens to the chain state: a block of the tree, which passed `ContextualCheckBlock` when it was accepted,
becomes the tip, the tip goes, `pcoinsTip` is read, or it is flushed. -/
inductive ChainState.Step (env : Env) (tree : BlockTree env) : ChainState → ChainState → Prop
  | connect {s s' : ChainState} {h : Uint256} {block : CBlock} {index : BlockIndex} {fExpensiveChecks : Bool}
      (found : tree.find h = some (block, index))
      (accepted : 1 ≤ index.nHeight → contextualCheckBlock block index.nHeight = .ok ())
      (run : s.connectTip env block index fExpensiveChecks = .ok s') : Step env tree s s'
  | disconnect {s s' : ChainState} (run : s.disconnectTip env = .ok s') : Step env tree s s'
  | read {s : ChainState} {op : CacheOp} {coinsTip : CCoinsViewCache} (read : op.isRead = true)
      (run : s.coinsTip.exec op = .ok coinsTip) : Step env tree s { s with coinsTip }
  | flush {s : ChainState} {coinsTip : CCoinsViewCache} (run : s.coinsTip.flush = .ok coinsTip) :
      Step env tree s { s with coinsTip }

/-- The states that any run of steps leads to. -/
abbrev ChainState.Reached (env : Env) (tree : BlockTree env) (s : ChainState) : Prop :=
  Relation.ReflTransGen (ChainState.Step env tree) .start s

open StateExcept ViewM

variable {c c' : CCoinsViewCache}

theorem assertBestAnchor_ok {tree : String} (h : c.assertBestAnchor tree = .ok c') :
    Filled c.toView c'.toView := by
  unfold CCoinsViewCache.assertBestAnchor at h
  dsimp only at h
  split at h
  · cases h
  · rename_i t c'' hread
    cases h
    have hf := (c.getBestAnchor.2.getAnchorAt_reads (c.getBestAnchor.1.getD 0)).2
    rw [hread] at hf
    exact c.getBestAnchor_reads.2.trans hf

omit [MerkleHash Uint256] in
theorem flushToParent_ok (h : c.flushToParent = .ok c') :
    c.base.batchWrite c.layer = .ok c'.toView := by
  obtain ⟨view, hflush, h⟩ := except_bind_ok.1 h
  obtain ⟨v, hwrite, -, rfl⟩ := flush_ok hflush
  split at h
  · rename_i layer base hbase
    cases h
    rw [hwrite, hbase]
    rfl
  · cases h

theorem Simulates.child {P : Uint256 → ZCIncrementalMerkleTree → Prop} {L : Ledger} (h : Simulates P c L) :
    Simulates P c.child L := by
  have hno : CacheLayer.NoEntries {} := ⟨rfl, rfl, rfl⟩
  exact ⟨⟨hno.coherent _, h.coherent⟩, ⟨hno.anchored P, h.anchored⟩, h.answers⟩

namespace ChainState

omit [MerkleHash Uint256] in
theorem lookup_recordUndo {s : ChainState} {h h' : Uint256} {undo : Option CBlockUndo} {undo' : CBlockUndo}
    (hlook : (s.recordUndo h undo).lookup h' = some undo') :
    s.undo.lookup h' = some undo' ∨ h' = h ∧ undo = some undo' := by
  unfold recordUndo at hlook
  split at hlook
  · exact .inl hlook
  · rw [KeyMap.lookup_put] at hlook
    split at hlook
    · exact .inr ⟨‹_›, hlook⟩
    · exact .inl hlook

theorem connectTip_ok {env : Env} {block : CBlock} {index : BlockIndex} {fExpensiveChecks : Bool} {s s' : ChainState}
    (h : s.connectTip env block index fExpensiveChecks = .ok s') :
    index.pprev = tipHash s.chain ∧ s'.chain = (block, index) :: s.chain ∧
    ∃ (c view : CCoinsViewCache) (result : Option ConnectResult), s.coinsTip.assertBestAnchor "oldTree" = .ok c ∧
      (connectBlock env block index fExpensiveChecks false).run c.child = .ok (result, view) ∧
      view.base.batchWrite view.layer = .ok s'.coinsTip.toView ∧
      s'.undo = s.recordUndo index.hash (result.bind (·.undo)) := by
  simp only [connectTip, except_bind_ok] at h
  obtain ⟨_, hprev, c, hanc, ⟨result, view⟩, hrun, coinsTip, hflush, h⟩ := h
  cases h
  exact ⟨reject_ne_ok.1 hprev, rfl, c, view, result, hanc, hrun, flushToParent_ok hflush, rfl⟩

theorem disconnectTip_ok {env : Env} {s s' : ChainState} (h : s.disconnectTip env = .ok s') :
    ∃ (block : CBlock) (index : BlockIndex) (undo : CBlockUndo) (c c1 c2 : CCoinsViewCache),
      s.chain = (block, index) :: s'.chain ∧ s'.undo = s.undo ∧ s.undo.lookup index.hash = some undo ∧
      Filled s.coinsTip.child.toView c.toView ∧
      (disconnectTxs env index (withUndo block undo).reverse).run c = .ok (true, c1) ∧
      (popAnchor undo.old_tree_root).run c1 = .ok ((), c2) ∧
      ∃ coinsTip : CCoinsViewCache,
        c2.base.batchWrite (c2.setBestBlock index.pprev).layer = .ok coinsTip.toView ∧
        coinsTip.assertBestAnchor "newTree" = .ok s'.coinsTip := by
  unfold disconnectTip at h
  split at h
  · cases h
  rename_i block index chain hchain
  simp only [except_bind_ok] at h
  obtain ⟨⟨clean, view⟩, hrun, _, hclean, c3, hflush, c4, hanc, h⟩ := h
  cases h
  obtain ⟨best, _, hbest, hrun1⟩ := run_bind_ok.1 hrun
  obtain ⟨_, _, hrej, hrun2⟩ := run_bind_ok.1 hrun1
  obtain ⟨-, rfl⟩ := run_lift_ok.1 hrej
  cases hundo : s.undo.lookup index.hash with
  | none =>
    rw [hundo] at hrun2
    cases hrun2
  | some undo =>
    simp only [hundo, run_bind_ok, run_lift_ok] at hrun2
    obtain ⟨_, c, ⟨-, rfl⟩, clean', c1, htxs, _, c2, hpop, _, _, hset, hpure⟩ := hrun2
    obtain ⟨rfl, rfl⟩ := run_pure_ok.1 hpure
    cases hset
    obtain rfl : clean = true := by simpa using reject_ok.1 hclean
    have hread := s.coinsTip.child.getBestBlock_reads.2
    rw [show s.coinsTip.child.getBestBlock = (best, c) from Except.ok.inj hbest] at hread
    exact ⟨block, index, undo, c, c1, c2, hchain, rfl, hundo, hread, htxs, hpop, c3, flushToParent_ok hflush,
      hanc⟩

end ChainState

end LitecoinZ
