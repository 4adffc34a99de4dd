import LitecoinZ.Validation.History

/-!
# The anchors of the active chain

Whatever blocks were connected and disconnected before, the anchors of `pcoinsTip` are the roots at the ends of the
blocks of the active chain and the empty root, each with the tree of the commitments up to there, and the best anchor
is the root at the tip (`anchors_exact`).  A block without commitments neither pushes nor pops; what a block pushed is
popped with it, since different sequences of commitments have different roots.
-/

namespace LitecoinZ

open StateExcept ViewM List

variable [MerkleHash Uint256]

def chainCommitments (chain : List (CBlock × BlockIndex)) : List Uint256 :=
  (chainTransactions chain).flatMap CTransaction.commitments

def chainTree (chain : List (CBlock × BlockIndex)) : Except Fault ZCIncrementalMerkleTree :=
  appendCommitments {} (chainCommitments chain)

variable {chain chain' : List (CBlock × BlockIndex)} {t t' : ZCIncrementalMerkleTree}

theorem chainTree_cons {block : CBlock} {index : BlockIndex} (ht : chainTree chain = .ok t)
    (h : appendCommitments t (block.vtx.flatMap CTransaction.commitments) = .ok t') :
    chainTree ((block, index) :: chain) = .ok t' := by
  rw [chainTree, chainCommitments, chainTransactions_cons, flatMap_append]
  exact appendCommitments_append ht h

omit [MerkleHash Uint256] in
private theorem chainCommitments_isPrefixOf (h : chain' <:+ chain) :
    chainCommitments chain' <+: chainCommitments chain := by
  obtain ⟨new, rfl⟩ := h
  refine ⟨chainCommitments new, ?_⟩
  simp [chainCommitments, chainTransactions]

/-- Different sequences of commitments of chains of the tree have different roots. -/
def BlockTree.DistinctRoots {env : Env} (tree : BlockTree env) : Prop :=
  ∀ chain chain' t t', tree.IsChain chain → tree.IsChain chain' → chainTree chain = .ok t → chainTree chain' = .ok t' →
    t.root = t'.root → chainCommitments chain = chainCommitments chain'

theorem BlockTree.DistinctRoots.tree_eq {env : Env} {tree : BlockTree env} (h : tree.DistinctRoots)
     (hc : tree.IsChain chain) (hc' : tree.IsChain chain') (ht : chainTree chain = .ok t)
    (ht' : chainTree chain' = .ok t') (hroot : t.root = t'.root) : t = t' := by
  rw [chainTree, h chain chain' t t' hc hc' ht ht' hroot] at ht
  exact Except.ok.inj (ht.symm.trans ht')

/-- The anchors of a ledger are those of a chain: the tree of each of its blocks, and the empty one. -/
structure ChainAnchors (chain : List (CBlock × BlockIndex)) (L : Ledger) : Prop where
  anchor : ∀ rt t, L.getAnchorAt rt = some t ↔ ∃ chain', chain' <:+ chain ∧ chainTree chain' = .ok t ∧ t.root = rt
  best : ∃ t, chainTree chain = .ok t ∧ L.getBestAnchor = some t.root

namespace ChainAnchors

variable {env : Env} {tree : BlockTree env} {block : CBlock} {index : BlockIndex}
  {chain : List (CBlock × BlockIndex)} {L L' : Ledger} {t t' : ZCIncrementalMerkleTree} {u : ZCIncrementalMerkleTree}

private theorem exists_suffix_cons {rt : Uint256} (ht' : chainTree ((block, index) :: chain) = .ok t')
    (h : chainTree chain = .ok t' ∨ rt ≠ t'.root) :
    (∃ chain', chain' <:+ (block, index) :: chain ∧ chainTree chain' = .ok u ∧ u.root = rt) ↔
      ∃ chain', chain' <:+ chain ∧ chainTree chain' = .ok u ∧ u.root = rt := by
  constructor
  · rintro ⟨chain', hs, hu, hrt⟩
    rcases suffix_cons_iff.1 hs with rfl | hs
    · cases ht'.symm.trans hu
      exact ⟨chain, suffix_rfl, h.resolve_right fun hne => hne hrt.symm, hrt⟩
    · exact ⟨chain', hs, hu, hrt⟩
  · rintro ⟨chain', hs, hu, hrt⟩
    exact ⟨chain', hs.trans (suffix_cons _ _), hu, hrt⟩

theorem push (hroots : tree.DistinctRoots) (hchain : tree.IsChain ((block, index) :: chain)) (h : ChainAnchors chain L)
    (ht' : chainTree ((block, index) :: chain) = .ok t') : ChainAnchors ((block, index) :: chain) (L.pushAnchor t') := by
  obtain ⟨t, ht, hbest⟩ := h.best
  refine ⟨fun rt u => ?_, t', ht', getBestAnchor_pushAnchor L t'⟩
  unfold ViewAnswers.pushAnchor
  by_cases hne : L.getBestAnchor ≠ some t'.root
  · rw [if_pos hne]
    by_cases hrt : rt = t'.root
    · subst hrt
      dsimp only
      rw [Function.update_self, Option.some.injEq]
      constructor
      · rintro rfl
        exact ⟨_, suffix_rfl, ht', rfl⟩
      · rintro ⟨chain', hs, hu, hroot⟩
        exact hroots.tree_eq hchain (hchain.suffix hs) ht' hu hroot.symm
    · dsimp only
      rw [Function.update_of_ne hrt, h.anchor, exists_suffix_cons ht' (.inr hrt)]
  · rw [if_neg hne, h.anchor]
    have hroot : t.root = t'.root := Option.some.inj (hbest.symm.trans (not_not.1 hne))
    obtain rfl := hroots.tree_eq hchain.2.2 hchain ht ht' hroot
    exact (exists_suffix_cons ht' (.inl ht)).symm

theorem pop (hroots : tree.DistinctRoots) (hchain : tree.IsChain ((block, index) :: chain))
    (h : ChainAnchors ((block, index) :: chain) L) (ht : chainTree chain = .ok t)
    (hpop : L.popAnchor (some t.root) = .ok L') : ChainAnchors chain L' := by
  obtain ⟨t', ht', hbest⟩ := h.best
  unfold ViewAnswers.popAnchor at hpop
  rw [hbest] at hpop
  by_cases hne : some t'.root ≠ some t.root
  · rw [if_pos hne] at hpop
    split at hpop
    · cases hpop
    · cases hpop
      refine ⟨fun rt u => ?_, t, ht, rfl⟩
      dsimp only
      by_cases hrt : rt = t'.root
      · subst hrt
        rw [Option.getD_some, Function.update_self]
        refine ⟨fun hu => absurd hu (by simp), ?_⟩
        rintro ⟨chain', hs, hu, hroot⟩
        -- a block before with this root would have all the commitments of this one
        have hcomm := hroots _ _ _ _ (hchain.2.2.suffix hs) hchain hu ht' hroot
        have hle := (chainCommitments_isPrefixOf hs).length_le
        have hpre := chainCommitments_isPrefixOf (suffix_cons (block, index) chain)
        rw [hcomm] at hle
        have hsame : chainCommitments chain = chainCommitments ((block, index) :: chain) := hpre.eq_of_length_le hle
        rw [chainTree, hsame] at ht
        cases ht.symm.trans ht'
        exact absurd rfl hne
      · rw [Option.getD_some, Function.update_of_ne hrt, h.anchor, exists_suffix_cons ht' (.inr hrt)]
  · rw [if_neg hne] at hpop
    cases hpop
    obtain rfl := hroots.tree_eq hchain.2.2 hchain ht ht' (Option.some.inj (not_not.1 hne)).symm
    exact ⟨fun rt u => by rw [h.anchor, exists_suffix_cons ht' (.inl ht)], t, ht, hbest⟩

end ChainAnchors

theorem assertBestAnchor_keepsPointer {c c' : CCoinsViewCache} {tree : String}
    (h : c.assertBestAnchor tree = .ok c') : KeepsPointer c c' := by
  unfold CCoinsViewCache.assertBestAnchor at h
  dsimp only at h
  split at h
  · cases h
  · rename_i t c'' hread
    cases h
    have hk := c.getBestAnchor.2.getAnchorAt_keepsPointer (c.getBestAnchor.1.getD 0)
    rw [hread] at hk
    exact c.getBestAnchor_keepsPointer.trans hk

/-! ### Disconnecting transactions leaves the anchors -/

section

variable {P : Uint256 → ZCIncrementalMerkleTree → Prop}

/-- A run on a stack changes coins and nullifiers only. -/
def KeepsAnchors (P : Uint256 → ZCIncrementalMerkleTree → Prop) {α : Type} (m : ViewM CCoinsViewCache α) : Prop :=
  ∀ c L a c', Simulates P c L → m.run c = .ok (a, c') → ∃ L', Simulates P c' L' ∧ L.withCoins L' = L'

private theorem KeepsAnchors.pure {α : Type} (a : α) : KeepsAnchors P (pure a) := by
  intro c L a' c' hs h
  obtain ⟨-, rfl⟩ := run_pure_ok.1 h
  exact ⟨L, hs, rfl⟩

private theorem KeepsAnchors.lift {α : Type} (x : Except Fault α) : KeepsAnchors P (liftM x) := by
  intro c L a c' hs h
  obtain ⟨-, rfl⟩ := run_lift_ok.1 h
  exact ⟨L, hs, rfl⟩

private theorem KeepsAnchors.bind {α β : Type} {m : ViewM CCoinsViewCache α} {f : α → ViewM CCoinsViewCache β}
    (hm : KeepsAnchors P m) (hf : ∀ a, KeepsAnchors P (f a)) : KeepsAnchors P (m >>= f) := by
  intro c L b c' hs h
  obtain ⟨a, c1, h1, h2⟩ := run_bind_ok.1 h
  obtain ⟨L1, hs1, he1⟩ := hm c L a c1 hs h1
  obtain ⟨L2, hs2, he2⟩ := hf a c1 L1 b c' hs1 h2
  refine ⟨L2, hs2, ?_⟩
  rw [← he2, ← he1]
  rfl

private theorem modifyCoins_keepsAnchors {α : Type} (k : Uint256) (f : CCoins → Except Fault (α × CCoins)) :
    KeepsAnchors P (modifyCoins k f) := by
  intro c L a c' hs h
  obtain ⟨coins, -, hcoh, hanch, hnorm⟩ := CCoinsViewCache.modifyCoins_ok hs.coherent h
  refine ⟨_, ⟨hcoh, hanch P hs.anchored, rfl⟩, ?_⟩
  rw [hnorm, ← hs.answers]
  rfl

private theorem setNullifiers_keepsAnchors (spent : Bool) (nfs : List Uint256) :
    KeepsAnchors P (setNullifiers spent nfs) := by
  induction nfs with
  | nil => exact .pure ()
  | cons nf nfs ih =>
    refine KeepsAnchors.bind ?_ fun _ => ih
    intro c L a c' hs h
    obtain ⟨L', hL', hs'⟩ := (setNullifier_sim nf spent).backward hs h
    cases hL'
    exact ⟨_, hs', rfl⟩

private theorem restoreInputs_keepsAnchors (spent : List (CTxIn × CTxInUndo)) : KeepsAnchors P (restoreInputs spent) := by
  induction spent with
  | nil => exact .pure true
  | cons p spent ih => exact (modifyCoins_keepsAnchors _ _).bind fun _ => ih.bind fun _ => .pure _

theorem disconnectTxs_keepsAnchors (env : Env) (index : BlockIndex) (vtx : List (CTransaction × Option CTxUndo)) :
    KeepsAnchors P (disconnectTxs env index vtx) := by
  induction vtx with
  | nil => exact .pure true
  | cons p vtx ih =>
    refine KeepsAnchors.bind ?_ fun _ => ih.bind fun _ => .pure _
    refine (modifyCoins_keepsAnchors _ _).bind fun clean => (setNullifiers_keepsAnchors _ _).bind fun _ => ?_
    cases p.2 with
    | none => exact .pure clean
    | some txundo => exact (KeepsAnchors.lift _).bind fun _ => (restoreInputs_keepsAnchors _).bind fun _ => .pure _

variable {c c' : CCoinsViewCache}

private theorem written_anchors (hone : OneTree P) {L : Ledger} (hs : Simulates P c L) (hp : c.layer.hashAnchor ≠ none)
    (h : c.base.batchWrite c.layer = .ok c'.toView) :
    ∃ L', Simulates P c' L' ∧ L'.getAnchorAt = L.getAnchorAt ∧ L'.getBestAnchor = L.getBestAnchor ∧
      c'.layer.hashAnchor ≠ none := by
  obtain ⟨l, b⟩ := c
  cases b with
  | other a => cases h
  | db d =>
    obtain ⟨d', hd, -⟩ := batchWrite_db hs.coherent
    cases hd.symm.trans h
  | cache p b =>
    obtain ⟨p', hp', hcoh, -, hptr, -, hanch⟩ := batchWrite_cache hs.coherent
    obtain ⟨hanch, hat⟩ := hanch P hs.anchored
    obtain ⟨l', b'⟩ := c'
    cases hp'.symm.trans h
    obtain ⟨rt, hrt⟩ := Option.ne_none_iff_exists'.1 hp
    rw [← hs.answers]
    refine ⟨_, ⟨hcoh, hanch, rfl⟩, funext (hat hone), ?_, hptr ▸ hp⟩
    have hrt' : l'.hashAnchor = some rt := hptr.trans hrt
    simp only [CCoinsViewCache.answers, CCoinsViewCache.toView, CCoinsView.answers, CacheLayer.answersOver,
      ViewAnswers.norm]
    rw [hrt', show l.hashAnchor = some rt from hrt]
    rfl

/-- So is a flushed one, or one right above the database, which keeps what it is not told. -/
private theorem flushed_anchors (hone : OneTree P) {L : Ledger} (hs : Simulates P c L)
    (hp : c.layer.hashAnchor ≠ none ∨ ∃ d, c.base = .db d)
    (hempty : L.getAnchorAt (emptyRoot Uint256 INCREMENTAL_MERKLE_TREE_DEPTH) = some {}) (h : c.flush = .ok c') :
    ∃ L', Simulates P c' L' ∧ L'.getAnchorAt = L.getAnchorAt ∧ L'.getBestAnchor = L.getBestAnchor ∧
      c'.layer.hashAnchor = c.layer.hashAnchor ∧
      ∀ d, c.base = .db d → ∃ d', c'.base = .db d' ∧ some d'.getBestAnchor = L.getBestAnchor := by
  have hno : CacheLayer.NoEntries { hashBlock := c.layer.hashBlock, hashAnchor := c.layer.hashAnchor } := ⟨rfl, rfl, rfl⟩
  obtain ⟨l, b⟩ := c
  cases b with
  | other a => cases h
  | db d =>
    obtain ⟨d', hd, -, -, hbest, hat, hanch⟩ := batchWrite_db hs.coherent
    obtain ⟨v, hv, h⟩ := except_bind_ok.1 h
    cases hd.symm.trans hv
    cases h
    refine ⟨_, ⟨⟨hno.coherent _, trivial⟩, ⟨hno.anchored P, hanch P hs.anchored⟩, rfl⟩, funext fun rt => ?_, ?_, rfl,
      fun _ _ => ⟨d', rfl, ?_⟩⟩
    · by_cases hrt : rt = emptyRoot Uint256 INCREMENTAL_MERKLE_TREE_DEPTH
      · rw [hrt, hempty]
        exact if_pos rfl
      · rw [← hs.answers]
        exact hat rt hrt
    · rw [← hs.answers]
      change (l.hashAnchor <|> some d'.getBestAnchor) = (l.hashAnchor <|> some d.getBestAnchor)
      change some d'.getBestAnchor = (l.hashAnchor <|> some d.getBestAnchor) at hbest
      rw [hbest]
      cases l.hashAnchor <;> rfl
    · rw [← hs.answers]
      exact hbest
  | cache p b =>
    obtain ⟨rt, hrt⟩ := Option.ne_none_iff_exists'.1 (hp.resolve_right fun ⟨d, hd⟩ => by cases hd)
    obtain ⟨p', hp', hcoh, -, -, -, hanch⟩ := batchWrite_cache hs.coherent
    obtain ⟨hanch, hat⟩ := hanch P hs.anchored
    obtain ⟨v, hv, h⟩ := except_bind_ok.1 h
    cases hp'.symm.trans hv
    cases h
    rw [← hs.answers]
    refine ⟨_, ⟨⟨hno.coherent _, hcoh⟩, ⟨hno.anchored P, hanch⟩, rfl⟩, funext (hat hone), ?_, rfl,
      fun d hd => by cases hd⟩
    change (l.hashAnchor <|> _) = (l.hashAnchor <|> _)
    rw [show l.hashAnchor = some rt from hrt]
    rfl

end

/-! ### Steps -/

/-- `t` is the tree of a chain of the block tree, and `rt` its root. -/
def BlockTree.TreeAt {env : Env} (tree : BlockTree env) (rt : Uint256) (t : ZCIncrementalMerkleTree) : Prop :=
  ∃ chain, tree.IsChain chain ∧ chainTree chain = .ok t ∧ t.root = rt

theorem BlockTree.DistinctRoots.oneTree {env : Env} {tree : BlockTree env} (h : tree.DistinctRoots) :
    OneTree tree.TreeAt := by
  rintro rt t t' ⟨chain, hc, ht, hrt⟩ ⟨chain', hc', ht', hrt'⟩
  exact h.tree_eq hc hc' ht ht' (hrt.trans hrt'.symm)

theorem ChainAnchors.congr {L L' : Ledger} (h : ChainAnchors chain L) (hat : L'.getAnchorAt = L.getAnchorAt)
    (hbest : L'.getBestAnchor = L.getBestAnchor) : ChainAnchors chain L' :=
  ⟨by rw [hat]; exact h.anchor, by rw [hbest]; exact h.best⟩

/-- What every step keeps: the anchors of `pcoinsTip` are those of the chain, it holds its best anchor or is right
above the database, which before the genesis block has no best anchor but the empty root, and undo information holds
the root before its block. -/
structure AnchorsConsistent (env : Env) (tree : BlockTree env) (s : ChainState) : Prop where
  isChain : tree.IsChain s.chain
  ledger : ∃ L, Simulates tree.TreeAt s.coinsTip L ∧ ChainAnchors s.chain L
  pointer : s.coinsTip.layer.hashAnchor ≠ none ∨ ∃ d, s.coinsTip.base = .db d
  early : s.chain = [] →
    ∃ d, s.coinsTip.base = .db d ∧ d.getBestAnchor = emptyRoot Uint256 INCREMENTAL_MERKLE_TREE_DEPTH
  undo : ∀ h undo, s.undo.lookup h = some undo → ∃ block index chain t, index.hash = h ∧
    tree.IsChain ((block, index) :: chain) ∧ index.pprev ≠ none ∧ chainTree chain = .ok t ∧
    undo.old_tree_root = some t.root

namespace AnchorsConsistent

variable {env : Env} {tree : BlockTree env} {s s' : ChainState}

theorem start (env : Env) (tree : BlockTree env) : AnchorsConsistent env tree .start := by
  have hno : CacheLayer.NoEntries {} := ⟨rfl, rfl, rfl⟩
  have hroot := @IncrementalMerkleTree.root_empty INCREMENTAL_MERKLE_TREE_DEPTH Uint256 _ (by decide)
  have hdb : ∀ rt (t : ZCIncrementalMerkleTree), CCoinsViewDB.getAnchorAt {} rt = some t ↔
      rt = emptyRoot Uint256 INCREMENTAL_MERKLE_TREE_DEPTH ∧ t = {} := by
    intro rt t
    unfold CCoinsViewDB.getAnchorAt
    split
    · simp [*, eq_comm]
    · simp [*]
  refine ⟨trivial, ⟨_, ⟨⟨hno.coherent _, trivial⟩, ⟨hno.anchored _, fun rt t ht => ?_⟩, rfl⟩, ?_⟩, Or.inr ⟨_, rfl⟩,
    fun _ => ⟨_, rfl, rfl⟩, fun h undo hlook => by cases hlook⟩
  · obtain ⟨rfl, rfl⟩ := (hdb rt t).1 ht
    exact ⟨[], trivial, rfl, hroot⟩
  · refine ⟨fun rt t => (hdb rt t).trans ⟨?_, ?_⟩, {}, rfl, by rw [hroot]; rfl⟩
    · rintro ⟨rfl, rfl⟩
      exact ⟨[], suffix_rfl, rfl, hroot⟩
    · rintro ⟨chain', hs, ht, rfl⟩
      rw [suffix_nil.1 hs] at ht
      cases ht
      exact ⟨hroot, rfl⟩

variable {c : CCoinsViewCache} {index : BlockIndex} {fExpensiveChecks : Bool}

theorem read (hs : AnchorsConsistent env tree s) (hf : Filled s.coinsTip.toView c.toView)
    (hk : KeepsPointer s.coinsTip c) : AnchorsConsistent env tree { s with coinsTip := c } := by
  obtain ⟨L, hsim, hanch⟩ := hs.ledger
  refine ⟨hs.isChain, ⟨L, hsim.filled hf, hanch⟩, ?_, fun hnil => ?_, hs.undo⟩
  · exact hs.pointer.imp hk.pointer fun ⟨d, hd⟩ => ⟨d, hk.base d hd⟩
  · obtain ⟨d, hd, hbest⟩ := hs.early hnil
    exact ⟨d, hk.base d hd, hbest⟩

private theorem tree_of_connectTxs {chain : List (CBlock × BlockIndex)} {block : CBlock} {L L' : Ledger}
    {t : ZCIncrementalMerkleTree} {acc : BlockAcc} (h : ChainAnchors chain L)
    (ht : L.getAnchorAt (L.getBestAnchor.getD 0) = some t) (hroots : tree.DistinctRoots) (hchain : tree.IsChain chain)
    (hrun : (connectTxs env index fExpensiveChecks true block.vtx { tree := t }).run L = .ok (acc, L')) :
    chainTree ((block, index) :: chain) = .ok acc.tree := by
  obtain ⟨u, hu, hbest⟩ := h.best
  rw [hbest, Option.getD_some] at ht
  obtain ⟨chain', hs, ht', hroot⟩ := (h.anchor _ _).1 ht
  obtain rfl := hroots.tree_eq (hchain.suffix hs) hchain ht' hu hroot
  exact chainTree_cons hu (connectTxs_ok hrun).1

/-- The genesis block is connected by a view that has not asked for the best anchor: flushing it makes `pcoinsTip`
forget its own, but the database still has the empty root. -/
private theorem genesis_written {c' : CCoinsViewCache} {h : Uint256} {d : CCoinsViewDB} {L : Ledger}
    (hone : OneTree tree.TreeAt) (hd : c.base = .db d)
    (hs : Simulates tree.TreeAt (c.child.getBestBlock.2.setBestBlock (some h)) L)
    (hwrite : (c.child.getBestBlock.2.setBestBlock (some h)).base.batchWrite
      (c.child.getBestBlock.2.setBestBlock (some h)).layer = .ok c'.toView) :
    ∃ L', Simulates tree.TreeAt c' L' ∧ L'.getAnchorAt = L.getAnchorAt ∧
      L'.getBestAnchor = some d.getBestAnchor ∧ c'.base = .db d := by
  have hview : c.child.getBestBlock.2.setBestBlock (some h) =
      ⟨{ hashBlock := some h }, c.getBestBlock.2.toView⟩ := rfl
  rw [hview] at hs hwrite
  have hbase := c.getBestBlock_keepsPointer.base d hd
  generalize c.getBestBlock.2 = c1 at hs hwrite hbase
  obtain ⟨p, b⟩ := c1
  obtain rfl : b = .db d := hbase
  obtain ⟨p', hp', hcoh, -, hptr, -, hanch⟩ := batchWrite_cache hs.coherent
  obtain ⟨hanch, hat⟩ := hanch _ hs.anchored
  obtain ⟨l', b'⟩ := c'
  cases hp'.symm.trans hwrite
  rw [← hs.answers]
  refine ⟨_, ⟨hcoh, hanch, rfl⟩, funext (hat hone), ?_, rfl⟩
  change (l'.hashAnchor <|> some d.getBestAnchor) = _
  rw [show l'.hashAnchor = none from hptr]
  rfl

section

variable (hroots : tree.DistinctRoots) (hs : AnchorsConsistent env tree s)
include hroots hs

theorem connect {h : Uint256} {block : CBlock} (hfound : tree.find h = some (block, index))
    (hrun : s.connectTip env block index fExpensiveChecks = .ok s') : AnchorsConsistent env tree s' := by
  obtain ⟨hprev, hchain', c, view, result, hass, hcon, hwrite, hundo⟩ := ChainState.connectTip_ok hrun
  obtain ⟨L, hsim, hanch⟩ := hs.ledger
  obtain ⟨rfl, hblock⟩ := tree.hash hfound
  have hchain : tree.IsChain ((block, index) :: s.chain) := ⟨hfound, hprev, hs.isChain⟩
  have hpush : ∀ t acc L', L.getAnchorAt (L.getBestAnchor.getD 0) = some t →
      (connectTxs env index fExpensiveChecks true block.vtx { tree := t }).run L = .ok (acc, L') →
      tree.TreeAt acc.tree.root acc.tree :=
    fun t acc L' ht htxs => ⟨_, hchain, tree_of_connectTxs hanch ht hroots hs.isChain htxs, rfl⟩
  obtain ⟨L', hL', hsim'⟩ := (connectBlock_sim env block index fExpensiveChecks false hpush).backward
    ⟨rfl, (hsim.filled (assertBestAnchor_ok hass)).child⟩ hcon
  by_cases hroot : index.pprev = none
  · have hnil : s.chain = [] := by
      cases hc : s.chain with
      | nil => rfl
      | cons p chain =>
        rw [hroot, hc] at hprev
        cases hprev
    obtain ⟨hgen, -, htail, -⟩ := tree.genesis hfound hroot
    obtain ⟨d, hd, hbest⟩ := hs.early hnil
    obtain ⟨hwf, -, rfl⟩ := connectBlock_genesis_ok (hblock.trans hgen) hL'
    obtain ⟨-, hnone, rfl⟩ := connectBlock_genesis_ok (hblock.trans hgen) hcon
    obtain ⟨L'', hsim'', hat, hbest'', hbase⟩ :=
      genesis_written hroots.oneTree ((assertBestAnchor_keepsPointer hass).base d hd) hsim' hwrite
    obtain ⟨-, -, hcomm⟩ := hwf.silent htail
    have htree : chainTree s.chain = .ok {} := by rw [hnil]; rfl
    have htree' : chainTree ((block, index) :: s.chain) = .ok {} := chainTree_cons htree (by rw [hcomm]; rfl)
    have hempty := @IncrementalMerkleTree.root_empty INCREMENTAL_MERKLE_TREE_DEPTH Uint256 _ (by decide)
    refine ⟨hchain' ▸ hchain, ⟨L'', hsim'', ?_⟩, Or.inr ⟨d, hbase⟩, fun hn => ?_, fun h undo hlook => ?_⟩
    · rw [hchain']
      refine ⟨fun rt t => ?_, {}, htree', by rw [hbest'', hbest, hempty]⟩
      rw [hat, ChainAnchors.exists_suffix_cons htree' (.inl htree)]
      exact hanch.anchor rt t
    · rw [hchain'] at hn
      cases hn
    · rw [hundo, hnone] at hlook
      rcases ChainState.lookup_recordUndo hlook with hold | ⟨-, hnew⟩
      · exact hs.undo h undo hold
      · cases hnew
  · obtain ⟨p, hp⟩ := Option.ne_none_iff_exists'.1 hroot
    obtain ⟨hgen, -⟩ := tree.parent hfound hp
    obtain ⟨r, undo, -, -, rfl, hr, -⟩ := connectBlock_pushes (hblock.symm ▸ hgen) hL'
    obtain ⟨-, -, pushed, c0, -, -, hview⟩ := connectBlock_pushes (hblock.symm ▸ hgen) hcon
    obtain ⟨t, t', txs, L1, hc⟩ := (connectBlock_ok hL' hr).connects
    have hptr : view.layer.hashAnchor ≠ none := by
      rw [hview]
      exact c0.pushAnchor_pointer pushed
    obtain ⟨L'', hsim'', hat, hbest, hptr'⟩ := written_anchors hroots.oneTree hsim' hptr hwrite
    obtain ⟨u, hu, hubest⟩ := hanch.best
    obtain rfl : u = t := by
      obtain ⟨chain', hsuffix, ht, -⟩ := (hanch.anchor _ _).1 hc.anchor
      refine hroots.tree_eq hs.isChain (hs.isChain.suffix hsuffix) hu ht ?_
      exact Option.some.inj (hubest.symm.trans hc.bestAnchor)
    have hL1 : ChainAnchors s.chain L1 := by
      rw [← hc.applies.frame]
      exact hanch.congr rfl rfl
    have hpushed := hL1.push hroots hchain (chainTree_cons hu hc.commitments)
    refine ⟨hchain' ▸ hchain, ⟨L'', hsim'', ?_⟩, Or.inl hptr', fun hn => ?_, fun h undo' hlook => ?_⟩
    · rw [hchain']
      refine hpushed.congr (hat.trans ?_) (hbest.trans ?_)
      · rw [hc.ledger]
      · rw [hc.ledger]
    · rw [hchain'] at hn
      cases hn
    · rw [hundo] at hlook
      rcases ChainState.lookup_recordUndo hlook with hold | ⟨rfl, hnew⟩
      · exact hs.undo h undo' hold
      · obtain rfl : undo = undo' := Option.some.inj (hr.symm.trans hnew)
        exact ⟨block, index, s.chain, u, rfl, hchain, hroot, hu, hc.old_tree_root⟩

theorem disconnect (hrun : s.disconnectTip env = .ok s') : AnchorsConsistent env tree s' := by
  obtain ⟨block, index, undo, c, c1, c2, hchain, hundo, hlook, hfill, htxs, hpop, coinsTip, hwrite, hass⟩ :=
    ChainState.disconnectTip_ok hrun
  obtain ⟨L, hsim, hanch⟩ := hs.ledger
  have hch := hs.isChain
  rw [hchain] at hanch hch
  obtain ⟨block', index', chain', t, hhash, hch', hlink, ht, hrt⟩ := hs.undo _ undo hlook
  have hfound := hch'.1
  rw [hhash] at hfound
  cases hfound.symm.trans hch.1
  obtain rfl := hch'.unique hch
  obtain ⟨p, hp⟩ := Option.ne_none_iff_exists'.1 hlink
  obtain ⟨L1, hsim1, hL1⟩ := disconnectTxs_keepsAnchors env index _ c L true c1 (hsim.child.filled hfill) htxs
  rw [hrt] at hpop
  obtain ⟨L2, hpopL, hsim2⟩ := (popAnchor_sim t.root).backward hsim1 hpop
  have hset : (setBestBlock (some p)).run c2 = .ok ((), c2.setBestBlock (some p)) := rfl
  obtain ⟨L3, hsetL, hsim3⟩ := (setBestBlock_sim p).backward hsim2 hset
  cases hsetL
  rw [hp] at hwrite
  have hptr : c2.layer.hashAnchor ≠ none := CCoinsViewCache.popAnchor_pointer (popAnchor_run_ok.1 hpop)
  obtain ⟨L4, hsim4, hat, hbest, hptr'⟩ := written_anchors hroots.oneTree hsim3 hptr hwrite
  have hanch1 : ChainAnchors ((block, index) :: s'.chain) L1 := by
    rw [← hL1]
    exact hanch.congr rfl rfl
  have hanch2 := hanch1.pop hroots hch ht (popAnchor_run_ok.1 hpopL)
  have hmid : AnchorsConsistent env tree { s' with coinsTip } := by
    refine ⟨hch.2.2, ⟨L4, hsim4, hanch2.congr hat hbest⟩, Or.inl hptr', fun hnil => ?_, fun h undo hl => ?_⟩
    · -- the parent of the block is on the chain
      have htip := hch.2.1
      rw [hp, show s'.chain = [] from hnil] at htip
      cases htip
    · exact hs.undo h undo (by rw [← hundo]; exact hl)
  exact hmid.read (assertBestAnchor_ok hass) (assertBestAnchor_keepsPointer hass)

theorem flush (hrun : s.coinsTip.flush = .ok c) : AnchorsConsistent env tree { s with coinsTip := c } := by
  obtain ⟨L, hsim, hanch⟩ := hs.ledger
  have hroot := @IncrementalMerkleTree.root_empty INCREMENTAL_MERKLE_TREE_DEPTH Uint256 _ (by decide)
  have hempty := (hanch.anchor _ _).2 ⟨[], nil_suffix, rfl, hroot⟩
  obtain ⟨L', hsim', hat, hbest, hptr, hbase⟩ := flushed_anchors hroots.oneTree hsim hs.pointer hempty hrun
  refine ⟨hs.isChain, ⟨L', hsim', hanch.congr hat hbest⟩, hs.pointer.imp (fun h => hptr ▸ h) ?_, fun hnil => ?_,
    hs.undo⟩
  · rintro ⟨d, hd⟩
    obtain ⟨d', hd', -⟩ := hbase d hd
    exact ⟨d', hd'⟩
  · obtain ⟨d, hd, -⟩ := hs.early hnil
    obtain ⟨d', hd', hbest'⟩ := hbase d hd
    obtain ⟨t, ht, ht'⟩ := hanch.best
    rw [show s.chain = [] from hnil] at ht
    cases ht
    exact ⟨d', hd', (Option.some.inj (hbest'.trans ht')).trans hroot⟩

end

theorem of_reached (hroots : tree.DistinctRoots) (h : s.Reached env tree) : AnchorsConsistent env tree s := by
  induction h with
  | refl => exact start env tree
  | tail _ hstep ih =>
    cases hstep with
    | connect found _ run => exact ih.connect hroots found run
    | disconnect run => exact ih.disconnect hroots run
    | read read run => exact ih.read (exec_isRead read run) (CCoinsViewCache.exec_keepsPointer read run)
    | flush run => exact ih.flush hroots run

end AnchorsConsistent

theorem anchors_exact (env : Env) (tree : BlockTree env) (hroots : tree.DistinctRoots) (s : ChainState)
    (h : s.Reached env tree) :
    (∀ rt t, (s.coinsTip.getAnchorAt rt).1 = some t ↔
      ∃ chain, chain <:+ s.chain ∧ chainTree chain = .ok t ∧ t.root = rt) ∧
    ∃ t, chainTree s.chain = .ok t ∧ s.coinsTip.getBestAnchor.1 = some t.root := by
  obtain ⟨L, hsim, hanch⟩ := (AnchorsConsistent.of_reached hroots h).ledger
  rw [s.coinsTip.getBestAnchor_reads.1, hsim.getBestAnchor]
  refine ⟨fun rt t => ?_, hanch.best⟩
  rw [(s.coinsTip.getAnchorAt_reads rt).1, hsim.getAnchorAt, hanch.anchor]

omit [MerkleHash Uint256] in
private theorem smallTree_chains (h : smallTree.IsChain chain) :
    chainCommitments chain = [] ∨ chainCommitments chain = [7, 8] := by
  have hroot : ∀ {rest}, smallTree.IsChain rest → none = tipHash rest → rest = [] := by
    intro rest _ htip
    cases rest with
    | nil => rfl
    | cons q rest => cases htip
  cases chain with
  | nil => exact Or.inl rfl
  | cons p rest =>
    obtain ⟨block, index⟩ := p
    obtain ⟨hfound, htip, hrest⟩ := h
    rcases smallFind_eq_some hfound with ⟨-, rfl, rfl⟩ | ⟨-, rfl, rfl⟩
    · rw [hroot hrest htip]
      exact Or.inl rfl
    · cases rest with
      | nil => cases htip
      | cons q rest =>
        obtain ⟨block, index⟩ := q
        obtain ⟨hfound', htip', hrest'⟩ := hrest
        have hhash : index.hash = 1 := (Option.some.inj htip).symm
        rcases smallFind_eq_some hfound' with ⟨-, rfl, rfl⟩ | ⟨h2, -, -⟩
        · rw [hroot hrest' htip']
          exact Or.inr rfl
        · rw [hhash] at h2
          exact absurd h2 (by decide)

omit [MerkleHash Uint256] in
theorem smallTree_distinctRoots :
    letI := leftHash
    smallTree.DistinctRoots := by
  let _ := leftHash
  have hne : (appendCommitments {} []).map IncrementalMerkleTree.root ≠
      (appendCommitments {} [7, 8]).map IncrementalMerkleTree.root := by decide +kernel
  intro chain chain' t t' hc hc' ht ht' hroot
  have heq : (chainTree chain).map IncrementalMerkleTree.root = (chainTree chain').map IncrementalMerkleTree.root := by
    rw [ht, ht']
    exact congrArg Except.ok hroot
  unfold chainTree at heq
  rcases smallTree_chains hc with h | h <;> rcases smallTree_chains hc' with h' | h' <;> rw [h, h'] at heq ⊢
  · exact absurd heq hne
  · exact absurd heq.symm hne

omit [MerkleHash Uint256] in
/-- The block with two commitments is connected, disconnected and connected again. -/
theorem anchors_exact_reconnected :
    letI := leftHash
    ∃ s : ChainState, s.Reached plainEnv smallTree ∧ s.chain.length = 2 ∧
      (∀ rt t, (s.coinsTip.getAnchorAt rt).1 = some t ↔
        ∃ chain, chain <:+ s.chain ∧ chainTree chain = .ok t ∧ t.root = rt) := by
  let _ := leftHash
  have hlen : (ChainState.start.replay smallTree [some 1, some 2, none, some 2]).map (fun s => s.chain.length) =
      .ok 2 := by decide +kernel
  cases hrun : ChainState.start.replay smallTree [some 1, some 2, none, some 2] with
  | error e =>
    rw [hrun] at hlen
    cases hlen
  | ok s =>
    rw [hrun] at hlen
    have hrch := ChainState.reached_of_replay .refl hrun
    exact ⟨s, hrch, Except.ok.inj hlen, (anchors_exact plainEnv smallTree smallTree_distinctRoots s hrch).1⟩

end LitecoinZ
