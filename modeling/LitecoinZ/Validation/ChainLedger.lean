import LitecoinZ.Validation.ActiveChain
import LitecoinZ.Validation.Undo

/-!
# The ledger of a chain

The coins and nullifiers that the blocks of a chain lead to, from an empty ledger (`ChainLedger`).  They do not depend
on how the chain became active: a chain has one ledger and its blocks one undo information (`ChainLedger.unique`,
`Applies.unique`), anchors and best pointers apart.  Along a chain of a block tree no two coinbases are equal, as each
one starts with its height, so every transaction is new when it is applied and can be undone (`ChainLedger.applied`).
-/

namespace LitecoinZ

open StateExcept ViewM List

structure Ledger.SameCoins (L N : Ledger) : Prop where
  coins : L.getCoins = N.getCoins
  nullifiers : L.getNullifier = N.getNullifier

namespace Ledger.SameCoins

variable {L M N : Ledger}

theorem refl (L : Ledger) : SameCoins L L := ⟨rfl, rfl⟩

theorem symm (h : SameCoins L N) : SameCoins N L := ⟨h.coins.symm, h.nullifiers.symm⟩

theorem trans (h : SameCoins L M) (h' : SameCoins M N) : SameCoins L N :=
  ⟨h.coins.trans h'.coins, h.nullifiers.trans h'.nullifiers⟩

theorem withCoins_eq (h : SameCoins L N) : N.withCoins L = N := by
  unfold Ledger.withCoins
  rw [h.coins, h.nullifiers]

theorem after {env : Env} {L0 : Ledger} {done : List CTransaction} (h : SameCoins L N)
    (ha : Ledger.After env L0 done L) : Ledger.After env L0 done N := by
  rw [← h.withCoins_eq]
  exact ⟨ha.spent, ha.origin, ha.absent, ha.nullifier, ha.spends_nodup, ha.nullifiers_nodup⟩

theorem proper (h : SameCoins L N) (hL : L.Proper) : N.Proper := by
  rw [← h.withCoins_eq]
  exact hL

end Ledger.SameCoins

variable [MerkleHash Uint256]

/-- From the same coins, `m` fails alike or answers alike and leaves the same coins. -/
private abbrev Follows {α : Type} (m : ViewM Ledger α) : Prop := Sim Ledger.SameCoins m m (Same Ledger.SameCoins)

private theorem modifyCoins_sameCoins {α : Type} (k : Uint256) (f : CCoins → Except Fault (α × CCoins)) :
    Follows (modifyCoins k f) := by
  intro L N h
  simp only [modifyCoins, StateT.run, CoinsViewOps.modifyCoins, h.coins]
  cases f ((N.getCoins k).getD .clear) with
  | error e => exact Or.inl ⟨e, rfl, rfl⟩
  | ok r =>
    refine Or.inr ⟨_, _, _, _, rfl, rfl, rfl, ?_, h.nullifiers⟩
    exact congrArg (fun g => Function.update g k (unspent (some r.2.cleanup))) h.coins

private theorem spendInputs_sameCoins (vin : List CTxIn) :
    Follows (spendInputs vin) := by
  induction vin with
  | nil => exact Sim.pure_same _
  | cons txin vin ih =>
    exact (modifyCoins_sameCoins _ _).bind_same fun _ => ih.bind_same fun _ => Sim.pure_same _

private theorem setNullifiers_sameCoins (spent : Bool) (nfs : List Uint256) :
    Follows (setNullifiers spent nfs) := by
  induction nfs with
  | nil => exact Sim.pure_same _
  | cons nf nfs ih =>
    have hset : Follows (setNullifier nf spent) := by
      intro L N h
      refine Or.inr ⟨_, _, _, _, rfl, rfl, rfl, h.coins, ?_⟩
      exact congrArg (fun g => Function.update g nf spent) h.nullifiers
    exact hset.bind_same fun _ => ih

theorem updateCoins_sameCoins (env : Env) (tx : CTransaction) (nHeight : Int) :
    Follows (updateCoins env tx nHeight) := by
  have hspend : Follows (if tx.isCoinBase then pure [] else spendInputs tx.vin) :=
    Sim.ite (fun _ => Sim.pure_same _) fun _ => spendInputs_sameCoins tx.vin
  refine hspend.bind_same fun _ => (setNullifiers_sameCoins true tx.nullifiers).bind_same fun _ => ?_
  exact (modifyCoins_sameCoins _ _).bind_same fun _ => Sim.pure_same _

/-- Transactions applied to the same coins have the same undo information and lead to the same coins. -/
theorem Ledger.Applies.unique {env : Env} {nHeight : Int} {L L' N N' : Ledger} {txs txs' : List (CTransaction × CTxUndo)}
    (h : Ledger.Applies env nHeight L txs L') (h' : Ledger.Applies env nHeight N txs' N') (hsame : L.SameCoins N)
    (hvtx : txs.map Prod.fst = txs'.map Prod.fst) : txs = txs' ∧ L'.SameCoins N' := by
  induction h generalizing N txs' with
  | nil L =>
    cases h' with
    | nil => exact ⟨rfl, hsame⟩
    | cons => cases hvtx
  | @cons L L1 L2 tx txundo txs _ hup _ ih =>
    cases h' with
    | nil => cases hvtx
    | @cons _ N1 _ tx' txundo' txs' _ hup' hrest' =>
      obtain ⟨rfl, hmap⟩ := cons.inj hvtx
      obtain ⟨M, hrun, hsame1⟩ := (updateCoins_sameCoins env tx nHeight).forward hsame hup'
      cases hrun.symm.trans hup
      obtain ⟨rfl, hsame2⟩ := ih hrest' hsame1 hmap
      exact ⟨rfl, hsame2⟩

omit [MerkleHash Uint256] in
theorem CBlock.WellFormed.silent {block : CBlock} (hwf : block.WellFormed) (htail : block.vtx.tail = []) :
    block.vtx.flatMap CTransaction.spends = [] ∧ block.vtx.flatMap CTransaction.nullifiers = [] ∧
      block.vtx.flatMap CTransaction.commitments = [] := by
  obtain ⟨coinbase, vtx, hvtx, hcb, -⟩ := hwf.vtx_eq
  obtain rfl : vtx = [] := by rwa [hvtx] at htail
  have hjs := (hwf.vtx coinbase (by simp [hvtx])).coinBase hcb
  rw [hvtx]
  simp [CTransaction.spends, CTransaction.nullifiers, CTransaction.commitments, hcb, hjs]

/-- The ledger of a chain, and the transactions applied for it, the oldest first; those of the genesis block are not. -/
inductive ChainLedger (env : Env) : List (CBlock × BlockIndex) → List CTransaction → Ledger → Prop
  | nil {L : Ledger} (coins : ∀ k, L.getCoins k = none) (nullifiers : ∀ nf, L.getNullifier nf = false) :
      ChainLedger env [] [] L
  | genesis {block : CBlock} {index : BlockIndex} {chain : List (CBlock × BlockIndex)} {done : List CTransaction}
      {L : Ledger} (root : index.pprev = none) (wellFormed : block.WellFormed) (rest : ChainLedger env chain done L) :
      ChainLedger env ((block, index) :: chain) done L
  | block {block : CBlock} {index : BlockIndex} {chain : List (CBlock × BlockIndex)} {done : List CTransaction}
      {L L' N : Ledger} {txs : List (CTransaction × CTxUndo)} (linked : index.pprev ≠ none)
      (wellFormed : block.WellFormed) (accepted : contextualCheckBlock block index.nHeight = .ok ())
      (rest : ChainLedger env chain done L) (vtx : txs.map Prod.fst = block.vtx)
      (applies : Ledger.Applies env index.nHeight L txs L') (same : L'.SameCoins N) :
      ChainLedger env ((block, index) :: chain) (done ++ block.vtx) N

namespace ChainLedger

variable {env : Env} {chain : List (CBlock × BlockIndex)} {done done' : List CTransaction} {L N : Ledger}

variable {tree : BlockTree env} {index : BlockIndex}

section

variable (h : ChainLedger env chain done L)
include h

theorem sameCoins (hsame : L.SameCoins N) : ChainLedger env chain done N := by
  induction h generalizing N with
  | nil coins nullifiers =>
    exact .nil (fun k => by rw [← hsame.coins]; exact coins k) fun nf => by rw [← hsame.nullifiers]; exact nullifiers nf
  | genesis root wellFormed _ ih => exact .genesis root wellFormed (ih hsame)
  | block linked wellFormed accepted rest vtx applies same _ =>
    exact .block linked wellFormed accepted rest vtx applies (same.trans hsame)

theorem unique (h' : ChainLedger env chain done' N) : done = done' ∧ L.SameCoins N := by
  induction h generalizing done' N with
  | nil coins nullifiers =>
    cases h' with
    | nil coins' nullifiers' =>
      refine ⟨rfl, funext fun k => ?_, funext fun nf => ?_⟩
      · rw [coins, coins']
      · rw [nullifiers, nullifiers']
  | genesis root wellFormed _ ih =>
    cases h' with
    | genesis _ _ rest' => exact ih rest'
    | block linked' => exact absurd root linked'
  | block linked wellFormed accepted rest vtx applies same ih =>
    cases h' with
    | genesis root' => exact absurd root' linked
    | block _ _ _ rest' vtx' applies' same' =>
      obtain ⟨rfl, hsame⟩ := ih rest'
      obtain ⟨-, hsame'⟩ := applies.unique applies' hsame (vtx.trans vtx'.symm)
      exact ⟨rfl, same.symm.trans (hsame'.trans same')⟩

theorem transactions (hchain : tree.IsChain chain) :
    (∀ tx ∈ done, tx ∈ chainTransactions chain) ∧
      (chainTransactions chain).flatMap CTransaction.spends = done.flatMap CTransaction.spends ∧
      (chainTransactions chain).flatMap CTransaction.nullifiers = done.flatMap CTransaction.nullifiers := by
  induction h with
  | nil => exact ⟨fun _ h => h, rfl, rfl⟩
  | @genesis block index chain done L root wellFormed _ ih =>
    obtain ⟨hfound, -, hrest⟩ := hchain
    obtain ⟨hsub, hsp, hnfs⟩ := ih hrest
    obtain ⟨-, -, htail, -⟩ := tree.genesis hfound root
    obtain ⟨h1, h2, -⟩ := wellFormed.silent htail
    rw [chainTransactions_cons, flatMap_append, flatMap_append, h1, h2, append_nil, append_nil]
    exact ⟨fun tx htx => mem_append_left _ (hsub tx htx), hsp, hnfs⟩
  | block _ _ _ _ _ _ _ ih =>
    obtain ⟨hsub, hsp, hnfs⟩ := ih hchain.2.2
    rw [chainTransactions_cons, flatMap_append, flatMap_append, flatMap_append, flatMap_append,
      hsp, hnfs]
    refine ⟨fun tx htx => ?_, rfl, rfl⟩
    rcases mem_append.1 htx with hold | hnew
    · exact mem_append_left _ (hsub tx hold)
    · exact mem_append_right _ hnew

private theorem coinBase_of_mem (hchain : tree.IsChain chain) {tx : CTransaction} (htx : tx ∈ done)
    (hcb : tx.isCoinBase = true) :
    ∃ block index, tree.find index.hash = some (block, index) ∧
      contextualCheckBlock block index.nHeight = .ok () ∧ block.vtx.head? = some tx ∧ 1 ≤ index.nHeight ∧
      index.nHeight < chain.length := by
  induction h with
  | nil => cases htx
  | @genesis block index chain _ _ _ _ _ ih =>
    obtain ⟨block', index', hf, hctx, hhead, hlow, hhigh⟩ := ih hchain.2.2 htx
    exact ⟨block', index', hf, hctx, hhead, hlow, hhigh.trans (by simp)⟩
  | @block block index chain _ _ _ _ _ linked wellFormed accepted _ _ _ _ ih =>
    rcases mem_append.1 htx with hold | hnew
    · obtain ⟨block', index', hf, hctx, hhead, hlow, hhigh⟩ := ih hchain.2.2 hold
      exact ⟨block', index', hf, hctx, hhead, hlow, hhigh.trans (by simp)⟩
    · refine ⟨block, index, hchain.1, accepted, ?_, index.linked.2 linked, ?_⟩
      · obtain ⟨coinbase, vtx, hvtx, -, htail⟩ := wellFormed.vtx_eq
        rw [hvtx] at hnew ⊢
        rcases mem_cons.1 hnew with rfl | hm
        · rfl
        · rw [htail tx hm] at hcb
          cases hcb
      · rw [hchain.height, length_cons]
        omega

end

private theorem distinct_snoc (htxids : tree.DistinctTxids) {block : CBlock}
    (hchain : tree.IsChain ((block, index) :: chain)) (hwf : block.WellFormed) (hlink : index.pprev ≠ none)
    (hacc : contextualCheckBlock block index.nHeight = .ok ()) (h : ChainLedger env chain done L) (hdist : Distinct env done) : Distinct env (done ++ block.vtx) := by
  have hhas : ∀ tx ∈ done ++ block.vtx, tree.HasTx tx := by
    intro tx htx
    refine hchain.hasTx ?_
    rw [chainTransactions_cons, mem_append]
    exact (mem_append.1 htx).imp_left ((h.transactions hchain.2.2).1 tx)
  refine ⟨fun tx htx tx' htx' => htxids tx tx' (hhas tx htx) (hhas tx' htx'), ?_⟩
  obtain ⟨coinbase, hhead, hcb, hfilt⟩ := hwf.filter_isCoinBase
  rw [filter_append, hfilt, nodup_append']
  refine ⟨hdist.coinBases, nodup_singleton _, fun tx hold hnew => ?_⟩
  obtain rfl := mem_singleton.1 hnew
  obtain ⟨block', index', hf, hctx, hhead', hlow, hhigh⟩ := h.coinBase_of_mem hchain.2.2 (mem_filter.1 hold).1 hcb
  have hthis := hchain.height
  have hlow' := index.linked.2 hlink
  have heq := height_eq_of_coinBase hctx hacc (by omega)
    (tree.height hf) (by omega) (tree.height hchain.1) (hhead'.trans hhead.symm)
  omega

def noCoins : Ledger where
  getCoins _ := none
  getAnchorAt _ := none
  getNullifier _ := false
  getBestBlock := none
  getBestAnchor := none

/-- What is known of the ledger after distinct transactions. -/
structure Sound (env : Env) (done : List CTransaction) (L : Ledger) : Prop where
  proper : L.Proper
  after : Ledger.After env noCoins done L
  distinct : Distinct env done

/-- A block on top of a sound ledger: it stays sound, and the block can be undone. -/
theorem applied (htxids : tree.DistinctTxids) {block : CBlock} {txs : List (CTransaction × CTxUndo)}
    (hchain : tree.IsChain ((block, index) :: chain)) (hwf : block.WellFormed) (hlink : index.pprev ≠ none)
    (hacc : contextualCheckBlock block index.nHeight = .ok ()) (h : ChainLedger env chain done L)
    (hsound : Sound env done L) (hvtx : txs.map Prod.fst = block.vtx) (happ : Ledger.Applies env index.nHeight L txs N) :
    Sound env (done ++ block.vtx) N ∧
      ∀ M : Ledger, (disconnectTxs env index (txs.map keptUndo).reverse).run (M.withCoins N) =
        .ok (true, M.withCoins L) := by
  have hdist := distinct_snoc htxids hchain hwf hlink hacc h hsound.distinct
  have hlow := index.linked.2 hlink
  have hwf' : ∀ p ∈ txs, p.1.WellFormed := fun p hp => hwf.vtx _ (hvtx ▸ mem_map_of_mem hp)
  rw [← hvtx] at hdist ⊢
  obtain ⟨hproper, hafter, hback⟩ :=
    happ.undo hsound.after hsound.proper (by omega) hwf' (fun _ _ => rfl) hdist
  exact ⟨⟨hproper, hafter, hdist⟩, hback⟩

theorem sound (htxids : tree.DistinctTxids) (h : ChainLedger env chain done L) (hchain : tree.IsChain chain) :
    Sound env done L := by
  induction h with
  | @nil L coins nullifiers =>
    have hsame : noCoins.SameCoins L := ⟨funext fun k => (coins k).symm, funext fun nf => (nullifiers nf).symm⟩
    refine ⟨fun k c hk => ?_, hsame.after (.refl env noCoins), fun _ h => absurd h not_mem_nil, nodup_nil⟩
    rw [coins] at hk
    cases hk
  | genesis _ _ _ ih => exact ih hchain.2.2
  | block linked wellFormed accepted rest vtx applies same ih =>
    have hs := (applied htxids hchain wellFormed linked accepted rest (ih hchain.2.2) vtx applies).1
    exact ⟨same.proper hs.proper, same.after hs.after, hs.distinct⟩

end ChainLedger

end LitecoinZ
