import LitecoinZ.Coins.Transparency
import LitecoinZ.Validation.DoubleSpend

/-!
# Disconnecting a block undoes connecting it

Undo information holds the spent outputs, and the metadata of a transaction only when its last output goes.  It
suffices: restoring the inputs of a transaction, the last one first, gives back the coins it spent
(`restoreInputs_spendInputs`), a transaction that was new is undone by `disconnectTx_updateCoins`, and the transactions
of a block, each of which is new when it is applied, by `Applies.undo`.
-/

namespace LitecoinZ

open Function StateExcept ViewM List

/-! ### Coins -/

/-- Spent outputs are all written as `SetNull` does. -/
def NullsCleared (vout : List CTxOut) : Prop := ∀ txout ∈ vout, txout.isNull = true → txout = .null

variable {vout : List CTxOut} {c : CCoins} {L M L' L1 L2 : Ledger} {env : Env} {index : BlockIndex}
  {txs : List (CTransaction × CTxUndo)} {block : CBlock}

private theorem growVout_dropNulls (h : NullsCleared vout) {n : Nat} (hn : vout.length ≤ n) :
    growVout (dropNulls vout) n = growVout vout n := by
  induction vout using List.reverseRecOn with
  | nil => rfl
  | append_singleton vout txout ih =>
    by_cases ho : txout.isNull = true
    · rw [length_append, length_singleton] at hn
      rw [dropNulls, rdropWhile_concat_pos _ _ _ ho, ← dropNulls,
        ih (fun o hm => h o (mem_append_left _ hm)) (by omega), h txout (by simp) ho]
      simp only [growVout, length_append, length_singleton, append_assoc]
      congr 1
      rw [singleton_append, ← replicate_succ]
      congr 1
      omega
    · rw [dropNulls, rdropWhile_concat_neg _ _ _ ho]

private theorem growVout_spent (hclean : dropNulls vout = vout) (hnull : NullsCleared vout) {n : Nat}
    (hn : n < vout.length) : growVout (dropNulls (vout.set n .null)) (n + 1) = vout.set n .null := by
  rcases eq_nil_or_concat vout with rfl | ⟨front, last, rfl⟩
  · simp at hn
  simp only [concat_eq_append] at *
  have hlast : last.isNull = false := by
    by_contra h
    rw [dropNulls, rdropWhile_concat_pos _ _ _ (by simpa using h)] at hclean
    have hle := ( rdropWhile_prefix CTxOut.isNull (l := front)).length_le
    rw [hclean] at hle
    simp at hle
  rw [length_append, length_singleton] at hn
  by_cases hlt : n < front.length
  · -- the last output stays, so nothing is dropped
    rw [set_append_left _ _ hlt, dropNulls, rdropWhile_concat_neg _ _ _ (by simp [hlast]), growVout]
    simp
    omega
  · obtain rfl : n = front.length := by omega
    have hset : (front ++ [last]).set front.length .null = front ++ [CTxOut.null] := by simp
    rw [hset, growVout_dropNulls _ (by simp)]
    · simp [growVout]
    · intro o ho hnull'
      rcases mem_append.1 ho with h | h
      · exact hnull o (mem_append_left _ h) hnull'
      · exact mem_singleton.1 h

/-- Coins as connecting blocks leaves them. -/
structure CCoins.Proper (c : CCoins) : Prop where
  height : c.nHeight ≠ 0
  clean : dropNulls c.vout = c.vout
  nulls : NullsCleared c.vout

private theorem NullsCleared.dropNulls (h : NullsCleared vout) :
    NullsCleared (dropNulls vout) :=
  fun o ho => h o (( rdropWhile_prefix CTxOut.isNull _).subset ho)

namespace CCoins.Proper

theorem cleanup {c : CCoins} (h : c.Proper) : c.cleanup = c := by rw [CCoins.cleanup, h.clean]

theorem spend {c : CCoins} (h : c.Proper) (n : Nat) : (c.spend n).2.Proper := by
  unfold CCoins.spend
  split
  · refine ⟨h.height, rdropWhile_idempotent CTxOut.isNull _, NullsCleared.dropNulls fun o ho hnull => ?_⟩
    rcases mem_or_eq_of_mem_set ho with hm | rfl
    · exact h.nulls o hm hnull
    · rfl
  · exact h

theorem fromTx {tx : CTransaction} {nHeight : Int} (hh : nHeight ≠ 0) (htx : tx.WellFormed) :
    (CCoins.fromTx tx nHeight).Proper := by
  refine ⟨hh, rdropWhile_idempotent CTxOut.isNull _, NullsCleared.dropNulls fun o ho hnull => ?_⟩
  obtain ⟨txout, hm, rfl⟩ := mem_map.1 ho
  split at hnull
  · rw [if_pos ‹_›]
  · -- an output of the transaction has no negative value
    have hv := (htx.vout txout hm).1
    have hn : txout.nValue = -1 := by simpa [CTxOut.isNull] using hnull
    rw [hn] at hv
    exact absurd hv (by decide)

end CCoins.Proper

theorem applyUndo_spend {c' : CCoins} {n : Nat} {undo : CTxInUndo} (hc : c.Proper)
    (h : spendForUndo n c = .ok (undo, c')) : applyUndo undo n ((unspent (some c')).getD .clear) = (true, c) := by
  obtain ⟨hav, rfl, hundo⟩ := spendForUndo_ok h
  have hlt : n < c.vout.length := by
    by_contra hn
    rw [CCoins.isAvailable, getElem?_eq_none (by omega)] at hav
    cases hav
  have hspend : (c.spend n).2 = { c with vout := dropNulls (c.vout.set n .null) } := by
    rw [CCoins.spend, if_pos hav]
    rfl
  have hgone : (c.spend n).2.isAvailable n = false := by
    rw [CCoins.isAvailable_eq, CCoins.output_spend hav, if_pos rfl]
    rfl
  -- both ways the outputs grow back to what they were, with a null at the place of the output
  have hback : (growVout (c.spend n).2.vout (n + 1)).set n (c.vout.getD n .null) = c.vout := by
    rw [hspend, growVout_spent hc.clean hc.nulls hlt, set_set, getD_eq_getElem _ _ hlt,
      set_getElem_self]
  by_cases hempty : (c.spend n).2.vout = []
  · have hp : (c.spend n).2.isPruned = true := by simp [CCoins.isPruned, hempty]
    rw [unspent_some_of_pruned hp, hundo, hempty]
    have hh : (c.spend n).2.nHeight ≠ 0 := by
      rw [hspend]
      exact hc.height
    have hclear : CCoins.clear.isPruned = true := rfl
    rw [hempty] at hback
    simp only [applyUndo, isEmpty_nil, if_true, Option.getD_none, ne_eq, hh, not_false_eq_true, hclear]
    rw [hspend]
    simp only [Prod.mk.injEq]
    refine ⟨rfl, ?_⟩
    change { c with vout := (growVout [] (n + 1)).set n (c.vout.getD n .null) } = c
    rw [hback]
  · have hp : (c.spend n).2.isPruned = false := by
      rw [Bool.eq_false_iff, ne_eq, CCoins.isPruned, all_eq_true]
      intro hall
      exact hempty ((hc.spend n).clean.symm.trans (rdropWhile_eq_nil_iff.2 hall))
    have he : (c.spend n).2.vout.isEmpty = false := by simpa using hempty
    rw [unspent_some_of_not_pruned hp, hundo, he]
    simp only [applyUndo, Option.getD_some, Bool.false_eq_true, if_false, ne_eq, not_true_eq_false, hp, hgone]
    rw [hback, hspend]
    rfl

/-! ### Transactions -/

/-- All coins of the ledger are as connecting blocks leaves them, and none is fully spent. -/
def Ledger.Proper (L : Ledger) : Prop := ∀ k c, L.getCoins k = some c → c.Proper ∧ c.isPruned = false

/-- The coins and nullifiers of one ledger with the anchors and the best block of another. -/
def Ledger.withCoins (M L : Ledger) : Ledger := { M with getCoins := L.getCoins, getNullifier := L.getNullifier }

theorem Ledger.Proper.setCoins (h : L.Proper) (hc : c.Proper) (k : Uint256) :
    Ledger.Proper (L.setCoins k c) := by
  intro k' c' hk'
  by_cases hk : k' = k
  · subst hk
    rw [ViewAnswers.getCoins_setCoins_self, hc.cleanup] at hk'
    by_cases hp : c.isPruned = true
    · rw [unspent_some_of_pruned hp] at hk'
      cases hk'
    · rw [unspent_some_of_not_pruned (by simpa using hp)] at hk'
      cases hk'
      exact ⟨hc, by simpa using hp⟩
  · rw [ViewAnswers.getCoins_setCoins_ne _ hk] at hk'
    exact h k' c' hk'

theorem Ledger.setCoins_setCoins {k : Uint256} (hL : L.Proper) (hc : L.getCoins k = some c) (c' : CCoins) :
    ViewAnswers.setCoins (L.setCoins k c') k c = L := by
  obtain ⟨hp, hn⟩ := hL k c hc
  simp only [ViewAnswers.setCoins, update_idem, hp.cleanup, unspent_some_of_not_pruned hn]
  rw [← hc, update_eq_self]

theorem Ledger.setCoins_clear {k : Uint256} (hk : L.getCoins k = none) (c : CCoins) :
    ViewAnswers.setCoins (L.setCoins k c) k .clear = L := by
  have hnone : unspent (some CCoins.clear.cleanup) = L.getCoins k := hk.symm
  simp only [ViewAnswers.setCoins, update_idem, hnone]
  rw [update_eq_self]

theorem Ledger.getCoins_withCoins_setCoins (M L : Ledger) (k : Uint256) (hc : c.Proper) :
    (M.withCoins (L.setCoins k c)).getCoins k = unspent (some c) := by
  have h := ViewAnswers.getCoins_setCoins_self L k c
  rwa [hc.cleanup] at h

private theorem clearUnspendable_fromTx (tx : CTransaction) (nHeight : Int) :
    (CCoins.fromTx tx nHeight).clearUnspendable = CCoins.fromTx tx nHeight := by
  have hmap : ∀ l : List CTxOut, (∀ o ∈ l, isUnspendable o.scriptPubKey = true → o = .null) →
      l.map (fun o => if isUnspendable o.scriptPubKey then .null else o) = l := by
    intro l hl
    refine (map_congr_left fun o ho => ?_).trans l.map_id
    split
    · exact (hl o ho ‹_›).symm
    · rfl
  simp only [CCoins.fromTx, CCoins.clearUnspendable, CCoins.cleanup]
  rw [hmap, dropNulls, dropNulls, rdropWhile_idempotent]
  intro o ho hu
  obtain ⟨txout, -, rfl⟩ := mem_map.1 (( rdropWhile_prefix CTxOut.isNull _).subset ho)
  split
  · rfl
  · rw [if_neg ‹_›] at hu
    exact absurd hu ‹_›

private theorem removeOutputs_fromTx (tx : CTransaction) (nHeight : Int) :
    removeOutputs tx nHeight ((unspent (some (.fromTx tx nHeight))).getD .clear) = (true, .clear) := by
  by_cases hp : (CCoins.fromTx tx nHeight).isPruned = true
  · rw [unspent_some_of_pruned hp, Option.getD_none, @removeOutputs_of_isPruned tx nHeight .clear rfl, hp]
  · rw [unspent_some_of_not_pruned (by simpa using hp)]
    simp only [removeOutputs, Option.getD_some, clearUnspendable_fromTx]
    split <;> simp [CCoins.equal]

private theorem markNullifiers_undo {nfs : List Uint256} (h : ∀ nf ∈ nfs, L.getNullifier nf = false) :
    (L.markNullifiers true nfs).markNullifiers false nfs = L := by
  have hnf : (fun nf => if nf ∈ nfs then false else (L.markNullifiers true nfs).getNullifier nf) = L.getNullifier := by
    funext nf
    by_cases hm : nf ∈ nfs
    · rw [if_pos hm, h nf hm]
    · rw [if_neg hm]
      exact if_neg hm
  change ({ L with getNullifier := _ } : Ledger) = L
  rw [hnf]

/-- The undo information of a transaction that is kept: none of a coinbase. -/
def keptUndo (p : CTransaction × CTxUndo) : CTransaction × Option CTxUndo :=
  (p.1, if p.1.isCoinBase then none else some p.2)

theorem popAnchor_bestBlock {rt best : Option Uint256} (h : L.popAnchor rt = .ok L') :
    ViewAnswers.popAnchor { L with getBestBlock := best } rt = .ok { L' with getBestBlock := best } := by
  unfold ViewAnswers.popAnchor at h ⊢
  dsimp only
  split at h
  · rename_i hne
    rw [if_pos hne]
    split at h
    · cases h
    · cases h
      rfl
  · cases h
    rename_i heq
    rw [if_neg heq]

private theorem keptUndo_of_wellFormed (hwf : block.WellFormed) (hvtx : txs.map Prod.fst = block.vtx) :
    (txs.tail.map Prod.snd).length + 1 = block.vtx.length ∧
      block.vtx.zip (none :: (txs.tail.map Prod.snd).map some) = txs.map keptUndo := by
  obtain ⟨coinbase, vtx, heq, hcb, htail⟩ := hwf.vtx_eq
  rw [← hvtx] at heq ⊢
  cases txs with
  | nil => cases heq
  | cons p txs =>
    obtain ⟨rfl, rfl⟩ := cons.inj heq
    refine ⟨by simp, ?_⟩
    have hrest : (txs.map Prod.fst).zip ((txs.map Prod.snd).map some) = txs.map keptUndo := by
      rw [map_map, zip_map']
      refine map_congr_left fun q hq => ?_
      have hq' : q.1.isCoinBase = false := htail q.1 (mem_map_of_mem hq)
      simp [keptUndo, hq']
    have hfirst : keptUndo p = (p.1, none) := by simp [keptUndo, hcb]
    simp only [tail_cons, map_cons, zip_cons_cons, hfirst] at hrest ⊢
    rw [hrest]

variable [MerkleHash Uint256]

theorem applyTxInUndo_spendInput {out : COutPoint} {undo : CTxInUndo} (hL : L.Proper)
    (h : (modifyCoins out.hash (spendForUndo out.n)).run L = .ok (undo, L')) :
    L'.Proper ∧ (applyTxInUndo undo out).run (M.withCoins L') = .ok (true, M.withCoins L) := by
  obtain ⟨c, c', hc, hspend, rfl⟩ := spendInput_ok h
  have hp := (hL _ c hc).1
  have hback := applyUndo_spend hp hspend
  obtain ⟨-, rfl, -⟩ := spendForUndo_ok hspend
  refine ⟨hL.setCoins (hp.spend _) _, ?_⟩
  change Except.ok (_, _) = _
  rw [Ledger.getCoins_withCoins_setCoins M L _ (hp.spend out.n), hback]
  congr 2
  exact congrArg (Ledger.withCoins M) (Ledger.setCoins_setCoins hL hc _)

theorem restoreInputs_append {xs ys : List (CTxIn × CTxInUndo)}
    (h1 : (restoreInputs xs).run L = .ok (true, L1))
    (h2 : (restoreInputs ys).run L1 = .ok (true, L2)) :
    (restoreInputs (xs ++ ys)).run L = .ok (true, L2) := by
  induction xs generalizing L with
  | nil =>
    obtain ⟨-, rfl⟩ := run_pure_ok.1 h1
    exact h2
  | cons x xs ih =>
    obtain ⟨M1, hx, hxs⟩ := run_and_ok.1 h1
    exact run_and_ok.2 ⟨M1, hx, ih hxs⟩

/-- Restoring the inputs of a transaction, the last one first, undoes spending them. -/
theorem restoreInputs_spendInputs {vin : List CTxIn} {undos : List CTxInUndo} (hL : L.Proper)
    (h : (spendInputs vin).run L = .ok (undos, L')) :
    L'.Proper ∧
      (restoreInputs (vin.zip undos).reverse).run (M.withCoins L') = .ok (true, M.withCoins L) := by
  induction vin generalizing L undos with
  | nil =>
    obtain ⟨rfl, rfl⟩ := run_pure_ok.1 h
    exact ⟨hL, rfl⟩
  | cons txin vin ih =>
    obtain ⟨undo, L1, h1, h⟩ := run_bind_ok.1 h
    obtain ⟨undos', L2, h2, h⟩ := run_bind_ok.1 h
    obtain ⟨rfl, rfl⟩ := run_pure_ok.1 h
    obtain ⟨hL1, hfirst⟩ := applyTxInUndo_spendInput (M := M) hL h1
    obtain ⟨hL2, hrest⟩ := ih hL1 h2
    refine ⟨hL2, ?_⟩
    rw [zip_cons_cons, reverse_cons]
    exact restoreInputs_append hrest (run_bind_ok.2 ⟨true, _, hfirst, rfl⟩)

theorem disconnectTx_updateCoins {tx : CTransaction} {txundo : CTxUndo} (hL : L.Proper) (htx : tx.WellFormed)
    (hh : index.nHeight ≠ 0) (hnew : L.getCoins (env.getHash tx) = none)
    (hnf : ∀ nf ∈ tx.nullifiers, L.getNullifier nf = false)
    (h : (updateCoins env tx index.nHeight).run L = .ok (txundo, L')) :
    L'.Proper ∧ (disconnectTx env index tx (keptUndo (tx, txundo)).2).run (M.withCoins L') =
      .ok (true, M.withCoins L) := by
  obtain ⟨L1, h1, rfl⟩ := updateCoins_ok h
  have hp := CCoins.Proper.fromTx hh htx
  -- the inputs are spent: what is restored, and what is known of the ledger in between
  obtain ⟨hL1, habs, hnf1, hrest⟩ : L1.Proper ∧ L1.getCoins (env.getHash tx) = none ∧
      (∀ nf ∈ tx.nullifiers, L1.getNullifier nf = false) ∧
      (tx.isCoinBase = true ∧ L1 = L ∨ tx.isCoinBase = false ∧ txundo.vprevout.length = tx.vin.length ∧
        (restoreInputs (tx.vin.zip txundo.vprevout).reverse).run (M.withCoins L1) =
          .ok (true, M.withCoins L)) := by
    split at h1
    · obtain ⟨-, rfl⟩ := run_pure_ok.1 h1
      exact ⟨hL, hnew, hnf, Or.inl ⟨‹_›, rfl⟩⟩
    · obtain ⟨hL1, hback⟩ := restoreInputs_spendInputs (M := M) hL h1
      obtain ⟨⟨-, habs, hframe⟩, hlen⟩ := spendInputs_ok h1
      refine ⟨hL1, habs _ hnew, ?_, Or.inr ⟨Bool.eq_false_iff.2 ‹_›, hlen, hback⟩⟩
      rw [hframe]
      exact hnf
  refine ⟨Ledger.Proper.setCoins (L := L1.markNullifiers true tx.nullifiers) hL1 hp _, ?_⟩
  -- the outputs go, then the nullifiers
  have hremove : (modifyCoins (env.getHash tx) fun outs => .ok (removeOutputs tx index.nHeight outs)).run
      (M.withCoins (ViewAnswers.setCoins (L1.markNullifiers true tx.nullifiers) (env.getHash tx)
        (.fromTx tx index.nHeight))) = .ok (true, M.withCoins (L1.markNullifiers true tx.nullifiers)) := by
    change Except.ok (_, _) = _
    rw [Ledger.getCoins_withCoins_setCoins _ _ _ hp, removeOutputs_fromTx]
    congr 2
    exact congrArg (Ledger.withCoins M) (Ledger.setCoins_clear (L := L1.markNullifiers true tx.nullifiers) habs _)
  have hclear : (setNullifiers false tx.nullifiers).run
      (M.withCoins (L1.markNullifiers true tx.nullifiers)) = .ok ((), M.withCoins L1) := by
    rw [setNullifiers_run]
    exact congrArg (fun L => Except.ok ((), Ledger.withCoins M L)) (markNullifiers_undo hnf1)
  refine run_bind_ok.2 ⟨_, _, hremove, run_bind_ok.2 ⟨_, _, hclear, ?_⟩⟩
  rcases hrest with ⟨hcb, rfl⟩ | ⟨hcb, hlen, hback⟩
  · simp only [keptUndo, hcb, if_true]
    rfl
  · simp only [keptUndo, hcb, Bool.false_eq_true, if_false]
    refine run_bind_ok.2 ⟨(), _, run_lift_ok.2 ⟨reject_ne_ok.2 hlen, rfl⟩, run_bind_ok.2 ⟨_, _, hback, rfl⟩⟩

/-! ### Blocks -/

theorem disconnectTxs_append {xs ys : List (CTransaction × Option CTxUndo)}
    (h1 : (disconnectTxs env index xs).run L = .ok (true, L1))
    (h2 : (disconnectTxs env index ys).run L1 = .ok (true, L2)) :
    (disconnectTxs env index (xs ++ ys)).run L = .ok (true, L2) := by
  induction xs generalizing L with
  | nil =>
    obtain ⟨-, rfl⟩ := run_pure_ok.1 h1
    exact h2
  | cons x xs ih =>
    obtain ⟨M1, hx, hxs⟩ := run_and_ok.1 h1
    exact run_and_ok.2 ⟨M1, hx, ih hxs⟩

/-- The transactions of a list are well formed, have txids of their own and no two of them are the same coinbase. -/
structure Distinct (env : Env) (vtx : List CTransaction) : Prop where
  txids : ∀ tx ∈ vtx, ∀ tx' ∈ vtx, env.getHash tx = env.getHash tx' → tx = tx'
  coinBases : (vtx.filter CTransaction.isCoinBase).Nodup

/-- Transactions applied after others that they differ from: what is known of them holds with the new ones too, and
disconnecting them, the last one first, gives the ledger back. -/
theorem Ledger.Applies.undo {L0 : Ledger} {done : List CTransaction} (happ : Ledger.Applies env index.nHeight L txs L')
    (hafter : Ledger.After env L0 done L) (hL : L.Proper) (hh : index.nHeight ≠ 0) (hwf : ∀ p ∈ txs, p.1.WellFormed)
    (h0 : ∀ p ∈ txs, L0.getCoins (env.getHash p.1) = none) (hdist : Distinct env (done ++ txs.map Prod.fst)) :
    L'.Proper ∧ Ledger.After env L0 (done ++ txs.map Prod.fst) L' ∧
      ∀ M : Ledger, (disconnectTxs env index (txs.map keptUndo).reverse).run (M.withCoins L') =
        .ok (true, M.withCoins L) := by
  induction happ generalizing done with
  | nil L => exact ⟨hL, by simpa using hafter, fun M => rfl⟩
  | @cons L L1 L2 tx txundo txs hadm hup _ ih =>
    obtain ⟨hwf1, hwf2⟩ := forall_mem_cons.1 hwf
    obtain ⟨h01, h02⟩ := forall_mem_cons.1 h0
    have hnew : env.getHash tx ∉ done.map env.getHash := by
      refine hafter.new hadm hwf1 (fun tx' hm he => ?_) fun hcb hm => ?_
      · exact hdist.txids tx' (mem_append_left _ hm) tx (by simp) he
      · have hnd := hdist.coinBases
        rw [filter_append, nodup_append'] at hnd
        exact hnd.2.2 (mem_filter.2 ⟨hm, hcb⟩) (mem_filter.2 ⟨by simp, hcb⟩)
    have hnone := hafter.absent _ hnew h01
    have hnf : ∀ nf ∈ tx.nullifiers, L.getNullifier nf = false := fun nf hm => hadm.nullifier_unset hwf1 hm
    have hstep := hafter.step hadm hwf1 hnew h01 (updateCoins_updates hup)
    have hL1 : L1.Proper := (disconnectTx_updateCoins (M := L) hL hwf1 hh hnone hnf hup).1
    have hassoc : done ++ ((tx, txundo) :: txs).map Prod.fst = done ++ [tx] ++ txs.map Prod.fst := by simp
    rw [hassoc] at hdist ⊢
    obtain ⟨hL2, hafter2, hback⟩ := ih hstep hL1 hwf2 h02 hdist
    refine ⟨hL2, hafter2, fun M => ?_⟩
    rw [map_cons, reverse_cons]
    have hfirst := (disconnectTx_updateCoins (M := M) hL hwf1 hh hnone hnf hup).2
    exact disconnectTxs_append (hback M) (run_bind_ok.2 ⟨true, _, hfirst, rfl⟩)

theorem pushAnchor_withCoins (M L : Ledger) (tree : ZCIncrementalMerkleTree) :
    ViewAnswers.pushAnchor (M.withCoins L) tree = Ledger.withCoins (M.pushAnchor tree) L := by
  unfold ViewAnswers.pushAnchor
  by_cases h : M.getBestAnchor ≠ some tree.root
  · rw [if_pos h, if_pos (show (M.withCoins L).getBestAnchor ≠ _ from h)]
    rfl
  · rw [if_neg h, if_neg (show ¬ (M.withCoins L).getBestAnchor ≠ _ from h)]

theorem getBestAnchor_pushAnchor (L : Ledger) (tree : ZCIncrementalMerkleTree) :
    (L.pushAnchor tree).getBestAnchor = some tree.root := by
  unfold ViewAnswers.pushAnchor
  split
  · rfl
  · exact not_not.1 ‹_›

theorem popAnchor_pushAnchor {tree' : ZCIncrementalMerkleTree} {rt : Uint256} (hbest : L.getBestAnchor = some rt)
    (hnew : tree'.root ≠ rt → L.getAnchorAt tree'.root = none) :
    ViewAnswers.popAnchor (L.pushAnchor tree') (some rt) = .ok L := by
  by_cases heq : tree'.root = rt
  · have hpush : L.pushAnchor tree' = L := if_neg (by simp [hbest, heq])
    rw [hpush]
    exact if_neg (by simp [hbest])
  · have hpush : L.pushAnchor tree' = { L with
        getAnchorAt := update L.getAnchorAt tree'.root (some tree')
        getBestAnchor := some tree'.root } := if_pos (by simpa [hbest] using Ne.symm heq)
    have hne : some tree'.root ≠ some rt := by simpa using heq
    rw [hpush]
    simp only [ViewAnswers.popAnchor, if_pos hne, Option.getD_some, update_self, update_idem]
    rw [← hnew heq, update_eq_self, ← hbest]

/-- A connected block as a list of applied transactions with their undo information. -/
structure Ledger.Connects (env : Env) (block : CBlock) (index : BlockIndex) (L : Ledger) (undo : CBlockUndo)
    (tree tree' : ZCIncrementalMerkleTree) (txs : List (CTransaction × CTxUndo)) (L₁ L' : Ledger) : Prop where
  anchor : L.getAnchorAt tree.root = some tree
  bestAnchor : L.getBestAnchor = some tree.root
  commitments : appendCommitments tree (block.vtx.flatMap CTransaction.commitments) = .ok tree'
  vtx : txs.map Prod.fst = block.vtx
  applies : Ledger.Applies env index.nHeight L txs L₁
  old_tree_root : undo.old_tree_root = some tree.root
  vtxundo : undo.vtxundo.length + 1 = block.vtx.length
  withUndo : withUndo block undo = txs.map keptUndo
  ledger : L' = { ViewAnswers.pushAnchor L₁ tree' with getBestBlock := some index.hash }

theorem ConnectBlockOk.connects {fExpensiveChecks : Bool} {undo : CBlockUndo}
    (h : ConnectBlockOk env block index fExpensiveChecks L undo L') :
    ∃ tree tree' txs L1, L.Connects env block index undo tree tree' txs L1 L' := by
  obtain ⟨tree, acc, L1, valueOut, hanc, hbest, htxs, -, -, rfl, rfl⟩ := h.applied
  obtain ⟨htree, txs, hvtx, happ, hundo⟩ := connectTxs_ok htxs
  obtain ⟨hlen, hkept⟩ := keptUndo_of_wellFormed h.wellFormed hvtx
  simp only [nil_append, if_true] at hundo
  rw [← hundo] at hlen hkept
  exact ⟨tree, acc.tree, txs, L1, hanc, hbest, htree, hvtx, happ, rfl, hlen, hkept, rfl⟩

theorem Ledger.Applies.frame {nHeight : Int} (h : Ledger.Applies env nHeight L txs L') : L.withCoins L' = L' := by
  induction h with
  | nil L => rfl
  | cons _ hup _ ih =>
    rw [← ih, (updateCoins_updates hup).frame]
    rfl

theorem disconnectBlock_run {undo : CBlockUndo} (hbest : L.getBestBlock = some index.hash)
    (hlen : undo.vtxundo.length + 1 = block.vtx.length)
    (htxs : (disconnectTxs env index (withUndo block undo).reverse).run L = .ok (true, L1))
    (hpop : L1.popAnchor undo.old_tree_root = .ok L2) :
    (disconnectBlock env block index (some undo)).run L =
      .ok (true, { L2 with getBestBlock := index.pprev }) := by
  have hpop' : (popAnchor undo.old_tree_root).run L1 = .ok ((), L2) := popAnchor_run_ok.2 hpop
  simp only [disconnectBlock, run_bind_ok, run_lift_ok]
  exact ⟨_, _, rfl, (), _, ⟨reject_ne_ok.2 hbest.symm, rfl⟩, (), _, ⟨reject_ne_ok.2 hlen, rfl⟩, _, _, htxs, _, _, hpop',
    _, _, rfl, rfl⟩

end LitecoinZ
