import LitecoinZ.Validation.Effects

/-!
# No output is spent twice

What a ledger knows of the transactions applied since another one (`Ledger.After`): the outpoints they spent are
spent for good, the nullifiers they revealed are set, and each was spent or revealed once.  A transaction that is
admitted is therefore new, unless it is a coinbase (`After.new`), and applying it keeps all this (`After.step`).
-/

namespace LitecoinZ

/-- `L` is the ledger after the transactions `done` were applied to `L₀`. -/
structure Ledger.After (env : Env) (L₀ : Ledger) (done : List CTransaction) (L : Ledger) : Prop where
  spent : ∀ out ∈ done.flatMap CTransaction.spends, L.output out = none
  origin : ∀ out ∈ done.flatMap CTransaction.spends,
    out.hash ∈ done.map env.getHash ∨ L₀.getCoins out.hash ≠ none
  absent : ∀ k, k ∉ done.map env.getHash → L₀.getCoins k = none → L.getCoins k = none
  nullifier : ∀ nf, L.getNullifier nf = true ↔ nf ∈ done.flatMap CTransaction.nullifiers ∨ L₀.getNullifier nf = true
  spends_nodup : (done.flatMap CTransaction.spends).Nodup
  nullifiers_nodup : (done.flatMap CTransaction.nullifiers).Nodup

theorem Ledger.Admits.output_ne_none {L : Ledger} {tx : CTransaction} (hadm : L.Admits tx) {out : COutPoint}
    (hout : out ∈ tx.spends) : L.output out ≠ none := by
  unfold CTransaction.spends at hout
  split at hout
  · simp at hout
  · obtain ⟨txin, hm, rfl⟩ := List.mem_map.1 hout
    exact Ledger.available_iff.1 (hadm.inputs (Bool.eq_false_iff.2 ‹_›) txin hm)

theorem Ledger.Admits.nullifier_unset {L : Ledger} {tx : CTransaction} (hadm : L.Admits tx) (hwf : tx.WellFormed)
    {nf : Uint256} (hnf : nf ∈ tx.nullifiers) : L.getNullifier nf = false := by
  by_cases hcb : tx.isCoinBase = true
  · simp [CTransaction.nullifiers, hwf.coinBase hcb] at hnf
  · exact hadm.nullifiers (Bool.eq_false_iff.2 hcb) nf hnf

namespace Ledger.After

variable {env : Env} {L0 L L' : Ledger} {done : List CTransaction} {tx : CTransaction} {nHeight : Int}

theorem refl (env : Env) (L : Ledger) : After env L [] L := by
  constructor <;> simp

theorem new (h : After env L0 done L) (hadm : L.Admits tx) (hwf : tx.WellFormed)
    (hinj : ∀ tx' ∈ done, env.getHash tx' = env.getHash tx → tx' = tx) (hcb : tx.isCoinBase = true → tx ∉ done) :
    env.getHash tx ∉ done.map env.getHash := by
  intro hmem
  obtain ⟨tx', hm, hhash⟩ := List.mem_map.1 hmem
  obtain rfl := hinj tx' hm hhash
  have hord : tx'.isCoinBase = false := Bool.eq_false_iff.2 fun hc => hcb hc hm
  rcases hwf.sources with hvin | hjs
  · obtain ⟨txin, hin⟩ := List.exists_mem_of_ne_nil _ hvin
    have hout : txin.prevout ∈ tx'.spends := by
      rw [CTransaction.spends, hord]
      exact List.mem_map_of_mem hin
    exact hadm.output_ne_none hout (h.spent _ (List.mem_flatMap_of_mem hm hout))
  · obtain ⟨joinsplit, hj⟩ := List.exists_mem_of_ne_nil _ hjs
    have hnf : joinsplit.nullifiers[0] ∈ tx'.nullifiers :=
      List.mem_flatMap_of_mem hj (Vector.mem_toList_iff.2 (Vector.getElem_mem (by decide)))
    have hset := (h.nullifier _).2 (Or.inl (List.mem_flatMap_of_mem hm hnf))
    rw [hadm.nullifier_unset hwf hnf] at hset
    cases hset

theorem step (h : After env L0 done L) (hadm : L.Admits tx) (hwf : tx.WellFormed)
    (hnew : env.getHash tx ∉ done.map env.getHash) (h0 : L0.getCoins (env.getHash tx) = none)
    (hup : L.Updates env nHeight tx L') : After env L0 (done ++ [tx]) L' := by
  have hsp : (done ++ [tx]).flatMap CTransaction.spends = done.flatMap CTransaction.spends ++ tx.spends := by simp
  have hnfs : (done ++ [tx]).flatMap CTransaction.nullifiers =
      done.flatMap CTransaction.nullifiers ++ tx.nullifiers := by simp
  -- what was spent before and what is spent now was not created by this transaction
  have horigin : ∀ out ∈ done.flatMap CTransaction.spends ++ tx.spends,
      out.hash ∈ done.map env.getHash ∨ L0.getCoins out.hash ≠ none := by
    intro out hout
    rcases List.mem_append.1 hout with hold | hthis
    · exact h.origin out hold
    · by_contra hne
      rw [not_or, not_not] at hne
      exact hadm.output_ne_none hthis (by rw [Ledger.output, h.absent _ hne.1 hne.2]; rfl)
  refine ⟨?_, ?_, ?_, ?_, ?_, ?_⟩
  · rw [hsp]
    intro out hout
    have hne : out.hash ≠ env.getHash tx := by
      intro he
      rcases horigin out hout with hm | hL0
      · exact hnew (he ▸ hm)
      · exact hL0 (he ▸ h0)
    rw [hup.output, if_neg hne]
    split
    · rfl
    · rename_i hns
      exact h.spent out ((List.mem_append.1 hout).resolve_right hns)
  · rw [hsp]
    intro out hout
    refine (horigin out hout).imp_left fun hm => ?_
    rw [List.map_append]
    exact List.mem_append_left _ hm
  · intro k hk hL0
    rw [List.map_append, List.mem_append, not_or] at hk
    exact hup.absent k (by simpa using hk.2) (h.absent k hk.1 hL0)
  · intro nf
    rw [hup.nullifier, hnfs, List.mem_append]
    split
    · simp [*]
    · rw [h.nullifier]
      simp [*]
  · rw [hsp, List.nodup_append']
    refine ⟨h.spends_nodup, ?_, fun out h1 h2 => hadm.output_ne_none h2 (h.spent out h1)⟩
    unfold CTransaction.spends
    split
    · exact List.nodup_nil
    · exact hwf.inputs
  · rw [hnfs, List.nodup_append']
    refine ⟨h.nullifiers_nodup, hwf.nullifiers, fun nf h1 h2 => ?_⟩
    have hset := (h.nullifier nf).2 (Or.inl h1)
    rw [hadm.nullifier_unset hwf h2] at hset
    cases hset

end Ledger.After

end LitecoinZ
