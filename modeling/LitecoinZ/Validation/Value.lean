import Mathlib.Algebra.BigOperators.Group.Finset.Piecewise
import Mathlib.Algebra.Order.BigOperators.Group.Finset
import Mathlib.Data.Fintype.EquivFin
import LitecoinZ.Validation.Effects

/-!
# The value of a ledger

The sum of the unspent outputs (`Ledger.value`) and how transactions change it: spending inputs takes away what they
are worth (`spendInputs_value`), and new coins are worth at most the outputs of their transaction
(`updateCoins_value`).  Inputs that are all different are worth at most the ledger (`inputsValue_le`).
-/

namespace LitecoinZ

open StateExcept ViewM List

/-! ### Coins -/

def outputsValue (vout : List CTxOut) : CAmount := ((vout.filter (!·.isNull)).map CTxOut.nValue).sum

@[simp] theorem outputsValue_nil : outputsValue [] = 0 := rfl

theorem outputsValue_cons (o : CTxOut) (vout : List CTxOut) :
    outputsValue (o :: vout) = (if o.isNull then 0 else o.nValue) + outputsValue vout := by
  cases h : o.isNull <;> simp [outputsValue, h]

theorem outputsValue_dropNulls (vout : List CTxOut) : outputsValue (dropNulls vout) = outputsValue vout := by
  induction vout using List.reverseRecOn with
  | nil => rfl
  | append_singleton vout o ih =>
    by_cases ho : o.isNull = true
    · rw [dropNulls, rdropWhile_concat_pos _ _ _ ho, ← dropNulls, ih]
      simp [outputsValue, ho]
    · rw [dropNulls, rdropWhile_concat_neg _ _ _ ho]

variable {vout : List CTxOut} {L : Ledger}

theorem outputsValue_set_null {n : Nat} {o : CTxOut} (h : vout[n]? = some o) (ho : o.isNull = false) :
    outputsValue (vout.set n .null) = outputsValue vout - o.nValue := by
  induction vout generalizing n with
  | nil => cases h
  | cons a vout ih =>
    cases n with
    | zero =>
      cases h
      simp [outputsValue_cons, ho]
    | succ n =>
      rw [getElem?_cons_succ] at h
      rw [set_cons_succ, outputsValue_cons, outputsValue_cons, ih h]
      ring

def OutputsNonneg (vout : List CTxOut) : Prop := ∀ o ∈ vout, o.isNull = false → 0 ≤ o.nValue

theorem outputsValue_nonneg (h : OutputsNonneg vout) : 0 ≤ outputsValue vout := by
  refine sum_nonneg fun v hv => ?_
  obtain ⟨o, ho, rfl⟩ := mem_map.1 hv
  obtain ⟨hm, hn⟩ := mem_filter.1 ho
  exact h o hm (by simpa using hn)

namespace CCoins

def value (c : CCoins) : CAmount := outputsValue c.vout

theorem value_cleanup (c : CCoins) : c.cleanup.value = c.value := outputsValue_dropNulls c.vout

variable {c : CCoins}

theorem value_of_isPruned (h : c.isPruned = true) : c.value = 0 := by
  have hnil : c.vout.filter (!·.isNull) = [] := by
    refine filter_eq_nil_iff.2 fun o ho => ?_
    simpa using all_eq_true.1 h o ho
  simp [value, outputsValue, hnil]

theorem value_spend {n : Nat} {o : CTxOut} (h : c.output n = some o) :
    (c.spend n).2.value = c.value - o.nValue := by
  have hav : c.isAvailable n = true := by simp [isAvailable_eq, h]
  obtain ⟨hget, hnull⟩ := Option.filter_eq_some_iff.1 h
  rw [spend, if_pos hav, value_cleanup]
  exact outputsValue_set_null hget (by simpa using hnull)

theorem value_fromTx_le {tx : CTransaction} (htx : tx.WellFormed) (nHeight : Int) :
    (fromTx tx nHeight).value ≤ tx.voutValue := by
  have hle : ∀ vout : List CTxOut, (∀ o ∈ vout, IsMoney o.nValue) →
      outputsValue (vout.map fun o => if isUnspendable o.scriptPubKey then .null else o) ≤
        (vout.map CTxOut.nValue).sum := by
    intro vout hv
    induction vout with
    | nil => exact le_refl _
    | cons o vout ih =>
      obtain ⟨h1, h2⟩ := forall_mem_cons.1 hv
      have hrest := ih h2
      have hpos : 0 ≤ o.nValue := h1.1
      rw [map_cons, outputsValue_cons, map_cons, sum_cons]
      split
      · rw [if_pos CTxOut.isNull_null]
        linarith
      · split <;> linarith
  rw [fromTx, clearUnspendable, value_cleanup]
  exact hle tx.vout htx.vout

theorem outputsNonneg_spend (h : OutputsNonneg c.vout) (n : Nat) :
    OutputsNonneg (c.spend n).2.vout := by
  unfold spend
  split
  · intro o ho hnull
    rcases mem_or_eq_of_mem_set (( rdropWhile_prefix CTxOut.isNull _).subset ho) with hm | rfl
    · exact h o hm hnull
    · cases hnull
  · exact h

theorem outputsNonneg_fromTx {tx : CTransaction} (htx : tx.WellFormed) (nHeight : Int) :
    OutputsNonneg (fromTx tx nHeight).vout := by
  intro o ho hnull
  obtain ⟨txout, hm, rfl⟩ := mem_map.1 (( rdropWhile_prefix CTxOut.isNull _).subset ho)
  split at hnull
  · cases hnull
  · rw [if_neg ‹_›]
    exact (htx.vout txout hm).1

end CCoins

/-! ### Ledgers -/

noncomputable instance : Fintype Uint256 :=
  @Fintype.ofFinite _ (Finite.of_injective BitVec.toFin fun _ _ => BitVec.eq_of_toFin_eq)

def coinsValue (c : Option CCoins) : CAmount := (c.map CCoins.value).getD 0

theorem coinsValue_unspent (c : CCoins) : coinsValue (unspent (some c.cleanup)) = c.value := by
  by_cases hp : c.isPruned = true
  · rw [unspent_some_of_pruned (by simpa using hp), CCoins.value_of_isPruned hp]
    rfl
  · rw [unspent_some_of_not_pruned (by simpa using hp)]
    exact CCoins.value_cleanup c

noncomputable def Ledger.value (L : Ledger) : CAmount := ∑ k, coinsValue (L.getCoins k)

/-- What the output at an outpoint is worth. -/
def Ledger.outputValue (L : Ledger) (out : COutPoint) : CAmount := ((L.output out).map CTxOut.nValue).getD 0

theorem Ledger.value_setCoins (L : Ledger) (k : Uint256) (c : CCoins) :
    Ledger.value (L.setCoins k c) = L.value - coinsValue (L.getCoins k) + c.value := by
  have hsplit : ∀ M : Ledger,
      M.value = coinsValue (M.getCoins k) + ∑ k' ∈ Finset.univ \ {k}, coinsValue (M.getCoins k') :=
    fun M => Finset.sum_eq_add_sum_sdiff_singleton_of_mem (Finset.mem_univ k) _
  have hother : ∑ k' ∈ Finset.univ \ {k}, coinsValue ((L.setCoins k c).getCoins k') =
      ∑ k' ∈ Finset.univ \ {k}, coinsValue (L.getCoins k') := by
    refine Finset.sum_congr rfl fun k' hk' => ?_
    have hne : k' ≠ k := by simpa using hk'
    rw [ViewAnswers.getCoins_setCoins_ne _ hne]
  rw [hsplit, hsplit L, hother, ViewAnswers.getCoins_setCoins_self, coinsValue_unspent]
  ring

def Ledger.Nonneg (L : Ledger) : Prop := ∀ k c, L.getCoins k = some c → OutputsNonneg c.vout

theorem Ledger.Nonneg.setCoins (h : L.Nonneg) (k : Uint256) {c : CCoins} (hc : OutputsNonneg c.vout) :
    Ledger.Nonneg (L.setCoins k c) := by
  intro k' c' hk'
  by_cases hk : k' = k
  · subst hk
    rw [ViewAnswers.getCoins_setCoins_self] at hk'
    obtain ⟨he, -⟩ := Option.filter_eq_some_iff.1 hk'
    cases he
    exact fun o ho => hc o (( rdropWhile_prefix CTxOut.isNull _).subset ho)
  · rw [ViewAnswers.getCoins_setCoins_ne _ hk] at hk'
    exact h k' c' hk'

theorem Ledger.Nonneg.coinsValue (h : L.Nonneg) (k : Uint256) :
    0 ≤ LitecoinZ.coinsValue (L.getCoins k) := by
  cases hk : L.getCoins k with
  | none => exact le_refl _
  | some c => exact outputsValue_nonneg (h k c hk)

theorem Ledger.Nonneg.value (h : L.Nonneg) : 0 ≤ L.value :=
  Finset.sum_nonneg fun k _ => h.coinsValue k

theorem Ledger.Nonneg.outputValue (h : L.Nonneg) (out : COutPoint) : 0 ≤ L.outputValue out := by
  unfold Ledger.outputValue Ledger.output
  cases hk : L.getCoins out.hash with
  | none => exact le_refl _
  | some c =>
    cases ho : c.output out.n with
    | none => simp [ho]
    | some o =>
      obtain ⟨hget, hnull⟩ := Option.filter_eq_some_iff.1 ho
      simpa [ho] using h out.hash c hk o (mem_of_getElem? hget) (by simpa using hnull)

theorem Ledger.value_spend (h : L.Nonneg) {out : COutPoint} {c : CCoins} (hc : L.getCoins out.hash = some c)
    (hav : c.isAvailable out.n = true) :
    Ledger.Nonneg (L.setCoins out.hash (c.spend out.n).2) ∧
    Ledger.value (L.setCoins out.hash (c.spend out.n).2) = L.value - L.outputValue out ∧
    ∀ out', out' ≠ out → Ledger.outputValue (L.setCoins out.hash (c.spend out.n).2) out' = L.outputValue out' := by
  obtain ⟨o, ho⟩ := Option.isSome_iff_exists.1 ((CCoins.isAvailable_eq c out.n).symm.trans hav)
  have hvalue : L.outputValue out = o.nValue := by simp [Ledger.outputValue, Ledger.output, hc, ho]
  refine ⟨h.setCoins _ (CCoins.outputsNonneg_spend (h _ c hc) _), ?_, fun out' hne => ?_⟩
  · have hcv : LitecoinZ.coinsValue (L.getCoins out.hash) = c.value := by rw [hc]; rfl
    rw [Ledger.value_setCoins, hcv, CCoins.value_spend ho, hvalue]
    ring
  · rw [Ledger.outputValue, Ledger.output_spend hc hav, if_neg hne]
    rfl

theorem Ledger.outputValues_le (h : L.Nonneg) {outs : List COutPoint} (hnd : outs.Nodup)
    (hav : ∀ out ∈ outs, L.output out ≠ none) : (outs.map L.outputValue).sum ≤ L.value := by
  induction outs generalizing L with
  | nil => simpa using h.value
  | cons out outs ih =>
    obtain ⟨h1, h2⟩ := forall_mem_cons.1 hav
    obtain ⟨hout, hnd'⟩ := nodup_cons.1 hnd
    -- take the first output away and look at the rest
    obtain ⟨c, hc, hcav⟩ : ∃ c, L.getCoins out.hash = some c ∧ c.isAvailable out.n = true := by
      cases hc : L.getCoins out.hash with
      | none => simp [Ledger.output, hc] at h1
      | some c =>
        refine ⟨c, rfl, ?_⟩
        rw [CCoins.isAvailable_eq, Option.isSome_iff_ne_none]
        simpa [Ledger.output, hc] using h1
    obtain ⟨hnn, hval, hsame⟩ := Ledger.value_spend h hc hcav
    have hne : ∀ out' ∈ outs, out' ≠ out := fun out' hm he => hout (he ▸ hm)
    have hrest := ih hnn hnd' fun out' hm => by
      rw [Ledger.output_spend hc hcav, if_neg (hne out' hm)]
      exact h2 out' hm
    rw [map_congr_left fun out' hm => hsame out' (hne out' hm), hval] at hrest
    rw [map_cons, sum_cons]
    linarith

variable [MerkleHash Uint256]

theorem spendInputs_value {L' : Ledger} {vin : List CTxIn} {undos : List CTxInUndo} (hL : L.Nonneg)
    (hnd : (vin.map CTxIn.prevout).Nodup) (h : (spendInputs vin).run L = .ok (undos, L')) :
    L'.Nonneg ∧ L'.value = L.value - ((vin.map CTxIn.prevout).map L.outputValue).sum := by
  induction vin generalizing L undos with
  | nil =>
    obtain ⟨-, rfl⟩ := run_pure_ok.1 h
    exact ⟨hL, by simp⟩
  | cons txin vin ih =>
    obtain ⟨undo, L1, h1, h⟩ := run_bind_ok.1 h
    obtain ⟨undos', L2, h2, h⟩ := run_bind_ok.1 h
    obtain ⟨rfl, rfl⟩ := run_pure_ok.1 h
    obtain ⟨c, c', hc, hspend, rfl⟩ := spendInput_ok h1
    obtain ⟨hav, rfl, -⟩ := spendForUndo_ok hspend
    obtain ⟨hout, hnd'⟩ := nodup_cons.1 hnd
    obtain ⟨hnn, hval, hsame⟩ := Ledger.value_spend hL hc hav
    obtain ⟨hnn', hval'⟩ := ih hnn hnd' h2
    refine ⟨hnn', ?_⟩
    rw [hval', hval, map_congr_left fun out hm => hsame out fun he => hout (he ▸ hm)]
    simp only [map_cons, sum_cons]
    ring

def CTransaction.inputsValue (tx : CTransaction) (L : Ledger) : CAmount := (tx.spends.map L.outputValue).sum

theorem updateCoins_value {env : Env} {tx : CTransaction} {nHeight : Int} {L' : Ledger} {txundo : CTxUndo}
    (hL : L.Nonneg) (htx : tx.WellFormed) (h : (updateCoins env tx nHeight).run L = .ok (txundo, L')) :
    L'.Nonneg ∧ L'.value ≤ L.value - tx.inputsValue L + tx.voutValue := by
  obtain ⟨L1, h1, rfl⟩ := updateCoins_ok h
  obtain ⟨hnn, hval⟩ : L1.Nonneg ∧ L1.value = L.value - tx.inputsValue L := by
    unfold CTransaction.inputsValue CTransaction.spends
    split at h1
    · obtain ⟨-, rfl⟩ := run_pure_ok.1 h1
      rw [if_pos ‹_›]
      exact ⟨hL, by simp⟩
    · rw [if_neg ‹_›]
      exact spendInputs_value hL htx.inputs h1
  have hnn' : Ledger.Nonneg (L1.markNullifiers true tx.nullifiers) := hnn
  refine ⟨hnn'.setCoins _ (CCoins.outputsNonneg_fromTx htx nHeight), ?_⟩
  have hold := hnn'.coinsValue (env.getHash tx)
  have hnew := CCoins.value_fromTx_le htx nHeight
  have hmark : Ledger.value (L1.markNullifiers true tx.nullifiers) = L1.value := rfl
  rw [Ledger.value_setCoins, hmark, hval]
  linarith

end LitecoinZ
