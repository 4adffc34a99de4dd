import LitecoinZ.Pow.NextWork
import LitecoinZ.Validation.CheckTransaction

/-!
# Chains of headers

`ContextualCheckBlockHeader` of `main.cpp`.  Along headers that pass it every block is later than the median time past
of each block before it, which never goes back (`medianTimePast_mono`).
-/

namespace LitecoinZ

open StateExcept List

/-- `pcheckpoint` is the height of the last checkpoint, if there is one and checkpoints are enabled. -/
def contextualCheckBlockHeader (env : Env) (p : PowParams) (pcheckpoint : Option Nat) (header : CBlockHeader)
    (pindexPrev : List PowBlock) : Except Fault Unit :=
  if env.blockHash header = env.hashGenesisBlock then pure ()
  else do
    reject pindexPrev.isEmpty (.assertion "pindexPrev")
    let nBits ← getNextWorkRequired p pindexPrev
    reject (header.nBits ≠ nBits) (rejectInvalid 100 "bad-diffbits")
    let nMedian ← getMedianTimePast pindexPrev
    reject (header.nTime ≤ nMedian) (rejectInvalid 0 "time-too-old")
    reject (pcheckpoint.any (pindexPrev.length < ·)) (.dos 100 0 "" false)
    reject (header.nVersion < 4) (.dos 0 REJECT_OBSOLETE "bad-version" false)

/-- Index entries, the last one first, of headers that pass the check on those before. -/
inductive HeaderChain (env : Env) (p : PowParams) : List PowBlock → Prop
  | nil : HeaderChain env p []
  | accept (header : CBlockHeader) (pcheckpoint : Option Nat) {block : PowBlock} {chain : List PowBlock}
      (time : header.nTime = block.nTime.toNat) (bits : header.nBits = block.nBits.toNat)
      (genesis : env.blockHash header = env.hashGenesisBlock → chain = [])
      (checked : contextualCheckBlockHeader env p pcheckpoint header chain = .ok ()) (rest : HeaderChain env p chain) :
      HeaderChain env p (block :: chain)

variable {env : Env} {p : PowParams} {new chain : List PowBlock} {block : PowBlock} {m m' : Int}

private theorem le_getElem_iff {l : List Int} (hl : l.Pairwise (· ≤ ·)) {k : Nat} (hk : k < l.length) :
    m ≤ l[k] ↔ l.countP (· < m) ≤ k := by
  induction l generalizing k with
  | nil => cases hk
  | cons a l ih =>
    obtain ⟨ha, hl⟩ := pairwise_cons.1 hl
    have hzero : m ≤ a → l.countP (· < m) = 0 := fun hle => countP_eq_zero.2 (by grind)
    cases k <;> grind

private theorem le_median_iff (h : getMedianTimePast chain = .ok m') :
    m ≤ m' ↔ (chain.take 11).countP (·.nTime.toNat < m) ≤ (chain.take 11).length / 2 := by
  unfold getMedianTimePast at h
  dsimp only at h
  split at h
  · rename_i nTime hget
    cases h
    obtain ⟨hk, rfl⟩ := List.getElem?_eq_some_iff.1 hget
    rw [le_getElem_iff (pairwise_insertionSort _ _), (perm_insertionSort _ _).countP_eq, countP_map, length_insertionSort, length_map]
    rfl
  · cases h

private theorem HeaderChain.step (h : HeaderChain env p (block :: chain)) : HeaderChain env p chain ∧
    ∀ m, getMedianTimePast chain = .ok m →
      m < block.nTime.toNat ∧ ∃ m', getMedianTimePast (block :: chain) = .ok m' ∧ m ≤ m' := by
  cases h with
  | accept header pcheckpoint time _ genesis checked rest =>
    refine ⟨rest, fun m hm => ?_⟩
    have hgen : env.blockHash header ≠ env.hashGenesisBlock := fun h => by rw [genesis h] at hm; cases hm
    simp only [contextualCheckBlockHeader, if_neg hgen, except_bind_ok, hm, reject_ok] at checked
    obtain ⟨_, -, _, -, _, -, _, hmed, _, htime, -⟩ := checked
    cases hmed
    have hlt : m < block.nTime.toNat := by rw [← time]; simpa using htime
    obtain ⟨m', hm', -⟩ := getMedianTimePast_range (cons_ne_nil block chain)
    refine ⟨hlt, m', hm', (le_median_iff hm').2 ?_⟩
    have hold := (le_median_iff hm).1 le_rfl
    have hcount := (take_sublist_take_left (l := chain) (show 10 ≤ 11 by decide)).countP_le (p := (·.nTime.toNat < m))
    simp only [take_succ_cons, countP_cons, length_cons, length_take, decide_eq_true_eq, if_neg hlt.not_gt] at hold ⊢
    omega

theorem medianTimePast_mono (h : HeaderChain env p (new ++ chain)) (hm : getMedianTimePast chain = .ok m) :
    (∀ block ∈ new, m < block.nTime.toNat) ∧ ∃ m', getMedianTimePast (new ++ chain) = .ok m' ∧ m ≤ m' := by
  induction new with
  | nil => exact ⟨nofun, m, hm, le_rfl⟩
  | cons block new ih =>
    obtain ⟨hrest, hstep⟩ := h.step
    obtain ⟨hnew, m₁, hm₁, hle⟩ := ih hrest
    obtain ⟨hlt, m₂, hm₂, hle'⟩ := hstep m₁ hm₁
    exact ⟨forall_mem_cons.2 ⟨hle.trans_lt hlt, hnew⟩, m₂, hm₂, hle.trans hle'⟩

theorem medianTimePast_mono_two_blocks : ∃ m', getMedianTimePast [⟨3, 0x1f07ffff⟩, ⟨1, 0⟩] = .ok m' ∧ 1 ≤ m' := by
  have h : HeaderChain plainEnv mainPow ([⟨3, 0x1f07ffff⟩] ++ [⟨1, 0⟩]) :=
    .accept ⟨4, 0, 0, 0, 3, 0x1f07ffff, 0, []⟩ none rfl rfl (by decide) (by decide +kernel)
      (.accept ⟨4, 0, 0, 0, 1, 0, 0, []⟩ none rfl rfl (fun _ => rfl) (by decide +kernel) .nil)
  exact (medianTimePast_mono h rfl).2

end LitecoinZ
