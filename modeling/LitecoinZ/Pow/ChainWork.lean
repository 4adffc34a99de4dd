import LitecoinZ.Consensus.ArithUint256
import LitecoinZ.Lib.KeyMap
import LitecoinZ.Primitives.Transaction

/-!
# The work of a chain

`GetBlockProof` of `pow.cpp`, and `AddToBlockIndex` of `main.cpp` as far as it adds up the work.  The proof of a block is
`2 ^ 256 / (target + 1)`, though `2 ^ 256` is no number of the type, and the work of a block is the sum of the proofs on its
branch while that sum is one (`chainWork_exact`).
-/

namespace LitecoinZ

/-- `operator~`. -/
def arithNot (a : Nat) : Nat := 2 ^ 256 - 1 - a

def getBlockProof (nBits : Nat) : Except Fault Nat :=
  let bnTarget := setCompact nBits
  if bnTarget.fNegative || bnTarget.fOverflow || bnTarget.value = 0 then .ok 0
  else (arithDiv (arithNot bnTarget.value) (arithAdd bnTarget.value 1)).map fun quotient => arithAdd quotient 1

/-- The fields of a `CBlockIndex` that have to do with its work. -/
structure WorkEntry where
  pprev : Option Uint256 := none
  nBits : Nat
  nChainWork : Nat := 0
  deriving DecidableEq, Repr

abbrev WorkIndex := KeyMap Uint256 WorkEntry

def addToBlockIndex (getHash : CBlockHeader → Uint256) (index : WorkIndex) (block : CBlockHeader) : Except Fault WorkIndex :=
  if (index.lookup (getHash block)).isSome then .ok index
  else
    -- The new entry is in the map before its parent is looked for there.
    let index := index.insert (getHash block) { nBits := block.nBits }
    let miPrev := index.lookup block.hashPrevBlock
    (getBlockProof block.nBits).map fun proof => index.insert (getHash block) {
      pprev := miPrev.map fun _ => block.hashPrevBlock
      nBits := block.nBits
      nChainWork := arithAdd ((miPrev.map WorkEntry.nChainWork).getD 0) proof }

/-- The target of a code without flags, if it is not zero. -/
def IsTarget (nBits t : Nat) : Prop := setCompact nBits = ⟨t, false, false⟩ ∧ t ≠ 0

/-- The `nBits` of a block and of the blocks before it. -/
inductive Branch (index : WorkIndex) : Uint256 → List Nat → Prop where
  | genesis {h : Uint256} {e : WorkEntry} : index.lookup h = some e → e.pprev = none → Branch index h [e.nBits]
  | next {h p : Uint256} {e : WorkEntry} {l : List Nat} : index.lookup h = some e → e.pprev = some p → Branch index p l →
      Branch index h (e.nBits :: l)

def blockProof (nBits : Nat) : Nat := 2 ^ 256 / ((setCompact nBits).value + 1)

variable {index : WorkIndex} {nBits t : Nat} {h : Uint256} {e : WorkEntry} {l : List Nat}

theorem getBlockProof_eq (ht : IsTarget nBits t) :
    getBlockProof nBits = .ok (blockProof nBits) ∧ 1 ≤ blockProof nBits ∧ blockProof nBits < 2 ^ 256 := by
  obtain ⟨hset, hzero⟩ := ht
  obtain ⟨c, k, hc, htc, hrange⟩ := setCompact_digits hset
  -- A target has few digits, so that it is not the largest number.
  have hlt : t + 1 < 2 ^ 256 := by
    cases k with
    | zero => omega
    | succ k =>
      rw [Nat.mul_succ, Nat.pow_add, ← Nat.mul_assoc] at htc
      omega
  have hdiv := Nat.div_eq_sub_div (Nat.succ_pos t) hlt.le
  have hless : 2 ^ 256 / (t + 1) < 2 ^ 256 := Nat.div_lt_self (by decide) (by omega)
  unfold getBlockProof blockProof arithDiv arithAdd arithNot
  rw [hset]
  simp only [Bool.or_self, Bool.false_or, decide_eq_true_eq, if_neg hzero, Nat.mod_eq_of_lt hlt, if_neg (Nat.succ_ne_zero t)]
  refine ⟨?_, Nat.div_pos hlt.le (Nat.succ_pos t), hless⟩
  have hsub : 2 ^ 256 - 1 - t = 2 ^ 256 - (t + 1) := by omega
  rw [hsub, Except.map, ← hdiv, Nat.mod_eq_of_lt hless]

/-- Every entry has a target, and the work of its parent and its own; a block may name itself as its parent. -/
def Worked (index : WorkIndex) : Prop :=
  ∀ h e, index.lookup h = some e → (∃ t, IsTarget e.nBits t) ∧
    (e.pprev = none ∧ e.nChainWork = blockProof e.nBits ∨ e.pprev = some h ∨
      ∃ p e', e.pprev = some p ∧ index.lookup p = some e' ∧ e.nChainWork = arithAdd e'.nChainWork (blockProof e.nBits))

theorem Worked.add (hindex : Worked index) (getHash : CBlockHeader → Uint256) {block : CBlockHeader}
    (ht : ∃ t, IsTarget block.nBits t) : ∃ index', addToBlockIndex getHash index block = .ok index' ∧ Worked index' := by
  unfold addToBlockIndex
  split
  · exact ⟨index, rfl, hindex⟩
  · rename_i hnew
    have hnone : index.lookup (getHash block) = none := by simpa using hnew
    obtain ⟨hproof, -, hlt⟩ := getBlockProof_eq ht.choose_spec
    rw [hproof]
    refine ⟨_, rfl, fun h e he => ?_⟩
    rcases KeyMap.lookup_insert_cases he with ⟨rfl, rfl⟩ | ⟨hne, he⟩
    · refine ⟨ht, ?_⟩
      dsimp only
      by_cases hself : block.hashPrevBlock = getHash block
      · exact .inr (.inl (by rw [hself, AList.lookup_insert]; rfl))
      · rw [AList.lookup_insert_ne hself]
        cases hp : index.lookup block.hashPrevBlock with
        | none => exact .inl ⟨rfl, (congrArg (· % 2 ^ 256) (Nat.zero_add _)).trans (Nat.mod_eq_of_lt hlt)⟩
        | some e' => exact .inr (.inr ⟨_, e', rfl, by rw [AList.lookup_insert_ne hself, AList.lookup_insert_ne hself, hp], rfl⟩)
    · rw [AList.lookup_insert_ne hne] at he
      obtain ⟨ht', hwork⟩ := hindex h e he
      refine ⟨ht', hwork.imp_right (Or.imp_right ?_)⟩
      rintro ⟨p, e', hp, he', hsum⟩
      have hpe : p ≠ getHash block := by
        rintro rfl
        rw [hnone] at he'
        cases he'
      exact ⟨p, e', hp, by rw [AList.lookup_insert_ne hpe, AList.lookup_insert_ne hpe, he'], hsum⟩

theorem Worked.addAll (hindex : Worked index) (getHash : CBlockHeader → Uint256) {blocks : List CBlockHeader}
    (ht : ∀ block ∈ blocks, ∃ t, IsTarget block.nBits t) :
    ∃ index', blocks.foldlM (addToBlockIndex getHash) index = .ok index' ∧ Worked index' := by
  induction blocks generalizing index with
  | nil => exact ⟨index, rfl, hindex⟩
  | cons block blocks ih =>
    rw [List.forall_mem_cons] at ht
    obtain ⟨index1, hrun, h1⟩ := hindex.add getHash ht.1
    rw [List.foldlM_cons, hrun]
    exact ih h1 ht.2

theorem Branch.not_self (hb : Branch index h l) (he : index.lookup h = some e) : e.pprev ≠ some h := by
  induction hb generalizing e with
  | genesis he' hp =>
    cases he.symm.trans he'
    simp [hp]
  | next he' hp _ ih =>
    cases he.symm.trans he'
    rintro hself
    cases hp.symm.trans hself
    exact ih he hself

theorem Worked.sum (hindex : Worked index) (hb : Branch index h l) (hsum : (l.map blockProof).sum < 2 ^ 256) :
    ∃ e, index.lookup h = some e ∧ e.nChainWork = (l.map blockProof).sum ∧
      ∀ p e', e.pprev = some p → index.lookup p = some e' → e'.nChainWork < e.nChainWork := by
  induction hb with
  | genesis he hp =>
    refine ⟨_, he, ?_, fun p e' hp' => by simp [hp] at hp'⟩
    rcases (hindex _ _ he).2 with ⟨-, hwork⟩ | hself | ⟨p, e', hp', -⟩
    · simpa using hwork
    · simp [hp] at hself
    · simp [hp] at hp'
  | @next h p e l he hp hb ih =>
    rw [List.map_cons, List.sum_cons] at hsum ⊢
    obtain ⟨e', he', hwork', -⟩ := ih (by omega)
    obtain ⟨ht, hwork⟩ := hindex _ _ he
    have hpos := (getBlockProof_eq ht.choose_spec).2.1
    rcases hwork with ⟨hnone, -⟩ | hself | ⟨p', e1, hp', he1, hwork⟩
    · simp [hp] at hnone
    · exact absurd hself ((Branch.next he hp hb).not_self he)
    · cases hp.symm.trans hp'
      cases he'.symm.trans he1
      rw [hwork', arithAdd, Nat.add_comm, Nat.mod_eq_of_lt hsum] at hwork
      refine ⟨e, he, hwork, fun p1 e1 hp1 he1 => ?_⟩
      cases hp.symm.trans hp1
      cases he'.symm.trans he1
      omega

end LitecoinZ
