import LitecoinZ.Chain.SkipList
import LitecoinZ.Lib.Loop

/-!
# The index of the active chain

`CChain` with `SetTip`, `FindFork` and `GetLocator` of `chain.cpp`, and `LastCommonAncestor` and `FindForkInGlobalIndex` of
`main.cpp`.  Whatever tips have been set, the vector holds the ancestors of the last one (`setTips_eq`), so that being on the
chain is being above its tip, and the loops find what they are for (`activeChain_exact`).  `SetTip` and the step of
`GetLocator` leave the range of `int` in chains that are long enough (`activeChain_overflows`).
-/

namespace LitecoinZ

open Forest StateExcept List

def outOfRange : Fault := .exception "vector index out of range"

structure CChain where
  vChain : List (Option Uint256) := []
  deriving DecidableEq, Repr

structure CBlockLocator where
  vHave : List Uint256 := []
  deriving DecidableEq, Repr

variable (index : LinkMap) (chain : CChain)

namespace CChain

def genesis (chain : CChain) : Option Uint256 := chain.vChain.head?.join

def tip (chain : CChain) : Option Uint256 := chain.vChain.getLast?.join

/-- `operator[]`. -/
def get (chain : CChain) (nHeight : Int) : Option Uint256 :=
  if nHeight < 0 ∨ nHeight ≥ chain.vChain.length then none else chain.vChain[nHeight.toNat]?.join

def contains (chain : CChain) (pindex : Option Uint256) : Except Fault Bool := do
  let links ← index.deref pindex
  pure (chain.get links.nHeight = pindex)

def height (chain : CChain) : Int := chain.vChain.length - 1

/-- `vChain.resize(n)`. -/
def resize (vChain : List (Option Uint256)) (n : Nat) : List (Option Uint256) :=
  vChain.take n ++ List.replicate (n - vChain.length) none

/-- A round of the loop of `SetTip`, over `pindex` and `vChain`. -/
def setTipRound (s : Option Uint256 × List (Option Uint256)) :
    Except Fault (CChain ⊕ (Option Uint256 × List (Option Uint256))) :=
  match s.1 with
  | none => .ok (.inl ⟨s.2⟩)
  | some hash => do
    let links ← index.deref (some hash)
    if links.nHeight < 0 ∨ links.nHeight ≥ s.2.length then .error outOfRange
    else if s.2[links.nHeight.toNat]? = some (some hash) then .ok (.inl ⟨s.2⟩)
    else .ok (.inr (links.pprev, s.2.set links.nHeight.toNat (some hash)))

def tipLength (pindex : Option Uint256) : Except Fault Int := do
  let links ← index.deref pindex
  checkedInt (links.nHeight + 1)

def setTip (fuel : Nat) (pindex : Option Uint256) (chain : CChain) : Option (Except Fault CChain) :=
  match pindex with
  | none => some (.ok {})
  | some hash =>
    match tipLength index (some hash) with
    | .error fault => some (.error fault)
    | .ok n => loop (fun _ => setTipRound index) fuel 0 (some hash, resize chain.vChain n.toNat)

def setTips (index : LinkMap) (fuel : Nat) : List (Option Uint256) → CChain → Option (Except Fault CChain)
  | [], chain => some (.ok chain)
  | pindex :: tips, chain =>
    match setTip index fuel pindex chain with
    | some (.ok chain') => setTips index fuel tips chain'
    | r => r

/-- Where the walk of `FindFork` starts. -/
def findForkStart (pindex : Option Uint256) : Except Fault (Option Uint256) := do
  let links ← index.deref pindex
  if links.nHeight > chain.height then index.getAncestor pindex chain.height else pure pindex

def findForkRound (pindex : Option Uint256) : Except Fault (Option Uint256 ⊕ Option Uint256) :=
  match pindex with
  | none => .ok (.inl none)
  | some hash => do
    let contained ← chain.contains index (some hash)
    let links ← index.deref (some hash)
    pure (if contained then .inl (some hash) else .inr links.pprev)

def findFork (fuel : Nat) (chain : CChain) (pindex : Option Uint256) : Option (Except Fault (Option Uint256)) :=
  match findForkStart index chain pindex with
  | .error fault => some (.error fault)
  | .ok start => loop (fun _ => findForkRound index chain) fuel 0 start

structure LocatorState where
  pindex : Option Uint256
  nStep : Int := 1
  vHave : List Uint256 := []

/-- The block of height `nHeight` of the branch of `pindex`, from the vector if possible. -/
def stepBack (pindex : Option Uint256) (nHeight : Int) : Except Fault (Option Uint256) := do
  let contained ← chain.contains index pindex
  if contained then pure (chain.get nHeight) else index.getAncestor pindex nHeight

def nextStep (nStep : Int) (size : Nat) : Except Fault Int := if size > 10 then checkedInt (nStep * 2) else .ok nStep

def locatorRound (s : LocatorState) : Except Fault (CBlockLocator ⊕ LocatorState) :=
  match s.pindex with
  | none => .ok (.inl ⟨s.vHave⟩)
  | some hash => do
    let links ← index.deref (some hash)
    let vHave := s.vHave ++ [hash]
    if links.nHeight = 0 then pure (.inl ⟨vHave⟩)
    else
      let pindex ← stepBack index chain (some hash) (max (links.nHeight - s.nStep) 0)
      let nStep ← nextStep s.nStep vHave.length
      pure (.inr { pindex, nStep, vHave })

def getLocator (fuel : Nat) (chain : CChain) (pindex : Option Uint256) : Option (Except Fault CBlockLocator) :=
  loop (fun _ => locatorRound index chain) fuel 0 { pindex := pindex.or chain.tip }

end CChain

/-! ### `LastCommonAncestor` and `FindForkInGlobalIndex` -/

def sameHeight (pa pb : Option Uint256) : Except Fault (Option Uint256 × Option Uint256) := do
  let a ← index.deref pa
  let b ← index.deref pb
  if a.nHeight > b.nHeight then
    let pa' ← index.getAncestor pa b.nHeight
    pure (pa', pb)
  else if b.nHeight > a.nHeight then
    let pb' ← index.getAncestor pb a.nHeight
    pure (pa, pb')
  else pure (pa, pb)

def commonAncestorRound (s : Option Uint256 × Option Uint256) :
    Except Fault (Option Uint256 ⊕ (Option Uint256 × Option Uint256)) :=
  if s.1 ≠ s.2 ∧ s.1.isSome ∧ s.2.isSome then do
    let a ← index.deref s.1
    let b ← index.deref s.2
    pure (.inr (a.pprev, b.pprev))
  else if s.1 = s.2 then .ok (.inl s.1)
  else .error (.assertion "pa == pb")

def lastCommonAncestor (fuel : Nat) (pa pb : Option Uint256) : Option (Except Fault (Option Uint256)) :=
  match sameHeight index pa pb with
  | .error fault => some (.error fault)
  | .ok s => loop (fun _ => commonAncestorRound index) fuel 0 s

/-- The loop of `FindForkInGlobalIndex`. -/
def findListed (index : LinkMap) (chain : CChain) : List Uint256 → Except Fault (Option Uint256)
  | [] => .ok chain.genesis
  | hash :: vHave =>
    match index.lookup hash with
    | none => findListed index chain vHave
    | some _ => do
      let contained ← chain.contains index (some hash)
      if contained then pure (some hash) else findListed index chain vHave

def findForkInGlobalIndex (locator : CBlockLocator) : Except Fault (Option Uint256) :=
  findListed index chain locator.vHave

namespace LinkMap

variable {index : LinkMap}

/-- What is left of the walk to the root. -/
def remaining (index : LinkMap) : Option Uint256 → Nat
  | none => 0
  | some a => (index.heightOf a).toNat + 1

theorem Linked.remaining_pprev (hindex : index.Linked) {a : Uint256} (ha : index.Known a) :
    index.remaining (index.pprevOf a) < index.remaining (some a) := by
  cases hp : index.pprevOf a with
  | none => exact Nat.succ_pos _
  | some p =>
    obtain ⟨hknown, hht⟩ := hindex.graded.step ha hp
    have := hindex.graded.nonneg hknown
    simp only [remaining]
    omega

end LinkMap

namespace CChain

open LinkMap

/-! ### The chain of a tip -/

def chainTo (index : LinkMap) : Option Uint256 → CChain
  | none => {}
  | some t => ⟨(List.range ((index.heightOf t).toNat + 1)).map fun h => up index.pprevOf ((index.heightOf t).toNat - h) t⟩

variable {index : LinkMap} {t a b : Uint256} {tip old : Option Uint256} {v tips : List (Option Uint256)}

theorem length_chainTo : (chainTo index (some t)).vChain.length = (index.heightOf t).toNat + 1 := by
  rw [chainTo, length_map, length_range]

theorem getElem_chainTo {k : Nat} (hk : k ≤ (index.heightOf t).toNat) :
    (chainTo index (some t)).vChain[k]? = some (up index.pprevOf ((index.heightOf t).toNat - k) t) := by
  rw [chainTo, getElem?_map, getElem?_range (by omega)]
  rfl

theorem get_eq {nHeight : Int} (h : 0 ≤ nHeight) : chain.get nHeight = chain.vChain[nHeight.toNat]?.join := by
  unfold get
  split
  · rw [getElem?_eq_none (by omega)]
    rfl
  · rfl

theorem get_chainTo {k : Int} (h0 : 0 ≤ k) (hk : k ≤ index.heightOf t) :
    (chainTo index (some t)).get k = up index.pprevOf (index.heightOf t - k).toNat t := by
  rw [get_eq _ h0, getElem_chainTo (by omega), Option.join_some]
  congr 1
  omega

theorem mem_chainTo (hindex : index.Linked) (ht : index.Known t) :
    some a ∈ (chainTo index (some t)).vChain ↔ Ancestor index.pprevOf a t := by
  rw [chainTo, mem_map]
  constructor
  · rintro ⟨h, -, ha⟩
    exact ⟨_, ha⟩
  · intro ha
    obtain ⟨hknown, hle⟩ := hindex.graded.of_ancestor ht ha
    have hup := hindex.graded.up_of_ancestor ht ha
    have hnn := hindex.graded.nonneg hknown
    refine ⟨(index.heightOf a).toNat, mem_range.2 (by omega), ?_⟩
    rw [← hup]
    congr 1
    omega

theorem contains_chainTo (hindex : index.Linked) (htip : ∀ t, tip = some t → index.Known t) (ha : index.Known a) :
    (chainTo index tip).contains index (some a) = .ok (decide (some a ∈ (chainTo index tip).vChain)) := by
  obtain ⟨links, hderef, hht, -⟩ := ha.deref
  have hnn := hindex.graded.nonneg ha
  rw [contains, hderef]
  refine congrArg Except.ok (decide_eq_decide.2 ?_)
  rw [hht]
  cases tip with
  | none =>
    rw [get_eq _ hnn]
    simp [chainTo]
  | some t =>
    rw [mem_chainTo hindex (htip t rfl)]
    constructor
    · intro hget
      by_cases hle : index.heightOf a ≤ index.heightOf t
      · rw [get_chainTo hnn hle] at hget
        exact ⟨_, hget⟩
      · have hnn' := hindex.graded.nonneg (htip t rfl)
        rw [get_eq _ hnn, getElem?_eq_none (by rw [length_chainTo]; omega)] at hget
        cases hget
    · intro hat
      rw [get_chainTo hnn (hindex.graded.of_ancestor (htip t rfl) hat).2]
      exact hindex.graded.up_of_ancestor (htip t rfl) hat

/-! ### Setting the tip -/

theorem getElem_resize {n k : Nat} (hk : k < n) : (resize v n)[k]? = some v[k]?.join := by
  unfold resize
  rcases Nat.lt_or_ge k v.length with hlt | hge
  · rw [getElem?_append_left (by rw [length_take]; omega), getElem?_take_of_lt hk,
      getElem?_eq_getElem hlt]
    rfl
  · rw [getElem?_append_right (by rw [length_take]; omega), length_take,
      getElem?_replicate_of_lt (by omega), getElem?_eq_none hge]
    rfl

theorem length_resize (v : List (Option Uint256)) (n : Nat) : (resize v n).length = n := by
  unfold resize
  rw [length_append, length_take, length_replicate]
  omega

/-- After `n` rounds of `SetTip` the last `n` entries are those of the new tip and the others those of the old one. -/
structure Setting (index : LinkMap) (old : Option Uint256) (t : Uint256) (n : Nat)
    (s : Option Uint256 × List (Option Uint256)) : Prop where
  le : n ≤ (index.heightOf t).toNat + 1
  walk : s.1 = up index.pprevOf n t
  length : s.2.length = (index.heightOf t).toNat + 1
  entry : ∀ k ≤ (index.heightOf t).toNat, s.2[k]? = some (if (index.heightOf t).toNat < k + n then
    up index.pprevOf ((index.heightOf t).toNat - k) t else (chainTo index old).vChain[k]?.join)

theorem eq_chainTo (hlen : v.length = (index.heightOf t).toNat + 1)
    (h : ∀ k ≤ (index.heightOf t).toNat, v[k]? = some (up index.pprevOf ((index.heightOf t).toNat - k) t)) :
    CChain.mk v = chainTo index (some t) := by
  rw [chainTo]
  congr 1
  refine ext_getElem? fun k => ?_
  rcases Nat.lt_or_ge (index.heightOf t).toNat k with hlt | hle
  · rw [getElem?_eq_none (by omega), getElem?_eq_none (by rw [length_map, length_range]; omega)]
  · rw [h k hle]
    exact (getElem_chainTo hle).symm

section

variable (hindex : index.Linked) (hold : ∀ o, old = some o → index.Known o) (ht : index.Known t)
include hindex hold ht

theorem Setting.stop {n : Nat} (h : Setting index old t n (some a, v)) (ha : v[(index.heightOf a).toNat]? = some (some a)) :
    CChain.mk v = chainTo index (some t) := by
  obtain ⟨hknown, hht⟩ := hindex.graded.of_up ht h.walk.symm
  have hnn := hindex.graded.nonneg hknown
  refine eq_chainTo h.length fun k hk => ?_
  rw [h.entry k hk]
  split
  · rfl
  · rename_i hkn
    rw [h.entry _ (by omega), if_neg (by omega)] at ha
    cases old with
    | none => cases ha
    | some o =>
      have ho := hold o rfl
      rcases Nat.lt_or_ge (index.heightOf o).toNat (index.heightOf a).toNat with hlt | hle
      · rw [getElem?_eq_none (by rw [length_chainTo]; omega)] at ha
        cases ha
      · rw [getElem_chainTo hle] at ha
        rw [getElem_chainTo (by omega)]
        have hao := Option.some.inj ha
        rw [Option.join_some] at hao ⊢
        -- Below `a` the two branches are the same.
        have h1 : (index.heightOf o).toNat - k =
            ((index.heightOf o).toNat - (index.heightOf a).toNat) + ((index.heightOf a).toNat - k) := by omega
        have h2 : (index.heightOf t).toNat - k = n + ((index.heightOf a).toNat - k) := by omega
        rw [h1, h2, up_add, up_add, hao, ← h.walk]

theorem Setting.round {n : Nat} {s : Option Uint256 × List (Option Uint256)} (h : Setting index old t n s) :
    setTipRound index s = .ok (.inl (chainTo index (some t))) ∨
      ∃ s', setTipRound index s = .ok (.inr s') ∧ Setting index old t (n + 1) s' ∧
        index.remaining s'.1 < index.remaining s.1 := by
  obtain ⟨pindex, v⟩ := s
  have hnn := hindex.graded.nonneg ht
  cases pindex with
  | none =>
    left
    have hn : (index.heightOf t).toNat < n := by
      by_contra hle
      obtain ⟨b, hb⟩ := hindex.graded.exists_up ht (show (n : Int) ≤ index.heightOf t by omega)
      have hwalk := h.walk
      rw [hb] at hwalk
      cases hwalk
    have heq := eq_chainTo h.length fun k hk => (h.entry k hk).trans (by rw [if_pos (by omega)])
    rw [← heq]
    rfl
  | some a =>
    obtain ⟨hknown, hht⟩ := hindex.graded.of_up ht h.walk.symm
    have hnn' := hindex.graded.nonneg hknown
    obtain ⟨links, hderef, hlinks, hpprev⟩ := hknown.deref
    have hround : setTipRound index (some a, v) = if v[(index.heightOf a).toNat]? = some (some a) then .ok (.inl ⟨v⟩)
        else .ok (.inr (index.pprevOf a, v.set (index.heightOf a).toNat (some a))) := by
      have hlen : v.length = _ := h.length
      unfold setTipRound
      dsimp only
      rw [hderef, ← hlinks, ← hpprev]
      exact if_neg (by omega)
    rw [hround]
    split
    · rename_i hsame
      left
      rw [h.stop hindex hold ht hsame]
    · right
      refine ⟨_, rfl, ⟨by omega, ?_, ?_, ?_⟩, hindex.remaining_pprev hknown⟩
      · exact (up_succ_of_up h.walk.symm).symm
      · rw [length_set]
        exact h.length
      · intro k hk
        by_cases hka : k = (index.heightOf a).toNat
        · subst hka
          rw [getElem?_set_self (by have := h.length; dsimp only at this; omega), if_pos (by omega)]
          have hn : (index.heightOf t).toNat - (index.heightOf a).toNat = n := by omega
          rw [hn]
          exact congrArg some h.walk
        · rw [getElem?_set_ne (Ne.symm hka), h.entry k hk]
          congr 1
          refine if_congr ?_ rfl rfl
          omega

end

theorem tipLength_eq (ht : index.Known t) : tipLength index (some t) = checkedInt (index.heightOf t + 1) := by
  obtain ⟨links, hderef, hht, -⟩ := ht.deref
  rw [tipLength, hderef, ← hht]
  rfl

theorem setTip_chainTo (hindex : index.Linked) (hold : ∀ o, old = some o → index.Known o)
    (htip : ∀ t, tip = some t → index.Known t ∧ index.heightOf t + 1 < 2 ^ 31) :
    ∃ fuel, setTip index fuel tip (chainTo index old) = some (.ok (chainTo index tip)) := by
  cases tip with
  | none => exact ⟨0, rfl⟩
  | some t =>
    obtain ⟨ht, hrange⟩ := htip t rfl
    have hnn := hindex.graded.nonneg ht
    have hstart : Setting index old t 0 (some t, resize (chainTo index old).vChain (index.heightOf t + 1).toNat) := by
      refine ⟨Nat.zero_le _, rfl, ?_, ?_⟩
      · rw [length_resize]
        omega
      · intro k hk
        rw [getElem_resize (by omega), if_neg (by omega)]
    obtain ⟨fuel, r, hr, rfl⟩ := loop_ends (fun _ => setTipRound index) (Setting index old t)
      (fun r => r = .ok (chainTo index (some t))) (fun s => index.remaining s.1)
      (fun n s hs => by
        rcases hs.round hindex hold ht with hround | hround
        · exact .inl ⟨_, hround, rfl⟩
        · exact .inr (.inr hround)) hstart
    refine ⟨fuel, ?_⟩
    rw [setTip, tipLength_eq ht, checkedInt_ok (by omega) hrange]
    exact hr

theorem setTip_of_le {fuel fuel' : Nat} {chain : CChain} {r : Except Fault CChain}
    (h : setTip index fuel tip chain = some r) (hle : fuel ≤ fuel') : setTip index fuel' tip chain = some r := by
  cases tip with
  | none => exact h
  | some t =>
    rw [setTip] at h ⊢
    cases hlen : tipLength index (some t) with
    | error fault => rwa [hlen] at h
    | ok n =>
      rw [hlen] at h
      exact loop_of_le h hle

theorem setTips_of_le {fuel fuel' : Nat} {chain chain' : CChain} (h : setTips index fuel tips chain = some (.ok chain'))
    (hle : fuel ≤ fuel') :
    setTips index fuel' tips chain = some (.ok chain') := by
  induction tips generalizing chain with
  | nil => exact h
  | cons tip tips ih =>
    rw [setTips] at h ⊢
    cases hset : setTip index fuel tip chain with
    | none =>
      rw [hset] at h
      cases h
    | some r =>
      rw [setTip_of_le hset hle]
      rw [hset] at h
      cases r with
      | error fault => exact h
      | ok chain1 => exact ih h

/-- The blocks whose chains fit into the vector. -/
def Tip (index : LinkMap) (tip : Option Uint256) : Prop :=
  ∀ t, tip = some t → index.Known t ∧ index.heightOf t + 1 < 2 ^ 31

theorem tip_none : Tip index none := by
  rintro _ ⟨⟩

theorem setTips_eq (hindex : index.Linked) (hold : Tip index old) (htips : ∀ tip ∈ tips, Tip index tip) :
    Tip index (tips.getLastD old) ∧
      ∃ fuel, setTips index fuel tips (chainTo index old) = some (.ok (chainTo index (tips.getLastD old))) := by
  induction tips generalizing old with
  | nil => exact ⟨hold, 0, rfl⟩
  | cons tip tips ih =>
    have htip := htips tip mem_cons_self
    obtain ⟨fuel1, h1⟩ := setTip_chainTo hindex (fun o ho => (hold o ho).1) htip
    obtain ⟨hlast, fuel2, h2⟩ := ih htip (forall_mem_cons.1 htips).2
    rw [getLastD_cons]
    refine ⟨hlast, max fuel1 fuel2, ?_⟩
    rw [setTips, setTip_of_le h1 (Nat.le_max_left _ _)]
    exact setTips_of_le h2 (Nat.le_max_right _ _)

theorem height_chainTo (hindex : index.Linked) (ht : index.Known t) :
    (chainTo index (some t)).height = index.heightOf t := by
  have := hindex.graded.nonneg ht
  rw [height, length_chainTo]
  push_cast
  omega

/-- The walk of `FindFork` from `b` has come to a block above all that are looked for. -/
structure Seeking (index : LinkMap) (chain : CChain) (b : Uint256) (pindex : Option Uint256) : Prop where
  above : ∀ a, pindex = some a → index.Known a ∧ Ancestor index.pprevOf a b
  found : ∀ c, Ancestor index.pprevOf c b → some c ∈ chain.vChain → ∃ a, pindex = some a ∧ Ancestor index.pprevOf c a

variable (hindex : index.Linked) (htip : ∀ t, tip = some t → index.Known t)
include hindex htip

theorem findForkStart_spec (hb : index.Known b) :
    ∃ start, findForkStart index (chainTo index tip) (some b) = .ok start ∧ Seeking index (chainTo index tip) b start := by
  obtain ⟨links, hderef, hht, -⟩ := hb.deref
  rw [findForkStart, hderef]
  change ∃ start, (if links.nHeight > _ then _ else _) = _ ∧ _
  rw [hht]
  split
  · rename_i hgt
    refine ⟨_, hindex.getAncestor_eq hb _, ?_, ?_⟩
    · intro a ha
      split at ha
      · exact ⟨(hindex.graded.of_up hb ha).1, _, ha⟩
      · cases ha
    · intro c hcb hc
      cases tip with
      | none => cases hc
      | some t =>
        have ht := htip t rfl
        have hct := (mem_chainTo hindex ht).1 hc
        rw [height_chainTo hindex ht] at hgt ⊢
        have hnn := hindex.graded.nonneg ht
        obtain ⟨a, ha, -, hat⟩ := hindex.graded.exists_ancestor hb hnn (le_of_lt hgt)
        rw [if_pos ⟨hnn, le_of_lt hgt⟩]
        refine ⟨a, ha, hindex.graded.ancestor_of_le hb hcb ⟨_, ha⟩ ?_⟩
        rw [hat]
        exact (hindex.graded.of_ancestor ht hct).2
  · refine ⟨some b, rfl, ?_, fun c hcb _ => ⟨b, rfl, hcb⟩⟩
    rintro a ⟨⟩
    exact ⟨hb, .refl b⟩

theorem Seeking.round {pindex : Option Uint256} (h : Seeking index (chainTo index tip) b pindex) :
    (∃ r, findForkRound index (chainTo index tip) pindex = .ok (.inl r) ∧
      Highest index.heightOf (fun a => Ancestor index.pprevOf a b ∧ some a ∈ (chainTo index tip).vChain) r) ∨
    ∃ pindex', findForkRound index (chainTo index tip) pindex = .ok (.inr pindex') ∧
      Seeking index (chainTo index tip) b pindex' ∧ index.remaining pindex' < index.remaining pindex := by
  cases pindex with
  | none =>
    refine .inl ⟨none, rfl, ?_⟩
    rintro c ⟨hcb, hc⟩
    obtain ⟨a, ha, -⟩ := h.found c hcb hc
    cases ha
  | some a =>
    obtain ⟨ha, hab⟩ := h.above a rfl
    obtain ⟨links, hderef, -, hpprev⟩ := ha.deref
    have hround : findForkRound index (chainTo index tip) (some a) =
        .ok (if some a ∈ (chainTo index tip).vChain then .inl (some a) else .inr (index.pprevOf a)) := by
      rw [findForkRound, contains_chainTo hindex htip ha, hderef, ← hpprev]
      change Except.ok _ = _
      congr 1
      exact if_congr (decide_eq_true_iff) rfl rfl
    rw [hround]
    split
    · rename_i hmem
      refine .inl ⟨some a, rfl, ⟨hab, hmem⟩, ?_⟩
      rintro c ⟨hcb, hc⟩
      obtain ⟨a', ⟨⟩, hca⟩ := h.found c hcb hc
      exact (hindex.graded.of_ancestor ha hca).2
    · rename_i hmem
      refine .inr ⟨_, rfl, ⟨?_, ?_⟩, hindex.remaining_pprev ha⟩
      · intro p hp
        exact ⟨(hindex.graded.step ha hp).1, Ancestor.trans (.of_parent hp (.refl p)) hab⟩
      · intro c hcb hc
        obtain ⟨a', ⟨⟩, hca⟩ := h.found c hcb hc
        rcases hca.cases with rfl | ⟨p, hp, hcp⟩
        · exact absurd hc hmem
        · exact ⟨p, hp, hcp⟩

theorem findFork_highest (hb : index.Known b) :
    ∃ fuel r, findFork index fuel (chainTo index tip) (some b) = some (.ok r) ∧
      Highest index.heightOf (fun a => Ancestor index.pprevOf a b ∧ some a ∈ (chainTo index tip).vChain) r := by
  obtain ⟨start, hstart, hseeking⟩ := findForkStart_spec hindex htip hb
  obtain ⟨fuel, _, hr, r, rfl, hhi⟩ := loop_ends (fun _ => findForkRound index (chainTo index tip))
    (fun _ => Seeking index (chainTo index tip) b)
    (fun x => ∃ r, x = .ok r ∧
      Highest index.heightOf (fun a => Ancestor index.pprevOf a b ∧ some a ∈ (chainTo index tip).vChain) r)
    index.remaining
    (fun _ _ hs => by
      rcases hs.round hindex htip with ⟨r, hround, hr⟩ | hround
      · exact .inl ⟨r, hround, r, rfl, hr⟩
      · exact .inr (.inr hround)) hseeking
  refine ⟨fuel, r, ?_, hhi⟩
  rw [findFork, hstart]
  exact hr

end CChain

section

open LinkMap

variable {index : LinkMap}

/-- Two blocks of one height that are below the same blocks as `a` and `b` are. -/
structure Converging (index : LinkMap) (a b : Uint256) (s : Option Uint256 × Option Uint256) (a' b' : Uint256) : Prop where
  eq : s = (some a', some b')
  known : index.Known a' ∧ index.Known b'
  height : index.heightOf a' = index.heightOf b'
  above : Ancestor index.pprevOf a' a ∧ Ancestor index.pprevOf b' b
  common : ∀ c, Ancestor index.pprevOf c a → Ancestor index.pprevOf c b →
    Ancestor index.pprevOf c a' ∧ Ancestor index.pprevOf c b'

/-- The two blocks go back to one genesis block. -/
def SameGenesis (index : LinkMap) (a b : Uint256) : Prop :=
  ∃ g, index.pprevOf g = none ∧ Ancestor index.pprevOf g a ∧ Ancestor index.pprevOf g b

variable {a b : Uint256} {s : Option Uint256 × Option Uint256} (hindex : index.Linked)
include hindex

theorem sameHeight_spec (ha : index.Known a) (hb : index.Known b) :
    ∃ s a' b', sameHeight index (some a) (some b) = .ok s ∧ Converging index a b s a' b' := by
  obtain ⟨linksA, hderefA, hheightA, -⟩ := ha.deref
  obtain ⟨linksB, hderefB, hheightB, -⟩ := hb.deref
  have ha0 := hindex.graded.nonneg ha
  have hb0 := hindex.graded.nonneg hb
  rw [sameHeight, hderefA, hderefB]
  change ∃ s a' b', (if linksA.nHeight > linksB.nHeight then _ else if linksB.nHeight > linksA.nHeight then _ else _) = _ ∧ _
  rw [hheightA, hheightB]
  split
  · rename_i hgt
    obtain ⟨a', hup, ha', hht⟩ := hindex.graded.exists_ancestor ha hb0 (le_of_lt hgt)
    refine ⟨_, a', b, ?_, rfl, ⟨ha', hb⟩, hht, ⟨⟨_, hup⟩, .refl b⟩, fun c hca hcb => ⟨?_, hcb⟩⟩
    · rw [hindex.getAncestor_eq ha, if_pos ⟨hb0, le_of_lt hgt⟩, hup]
      rfl
    · refine hindex.graded.ancestor_of_le ha hca ⟨_, hup⟩ ?_
      rw [hht]
      exact (hindex.graded.of_ancestor hb hcb).2
  · split
    · rename_i hgt
      obtain ⟨b', hup, hb', hht⟩ := hindex.graded.exists_ancestor hb ha0 (le_of_lt hgt)
      refine ⟨_, a, b', ?_, rfl, ⟨ha, hb'⟩, hht.symm, ⟨.refl a, ⟨_, hup⟩⟩, fun c hca hcb => ⟨hca, ?_⟩⟩
      · rw [hindex.getAncestor_eq hb, if_pos ⟨ha0, le_of_lt hgt⟩, hup]
        rfl
      · refine hindex.graded.ancestor_of_le hb hcb ⟨_, hup⟩ ?_
        rw [hht]
        exact (hindex.graded.of_ancestor ha hca).2
    · exact ⟨_, a, b, rfl, rfl, ⟨ha, hb⟩, by omega, ⟨.refl a, .refl b⟩, fun c hca hcb => ⟨hca, hcb⟩⟩

theorem Converging.parents {a' b' g : Uint256} (h : Converging index a b s a' b') (hga : Ancestor index.pprevOf g a)
    (hgb : Ancestor index.pprevOf g b) (hne : a' ≠ b') :
    ∃ a1 b1, Converging index a b (index.pprevOf a', index.pprevOf b') a1 b1 := by
  obtain ⟨ha', hb'⟩ := h.known
  -- A common ancestor is neither of the two, since they are of one height.
  have hparents : ∀ c, Ancestor index.pprevOf c a → Ancestor index.pprevOf c b →
      ∃ p q, index.pprevOf a' = some p ∧ index.pprevOf b' = some q ∧ Ancestor index.pprevOf c p ∧ Ancestor index.pprevOf c q := by
    intro c hca hcb
    obtain ⟨hca', hcb'⟩ := h.common c hca hcb
    rcases hca'.cases with rfl | ⟨p, hp, hcp⟩
    · exact absurd (hindex.graded.ancestor_unique hb' hcb' (.refl b') h.height) hne
    · rcases hcb'.cases with rfl | ⟨q, hq, hcq⟩
      · exact absurd (hindex.graded.ancestor_unique ha' (.refl a') hca' h.height) hne
      · exact ⟨p, q, hp, hq, hcp, hcq⟩
  obtain ⟨p, q, hp, hq, -, -⟩ := hparents g hga hgb
  obtain ⟨hknownP, hheightP⟩ := hindex.graded.step ha' hp
  obtain ⟨hknownQ, hheightQ⟩ := hindex.graded.step hb' hq
  refine ⟨p, q, by rw [hp, hq], ⟨hknownP, hknownQ⟩, ?_, ⟨?_, ?_⟩, ?_⟩
  · have := h.height
    omega
  · exact Ancestor.trans (.of_parent hp (.refl p)) h.above.1
  · exact Ancestor.trans (.of_parent hq (.refl q)) h.above.2
  · intro c hca hcb
    obtain ⟨p', q', hp', hq', hcp, hcq⟩ := hparents c hca hcb
    rw [hp] at hp'
    rw [hq] at hq'
    cases hp'
    cases hq'
    exact ⟨hcp, hcq⟩

theorem Converging.round {a' b' g : Uint256} (h : Converging index a b s a' b') (hga : Ancestor index.pprevOf g a)
    (hgb : Ancestor index.pprevOf g b) :
    (∃ c, commonAncestorRound index s = .ok (.inl (some c)) ∧
      Highest index.heightOf (fun c => Ancestor index.pprevOf c a ∧ Ancestor index.pprevOf c b) (some c)) ∨
    ∃ s', commonAncestorRound index s = .ok (.inr s') ∧ (∃ a1 b1, Converging index a b s' a1 b1) ∧
      index.remaining s'.1 < index.remaining s.1 := by
  obtain ⟨ha', hb'⟩ := h.known
  rw [h.eq]
  unfold commonAncestorRound
  split
  · rename_i hne
    obtain ⟨linksA, hderefA, -, hpprevA⟩ := ha'.deref
    obtain ⟨linksB, hderefB, -, hpprevB⟩ := hb'.deref
    rw [hderefA, hderefB]
    refine .inr ⟨_, rfl, ?_, ?_⟩
    · rw [hpprevA, hpprevB]
      exact h.parents hindex hga hgb fun heq => hne.1 (congrArg some heq)
    · rw [hpprevA]
      exact hindex.remaining_pprev ha'
  · rename_i hmet
    have heq : a' = b' := by
      by_contra hne
      exact hmet ⟨fun h => hne (Option.some.inj h), rfl, rfl⟩
    subst heq
    refine .inl ⟨a', if_pos rfl, h.above, ?_⟩
    rintro c ⟨hca, hcb⟩
    exact (hindex.graded.of_ancestor ha' (h.common c hca hcb).1).2

theorem lastCommonAncestor_highest (ha : index.Known a) (hb : index.Known b) (hgen : SameGenesis index a b) :
    ∃ fuel c, lastCommonAncestor index fuel (some a) (some b) = some (.ok (some c)) ∧
      Highest index.heightOf (fun c => Ancestor index.pprevOf c a ∧ Ancestor index.pprevOf c b) (some c) := by
  obtain ⟨g, -, hga, hgb⟩ := hgen
  obtain ⟨s, a', b', hs, hconverging⟩ := sameHeight_spec hindex ha hb
  obtain ⟨fuel, _, hr, c, rfl, hhi⟩ := loop_ends (fun _ => commonAncestorRound index)
    (fun _ s => ∃ a' b', Converging index a b s a' b')
    (fun x => ∃ c, x = .ok (some c) ∧
      Highest index.heightOf (fun c => Ancestor index.pprevOf c a ∧ Ancestor index.pprevOf c b) (some c))
    (fun s => index.remaining s.1)
    (fun _ s ⟨a', b', hs⟩ => by
      rcases hs.round hindex hga hgb with ⟨c, hround, hc⟩ | hround
      · exact .inl ⟨_, hround, c, rfl, hc⟩
      · exact .inr (.inr hround)) ⟨a', b', hconverging⟩
  refine ⟨fuel, c, ?_, hhi⟩
  rw [lastCommonAncestor, hs]
  exact hr

end

/-! ### The locator -/

variable {chain}

namespace CChain

open LinkMap

/-- How far below its first block the locator is after some rounds. -/
def locatorDepth (round : Nat) : Nat := if round ≤ 10 then round else 9 + 2 ^ (round - 10)

theorem locatorDepth_succ (round : Nat) : locatorDepth (round + 1) = locatorDepth round + 2 ^ (round - 10) := by
  unfold locatorDepth
  rcases Nat.lt_trichotomy round 10 with hlt | rfl | hgt
  · have hzero : round - 10 = 0 := by omega
    rw [if_pos (by omega), if_pos (by omega), hzero, pow_zero]
  · rfl
  · obtain ⟨k, rfl⟩ : ∃ k, round = k + 10 := ⟨round - 10, by omega⟩
    have hsub : k + 10 + 1 - 10 = k + 1 := by omega
    rw [if_neg (by omega), if_neg (by omega), hsub, Nat.add_sub_cancel, pow_succ]
    omega

theorem locatorDepth_mono : Monotone locatorDepth :=
  monotone_nat_of_le_succ fun n => by rw [locatorDepth_succ]; exact Nat.le_add_right _ _

variable {index : LinkMap}

/-- A locator of `b`: `b` and ancestors of decreasing heights down to the genesis block. -/
structure IsLocator (index : LinkMap) (b : Uint256) (vHave : List Uint256) : Prop where
  head : vHave.head? = some b
  ancestor : ∀ a ∈ vHave, Ancestor index.pprevOf a b
  decreasing : vHave.Pairwise fun a a' => index.heightOf a' < index.heightOf a
  last : ∃ g ∈ vHave.getLast?, index.pprevOf g = none

/-- The state of the loop of `GetLocator` at a round, with the block that it comes to. -/
structure Locating (index : LinkMap) (b : Uint256) (round : Nat) (s : LocatorState) (a : Uint256) : Prop where
  pindex : s.pindex = some a
  height : index.heightOf a = max (index.heightOf b - locatorDepth round) 0
  nStep : s.nStep = 2 ^ (round - 10)
  size : s.vHave.length = round
  head : (s.vHave ++ [a]).head? = some b
  ancestor : ∀ a' ∈ s.vHave ++ [a], Ancestor index.pprevOf a' b
  decreasing : (s.vHave ++ [a]).Pairwise fun a a' => index.heightOf a' < index.heightOf a

variable {tip : Option Uint256} {a b : Uint256} {s : LocatorState} {vHave : List Uint256}

theorem nextStep_eq (round : Nat) : nextStep (2 ^ (round - 10)) (round + 1) =
    if round < 40 then .ok (2 ^ (round + 1 - 10)) else .error .overflow := by
  unfold nextStep
  split
  · obtain ⟨k, rfl⟩ : ∃ k, round = k + 10 := ⟨round - 10, by omega⟩
    have hsub : k + 10 + 1 - 10 = k + 1 := by omega
    rw [Nat.add_sub_cancel, hsub, ← pow_succ, checkedInt]
    split
    · rename_i hrange
      have hlt : k + 1 < 31 := by
        by_contra hle
        have := pow_le_pow_right₀ (show (1 : Int) ≤ 2 by omega) (Nat.le_of_not_lt hle)
        omega
      rw [if_pos (by omega)]
    · rename_i hrange
      rw [if_neg]
      intro hlt
      have hle := pow_le_pow_right₀ (show (1 : Int) ≤ 2 by omega) (show k + 1 ≤ 30 by omega)
      have hpos : (0 : Int) < 2 ^ (k + 1) := pow_pos (by omega) _
      exact hrange ⟨by omega, by omega⟩
  · have h1 : round - 10 = 0 := by omega
    have h2 : round + 1 - 10 = 0 := by omega
    rw [if_pos (by omega), h1, h2]

theorem locatorRound_genesis {chain : CChain} (hs : s.pindex = some a) (ha : index.Known a)
    (hzero : index.heightOf a = 0) : locatorRound index chain s = .ok (.inl ⟨s.vHave ++ [a]⟩) := by
  obtain ⟨links, hderef, hht, -⟩ := ha.deref
  unfold locatorRound
  rw [hs]
  dsimp only
  rw [hderef]
  exact if_pos (hht.trans hzero)

theorem locatorRound_step {chain : CChain} (hs : s.pindex = some a) (ha : index.Known a) (hzero : index.heightOf a ≠ 0)
    {pindex : Option Uint256} (hback : stepBack index chain (some a) (max (index.heightOf a - s.nStep) 0) = .ok pindex) :
    locatorRound index chain s = (nextStep s.nStep (s.vHave.length + 1)).map fun nStep =>
      .inr { pindex, nStep, vHave := s.vHave ++ [a] } := by
  obtain ⟨links, hderef, hht, -⟩ := ha.deref
  unfold locatorRound
  rw [hs]
  dsimp only
  rw [hderef]
  refine (if_neg (hht ▸ hzero)).trans ?_
  rw [hht, hback, length_append, length_singleton]
  cases nextStep s.nStep (s.vHave.length + 1) <;> rfl

/-- What the loop comes to: with the heights that `int` steps reach a locator, with others an overflow. -/
def Located (index : LinkMap) (b : Uint256) (r : Except Fault CBlockLocator) : Prop :=
  if index.heightOf b ≤ 2 ^ 30 + 9 then ∃ vHave, r = .ok ⟨vHave⟩ ∧ IsLocator index b vHave else r = .error .overflow

theorem locatorDepth_limit : locatorDepth 40 = 2 ^ 30 + 9 := by decide

section

variable (hindex : index.Linked) (htip : ∀ t, tip = some t → index.Known t)
include hindex htip

theorem stepBack_eq (ha : index.Known a) {k : Int} (h0 : 0 ≤ k) (hk : k ≤ index.heightOf a) :
    stepBack index (chainTo index tip) (some a) k = .ok (up index.pprevOf (index.heightOf a - k).toNat a) := by
  rw [stepBack, contains_chainTo hindex htip ha]
  change (if _ then _ else _) = _
  split
  · rename_i hmem
    rw [decide_eq_true_iff] at hmem
    cases tip with
    | none => cases hmem
    | some t =>
      have hat := (mem_chainTo hindex (htip t rfl)).1 hmem
      have hle := (hindex.graded.of_ancestor (htip t rfl) hat).2
      rw [get_chainTo h0 (by omega)]
      have hsplit : (index.heightOf t - k).toNat =
          (index.heightOf t - index.heightOf a).toNat + (index.heightOf a - k).toNat := by omega
      rw [hsplit, up_add, hindex.graded.up_of_ancestor (htip t rfl) hat]
      rfl
  · rw [hindex.getAncestor_eq ha, if_pos ⟨h0, hk⟩]

theorem Locating.round (hb : index.Known b) {round : Nat} (hround : round ≤ 40) (h : Locating index b round s a) :
    (∃ locator, locatorRound index (chainTo index tip) s = .ok (.inl locator) ∧ Located index b (.ok locator)) ∨
    (∃ fault, locatorRound index (chainTo index tip) s = .error fault ∧ Located index b (.error fault)) ∨
    ∃ s', locatorRound index (chainTo index tip) s = .ok (.inr s') ∧
      (round + 1 ≤ 40 ∧ ∃ a', Locating index b (round + 1) s' a') ∧
      index.remaining s'.pindex < index.remaining s.pindex := by
  have hab := h.ancestor a (mem_append_right _ mem_cons_self)
  have ha := (hindex.graded.of_ancestor hb hab).1
  have hnn := hindex.graded.nonneg ha
  have hht := h.height
  have hmono := locatorDepth_mono hround
  rw [locatorDepth_limit] at hmono
  by_cases hzero : index.heightOf a = 0
  · -- The genesis block has been listed.
    refine .inl ⟨_, locatorRound_genesis h.pindex ha hzero, ?_⟩
    rw [Located, if_pos (by omega)]
    refine ⟨_, rfl, h.head, h.ancestor, h.decreasing, a, ?_, ?_⟩
    · rw [getLast?_concat]
      rfl
    · cases hp : index.pprevOf a with
      | none => rfl
      | some p =>
        obtain ⟨hknown, hstep⟩ := hindex.graded.step ha hp
        have := hindex.graded.nonneg hknown
        omega
  · right
    have hpos : (0 : Int) < s.nStep := by
      rw [h.nStep]
      exact pow_pos (by omega) _
    have hback := stepBack_eq hindex htip ha (le_max_right (index.heightOf a - s.nStep) 0) (by omega)
    obtain ⟨a', hup, ha', hht'⟩ :=
      hindex.graded.exists_ancestor ha (le_max_right (index.heightOf a - s.nStep) 0) (by omega)
    rw [hup] at hback
    rw [locatorRound_step h.pindex ha hzero hback, h.size, h.nStep, nextStep_eq]
    by_cases hlast : round < 40
    · rw [if_pos hlast]
      refine .inr ⟨_, rfl, ⟨hlast, a', rfl, ?_, rfl, ?_, ?_, ?_, ?_⟩, ?_⟩
      · rw [hht', h.nStep, hht, locatorDepth_succ]
        push_cast
        omega
      · rw [length_append, h.size, length_singleton]
      · dsimp only
        rw [head?_append, h.head]
        rfl
      · intro a'' ha''
        rcases mem_append.1 ha'' with hmem | hmem
        · exact h.ancestor a'' hmem
        · rw [mem_singleton.1 hmem]
          exact Ancestor.trans ⟨_, hup⟩ hab
      · refine pairwise_append.2 ⟨h.decreasing, pairwise_singleton _ _, ?_⟩
        intro x hx y hy
        rw [mem_singleton.1 hy, hht']
        rcases mem_append.1 hx with hmem | hmem
        · have := (pairwise_append.1 h.decreasing).2.2 x hmem a mem_cons_self
          omega
        · rw [mem_singleton.1 hmem]
          omega
      · rw [h.pindex]
        simp only [remaining]
        omega
    · rw [if_neg hlast]
      refine .inl ⟨_, rfl, ?_⟩
      obtain rfl : round = 40 := by omega
      rw [locatorDepth_limit] at hht
      rw [Located, if_neg (by push_cast at hht; omega)]

theorem getLocator_located (hb : index.Known b) :
    ∃ fuel r, getLocator index fuel (chainTo index tip) (some b) = some r ∧ Located index b r := by
  have hnn := hindex.graded.nonneg hb
  have hstart : Locating index b 0 { pindex := some b } b := by
    refine ⟨rfl, ?_, rfl, rfl, rfl, ?_, pairwise_singleton _ _⟩
    · change index.heightOf b = max (index.heightOf b - 0) 0
      omega
    · intro a ha
      rw [mem_singleton.1 ha]
      exact .refl b
  exact loop_ends (fun _ => locatorRound index (chainTo index tip))
    (fun round s => round ≤ 40 ∧ ∃ a, Locating index b round s a) (Located index b) (fun s => index.remaining s.pindex)
    (fun _ _ ⟨hround, _, hs⟩ => hs.round hindex htip hb hround) ⟨Nat.zero_le _, b, hstart⟩

/-! ### The fork in the other chain -/

theorem findListed_eq (hknown : ∀ a ∈ vHave, index.Known a)
    (hdecreasing : vHave.Pairwise fun a a' => index.heightOf a' < index.heightOf a) :
    ∃ r, findListed index (chainTo index tip) vHave = .ok r ∧
      ((∃ a ∈ vHave, some a ∈ (chainTo index tip).vChain) →
        Highest index.heightOf (fun a => a ∈ vHave ∧ some a ∈ (chainTo index tip).vChain) r) ∧
      ((∀ a ∈ vHave, some a ∉ (chainTo index tip).vChain) → r = (chainTo index tip).genesis) := by
  induction vHave with
  | nil =>
    refine ⟨_, rfl, ?_, fun _ => rfl⟩
    rintro ⟨a, ha, -⟩
    cases ha
  | cons hash vHave ih =>
    obtain ⟨hfirst, hrest⟩ := pairwise_cons.1 hdecreasing
    obtain ⟨r, hr, hhi, hgen⟩ := ih (forall_mem_cons.1 hknown).2 hrest
    have hhash := hknown hash mem_cons_self
    obtain ⟨links, hlinks⟩ := hhash.exists_lookup
    have hlisted : findListed index (chainTo index tip) (hash :: vHave) =
        if some hash ∈ (chainTo index tip).vChain then .ok (some hash) else .ok r := by
      rw [findListed, hlinks, contains_chainTo hindex htip hhash, hr]
      exact if_congr decide_eq_true_iff rfl rfl
    rw [hlisted]
    split
    · rename_i hmem
      refine ⟨_, rfl, fun _ => ⟨⟨mem_cons_self, hmem⟩, ?_⟩, fun h => absurd hmem (h hash mem_cons_self)⟩
      rintro b ⟨hb, -⟩
      rcases mem_cons.1 hb with rfl | hb
      · exact le_refl _
      · exact le_of_lt (hfirst b hb)
    · rename_i hmem
      refine ⟨r, rfl, ?_, fun h => hgen (forall_mem_cons.1 h).2⟩
      rintro ⟨a, ha, hachain⟩
      have htail : ∀ a, a ∈ hash :: vHave → some a ∈ (chainTo index tip).vChain → a ∈ vHave := by
        intro a ha hachain
        rcases mem_cons.1 ha with rfl | ha
        · exact absurd hachain hmem
        · exact ha
      have h := hhi ⟨a, htail a ha hachain, hachain⟩
      cases r with
      | none => exact absurd ⟨htail a ha hachain, hachain⟩ (h a)
      | some x => exact ⟨⟨mem_cons_of_mem _ h.1.1, h.1.2⟩, fun b hb => h.2 b ⟨htail b hb.1 hb.2, hb.2⟩⟩

theorem IsLocator.findFork_highest (hb : index.Known b) (h : IsLocator index b vHave)
    (hgen : ∀ t, tip = some t → SameGenesis index b t) :
    ∃ r, findForkInGlobalIndex index (chainTo index tip) ⟨vHave⟩ = .ok r ∧
      Highest index.heightOf (fun a => a ∈ vHave ∧ some a ∈ (chainTo index tip).vChain) r := by
  obtain ⟨r, hr, hhi, hnone⟩ := findListed_eq hindex htip
    (fun a ha => (hindex.graded.of_ancestor hb (h.ancestor a ha)).1) h.decreasing
  refine ⟨r, hr, ?_⟩
  cases tip with
  | none =>
    rw [hnone fun a _ => not_mem_nil]
    exact fun a ha => not_mem_nil ha.2
  | some t =>
    -- The last block of the locator is the genesis block of the other chain.
    refine hhi ?_
    obtain ⟨g, hg, hroot⟩ := h.last
    obtain ⟨g', hroot', hgb', hgt'⟩ := hgen t rfl
    have hgmem := mem_of_getLast? hg
    have hgb := h.ancestor g hgmem
    have hzero := hindex.graded.root (hindex.graded.of_ancestor hb hgb).1 hroot
    have hzero' := hindex.graded.root (hindex.graded.of_ancestor hb hgb').1 hroot'
    obtain rfl := hindex.graded.ancestor_unique hb hgb hgb' (hzero.trans hzero'.symm)
    exact ⟨g, hgmem, (mem_chainTo hindex (htip t rfl)).2 hgt'⟩

end

/-- The vector after any tips have been set, and what the functions find with it. -/
theorem activeChain_exact (hindex : index.Built) {tips : List (Option Uint256)} (htips : ∀ tip ∈ tips, Tip index tip) :
    ∃ fuel chain, setTips index fuel tips {} = some (.ok chain) ∧
      (tips.getLastD none = none → chain.vChain = []) ∧
      (∀ t, tips.getLastD none = some t → (chain.vChain.length : Int) = index.heightOf t + 1 ∧
        ∀ h : Nat, h ≤ index.heightOf t → ∃ a, chain.vChain[h]? = some (some a) ∧
          Ancestor index.pprevOf a t ∧ index.heightOf a = h) ∧
      (∀ b, index.Known b → ∃ fuel r, findFork index fuel chain (some b) = some (.ok r) ∧
        Highest index.heightOf (fun a => Ancestor index.pprevOf a b ∧ some a ∈ chain.vChain) r) ∧
      (∀ a b, index.Known a → index.Known b → SameGenesis index a b →
        ∃ fuel c, lastCommonAncestor index fuel (some a) (some b) = some (.ok (some c)) ∧
          Highest index.heightOf (fun c => Ancestor index.pprevOf c a ∧ Ancestor index.pprevOf c b) (some c)) ∧
      ∀ b, index.Known b → index.heightOf b ≤ 2 ^ 30 + 9 →
        ∃ fuel vHave, getLocator index fuel chain (some b) = some (.ok ⟨vHave⟩) ∧ IsLocator index b vHave ∧
          ∀ tips', (∀ tip ∈ tips', Tip index tip) → (∀ t, tips'.getLastD none = some t → SameGenesis index b t) →
            ∃ fuel chain' r, setTips index fuel tips' {} = some (.ok chain') ∧
              findForkInGlobalIndex index chain' ⟨vHave⟩ = .ok r ∧
              Highest index.heightOf (fun a => a ∈ vHave ∧ some a ∈ chain'.vChain) r := by
  have hlink := hindex.linked
  obtain ⟨hlast, fuel, hset⟩ := setTips_eq hlink tip_none htips
  have htip := fun t ht => (hlast t ht).1
  refine ⟨fuel, _, hset, ?_, ?_, ?_, ?_, ?_⟩
  · intro hnone
    rw [hnone]
    rfl
  · intro t ht
    have hnn := hlink.graded.nonneg (htip t ht)
    rw [ht, length_chainTo]
    refine ⟨by push_cast; omega, fun h hh => ?_⟩
    obtain ⟨a, hup, -, hht⟩ := hlink.graded.exists_ancestor (htip t ht) (Int.natCast_nonneg h) hh
    refine ⟨a, ?_, ⟨_, hup⟩, hht⟩
    rw [getElem_chainTo (by omega), ← hup]
    congr 2
    omega
  · exact fun b hb => findFork_highest hlink htip hb
  · exact fun a b ha hb => lastCommonAncestor_highest hlink ha hb
  · intro b hb hht
    obtain ⟨fuel, r, hr, hloc⟩ := getLocator_located hlink htip hb
    rw [Located, if_pos hht] at hloc
    obtain ⟨vHave, rfl, hlocator⟩ := hloc
    refine ⟨fuel, vHave, hr, hlocator, fun tips' htips' hgen => ?_⟩
    obtain ⟨hlast', fuel', hset'⟩ := setTips_eq hlink tip_none htips'
    obtain ⟨r, hr, hhi⟩ := hlocator.findFork_highest hlink (fun t ht => (hlast' t ht).1) hb hgen
    exact ⟨fuel', _, r, hset', hr, hhi⟩

theorem line_tip {n : Nat} (hn : n + 1 < 2 ^ 31) : Tip (line n) (some (BitVec.ofNat 256 n)) := by
  obtain ⟨-, hknown, -, hht⟩ := line_spec (show n < 2 ^ 256 by omega)
  rintro _ ⟨⟩
  exact ⟨hknown n (le_refl n), by rw [hht]; omega⟩

theorem activeChain_exact_line : ∃ fuel chain, setTips (line 5) fuel [some 5, none, some 5] {} = some (.ok chain) ∧
    (chain.vChain.length : Int) = 6 := by
  have hbuilt : (line 5).Built := (line_spec (by decide)).1
  have htip : Tip (line 5) (some 5) := line_tip (by decide)
  have htips : ∀ tip ∈ [some 5, none, some 5], Tip (line 5) tip := by
    intro tip hmem
    simp only [mem_cons, not_mem_nil, or_false] at hmem
    rcases hmem with rfl | rfl | rfl
    · exact htip
    · rintro _ ⟨⟩
    · exact htip
  obtain ⟨fuel, chain, hset, -, hents, -⟩ := activeChain_exact hbuilt htips
  exact ⟨fuel, chain, hset, (hents 5 rfl).1⟩

theorem setTip_overflows {t : Uint256} (ht : index.Known t) (hrange : 2 ^ 31 ≤ index.heightOf t + 1) (fuel : Nat)
    (chain : CChain) : setTip index fuel (some t) chain = some (.error .overflow) := by
  rw [setTip, tipLength_eq ht, checkedInt, if_neg (by omega)]

theorem getLocator_overflows (hindex : index.Built) (hb : index.Known b) (hrange : 2 ^ 30 + 9 < index.heightOf b) :
    ∃ fuel, getLocator index fuel {} (some b) = some (.error .overflow) := by
  have htip : ∀ t, (none : Option Uint256) = some t → index.Known t := by
    rintro _ ⟨⟩
  obtain ⟨fuel, r, hr, hloc⟩ := getLocator_located hindex.linked htip hb
  rw [Located, if_neg (by omega)] at hloc
  rw [hloc] at hr
  exact ⟨fuel, hr⟩

/-- In long chains `nHeight + 1` and `nStep *= 2` leave the range of `int`. -/
theorem activeChain_overflows :
    ((line (2 ^ 31 - 1)).Built ∧ (line (2 ^ 31 - 1)).Known (BitVec.ofNat 256 (2 ^ 31 - 1)) ∧
      ∀ fuel, setTip (line (2 ^ 31 - 1)) fuel (some (BitVec.ofNat 256 (2 ^ 31 - 1))) {} = some (.error .overflow)) ∧
    (line (2 ^ 30 + 10)).Built ∧ (line (2 ^ 30 + 10)).Known (BitVec.ofNat 256 (2 ^ 30 + 10)) ∧
      ∃ fuel, getLocator (line (2 ^ 30 + 10)) fuel {} (some (BitVec.ofNat 256 (2 ^ 30 + 10))) =
        some (.error .overflow) := by
  constructor
  · obtain ⟨hbuilt, hknown, -, hht⟩ := line_spec (show 2 ^ 31 - 1 < 2 ^ 256 by decide)
    have htip := hknown _ (le_refl _)
    exact ⟨hbuilt, htip, fun fuel => setTip_overflows htip (by rw [hht]; decide) fuel {}⟩
  · obtain ⟨hbuilt, hknown, -, hht⟩ := line_spec (show 2 ^ 30 + 10 < 2 ^ 256 by decide)
    have hb := hknown _ (le_refl _)
    exact ⟨hbuilt, hb, getLocator_overflows hbuilt hb (by rw [hht]; decide)⟩

end CChain

end LitecoinZ
