import LitecoinZ.Lib.Forest
import LitecoinZ.Lib.KeyMap
import LitecoinZ.Primitives.Transaction

/-!
# The skip list of the block index

`GetSkipHeight`, `CBlockIndex::GetAncestor` and `CBlockIndex::BuildSkip` of `chain.cpp`.  An entry of the index is known by
the hash of its block, and a pointer to it is that hash.  The walk of `GetAncestor` takes the entry it is at to be at the
height that it has computed; in an index that has been built block by block it is (`getAncestor_exact`).
-/

namespace LitecoinZ

open Forest

/-- The fields of a `CBlockIndex` that link it to others. -/
structure BlockLinks where
  pprev : Option Uint256 := none
  pskip : Option Uint256 := none
  nHeight : Int := 0
  deriving DecidableEq, Repr

abbrev LinkMap := KeyMap Uint256 BlockLinks

def nullPointer : Fault := .exception "null pointer"

variable (index : LinkMap)

/-- `pindex->…`. -/
def LinkMap.deref (pindex : Option Uint256) : Except Fault BlockLinks :=
  match pindex.bind fun hash => index.lookup hash with
  | some links => .ok links
  | none => .error nullPointer

/-- The number without its lowest bit. -/
def invertLowestOne (n : Nat) : Nat := n &&& (n - 1)

def getSkipHeight (height : Int) : Int :=
  if height < 2 then 0
  else if height.toNat % 2 = 1 then invertLowestOne (invertLowestOne (height.toNat - 1)) + 1
  else invertLowestOne height.toNat

theorem invertLowestOne_le (n : Nat) : invertLowestOne n ≤ n - 1 := Nat.and_le_right

theorem getSkipHeight_range {height : Int} (h : 0 < height) : 0 ≤ getSkipHeight height ∧ getSkipHeight height < height := by
  unfold getSkipHeight
  split
  · exact ⟨le_refl 0, h⟩
  · split
    · have h1 := invertLowestOne_le (height.toNat - 1)
      have h2 := invertLowestOne_le (invertLowestOne (height.toNat - 1))
      omega
    · have h1 := invertLowestOne_le height.toNat
      omega

def takesSkip (height heightWalk : Int) : Bool :=
  getSkipHeight heightWalk = height ||
    (getSkipHeight heightWalk > height &&
      !(getSkipHeight (heightWalk - 1) < getSkipHeight heightWalk - 2 && getSkipHeight (heightWalk - 1) ≥ height))

theorem le_of_takesSkip {height heightWalk : Int} (h : takesSkip height heightWalk = true) :
    height ≤ getSkipHeight heightWalk := by
  unfold takesSkip at h
  simp only [Bool.or_eq_true, decide_eq_true_eq, Bool.and_eq_true] at h
  omega

namespace LinkMap

/-- The loop of `GetAncestor`. -/
def walkToHeight (index : LinkMap) (height : Nat) (pindexWalk : Option Uint256) (heightWalk : Int) :
    Except Fault (Option Uint256) :=
  if heightWalk > height then
    match index.deref pindexWalk with
    | .error fault => .error fault
    | .ok links =>
      if links.pskip.isSome && takesSkip height heightWalk then
        walkToHeight index height links.pskip (getSkipHeight heightWalk)
      else walkToHeight index height links.pprev (heightWalk - 1)
  else .ok pindexWalk
termination_by (heightWalk - height).toNat
decreasing_by
  · have hrange := getSkipHeight_range (show 0 < heightWalk by omega)
    omega
  · omega

def getAncestor (pindex : Option Uint256) (height : Int) : Except Fault (Option Uint256) := do
  let links ← index.deref pindex
  if height > links.nHeight || height < 0 then pure none
  else index.walkToHeight height.toNat pindex links.nHeight

/-- The `pskip` that `BuildSkip` sets. -/
def buildSkip (pprev : Option Uint256) (nHeight : Int) : Except Fault (Option Uint256) :=
  match pprev with
  | some _ => index.getAncestor pprev (getSkipHeight nHeight)
  | none => .ok none

def addBlock (hash : Uint256) (pprev : Option Uint256) : Except Fault LinkMap :=
  match pprev with
  | none => .ok (index.insert hash {})
  | some _ => do
    let prev ← index.deref pprev
    let nHeight := prev.nHeight + 1
    let pskip ← index.buildSkip pprev nHeight
    pure (index.insert hash { pprev, pskip, nHeight })

/-! ### Links -/

def pprevOf (hash : Uint256) : Option Uint256 := (index.lookup hash).bind BlockLinks.pprev

def heightOf (hash : Uint256) : Int := ((index.lookup hash).map BlockLinks.nHeight).getD 0

def Known (hash : Uint256) : Prop := (index.lookup hash).isSome

instance (index : LinkMap) (hash : Uint256) : Decidable (index.Known hash) :=
  inferInstanceAs (Decidable ((index.lookup hash).isSome = true))

/-- Heights count the blocks before, and a skip leads to the ancestor of the height it is for. -/
structure Linked (index : LinkMap) : Prop where
  graded : Graded index.pprevOf index.Known index.heightOf
  skip : ∀ {hash links s}, index.lookup hash = some links → links.pskip = some s →
    0 < links.nHeight ∧ up index.pprevOf (links.nHeight - getSkipHeight links.nHeight).toNat hash = some s

variable {index : LinkMap} {hash : Uint256} {links : BlockLinks} {pprev : Option Uint256}

theorem known_of_lookup (h : index.lookup hash = some links) : index.Known hash := by
  rw [Known, h]
  rfl

theorem heightOf_eq (h : index.lookup hash = some links) :
    index.heightOf hash = links.nHeight := by
  rw [heightOf, h]
  rfl

theorem pprevOf_eq (h : index.lookup hash = some links) :
    index.pprevOf hash = links.pprev := by
  rw [pprevOf, h]
  rfl

theorem Known.exists_lookup (h : index.Known hash) : ∃ links, index.lookup hash = some links :=
  Option.isSome_iff_exists.1 h

theorem deref_eq (h : index.lookup hash = some links) :
    index.deref (some hash) = .ok links := by
  rw [deref, Option.bind_some, h]

theorem Known.deref (h : index.Known hash) :
    ∃ links, index.deref (some hash) = .ok links ∧ links.nHeight = index.heightOf hash ∧ links.pprev = index.pprevOf hash := by
  obtain ⟨links, hlinks⟩ := h.exists_lookup
  exact ⟨links, deref_eq hlinks, (heightOf_eq hlinks).symm, (pprevOf_eq hlinks).symm⟩

theorem Linked.walkToHeight_eq (hindex : index.Linked) (hknown : index.Known hash) {height : Nat}
    (hht : height ≤ index.heightOf hash) :
    index.walkToHeight height (some hash) (index.heightOf hash) =
      .ok (up index.pprevOf (index.heightOf hash - height).toNat hash) := by
  -- By induction on the distance; the entry is at the height that the walk has computed.
  generalize hdistance : (index.heightOf hash - height).toNat = distance
  induction distance using Nat.strongRecOn generalizing hash with
  | _ distance ih =>
    rw [walkToHeight]
    split
    · rename_i hwalk
      obtain ⟨links, hlinks⟩ := hknown.exists_lookup
      have hlinks' := heightOf_eq hlinks
      rw [deref_eq hlinks]
      dsimp only
      split
      · rename_i hskip
        rw [Bool.and_eq_true, Option.isSome_iff_exists] at hskip
        obtain ⟨⟨s, hs⟩, htakes⟩ := hskip
        obtain ⟨hpos, hup⟩ := hindex.skip hlinks hs
        obtain ⟨hknown', hht'⟩ := hindex.graded.of_up hknown hup
        have hrange := getSkipHeight_range hpos
        have hle := le_of_takesSkip htakes
        have hskipped : index.heightOf s = getSkipHeight (index.heightOf hash) := by
          rw [hlinks'] at hht' ⊢
          omega
        rw [hs, ← hskipped, ih _ (by omega) hknown' (by omega) rfl]
        have hsplit : distance = (links.nHeight - getSkipHeight links.nHeight).toNat + (index.heightOf s - height).toNat := by
          rw [hskipped, ← hlinks'] at *
          omega
        rw [hsplit, up_add, hup]
        rfl
      · cases hp : links.pprev with
        | none =>
          have := hindex.graded.root hknown ((pprevOf_eq hlinks).trans hp)
          omega
        | some p =>
          have hp' := (pprevOf_eq hlinks).trans hp
          obtain ⟨hknown', hstep⟩ := hindex.graded.step hknown hp'
          have hprev : index.heightOf hash - 1 = index.heightOf p := by omega
          rw [hprev, ih _ (by omega) hknown' (by omega) rfl]
          have hsplit : distance = (index.heightOf p - height).toNat + 1 := by omega
          rw [hsplit, up, hp']
          rfl
    · rename_i hwalk
      have hzero : distance = 0 := by omega
      rw [hzero]
      rfl

theorem Linked.getAncestor_eq (hindex : index.Linked) (hknown : index.Known hash) (height : Int) :
    index.getAncestor (some hash) height =
      .ok (if 0 ≤ height ∧ height ≤ index.heightOf hash then up index.pprevOf (index.heightOf hash - height).toNat hash
        else none) := by
  obtain ⟨links, hlinks⟩ := hknown.exists_lookup
  have hlinks' := heightOf_eq hlinks
  rw [getAncestor, deref_eq hlinks]
  change (if _ then _ else _) = _
  rw [← hlinks']
  split
  · rename_i hout
    rw [Bool.or_eq_true, decide_eq_true_eq, decide_eq_true_eq] at hout
    rw [if_neg (by omega)]
    rfl
  · rename_i hin
    rw [Bool.or_eq_true, decide_eq_true_eq, decide_eq_true_eq, not_or] at hin
    have hcast : ((height.toNat : Nat) : Int) = height := by omega
    rw [if_pos (by omega), hindex.walkToHeight_eq hknown (by omega), hcast]

/-! ### Building the index -/

/-- An index to which blocks have been added, each after its parent. -/
inductive Built : LinkMap → Prop where
  | empty : Built ∅
  | add {index index' : LinkMap} {hash : Uint256} {pprev : Option Uint256} : Built index → ¬ index.Known hash →
      (∀ p, pprev = some p → index.Known p) → index.addBlock hash pprev = .ok index' → Built index'

def newLinks (index : LinkMap) : Option Uint256 → BlockLinks
  | none => {}
  | some p =>
    { pprev := some p
      pskip := up index.pprevOf (index.heightOf p - getSkipHeight (index.heightOf p + 1)).toNat p
      nHeight := index.heightOf p + 1 }

def insertNew (index : LinkMap) (hash : Uint256) (pprev : Option Uint256) : LinkMap :=
  index.insert hash (index.newLinks pprev)

theorem Linked.addBlock_eq (hindex : index.Linked) (hash : Uint256) (hprev : ∀ p, pprev = some p → index.Known p) :
    index.addBlock hash pprev = .ok (index.insertNew hash pprev) := by
  cases pprev with
  | none => rfl
  | some p =>
    obtain ⟨links, hlinks⟩ := (hprev p rfl).exists_lookup
    have hht := heightOf_eq hlinks
    have hrange := getSkipHeight_range (show 0 < links.nHeight + 1 from by
      have := hindex.graded.nonneg (hprev p rfl)
      omega)
    have hskip := hindex.getAncestor_eq (hprev p rfl) (getSkipHeight (links.nHeight + 1))
    rw [if_pos (by omega)] at hskip
    simp only [addBlock, deref_eq hlinks, buildSkip, bind, Except.bind, hskip, insertNew, newLinks, hht]
    rfl

section

variable {hash : Uint256} {pprev : Option Uint256}

theorem lookup_insertNew : (index.insertNew hash pprev).lookup hash = some (index.newLinks pprev) := AList.lookup_insert index

variable {a : Uint256}

theorem lookup_insertNew_ne (h : a ≠ hash) : (index.insertNew hash pprev).lookup a = index.lookup a :=
  AList.lookup_insert_ne h

theorem known_insertNew : (index.insertNew hash pprev).Known a ↔ a = hash ∨ index.Known a := by
  by_cases ha : a = hash
  · subst ha
    exact ⟨fun _ => .inl rfl, fun _ => known_of_lookup lookup_insertNew⟩
  · rw [Known, lookup_insertNew_ne ha, Known]
    exact ⟨.inr, fun h => h.resolve_left ha⟩

theorem lookup_insertNew_known (hnew : ¬ index.Known hash) (h : index.Known a) :
    (index.insertNew hash pprev).lookup a = index.lookup a := by
  refine lookup_insertNew_ne ?_
  rintro rfl
  exact hnew h

theorem heightOf_insertNew (hnew : ¬ index.Known hash) (h : index.Known a) :
    (index.insertNew hash pprev).heightOf a = index.heightOf a := by
  rw [heightOf, lookup_insertNew_known hnew h, heightOf]

theorem pprevOf_insertNew (hnew : ¬ index.Known hash) (h : index.Known a) :
    (index.insertNew hash pprev).pprevOf a = index.pprevOf a := by
  rw [pprevOf, lookup_insertNew_known hnew h, pprevOf]

theorem Linked.up_insertNew (hindex : index.Linked) (hnew : ¬ index.Known hash) (h : index.Known a) (n : Nat) :
    up (index.insertNew hash pprev).pprevOf n a = up index.pprevOf n a := by
  induction n generalizing a with
  | zero => rfl
  | succ n ih =>
    rw [up, up, pprevOf_insertNew hnew h]
    cases hp : index.pprevOf a with
    | none => rfl
    | some p => exact ih (hindex.graded.step h hp).1

theorem Linked.graded_insertNew (hindex : index.Linked) (hnew : ¬ index.Known hash)
    (hprev : ∀ p, pprev = some p → index.Known p) :
    Graded (index.insertNew hash pprev).pprevOf (index.insertNew hash pprev).Known (index.insertNew hash pprev).heightOf := by
  refine ⟨?_, ?_, ?_⟩
  · intro a ha
    rcases known_insertNew.1 ha with rfl | ha
    · rw [heightOf_eq lookup_insertNew]
      cases pprev with
      | none => exact le_refl 0
      | some p =>
        have := hindex.graded.nonneg (hprev p rfl)
        change 0 ≤ index.heightOf p + 1
        omega
    · rw [heightOf_insertNew hnew ha]
      exact hindex.graded.nonneg ha
  · intro a ha hroot
    rcases known_insertNew.1 ha with rfl | ha
    · rw [pprevOf_eq lookup_insertNew] at hroot
      rw [heightOf_eq lookup_insertNew]
      cases pprev with
      | none => rfl
      | some p => cases hroot
    · rw [pprevOf_insertNew hnew ha] at hroot
      rw [heightOf_insertNew hnew ha]
      exact hindex.graded.root ha hroot
  · intro a p ha hp
    rcases known_insertNew.1 ha with rfl | ha
    · rw [pprevOf_eq lookup_insertNew] at hp
      rw [heightOf_eq lookup_insertNew]
      cases pprev with
      | none => cases hp
      | some p' =>
        cases hp
        rw [heightOf_insertNew hnew (hprev p rfl)]
        exact ⟨known_insertNew.2 (.inr (hprev p rfl)), rfl⟩
    · rw [pprevOf_insertNew hnew ha] at hp
      obtain ⟨hknown, hstep⟩ := hindex.graded.step ha hp
      rw [heightOf_insertNew hnew ha, heightOf_insertNew hnew hknown]
      exact ⟨known_insertNew.2 (.inr hknown), hstep⟩

theorem Linked.insertNew (hindex : index.Linked) (hnew : ¬ index.Known hash)
    (hprev : ∀ p, pprev = some p → index.Known p) : (index.insertNew hash pprev).Linked := by
  refine ⟨hindex.graded_insertNew hnew hprev, fun {a links s} hlinks hs => ?_⟩
  by_cases ha : a = hash
  · subst ha
    rw [lookup_insertNew] at hlinks
    cases hlinks
    cases pprev with
    | none => cases hs
    | some p =>
      have hpos := hindex.graded.nonneg (hprev p rfl)
      have hrange := getSkipHeight_range (show 0 < index.heightOf p + 1 by omega)
      change 0 < index.heightOf p + 1 ∧ up _ (index.heightOf p + 1 - getSkipHeight (index.heightOf p + 1)).toNat a = some s
      refine ⟨by omega, ?_⟩
      -- The new block is one step below its parent.
      have hsplit : (index.heightOf p + 1 - getSkipHeight (index.heightOf p + 1)).toNat =
          (index.heightOf p - getSkipHeight (index.heightOf p + 1)).toNat + 1 := by omega
      rw [hsplit, up, pprevOf_eq lookup_insertNew]
      exact (hindex.up_insertNew hnew (hprev p rfl) _).trans hs
  · rw [lookup_insertNew_ne ha] at hlinks
    obtain ⟨hpos, hup⟩ := hindex.skip hlinks hs
    exact ⟨hpos, (hindex.up_insertNew hnew (known_of_lookup hlinks) _).trans hup⟩

end

theorem linked_empty : Linked ∅ := by
  have hnone : ∀ {a}, ¬ LinkMap.Known ∅ a := by
    intro a ha
    rw [Known, AList.lookup_empty] at ha
    cases ha
  refine ⟨⟨fun ha => absurd ha hnone, fun ha => absurd ha hnone, fun ha => absurd ha hnone⟩, fun hlinks => ?_⟩
  rw [AList.lookup_empty] at hlinks
  cases hlinks

theorem Built.linked (h : index.Built) : index.Linked := by
  induction h with
  | empty => exact linked_empty
  | add _ hnew hprev hadd ih =>
    rw [ih.addBlock_eq _ hprev] at hadd
    cases hadd
    exact ih.insertNew hnew hprev

theorem Built.insertNew (h : index.Built) (hnew : ¬ index.Known hash) (hprev : ∀ p, pprev = some p → index.Known p) :
    Built (index.insertNew hash pprev) :=
  .add h hnew hprev (h.linked.addBlock_eq hash hprev)

/-- `GetAncestor` follows `pprev` as often as the heights differ, and there is no ancestor of other heights. -/
theorem getAncestor_exact (hindex : index.Built) {hash : Uint256} {links : BlockLinks}
    (hlinks : index.lookup hash = some links) (height : Int) :
    (0 ≤ height → height ≤ links.nHeight → ∃ a, index.getAncestor (some hash) height = .ok (some a) ∧
      up index.pprevOf (links.nHeight - height).toNat hash = some a) ∧
    (height < 0 ∨ links.nHeight < height → index.getAncestor (some hash) height = .ok none) := by
  have hknown := known_of_lookup hlinks
  have hht := heightOf_eq hlinks
  rw [hindex.linked.getAncestor_eq hknown, hht]
  constructor
  · intro h0 h1
    obtain ⟨a, ha, -, -⟩ := hindex.linked.graded.exists_ancestor hknown h0 (hht ▸ h1)
    rw [hht] at ha
    rw [if_pos ⟨h0, h1⟩]
    exact ⟨a, congrArg _ ha, ha⟩
  · intro hout
    rw [if_neg (by omega)]

def line : Nat → LinkMap
  | 0 => LinkMap.insertNew ∅ 0 none
  | n + 1 => (line n).insertNew (BitVec.ofNat 256 (n + 1)) (some (BitVec.ofNat 256 n))

theorem line_spec {n : Nat} (hn : n < 2 ^ 256) : (line n).Built ∧ (∀ k ≤ n, (line n).Known (BitVec.ofNat 256 k)) ∧
    (∀ k, n < k → k < 2 ^ 256 → ¬ (line n).Known (BitVec.ofNat 256 k)) ∧
    (line n).heightOf (BitVec.ofNat 256 n) = n := by
  induction n with
  | zero =>
    refine ⟨Built.empty.insertNew (by rw [Known, AList.lookup_empty]; decide) nofun, ?_, ?_, rfl⟩
    · intro k hk
      obtain rfl := Nat.le_zero.1 hk
      exact rfl
    · intro k hk hk' hknown
      have hne : BitVec.ofNat 256 k ≠ 0 := by
        intro heq
        have := congrArg BitVec.toNat heq
        rw [BitVec.toNat_ofNat, Nat.mod_eq_of_lt hk'] at this
        exact absurd this (by simp; omega)
      rw [line, known_insertNew, Known, AList.lookup_empty] at hknown
      exact hknown.elim hne nofun
  | succ n ih =>
    obtain ⟨hbuilt, hknown, hnew, hht⟩ := ih (by omega)
    have hlast := hknown n (le_refl n)
    have hne : ∀ k, k < 2 ^ 256 → k ≠ n + 1 → BitVec.ofNat 256 k ≠ BitVec.ofNat 256 (n + 1) := by
      intro k hk hkn heq
      have := congrArg BitVec.toNat heq
      rw [BitVec.toNat_ofNat, BitVec.toNat_ofNat, Nat.mod_eq_of_lt hk, Nat.mod_eq_of_lt hn] at this
      exact hkn this
    refine ⟨hbuilt.insertNew (hnew _ (by omega) hn) ?_, ?_, ?_, ?_⟩
    · rintro _ ⟨⟩
      exact hlast
    · intro k hk
      rcases Nat.lt_or_ge n k with hlt | hle
      · obtain rfl : k = n + 1 := by omega
        exact known_insertNew.2 (.inl rfl)
      · exact known_insertNew.2 (.inr (hknown k hle))
    · intro k hk hk' hknown'
      rw [line, known_insertNew] at hknown'
      exact hknown'.elim (hne k hk' (by omega)) (hnew k (by omega) hk')
    · rw [line, heightOf_eq lookup_insertNew]
      change (line n).heightOf _ + 1 = _
      rw [hht]
      push_cast
      rfl

theorem getAncestor_exact_line : (line 5).getAncestor (some 5) 1 = .ok (some 1) := by
  have hbuilt : (line 5).Built := (line_spec (by decide)).1
  have hlinks : (line 5).lookup 5 = some ((line 4).newLinks (some 4)) := lookup_insertNew
  obtain ⟨a, ha, hup⟩ := (getAncestor_exact hbuilt hlinks 1).1 (by decide) (by decide)
  rw [ha, ← hup]
  rfl

end LinkMap

end LitecoinZ
