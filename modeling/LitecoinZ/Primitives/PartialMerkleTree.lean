import Mathlib.Tactic.Ring
import LitecoinZ.Primitives.MerkleTree
import LitecoinZ.Primitives.WireFormat
import LitecoinZ.Validation.CheckTransaction

/-!
# Partial Merkle trees

`CPartialMerkleTree` of `merkleblock.{h,cpp}`: the part of the Merkle tree of a block that leads to some of its transactions,
as flag bits and hashes in depth-first order.  The recursive `CalcHash` gives the nodes of the levels that `BuildMerkleTree`
has (`calcHash_top`).  What is built, written and read again gives the root and the chosen transactions
(`extractMatches_serialized`).  From bits and hashes of any origin, only transactions of the block are extracted with its root
(`extractMatches_sound`).
-/

namespace LitecoinZ

open MerkleLevels Codec List Nat

structure CPartialMerkleTree (H : Type) where
  nTransactions : Nat
  vBits : List Bool
  vHash : List H
  fBad : Bool
  deriving DecidableEq, Repr

namespace CPartialMerkleTree

variable {H : Type} {n height pos : Nat}

/-! ### Building -/

section

variable (hash : H → H → H) (null : H)

def calcTreeWidth (nTransactions height : Nat) : Nat := (nTransactions + 2 ^ height - 1) / 2 ^ height

theorem lt_of_calcTreeWidth {nTransactions : Nat} (h : calcTreeWidth nTransactions height > 1) :
    height < nTransactions := by
  have hpow : height < 2 ^ height := Nat.lt_two_pow_self
  have hle : 2 ≤ (nTransactions + 2 ^ height - 1) / 2 ^ height := h
  rw [le_div_iff_mul_le (Nat.two_pow_pos _)] at hle
  omega

/-- The loop that looks for the height of the tree. -/
def heightFrom (nTransactions nHeight : Nat) : Nat :=
  if calcTreeWidth nTransactions nHeight > 1 then heightFrom nTransactions (nHeight + 1) else nHeight
termination_by nTransactions - nHeight
decreasing_by
  have := lt_of_calcTreeWidth ‹_›
  omega

def treeHeight (nTransactions : Nat) : Nat := heightFrom nTransactions 0

def calcHash (nTransactions : Nat) (vTxid : List H) : (height pos : Nat) → H
  | 0, pos => vTxid.getD pos null
  | height + 1, pos =>
    let left := calcHash nTransactions vTxid height (pos * 2)
    let right := if pos * 2 + 1 < calcTreeWidth nTransactions height then calcHash nTransactions vTxid height (pos * 2 + 1)
      else left
    hash left right

/-- The loop over the transactions below a node. -/
def parentOfMatch (nTransactions : Nat) (vMatch : List Bool) (height pos : Nat) : Bool :=
  ((List.range' (pos * 2 ^ height) (2 ^ height)).filter (· < nTransactions)).any fun p => vMatch.getD p false

/-- The bits and the hashes that `TraverseAndBuild` adds. -/
def traverseAndBuild (nTransactions : Nat) (vTxid : List H) (vMatch : List Bool) :
    (height pos : Nat) → List Bool × List H
  | 0, pos => ([parentOfMatch nTransactions vMatch 0 pos], [calcHash hash null nTransactions vTxid 0 pos])
  | height + 1, pos =>
    if parentOfMatch nTransactions vMatch (height + 1) pos then
      let left := traverseAndBuild nTransactions vTxid vMatch height (pos * 2)
      let right := if pos * 2 + 1 < calcTreeWidth nTransactions height then
          traverseAndBuild nTransactions vTxid vMatch height (pos * 2 + 1)
        else ([], [])
      (true :: (left.1 ++ right.1), left.2 ++ right.2)
    else ([false], [calcHash hash null nTransactions vTxid (height + 1) pos])

/-- The constructor from the transactions of a block and those that are chosen. -/
def ofMatches (vTxid : List H) (vMatch : List Bool) : CPartialMerkleTree H :=
  let built := traverseAndBuild hash null vTxid.length vTxid vMatch (treeHeight vTxid.length) 0
  { nTransactions := vTxid.length, vBits := built.1, vHash := built.2, fBad := false }

/-- What `TraverseAndExtract` changes. -/
structure ExtractState (H : Type) where
  nBitsUsed : Nat := 0
  nHashUsed : Nat := 0
  vMatch : List H := []
  fBad : Bool := false

/-- A node that is not descended into. -/
def takeHash (t : CPartialMerkleTree H) (matched : Bool) (s : ExtractState H) : H × ExtractState H :=
  if s.nHashUsed ≥ t.vHash.length then (null, { s with fBad := true })
  else
    let h := t.vHash.getD s.nHashUsed null
    (h, { s with nHashUsed := s.nHashUsed + 1, vMatch := if matched then s.vMatch ++ [h] else s.vMatch })

end

section

variable [DecidableEq H] (hash : H → H → H) (null : H)

def traverseAndExtract (t : CPartialMerkleTree H) : (height pos : Nat) → ExtractState H → H × ExtractState H
  | 0, _, s =>
    if s.nBitsUsed ≥ t.vBits.length then (null, { s with fBad := true })
    else takeHash null t (t.vBits.getD s.nBitsUsed false) { s with nBitsUsed := s.nBitsUsed + 1 }
  | height + 1, pos, s =>
    if s.nBitsUsed ≥ t.vBits.length then (null, { s with fBad := true })
    else if t.vBits.getD s.nBitsUsed false then
      let left := traverseAndExtract t height (pos * 2) { s with nBitsUsed := s.nBitsUsed + 1 }
      if pos * 2 + 1 < calcTreeWidth t.nTransactions height then
        let right := traverseAndExtract t height (pos * 2 + 1) left.2
        (hash left.1 right.1, { right.2 with fBad := right.2.fBad || right.1 == left.1 })
      else (hash left.1 left.1, left.2)
    else takeHash null t false { s with nBitsUsed := s.nBitsUsed + 1 }

/-- The root that `ExtractMatches` returns, null in case of failure, and `vMatch`. -/
def extractMatches (t : CPartialMerkleTree H) : H × List H :=
  if t.nTransactions = 0 then (null, [])
  else if t.nTransactions > MAX_BLOCK_SIZE / 60 then (null, [])
  else if t.vHash.length > t.nTransactions then (null, [])
  else if t.vBits.length < t.vHash.length then (null, [])
  else
    let r := traverseAndExtract hash null t (treeHeight t.nTransactions) 0 { fBad := t.fBad }
    if r.2.fBad then (null, r.2.vMatch)
    else if (r.2.nBitsUsed + 7) / 8 ≠ (t.vBits.length + 7) / 8 then (null, r.2.vMatch)
    else if r.2.nHashUsed ≠ t.vHash.length then (null, r.2.vMatch)
    else (r.1, r.2.vMatch)

end

def bitMask (p : Nat) : UInt8 := 1 <<< UInt8.ofNat (p % 8)

/-- The loop that packs the bits, from bit `p` on. -/
def packFrom : (p : Nat) → (vBits : List Bool) → (vBytes : List UInt8) → List UInt8
  | _, [], vBytes => vBytes
  | p, b :: vBits, vBytes => packFrom (p + 1) vBits (vBytes.modify (p / 8) (· ||| if b then bitMask p else 0))

def packBits (vBits : List Bool) : List UInt8 := packFrom 0 vBits (List.replicate ((vBits.length + 7) / 8) 0)

def bitAt (vBytes : List UInt8) (p : Nat) : Bool := vBytes.getD (p / 8) 0 &&& bitMask p != 0

def unpackBits (vBytes : List UInt8) : List Bool := (List.range (vBytes.length * 8)).map (bitAt vBytes)

def serializationOp : Codec Fault (CPartialMerkleTree Uint256) :=
  ((uintLE 4).seq fun _ => (vectorOf MAX_SIZE uint256).seq fun _ => byteVector MAX_SIZE).imap
    (fun (nTransactions, vHash, vBytes) => { nTransactions, vBits := unpackBits vBytes, vHash, fBad := false })
    fun t => (t.nTransactions, t.vHash, packBits t.vBits)

/-! ### The shape of the tree -/

theorem calcTreeWidth_zero (n : Nat) : calcTreeWidth n 0 = n := by
  rw [calcTreeWidth, pow_zero, Nat.add_sub_cancel, Nat.div_one]

theorem calcTreeWidth_succ (n height : Nat) : calcTreeWidth n (height + 1) = (calcTreeWidth n height + 1) / 2 := by
  have hpos := Nat.two_pow_pos height
  have hsum : n + 2 ^ (height + 1) - 1 = n + 2 ^ height - 1 + 2 ^ height := by
    rw [pow_succ]
    omega
  rw [calcTreeWidth, hsum, pow_succ, ← Nat.div_div_eq_div_mul, add_div_right _ hpos]
  rfl

theorem calcTreeWidth_half (n height : Nat) : calcTreeWidth n (height + 1) = calcTreeWidth ((n + 1) / 2) height := by
  induction height with
  | zero => rw [calcTreeWidth_succ, calcTreeWidth_zero, calcTreeWidth_zero]
  | succ height ih => rw [calcTreeWidth_succ, ih, calcTreeWidth_succ]

theorem lt_calcTreeWidth : pos < calcTreeWidth n height ↔ pos * 2 ^ height < n := by
  have hpos := Nat.two_pow_pos height
  rw [calcTreeWidth, ← succ_le_iff, le_div_iff_mul_le hpos, succ_mul]
  omega

private theorem heightFrom_half (n height : Nat) : heightFrom n (height + 1) = heightFrom ((n + 1) / 2) height + 1 := by
  fun_induction heightFrom ((n + 1) / 2) height with
  | case1 height hwidth ih => rw [heightFrom, calcTreeWidth_half, if_pos hwidth, ih]
  | case2 height hwidth => rw [heightFrom, calcTreeWidth_half, if_neg hwidth]

theorem treeHeight_of_le (h : n ≤ 1) : treeHeight n = 0 := by
  rw [treeHeight, heightFrom, calcTreeWidth_zero, if_neg (by omega)]

theorem treeHeight_of_lt (h : 1 < n) : treeHeight n = treeHeight ((n + 1) / 2) + 1 := by
  rw [treeHeight, heightFrom, calcTreeWidth_zero, if_pos h, heightFrom_half, treeHeight]

theorem calcTreeWidth_treeHeight (n : Nat) : calcTreeWidth n (treeHeight n) ≤ 1 := by
  rw [treeHeight]
  fun_induction heightFrom n 0 with
  | case1 height hwidth ih => exact ih
  | case2 height hwidth => omega

private theorem lt_calcTreeWidth_of_lt {k : Nat} (hle : height ≤ k) (hlt : k < heightFrom n height) :
    1 < calcTreeWidth n k := by
  fun_induction heightFrom n height with
  | case1 height hwidth ih =>
    rcases Nat.eq_or_lt_of_le hle with rfl | hlt'
    · exact hwidth
    · exact ih hlt' hlt
  | case2 height hwidth => omega

theorem two_pow_treeHeight (h : 1 ≤ n) : 2 ^ treeHeight n < 2 * n := by
  cases hht : treeHeight n with
  | zero =>
    rw [pow_zero]
    omega
  | succ k =>
    have hwidth := lt_calcTreeWidth_of_lt (zero_le k) (show k < heightFrom n 0 by rw [treeHeight] at hht; omega)
    rw [lt_calcTreeWidth, Nat.one_mul] at hwidth
    rw [pow_succ]
    omega

/-! ### The nodes of the tree -/

variable {hash : H → H → H} {null : H} {l : List H}

def children (hash : H → H → H) (null : H) (l : List H) (height pos : Nat) : H × H :=
  (calcHash hash null l.length l height (pos * 2),
    if pos * 2 + 1 < calcTreeWidth l.length height then calcHash hash null l.length l height (pos * 2 + 1)
    else calcHash hash null l.length l height (pos * 2))

theorem calcHash_succ (height pos : Nat) : calcHash hash null l.length l (height + 1) pos =
    hash (children hash null l height pos).1 (children hash null l height pos).2 := rfl

section

variable (hash) (null)

private theorem getElem?_neighbours_children (hpos : pos < calcTreeWidth l.length 1) :
    (neighbours l)[pos]? = some (children hash null l 0 pos) := by
  rw [calcTreeWidth_succ, calcTreeWidth_zero] at hpos
  obtain ⟨a, ha⟩ : ∃ a, l[2 * pos]? = some a := ⟨_, getElem?_eq_getElem (by omega)⟩
  obtain ⟨b, hb⟩ : ∃ b, l[min (2 * pos + 1) (l.length - 1)]? = some b := ⟨_, getElem?_eq_getElem (by omega)⟩
  have hleft : l.getD (pos * 2) null = a := by rw [Nat.mul_comm, getD_eq_getElem?_getD, ha, Option.getD_some]
  have hright : (if pos * 2 + 1 < l.length then l.getD (pos * 2 + 1) null else l.getD (pos * 2) null) = b := by
    split
    · rename_i hlt
      rw [show min (2 * pos + 1) (l.length - 1) = pos * 2 + 1 by omega] at hb
      rw [getD_eq_getElem?_getD, hb, Option.getD_some]
    · rename_i hge
      rw [show min (2 * pos + 1) (l.length - 1) = pos * 2 by omega] at hb
      rw [getD_eq_getElem?_getD, hb, Option.getD_some]
  rw [getElem?_neighbours ha hb, children, calcTreeWidth_zero]
  simp only [calcHash]
  rw [hright, hleft]

theorem calcHash_up (hpos : pos < calcTreeWidth l.length (height + 1)) :
    calcHash hash null l.length l (height + 1) pos = calcHash hash null (up hash l).length (up hash l) height pos := by
  induction height generalizing pos with
  | zero =>
    rw [calcHash_succ, calcHash, up, getD_eq_getElem?_getD, getElem?_map,
      getElem?_neighbours_children hash null hpos]
    rfl
  | succ height ih =>
    rw [calcTreeWidth_succ] at hpos
    have hwidth : calcTreeWidth (up hash l).length height = calcTreeWidth l.length (height + 1) := by
      rw [length_up, calcTreeWidth_half]
    rw [calcHash_succ, calcHash_succ, children, children, hwidth, ih (show pos * 2 < _ by omega)]
    split
    · rename_i hright
      rw [ih hright]
    · rfl

theorem children_up (hpos : pos < calcTreeWidth l.length (height + 2)) :
    children hash null l (height + 1) pos = children hash null (up hash l) height pos := by
  rw [calcTreeWidth_succ] at hpos
  have hwidth : calcTreeWidth (up hash l).length height = calcTreeWidth l.length (height + 1) := by
    rw [length_up, calcTreeWidth_half]
  rw [children, children, hwidth, calcHash_up hash null (show pos * 2 < _ by omega)]
  split
  · rename_i hright
    rw [calcHash_up hash null hright]
  · rfl

theorem calcHash_top (hne : l ≠ []) : calcHash hash null l.length l (treeHeight l.length) 0 = root hash null l := by
  induction l using induction_up hash with
  | hshort l h =>
    rw [treeHeight_of_le h, root_of_le h, calcHash]
    cases l with
    | nil => rfl
    | cons a l => rfl
  | hup l h ih =>
    have hne_up : up hash l ≠ [] := by
      rw [ne_eq, ← length_eq_zero_iff, length_up]
      omega
    have htop : 0 < calcTreeWidth l.length (treeHeight ((l.length + 1) / 2) + 1) := by
      rw [lt_calcTreeWidth]
      omega
    rw [treeHeight_of_lt h, calcHash_up hash null htop, root_of_lt h, ← ih hne_up, length_up]

end

theorem calcHash_ne (hnodup : l.Nodup) (hfree : CollisionFree hash (treePairs hash l)) {pos' : Nat}
    (hpos : pos < calcTreeWidth l.length height) (hpos' : pos' < calcTreeWidth l.length height) (hne : pos ≠ pos') :
    calcHash hash null l.length l height pos ≠ calcHash hash null l.length l height pos' := by
  induction height generalizing l with
  | zero =>
    rw [calcTreeWidth_zero] at hpos hpos'
    rw [calcHash, calcHash, getD_eq_getElem _ _ hpos, getD_eq_getElem _ _ hpos']
    exact fun h => hne (hnodup.getElem_inj_iff.1 h)
  | succ height ih =>
    rw [calcHash_up hash null hpos, calcHash_up hash null hpos']
    rw [calcTreeWidth_half, ← length_up hash] at hpos hpos'
    by_cases hlt : 1 < l.length
    · rw [treePairs_of_lt hlt] at hfree
      exact ih (nodup_up hnodup (hfree.mono (subset_append_left _ _))) (hfree.mono (subset_append_right _ _)) hpos
        hpos'
    · rw [length_up, lt_calcTreeWidth] at hpos hpos'
      have h1 : 1 ≤ 2 ^ height := Nat.two_pow_pos height
      have h2 : pos ≤ pos * 2 ^ height := Nat.le_mul_of_pos_right _ h1
      have h3 : pos' ≤ pos' * 2 ^ height := Nat.le_mul_of_pos_right _ h1
      omega

theorem children_mem (hht : height < treeHeight l.length)
    (hpos : pos < calcTreeWidth l.length (height + 1)) : children hash null l height pos ∈ treePairs hash l := by
  induction height generalizing l with
  | zero =>
    have hlt : 1 < l.length := by
      by_contra hle
      rw [treeHeight_of_le (not_lt.1 hle)] at hht
      omega
    rw [treePairs_of_lt hlt]
    exact mem_append_left _ (mem_of_getElem? (getElem?_neighbours_children hash null hpos))
  | succ height ih =>
    have hlt : 1 < l.length := by
      by_contra hle
      rw [treeHeight_of_le (not_lt.1 hle)] at hht
      omega
    rw [treeHeight_of_lt hlt, ← length_up hash] at hht
    rw [children_up hash null hpos, treePairs_of_lt hlt]
    rw [calcTreeWidth_half, ← length_up hash] at hpos
    exact mem_append_right _ (ih (by omega) hpos)

/-! ### Bits and hashes of any origin -/

variable {t : CPartialMerkleTree H} {s : ExtractState H}

private theorem takeHash_fBad {matched : Bool} (h : (takeHash null t matched s).2.fBad = false) : s.fBad = false := by
  unfold takeHash at h
  split at h
  · cases h
  · exact h

section

variable [DecidableEq H]

private theorem traverseAndExtract_leaf (hbad : (traverseAndExtract hash null t 0 pos s).2.fBad = false) :
    s.fBad = false ∧ ((traverseAndExtract hash null t 0 pos s).2.vMatch = s.vMatch ∨
      (traverseAndExtract hash null t 0 pos s).2.vMatch = s.vMatch ++ [(traverseAndExtract hash null t 0 pos s).1]) := by
  unfold traverseAndExtract at hbad ⊢
  split
  · rename_i hbits
    rw [if_pos hbits] at hbad
    cases hbad
  · rename_i hbits
    rw [if_neg hbits] at hbad
    have hs := takeHash_fBad hbad
    unfold takeHash at hbad ⊢
    split at hbad
    · cases hbad
    · rename_i hhash
      rw [if_neg hhash]
      dsimp only
      split
      · exact ⟨hs, .inr rfl⟩
      · exact ⟨hs, .inl rfl⟩

/-- What is extracted at an inner node, unless something is bad: its hash is taken, or it is descended into. -/
private theorem traverseAndExtract_inner
    (hbad : (traverseAndExtract hash null t (height + 1) pos s).2.fBad = false) :
    (s.fBad = false ∧ (traverseAndExtract hash null t (height + 1) pos s).2.vMatch = s.vMatch) ∨
    ∃ left s1, traverseAndExtract hash null t height (pos * 2) { s with nBitsUsed := s.nBitsUsed + 1 } = (left, s1) ∧
      ((pos * 2 + 1 < calcTreeWidth t.nTransactions height ∧ ∃ right s2,
          traverseAndExtract hash null t height (pos * 2 + 1) s1 = (right, s2) ∧ s2.fBad = false ∧
          traverseAndExtract hash null t (height + 1) pos s = (hash left right, s2)) ∨
        (¬ pos * 2 + 1 < calcTreeWidth t.nTransactions height ∧ s1.fBad = false ∧
          traverseAndExtract hash null t (height + 1) pos s = (hash left left, s1))) := by
  rw [traverseAndExtract] at hbad ⊢
  split
  · rename_i hbits
    rw [if_pos hbits] at hbad
    cases hbad
  · rename_i hbits
    rw [if_neg hbits] at hbad
    split
    · rename_i hpar
      rw [if_pos hpar] at hbad
      right
      refine ⟨_, _, rfl, ?_⟩
      dsimp only at hbad ⊢
      split
      · rename_i hright
        rw [if_pos hright] at hbad
        rw [Bool.or_eq_false_iff] at hbad
        refine .inl ⟨hright, _, _, rfl, hbad.1, ?_⟩
        rw [hbad.2, Bool.or_false]
      · rename_i hright
        rw [if_neg hright] at hbad
        exact .inr ⟨hright, hbad, rfl⟩
    · rename_i hpar
      rw [if_neg hpar] at hbad
      left
      refine ⟨takeHash_fBad (s := { s with nBitsUsed := s.nBitsUsed + 1 }) hbad, ?_⟩
      unfold takeHash
      split <;> rfl

private theorem traverseAndExtract_fBad
    (hbad : (traverseAndExtract hash null t height pos s).2.fBad = false) : s.fBad = false := by
  induction height generalizing pos s with
  | zero => exact (traverseAndExtract_leaf hbad).1
  | succ height ih =>
    rcases traverseAndExtract_inner hbad with ⟨hs, -⟩ | ⟨left, s1, hleft, ⟨-, right, s2, hright, hs2, -⟩ | ⟨-, hs1, -⟩⟩
    · exact hs
    · have hs1 : s1.fBad = false := ih (by rw [hright]; exact hs2)
      exact ih (s := { s with nBitsUsed := s.nBitsUsed + 1 }) (by rw [hleft]; exact hs1)
    · exact ih (s := { s with nBitsUsed := s.nBitsUsed + 1 }) (by rw [hleft]; exact hs1)

end

/-- The second list goes on after the first one with leaves from `a` on and before `b`, in their order. -/
def GoesOn (l vMatch vMatch' : List H) (a b : Nat) : Prop :=
  ∃ positions : List Nat, positions.Pairwise (· < ·) ∧ (∀ p ∈ positions, a ≤ p ∧ p < b) ∧
    vMatch'.map some = vMatch.map some ++ positions.map fun p => l[p]?

section

variable {vMatch vMatch' vMatch'' : List H} {a b c : Nat}

private theorem GoesOn.refl : GoesOn l vMatch vMatch a b :=
  ⟨[], Pairwise.nil, fun _ hp => absurd hp not_mem_nil, by rw [map_nil, append_nil]⟩

private theorem GoesOn.single (hpos : pos < l.length) :
    GoesOn l vMatch (vMatch ++ [l.getD pos null]) pos (pos + 1) := by
  refine ⟨[pos], pairwise_singleton _ _, ?_, ?_⟩
  · intro p hp
    rw [mem_singleton.1 hp]
    omega
  · rw [map_append, map_singleton, map_singleton, getD_eq_getElem _ _ hpos, getElem?_eq_getElem hpos]

private theorem GoesOn.mono (h : GoesOn l vMatch vMatch' a b) (hle : b ≤ c) : GoesOn l vMatch vMatch' a c := by
  obtain ⟨ps, hps, hin, heq⟩ := h
  exact ⟨ps, hps, fun p hp => ⟨(hin p hp).1, (hin p hp).2.trans_le hle⟩, heq⟩

private theorem GoesOn.trans (h : GoesOn l vMatch vMatch' a b) (h' : GoesOn l vMatch' vMatch'' b c) (hab : a ≤ b) (hbc : b ≤ c) :
    GoesOn l vMatch vMatch'' a c := by
  obtain ⟨ps, hps, hin, heq⟩ := h
  obtain ⟨qs, hqs, hin', heq'⟩ := h'
  refine ⟨ps ++ qs, pairwise_append.2 ⟨hps, hqs, fun p hp q hq => ?_⟩, fun p hp => ?_, ?_⟩
  · exact (hin p hp).2.trans_le (hin' q hq).1
  · rcases mem_append.1 hp with hp | hp
    · exact ⟨(hin p hp).1, (hin p hp).2.trans_le hbc⟩
    · exact ⟨hab.trans (hin' p hp).1, (hin' p hp).2⟩
  · rw [heq', heq, map_append, append_assoc]

end

section

variable [DecidableEq H]

/-- The hashes that are extracted below a node with the right hash are leaves below it, in their order. -/
private theorem traverseAndExtract_sound (hfree : SecondPreimageFree hash (treePairs hash l)) (ht : t.nTransactions = l.length)
    (hht : height ≤ treeHeight l.length) (hpos : pos < calcTreeWidth l.length height)
    (hbad : (traverseAndExtract hash null t height pos s).2.fBad = false)
    (heq : (traverseAndExtract hash null t height pos s).1 = calcHash hash null l.length l height pos) :
    GoesOn l s.vMatch (traverseAndExtract hash null t height pos s).2.vMatch (pos * 2 ^ height) ((pos + 1) * 2 ^ height) := by
  induction height generalizing pos s with
  | zero =>
    rw [pow_zero, Nat.mul_one, Nat.mul_one]
    rcases (traverseAndExtract_leaf hbad).2 with hsame | hmatch
    · rw [hsame]
      exact GoesOn.refl
    · rw [calcTreeWidth_zero] at hpos
      rw [hmatch, heq]
      exact GoesOn.single hpos
  | succ height ih =>
    have hkids := hfree _ (children_mem (by omega) hpos : children hash null l height pos ∈ treePairs hash l)
    rw [calcTreeWidth_succ] at hpos
    have hfrom : pos * 2 ^ (height + 1) = pos * 2 * 2 ^ height := by
      rw [pow_succ]
      ring
    have hto : (pos + 1) * 2 ^ (height + 1) = (pos * 2 + 1 + 1) * 2 ^ height := by
      rw [pow_succ]
      ring
    have hle : pos * 2 * 2 ^ height ≤ (pos * 2 + 1) * 2 ^ height := mul_le_mul_right _ (le_succ _)
    have hle' : (pos * 2 + 1) * 2 ^ height ≤ (pos * 2 + 1 + 1) * 2 ^ height := mul_le_mul_right _ (le_succ _)
    rw [hfrom, hto]
    rcases traverseAndExtract_inner hbad with
      ⟨-, hsame⟩ | ⟨left, s1, hleft, ⟨hlt, right, s2, hright, hs2, hres⟩ | ⟨hlt, hs1, hres⟩⟩
    · rw [hsame]
      exact GoesOn.refl
    · -- Both children have the right hashes, so what is extracted below them are leaves.
      rw [hres, calcHash_succ] at heq
      obtain ⟨hl, hr⟩ := hkids _ _ heq
      rw [ht] at hlt
      rw [children, if_pos hlt] at hr
      have hs1 : s1.fBad = false := traverseAndExtract_fBad (by rw [hright]; exact hs2)
      have hbelow := @ih (pos * 2) { s with nBitsUsed := s.nBitsUsed + 1 } (by omega) (by omega)
        (by rw [hleft]; exact hs1) (by rw [hleft]; exact hl)
      have hbelow' := @ih (pos * 2 + 1) s1 (by omega) hlt (by rw [hright]; exact hs2) (by rw [hright]; exact hr)
      rw [hleft] at hbelow
      rw [hright] at hbelow'
      rw [hres]
      exact hbelow.trans hbelow' hle hle'
    · rw [hres, calcHash_succ] at heq
      obtain ⟨hl, -⟩ := hkids _ _ heq
      have hbelow := @ih (pos * 2) { s with nBitsUsed := s.nBitsUsed + 1 } (by omega) (by omega)
        (by rw [hleft]; exact hs1) (by rw [hleft]; exact hl)
      rw [hleft] at hbelow
      rw [hres]
      exact hbelow.mono hle'

private theorem extractMatches_ok (h : (extractMatches hash null t).1 ≠ null) : t.nTransactions ≠ 0 ∧
    (traverseAndExtract hash null t (treeHeight t.nTransactions) 0 { fBad := t.fBad }).2.fBad = false ∧
    extractMatches hash null t =
      ((traverseAndExtract hash null t (treeHeight t.nTransactions) 0 { fBad := t.fBad }).1,
        (traverseAndExtract hash null t (treeHeight t.nTransactions) 0 { fBad := t.fBad }).2.vMatch) := by
  unfold extractMatches at h ⊢
  by_cases h1 : t.nTransactions = 0
  · rw [if_pos h1] at h
    exact absurd rfl h
  rw [if_neg h1] at h ⊢
  by_cases h2 : t.nTransactions > MAX_BLOCK_SIZE / 60
  · rw [if_pos h2] at h
    exact absurd rfl h
  rw [if_neg h2] at h ⊢
  by_cases h3 : t.vHash.length > t.nTransactions
  · rw [if_pos h3] at h
    exact absurd rfl h
  rw [if_neg h3] at h ⊢
  by_cases h4 : t.vBits.length < t.vHash.length
  · rw [if_pos h4] at h
    exact absurd rfl h
  rw [if_neg h4] at h ⊢
  dsimp only at h ⊢
  split at h
  · exact absurd rfl h
  rename_i hbad
  rw [if_neg hbad]
  split at h
  · exact absurd rfl h
  rename_i hbits
  rw [if_neg hbits]
  split at h
  · exact absurd rfl h
  rename_i hhs
  rw [if_neg hhs]
  exact ⟨h1, eq_false_of_ne_true hbad, rfl⟩

/-- With the root of a block, unless that is null, only transactions of the block are extracted, in their order. -/
theorem extractMatches_sound {hash : H → H → H} {null : H} {vTxid : List H}
    (hfree : SecondPreimageFree hash (treePairs hash vTxid)) (hnull : (buildMerkleTree hash null vTxid).root ≠ null)
    {t : CPartialMerkleTree H} (ht : t.nTransactions = vTxid.length)
    (hroot : (extractMatches hash null t).1 = (buildMerkleTree hash null vTxid).root) :
    ∃ positions : List Nat, positions.Pairwise (· < ·) ∧
      (extractMatches hash null t).2.map some = positions.map fun p => vTxid[p]? := by
  obtain ⟨hzero, hbad, hextract⟩ := extractMatches_ok (hroot ▸ hnull)
  have hne : vTxid ≠ [] := by
    rintro rfl
    exact hzero ht
  rw [hextract, buildMerkleTree_eq, ← calcHash_top hash null hne] at hroot
  rw [hextract]
  rw [ht] at hbad hroot ⊢
  have htop : 0 < calcTreeWidth vTxid.length (treeHeight vTxid.length) := by
    rw [lt_calcTreeWidth, Nat.zero_mul]
    exact length_pos_iff.2 hne
  obtain ⟨positions, hsort, -, hmatches⟩ := traverseAndExtract_sound hfree ht (le_refl _) htop hbad hroot
  exact ⟨positions, hsort, hmatches⟩

end

/-- Two of three transactions are extracted; the third one is not needed to know the root. -/
theorem extractMatches_sound_two :
    ∃ positions : List Nat, positions.Pairwise (· < ·) ∧
      (extractMatches evenPair 0 (ofMatches evenPair 0 [1, 3, 5] [true, false, true])).2.map some =
        positions.map fun p => [1, 3, 5][p]? := by
  have hfree : SecondPreimageFree evenPair (treePairs evenPair [1, 3, 5]) := fun p _ a b h => evenPair_injective h
  refine extractMatches_sound hfree (by decide +kernel) rfl ?_
  decide +kernel

/-- The null hash is also the result of a failure, after which there may be anything in `vMatch`. -/
theorem extractMatches_unsound : Function.Injective2 evenPair ∧
    extractMatches evenPair 1 { nTransactions := 1, vBits := List.replicate 16 true, vHash := [7], fBad := false } = (1, [7]) ∧
    (buildMerkleTree evenPair 1 [1]).root = 1 := by
  refine ⟨evenPair_injective, ?_, ?_⟩
  · decide +kernel
  · decide +kernel

private theorem or_and_ne_zero (x y m : UInt8) : ((x ||| y) &&& m != 0) = (x &&& m != 0 || y &&& m != 0) := by
  have hsplit : (x ||| y) &&& m = x &&& m ||| y &&& m := UInt8.toBitVec_inj.1 BitVec.and_or_distrib_right
  rw [hsplit, Bool.eq_iff_iff, Bool.or_eq_true, bne_iff_ne, bne_iff_ne, bne_iff_ne, ne_eq, UInt8.or_eq_zero_iff]
  exact not_and_or

private theorem bitMask_and (p q : Nat) : (bitMask p &&& bitMask q != 0) = decide (p % 8 = q % 8) := by
  have hsmall : ∀ i < 8, ∀ j < 8, ((1 : UInt8) <<< UInt8.ofNat i &&& 1 <<< UInt8.ofNat j != 0) = decide (i = j) := by decide
  exact hsmall _ (mod_lt _ (by decide)) _ (mod_lt _ (by decide))

theorem bitAt_modify {vBytes : List UInt8} (p : Nat) {q : Nat} (b : Bool) (hq : q / 8 < vBytes.length) :
    bitAt (vBytes.modify (p / 8) (· ||| if b then bitMask p else 0)) q = (bitAt vBytes q || (decide (p = q) && b)) := by
  have hread : (vBytes.modify (p / 8) (· ||| if b then bitMask p else 0)).getD (q / 8) 0 =
      if p / 8 = q / 8 then vBytes[q / 8] ||| if b then bitMask p else 0 else vBytes[q / 8] := by
    rw [getD_eq_getElem?_getD, getElem?_modify, getElem?_eq_getElem hq]
    rfl
  rw [bitAt, bitAt, hread, getD_eq_getElem _ _ hq]
  by_cases hbyte : p / 8 = q / 8
  · rw [if_pos hbyte, or_and_ne_zero]
    congr 1
    cases b with
    | false => simp
    | true =>
      rw [if_pos rfl, bitMask_and, Bool.and_true, Bool.eq_iff_iff, decide_eq_true_iff, decide_eq_true_iff]
      omega
  · rw [if_neg hbyte, decide_eq_false (by rintro rfl; exact hbyte rfl), Bool.false_and, Bool.or_false]

private theorem length_packFrom (p : Nat) (vBits : List Bool) (vBytes : List UInt8) :
    (packFrom p vBits vBytes).length = vBytes.length := by
  induction vBits generalizing p vBytes with
  | nil => rfl
  | cons b vBits ih => rw [packFrom, ih, length_modify]

private theorem bitAt_packFrom (p : Nat) (vBits : List Bool) {vBytes : List UInt8} {q : Nat} (hq : q / 8 < vBytes.length) :
    bitAt (packFrom p vBits vBytes) q = (bitAt vBytes q || (decide (p ≤ q) && vBits.getD (q - p) false)) := by
  induction vBits generalizing p vBytes with
  | nil => simp [packFrom]
  | cons b vBits ih =>
    rw [packFrom, ih (p + 1) (by rwa [length_modify]), bitAt_modify p b hq, Bool.or_assoc]
    congr 1
    rcases Nat.lt_trichotomy p q with hlt | rfl | hgt
    · obtain ⟨k, rfl⟩ := Nat.exists_eq_add_of_lt hlt
      rw [decide_eq_false (by omega), decide_eq_true (by omega), decide_eq_true (by omega),
        show p + k + 1 - p = k + 1 by omega, show p + k + 1 - (p + 1) = k by omega]
      rfl
    · rw [decide_eq_true rfl, decide_eq_false (by omega), decide_eq_true (le_refl _), Nat.sub_self]
      simp
    · rw [decide_eq_false (by omega), decide_eq_false (by omega), decide_eq_false (by omega)]
      rfl

theorem unpackBits_packBits (vBits : List Bool) :
    unpackBits (packBits vBits) = vBits ++ replicate ((vBits.length + 7) / 8 * 8 - vBits.length) false := by
  have hlen : (packBits vBits).length = (vBits.length + 7) / 8 := by
    rw [packBits, length_packFrom, length_replicate]
  refine ext_getElem? fun q => ?_
  rw [unpackBits, hlen, getElem?_map]
  by_cases hq : q < (vBits.length + 7) / 8 * 8
  · have hzero : bitAt (replicate ((vBits.length + 7) / 8) 0) q = false := by
      rw [bitAt, getD_eq_getElem _ _ (by rw [length_replicate]; omega), getElem_replicate]
      simp
    rw [getElem?_range hq, Option.map_some, packBits,
      bitAt_packFrom 0 vBits (by rw [length_replicate]; omega), hzero, decide_eq_true (zero_le q), Nat.sub_zero]
    by_cases hlt : q < vBits.length
    · rw [getElem?_append_left hlt, getD_eq_getElem _ _ hlt, getElem?_eq_getElem hlt]
      rfl
    · rw [getElem?_append_right (by omega), getElem?_replicate, if_pos (by omega), getD_eq_default _ _ (by omega)]
      rfl
  · rw [getElem?_eq_none (by rw [length_range]; omega), getElem?_eq_none]
    · rfl
    · rw [length_append, length_replicate]
      omega

/-! ### What is built is extracted -/

variable {vMatch : List Bool}

def matchesBelow (null : H) (l : List H) (vMatch : List Bool) (height pos : Nat) : List H :=
  (((List.range' (pos * 2 ^ height) (2 ^ height)).filter (· < l.length)).filter fun p => vMatch.getD p false).map fun p =>
    l.getD p null

private theorem matchesBelow_succ (height pos : Nat) : matchesBelow null l vMatch (height + 1) pos =
    matchesBelow null l vMatch height (pos * 2) ++ matchesBelow null l vMatch height (pos * 2 + 1) := by
  have hrange : range' (pos * 2 ^ (height + 1)) (2 ^ (height + 1)) =
      range' (pos * 2 * 2 ^ height) (2 ^ height) ++ range' ((pos * 2 + 1) * 2 ^ height) (2 ^ height) := by
    have hfrom : pos * 2 ^ (height + 1) = pos * 2 * 2 ^ height := by
      rw [pow_succ]
      ring
    have hmid : (pos * 2 + 1) * 2 ^ height = pos * 2 * 2 ^ height + 2 ^ height := by ring
    have hlen : 2 ^ (height + 1) = 2 ^ height + 2 ^ height := by ring
    rw [hfrom, hmid, hlen, range'_append_1]
  rw [matchesBelow, hrange, filter_append, filter_append, map_append]
  rfl

private theorem matchesBelow_of_not_parent (h : parentOfMatch l.length vMatch height pos = false) :
    matchesBelow null l vMatch height pos = [] := by
  rw [parentOfMatch, any_eq_false] at h
  rw [matchesBelow, map_eq_nil_iff, filter_eq_nil_iff]
  exact h

private theorem matchesBelow_of_le (h : ¬ pos < calcTreeWidth l.length height) :
    matchesBelow null l vMatch height pos = [] := by
  rw [lt_calcTreeWidth] at h
  have hempty : (range' (pos * 2 ^ height) (2 ^ height)).filter (· < l.length) = [] := by
    rw [filter_eq_nil_iff]
    intro p hp
    have := (mem_range'_1.1 hp).1
    rw [decide_eq_true_iff]
    omega
  rw [matchesBelow, hempty]
  rfl

private theorem filter_leaf (h : pos < n) : (range' (pos * 2 ^ 0) (2 ^ 0)).filter (· < n) = [pos] := by
  have hrange : range' (pos * 2 ^ 0) (2 ^ 0) = [pos] := by
    rw [pow_zero, Nat.mul_one]
    rfl
  rw [hrange]
  simp [h]

private theorem matchesBelow_leaf (h : pos < l.length) :
    matchesBelow null l vMatch 0 pos = if vMatch.getD pos false then [l.getD pos null] else [] := by
  rw [matchesBelow, filter_leaf h, filter_cons, filter_nil]
  split
  · rfl
  · rfl

private theorem parentOfMatch_leaf (h : pos < n) : parentOfMatch n vMatch 0 pos = vMatch.getD pos false := by
  rw [parentOfMatch, filter_leaf h]
  simp

private theorem takeHash_eq (null : H) {v : H} {h1 h2 : List H} (hhash : t.vHash = h1 ++ ([v] ++ h2))
    (hused : s.nHashUsed = h1.length) (matched : Bool) : takeHash null t matched s =
      (v, { s with nHashUsed := h1.length + 1, vMatch := if matched then s.vMatch ++ [v] else s.vMatch }) := by
  have hread : t.vHash.getD h1.length null = v := by
    rw [hhash, getD_append_right _ _ _ _ (le_refl _), Nat.sub_self]
    rfl
  have hlen : ¬ s.nHashUsed ≥ t.vHash.length := by
    rw [hused, hhash, length_append, length_append, length_singleton]
    omega
  rw [takeHash, if_neg hlen, hused, hread]

private theorem bit_eq {b : Bool} {b1 bs : List Bool} (hbits : t.vBits = b1 ++ (b :: bs)) (hused : s.nBitsUsed = b1.length) :
    ¬ s.nBitsUsed ≥ t.vBits.length ∧ t.vBits.getD s.nBitsUsed false = b := by
  rw [hused, hbits]
  constructor
  · rw [length_append, length_cons]
    omega
  · rw [getD_append_right _ _ _ _ (le_refl _), Nat.sub_self]
    rfl

private theorem traverseAndExtract_built [DecidableEq H] (hnodup : l.Nodup) (hfree : CollisionFree hash (treePairs hash l))
    (ht : t.nTransactions = l.length) (hpos : pos < calcTreeWidth l.length height)
    {b1 b2 : List Bool} {h1 h2 : List H}
    (hbits : t.vBits = b1 ++ ((traverseAndBuild hash null l.length l vMatch height pos).1 ++ b2))
    (hhash : t.vHash = h1 ++ ((traverseAndBuild hash null l.length l vMatch height pos).2 ++ h2))
    (hb : s.nBitsUsed = b1.length) (hh : s.nHashUsed = h1.length) (hs : s.fBad = false) :
    traverseAndExtract hash null t height pos s = (calcHash hash null l.length l height pos,
      { nBitsUsed := b1.length + (traverseAndBuild hash null l.length l vMatch height pos).1.length
        nHashUsed := h1.length + (traverseAndBuild hash null l.length l vMatch height pos).2.length
        vMatch := s.vMatch ++ matchesBelow null l vMatch height pos
        fBad := false }) := by
  induction height generalizing pos s b1 b2 h1 h2 with
  | zero =>
    rw [calcTreeWidth_zero] at hpos
    rw [traverseAndBuild] at hbits hhash ⊢
    dsimp only at hbits hhash ⊢
    obtain ⟨hnot, hbit⟩ := bit_eq hbits hb
    have htake := takeHash_eq null (s := { s with nBitsUsed := s.nBitsUsed + 1 }) hhash hh
      (parentOfMatch l.length vMatch 0 pos)
    rw [traverseAndExtract, if_neg hnot, hbit, htake, matchesBelow_leaf hpos, parentOfMatch_leaf hpos, hb, hs]
    dsimp only
    split <;> simp [calcHash]
  | succ height ih =>
    rw [traverseAndBuild] at hbits hhash ⊢
    split at hbits
    · rename_i hpar
      rw [if_pos hpar] at hhash ⊢
      rw [calcTreeWidth_succ] at hpos
      have hpos' : pos * 2 < calcTreeWidth l.length height := by omega
      dsimp only at hbits hhash ⊢
      obtain ⟨hnot, hbit⟩ := bit_eq hbits hb
      rw [traverseAndExtract, if_neg hnot, if_pos hbit, ht, matchesBelow_succ]
      dsimp only
      have hleft := @ih _ { s with nBitsUsed := s.nBitsUsed + 1 } hpos' (b1 ++ [true])
      rw [calcHash_succ, children]
      by_cases hright : pos * 2 + 1 < calcTreeWidth l.length height
      · have hne : calcHash hash null l.length l height (pos * 2 + 1) ≠ calcHash hash null l.length l height (pos * 2) :=
          calcHash_ne hnodup hfree hright hpos' (by omega)
        have hnext := fun s' => @ih _ s' hright
        rw [if_pos hright] at hbits hhash ⊢
        rw [if_pos hright, if_pos hright]
        generalize traverseAndBuild hash null l.length l vMatch height (pos * 2) = left at *
        generalize traverseAndBuild hash null l.length l vMatch height (pos * 2 + 1) = right at *
        rw [@hleft (right.1 ++ b2) h1 (right.2 ++ h2) (by simp [hbits]) (by simp [hhash]) (by simp [hb]) hh hs]
        dsimp only
        rw [@hnext _ (b1 ++ [true] ++ left.1) b2 (h1 ++ left.2) h2 (by simp [hbits]) (by simp [hhash])
          length_append.symm length_append.symm rfl]
        simp [hne]
        omega
      · rw [if_neg hright] at hbits hhash ⊢
        rw [if_neg hright, if_neg hright, matchesBelow_of_le hright]
        generalize traverseAndBuild hash null l.length l vMatch height (pos * 2) = left at *
        rw [@hleft b2 h1 h2 (by simp [hbits]) (by simp [hhash]) (by simp [hb]) hh hs]
        simp
        omega
    · rename_i hpar
      rw [if_neg hpar] at hhash ⊢
      dsimp only at hbits hhash ⊢
      obtain ⟨hnot, hbit⟩ := bit_eq hbits hb
      have htake := takeHash_eq null (s := { s with nBitsUsed := s.nBitsUsed + 1 }) hhash hh false
      rw [traverseAndExtract, if_neg hnot, hbit, htake, matchesBelow_of_not_parent (eq_false_of_ne_true hpar), hb, hs]
      simp

private theorem length_vHash_built (hpos : pos < calcTreeWidth l.length height) :
    (traverseAndBuild hash null l.length l vMatch height pos).2.length ≤
      min l.length (pos * 2 ^ height + 2 ^ height) - pos * 2 ^ height := by
  induction height generalizing pos with
  | zero =>
    rw [calcTreeWidth_zero] at hpos
    rw [traverseAndBuild, length_singleton]
    omega
  | succ height ih =>
    have hbelow := lt_calcTreeWidth.1 hpos
    have hpow : 2 ^ (height + 1) = 2 * 2 ^ height := pow_succ'
    have hmul : pos * (2 * 2 ^ height) = pos * 2 * 2 ^ height := (Nat.mul_assoc _ _ _).symm
    rw [calcTreeWidth_succ] at hpos
    rw [hpow, hmul] at hbelow ⊢
    rw [traverseAndBuild]
    split
    · have hleft := ih (show pos * 2 < _ by omega)
      dsimp only
      rw [length_append]
      split
      · rename_i hright
        have hright' := ih hright
        rw [lt_calcTreeWidth] at hright
        rw [succ_mul] at hright hright'
        omega
      · rw [length_nil]
        omega
    · have := Nat.two_pow_pos height
      rw [length_singleton]
      omega

private theorem length_vBits_built (height pos : Nat) :
    (traverseAndBuild hash null l.length l vMatch height pos).2.length ≤
        (traverseAndBuild hash null l.length l vMatch height pos).1.length ∧
      (traverseAndBuild hash null l.length l vMatch height pos).1.length < 2 ^ (height + 1) := by
  induction height generalizing pos with
  | zero =>
    rw [traverseAndBuild]
    exact ⟨le_refl _, Nat.one_lt_two⟩
  | succ height ih =>
    have hleft := ih (pos * 2)
    have hright := ih (pos * 2 + 1)
    rw [traverseAndBuild, pow_succ]
    split
    · dsimp only
      rw [length_append, length_cons, length_append]
      split
      · omega
      · rw [length_nil, length_nil]
        omega
    · rw [length_singleton, length_singleton]
      omega

private theorem filter_top (n : Nat) :
    (range' (0 * 2 ^ treeHeight n) (2 ^ treeHeight n)).filter (· < n) = range n := by
  have hwidth := calcTreeWidth_treeHeight n
  have hle : n ≤ 2 ^ treeHeight n := by
    by_contra hlt
    have := (@lt_calcTreeWidth n (treeHeight n) 1).2 (by omega)
    omega
  obtain ⟨k, hk⟩ := Nat.exists_eq_add_of_le hle
  have hlow : (range' 0 n).filter (· < n) = range' 0 n := by
    rw [filter_eq_self]
    intro p hp
    have := mem_range'_1.1 hp
    rw [decide_eq_true_iff]
    omega
  have hhigh : (range' n k).filter (· < n) = [] := by
    rw [filter_eq_nil_iff]
    intro p hp
    have := mem_range'_1.1 hp
    rw [decide_eq_true_iff]
    omega
  rw [hk, Nat.zero_mul, ← range'_append_1, filter_append, Nat.zero_add, hlow, hhigh, append_nil,
    range_eq_range']

private theorem matchesBelow_top (hmatch : vMatch.length = l.length) :
    matchesBelow null l vMatch (treeHeight l.length) 0 = ((l.zip vMatch).filter Prod.snd).map Prod.fst := by
  have hzip : l.zip vMatch = (range l.length).map fun p => (l.getD p null, vMatch.getD p false) := by
    refine ext_getElem (by simp [hmatch]) fun p hp _ => ?_
    have hlt : p < l.length := by
      rw [length_zip] at hp
      omega
    rw [getElem_zip, getElem_map, getElem_range, getD_eq_getElem _ _ hlt, getD_eq_getElem]
  rw [matchesBelow, filter_top, hzip, filter_map, map_map]
  rfl

private theorem serializationOp_get_put {t : CPartialMerkleTree Uint256} (hn : t.nTransactions < 2 ^ 32)
    (hhs : t.vHash.length ≤ MAX_SIZE) (hbits : (t.vBits.length + 7) / 8 ≤ MAX_SIZE) (rest : List UInt8) :
    serializationOp.get (serializationOp.put t ++ rest) =
      .ok ({ t with vBits := unpackBits (packBits t.vBits), fBad := false }, rest) := by
  have hmax : MAX_SIZE < 2 ^ 64 := by decide
  have hinner := exact_seq (exact_uintLE 4) fun _ _ => exact_seq (exact_vectorOf exact_uint256 hmax) fun _ _ =>
    exact_byteVector hmax
  have hlen : (packBits t.vBits).length ≤ MAX_SIZE := by
    rw [packBits, length_packFrom, length_replicate]
    exact hbits
  have hread := hinner.decodes (t.nTransactions, t.vHash, packBits t.vBits)
    ⟨hn, ⟨hhs, fun _ _ => trivial⟩, hlen⟩ rest
  simp only [serializationOp, imap, bind, Except.bind]
  rw [hread]
  rfl

private theorem extractMatches_eq [DecidableEq H] {r : H} {matched : List H} {nBitsUsed : Nat} (hzero : 1 ≤ t.nTransactions)
    (hmax : t.nTransactions ≤ MAX_BLOCK_SIZE / 60) (hhs : t.vHash.length ≤ t.nTransactions)
    (hbits : t.vHash.length ≤ t.vBits.length) (hused : (nBitsUsed + 7) / 8 = (t.vBits.length + 7) / 8)
    (hrun : traverseAndExtract hash null t (treeHeight t.nTransactions) 0 { fBad := t.fBad } =
      (r, { nBitsUsed, nHashUsed := t.vHash.length, vMatch := matched, fBad := false })) :
    extractMatches hash null t = (r, matched) := by
  have h1 : ¬ t.nTransactions = 0 := by omega
  rw [extractMatches, if_neg h1, if_neg (Nat.not_lt.2 hmax), if_neg (Nat.not_lt.2 hhs), if_neg (Nat.not_lt.2 hbits), hrun]
  dsimp only
  rw [if_neg Bool.false_ne_true, if_neg (not_not.2 hused), if_neg (not_not.2 rfl)]

private theorem extractMatches_built [DecidableEq H] (hnodup : l.Nodup) (hne : 1 ≤ l.length) (hmax : l.length ≤ MAX_BLOCK_SIZE / 60)
    (hmatch : vMatch.length = l.length) (hfree : CollisionFree hash (treePairs hash l)) {bits : List Bool}
    (hpad : ((ofMatches hash null l vMatch).vBits.length + 7) / 8 =
      (((ofMatches hash null l vMatch).vBits ++ bits).length + 7) / 8) :
    extractMatches hash null
        { ofMatches hash null l vMatch with vBits := (ofMatches hash null l vMatch).vBits ++ bits } =
      (root hash null l, ((l.zip vMatch).filter Prod.snd).map Prod.fst) := by
  have htop : 0 < calcTreeWidth l.length (treeHeight l.length) := by
    rw [lt_calcTreeWidth]
    omega
  have hhs := @length_vHash_built _ _ _ hash null l vMatch htop
  have hbits := (@length_vBits_built _ hash null l vMatch (treeHeight l.length) 0).1
  have hrun := @traverseAndExtract_built _ (treeHeight l.length) 0 hash null l
    { ofMatches hash null l vMatch with vBits := (ofMatches hash null l vMatch).vBits ++ bits } {} vMatch _ hnodup hfree rfl
    htop [] bits [] [] rfl (by rw [append_nil]; rfl) rfl rfl rfl
  rw [calcHash_top hash null (ne_nil_of_length_pos hne), matchesBelow_top hmatch] at hrun
  simp only [length_nil, Nat.zero_add, nil_append] at hrun
  refine extractMatches_eq hne hmax ?_ ?_ hpad hrun
  · exact hhs.trans ((sub_le _ _).trans (Nat.min_le_left _ _))
  · exact hbits.trans (by rw [length_append]; exact le_add_right _ _)

/-- A partial tree that was built, written and read again gives the root and the chosen transactions, in the order of the
block. -/
theorem extractMatches_serialized (hash : Uint256 → Uint256 → Uint256) (vTxid : List Uint256) (vMatch : List Bool)
    (hnodup : vTxid.Nodup) (hne : 1 ≤ vTxid.length) (hmax : vTxid.length ≤ MAX_BLOCK_SIZE / 60)
    (hmatch : vMatch.length = vTxid.length) (hfree : CollisionFree hash (treePairs hash vTxid)) (rest : List UInt8) :
    ∃ t, serializationOp.get (serializationOp.put (ofMatches hash 0 vTxid vMatch) ++ rest) = .ok (t, rest) ∧
      extractMatches hash 0 t =
        ((buildMerkleTree hash 0 vTxid).root, ((vTxid.zip vMatch).filter Prod.snd).map Prod.fst) := by
  have hmax' : vTxid.length ≤ 33333 := hmax
  have hsize : MAX_SIZE = 33554432 := rfl
  have hht := two_pow_treeHeight hne
  obtain ⟨hle, hbits⟩ := @length_vBits_built _ hash 0 vTxid vMatch (treeHeight vTxid.length) 0
  rw [pow_succ] at hbits
  refine ⟨_, serializationOp_get_put ?_ ?_ ?_ rest, ?_⟩
  · exact Nat.lt_of_le_of_lt hmax' (by decide)
  · dsimp only [ofMatches]
    omega
  · dsimp only [ofMatches]
    omega
  · rw [unpackBits_packBits, buildMerkleTree_eq]
    refine extractMatches_built hnodup hne hmax hmatch hfree ?_
    rw [length_append, length_replicate]
    omega

/-- Two of three transactions, with a hash that has no collisions among the nodes of the tree. -/
theorem extractMatches_serialized_two :
    ∃ t, serializationOp.get
        (serializationOp.put (ofMatches (fun a b => 1000 * a + b) 0 [1, 3, 5] [true, false, true]) ++ []) = .ok (t, []) ∧
      extractMatches (fun a b => 1000 * a + b) 0 t =
        ((buildMerkleTree (fun a b => 1000 * a + b) 0 ([1, 3, 5] : List Uint256)).root, [1, 5]) := by
  have hfree : CollisionFree (fun a b => 1000 * a + b) (treePairs (fun a b => 1000 * a + b) ([1, 3, 5] : List Uint256)) := by
    have hall : ((treePairs (fun a b => 1000 * a + b) ([1, 3, 5] : List Uint256)).all fun p =>
        (treePairs (fun a b => 1000 * a + b) [1, 3, 5]).all fun q =>
          decide (1000 * p.1 + p.2 = 1000 * q.1 + q.2 → p = q)) = true := by decide +kernel
    exact fun p hp q hq => of_decide_eq_true (all_eq_true.1 (all_eq_true.1 hall p hp) q hq)
  exact extractMatches_serialized _ [1, 3, 5] [true, false, true] (by decide) (by decide) (by decide) rfl hfree []

end CPartialMerkleTree

end LitecoinZ
