import LitecoinZ.Zcash.CommitmentTree

/-!
# A witness follows the tree

A witness of a tree holding `xs` that has seen the leaves `ys` keeps the roots of the subtrees to the right of `xs`
that `ys` has filled, and the subtree being filled (`Tracks`).  `next_depth` names the next subtree because it counts
the same gaps in which `root` and `path` ask for a filler.  So the witness has the root of the tree over `xs ++ ys`,
its path authenticates the last leaf of `xs`, and it is full when the tree is.
-/

namespace LitecoinZ

open List

open PerfectTree (subRoot perfectRoot leaves Blocks Canonical carry value gaps gapRoots climb span)
open MerkleHash (null combine)

variable {Depth : Nat} {Hash : Type} [MerkleHash Hash]

namespace IncrementalMerkleTree

omit [MerkleHash Hash] in
private theorem nextDepthParents_eq (ps : List (Option Hash)) (d skip n : Nat) (hn : ps.length ≤ n) :
    nextDepthParents ps d skip =
      (gaps d ps n).getD skip (d + n + (skip - (gaps d ps n).length)) := by
  induction ps generalizing d skip n with
  | nil =>
    rw [nextDepthParents, PerfectTree.gaps_nil, length_range', getD_eq_getElem?_getD]
    by_cases h : skip < n
    · simp [h]
    · rw [getElem?_eq_none (by simpa using h), Option.getD_none]
      omega
  | cons p ps ih =>
    obtain ⟨n, rfl⟩ := Nat.exists_eq_add_of_le' (Nat.le_trans (by simp) hn : 1 ≤ n)
    simp only [length_cons, Nat.add_le_add_iff_right] at hn
    have hd : d + (n + 1) = (d + 1) + n := by omega
    cases p with
    | some p => rw [nextDepthParents, gaps, hd, ih (d + 1) skip n hn]
    | none =>
      cases skip with
      | zero => rfl
      | succ skip => simp [nextDepthParents, gaps, hd, ih (d + 1) skip n hn]

variable {t : IncrementalMerkleTree Depth Hash} {xs : List Hash} {depth : Nat}

theorem nextDepth_eq (h : Represents t xs) (hne : xs ≠ []) (hd : 1 ≤ depth) (hlen : xs.length ≤ 2 ^ depth) (skip : Nat) :
    t.nextDepth skip =
      (t.openDepths depth).getD skip (depth + (skip - (t.openDepths depth).length)) := by
  have hps := h.parents_length hd hlen
  have hn : 1 + (depth - 1) = depth := by omega
  have hup := fun skip => nextDepthParents_eq t.parents 1 skip (depth - 1) (by omega)
  rw [hn] at hup
  rcases h.shape with ⟨he, -⟩ | ⟨o, -, hl, ⟨hr, -⟩ | ⟨hr, -⟩⟩
  · exact absurd he hne
  · cases skip <;> simp [nextDepth, nextDepthRight, openDepths, hl, hr, hup]
  · cases skip <;> simp [nextDepth, nextDepthRight, openDepths, hl, hr, hup]

omit [MerkleHash Hash] in
theorem mem_openDepths {m : Nat} (hd : 1 ≤ depth) (h : m ∈ t.openDepths depth) : m < depth := by
  have hgap : m ∈ gaps 1 t.parents (depth - 1) → m < depth := fun h => by
    have := PerfectTree.mem_gaps h
    omega
  unfold openDepths at h
  split at h
  · exact hgap h
  · rcases mem_cons.1 h with rfl | h
    · omega
    · exact hgap h

theorem span_openDepths (h : Represents t xs) (hne : xs ≠ []) (hd : 1 ≤ depth) (hlen : xs.length ≤ 2 ^ depth) :
    xs.length + span (t.openDepths depth) = 2 ^ depth := by
  have hps := h.parents_length hd hlen
  rcases h.shape with ⟨he, -⟩ | ⟨o, hb, -, hr⟩
  · exact absurd he hne
  · have hsum := PerfectTree.sum_gaps combine hb (show t.parents.length ≤ depth - 1 by omega)
    rw [show 1 + (depth - 1) = depth by omega] at hsum
    rcases hr with ⟨hr, hlen'⟩ | ⟨hr, hlen'⟩
    · simp only [openDepths, hr, Option.isSome_none, Bool.false_eq_true, ↓reduceIte, PerfectTree.span_cons]
      omega
    · simp only [openDepths, hr, Option.isSome_some, ↓reduceIte]
      omega

/-- Fillers for the first gaps are enough when no leaf lies to the right of them. -/
theorem padFillers_gapRoots {L : Nat → Hash} {e : Nat} (ms ms' : List Nat)
    (hL : ∀ i, e + span ms ≤ i → L i = null) :
    padFillers (ms ++ ms') (gapRoots combine L ms e) = gapRoots combine L (ms ++ ms') e := by
  induction ms generalizing e with
  | nil => exact padFillers_nil hL ms'
  | cons m ms ih =>
    simp only [cons_append, gapRoots, padFillers]
    rw [ih]
    intro i hi
    exact hL i (by rw [PerfectTree.span_cons]; omega)

/-! ### Paths -/

/-- Folding an authentication path over a leaf, from the leaf to the root: the sibling stands on the left where the
index bit is set. -/
def foldPath (entries : List (Bool × Hash)) (leaf : Hash) : Hash :=
  entries.foldl (fun h e => if e.1 then combine e.2 h else combine h e.2) leaf

/-- The number that bits spell, the least significant one first. -/
def spell : List Bool → Nat
  | [] => 0
  | b :: bs => b.toNat + 2 * spell bs

private theorem spell_pathFill (n d : Nat) (queue : List Hash) :
    spell ((pathFill n d queue).map Prod.fst) = 0 ∧ (pathFill n d queue).length = n := by
  induction n generalizing d queue with
  | zero => simp [pathFill, spell]
  | succ n ih => simp [pathFill, spell, ih]

private theorem foldPath_pathFill (n d : Nat) (r : Hash) (queue : List Hash) :
    foldPath (pathFill n d queue) r = rootFill n d r queue := by
  induction n generalizing d r queue with
  | zero => rfl
  | succ n ih => exact ih _ _ _

private theorem pathParents_fst (ps : List (Option Hash)) (d : Nat) (queue : List Hash) (r : Hash) :
    (pathParents ps d queue).1 = d + ps.length ∧ (rootParents ps d r queue).1 = d + ps.length ∧
      (pathParents ps d queue).2.2 = (rootParents ps d r queue).2.2 ∧
      foldPath (pathParents ps d queue).2.1 r = (rootParents ps d r queue).2.1 := by
  induction ps generalizing d queue r with
  | nil => exact ⟨rfl, rfl, rfl, rfl⟩
  | cons p ps ih =>
    cases p with
    | some p =>
      obtain ⟨h1, h2, h3, h4⟩ := ih (d + 1) queue (combine p r)
      refine ⟨?_, ?_, h3, h4⟩
      · simp only [pathParents, h1, length_cons]
        omega
      · simp only [rootParents, h2, length_cons]
        omega
    | none =>
      obtain ⟨h1, h2, h3, h4⟩ := ih (d + 1) (pathFillerNext queue d).2 (combine r (pathFillerNext queue d).1)
      refine ⟨?_, ?_, h3, h4⟩
      · simp only [pathParents, h1, length_cons]
        omega
      · simp only [rootParents, h2, length_cons]
        omega

private theorem spell_pathParents (ps : List (Option Hash)) (d : Nat) (queue : List Hash) (bs : List Bool)
    (hbs : spell bs = 0) :
    spell ((pathParents ps d queue).2.1.map Prod.fst ++ bs) = value ps ∧
      (pathParents ps d queue).2.1.length = ps.length := by
  induction ps generalizing d queue with
  | nil => exact ⟨by simpa [pathParents, value] using hbs, rfl⟩
  | cons p ps ih =>
    cases p with
    | some p =>
      obtain ⟨h1, h2⟩ := ih (d + 1) queue
      simp [pathParents, spell, value, h1, h2]
      omega
    | none =>
      obtain ⟨h1, h2⟩ := ih (d + 1) (pathFillerNext queue d).2
      simp [pathParents, spell, value, h1, h2]

/-- What `path` returns: one entry per level, whose bits spell the position of the last leaf and whose hashes lead
from the last leaf to the root that the same fillers give. -/
theorem pathEntries_eq (h : Represents t xs) (hne : xs ≠ []) (hD : 1 ≤ Depth) (hlen : xs.length ≤ 2 ^ Depth)
    (queue : List Hash) :
    ∃ es, t.pathEntries queue = .ok es ∧ es.length = Depth ∧ spell (es.map Prod.fst) = xs.length - 1 ∧
      foldPath es (xs.getLast hne) = t.rootWith Depth queue := by
  have hps := h.parents_length hD hlen
  have hlast := h.last_eq hne
  rcases h.shape with ⟨he, -⟩ | ⟨o, hb, hl, hr⟩
  · exact absurd he hne
  · have ho := PerfectTree.blocks_value combine hb
    -- the entries above the lowest pair, for the queue and the root of the pair that reach them
    have hup : ∀ (q : List Hash) (r : Hash),
        let up := pathParents t.parents 1 q
        let es := up.2.1 ++ pathFill (Depth - up.1) up.1 up.2.2
        es.length = Depth - 1 ∧ spell (es.map Prod.fst) = value t.parents ∧
          foldPath es r = rootFill (Depth - (rootParents t.parents 1 r q).1) (rootParents t.parents 1 r q).1
            (rootParents t.parents 1 r q).2.1 (rootParents t.parents 1 r q).2.2 := by
      intro q r
      obtain ⟨h1, h2, h3, h4⟩ := pathParents_fst t.parents 1 q r
      have hfill := spell_pathFill (Depth - (1 + t.parents.length)) (1 + t.parents.length)
        (rootParents t.parents 1 r q).2.2
      have hpar := spell_pathParents t.parents 1 q _ hfill.1
      simp only [h1, h2, h3]
      refine ⟨?_, ?_, ?_⟩
      · rw [length_append, hpar.2, hfill.2]
        omega
      · rw [map_append]
        exact hpar.1
      · rw [foldPath, foldl_append]
        change foldPath _ (foldPath _ r) = _
        rw [h4, foldPath_pathFill]
    rcases hr with ⟨hr, hlen'⟩ | ⟨hr, hlen'⟩
    · have hlast' : xs.getLast hne = leaves null xs o := by
        simp only [last, hl, hr, Except.ok.injEq] at hlast
        exact hlast.symm
      obtain ⟨h1, h2, h3⟩ := hup (pathFillerNext queue 0).2 (combine (leaves null xs o) (pathFillerNext queue 0).1)
      refine ⟨_, by simp only [pathEntries, hl, hr]; rfl, ?_, ?_, ?_⟩
      · simp only [cons_append, length_cons, h1]
        omega
      · simp only [cons_append, map_cons, spell, h2, Bool.toNat_false]
        omega
      · simp only [rootWith, hl, hr, leafOrNext, hlast']
        exact h3
    · have hlast' : xs.getLast hne = leaves null xs (o + 1) := by
        simp only [last, hr, Except.ok.injEq] at hlast
        exact hlast.symm
      obtain ⟨h1, h2, h3⟩ := hup queue (combine (leaves null xs o) (leaves null xs (o + 1)))
      refine ⟨_, by simp only [pathEntries, hl, hr]; rfl, ?_, ?_, ?_⟩
      · simp only [cons_append, length_cons, h1]
        omega
      · simp only [cons_append, map_cons, spell, h2, Bool.toNat_true]
        omega
      · simp only [rootWith, hl, hr, leafOrNext, hlast']
        exact h3

end IncrementalMerkleTree

namespace IncrementalWitness

open IncrementalMerkleTree

/-- The witness `w` was taken of a tree holding `xs` and has seen the leaves `ys` since.  The subtrees `done` to the
right of `xs` are filled; the next one is untouched or is being filled by the cursor. -/
structure Tracks (w : IncrementalWitness Depth Hash) (xs ys : List Hash) (done todo : List Nat) : Prop where
  tree : Represents w.tree xs
  gaps : w.tree.openDepths Depth = done ++ todo
  filled : w.filled = gapRoots combine (leaves null (xs ++ ys)) done xs.length
  cursor : (w.cursor = none ∧ xs.length + ys.length = xs.length + span done) ∨
    ∃ c rest, w.cursor = some c ∧ todo = w.cursorDepth :: rest ∧ 1 ≤ w.cursorDepth ∧
      Represents c ((xs ++ ys).drop (xs.length + span done)) ∧ span done < ys.length ∧
      ys.length < span done + 2 ^ w.cursorDepth

section

variable {w : IncrementalWitness Depth Hash} {xs ys : List Hash} {done todo : List Nat}

theorem tracks_witness {t : IncrementalMerkleTree Depth Hash} (h : Represents t xs) :
    Tracks t.witness xs [] [] (t.openDepths Depth) :=
  ⟨h, rfl, rfl, .inl ⟨rfl, rfl⟩⟩

private theorem filled_snoc (hd : span done ≤ ys.length) (x : Hash) :
    gapRoots combine (leaves null (xs ++ ys)) done xs.length =
      gapRoots combine (leaves null (xs ++ (ys ++ [x]))) done xs.length := by
  refine PerfectTree.gapRoots_congr combine (fun i hi => ?_)
  rw [← append_assoc, @PerfectTree.leaves_append_left _ _ (xs ++ ys)]
  rw [length_append]
  omega

variable {c : IncrementalMerkleTree Depth Hash}

private theorem cursor_root {zs : List Hash} {e m : Nat} (hc : Represents c (zs.drop e)) (hm : 1 ≤ m)
    (hlen : zs.length ≤ e + 2 ^ m) :
    c.rootWith m [] = subRoot combine (leaves null zs) m e := by
  rw [hc.rootWith_nil hm (by rw [length_drop]; exact Nat.sub_le_iff_le_add'.2 hlen)]
  refine PerfectTree.subRoot_congr combine (fun i _ => ?_)
  rw [Nat.zero_add, PerfectTree.leaves_drop]

private theorem append_cursor {c' : IncrementalMerkleTree Depth Hash} {x : Hash} (hc : w.cursor = some c)
    (hca : c.append x = .ok c') :
    w.append x = .ok (if c'.isComplete w.cursorDepth then
      { w with filled := w.filled ++ [c'.rootWith w.cursorDepth []], cursor := none }
      else { w with cursor := some c' }) := by
  simp only [append, hc, hca]
  change (if _ then _ else _) = _
  split <;> rfl

section

variable (h : Tracks w xs ys done todo)
include h

/-- The fillers of the witness stand for the row of leaves to the right of its tree. -/
theorem Tracks.padFillers_partialPath :
    padFillers (w.tree.openDepths Depth) w.partialPath =
      gapRoots combine (leaves null (xs ++ ys)) (w.tree.openDepths Depth) xs.length := by
  have hnil : ∀ e, xs.length + ys.length ≤ e → ∀ i, e ≤ i → leaves null (xs ++ ys) i = null :=
    fun e he i hi => PerfectTree.leaves_of_le (by rw [length_append]; omega)
  rw [h.gaps]
  rcases h.cursor with ⟨hc, hys⟩ | ⟨c, rest, hc, rfl, hm, hrep, hlo, hhi⟩
  · simp only [partialPath, hc, h.filled]
    exact padFillers_gapRoots done todo (hnil _ (by omega))
  · have hroot : [c.rootWith w.cursorDepth []] =
        gapRoots combine (leaves null (xs ++ ys)) [w.cursorDepth] (xs.length + span done) := by
      simp only [gapRoots]
      rw [cursor_root hrep hm (by rw [length_append]; omega)]
    simp only [partialPath, hc, h.filled]
    rw [hroot, ← PerfectTree.gapRoots_append, append_cons]
    exact padFillers_gapRoots _ rest (hnil _ (by simp; omega))

section

variable (hne : xs ≠ []) (hD : 1 ≤ Depth)
include hne hD

theorem Tracks.append_ok (hlen : xs.length + ys.length < 2 ^ Depth) (x : Hash) :
    ∃ w' done' todo', w.append x = .ok w' ∧ Tracks w' xs (ys ++ [x]) done' todo' := by
  have hspan := span_openDepths h.tree hne hD (by omega)
  have hdepth := nextDepth_eq h.tree hne hD (by omega) w.filled.length
  rw [h.gaps, h.filled, PerfectTree.length_gapRoots] at hdepth
  rw [h.gaps, PerfectTree.span_append] at hspan
  have hx : leaves null (xs ++ (ys ++ [x])) (xs.length + ys.length) = x := by
    rw [← append_assoc, ← length_append]
    exact PerfectTree.leaves_snoc null _ x
  rcases h.cursor with ⟨hc, hys⟩ | ⟨c, rest, hc, rfl, hm, hrep, hlo, hhi⟩
  · -- the next gap is entered; there is one since the tree is not full
    rcases todo with _ | ⟨m, rest⟩
    · simp only [PerfectTree.span_nil] at hspan
      omega
    · have hmem : m ∈ w.tree.openDepths Depth := by simp [h.gaps]
      have hmD := mem_openDepths hD hmem
      have hm : w.tree.nextDepth w.filled.length = m := by
        rw [h.filled, PerfectTree.length_gapRoots, hdepth]
        simp
      have hfs := @filled_snoc Hash _ xs ys done (by omega) x
      by_cases hm0 : m = 0
      · subst hm0
        refine ⟨{ w with filled := w.filled ++ [x], cursorDepth := 0 }, done ++ [0], rest, ?_, h.tree, ?_, ?_, ?_⟩
        · simp [append, hc, hm, show ¬ Depth = 0 by omega]
        · simp [h.gaps]
        · rw [PerfectTree.gapRoots_append, ← hfs, ← h.filled]
          simp only [gapRoots, subRoot]
          rw [show xs.length + span done = xs.length + ys.length by omega, hx]
        · exact .inl ⟨hc, by simp; omega⟩
      · obtain ⟨c, hca, hcr⟩ := (@represents_empty Depth Hash _).append_ok hD (by simp) x
        refine ⟨{ w with cursor := some c, cursorDepth := m }, done, m :: rest, ?_, h.tree, h.gaps, ?_, ?_⟩
        · simp [append, hc, hm, hm0, hca, show ¬ Depth ≤ m by omega]
        · exact h.filled.trans hfs
        · have h1 : 1 < 2 ^ m := Nat.one_lt_two_pow hm0
          refine .inr ⟨c, rest, rfl, rfl, by simp; omega, ?_, by simp; omega, by simp; omega⟩
          rw [← append_assoc, drop_append_of_le_length (by rw [length_append]; omega),
            drop_eq_nil_of_le (by rw [length_append]; omega)]
          exact hcr
  · -- the cursor takes the leaf, and is collapsed when that fills it
    have hmem : w.cursorDepth ∈ w.tree.openDepths Depth := by simp [h.gaps]
    have hmD := mem_openDepths hD hmem
    have hpow : 2 ^ w.cursorDepth < 2 ^ Depth := Nat.pow_lt_pow_right (by omega) hmD
    have hfs := @filled_snoc Hash _ xs ys done (by omega) x
    obtain ⟨c', hca, hcr⟩ := hrep.append_ok hD (by simp; omega) x
    rw [← drop_append_of_le_length (by rw [length_append]; omega), append_assoc] at hcr
    have hcomp := hcr.isComplete_iff hm
    simp only [length_drop, length_append, length_cons, length_nil] at hcomp
    by_cases hfull : xs.length + (ys.length + (0 + 1)) - (xs.length + span done) = 2 ^ w.cursorDepth
    · refine ⟨{ w with filled := w.filled ++ [c'.rootWith w.cursorDepth []], cursor := none },
        done ++ [w.cursorDepth], rest, ?_, h.tree, ?_, ?_, ?_⟩
      · rw [append_cursor hc hca, if_pos (hcomp.2 hfull)]
      · simp [h.gaps]
      · rw [PerfectTree.gapRoots_append, ← hfs, ← h.filled]
        simp only [gapRoots]
        rw [cursor_root hcr hm (by simp; omega)]
      · exact .inl ⟨rfl, by simp; omega⟩
    · refine ⟨{ w with cursor := some c' }, done, w.cursorDepth :: rest, ?_, h.tree, h.gaps, h.filled.trans hfs, ?_⟩
      · rw [append_cursor hc hca, if_neg (mt hcomp.1 hfull)]
      · exact .inr ⟨c', rest, rfl, rfl, hm, hcr, by simp; omega, by simp; omega⟩

theorem Tracks.appendAll_ok (zs : List Hash) (hlen : xs.length + (ys.length + zs.length) ≤ 2 ^ Depth) :
    ∃ w' done' todo', w.appendAll zs = .ok w' ∧ Tracks w' xs (ys ++ zs) done' todo' := by
  induction zs generalizing w ys done todo with
  | nil => exact ⟨w, done, todo, rfl, by simpa using h⟩
  | cons z zs ih =>
    simp only [length_cons] at hlen
    obtain ⟨w1, done1, todo1, h1, ht1⟩ := h.append_ok hne hD (by omega) z
    obtain ⟨w2, done2, todo2, h2, ht2⟩ := ih ht1 (by simp; omega)
    refine ⟨w2, done2, todo2, ?_, by simpa using ht2⟩
    simp only [appendAll, h1]
    exact h2

theorem Tracks.root_eq (hlen : xs.length ≤ 2 ^ Depth) : w.root = subRoot combine (leaves null (xs ++ ys)) Depth 0 :=
  rootWith_eq h.tree hne hD hlen (fun _ hi => (PerfectTree.leaves_append_left hi).symm) h.padFillers_partialPath

theorem Tracks.append_error (hlen : xs.length + ys.length = 2 ^ Depth) (x : Hash) : w.append x = .error .full := by
  have hspan := span_openDepths h.tree hne hD (by omega)
  have hdepth := nextDepth_eq h.tree hne hD (by omega) w.filled.length
  rw [h.gaps, PerfectTree.span_append] at hspan
  rcases h.cursor with ⟨hc, hys⟩ | ⟨c, rest, -, rfl, -, -, -, hhi⟩
  · -- all gaps are filled, so `next_depth` has left the tree
    obtain rfl : todo = [] := PerfectTree.span_eq_zero (by omega)
    have hm : w.tree.nextDepth w.filled.length = Depth := by
      rw [hdepth, h.gaps, h.filled]
      simp
    simp [append, hc, hm]
  · rw [PerfectTree.span_cons] at hspan
    omega

end

end

end

/-- For every depth, and every tree over a nonempty list `pre` whose witness then sees the leaves `suf` together with
the tree: the witness keeps the root of the tree, its element is the last leaf of `pre`, its authentication path folds
that element to the root, and the bits of the index spell the position of the element.  Once the tree is full, the
next append to either throws. -/
theorem witness_correct (D : Nat) (hD : 1 ≤ D) (pre suf : List Hash) (hne : pre ≠ [])
    (hlen : pre.length + suf.length ≤ 2 ^ D) :
    ∃ (t t' : IncrementalMerkleTree D Hash) (w : IncrementalWitness D Hash),
      IncrementalMerkleTree.appendAll {} pre = .ok t ∧ t.appendAll suf = .ok t' ∧
      t.witness.appendAll suf = .ok w ∧ w.root = t'.root ∧ w.element = .ok (pre.getLast hne) ∧
      (∃ es : List (Bool × Hash),
        w.path = .ok {
          authenticationPath := (es.map fun e => convertBytesVectorToVector (MerkleHash.bytes e.2)).reverse
          index := (es.map Prod.fst).reverse } ∧
        es.length = D ∧ foldPath es (pre.getLast hne) = t'.root ∧ spell (es.map Prod.fst) = pre.length - 1) ∧
      (pre.length + suf.length = 2 ^ D → ∀ x, t'.append x = .error .full ∧ w.append x = .error .full) := by
  obtain ⟨t, ht, hrt⟩ := (@represents_empty D Hash _).appendAll_ok hD pre (by simp; omega)
  rw [nil_append] at hrt
  obtain ⟨t', ht', hrt'⟩ := hrt.appendAll_ok hD suf hlen
  obtain ⟨w, done, todo, hw, htr⟩ := (tracks_witness hrt).appendAll_ok hne hD suf (by simpa using hlen)
  rw [nil_append] at htr
  have hroot : w.root = t'.root := by
    rw [htr.root_eq hne hD (by omega), IncrementalMerkleTree.root,
      hrt'.rootWith_nil hD (by rw [length_append]; omega)]
  obtain ⟨es, hes, hlenes, hspell, hfold⟩ := pathEntries_eq htr.tree hne hD (by omega) w.partialPath
  refine ⟨t, t', w, ht, ht', hw, hroot, htr.tree.last_eq hne, ⟨es, ?_, hlenes, ?_, hspell⟩, fun hfull x => ⟨?_, ?_⟩⟩
  · simp only [path, IncrementalMerkleTree.path, hes]
    rfl
  · rw [hfold, ← hroot]
    rfl
  · exact hrt'.append_error hD (by rw [length_append]; exact hfull) x
  · exact htr.append_error hne hD hfull x

theorem witness_correct_two_one :
    ∃ (t t' : IncrementalMerkleTree 2 Nat) (w : IncrementalWitness 2 Nat),
      @IncrementalMerkleTree.appendAll Nat pairHash 2 {} [5, 6] = .ok t ∧
      @IncrementalMerkleTree.appendAll Nat pairHash 2 t [7] = .ok t' ∧
      @appendAll Nat pairHash 2 t.witness [7] = .ok w ∧
      @root Nat pairHash 2 w = @IncrementalMerkleTree.root Nat pairHash 2 t' := by
  obtain ⟨t, t', w, h₁, h2, h3, h4, -⟩ :=
    @witness_correct Nat pairHash 2 (by decide) [5, 6] [7] (by decide) (by decide)
  exact ⟨t, t', w, h₁, h2, h3, h4⟩

end IncrementalWitness

end LitecoinZ
