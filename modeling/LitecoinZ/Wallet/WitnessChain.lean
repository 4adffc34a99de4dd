import LitecoinZ.Wallet.WitnessCache

/-!
# The witnesses follow the chain

A note has one witness for each block since its own, as far as the cache reaches, and each witness has the root of the
commitment tree after its block (`Tracked`).  Connecting a block extends the chain by an empty block first and then
appends its commitments one by one, so the same invariant holds in the middle of a block.
-/

namespace LitecoinZ

open StateExcept IncrementalMerkleTree List

/-! ### Trees and witnesses -/

section

variable {Depth : Nat} {Hash : Type} [MerkleHash Hash]

/-- The tree holds the leaves. -/
structure IncrementalMerkleTree.Holds (t : IncrementalMerkleTree Depth Hash) (xs : List Hash) : Prop where
  represents : Represents t xs
  fits : xs.length ≤ 2 ^ Depth

/-- The witness is one of an occurrence of the leaf among the leaves of a tree. -/
def IncrementalWitness.Witnesses (w : IncrementalWitness Depth Hash) (x : Hash) (xs : List Hash) : Prop :=
  ∃ pre suf done todo, xs = pre ++ [x] ++ suf ∧ Tracks w (pre ++ [x]) suf done todo

variable {t t' : IncrementalMerkleTree Depth Hash} {w w' : IncrementalWitness Depth Hash} {x y : Hash} {xs : List Hash}

theorem IncrementalMerkleTree.Holds.append (h : t.Holds xs) (hD : 1 ≤ Depth) (ht : t.append y = .ok t') :
    t'.Holds (xs ++ [y]) := by
  rcases Nat.lt_or_eq_of_le h.fits with hlt | hfull
  · obtain ⟨t1, ht1, hr⟩ := h.represents.append_ok hD hlt y
    cases ht.symm.trans ht1
    exact ⟨hr, by rw [length_append, length_singleton]; omega⟩
  · rw [h.represents.append_error hD hfull] at ht
    cases ht

theorem IncrementalMerkleTree.Holds.appendAll (h : t.Holds xs) (hD : 1 ≤ Depth) {ys : List Hash}
    (ht : t.appendAll ys = .ok t') : t'.Holds (xs ++ ys) := by
  induction ys generalizing t xs with
  | nil =>
    cases ht
    rwa [append_nil]
  | cons y ys ih =>
    obtain ⟨t1, ht1, ht⟩ := except_bind_ok.1 ht
    rw [append_cons]
    exact ih (h.append hD ht1) ht

theorem IncrementalMerkleTree.Holds.witness (h : t.Holds (xs ++ [x])) : t.witness.Witnesses x (xs ++ [x]) :=
  ⟨xs, [], [], _, (append_nil _).symm, IncrementalWitness.tracks_witness h.represents⟩

namespace IncrementalWitness

theorem Witnesses.append (h : w.Witnesses x xs) (hD : 1 ≤ Depth) (hlen : xs.length ≤ 2 ^ Depth)
    (hw : w.append y = .ok w') : w'.Witnesses x (xs ++ [y]) := by
  obtain ⟨pre, suf, done, todo, rfl, htrs⟩ := h
  have hne : pre ++ [x] ≠ [] := by simp
  rw [length_append] at hlen
  rcases Nat.lt_or_eq_of_le hlen with hlt | hfull
  · obtain ⟨w1, done', todo', hw1, htrs'⟩ := htrs.append_ok hne hD hlt y
    cases hw.symm.trans hw1
    exact ⟨pre, suf ++ [y], done', todo', (append_assoc _ _ _), htrs'⟩
  · rw [htrs.append_error hne hD hfull] at hw
    cases hw

theorem Witnesses.element_eq (h : w.Witnesses x xs) : w.element = .ok x := by
  obtain ⟨pre, suf, done, todo, -, htrs⟩ := h
  rw [element, htrs.tree.last_eq (by simp), getLast_append_singleton]

theorem Witnesses.root_eq (h : w.Witnesses x xs) (hD : 1 ≤ Depth) (ht : t.Holds xs) : w.root = t.root := by
  obtain ⟨pre, suf, done, todo, rfl, htrs⟩ := h
  have hlen := ht.fits
  rw [length_append] at hlen
  rw [htrs.root_eq (by simp) hD (by omega), IncrementalMerkleTree.root, ht.represents.rootWith_nil hD ht.fits]

end IncrementalWitness

end

/-! ### The witnesses of a note along a chain -/

/-- A block as the wallet sees it: its commitments with their places. -/
abbrev NoteBlock := List (JSOutPoint × Uint256)

/-- The number of blocks from the block of a note to the tip; the tip comes first. -/
def age (jsop : JSOutPoint) : List NoteBlock → Nat
  | [] => 0
  | block :: blocks =>
    if jsop ∈ block.map Prod.fst then 1 else if age jsop blocks = 0 then 0 else age jsop blocks + 1

/-- The leaves of the commitment tree after the blocks. -/
def leavesOf (base : List Uint256) : List NoteBlock → List Uint256
  | [] => base
  | block :: blocks => leavesOf base blocks ++ block.map Prod.snd

theorem age_pos {jsop : JSOutPoint} {blocks : List NoteBlock} :
    0 < age jsop blocks ↔ jsop ∈ blocks.flatten.map Prod.fst := by
  induction blocks with
  | nil => simp [age]
  | cons block blocks ih =>
    rw [flatten_cons, map_append, mem_append, ← ih, age]
    split
    · rename_i hmem
      simp [hmem]
    · rename_i hmem
      rw [or_iff_right hmem]
      split <;> omega

theorem age_eq_zero {jsop : JSOutPoint} {blocks : List NoteBlock} (h : jsop ∉ blocks.flatten.map Prod.fst) :
    age jsop blocks = 0 := by
  rw [← age_pos] at h
  omega

theorem age_le_length {jsop : JSOutPoint} {blocks : List NoteBlock} : age jsop blocks ≤ blocks.length := by
  induction blocks with
  | nil => exact Nat.le_refl 0
  | cons block blocks ih =>
    rw [age, length_cons]
    split
    · omega
    · split <;> omega

theorem mem_flatten_of_mem_drop {α : Type} {l : List (List α)} {i : Nat} {a : α} (h : a ∈ (l.drop i).flatten) :
    a ∈ l.flatten := by
  obtain ⟨block, hblock, ha⟩ := mem_flatten.1 h
  exact mem_flatten.2 ⟨block, mem_of_mem_drop hblock, ha⟩

theorem length_leavesOf_drop (base : List Uint256) (blocks : List NoteBlock) (i : Nat) :
    (leavesOf base (blocks.drop i)).length ≤ (leavesOf base blocks).length := by
  induction blocks generalizing i with
  | nil => rw [drop_nil]
  | cons block blocks ih =>
    cases i with
    | zero => exact Nat.le_refl _
    | succ i =>
      have hlen := ih i
      rw [drop_succ_cons, leavesOf, length_append]
      omega

theorem leavesOf_snoc (base : List Uint256) (block : NoteBlock) (blocks : List NoteBlock) (c : JSOutPoint × Uint256) :
    leavesOf base ((block ++ [c]) :: blocks) = leavesOf base (block :: blocks) ++ [c.2] := by
  simp [leavesOf]

theorem depth_pos : 1 ≤ INCREMENTAL_MERKLE_TREE_DEPTH := by decide

variable [MerkleHash Uint256]

/-- The witnesses of a note: one for each block since its own, as far as the cache reaches. -/
structure Tracked (base : List Uint256) (blocks : List NoteBlock) (size : Nat) (jsop : JSOutPoint)
    (witnesses : List ZCIncrementalWitness) : Prop where
  length : witnesses.length = min (age jsop blocks) size
  witness : ∀ i w, witnesses[i]? = some w →
    ∃ cm, (jsop, cm) ∈ (blocks.drop i).flatten ∧ w.Witnesses cm (leavesOf base (blocks.drop i))

section

variable {base : List Uint256} {block : NoteBlock} {blocks : List NoteBlock} {size : Nat} {jsop : JSOutPoint}
  {ws : List ZCIncrementalWitness} {c : JSOutPoint × Uint256}

omit [MerkleHash Uint256] in
private theorem getElem?_pushCopy {w : ZCIncrementalWitness} {i : Nat} {x : ZCIncrementalWitness}
    (h : (CWallet.pushCopy (w :: ws))[i]? = some x) : (w :: w :: ws)[i]? = some x := by
  have hcopy : CWallet.pushCopy (w :: ws) =
      if (w :: w :: ws).length > WITNESS_CACHE_SIZE then (w :: w :: ws).dropLast else w :: w :: ws := rfl
  rw [hcopy] at h
  split at h
  · rw [dropLast_eq_take, getElem?_take] at h
    split at h
    · exact h
    · cases h
  · exact h

theorem Tracked.copy (h : Tracked base blocks size jsop ws) (hsize : size ≤ WITNESS_CACHE_SIZE)
    (hpos : size = 0 → blocks = []) :
    Tracked base ([] :: blocks) (min (size + 1) WITNESS_CACHE_SIZE) jsop (CWallet.pushCopy ws) := by
  have hlen := h.length
  have hage : age jsop ([] :: blocks) = if age jsop blocks = 0 then 0 else age jsop blocks + 1 := by simp [age]
  cases ws with
  | nil =>
    have hzero : age jsop blocks = 0 := by
      by_cases hs : size = 0
      · rw [hpos hs]
        rfl
      · rw [length_nil] at hlen
        omega
    refine ⟨?_, fun i w hw => ?_⟩
    · rw [hage, if_pos hzero, Nat.zero_min]
      rfl
    · cases hw
  | cons w ws =>
    rw [length_cons] at hlen
    refine ⟨?_, fun i x hx => ?_⟩
    · rw [CWallet.length_pushCopy (by rw [length_cons]; omega), if_neg (cons_ne_nil _ _), hage,
        if_neg (by omega), length_cons]
      omega
    · have hx := getElem?_pushCopy hx
      cases i with
      | zero =>
        cases hx
        obtain ⟨cm, hmem, hw⟩ := h.witness 0 w rfl
        exact ⟨cm, hmem, by rw [drop_zero, leavesOf, map_nil, append_nil]; exact hw⟩
      | succ i => exact h.witness i x hx

theorem Tracked.append (h : Tracked base (block :: blocks) size jsop ws) (hne : jsop ≠ c.1)
    (hfits : (leavesOf base (block :: blocks)).length ≤ 2 ^ INCREMENTAL_MERKLE_TREE_DEPTH)
    {ws' : List ZCIncrementalWitness} (hlen : ws'.length = ws.length)
    (hhead : ∀ w', ws'[0]? = some w' → ∃ w, ws[0]? = some w ∧ w.append c.2 = .ok w')
    (htail : ∀ i, ws'[i + 1]? = ws[i + 1]?) :
    Tracked base ((block ++ [c]) :: blocks) size jsop ws' := by
  refine ⟨?_, fun i w' hw' => ?_⟩
  · rw [hlen, h.length]
    simp [age, hne]
  · cases i with
    | zero =>
      obtain ⟨w, hw, happ⟩ := hhead w' hw'
      obtain ⟨cm, hmem, hwit⟩ := h.witness 0 w hw
      refine ⟨cm, ?_, ?_⟩
      · simp only [drop_zero, flatten_cons, mem_append] at hmem ⊢
        exact hmem.imp .inl id
      · rw [drop_zero, leavesOf_snoc]
        exact hwit.append depth_pos hfits happ
    | succ i =>
      rw [htail] at hw'
      exact h.witness (i + 1) w' hw'

theorem Tracked.first {tree : ZCIncrementalMerkleTree} (htree : tree.Holds (leavesOf base ((block ++ [c]) :: blocks)))
    (hsize : 1 ≤ size) : Tracked base ((block ++ [c]) :: blocks) size c.1 [tree.witness] := by
  refine ⟨?_, fun i w hw => ?_⟩
  · have hage : age c.1 ((block ++ [c]) :: blocks) = 1 := by simp [age]
    rw [hage, length_singleton]
    omega
  · cases i with
    | zero =>
      cases hw
      refine ⟨c.2, by simp, ?_⟩
      rw [drop_zero, leavesOf_snoc] at *
      exact htree.witness
    | succ i => cases hw

theorem Tracked.tail (h : Tracked base (block :: blocks) size jsop ws)
    (hnodup : ((block :: blocks).flatten.map Prod.fst).Nodup) : Tracked base blocks (size - 1) jsop ws.tail := by
  have hage : age jsop blocks = age jsop (block :: blocks) - 1 := by
    rw [age]
    split
    · rename_i hmem
      refine age_eq_zero fun hlater => ?_
      rw [flatten_cons, map_append] at hnodup
      exact disjoint_of_nodup_append hnodup hmem hlater
    · split <;> omega
  refine ⟨?_, fun i w hw => ?_⟩
  · rw [length_tail, h.length, hage]
    omega
  · rw [getElem?_tail] at hw
    exact h.witness (i + 1) w hw

end

/-! ### The wallet in the middle of a block -/

namespace CWallet

/-- The notes of the wallet after the commitments `done` of the next block; `h` is the height of the tip. -/
structure InBlock (base : List Uint256) (blocks : List NoteBlock) (h : Int) (size : Nat) (done : NoteBlock)
    (s : CWallet × ZCIncrementalMerkleTree) : Prop where
  tree : s.2.Holds (leavesOf base (done :: blocks))
  cacheSize : s.1.nWitnessCacheSize = size
  notes : s.1.AllNotes fun hash jsop nd =>
    hash = jsop.hash ∧ (nd.witnessHeight = -1 ∨ nd.witnessHeight = h) ∧ Tracked base (done :: blocks) size jsop nd.witnesses

variable {base : List Uint256} {blocks : List NoteBlock} {h : Int} {size : Nat} {done : NoteBlock} {w : CWallet}
  {tree : ZCIncrementalMerkleTree} {c : JSOutPoint × Uint256} {jsop : JSOutPoint} {nd : CNoteData}

private theorem Tracked.bounded (htr : Tracked base blocks size jsop nd.witnesses)
    (hht : nd.witnessHeight = -1 ∨ nd.witnessHeight = h) : Bounded h size nd := by
  refine ⟨hht, ?_⟩
  rw [htr.length]
  omega

private theorem checks_appendCommitment (htr : Tracked base (done :: blocks) size jsop nd.witnesses)
    (hht : nd.witnessHeight = -1 ∨ nd.witnessHeight = h) (hh : -1 ≤ h) (hsize : size ≤ WITNESS_CACHE_SIZE)
    (hfits : (leavesOf base (done :: blocks)).length ≤ 2 ^ INCREMENTAL_MERKLE_TREE_DEPTH) :
    Checks (fun _ => True) (appendCommitment (h + 1) size c.2 nd) fun nd' =>
      (nd'.witnessHeight = -1 ∨ nd'.witnessHeight = h) ∧
        (jsop ≠ c.1 → Tracked base ((done ++ [c]) :: blocks) size jsop nd'.witnesses) := by
  rw [(Tracked.bounded htr hht).appendCommitment_eq hh (by exact_mod_cast hsize)]
  cases hws : nd.witnesses with
  | nil =>
    rw [hws] at htr
    refine Checks.ok ⟨hht, fun hne => ?_⟩
    rw [hws]
    exact htr.append hne hfits rfl (fun w' hw' => by cases hw') fun i => rfl
  | cons witness witnesses =>
    rw [hws] at htr
    simp only
    cases happ : witness.append c.2 with
    | error e => exact Checks.error trivial
    | ok witness' =>
      refine Checks.ok ⟨hht, fun hne => htr.append hne hfits rfl (fun w' hw' => ?_) fun i => rfl⟩
      cases hw'
      exact ⟨witness, rfl, happ⟩

theorem InBlock.checks_incrementCommitment (hs : InBlock base blocks h size done (w, tree)) (hh : -1 ≤ h)
    (hsize : size ≤ WITNESS_CACHE_SIZE) (hpos : 1 ≤ size) :
    Checks (fun _ => True) (incrementCommitment (h + 1) (w, tree) c) (InBlock base blocks h size (done ++ [c])) := by
  unfold incrementCommitment
  cases htree : tree.append c.2 with
  | error e => exact Checks.error trivial
  | ok tree' =>
    have hcacheSize : w.nWitnessCacheSize = size := hs.cacheSize
    simp only [hcacheSize]
    have hholds : tree'.Holds (leavesOf base ((done ++ [c]) :: blocks)) := by
      rw [leavesOf_snoc]
      exact hs.tree.append depth_pos htree
    have hnotes := AllNotes.mapNotes (E := fun _ => True) (f := appendCommitment (h + 1) size c.2)
      (Q := fun hash jsop nd => hash = jsop.hash ∧ (nd.witnessHeight = -1 ∨ nd.witnessHeight = h) ∧
        (jsop ≠ c.1 → Tracked base ((done ++ [c]) :: blocks) size jsop nd.witnesses)) hs.notes
      fun hash jsop nd hnd => (checks_appendCommitment hnd.2.2 hnd.2.1 hh hsize hs.tree.fits).mono fun nd' hnd' =>
        ⟨hnd.1, hnd'⟩
    refine hnotes.bind fun w1 hw1 => ?_
    have hsize1 : w1.nWitnessCacheSize = size := hw1.2.trans hcacheSize
    refine Checks.bind (Q := fun w2 => InBlock base blocks h size (done ++ [c]) (w2, tree')) ?_ fun w2 hw2 => Checks.ok hw2
    refine checks_witnessNote ?_ ?_
    · -- no record of the wallet is that of the commitment
      intro hhigh
      refine ⟨hholds, hsize1, fun hash jsop nd hnd => ?_⟩
      obtain ⟨rfl, hht, htr⟩ := hw1.1 hash jsop nd hnd
      refine ⟨rfl, hht, htr fun heq => ?_⟩
      subst heq
      have := hhigh nd hnd
      rcases hht with hht | hht <;> omega
    · intro wtx nd hwtx hnd _
      refine ⟨fun _ _ => ⟨hholds, hsize1, fun hash jsop nd' hnd' => ?_⟩, fun _ _ => trivial⟩
      rw [noteAt_setNote hwtx] at hnd'
      split at hnd'
      · rename_i heq
        obtain ⟨rfl, rfl⟩ := heq
        cases hnd'
        refine ⟨rfl, .inr (show h + 1 - 1 = h by omega), ?_⟩
        rw [witnesses_witnessed]
        exact Tracked.first hholds hpos
      · rename_i hother
        obtain ⟨rfl, hht, htr⟩ := hw1.1 hash jsop nd' hnd'
        exact ⟨rfl, hht, htr fun heq => hother ⟨congrArg JSOutPoint.hash heq, heq⟩⟩

/-- The notes of the wallet at the tip of the chain. -/
def AtTip (base : List Uint256) (blocks : List NoteBlock) (h : Int) (size : Nat) (w : CWallet) : Prop :=
  w.nWitnessCacheSize = size ∧ w.AllNotes fun hash jsop nd => hash = jsop.hash ∧
    (nd.witnessHeight = h ∨ nd.witnessHeight = -1 ∧ age jsop blocks = 0) ∧ Tracked base blocks size jsop nd.witnesses

theorem AtTip.checks_incrementNoteWitnesses (env : WalletEnv) (block : CBlock) (hw : AtTip base blocks h size w)
    (htree : tree.Holds (leavesOf base blocks)) (hh : -1 ≤ h) (hsize : size ≤ WITNESS_CACHE_SIZE)
    (hpos : size = 0 → blocks = []) :
    Checks (fun _ => True) (w.incrementNoteWitnesses env (h + 1) block tree) fun s =>
      AtTip base (noteCommitments env block :: blocks) (h + 1) (min (size + 1) WITNESS_CACHE_SIZE) s.1 ∧
        s.2.Holds (leavesOf base (noteCommitments env block :: blocks)) := by
  have hcache : 1 ≤ WITNESS_CACHE_SIZE := by decide
  have hgrown : grown (size : Int) = (min (size + 1) WITNESS_CACHE_SIZE : Nat) := by
    unfold grown
    split <;> omega
  have hcopy := AllNotes.mapNotes (E := fun _ => True) (f := copyWitness (h + 1) size)
    (Q := fun hash jsop nd => hash = jsop.hash ∧ (nd.witnessHeight = -1 ∨ nd.witnessHeight = h) ∧
      Tracked base ([] :: blocks) (min (size + 1) WITNESS_CACHE_SIZE) jsop nd.witnesses) hw.2 fun hash jsop nd hnd => by
        obtain ⟨hhash, hht, htr⟩ := hnd
        have hht : nd.witnessHeight = -1 ∨ nd.witnessHeight = h := hht.symm.imp And.left id
        rw [(Tracked.bounded htr hht).copyWitness_eq hh (by exact_mod_cast hsize)]
        exact Checks.ok ⟨hhash, hht, htr.copy hsize hpos⟩
  rw [← hw.1] at hcopy
  refine hcopy.bind fun w1 hw1 => ?_
  have hbegin : InBlock base blocks h (min (size + 1) WITNESS_CACHE_SIZE) []
      (w1.setCacheSize (grown w1.nWitnessCacheSize), tree) := by
    refine ⟨?_, ?_, hw1.1⟩
    · rw [leavesOf, map_nil, append_nil]
      exact htree
    · rw [hw1.2, hw.1]
      exact hgrown
  have hloop := Checks.foldlM (E := fun _ => True) (P := InBlock base blocks h (min (size + 1) WITNESS_CACHE_SIZE))
    (l := noteCommitments env block) (f := incrementCommitment (h + 1)) hbegin
    fun _ c _ _ s hs => hs.checks_incrementCommitment hh (by omega) (by omega)
  refine hloop.bind fun s hs => ?_
  have hupd := AllNotes.mapNotes (E := fun _ => True) (f := updateHeight (h + 1) s.1.nWitnessCacheSize)
    (Q := fun hash jsop nd => hash = jsop.hash ∧
      (nd.witnessHeight = h + 1 ∨ nd.witnessHeight = -1 ∧ age jsop (noteCommitments env block :: blocks) = 0) ∧
      Tracked base (noteCommitments env block :: blocks) (min (size + 1) WITNESS_CACHE_SIZE) jsop nd.witnesses)
    hs.notes fun hash jsop nd hnd => by
      rw [hs.cacheSize, (Tracked.bounded hnd.2.2 hnd.2.1).updateHeight_eq hh (by omega)]
      exact Checks.ok ⟨hnd.1, .inl rfl, hnd.2.2⟩
  exact hupd.bind fun w2 hw2 => Checks.ok ⟨⟨hw2.2.trans hs.cacheSize, hw2.1⟩, hs.tree⟩

theorem AtTip.decrementNoteWitnesses {block : NoteBlock} (hw : AtTip base (block :: blocks) h size w)
    (hnodup : ((block :: blocks).flatten.map Prod.fst).Nodup) (hh : -1 ≤ h) (hsize : size ≤ WITNESS_CACHE_SIZE)
    {w' : CWallet} (hdec : w.decrementNoteWitnesses h = .ok w') : AtTip base blocks (h - 1) (size - 1) w' := by
  have hpos := decrementNoteWitnesses_size hdec
  rw [hw.1] at hpos
  have hdrop := AllNotes.mapNotes (E := fun _ => True) (f := dropWitness h w.nWitnessCacheSize)
    (Q := fun hash jsop nd => hash = jsop.hash ∧ nd.witnessHeight = h - 1 ∧
      Tracked base blocks (size - 1) jsop nd.witnesses) hw.2 fun hash jsop nd hnd => by
        obtain ⟨hhash, hht, htr⟩ := hnd
        have hht : nd.witnessHeight = -1 ∨ nd.witnessHeight = h := hht.symm.imp And.left id
        rw [hw.1, (Tracked.bounded htr hht).dropWitness_eq hh (by exact_mod_cast hsize)]
        exact Checks.ok ⟨hhash, rfl, htr.tail hnodup⟩
  obtain ⟨w1, hw1, hdec⟩ := except_bind_ok.1 hdec
  obtain ⟨w2, hw2, hdec⟩ := except_bind_ok.1 hdec
  obtain ⟨-, -, hdec⟩ := except_bind_ok.1 hdec
  cases hdec
  obtain ⟨hnotes1, hsize1⟩ := hdrop.1 w1 hw1
  have hcheck := AllNotes.mapNotes (E := fun _ => True) (f := checkCovered h (w1.nWitnessCacheSize - 1))
    (Q := fun hash jsop nd => hash = jsop.hash ∧ (nd.witnessHeight = h - 1 ∨ nd.witnessHeight = -1 ∧ age jsop blocks = 0) ∧
      Tracked base blocks (size - 1) jsop nd.witnesses) (hnotes1.setCacheSize (w1.nWitnessCacheSize - 1))
    fun hash jsop nd hnd => ⟨fun nd' hnd' => by
      rw [checkCovered_ok hnd']
      exact ⟨hnd.1, .inl hnd.2.1, hnd.2.2⟩, fun _ _ => trivial⟩
  obtain ⟨hnotes2, hsize2⟩ := hcheck.1 _ hw2
  refine ⟨?_, hnotes2⟩
  have hsize3 : w'.nWitnessCacheSize = w1.nWitnessCacheSize - 1 := hsize2
  rw [hsize3, hsize1, hw.1]
  omega

end CWallet

/-! ### The run -/

namespace WitnessRun

/-- The blocks connected since the run began, as the wallet sees them. -/
def blocks (env : WalletEnv) (s : WitnessRun) : List NoteBlock := s.past.map fun p => CWallet.noteCommitments env p.1

/-- The trees of a run are those of its chain. -/
def TreesHold (env : WalletEnv) (base : List Uint256) :
    ZCIncrementalMerkleTree → List (CBlock × ZCIncrementalMerkleTree) → Prop
  | tree, [] => tree.Holds base
  | tree, p :: past =>
    tree.Holds (leavesOf base ((p :: past).map fun p => CWallet.noteCommitments env p.1)) ∧ TreesHold env base p.2 past

/-- A run that follows a tree of valid blocks: no note is mined twice on a chain (its JoinSplit would spend nullifiers
that are spent), and a transaction is added before it is mined. -/
def Follows (env : WalletEnv) (s : WitnessRun) : WitnessCall → Prop
  | .connect block => ((CWallet.noteCommitments env block :: s.blocks env).flatten.map Prod.fst).Nodup
  | .disconnect => True
  | .addToWallet wtx =>
    wtx.IsNew env ∧ ∀ jsop ∈ (s.blocks env).flatten.map Prod.fst, jsop.hash ≠ env.getHash wtx.tx

def FollowsAll (env : WalletEnv) (s : WitnessRun) : List WitnessCall → Prop
  | [] => True
  | call :: calls => Follows env s call ∧ ∀ s', step env s call = .ok s' → FollowsAll env s' calls

structure Aligned (env : WalletEnv) (base : List Uint256) (size : Nat) (s : WitnessRun) : Prop where
  height : -1 ≤ s.height - s.past.length
  size_le : size ≤ WITNESS_CACHE_SIZE
  size_le_past : size ≤ s.past.length
  size_pos : size = 0 → s.past = []
  distinct : ((s.blocks env).flatten.map Prod.fst).Nodup
  trees : TreesHold env base s.tree s.past
  wallet : s.wallet.AtTip base (s.blocks env) s.height size

variable {env : WalletEnv} {base : List Uint256} {size : Nat} {s : WitnessRun}

theorem TreesHold.tip {tree : ZCIncrementalMerkleTree} {past : List (CBlock × ZCIncrementalMerkleTree)}
    (h : TreesHold env base tree past) :
    tree.Holds (leavesOf base (past.map fun p => CWallet.noteCommitments env p.1)) := by
  cases past with
  | nil => exact h
  | cons p past => exact h.1

theorem Starts.aligned (hs : Starts env s) (htree : s.tree.Holds base) : Aligned env base 0 s := by
  have hbs : s.blocks env = [] := by rw [blocks, hs.past, map_nil]
  refine ⟨?_, Nat.zero_le _, Nat.zero_le _, fun _ => hs.past, ?_, ?_, hs.wallet.size, ?_⟩
  · rw [hs.past, length_nil]
    have := hs.height
    omega
  · rw [hbs]
    exact nodup_nil
  · rw [hs.past]
    exact htree
  · intro hash jsop nd hnd
    obtain ⟨wtx, hwtx, hdata⟩ := Option.bind_eq_some_iff.1 hnd
    obtain ⟨hhash, hnew⟩ := hs.wallet.txs hash wtx hwtx
    obtain ⟨hjsop, hempty, hht⟩ := hnew jsop nd hdata
    rw [hbs, hempty]
    exact ⟨hhash.trans hjsop.symm, .inr ⟨hht, rfl⟩, rfl, fun i w hw => (by cases hw)⟩

section

variable (hs : Aligned env base size s) {s' : WitnessRun} {hash : Uint256} {nd : CNoteData} {jsop : JSOutPoint}
include hs

theorem Aligned.connect {block : CBlock} (hblock : Follows env s (.connect block))
    (hstep : step env s (.connect block) = .ok s') : Aligned env base (min (size + 1) WITNESS_CACHE_SIZE) s' := by
  have hcache : 1 ≤ WITNESS_CACHE_SIZE := by decide
  have hht := hs.height
  have hsize := hs.size_le_past
  obtain ⟨r, hinc, hstep⟩ := except_bind_ok.1 hstep
  cases hstep
  have hpos : size = 0 → s.blocks env = [] := fun hzero => by rw [blocks, hs.size_pos hzero, map_nil]
  obtain ⟨hwallet, htree⟩ := (hs.wallet.checks_incrementNoteWitnesses env block hs.trees.tip (by omega) hs.size_le hpos).1
    r hinc
  refine ⟨?_, by omega, ?_, fun hzero => by omega, hblock, ⟨htree, hs.trees⟩, hwallet⟩
  · simp only [connected, length_cons]
    omega
  · simp only [connected, length_cons]
    omega

theorem Aligned.disconnect (hstep : step env s .disconnect = .ok s') : Aligned env base (size - 1) s' := by
  have hht := hs.height
  have hsize := hs.size_le_past
  have hle := hs.size_le
  obtain ⟨w', hdec, hstep⟩ := except_bind_ok.1 hstep
  cases hstep
  have hpos := CWallet.decrementNoteWitnesses_size hdec
  rw [hs.wallet.1] at hpos
  cases hpast : s.past with
  | nil =>
    rw [hpast, length_nil] at hsize
    omega
  | cons p past =>
    have hbs : s.blocks env = CWallet.noteCommitments env p.1 :: past.map fun p => CWallet.noteCommitments env p.1 := by
      rw [blocks, hpast, map_cons]
    have hwallet := hs.wallet
    have hdist := hs.distinct
    have htrees := hs.trees
    rw [hbs] at hwallet hdist
    rw [hpast] at htrees hht hsize
    rw [length_cons] at hht hsize
    have hpast' : (s.disconnected w').past = past := by simp [disconnected, hpast]
    have htree' : (s.disconnected w').tree = p.2 := by simp [disconnected, hpast]
    have hbs' : (s.disconnected w').blocks env = past.map fun p => CWallet.noteCommitments env p.1 := by
      rw [blocks, hpast']
    refine ⟨?_, by omega, ?_, fun hzero => by omega, ?_, ?_, ?_⟩
    · rw [hpast']
      simp only [disconnected]
      omega
    · rw [hpast']
      omega
    · rw [hbs']
      rw [flatten_cons, map_append] at hdist
      exact hdist.of_append_right
    · rw [hpast', htree']
      exact htrees.2
    · rw [hbs']
      exact hwallet.decrementNoteWitnesses hdist (by omega) hle hdec

theorem Aligned.added {wtx : CWalletTx} (hwtx : Follows env s (.addToWallet wtx)) :
    Aligned env base size (s.added env wtx) := by
  refine ⟨hs.height, hs.size_le, hs.size_le_past, hs.size_pos, hs.distinct, hs.trees, hs.wallet.1, ?_⟩
  intro hash jsop nd hnd
  obtain ⟨wtx', hlook, hdata⟩ := Option.bind_eq_some_iff.1 hnd
  rcases KeyMap.lookup_insert_cases hlook with ⟨rfl, rfl⟩ | ⟨-, hold⟩
  · obtain ⟨hhash, hempty, hht⟩ := hwtx.1 jsop nd hdata
    have hage : age jsop (s.blocks env) = 0 := age_eq_zero fun hmem => hwtx.2 jsop hmem hhash
    refine ⟨hhash.symm, .inr ⟨hht, hage⟩, ?_, fun i w hw => ?_⟩
    · change nd.witnesses.length = min (age jsop (s.blocks env)) size
      rw [hempty, hage, Nat.zero_min]
      rfl
    · rw [hempty] at hw
      cases hw
  · exact hs.wallet.2 hash jsop nd (Option.bind_eq_some_iff.2 ⟨wtx', hold, hdata⟩)

theorem Aligned.step {call : WitnessCall} (hcall : Follows env s call) (hstep : step env s call = .ok s') :
    ∃ size', Aligned env base size' s' := by
  cases call with
  | connect block => exact ⟨_, hs.connect hcall hstep⟩
  | disconnect => exact ⟨_, hs.disconnect hstep⟩
  | addToWallet wtx =>
    cases hstep
    exact ⟨_, hs.added hcall⟩

theorem Aligned.run {calls : List WitnessCall} (hcalls : FollowsAll env s calls)
    (hrun : run env calls s = .ok s') : ∃ size', Aligned env base size' s' := by
  induction calls generalizing s size with
  | nil =>
    cases hrun
    exact ⟨size, hs⟩
  | cons call calls ih =>
    obtain ⟨s1, hstep, hrun⟩ := except_bind_ok.1 hrun
    obtain ⟨size1, hs1⟩ := hs.step hcalls.1 hstep
    exact ih hs1 (hcalls.2 s1 hstep) hrun

theorem Aligned.note {cm : Uint256}
    (hnd : s.wallet.noteAt hash jsop = some nd) (hmem : (jsop, cm) ∈ (s.blocks env).flatten) :
    nd.witnesses ≠ [] ∧ nd.witnessHeight = s.height ∧ nd.witnesses.length ≤ size ∧
      ∀ i w, nd.witnesses[i]? = some w → i < s.past.length ∧ w.element = .ok cm ∧
        ∃ tree : ZCIncrementalMerkleTree,
          IncrementalMerkleTree.appendAll {} (leavesOf base ((s.blocks env).drop i)) = .ok tree ∧ w.root = tree.root := by
  have hage : 0 < age jsop (s.blocks env) := age_pos.2 (mem_map.2 ⟨_, hmem, rfl⟩)
  have hne : s.past ≠ [] := fun hempty => by
    rw [blocks, hempty] at hmem
    cases hmem
  have hpos : size ≠ 0 := mt hs.size_pos hne
  obtain ⟨-, hht, hlen, hwitness⟩ := hs.wallet.2 hash jsop nd hnd
  refine ⟨?_, ?_, by omega, fun i w hw => ?_⟩
  · intro hempty
    rw [hempty, length_nil] at hlen
    omega
  · rcases hht with hht | ⟨-, hzero⟩
    · exact hht
    · omega
  · obtain ⟨cm', hmem', hwit⟩ := hwitness i w hw
    have hi := (List.getElem?_eq_some_iff.1 hw).1
    have hlast : age jsop (s.blocks env) ≤ (s.blocks env).length := age_le_length
    have hbs : (s.blocks env).length = s.past.length := length_map _
    -- the place of a commitment determines it
    obtain rfl : cm' = cm := by
      have hmem' : (jsop, cm') ∈ (s.blocks env).flatten := mem_flatten_of_mem_drop hmem'
      exact congrArg Prod.snd (inj_on_of_nodup_map hs.distinct hmem' hmem rfl)
    have hfits : (leavesOf base ((s.blocks env).drop i)).length ≤ 2 ^ INCREMENTAL_MERKLE_TREE_DEPTH :=
      Nat.le_trans (length_leavesOf_drop base (s.blocks env) i) hs.trees.tip.fits
    obtain ⟨tree, htree, hholds⟩ := represents_empty.appendAll_ok depth_pos (leavesOf base ((s.blocks env).drop i))
      (by simpa using hfits)
    exact ⟨by omega, hwit.element_eq, tree, htree, hwit.root_eq depth_pos ⟨hholds, hfits⟩⟩

end

/-- In every run of a new wallet along valid blocks in which no assertion fails, the notes of the transactions in the
chain since the run began have witnesses; the one for `i` blocks below the tip is a witness of the commitment of the note
with the root of the commitment tree of the chain at that height. -/
theorem witnesses_follow_chain (hs : Starts env s) (htree : IncrementalMerkleTree.appendAll {} base = .ok s.tree)
    {calls : List WitnessCall} (hcalls : FollowsAll env s calls) {s' : WitnessRun} (hrun : run env calls s = .ok s')
    {p : CBlock × ZCIncrementalMerkleTree} (hp : p ∈ s'.past) {hash : Uint256} {wtx : CWalletTx}
    (hwtx : s'.wallet.mapWallet.lookup hash = some wtx) (hmined : wtx.tx ∈ p.1.vtx)
    {o : Nat × JSDescription × Fin ZC_NUM_JS_OUTPUTS} (ho : o ∈ CWallet.noteOutputs wtx.tx) {nd : CNoteData}
    (hnd : wtx.mapNoteData.lookup (CWallet.outPoint env wtx.tx o) = some nd) :
    nd.witnesses ≠ [] ∧
    (∀ i w, nd.witnesses[i]? = some w → i < s'.past.length ∧ w.element = .ok (o.2.1.commitments.get o.2.2) ∧
      ∃ tree : ZCIncrementalMerkleTree,
        IncrementalMerkleTree.appendAll {} (leavesOf base ((s'.blocks env).drop i)) = .ok tree ∧ w.root = tree.root) ∧
    nd.witnessHeight = s'.height ∧ (nd.witnesses.length : Int) ≤ s'.wallet.nWitnessCacheSize ∧
    s'.wallet.nWitnessCacheSize ≤ WITNESS_CACHE_SIZE := by
  have hbase : s.tree.Holds base := by
    have hempty : ({} : ZCIncrementalMerkleTree).Holds [] := ⟨represents_empty, Nat.zero_le _⟩
    simpa using hempty.appendAll depth_pos htree
  obtain ⟨size, haligned⟩ := (hs.aligned hbase).run hcalls hrun
  have hmem : (CWallet.outPoint env wtx.tx o, o.2.1.commitments.get o.2.2) ∈ (s'.blocks env).flatten := by
    refine mem_flatten.2 ⟨CWallet.noteCommitments env p.1, mem_map.2 ⟨p, hp, rfl⟩, ?_⟩
    exact mem_flatMap.2 ⟨wtx.tx, hmined, mem_map.2 ⟨o, ho, rfl⟩⟩
  have hat : s'.wallet.noteAt hash (CWallet.outPoint env wtx.tx o) = some nd := by
    rw [CWallet.noteAt, hwtx]
    exact hnd
  obtain ⟨hne, hht, hlen, hwitness⟩ := haligned.note hat hmem
  have hsize := haligned.size_le
  refine ⟨hne, hwitness, hht, ?_, ?_⟩
  · rw [haligned.wallet.1]
    omega
  · rw [haligned.wallet.1]
    omega

def receivedTx : CWalletTx where
  tx := CWallet.payment 1
  mapNoteData := AList.singleton ⟨7, 0, 0⟩ { address := ⟨0, 0⟩ }

def minedBlock : CBlock := { emptyBlock with vtx := [CWallet.payment 1] }

omit [MerkleHash Uint256] in
/-- A transaction is added to a new wallet and mined. -/
theorem witnesses_follow_chain_mined : ∃ s' wtx nd,
    @run sumHash CWallet.plainWalletEnv [.addToWallet receivedTx, .connect minedBlock] emptyRun = .ok s' ∧
    s'.wallet.mapWallet.lookup 7 = some wtx ∧ wtx.mapNoteData.lookup ⟨7, 0, 0⟩ = some nd ∧ nd.witnesses ≠ [] ∧
    nd.witnessHeight = 6 := by
  let _ := sumHash
  have hnotes : CWallet.noteCommitments CWallet.plainWalletEnv minedBlock =
      [(⟨7, 0, 0⟩, (CWallet.twoNotes 1).commitments.get ⟨0, by decide⟩),
        (⟨7, 0, 1⟩, (CWallet.twoNotes 1).commitments.get ⟨1, by decide⟩)] := rfl
  have hfollows : FollowsAll CWallet.plainWalletEnv emptyRun [.addToWallet receivedTx, .connect minedBlock] := by
    refine ⟨⟨fun jsop nd hnd => ?_, fun jsop hjsop => (by cases hjsop)⟩, fun s₁ hs1 => ⟨?_, fun _ _ => trivial⟩⟩
    · have hmem : (⟨jsop, nd⟩ : Sigma fun _ : JSOutPoint => CNoteData) ∈ [⟨⟨7, 0, 0⟩, { address := ⟨0, 0⟩ }⟩] :=
        AList.mem_lookup_iff.1 hnd
      cases mem_singleton.1 hmem
      exact ⟨rfl, rfl, rfl⟩
    · cases hs1
      change ((CWallet.noteCommitments CWallet.plainWalletEnv minedBlock :: []).flatten.map Prod.fst).Nodup
      rw [hnotes]
      decide
  obtain ⟨s', wtx, nd, hrun, hwtx, hnd, hpast, hht, htx⟩ : ∃ s' wtx nd,
      run CWallet.plainWalletEnv [.addToWallet receivedTx, .connect minedBlock] emptyRun = .ok s' ∧
      s'.wallet.mapWallet.lookup 7 = some wtx ∧ wtx.mapNoteData.lookup ⟨7, 0, 0⟩ = some nd ∧
      s'.past = [(minedBlock, {})] ∧ s'.height = 6 ∧ wtx.tx = CWallet.payment 1 :=
    ⟨_, _, _, rfl, rfl, rfl, rfl, rfl, rfl⟩
  have htree : IncrementalMerkleTree.appendAll {} [] = .ok emptyRun.tree := rfl
  have hmined : wtx.tx ∈ minedBlock.vtx := by
    rw [htx]
    exact mem_singleton_self _
  have ho : (0, CWallet.twoNotes 1, ⟨0, by decide⟩) ∈ CWallet.noteOutputs wtx.tx := by
    rw [htx]
    exact CWallet.mem_noteOutputs.2 rfl
  have hplace : CWallet.outPoint CWallet.plainWalletEnv wtx.tx (0, CWallet.twoNotes 1, ⟨0, by decide⟩) = ⟨7, 0, 0⟩ := by
    rw [htx]
    rfl
  have hnd' := hnd
  rw [← hplace] at hnd'
  have hnote := witnesses_follow_chain (emptyRun_starts _) htree hfollows hrun
    (by rw [hpast]; exact mem_singleton_self _) hwtx hmined ho hnd'
  exact ⟨s', wtx, nd, hrun, hwtx, hnd, hnote.1, hnote.2.2.1.trans hht⟩

end WitnessRun

end LitecoinZ
