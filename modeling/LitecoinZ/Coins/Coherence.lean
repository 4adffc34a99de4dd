import LitecoinZ.Coins.View

/-!
# What a stack of caches answers

`CCoinsView.answers` is what a view answers to every query, and `Coherent` says what the flags of the entries promise:
an entry that is not dirty repeats the answer of the base, a fresh one stands over nothing, and one that the parent
cache lacks is fresh.  Reads change no answer (`Filled`); each write on the top cache changes the answers as its name
says; all keep the stack coherent.
-/

namespace LitecoinZ

open Function

variable [MerkleHash Uint256]
variable {α : Type} {c : CCoinsViewCache} {k : Uint256}

/-! ### Answers -/

/-- The answers of a cache layer over a base with the answers `a`. -/
def CacheLayer.answersOver (l : CacheLayer) (a : ViewAnswers) : ViewAnswers where
  getCoins txid :=
    match l.cacheCoins.lookup txid with
    | some e => some e.coins
    | none => a.getCoins txid
  getAnchorAt rt :=
    match l.cacheAnchors.lookup rt with
    | some e => if e.entered then some e.tree else none
    | none => a.getAnchorAt rt
  getNullifier nullifier :=
    match l.cacheNullifiers.lookup nullifier with
    | some e => e.entered
    | none => a.getNullifier nullifier
  getBestBlock := l.hashBlock <|> a.getBestBlock
  getBestAnchor := l.hashAnchor <|> a.getBestAnchor

def CCoinsViewDB.answers (d : CCoinsViewDB) : ViewAnswers where
  getCoins := d.coins.lookup
  getAnchorAt := d.getAnchorAt
  getNullifier nullifier := (d.nullifiers.lookup nullifier).isSome
  getBestBlock := d.bestBlock
  getBestAnchor := some d.getBestAnchor

namespace CCoinsView

def answers : CCoinsView → ViewAnswers
  | .other a => a
  | .db d => d.answers
  | .cache l base => l.answersOver base.answers

/-- The view is a cache without an entry for the coins of `txid`. -/
def Lacks : CCoinsView → Uint256 → Prop
  | .cache l _, txid => l.cacheCoins.lookup txid = none
  | _, _ => False

end CCoinsView

/-- What the flags of a layer promise about its base. -/
structure CacheLayer.Coherent (l : CacheLayer) (base : CCoinsView) : Prop where
  clean : ∀ {k e}, l.cacheCoins.lookup k = some e → e.dirty = false → base.answers.getCoins k = some e.coins
  fresh : ∀ {k e}, l.cacheCoins.lookup k = some e → e.fresh = true → unspent (base.answers.getCoins k) = none
  missing : ∀ {k e}, l.cacheCoins.lookup k = some e → base.Lacks k → e.fresh = true
  anchor : ∀ {rt e}, l.cacheAnchors.lookup rt = some e → e.dirty = false →
    e.entered = true ∧ base.answers.getAnchorAt rt = some e.tree
  nullifier : ∀ {n e}, l.cacheNullifiers.lookup n = some e → e.dirty = false →
    base.answers.getNullifier n = e.entered

def CCoinsView.Coherent : CCoinsView → Prop
  | .cache l base => l.Coherent base ∧ base.Coherent
  | _ => True

/-- The trees that the view holds or answers stand for their keys in the sense of `P`. -/
def CCoinsView.Anchored (P : Uint256 → ZCIncrementalMerkleTree → Prop) : CCoinsView → Prop
  | .other a => ∀ rt t, a.getAnchorAt rt = some t → P rt t
  | .db d => ∀ rt t, d.getAnchorAt rt = some t → P rt t
  | .cache l base => (∀ rt e, l.cacheAnchors.lookup rt = some e → P rt e.tree) ∧ base.Anchored P

variable {rt : Uint256} {t : ZCIncrementalMerkleTree} {l : CacheLayer} {b : CCoinsView}

theorem CCoinsView.Anchored.answer {P : Uint256 → ZCIncrementalMerkleTree → Prop} {v : CCoinsView} (h : v.Anchored P)
    (ht : v.answers.getAnchorAt rt = some t) :
    P rt t := by
  induction v with
  | other a => exact h rt t ht
  | db d => exact h rt t ht
  | cache l base ih =>
    simp only [answers, CacheLayer.answersOver] at ht
    cases he : l.cacheAnchors.lookup rt with
    | none =>
      rw [he] at ht
      exact ih h.2 ht
    | some e =>
      rw [he] at ht
      simp only at ht
      split at ht
      · cases ht
        exact h.1 rt e he
      · cases ht

/-! ### Reads -/

/-- `v'` is `v` after reads: no answer changed, the promises are kept, and no entry went away. -/
structure Filled (v v' : CCoinsView) : Prop where
  answers : v'.answers = v.answers
  coherent : v.Coherent → v'.Coherent
  lacks : ∀ {k}, v'.Lacks k → v.Lacks k
  anchored : ∀ {P}, v.Anchored P → v'.Anchored P

theorem Filled.trans {v1 v2 v3 : CCoinsView} (h1 : Filled v1 v2) (h2 : Filled v2 v3) : Filled v1 v3 :=
  ⟨h2.answers.trans h1.answers, h2.coherent ∘ h1.coherent, h1.lacks ∘ h2.lacks, h2.anchored ∘ h1.anchored⟩

theorem CacheLayer.Coherent.filled {b' : CCoinsView} (h : l.Coherent b) (hf : Filled b b') :
    l.Coherent b' where
  clean hk hd := by rw [hf.answers]; exact h.clean hk hd
  fresh hk he := by rw [hf.answers]; exact h.fresh hk he
  missing hk hl := h.missing hk (hf.lacks hl)
  anchor hk hd := by rw [hf.answers]; exact h.anchor hk hd
  nullifier hk hd := by rw [hf.answers]; exact h.nullifier hk hd

theorem Filled.base {b' : CCoinsView} (hf : Filled b b') : Filled (.cache l b) (.cache l b') where
  answers := by simp only [CCoinsView.answers, hf.answers]
  coherent h := ⟨h.1.filled hf, hf.coherent h.2⟩
  lacks := id
  anchored h := ⟨h.1, hf.anchored h.2⟩

private theorem filled_insert_coins {tmp : CCoins} (hmiss : l.cacheCoins.lookup k = none)
    (hans : b.answers.getCoins k = some tmp) (hlack : ¬ b.Lacks k) :
    Filled (.cache l b) (.cache { l with cacheCoins := l.cacheCoins.insert k { coins := tmp, fresh := tmp.isPruned } } b) where
  answers := by
    ext1 <;> try rfl
    funext k'
    simp only [CCoinsView.answers, CacheLayer.answersOver]
    by_cases hk : k' = k
    · subst hk
      simp [hmiss, hans]
    · simp [AList.lookup_insert_ne hk]
  coherent h := by
    refine ⟨⟨fun he hd => ?_, fun he hfr => ?_, fun he hl => ?_, h.1.anchor, h.1.nullifier⟩, h.2⟩
    · rcases KeyMap.lookup_insert_cases he with ⟨rfl, rfl⟩ | ⟨-, he⟩
      · exact hans
      · exact h.1.clean he hd
    · rcases KeyMap.lookup_insert_cases he with ⟨rfl, rfl⟩ | ⟨-, he⟩
      · rw [hans]
        exact unspent_some_of_pruned hfr
      · exact h.1.fresh he hfr
    · rcases KeyMap.lookup_insert_cases he with ⟨rfl, rfl⟩ | ⟨-, he⟩
      · exact absurd hl hlack
      · exact h.1.missing he hl
  lacks {k'} hl := by
    by_cases hk : k' = k
    · subst hk
      exact hmiss
    · simpa [CCoinsView.Lacks, AList.lookup_insert_ne hk] using hl
  anchored h := h

private theorem filled_insert_anchor (hmiss : l.cacheAnchors.lookup rt = none)
    (hans : b.answers.getAnchorAt rt = some t) :
    Filled (.cache l b) (.cache { l with cacheAnchors := l.cacheAnchors.insert rt { entered := true, tree := t } } b)  where
  answers := by
    ext1 <;> try rfl
    funext rt'
    simp only [CCoinsView.answers, CacheLayer.answersOver]
    by_cases hk : rt' = rt
    · subst hk
      simp [hmiss, hans]
    · simp [AList.lookup_insert_ne hk]
  coherent h := by
    refine ⟨⟨h.1.clean, h.1.fresh, h.1.missing, fun {rt' e} he hd => ?_, h.1.nullifier⟩, h.2⟩
    rcases KeyMap.lookup_insert_cases he with ⟨rfl, rfl⟩ | ⟨-, he⟩
    · exact ⟨rfl, hans⟩
    · exact h.1.anchor he hd
  lacks := id
  anchored {P} h := by
    refine ⟨fun rt' e he => ?_, h.2⟩
    rcases KeyMap.lookup_insert_cases he with ⟨rfl, rfl⟩ | ⟨-, he⟩
    · exact h.2.answer hans
    · exact h.1 rt' e he

private theorem filled_insert_nullifier {n : Uint256} (hmiss : l.cacheNullifiers.lookup n = none) :
    Filled (.cache l b)
      (.cache { l with cacheNullifiers := l.cacheNullifiers.insert n { entered := b.answers.getNullifier n } } b)  where
  answers := by
    ext1 <;> try rfl
    funext n'
    simp only [CCoinsView.answers, CacheLayer.answersOver]
    by_cases hk : n' = n
    · subst hk
      simp [hmiss]
    · simp [AList.lookup_insert_ne hk]
  coherent h := by
    refine ⟨⟨h.1.clean, h.1.fresh, h.1.missing, h.1.anchor, fun {n' e} he hd => ?_⟩, h.2⟩
    rcases KeyMap.lookup_insert_cases he with ⟨rfl, rfl⟩ | ⟨-, he⟩
    · rfl
    · exact h.1.nullifier he hd
  lacks := id
  anchored h := h

/-- A read of `v` that gives `a` and leaves `v'`. -/
structure Reads {α : Type} (v : CCoinsView) (a : α) (r : α × CCoinsView) : Prop where
  value : r.1 = a
  filled : Filled v r.2

/-- The read of a layer over a base, as the read of a cache. -/
def asView {α : Type} (r : α × CacheLayer × CCoinsView) : α × CCoinsView := (r.1, .cache r.2.1 r.2.2)

omit [MerkleHash Uint256] in
private theorem fetchCoins_not_lacks (h : (l.fetchCoins b k (b.getCoins k)).1 ≠ none) :
    ¬ (asView (l.fetchCoins b k (b.getCoins k))).2.Lacks k := by
  simp only [CacheLayer.fetchCoins, CacheLayer.through, asView, CCoinsView.Lacks] at h ⊢
  cases he : l.cacheCoins.lookup k with
  | some e => simp [he]
  | none =>
    simp only [he, Option.map_none] at h ⊢
    cases hr : (b.getCoins k).1 with
    | none => exact absurd hr h
    | some tmp => simp

private theorem filled_best {l' : CacheLayer} (hc : l'.cacheCoins = l.cacheCoins) (ha : l'.cacheAnchors = l.cacheAnchors)
    (hn : l'.cacheNullifiers = l.cacheNullifiers)
    (hblock : (l'.hashBlock <|> b.answers.getBestBlock) = (l.hashBlock <|> b.answers.getBestBlock))
    (hanc : (l'.hashAnchor <|> b.answers.getBestAnchor) = (l.hashAnchor <|> b.answers.getBestAnchor)) :
    Filled (.cache l b) (.cache l' b) where
  answers := by simp only [CCoinsView.answers, CacheLayer.answersOver, hc, ha, hn, hblock, hanc]
  coherent h := by
    refine ⟨⟨?_, ?_, ?_, ?_, ?_⟩, h.2⟩
    · rw [hc]; exact h.1.clean
    · rw [hc]; exact h.1.fresh
    · rw [hc]; exact h.1.missing
    · rw [ha]; exact h.1.anchor
    · rw [hn]; exact h.1.nullifier
  lacks h := by simpa only [CCoinsView.Lacks, hc] using h
  anchored h := by
    refine ⟨?_, h.2⟩
    rw [ha]
    exact h.1

section

variable (v : CCoinsView)

theorem Filled.refl : Filled v v := ⟨rfl, id, id, id⟩

private theorem fetchCoins_reads (hb : Reads b (b.answers.getCoins k) (b.getCoins k))
    (hlack : (b.getCoins k).1 ≠ none → ¬ (b.getCoins k).2.Lacks k) :
    Reads (.cache l b) ((CCoinsView.cache l b).answers.getCoins k) (asView (l.fetchCoins b k (b.getCoins k))) := by
  have hf := hb.filled.base (l := l)
  simp only [CacheLayer.fetchCoins, CacheLayer.through, CCoinsView.answers, CacheLayer.answersOver, asView]
  cases he : l.cacheCoins.lookup k with
  | some e => exact ⟨rfl, Filled.refl _⟩
  | none =>
    simp only [Option.map_none]
    cases hr : (b.getCoins k).1 with
    | none => exact ⟨hr.symm.trans hb.value, hf⟩
    | some tmp =>
      refine ⟨hr.symm.trans hb.value, hf.trans (filled_insert_coins he ?_ (hlack (by simp [hr])))⟩
      rw [hb.filled.answers, ← hb.value, hr]

private theorem getCoins_reads_and_fills (k : Uint256) :
    Reads v (v.answers.getCoins k) (v.getCoins k) ∧ ((v.getCoins k).1 ≠ none → ¬ (v.getCoins k).2.Lacks k) := by
  induction v with
  | other a => exact ⟨⟨rfl, Filled.refl _⟩, fun _ h => h⟩
  | db d => exact ⟨⟨rfl, Filled.refl _⟩, fun _ h => h⟩
  | cache l b ih => exact ⟨fetchCoins_reads ih.1 ih.2, fetchCoins_not_lacks⟩

theorem CCoinsView.getCoins_reads (k : Uint256) :
    Reads v (v.answers.getCoins k) (v.getCoins k) := (getCoins_reads_and_fills v k).1

private theorem layer_getAnchorAt_reads (hb : Reads b (b.answers.getAnchorAt rt) (b.getAnchorAt rt)) :
    Reads (.cache l b) ((CCoinsView.cache l b).answers.getAnchorAt rt) (asView (l.getAnchorAt b rt (b.getAnchorAt rt))) := by
  have hf := hb.filled.base (l := l)
  simp only [CacheLayer.getAnchorAt, CacheLayer.through, CCoinsView.answers, CacheLayer.answersOver, asView]
  cases he : l.cacheAnchors.lookup rt with
  | some e => exact ⟨rfl, Filled.refl _⟩
  | none =>
    simp only [Option.map_none]
    cases hr : (b.getAnchorAt rt).1 with
    | none => exact ⟨hr.symm.trans hb.value, hf⟩
    | some t =>
      refine ⟨hr.symm.trans hb.value, hf.trans (filled_insert_anchor he ?_)⟩
      rw [hb.filled.answers, ← hb.value, hr]

theorem CCoinsView.getAnchorAt_reads (rt : Uint256) : Reads v (v.answers.getAnchorAt rt) (v.getAnchorAt rt) := by
  induction v with
  | other a => exact ⟨rfl, Filled.refl _⟩
  | db d => exact ⟨rfl, Filled.refl _⟩
  | cache l b ih => exact layer_getAnchorAt_reads ih

private theorem layer_getNullifier_reads {n : Uint256} (hb : Reads b (b.answers.getNullifier n) (b.getNullifier n)) :
    Reads (.cache l b) ((CCoinsView.cache l b).answers.getNullifier n) (asView (l.getNullifier b n (b.getNullifier n))) := by
  have hf := hb.filled.base (l := l)
  simp only [CacheLayer.getNullifier, CacheLayer.through, CCoinsView.answers, CacheLayer.answersOver, asView]
  cases he : l.cacheNullifiers.lookup n with
  | some e => exact ⟨rfl, Filled.refl _⟩
  | none =>
    refine ⟨hb.value, hf.trans ?_⟩
    have := @filled_insert_nullifier _ l (b.getNullifier n).2 n he
    rwa [hb.filled.answers, ← hb.value] at this

theorem CCoinsView.getNullifier_reads (n : Uint256) : Reads v (v.answers.getNullifier n) (v.getNullifier n) := by
  induction v with
  | other a => exact ⟨rfl, Filled.refl _⟩
  | db d => exact ⟨rfl, Filled.refl _⟩
  | cache l b ih => exact layer_getNullifier_reads ih

private theorem layer_getBestBlock_reads (hb : Reads b b.answers.getBestBlock b.getBestBlock) :
    Reads (.cache l b) (CCoinsView.cache l b).answers.getBestBlock (asView (l.getBestBlock b b.getBestBlock)) := by
  have hf := hb.filled.base (l := l)
  simp only [CacheLayer.getBestBlock, CacheLayer.through, CCoinsView.answers, CacheLayer.answersOver, asView]
  cases he : l.hashBlock with
  | some h => exact ⟨rfl, Filled.refl _⟩
  | none =>
    refine ⟨hb.value, hf.trans (filled_best rfl rfl rfl ?_ rfl)⟩
    rw [he, hb.filled.answers, ← hb.value]
    cases b.getBestBlock.1 <;> rfl

theorem CCoinsView.getBestBlock_reads : Reads v v.answers.getBestBlock v.getBestBlock := by
  induction v with
  | other a => exact ⟨rfl, Filled.refl _⟩
  | db d => exact ⟨rfl, Filled.refl _⟩
  | cache l b ih => exact layer_getBestBlock_reads ih

private theorem layer_getBestAnchor_reads (hb : Reads b b.answers.getBestAnchor b.getBestAnchor) :
    Reads (.cache l b) (CCoinsView.cache l b).answers.getBestAnchor (asView (l.getBestAnchor b b.getBestAnchor)) := by
  have hf := hb.filled.base (l := l)
  simp only [CacheLayer.getBestAnchor, CacheLayer.through, CCoinsView.answers, CacheLayer.answersOver, asView]
  cases he : l.hashAnchor with
  | some h => exact ⟨rfl, Filled.refl _⟩
  | none =>
    refine ⟨hb.value, hf.trans (filled_best rfl rfl rfl rfl ?_)⟩
    rw [he, hb.filled.answers, ← hb.value]
    cases b.getBestAnchor.1 <;> rfl

theorem CCoinsView.getBestAnchor_reads : Reads v v.answers.getBestAnchor v.getBestAnchor := by
  induction v with
  | other a => exact ⟨rfl, Filled.refl _⟩
  | db d => exact ⟨rfl, Filled.refl _⟩
  | cache l b ih => exact layer_getBestAnchor_reads ih

end

theorem CCoinsView.getCoins_not_lacks {v : CCoinsView} (h : (v.getCoins k).1 ≠ none) :
    ¬ (v.getCoins k).2.Lacks k := (getCoins_reads_and_fills v k).2 h

/-! ### Operations on the top cache -/

namespace CCoinsViewCache

def answers (c : CCoinsViewCache) : ViewAnswers := c.toView.answers

def ReadsTo {α : Type} (c : CCoinsViewCache) (a : α) (r : α × CCoinsViewCache) : Prop :=
  r.1 = a ∧ Filled c.toView r.2.toView

theorem getAnchorAt_stored {rt : Uint256} (h : (c.getAnchorAt rt).1 ≠ none) :
    (c.getAnchorAt rt).2.layer.cacheAnchors.lookup rt ≠ none := by
  simp only [getAnchorAt, ofRead, CacheLayer.getAnchorAt, CacheLayer.through] at h ⊢
  cases he : c.layer.cacheAnchors.lookup rt with
  | some e => simp [he]
  | none =>
    simp only [he, Option.map_none] at h ⊢
    cases hr : (c.base.getAnchorAt rt).1 with
    | none => exact absurd hr h
    | some t => simp

section

variable (c : CCoinsViewCache)

theorem accessCoins_reads (k : Uint256) : c.ReadsTo (c.answers.getCoins k) (c.accessCoins k) := by
  have h := fetchCoins_reads (l := c.layer) (c.base.getCoins_reads k) CCoinsView.getCoins_not_lacks
  exact ⟨h.value, h.filled⟩

theorem getAnchorAt_reads (rt : Uint256) : c.ReadsTo (c.answers.getAnchorAt rt) (c.getAnchorAt rt) := by
  have h := layer_getAnchorAt_reads (l := c.layer) (c.base.getAnchorAt_reads rt)
  exact ⟨h.value, h.filled⟩

theorem getNullifier_reads (n : Uint256) : c.ReadsTo (c.answers.getNullifier n) (c.getNullifier n) := by
  have h := layer_getNullifier_reads (l := c.layer) (c.base.getNullifier_reads n)
  exact ⟨h.value, h.filled⟩

theorem getBestBlock_reads : c.ReadsTo c.answers.getBestBlock c.getBestBlock := by
  have h := layer_getBestBlock_reads (l := c.layer) c.base.getBestBlock_reads
  exact ⟨h.value, h.filled⟩

theorem getBestAnchor_reads : c.ReadsTo c.answers.getBestAnchor c.getBestAnchor := by
  have h := layer_getBestAnchor_reads (l := c.layer) c.base.getBestAnchor_reads
  exact ⟨h.value, h.filled⟩

theorem haveCoins_reads (k : Uint256) :
    c.ReadsTo ((c.answers.getCoins k).any fun coins => !coins.vout.isEmpty) (c.haveCoins k) := by
  obtain ⟨h1, h2⟩ := c.accessCoins_reads k
  exact ⟨by simp only [haveCoins, h1], h2⟩

omit [MerkleHash Uint256] in
theorem modifyCoins_eq (k : Uint256) (f : CCoins → Except Fault (α × CCoins)) :
    c.modifyCoins k f =
      (f (c.entryToModify k).1.coins).map fun r =>
        (r.1, ⟨{ c.layer with cacheCoins := c.layer.cacheCoins.put k (modifiedEntry (c.entryToModify k).1 r.2) },
          (c.entryToModify k).2⟩) := by
  simp only [modifyCoins]
  cases f (c.entryToModify k).1.coins <;> rfl

end

private theorem entryToModify_spec (hc : c.toView.Coherent) (k : Uint256) :
    (c.entryToModify k).1.coins = (c.answers.getCoins k).getD .clear ∧ Filled c.base (c.entryToModify k).2 ∧
      ((c.entryToModify k).1.fresh = true → unspent (c.base.answers.getCoins k) = none) ∧
      ((c.entryToModify k).2.Lacks k → (c.entryToModify k).1.fresh = true) := by
  have hr := c.base.getCoins_reads k
  simp only [entryToModify, answers, toView, CCoinsView.answers, CacheLayer.answersOver]
  cases he : c.layer.cacheCoins.lookup k with
  | some e => exact ⟨rfl, Filled.refl _, hc.1.fresh he, hc.1.missing he⟩
  | none =>
    rcases hg : c.base.getCoins k with ⟨_ | coins, b⟩
    all_goals
      rw [hg] at hr
      simp only [← hr.value]
    · exact ⟨rfl, hr.filled, fun _ => unspent_none, fun _ => trivial⟩
    · refine ⟨rfl, hr.filled, unspent_some_of_pruned, fun hl => ?_⟩
      have hno := CCoinsView.getCoins_not_lacks (v := c.base) (k := k) (by simp [hg])
      rw [hg] at hno
      exact absurd hl hno

end CCoinsViewCache

/-- The answers with absent and fully spent coins identified. -/
def ViewAnswers.norm (a : ViewAnswers) : ViewAnswers := { a with getCoins := fun k => unspent (a.getCoins k) }

namespace CCoinsViewCache

variable {e : CCoinsCacheEntry}

omit [MerkleHash Uint256] in
private theorem lookup_modified {m : KeyMap Uint256 CCoinsCacheEntry} {k' : Uint256} {e' : CCoinsCacheEntry}
    {coins : CCoins} (h : (m.put k (modifiedEntry e coins)).lookup k' = some e') :
    (k' = k ∧ e'.dirty = true ∧ e'.fresh = e.fresh) ∨ m.lookup k' = some e' := by
  rw [KeyMap.lookup_put] at h
  split at h
  · unfold modifiedEntry at h
    split at h
    · cases h
    · cases h
      exact .inl ⟨‹_›, rfl, rfl⟩
  · exact .inr h

omit [MerkleHash Uint256] in
private theorem modifiedEntry_unspent {coins : CCoins} {a : Option CCoins} (hfresh : e.fresh = true → unspent a = none) :
    unspent (((modifiedEntry e coins).map CCoinsCacheEntry.coins).or a) = unspent (some coins.cleanup) := by
  unfold modifiedEntry
  split
  · simp only [Bool.and_eq_true] at *
    rename_i h
    rw [unspent_some_of_pruned h.2]
    exact hfresh h.1
  · rfl

section

variable (hc : c.toView.Coherent)
include hc

theorem modifyCoins_ok {c' : CCoinsViewCache} {f : CCoins → Except Fault (α × CCoins)} {a : α}
    (h : c.modifyCoins k f = .ok (a, c')) :
    ∃ coins, f ((c.answers.getCoins k).getD .clear) = .ok (a, coins) ∧ c'.toView.Coherent ∧
      (∀ P, c.toView.Anchored P → c'.toView.Anchored P) ∧
      c'.answers.norm = { c.answers.norm with
        getCoins := update c.answers.norm.getCoins k (unspent (some coins.cleanup)) } := by
  obtain ⟨hcoins, hf, hfresh, hlacks⟩ := entryToModify_spec hc k
  rw [modifyCoins_eq, hcoins] at h
  cases hr : f ((c.answers.getCoins k).getD .clear) with
  | error e => simp [hr, Except.map] at h
  | ok r =>
    obtain ⟨a', coins⟩ := r
    simp only [hr, Except.map, Except.ok.injEq, Prod.mk.injEq] at h
    obtain ⟨rfl, rfl⟩ := h
    refine ⟨coins, rfl, ⟨⟨?_, ?_, ?_, ?_, ?_⟩, hf.coherent hc.2⟩, fun P hP => ⟨hP.1, hf.anchored hP.2⟩, ?_⟩
    · intro k' e he hd
      rw [hf.answers]
      rcases lookup_modified he with ⟨-, hd', -⟩ | he
      · rw [hd] at hd'
        cases hd'
      · exact hc.1.clean he hd
    · intro k' e he hfr
      rw [hf.answers]
      rcases lookup_modified he with ⟨rfl, -, hfr'⟩ | he
      · exact hfresh (hfr' ▸ hfr)
      · exact hc.1.fresh he hfr
    · intro k' e he hl
      rcases lookup_modified he with ⟨rfl, -, hfr'⟩ | he
      · exact hfr'.trans (hlacks hl)
      · exact hc.1.missing he (hf.lacks hl)
    · intro rt e he hd
      rw [hf.answers]
      exact hc.1.anchor he hd
    · intro n e he hd
      rw [hf.answers]
      exact hc.1.nullifier he hd
    · simp only [answers, toView, CCoinsView.answers, hf.answers]
      ext1 <;> try rfl
      funext k'
      simp only [ViewAnswers.norm, CacheLayer.answersOver]
      by_cases hk : k' = k
      · subst hk
        rw [update_self, KeyMap.lookup_put_self, ← modifiedEntry_unspent hfresh]
        cases modifiedEntry (c.entryToModify k').1 coins <;> rfl
      · rw [update_of_ne hk, KeyMap.lookup_put_ne hk]

theorem modifyCoins_error {f : CCoins → Except Fault (α × CCoins)} {e : Fault} :
    c.modifyCoins k f = .error e ↔ f ((c.answers.getCoins k).getD .clear) = .error e := by
  rw [modifyCoins_eq, (entryToModify_spec hc k).1]
  cases f ((c.answers.getCoins k).getD .clear) <;> simp [Except.map]

theorem setNullifier_ok (n : Uint256) (spent : Bool) :
    (c.setNullifier n spent).toView.Coherent ∧
      (∀ P, c.toView.Anchored P → (c.setNullifier n spent).toView.Anchored P) ∧
      (c.setNullifier n spent).answers = { c.answers with
        getNullifier := update c.answers.getNullifier n spent } := by
  refine ⟨⟨⟨hc.1.clean, hc.1.fresh, hc.1.missing, hc.1.anchor, fun he hd => ?_⟩, hc.2⟩, fun P hP => hP, ?_⟩
  · rcases KeyMap.lookup_insert_cases he with ⟨rfl, rfl⟩ | ⟨-, he⟩
    · cases hd
    · exact hc.1.nullifier he hd
  · simp only [answers, toView, CCoinsView.answers]
    ext1 <;> try rfl
    funext n'
    simp only [setNullifier, CacheLayer.answersOver]
    by_cases hk : n' = n
    · subst hk
      rw [update_self, AList.lookup_insert]
    · rw [update_of_ne hk, AList.lookup_insert_ne hk]

theorem setBestBlock_ok (h : Uint256) :
    (c.setBestBlock (some h)).toView.Coherent ∧
      (∀ P, c.toView.Anchored P → (c.setBestBlock (some h)).toView.Anchored P) ∧
      (c.setBestBlock (some h)).answers = { c.answers with getBestBlock := some h } :=
  ⟨⟨⟨hc.1.clean, hc.1.fresh, hc.1.missing, hc.1.anchor, hc.1.nullifier⟩, hc.2⟩, fun _ hP => hP, rfl⟩

private theorem setAnchor_ok (rt : Uint256) (newrt : Option Uint256) (e : CAnchorsCacheEntry) (he : e.dirty = true) :
    let c' : CCoinsViewCache := { c with
      layer.cacheAnchors := c.layer.cacheAnchors.insert rt e
      layer.hashAnchor := newrt }
    c'.toView.Coherent ∧ (∀ P, P rt e.tree → c.toView.Anchored P → c'.toView.Anchored P) ∧
      c'.answers = { c.answers with
        getAnchorAt := update c.answers.getAnchorAt rt (if e.entered then some e.tree else none)
        getBestAnchor := newrt <|> c.base.answers.getBestAnchor } := by
  refine ⟨⟨⟨hc.1.clean, hc.1.fresh, hc.1.missing, fun he' hd => ?_, hc.1.nullifier⟩, hc.2⟩,
    fun P hP h => ⟨fun rt' e' he' => ?_, h.2⟩, ?_⟩
  · rcases KeyMap.lookup_insert_cases he' with ⟨rfl, rfl⟩ | ⟨-, he'⟩
    · rw [he] at hd
      cases hd
    · exact hc.1.anchor he' hd
  · rcases KeyMap.lookup_insert_cases he' with ⟨rfl, rfl⟩ | ⟨-, he'⟩
    · exact hP
    · exact h.1 rt' e' he'
  · simp only [answers, toView, CCoinsView.answers]
    ext1 <;> try rfl
    funext rt'
    simp only [CacheLayer.answersOver]
    by_cases hk : rt' = rt
    · subst hk
      rw [update_self, AList.lookup_insert]
    · rw [update_of_ne hk, AList.lookup_insert_ne hk]

theorem pushAnchor_ok (tree : ZCIncrementalMerkleTree) :
    (c.pushAnchor tree).toView.Coherent ∧
      (∀ P, P tree.root tree → c.toView.Anchored P → (c.pushAnchor tree).toView.Anchored P) ∧
      (c.pushAnchor tree).answers =
        if c.answers.getBestAnchor ≠ some tree.root then
          { c.answers with
            getAnchorAt := update c.answers.getAnchorAt tree.root (some tree)
            getBestAnchor := some tree.root }
        else c.answers := by
  obtain ⟨hv, hf⟩ := c.getBestAnchor_reads
  have hc' := hf.coherent hc
  simp only [pushAnchor]
  rw [hv]
  split
  · obtain ⟨h1, h2, h3⟩ := setAnchor_ok hc' tree.root (some tree.root) { entered := true, tree := tree, dirty := true } rfl
    refine ⟨h1, fun P hP h => h2 P hP (hf.anchored h), h3.trans ?_⟩
    simp only [answers, hf.answers, ↓reduceIte]
    rfl
  · exact ⟨hc', fun P _ h => hf.anchored h, hf.answers⟩

/-- `PopAnchor` removes the current best anchor; a null new root leaves the best anchor to the base. -/
theorem popAnchor_spec (newrt : Option Uint256) :
    if c.answers.getBestAnchor ≠ newrt then
      (c.answers.getAnchorAt (c.answers.getBestAnchor.getD 0) = none ∧
        c.popAnchor newrt = .error (.assertion "GetAnchorAt(currentRoot, tree)")) ∨
      (c.answers.getAnchorAt (c.answers.getBestAnchor.getD 0) ≠ none ∧
        ∃ c' best, c.popAnchor newrt = .ok c' ∧ c'.toView.Coherent ∧
          (∀ P, c.toView.Anchored P → c'.toView.Anchored P) ∧
          c'.answers = { c.answers with
            getAnchorAt := update c.answers.getAnchorAt (c.answers.getBestAnchor.getD 0) none
            getBestAnchor := best } ∧
          (newrt ≠ none → best = newrt))
    else ∃ c', c.popAnchor newrt = .ok c' ∧ Filled c.toView c'.toView := by
  obtain ⟨hv, hf⟩ := c.getBestAnchor_reads
  obtain ⟨hv', hf'⟩ := c.getBestAnchor.2.getAnchorAt_reads (c.answers.getBestAnchor.getD 0)
  have hans : c.getBestAnchor.2.answers = c.answers := hf.answers
  rw [hans] at hv'
  simp only [popAnchor]
  rw [hv]
  split
  · rcases hr : c.getBestAnchor.2.getAnchorAt (c.answers.getBestAnchor.getD 0) with ⟨_ | t, c2⟩
    all_goals rw [hr] at hv' hf'
    · exact .inl ⟨hv'.symm, rfl⟩
    · -- the entry for the current root is there now, with a tree that stands for it
      have hff := hf.trans hf'
      obtain ⟨e, he⟩ : ∃ e, c2.layer.cacheAnchors.lookup (c.answers.getBestAnchor.getD 0) = some e := by
        have hsome := @getAnchorAt_stored _ c.getBestAnchor.2 (c.answers.getBestAnchor.getD 0)
        rw [hr] at hsome
        exact Option.ne_none_iff_exists'.1 (hsome (by simp))
      obtain ⟨h1, h2, h3⟩ := setAnchor_ok (hff.coherent hc) (c.answers.getBestAnchor.getD 0) newrt
        { e with entered := false, dirty := true } rfl
      refine .inr ⟨by rw [← hv']; simp, _, newrt <|> c2.base.answers.getBestAnchor, rfl, ?_, ?_, ?_, fun hne => ?_⟩
      · simpa only [he, Option.getD_some] using h1
      · intro P hP
        have hPe : P _ e.tree := (hff.anchored hP).1 _ e he
        have := h2 P hPe (hff.anchored hP)
        simpa only [he, Option.getD_some] using this
      · have ha : c2.answers = c.answers := hff.answers
        rw [ha] at h3
        simpa only [he, Option.getD_some, Bool.false_eq_true, ↓reduceIte] using h3
      · obtain ⟨h, rfl⟩ := Option.ne_none_iff_exists'.1 hne
        rfl
  · exact ⟨_, rfl, hf⟩

end

end CCoinsViewCache

end LitecoinZ
