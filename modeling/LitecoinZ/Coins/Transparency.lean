import LitecoinZ.Coins.Coherence
import LitecoinZ.Zcash.CommitmentTree

/-!
# Flushing a cache changes no answer

`BatchWrite` of a coherent stack never trips the assertion on fresh entries, leaves a coherent stack, and its base
answers every query about coins, anchors and nullifiers as the flushed cache did: for anchors as long as a root stands
for one tree only, and with the empty root always answered by the database.  Stacks that are built and used as the
caches are meant to be (`Reachable`) are coherent.
-/

namespace LitecoinZ

variable [MerkleHash Uint256]

def OneTree (P : Uint256 → ZCIncrementalMerkleTree → Prop) : Prop := ∀ rt t t', P rt t → P rt t' → t = t'

section

variable {l p p' : CacheLayer} {b : CCoinsView}

section

variable (hl : l.Coherent (.cache p b)) (hp : p.Coherent b)
include hl hp

private theorem mergeCoins_spec {k : Uint256} {e : CCoinsCacheEntry} (he : l.cacheCoins.lookup k = some e) :
    ∃ r, mergeCoins (p.cacheCoins.lookup k) e = .ok r ∧
      (∀ e', r = some e' → (e'.dirty = false → b.answers.getCoins k = some e'.coins) ∧
        (e'.fresh = true → unspent (b.answers.getCoins k) = none) ∧ (b.Lacks k → e'.fresh = true)) ∧
      unspent ((r.map CCoinsCacheEntry.coins).or (b.answers.getCoins k)) = unspent (some e.coins) := by
  have hbase : (CCoinsView.cache p b).answers.getCoins k =
      ((p.cacheCoins.lookup k).map CCoinsCacheEntry.coins).or (b.answers.getCoins k) := by
    simp only [CCoinsView.answers, CacheLayer.answersOver]
    cases p.cacheCoins.lookup k <;> rfl
  have hclean := hl.clean he
  have hfresh := hl.fresh he
  have hmiss := hl.missing he
  rw [hbase] at hclean hfresh
  simp only [CCoinsView.Lacks] at hmiss
  unfold mergeCoins
  by_cases hd : e.dirty = true
  · simp only [hd, Bool.not_true, Bool.false_eq_true, ↓reduceIte]
    cases hpk : p.cacheCoins.lookup k with
    | none =>
      -- the parent has no entry, so the child's is fresh and nothing lies below
      have hfr := hmiss hpk
      have hbelow : unspent (b.answers.getCoins k) = none := by simpa [hpk] using hfresh hfr
      by_cases hpr : e.coins.isPruned = true
      · refine ⟨none, by simp [hpr], by simp, ?_⟩
        rw [unspent_some_of_pruned hpr]
        exact hbelow
      · refine ⟨some { coins := e.coins, dirty := true, fresh := true }, by simp [hpr, hfr], ?_, rfl⟩
        rintro e' ⟨⟩
        exact ⟨fun h => absurd h (by simp), fun _ => hbelow, fun _ => rfl⟩
    | some pe =>
      by_cases hpr : pe.fresh = true ∧ e.coins.isPruned = true
      · refine ⟨none, by simp [hpr.1, hpr.2], by simp, ?_⟩
        rw [unspent_some_of_pruned hpr.2]
        exact hp.fresh hpk hpr.1
      · refine ⟨some { pe with coins := e.coins, dirty := true }, by simp [hpr], ?_, rfl⟩
        rintro e' ⟨⟩
        exact ⟨fun h => absurd h (by simp), @CacheLayer.Coherent.fresh _ _ _ hp _ pe hpk,
          @CacheLayer.Coherent.missing _ _ _ hp _ pe hpk⟩
  · -- a clean entry repeats the parent's answer, which stays
    rw [Bool.not_eq_true] at hd
    refine ⟨p.cacheCoins.lookup k, by simp [hd], fun e' he' => ?_, ?_⟩
    · exact ⟨hp.clean he', hp.fresh he', hp.missing he'⟩
    · rw [hclean hd]

private theorem mergeAnchors_spec {rt : Uint256} {e : CAnchorsCacheEntry} (he : l.cacheAnchors.lookup rt = some e) :
    ∃ r, mergeAnchors (p.cacheAnchors.lookup rt) e = .ok r ∧
      (∀ e', r = some e' → (e'.dirty = false → e'.entered = true ∧ b.answers.getAnchorAt rt = some e'.tree) ∧
        (e'.tree = e.tree ∨ ∃ pe, p.cacheAnchors.lookup rt = some pe ∧ e'.tree = pe.tree)) ∧
      ((∀ pe, p.cacheAnchors.lookup rt = some pe → pe.tree = e.tree) →
        (match r with
          | some e' => if e'.entered then some e'.tree else none
          | none => b.answers.getAnchorAt rt) = if e.entered then some e.tree else none) := by
  have hclean := hl.anchor he
  simp only [CCoinsView.answers, CacheLayer.answersOver] at hclean
  unfold mergeAnchors
  by_cases hd : e.dirty = true
  · simp only [hd, Bool.not_true, Bool.false_eq_true, ↓reduceIte]
    cases hpk : p.cacheAnchors.lookup rt with
    | none =>
      refine ⟨_, rfl, ?_, fun _ => rfl⟩
      rintro e' ⟨⟩
      exact ⟨fun h => absurd h (by simp), .inl rfl⟩
    | some pe =>
      by_cases hent : pe.entered = e.entered
      · refine ⟨some pe, by simp [hent], ?_, fun ht => ?_⟩
        · rintro e' ⟨⟩
          exact ⟨hp.anchor hpk, .inr ⟨pe, rfl, rfl⟩⟩
        · simp only [hent, ht pe rfl]
      · refine ⟨some { pe with entered := e.entered, dirty := true }, by simp [hent], ?_, fun ht => ?_⟩
        · rintro e' ⟨⟩
          exact ⟨fun h => absurd h (by simp), .inr ⟨pe, rfl, rfl⟩⟩
        · simp only [ht pe rfl]
  · rw [Bool.not_eq_true] at hd
    refine ⟨p.cacheAnchors.lookup rt, by simp [hd], fun e' he' => ⟨hp.anchor he', .inr ⟨e', he', rfl⟩⟩, fun _ => ?_⟩
    rw [(hclean hd).1, if_pos rfl]
    exact (hclean hd).2

private theorem mergeNullifiers_spec {n : Uint256} {e : CNullifiersCacheEntry} (he : l.cacheNullifiers.lookup n = some e) :
    ∃ r, mergeNullifiers (p.cacheNullifiers.lookup n) e = .ok r ∧
      (∀ e', r = some e' → e'.dirty = false → b.answers.getNullifier n = e'.entered) ∧
      (match r with
        | some e' => e'.entered
        | none => b.answers.getNullifier n) = e.entered := by
  have hclean := hl.nullifier he
  simp only [CCoinsView.answers, CacheLayer.answersOver] at hclean
  unfold mergeNullifiers
  by_cases hd : e.dirty = true
  · simp only [hd, Bool.not_true, Bool.false_eq_true, ↓reduceIte]
    cases hpk : p.cacheNullifiers.lookup n with
    | none =>
      refine ⟨_, rfl, ?_, rfl⟩
      rintro e' ⟨⟩ h
      cases h
    | some pe =>
      by_cases hent : pe.entered = e.entered
      · refine ⟨some pe, by simp [hent], ?_, hent⟩
        rintro e' ⟨⟩
        exact hp.nullifier hpk
      · refine ⟨some { pe with entered := e.entered, dirty := true }, by simp [hent], ?_, rfl⟩
        rintro e' ⟨⟩ h
        cases h
  · rw [Bool.not_eq_true] at hd
    exact ⟨p.cacheNullifiers.lookup n, by simp [hd], fun e' he' => hp.nullifier he', hclean hd⟩

end

end

structure SameAnswers (a a' : ViewAnswers) : Prop where
  coins : ∀ k, unspent (a.getCoins k) = unspent (a'.getCoins k)
  nullifiers : ∀ n, a.getNullifier n = a'.getNullifier n

variable {l : CacheLayer} {c c' : CCoinsViewCache} {P : Uint256 → ZCIncrementalMerkleTree → Prop}

theorem batchWrite_cache {p : CacheLayer} {b : CCoinsView} (hc : (CCoinsView.cache l (.cache p b)).Coherent) :
    ∃ p', (CCoinsView.cache p b).batchWrite l = .ok (.cache p' b) ∧ (CCoinsView.cache p' b).Coherent ∧
      p'.hashBlock = l.hashBlock ∧ p'.hashAnchor = l.hashAnchor ∧
      SameAnswers (CCoinsView.cache p' b).answers (CCoinsView.cache l (.cache p b)).answers ∧
      ∀ P, (CCoinsView.cache l (.cache p b)).Anchored P → (CCoinsView.cache p' b).Anchored P ∧
        (OneTree P → ∀ rt, (CCoinsView.cache p' b).answers.getAnchorAt rt =
          (CCoinsView.cache l (.cache p b)).answers.getAnchorAt rt) := by
  obtain ⟨hl, hp, hb⟩ := hc
  obtain ⟨coins, hcoins, hcoin⟩ := KeyMap.merge_spec _ fun _ _ he => mergeCoins_spec hl hp he
  obtain ⟨anchors, hanchors, hanc⟩ := KeyMap.merge_spec _ fun _ _ he => mergeAnchors_spec hl hp he
  obtain ⟨nullifiers, hnulls, hnull⟩ := KeyMap.merge_spec _ fun _ _ he => mergeNullifiers_spec hl hp he
  refine ⟨⟨coins, l.hashBlock, anchors, l.hashAnchor, nullifiers⟩, ?_, ⟨⟨?_, ?_, ?_, ?_, ?_⟩, hb⟩, rfl, rfl,
    ⟨fun k => ?_, fun n => ?_⟩, fun P hP => ?_⟩
  · simp only [CCoinsView.batchWrite, hcoins, hanchors, hnulls]
    rfl
  · intro k e he hd
    rcases hcoin k with ⟨-, hk⟩ | ⟨v, -, hk, -⟩
    · exact hp.clean (hk ▸ he) hd
    · exact (hk e he).1 hd
  · intro k e he hfr
    rcases hcoin k with ⟨-, hk⟩ | ⟨v, -, hk, -⟩
    · exact hp.fresh (hk ▸ he) hfr
    · exact (hk e he).2.1 hfr
  · intro k e he hla
    rcases hcoin k with ⟨-, hk⟩ | ⟨v, -, hk, -⟩
    · exact hp.missing (hk ▸ he) hla
    · exact (hk e he).2.2 hla
  · intro rt e he hd
    rcases hanc rt with ⟨-, hk⟩ | ⟨v, -, hk, -⟩
    · exact hp.anchor (hk ▸ he) hd
    · exact (hk e he).1 hd
  · intro n e he hd
    rcases hnull n with ⟨-, hk⟩ | ⟨v, -, hk, -⟩
    · exact hp.nullifier (hk ▸ he) hd
    · exact hk e he hd
  · simp only [CCoinsView.answers, CacheLayer.answersOver]
    rcases hcoin k with ⟨hlk, hk⟩ | ⟨v, hlk, -, hk⟩
    · rw [hlk, hk]
    · rw [hlk, ← hk]
      cases coins.lookup k <;> rfl
  · simp only [CCoinsView.answers, CacheLayer.answersOver]
    rcases hnull n with ⟨hlk, hk⟩ | ⟨v, hlk, -, hk⟩
    · rw [hlk, hk]
    · rw [hlk]
      exact hk
  · refine ⟨⟨fun rt e he => ?_, hP.2.2⟩, fun hone rt => ?_⟩
    · rcases hanc rt with ⟨-, hk⟩ | ⟨v, hlk, hk, -⟩
      · exact hP.2.1 rt e (hk ▸ he)
      · rcases (hk e he).2 with ht | ⟨pe, hpe, ht⟩
        · exact ht ▸ hP.1 rt v hlk
        · exact ht ▸ hP.2.1 rt pe hpe
    · simp only [CCoinsView.answers, CacheLayer.answersOver]
      rcases hanc rt with ⟨hlk, hk⟩ | ⟨v, hlk, -, hk⟩
      · rw [hlk, hk]
      · rw [hlk]
        exact hk fun pe hpe => hone rt _ _ (hP.2.1 rt pe hpe) (hP.1 rt v hlk)

theorem batchWrite_db {d : CCoinsViewDB} (hc : (CCoinsView.cache l (.db d)).Coherent) :
    ∃ d', (CCoinsView.db d).batchWrite l = .ok (.db d') ∧
      SameAnswers d'.answers (CCoinsView.cache l (.db d)).answers ∧
      d'.answers.getBestBlock = (CCoinsView.cache l (.db d)).answers.getBestBlock ∧
      d'.answers.getBestAnchor = (CCoinsView.cache l (.db d)).answers.getBestAnchor ∧
      (∀ rt, rt ≠ emptyRoot Uint256 INCREMENTAL_MERKLE_TREE_DEPTH →
        d'.getAnchorAt rt = (CCoinsView.cache l (.db d)).answers.getAnchorAt rt) ∧
      ∀ P, (CCoinsView.cache l (.db d)).Anchored P → (CCoinsView.db d').Anchored P := by
  obtain ⟨hl, -⟩ := hc
  obtain ⟨coins, hcoins, hcoin⟩ := @KeyMap.merge_spec _ _ _ _ _ writeCoins
    (fun k e r => unspent r = unspent (some e.coins)) d.coins l.cacheCoins fun k e he => by
      refine ⟨_, rfl, ?_⟩
      by_cases hd : e.dirty = true
      · by_cases hpr : e.coins.isPruned = true
        · simp [hd, hpr, unspent_some_of_pruned]
        · simp [hd, hpr]
      · have := hl.clean he (by simpa using hd)
        simp only [hd, Bool.false_eq_true, ↓reduceIte]
        exact congrArg unspent this
  obtain ⟨anchors, hanchors, hanc⟩ := @KeyMap.merge_spec _ _ _ _ _ writeAnchor
    (fun rt e r => (rt ≠ emptyRoot Uint256 INCREMENTAL_MERKLE_TREE_DEPTH → r = if e.entered then some e.tree else none) ∧
      ∀ t, r = some t → t = e.tree ∨ d.anchors.lookup rt = some t) d.anchors l.cacheAnchors fun rt e he => by
      refine ⟨_, rfl, fun hrt => ?_, fun t ht => ?_⟩
      · by_cases hd : e.dirty = true
        · simp [hd]
        · have := hl.anchor he (by simpa using hd)
          simp only [CCoinsView.answers, CCoinsViewDB.answers, CCoinsViewDB.getAnchorAt, if_neg hrt] at this
          simp [hd, this]
      · split at ht
        · split at ht
          · exact .inl (Option.some.inj ht).symm
          · cases ht
        · exact .inr ht
  obtain ⟨nullifiers, hnulls, hnull⟩ := @KeyMap.merge_spec _ _ _ _ _ writeNullifier
    (fun n e r => r.isSome = e.entered) d.nullifiers l.cacheNullifiers fun n e he => by
      refine ⟨_, rfl, ?_⟩
      by_cases hd : e.dirty = true
      · by_cases hent : e.entered = true <;> simp [hd, hent]
      · have := hl.nullifier he (by simpa using hd)
        simp only [hd, Bool.false_eq_true, ↓reduceIte]
        exact this
  refine ⟨⟨coins, anchors, nullifiers, l.hashBlock <|> d.bestBlock, l.hashAnchor <|> d.bestAnchor⟩, ?_,
    ⟨fun k => ?_, fun n => ?_⟩, rfl, ?_, fun rt hrt => ?_, fun P hP rt t ht => ?_⟩
  · simp only [CCoinsView.batchWrite, hcoins, hanchors, hnulls]
    rfl
  · simp only [CCoinsView.answers, CacheLayer.answersOver, CCoinsViewDB.answers]
    rcases hcoin k with ⟨hlk, hk⟩ | ⟨v, hlk, hk⟩
    · rw [hlk, hk]
    · rw [hlk, hk]
  · simp only [CCoinsView.answers, CacheLayer.answersOver, CCoinsViewDB.answers]
    rcases hnull n with ⟨hlk, hk⟩ | ⟨v, hlk, hk⟩
    · rw [hlk, hk]
    · rw [hlk, hk]
  · simp only [CCoinsView.answers, CacheLayer.answersOver, CCoinsViewDB.answers, CCoinsViewDB.getBestAnchor]
    cases l.hashAnchor <;> rfl
  · simp only [CCoinsView.answers, CacheLayer.answersOver, CCoinsViewDB.answers, CCoinsViewDB.getAnchorAt, if_neg hrt]
    rcases hanc rt with ⟨hlk, hk⟩ | ⟨v, hlk, hk, -⟩
    · rw [hlk, hk]
    · rw [hlk]
      exact hk hrt
  · by_cases hrt : rt = emptyRoot Uint256 INCREMENTAL_MERKLE_TREE_DEPTH
    · simp only [CCoinsViewDB.getAnchorAt, if_pos hrt] at ht
      exact hP.2 rt t (by simpa only [CCoinsViewDB.getAnchorAt, if_pos hrt] using ht)
    · simp only [CCoinsViewDB.getAnchorAt, if_neg hrt] at ht
      have hdb : d.anchors.lookup rt = some t → P rt t := fun h =>
        hP.2 rt t (by simpa only [CCoinsViewDB.getAnchorAt, if_neg hrt] using h)
      rcases hanc rt with ⟨-, hk⟩ | ⟨v, hlk, -, hk⟩
      · exact hdb (hk ▸ ht)
      · rcases hk t ht with rfl | h
        · exact hP.1 rt v hlk
        · exact hdb h

/-! ### Stacks in use -/

/-- The operations on a cache. -/
inductive CacheOp where
  | accessCoins (txid : Uint256)
  | haveCoins (txid : Uint256)
  | modifyCoins (txid : Uint256) (modify : CCoins → CCoins)
  | getAnchorAt (rt : Uint256)
  | pushAnchor (tree : ZCIncrementalMerkleTree)
  | popAnchor (newrt : Option Uint256)
  | getNullifier (nullifier : Uint256)
  | setNullifier (nullifier : Uint256) (spent : Bool)
  | getBestBlock
  | getBestAnchor
  | setBestBlock (hashBlock : Option Uint256)

namespace CCoinsViewCache

def exec (c : CCoinsViewCache) : CacheOp → Except Fault CCoinsViewCache
  | .accessCoins txid => .ok (c.accessCoins txid).2
  | .haveCoins txid => .ok (c.haveCoins txid).2
  | .modifyCoins txid modify => (c.modifyCoins txid fun coins => .ok ((), modify coins)).map Prod.snd
  | .getAnchorAt rt => .ok (c.getAnchorAt rt).2
  | .pushAnchor tree => .ok (c.pushAnchor tree)
  | .popAnchor newrt => c.popAnchor newrt
  | .getNullifier nullifier => .ok (c.getNullifier nullifier).2
  | .setNullifier nullifier spent => .ok (c.setNullifier nullifier spent)
  | .getBestBlock => .ok c.getBestBlock.2
  | .getBestAnchor => .ok c.getBestAnchor.2
  | .setBestBlock hashBlock => .ok (c.setBestBlock hashBlock)

end CCoinsViewCache

/-- A pushed tree stands for its root. -/
def CacheOp.Pushes (P : Uint256 → ZCIncrementalMerkleTree → Prop) : CacheOp → Prop
  | .pushAnchor tree => P tree.root tree
  | _ => True

theorem CCoinsViewCache.exec_coherent {op : CacheOp} (hc : c.toView.Coherent) (h : c.exec op = .ok c') :
    c'.toView.Coherent ∧ ∀ P, op.Pushes P → c.toView.Anchored P → c'.toView.Anchored P := by
  have hread : ∀ {v}, Filled c.toView v → v.Coherent ∧ ∀ P, True → c.toView.Anchored P → v.Anchored P :=
    fun hf => ⟨hf.coherent hc, fun P _ hP => hf.anchored hP⟩
  cases op with
  | accessCoins txid =>
    cases h
    exact hread (c.accessCoins_reads txid).2
  | haveCoins txid =>
    cases h
    exact hread (c.haveCoins_reads txid).2
  | modifyCoins txid modify =>
    simp only [exec] at h
    cases hm : c.modifyCoins txid fun coins => .ok ((), modify coins) with
    | error e =>
      rw [hm] at h
      cases h
    | ok r =>
      rw [hm] at h
      cases h
      obtain ⟨-, -, h1, h2, -⟩ := modifyCoins_ok hc hm
      exact ⟨h1, fun P _ => h2 P⟩
  | getAnchorAt rt =>
    cases h
    exact hread (c.getAnchorAt_reads rt).2
  | pushAnchor tree =>
    cases h
    obtain ⟨h1, h2, -⟩ := pushAnchor_ok hc tree
    exact ⟨h1, h2⟩
  | popAnchor newrt =>
    have hs := popAnchor_spec hc newrt
    rw [show c.popAnchor newrt = .ok c' from h] at hs
    split at hs
    · rcases hs with ⟨-, hs⟩ | ⟨-, c'', best, hs, h1, h2, -⟩
      · cases hs
      · cases hs
        exact ⟨h1, fun P _ => h2 P⟩
    · obtain ⟨c'', hs, hf⟩ := hs
      cases hs
      exact hread hf
  | getNullifier nullifier =>
    cases h
    exact hread (c.getNullifier_reads nullifier).2
  | setNullifier nullifier spent =>
    cases h
    obtain ⟨h1, h2, -⟩ := setNullifier_ok hc nullifier spent
    exact ⟨h1, fun P _ => h2 P⟩
  | getBestBlock =>
    cases h
    exact hread c.getBestBlock_reads.2
  | getBestAnchor =>
    cases h
    exact hread c.getBestAnchor_reads.2
  | setBestBlock hashBlock =>
    cases h
    exact ⟨⟨⟨hc.1.clean, hc.1.fresh, hc.1.missing, hc.1.anchor, hc.1.nullifier⟩, hc.2⟩, fun P _ hP => hP⟩

/-- A layer that holds no entries: new, or flushed. -/
def CacheLayer.NoEntries (l : CacheLayer) : Prop :=
  l.cacheCoins = ∅ ∧ l.cacheAnchors = ∅ ∧ l.cacheNullifiers = ∅

theorem CacheLayer.NoEntries.coherent (h : l.NoEntries) (v : CCoinsView) : l.Coherent v := by
  obtain ⟨h1, h2, h3⟩ := h
  constructor
  all_goals
    intro k e he
    simp [h1, h2, h3] at he

omit [MerkleHash Uint256] in
theorem CacheLayer.NoEntries.anchored (h : l.NoEntries) (P : Uint256 → ZCIncrementalMerkleTree → Prop) (rt : Uint256)
    (e : CAnchorsCacheEntry) (he : l.cacheAnchors.lookup rt = some e) : P rt e.tree := by
  simp [h.2.1] at he

/-- The stacks of caches over the database or any other view, where a cache is used only while the caches above it
hold no entries, and where the trees pushed, or answered by the view at the bottom, stand for their roots. -/
inductive Reachable (P : Uint256 → ZCIncrementalMerkleTree → Prop) : CCoinsView → Prop where
  | other {a : ViewAnswers} : (∀ rt t, a.getAnchorAt rt = some t → P rt t) → Reachable P (.other a)
  | db {d : CCoinsViewDB} : (∀ rt t, d.getAnchorAt rt = some t → P rt t) → Reachable P (.db d)
  /-- A cache without entries is set up over a stack, or the stack was used under it. -/
  | cache {l : CacheLayer} {v : CCoinsView} : l.NoEntries → Reachable P v → Reachable P (.cache l v)
  | op {c c' : CCoinsViewCache} {op : CacheOp} :
      Reachable P c.toView → op.Pushes P → c.exec op = .ok c' → Reachable P c'.toView
  | flush {c c' : CCoinsViewCache} : Reachable P c.toView → c.flush = .ok c' → Reachable P c'.toView
  /-- The top cache is destroyed. -/
  | base {l : CacheLayer} {v : CCoinsView} : Reachable P (.cache l v) → Reachable P v

omit [MerkleHash Uint256] in
theorem flush_ok (h : c.flush = .ok c') :
    ∃ v, c.base.batchWrite c.layer = .ok v ∧ c'.layer.NoEntries ∧ c'.base = v := by
  simp only [CCoinsViewCache.flush] at h
  cases hb : c.base.batchWrite c.layer with
  | error e =>
    rw [hb] at h
    cases h
  | ok v =>
    rw [hb] at h
    cases h
    exact ⟨v, rfl, ⟨rfl, rfl, rfl⟩, rfl⟩

theorem batchWrite_coherent {v v' : CCoinsView} (hc : (CCoinsView.cache l v).Coherent) (h : v.batchWrite l = .ok v') :
    v'.Coherent ∧ ∀ P, (CCoinsView.cache l v).Anchored P → v'.Anchored P := by
  cases v with
  | other a => cases h
  | db d =>
    obtain ⟨d', hd, -, -, -, -, hP⟩ := batchWrite_db hc
    cases hd.symm.trans h
    exact ⟨trivial, hP⟩
  | cache p b =>
    obtain ⟨p', hp, hcoh, -, -, -, hP⟩ := batchWrite_cache hc
    cases hp.symm.trans h
    exact ⟨hcoh, fun P h => (hP P h).1⟩

theorem Reachable.coherent {v : CCoinsView} (h : Reachable P v) :
    v.Coherent ∧ v.Anchored P := by
  induction h with
  | other ha => exact ⟨trivial, ha⟩
  | db hd => exact ⟨trivial, hd⟩
  | cache hl _ ih => exact ⟨⟨hl.coherent _, ih.1⟩, hl.anchored P, ih.2⟩
  | op _ hP hx ih =>
    obtain ⟨h1, h2⟩ := CCoinsViewCache.exec_coherent ih.1 hx
    exact ⟨h1, h2 P hP ih.2⟩
  | @flush c c' _ hf ih =>
    obtain ⟨v, hb, hl, rfl⟩ := flush_ok hf
    obtain ⟨h1, h2⟩ := batchWrite_coherent ih.1 hb
    exact ⟨⟨hl.coherent _, h1⟩, hl.anchored P, h2 P ih.2⟩
  | base _ ih => exact ⟨ih.1.2, ih.2.2⟩

/-! ### Transparency -/

/-- The view `base` answers the queries as `top` does.  The database answers the empty root with the empty tree,
whatever is written to it. -/
structure Transparent (base top : CCoinsView) : Prop where
  coins : ∀ txid, unspent (base.getCoins txid).1 = unspent (top.getCoins txid).1
  nullifiers : ∀ nullifier, (base.getNullifier nullifier).1 = (top.getNullifier nullifier).1
  anchors : ∀ rt, ((∃ d, base = .db d) → rt ≠ emptyRoot Uint256 INCREMENTAL_MERKLE_TREE_DEPTH) →
    (base.getAnchorAt rt).1 = (top.getAnchorAt rt).1
  emptyAnchor : (∃ d, base = .db d) →
    (base.getAnchorAt (emptyRoot Uint256 INCREMENTAL_MERKLE_TREE_DEPTH)).1 = some {}

private theorem transparent_of_answers {base top : CCoinsView} (hs : SameAnswers base.answers top.answers)
    (ha : ∀ rt, ((∃ d, base = .db d) → rt ≠ emptyRoot Uint256 INCREMENTAL_MERKLE_TREE_DEPTH) →
      base.answers.getAnchorAt rt = top.answers.getAnchorAt rt) : Transparent base top where
  coins k := by
    rw [(base.getCoins_reads k).value, (top.getCoins_reads k).value]
    exact hs.coins k
  nullifiers n := by
    rw [(base.getNullifier_reads n).value, (top.getNullifier_reads n).value]
    exact hs.nullifiers n
  anchors rt hrt := by
    rw [(base.getAnchorAt_reads rt).value, (top.getAnchorAt_reads rt).value]
    exact ha rt hrt
  emptyAnchor := by
    rintro ⟨d, rfl⟩
    simp [CCoinsView.getAnchorAt, CCoinsViewDB.getAnchorAt]

/-- `n` caches over the database. -/
def CCoinsView.OverDB : Nat → CCoinsView → Prop
  | 0, .db _ => True
  | n + 1, .cache _ base => base.OverDB n
  | _, _ => False

def CCoinsView.flushAll : Nat → CCoinsView → Except Fault CCoinsView
  | n + 1, .cache l base => do
    let base ← base.batchWrite l
    base.flushAll n
  | _, v => .ok v

theorem flushAll_answers (hone : OneTree P) (n : Nat) {b : CCoinsView} (hn : b.OverDB n)
    (hc : (CCoinsView.cache l b).Coherent) (hP : (CCoinsView.cache l b).Anchored P) :
    ∃ d, (CCoinsView.cache l b).flushAll (n + 1) = .ok (.db d) ∧
      SameAnswers d.answers (CCoinsView.cache l b).answers ∧
      ∀ rt, rt ≠ emptyRoot Uint256 INCREMENTAL_MERKLE_TREE_DEPTH →
        d.getAnchorAt rt = (CCoinsView.cache l b).answers.getAnchorAt rt := by
  induction n generalizing l b with
  | zero =>
    cases b with
    | db d =>
      obtain ⟨d', hd, hs, -, -, ha, -⟩ := batchWrite_db hc
      refine ⟨d', ?_, hs, ha⟩
      simp only [CCoinsView.flushAll, hd]
      rfl
    | other a => cases hn
    | cache p b => cases hn
  | succ n ih =>
    cases b with
    | cache p b =>
      obtain ⟨p', hp, hcoh, -, -, hs, ha⟩ := batchWrite_cache hc
      obtain ⟨d, hd, hs', ha'⟩ := ih hn hcoh (ha P hP).1
      refine ⟨d, ?_, ⟨fun k => (hs'.coins k).trans (hs.coins k), fun k => (hs'.nullifiers k).trans (hs.nullifiers k)⟩,
        fun rt hrt => (ha' rt hrt).trans ((ha P hP).2 hone rt)⟩
      rw [CCoinsView.flushAll, hp]
      exact hd
    | other a => cases hn
    | db d => cases hn

/-- In every stack of caches in use, whose trees are determined by their roots, a flush of the top cache succeeds and
its base then answers as the cache did; flushing all caches succeeds and the database then answers as the top one
did. -/
theorem flush_transparent (Known : ZCIncrementalMerkleTree → Prop)
    (hroot : ∀ t t', Known t → Known t' → t.root = t'.root → t = t') {c : CCoinsViewCache}
    (h : Reachable (fun rt t => t.root = rt ∧ Known t) c.toView) :
    ((∀ a, c.base ≠ .other a) → ∃ c', c.flush = .ok c' ∧ Transparent c'.base c.toView) ∧
      ∀ n, c.base.OverDB n → ∃ d, c.toView.flushAll (n + 1) = .ok (.db d) ∧ Transparent (.db d) c.toView := by
  have hone : OneTree fun rt t => t.root = rt ∧ Known t :=
    fun rt t t' ht ht' => hroot t t' ht.2 ht'.2 (ht.1.trans ht'.1.symm)
  obtain ⟨hc, hP⟩ := h.coherent
  refine ⟨fun hbase => ?_, fun n hn => ?_⟩
  · obtain ⟨l, b⟩ := c
    cases b with
    | other a => exact absurd rfl (hbase a)
    | db d =>
      obtain ⟨d', hd, hs, -, -, ha, -⟩ := batchWrite_db hc
      refine ⟨⟨{ hashBlock := l.hashBlock, hashAnchor := l.hashAnchor }, .db d'⟩, ?_, ?_⟩
      · simp only [CCoinsViewCache.flush, hd]
        rfl
      · exact transparent_of_answers hs fun rt hrt => ha rt (hrt ⟨d', rfl⟩)
    | cache p b =>
      obtain ⟨p', hp, -, -, -, hs, ha⟩ := batchWrite_cache hc
      refine ⟨⟨{ hashBlock := l.hashBlock, hashAnchor := l.hashAnchor }, .cache p' b⟩, ?_, ?_⟩
      · simp only [CCoinsViewCache.flush, hp]
        rfl
      · exact transparent_of_answers hs fun rt _ => (ha _ hP).2 hone rt
  · obtain ⟨d, hd, hs, ha⟩ := flushAll_answers hone n hn hc hP
    exact ⟨d, hd, transparent_of_answers hs fun rt hrt => ha rt (hrt ⟨d, rfl⟩)⟩

/-- A hash for small stacks: the root of a tree is its first leaf plus its depth. -/
@[reducible] def leftHash : MerkleHash Uint256 where
  null := 0
  combine a _ := a + 1
  bytes _ := []

omit [MerkleHash Uint256] in
theorem flush_transparent_one_coin :
    letI := leftHash
    ∃ c c' : CCoinsViewCache,
      CCoinsViewCache.exec ⟨{}, .cache {} (.db {})⟩ (.modifyCoins 7 fun _ => { vout := [⟨5, []⟩] }) = .ok c ∧
      c.flush = .ok c' ∧ Transparent c'.base c.toView := by
  let _ := leftHash
  have hempty : emptyRoot Uint256 INCREMENTAL_MERKLE_TREE_DEPTH = ({} : ZCIncrementalMerkleTree).root := by
    decide +kernel
  have hdb : Reachable (fun rt t => t.root = rt ∧ t = {}) (.db {}) := by
    refine .db fun rt t ht => ?_
    simp only [CCoinsViewDB.getAnchorAt] at ht
    split at ht
    · rename_i hrt
      cases ht
      exact ⟨hempty.symm.trans hrt.symm, rfl⟩
    · simp at ht
  have hstack : Reachable (fun rt t => t.root = rt ∧ t = {}) (.cache {} (.cache {} (.db {}))) :=
    .cache ⟨rfl, rfl, rfl⟩ (.cache ⟨rfl, rfl, rfl⟩ hdb)
  have hop := @Reachable.op _ _ ⟨{}, .cache {} (.db {})⟩ _ (.modifyCoins 7 fun _ => { vout := [⟨5, []⟩] }) hstack
    trivial rfl
  obtain ⟨c', hf, ht⟩ := (flush_transparent (· = {}) (fun t t' h h' _ => h.trans h'.symm) hop).1 (by rintro a ⟨⟩)
  exact ⟨_, c', rfl, hf, ht⟩

/-- The answers about an anchor of a cache after some operations and of its base after a flush. -/
def anchorAroundFlush (c : CCoinsViewCache) (ops : List CacheOp) (rt : Uint256) :
    Except Fault (Option ZCIncrementalMerkleTree × Option ZCIncrementalMerkleTree) := do
  let c ← ops.foldlM CCoinsViewCache.exec c
  let c' ← c.flush
  pure ((c.toView.getAnchorAt rt).1, (c'.base.getAnchorAt rt).1)

/-- A view that answers the root 30 with a tree of root 31. -/
def wrongTreeAt30 : ViewAnswers where
  getCoins _ := none
  getAnchorAt rt := if rt = 30 then some { left := some 2 } else none
  getNullifier _ := false
  getBestBlock := none
  getBestAnchor := none

omit [MerkleHash Uint256] in
/-- Two ways to different answers: the parent keeps the tree that the view at the bottom gave for another root, and
the database answers the empty root after it was popped. -/
theorem flush_not_transparent :
    letI := leftHash
    (({ left := some 1 } : ZCIncrementalMerkleTree).root = 30 ∧ ({ left := some 2 } : ZCIncrementalMerkleTree).root = 31 ∧
      anchorAroundFlush ⟨{}, .cache {} (.other wrongTreeAt30)⟩ [.getAnchorAt 30, .pushAnchor { left := some 1 }] 30 =
        .ok (some { left := some 1 }, some { left := some 2 })) ∧
    (emptyRoot Uint256 INCREMENTAL_MERKLE_TREE_DEPTH = 29 ∧
      anchorAroundFlush ⟨{}, .db {}⟩ [.popAnchor (some 30)] 29 = .ok (none, some {})) := by
  decide +kernel

end LitecoinZ
