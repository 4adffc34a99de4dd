import LitecoinZ.Coins.Transparency
import LitecoinZ.Lib.Simulation

/-!
# Flushing the best pointers

A null best pointer of a cache means that its base is to be asked.  `CCoinsViewDB::BatchWrite` keeps its own pointer
where the flushed one is null; `CCoinsViewCache::BatchWrite` takes the null over and so forgets a pointer that the
parent had not flushed itself.  `flush_best_iff` says when a flush keeps the answers.
-/

namespace LitecoinZ

private theorem batchWrite_pointers {l : CacheLayer} {b v : CCoinsView} (h : b.batchWrite l = .ok v) :
    (∃ p b' p', b = .cache p b' ∧ v = .cache p' b' ∧ p'.hashBlock = l.hashBlock ∧ p'.hashAnchor = l.hashAnchor) ∨
    ∃ d d', b = .db d ∧ v = .db d' ∧ d'.bestBlock = (l.hashBlock <|> d.bestBlock) ∧
      d'.bestAnchor = (l.hashAnchor <|> d.bestAnchor) := by
  cases b with
  | other a => cases h
  | db d =>
    simp only [CCoinsView.batchWrite, StateExcept.except_bind_ok] at h
    obtain ⟨coins, -, anchors, -, nullifiers, -, h⟩ := h
    cases h
    exact Or.inr ⟨d, _, rfl, rfl, rfl, rfl⟩
  | cache p b =>
    simp only [CCoinsView.batchWrite, StateExcept.except_bind_ok] at h
    obtain ⟨coins, -, anchors, -, nullifiers, -, h⟩ := h
    cases h
    exact Or.inl ⟨p, b, _, rfl, rfl, rfl, rfl⟩

private theorem pointer_iff (own parent base : Option Uint256) :
    (own <|> base) = (own <|> parent <|> base) ↔ own ≠ none ∨ (parent <|> base) = base := by
  cases own <;> simp [eq_comm]

variable {c c' : CCoinsViewCache}

/-- The database under a cache stays, and so does a best anchor that the cache holds. -/
structure KeepsPointer (c c' : CCoinsViewCache) : Prop where
  base : ∀ d, c.base = .db d → c'.base = .db d
  pointer : c.layer.hashAnchor ≠ none → c'.layer.hashAnchor ≠ none

theorem KeepsPointer.trans {c'' : CCoinsViewCache} (h : KeepsPointer c c') (h' : KeepsPointer c' c'') :
    KeepsPointer c c'' := ⟨fun d hd => h'.base d (h.base d hd), fun hp => h'.pointer (h.pointer hp)⟩

private theorem through_keepsPointer {α : Type} {hit : Option α} {ask : α × CCoinsView} {store : α → CacheLayer}
    (hask : ∀ d, c.base = .db d → ask.2 = .db d)
    (hstore : hit = none → ∀ a, c.layer.hashAnchor ≠ none → (store a).hashAnchor ≠ none) :
    KeepsPointer c (CCoinsViewCache.ofRead (c.layer.through c.base hit ask store)).2 := by
  cases hit with
  | some a => exact ⟨fun _ h => h, fun h => h⟩
  | none => exact ⟨hask, hstore rfl _⟩

variable [MerkleHash Uint256]

/-- The view under a cache; a view that is no cache has nothing under it. -/
def CCoinsView.underlying : CCoinsView → CCoinsView
  | .cache _ base => base
  | v => v

/-- After a flush the base answers `GetBestBlock` as the cache did exactly when the cache held a best block itself or
the base had none but its own base's; and so for `GetBestAnchor`. -/
theorem flush_best_iff {c c' : CCoinsViewCache} (h : c.flush = .ok c') :
    (c'.base.getBestBlock.1 = c.getBestBlock.1 ↔
      c.layer.hashBlock ≠ none ∨ c.base.getBestBlock.1 = c.base.underlying.getBestBlock.1) ∧
    (c'.base.getBestAnchor.1 = c.getBestAnchor.1 ↔
      c.layer.hashAnchor ≠ none ∨ c.base.getBestAnchor.1 = c.base.underlying.getBestAnchor.1) := by
  obtain ⟨v, hb, -, rfl⟩ := flush_ok h
  rw [c.getBestBlock_reads.1, c.getBestAnchor_reads.1]
  simp only [(CCoinsView.getBestBlock_reads _).value, (CCoinsView.getBestAnchor_reads _).value]
  obtain ⟨l, b⟩ := c
  rcases batchWrite_pointers hb with ⟨p, b', p', rfl, hv, hblock, hanc⟩ | ⟨d, d', rfl, hv, hblock, hanc⟩
  · simp only [hv, CCoinsViewCache.answers, CCoinsViewCache.toView, CCoinsView.answers, CacheLayer.answersOver,
      CCoinsView.underlying, hblock, hanc]
    exact ⟨pointer_iff _ _ _, pointer_iff _ _ _⟩
  · -- the database has no base of its own, and loses nothing
    simp only [hv, CCoinsViewCache.answers, CCoinsViewCache.toView, CCoinsView.answers, CacheLayer.answersOver,
      CCoinsView.underlying, CCoinsViewDB.answers, CCoinsViewDB.getBestAnchor, hblock, hanc, or_true, iff_true,
      true_and]
    cases l.hashAnchor <;> rfl

omit [MerkleHash Uint256] in
theorem flush_best_iff_new_cache :
    letI := leftHash
    ∃ c' : CCoinsViewCache, CCoinsViewCache.flush ⟨{ hashBlock := some 3 }, .cache { hashBlock := some 1 } (.db {})⟩ =
        .ok c' ∧
      (c'.base.getBestBlock.1 = some 3 ↔ (some 3 : Option Uint256) ≠ none ∨ some (1 : Uint256) = none) := by
  let _ := leftHash
  have h : CCoinsViewCache.flush ⟨{ hashBlock := some 3 }, .cache { hashBlock := some 1 } (.db {})⟩ = .ok _ := rfl
  exact ⟨_, h, (flush_best_iff h).1⟩

omit [MerkleHash Uint256] in
/-- A parent with a best block and a best anchor that its base does not have, and a new cache over it that is flushed
at once: the parent forgets both. -/
theorem flush_forgets_best_pointers :
    letI := leftHash
    let c : CCoinsViewCache := ⟨{}, .cache { hashBlock := some 1, hashAnchor := some 30 } (.db { bestBlock := some 2 })⟩
    c.getBestBlock.1 = some 1 ∧ c.getBestAnchor.1 = some 30 ∧
      c.flush.map (fun c' => (c'.base.getBestBlock.1, c'.base.getBestAnchor.1)) = .ok (some 2, some 29) := by
  decide +kernel

/-- The operations that ask a cache something. -/
def CacheOp.isRead : CacheOp → Bool
  | .accessCoins _ | .haveCoins _ | .getAnchorAt _ | .getNullifier _ | .getBestBlock | .getBestAnchor => true
  | _ => false

theorem exec_isRead {op : CacheOp} (hop : op.isRead = true) (h : c.exec op = .ok c') :
    Filled c.toView c'.toView := by
  cases op with
  | accessCoins txid => cases h; exact (c.accessCoins_reads txid).2
  | haveCoins txid => cases h; exact (c.haveCoins_reads txid).2
  | getAnchorAt rt => cases h; exact (c.getAnchorAt_reads rt).2
  | getNullifier nullifier => cases h; exact (c.getNullifier_reads nullifier).2
  | getBestBlock => cases h; exact c.getBestBlock_reads.2
  | getBestAnchor => cases h; exact c.getBestAnchor_reads.2
  | _ => cases hop

/-! ### Which operations keep a best anchor -/

namespace CCoinsViewCache

variable {c c' : CCoinsViewCache}

theorem getBestAnchor_stored (h : c.getBestAnchor.1 ≠ none) :
    c.getBestAnchor.2.layer.hashAnchor ≠ none := by
  unfold getBestAnchor at h ⊢
  unfold CacheLayer.getBestAnchor CacheLayer.through at h ⊢
  cases hp : c.layer.hashAnchor with
  | some rt =>
    simp only [hp, Option.map_some, ofRead]
    exact fun h => by cases h
  | none =>
    simp only [hp, Option.map_none, ofRead] at h ⊢
    exact h

section

variable (c : CCoinsViewCache)

omit [MerkleHash Uint256] in
theorem accessCoins_keepsPointer (txid : Uint256) : KeepsPointer c (c.accessCoins txid).2 := by
  refine through_keepsPointer (fun d hd => by rw [hd]; rfl) fun _ a h => ?_
  cases a <;> exact h

theorem getAnchorAt_keepsPointer (rt : Uint256) : KeepsPointer c (c.getAnchorAt rt).2 := by
  refine through_keepsPointer (fun d hd => by rw [hd]; rfl) fun _ a h => ?_
  cases a <;> exact h

omit [MerkleHash Uint256] in
theorem getNullifier_keepsPointer (nf : Uint256) : KeepsPointer c (c.getNullifier nf).2 :=
  through_keepsPointer (fun d hd => by rw [hd]; rfl) fun _ _ h => h

omit [MerkleHash Uint256] in
theorem getBestBlock_keepsPointer : KeepsPointer c c.getBestBlock.2 :=
  through_keepsPointer (fun d hd => by rw [hd]; rfl) fun _ _ h => h

theorem getBestAnchor_keepsPointer : KeepsPointer c c.getBestAnchor.2 :=
  through_keepsPointer (fun d hd => by rw [hd]; rfl) fun hnone _ h => absurd (Option.map_eq_none_iff.1 hnone) h

theorem pushAnchor_pointer (tree : ZCIncrementalMerkleTree) : (c.pushAnchor tree).layer.hashAnchor ≠ none := by
  unfold pushAnchor
  dsimp only
  split
  · exact fun h => by cases h
  · rename_i heq
    exact getBestAnchor_stored (by rw [not_not.1 heq]; exact fun h => by cases h)

end

theorem exec_keepsPointer {op : CacheOp} (hop : op.isRead = true) (h : c.exec op = .ok c') :
    KeepsPointer c c' := by
  cases op with
  | accessCoins txid => cases h; exact c.accessCoins_keepsPointer txid
  | haveCoins txid => cases h; exact c.accessCoins_keepsPointer txid
  | getAnchorAt rt => cases h; exact c.getAnchorAt_keepsPointer rt
  | getNullifier nullifier => cases h; exact c.getNullifier_keepsPointer nullifier
  | getBestBlock => cases h; exact c.getBestBlock_keepsPointer
  | getBestAnchor => cases h; exact c.getBestAnchor_keepsPointer
  | _ => cases hop

theorem popAnchor_pointer {rt : Uint256} (h : c.popAnchor (some rt) = .ok c') :
    c'.layer.hashAnchor ≠ none := by
  unfold popAnchor at h
  dsimp only at h
  split at h
  · split at h
    · cases h
    · cases h
      exact fun h => by cases h
  · rename_i heq
    cases h
    exact getBestAnchor_stored (by rw [not_not.1 heq]; exact fun h => by cases h)

end CCoinsViewCache

end LitecoinZ
