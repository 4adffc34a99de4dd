import Mathlib.Algebra.BigOperators.Group.List.Basic
import Mathlib.Data.List.AList

/-!
# Finite maps merged entry by entry

Finite maps with decidable keys (`AList` without dependency), written one key at a time (`put`), and the merge of one
map into another that visits the entries of the second one by one (`merge`).  What a merge does to a key depends on
the two entries of that key only (`merge_spec`).
-/

abbrev KeyMap (κ β : Type) := AList (fun _ : κ => β)

namespace KeyMap

open List

variable {κ β γ ε : Type} [DecidableEq κ] {m : KeyMap κ β} {k k' : κ}

def put (m : KeyMap κ β) (k : κ) : Option β → KeyMap κ β
  | none => m.erase k
  | some b => m.insert k b

theorem lookup_put_ne (h : k' ≠ k) (b : Option β) :
    (m.put k b).lookup k' = m.lookup k' := by
  cases b <;> simp [put, AList.lookup_erase_ne, AList.lookup_insert_ne, h]

variable {b : β} {es : List (κ × β)}

theorem lookup_erase_some :
    (m.erase k).lookup k' = some b ↔ k' ≠ k ∧ m.lookup k' = some b := by
  by_cases hk : k' = k
  · subst hk
    simp
  · rw [AList.lookup_erase_ne hk]
    exact (and_iff_right hk).symm

@[simp] theorem lookup_empty (k : κ) : (∅ : KeyMap κ β).lookup k = none := AList.lookup_empty k

def eraseAll (m : KeyMap κ β) (ks : List κ) : KeyMap κ β := ks.foldl (fun m k => m.erase k) m

def insertAll (m : KeyMap κ β) (es : List (κ × β)) : KeyMap κ β := es.foldl (fun m e => m.insert e.1 e.2) m

def total {M : Type} [AddCommMonoid M] (f : β → M) (m : KeyMap κ β) : M := (m.entries.map fun e => f e.2).sum

theorem total_insert {M : Type} [AddCommMonoid M] (f : β → M) (hk : m.lookup k = none) (b : β) :
    total f (m.insert k b) = f b + total f m := by
  rw [total, AList.entries_insert_of_notMem (AList.lookup_eq_none.1 hk), map_cons, sum_cons]
  rfl

theorem total_erase {M : Type} [AddCommMonoid M] (f : β → M) (hk : m.lookup k = some b) :
    total f m = f b + total f (m.erase k) := by
  obtain ⟨b', l1, l2, -, hl, hker⟩ := exists_of_kerase (AList.lookup_isSome.1 (by rw [hk]; rfl))
  have hb : m.lookup k = some b' := AList.mem_lookup_iff.2 (by rw [hl]; simp)
  cases hk.symm.trans hb
  have herase : (m.erase k).entries = l1 ++ l2 := hker
  rw [total, total, hl, herase]
  simp [add_left_comm]

theorem total_insert_some {M : Type} [AddCommMonoid M] (f : β → M) (hk : m.lookup k = some b)
    (b' : β) : f b + total f (m.insert k b') = f b' + total f m := by
  have hins : total f (m.insert k b') = f b' + total f (m.erase k) := by
    rw [total, AList.entries_insert, map_cons, sum_cons]
    rfl
  rw [hins, total_erase f hk, add_left_comm]

theorem length_erase (hk : m.lookup k = some b) :
    (m.erase k).entries.length + 1 = m.entries.length := by
  have hcount : ∀ m' : KeyMap κ β, total (fun _ => 1) m' = m'.entries.length := fun m' => by simp [total]
  have herase := total_erase (fun _ => 1) hk
  rw [hcount, hcount] at herase
  omega

theorem length_insert (hk : m.lookup k = none) (b : β) :
    (m.insert k b).entries.length = m.entries.length + 1 := by
  rw [AList.entries_insert_of_notMem (AList.lookup_eq_none.1 hk), length_cons]

theorem length_insert_some (hk : m.lookup k = some b) (b' : β) :
    (m.insert k b').entries.length = m.entries.length := by
  rw [← length_erase hk, AList.entries_insert, length_cons]
  rfl

section

variable (m)

@[simp] theorem lookup_put_self (k : κ) (b : Option β) : (m.put k b).lookup k = b := by
  cases b <;> simp [put]

theorem lookup_put (k k' : κ) (b : Option β) : (m.put k b).lookup k' = if k' = k then b else m.lookup k' := by
  split
  · subst k'
    exact lookup_put_self m k b
  · exact lookup_put_ne ‹_› b

@[grind =] theorem lookup_insert (k k' : κ) (b : β) :
    (m.insert k b).lookup k' = if k' = k then some b else m.lookup k' := lookup_put m k k' (some b)

@[grind =] theorem lookup_erase (k k' : κ) : (m.erase k).lookup k' = if k' = k then none else m.lookup k' :=
  lookup_put m k k' none

/-! ### Many keys at once -/

theorem lookup_eraseAll (ks : List κ) (k : κ) : (m.eraseAll ks).lookup k = if k ∈ ks then none else m.lookup k := by
  induction ks generalizing m with
  | nil => simp [eraseAll]
  | cons k0 ks ih =>
    rw [eraseAll, foldl_cons]
    refine (ih (m.erase k0)).trans ?_
    by_cases hk : k = k0
    · subst hk
      simp
    · simp [hk]

theorem lookup_insertAll (hes : (es.map Prod.fst).Nodup) (k : κ) (b : β) :
    (m.insertAll es).lookup k = some b ↔ (k, b) ∈ es ∨ k ∉ es.map Prod.fst ∧ m.lookup k = some b := by
  induction es generalizing m with
  | nil => simp [insertAll]
  | cons e es ih =>
    obtain ⟨k0, b0⟩ := e
    rw [map_cons, nodup_cons] at hes
    rw [insertAll, foldl_cons]
    refine (ih (m.insert k0 b0) hes.2).trans ?_
    by_cases hk : k = k0
    · subst hk
      have hout : (k, b) ∉ es := fun h => hes.1 (mem_map.2 ⟨_, h, rfl⟩)
      simp [hout, hes.1, eq_comm]
    · simp [hk]

theorem length_insertAll (hes : (es.map Prod.fst).Nodup) (hnew : ∀ k ∈ es.map Prod.fst, m.lookup k = none) :
    (m.insertAll es).entries.length = m.entries.length + es.length := by
  induction es generalizing m with
  | nil => rfl
  | cons e es ih =>
    obtain ⟨k0, b0⟩ := e
    rw [map_cons, nodup_cons] at hes
    rw [insertAll, foldl_cons]
    refine (ih (m.insert k0 b0) hes.2 fun k hk => ?_).trans ?_
    · have hne : k ≠ k0 := fun h => hes.1 (h ▸ hk)
      rw [AList.lookup_insert_ne hne]
      exact hnew k (mem_cons_of_mem _ hk)
    · rw [length_insert (hnew k0 (mem_cons_self ..)), length_cons]
      omega

end

theorem lookup_insert_cases {b' : β} (h : (m.insert k b).lookup k' = some b') :
    (k' = k ∧ b' = b) ∨ (k' ≠ k ∧ m.lookup k' = some b') := by
  by_cases hk : k' = k
  · subst hk
    rw [AList.lookup_insert, Option.some.injEq] at h
    exact .inl ⟨rfl, h.symm⟩
  · rw [AList.lookup_insert_ne hk] at h
    exact .inr ⟨hk, h⟩

theorem exists_lookup (h : k ∈ m.keys) : ∃ b, m.lookup k = some b :=
  Option.isSome_iff_exists.1 (AList.lookup_isSome.2 h)

theorem mem_keys_of_lookup (h : m.lookup k = some b) : k ∈ m.keys :=
  AList.lookup_isSome.1 (by rw [h]; rfl)

variable (p : β → Bool)

def count (m : KeyMap κ β) : Nat := (m.entries.filter fun e => p e.2).length

omit [DecidableEq κ] in
theorem count_eq_total (m : KeyMap κ β) : m.count p = m.total fun b => (p b).toNat := by
  rw [count, total]
  induction m.entries with
  | nil => rfl
  | cons e es ih =>
    rw [map_cons, sum_cons, ← ih]
    cases hp : p e.2 with
    | false => simp [hp]
    | true => simp [hp, Nat.add_comm]

theorem count_insert_none (h : m.lookup k = none) (b : β) : count p (m.insert k b) = count p m + (p b).toNat := by
  rw [count_eq_total, count_eq_total, total_insert _ h, Nat.add_comm]

theorem count_insert_some (h : m.lookup k = some b) (b' : β) :
    count p (m.insert k b') + (p b).toNat = count p m + (p b').toNat := by
  rw [count_eq_total, count_eq_total, Nat.add_comm, total_insert_some (fun b => (p b).toNat) h, Nat.add_comm]

theorem count_erase (h : m.lookup k = some b) : count p (m.erase k) + (p b).toNat = count p m := by
  rw [count_eq_total, count_eq_total, total_erase _ h, Nat.add_comm]

theorem count_pos {p : β → Bool} (h : m.lookup k = some b) (hp : p b = true) :
    0 < m.count p := by
  have := count_erase p h
  rw [hp, Bool.toNat_true] at this
  omega

theorem count_le {p : β → Bool} {n : Nat} (g : β → Nat)
    (hlt : ∀ k b, m.lookup k = some b → p b = true → g b < n)
    (hinj : ∀ k b k' b', m.lookup k = some b → m.lookup k' = some b' → p b = true → p b' = true → g b = g b' → k = k') :
    m.count p ≤ n := by
  have hmem : ∀ e ∈ m.entries.filter fun e => p e.2, m.lookup e.1 = some e.2 ∧ p e.2 = true := by
    intro e he
    rw [mem_filter] at he
    exact ⟨AList.mem_lookup_iff.2 he.1, he.2⟩
  have hnodup : ((m.entries.filter fun e => p e.2).map fun e => g e.2).Nodup := by
    refine Nodup.map_on (fun e he e' he' heq => ?_) (m.nodupKeys.nodup.filter _)
    obtain ⟨hl, hp⟩ := hmem e he
    obtain ⟨hl', hp'⟩ := hmem e' he'
    have hk := hinj _ _ _ _ hl hl' hp hp' heq
    obtain ⟨k, b⟩ := e
    obtain ⟨k', b'⟩ := e'
    obtain rfl : k = k' := hk
    obtain rfl : b = b' := Option.some.inj (hl.symm.trans hl')
    rfl
  have hsub : ((m.entries.filter fun e => p e.2).map fun e => g e.2) ⊆ List.range n := by
    intro x hx
    obtain ⟨e, he, rfl⟩ := mem_map.1 hx
    exact mem_range.2 (hlt _ _ (hmem e he).1 (hmem e he).2)
  have hle := (subperm_of_subset hnodup hsub).length_le
  rwa [length_map, length_range] at hle

def mapValues (f : β → β) (m : KeyMap κ β) : KeyMap κ β where
  entries := m.entries.map fun e => ⟨e.1, f e.2⟩
  nodupKeys := by
    have hkeys : (m.entries.map fun e => (⟨e.1, f e.2⟩ : Sigma fun _ : κ => β)).keys = m.entries.keys := by
      simp [List.keys]
    rw [List.NodupKeys, hkeys]
    exact m.nodupKeys

theorem lookup_mapValues (f : β → β) (m : KeyMap κ β) (k : κ) : (m.mapValues f).lookup k = (m.lookup k).map f := by
  change List.dlookup k (m.entries.map fun e => (⟨e.1, f e.2⟩ : Sigma fun _ : κ => β)) = (List.dlookup k m.entries).map f
  induction m.entries with
  | nil => rfl
  | cons e es ih =>
    obtain ⟨k', b⟩ := e
    by_cases hk : k = k'
    · subst hk
      simp
    · rw [map_cons, dlookup_cons_ne _ _ hk, dlookup_cons_ne _ _ hk]
      exact ih

omit [DecidableEq κ] in
theorem count_mapValues (f : β → β) (m : KeyMap κ β) : count p (m.mapValues f) = m.count fun b => p (f b) := by
  rw [count, count, mapValues, filter_map, length_map]
  rfl

/-- Merge the entries one after the other; `f` gives the new entry of a key from the old one and the merged one. -/
def mergeEntries (f : Option β → γ → Except ε (Option β)) :
    KeyMap κ β → List (Sigma fun _ : κ => γ) → Except ε (KeyMap κ β)
  | m, [] => .ok m
  | m, ⟨k, v⟩ :: es => do
    let b ← f (m.lookup k) v
    mergeEntries f (m.put k b) es

def merge (f : Option β → γ → Except ε (Option β)) (m : KeyMap κ β) (m' : KeyMap κ γ) : Except ε (KeyMap κ β) :=
  mergeEntries f m m'.entries

private theorem mergeEntries_spec (f : Option β → γ → Except ε (Option β)) (Q : κ → γ → Option β → Prop)
    (es : List (Sigma fun _ : κ => γ)) (hes : es.NodupKeys) (m : KeyMap κ β)
    (hf : ∀ e ∈ es, ∃ b, f (m.lookup e.1) e.2 = .ok b ∧ Q e.1 e.2 b) :
    ∃ r, mergeEntries f m es = .ok r ∧ ∀ k,
      (es.dlookup k = none ∧ r.lookup k = m.lookup k) ∨ ∃ v, es.dlookup k = some v ∧ Q k v (r.lookup k) := by
  induction es generalizing m with
  | nil => exact ⟨m, rfl, fun k => .inl ⟨rfl, rfl⟩⟩
  | cons e es ih =>
    obtain ⟨k0, v0⟩ := e
    obtain ⟨b, hb, hQ⟩ := hf ⟨k0, v0⟩ (by simp)
    rw [nodupKeys_cons] at hes
    -- the keys still to come are not the one just written
    have hne : ∀ e ∈ es, e.1 ≠ k0 := fun e he => (ne_key.1 hes.1 e he).symm
    obtain ⟨r, hr, hspec⟩ := ih hes.2 (m.put k0 b) (fun e he => by
      rw [lookup_put_ne (hne e he)]
      exact hf e (mem_cons_of_mem _ he))
    refine ⟨r, ?_, fun k => ?_⟩
    · simp only [mergeEntries, hb]
      exact hr
    · have hk := hspec k
      by_cases hkk : k = k0
      · subst hkk
        have hnone : es.dlookup k = none := dlookup_eq_none.2 hes.1
        rw [hnone, lookup_put_self] at hk
        rcases hk with ⟨-, hk⟩ | ⟨v, hv, -⟩
        · exact .inr ⟨v0, by simp, hk ▸ hQ⟩
        · cases hv
      · rw [dlookup_cons_ne _ _ hkk]
        rwa [lookup_put_ne hkk] at hk

/-- A merge succeeds when `f` does at every key of the merged map, and what `f` ensures of a key holds of it in the
result. -/
theorem merge_spec {f : Option β → γ → Except ε (Option β)} (Q : κ → γ → Option β → Prop)
    {m : KeyMap κ β} {m' : KeyMap κ γ} (hf : ∀ k v, m'.lookup k = some v → ∃ b, f (m.lookup k) v = .ok b ∧ Q k v b) :
    ∃ r, merge f m m' = .ok r ∧ ∀ k,
      (m'.lookup k = none ∧ r.lookup k = m.lookup k) ∨ ∃ v, m'.lookup k = some v ∧ Q k v (r.lookup k) :=
  mergeEntries_spec f Q m'.entries m'.nodupKeys m (fun e he => hf e.1 e.2 (mem_dlookup m'.nodupKeys he))

private theorem mergeEntries_each {f : Option β → γ → Except ε (Option β)} {es : List (Sigma fun _ : κ => γ)}
    (hes : es.NodupKeys) {r : KeyMap κ β} (h : mergeEntries f m es = .ok r) :
    ∀ e ∈ es, ∃ b, f (m.lookup e.1) e.2 = .ok b := by
  induction es generalizing m with
  | nil => exact fun e he => absurd he not_mem_nil
  | cons e0 es ih =>
    obtain ⟨k0, v0⟩ := e0
    rw [nodupKeys_cons] at hes
    cases hb : f (m.lookup k0) v0 with
    | error e =>
      simp only [mergeEntries, hb] at h
      cases h
    | ok b =>
      simp only [mergeEntries, hb] at h
      intro e he
      rcases mem_cons.1 he with rfl | he
      · exact ⟨b, hb⟩
      · obtain ⟨b', hb'⟩ := ih hes.2 h e he
        rw [lookup_put_ne (ne_key.1 hes.1 e he).symm] at hb'
        exact ⟨b', hb'⟩

theorem merge_ok {f : Option β → γ → Except ε (Option β)} {r : KeyMap κ β} {m' : KeyMap κ γ} (h : merge f m m' = .ok r)
    {v : γ} (hk : m'.lookup k = some v) : f (m.lookup k) v = .ok (r.lookup k) := by
  obtain ⟨r', hr', hspec⟩ := @merge_spec _ _ _ _ _ f (fun k v b => f (m.lookup k) v = .ok b) m m' fun k v hkv => by
    obtain ⟨b, hb⟩ := mergeEntries_each m'.nodupKeys h ⟨k, v⟩ (AList.mem_lookup_iff.1 hkv)
    exact ⟨b, hb, hb⟩
  cases h.symm.trans hr'
  rcases hspec k with ⟨hnone, -⟩ | ⟨v', hv', hb⟩
  · cases hk.symm.trans hnone
  · cases hk.symm.trans hv'
    exact hb

end KeyMap
