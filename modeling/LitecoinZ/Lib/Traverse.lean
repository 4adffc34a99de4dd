import LitecoinZ.Lib.KeyMap
import LitecoinZ.Lib.Triple

/-!
# Fallible loops

Loops of fallible steps over a list and over the entries of a map.  A loop over the entries changes each entry by itself
(`checks_mapValuesM`), whatever the order of the entries.
-/

namespace StateExcept

variable {ε α β : Type} {E : ε → Prop}

/-- A loop keeps what each of its steps keeps; the invariant knows the part of the list that is done. -/
theorem Checks.foldlM {f : β → α → Except ε β} {l : List α} {P : List α → β → Prop} {b : β} (hb : P [] b)
    (hf : ∀ pre a post, l = pre ++ a :: post → ∀ b, P pre b → Checks E (f b a) (P (pre ++ [a]))) :
    Checks E (l.foldlM f b) (P l) := by
  have hloop : ∀ post pre, l = pre ++ post → ∀ b, P pre b → Checks E (post.foldlM f b) (P l) := by
    intro post
    induction post with
    | nil =>
      intro pre hl b hb
      rw [List.append_nil] at hl
      rw [hl]
      exact Checks.ok hb
    | cons a post ih =>
      intro pre hl b hb
      rw [List.foldlM_cons]
      exact (hf pre a post hl b hb).bind fun b' hb' => ih (pre ++ [a]) (by rw [hl, List.append_assoc]; rfl) b' hb'
  exact hloop l [] rfl b hb

end StateExcept

namespace OptionRel

variable {α β γ δ : Type} {R : α → β → Prop} {S : γ → δ → Prop} {a : Option α}

theorem exists_left {y : β} (h : Option.Rel R a (some y)) : ∃ x, a = some x ∧ R x y := by
  cases h with
  | some hr => exact ⟨_, rfl, hr⟩

theorem bind {b : Option β} {f : α → Option γ} {g : β → Option δ} (h : Option.Rel R a b)
    (hfg : ∀ x y, R x y → Option.Rel S (f x) (g y)) : Option.Rel S (a.bind f) (b.bind g) := by
  cases h with
  | none => exact Option.Rel.none
  | some hr => exact hfg _ _ hr

theorem mono {T : α → β → Prop} {b : Option β} (h : Option.Rel R a b) (hRT : ∀ x y, R x y → T x y) :
    Option.Rel T a b := by
  cases h with
  | none => exact Option.Rel.none
  | some hr => exact Option.Rel.some (hRT _ _ hr)

end OptionRel

namespace KeyMap

open StateExcept List

variable {κ β γ ε : Type} {f : β → Except ε γ} {R : κ → β → γ → Prop}

private theorem mapM_keys {l : List (Sigma fun _ : κ => β)} {es : List (Sigma fun _ : κ => γ)}
    (h : l.mapM (fun e => (f e.2).map (Sigma.mk e.1)) = .ok es) : es.keys = l.keys := by
  induction l generalizing es with
  | nil =>
    cases h
    rfl
  | cons e l ih =>
    rw [mapM_cons] at h
    obtain ⟨e', he, h⟩ := except_bind_ok.1 h
    obtain ⟨es', hes, h⟩ := except_bind_ok.1 h
    cases h
    cases hf : f e.2 with
    | error x =>
      rw [hf] at he
      cases he
    | ok c =>
      rw [hf] at he
      cases he
      rw [keys_cons, keys_cons, ih hes]

/-- Apply a fallible function to every entry. -/
def mapValuesM (f : β → Except ε γ) (m : KeyMap κ β) : Except ε (KeyMap κ γ) :=
  match h : m.entries.mapM (fun e => (f e.2).map (Sigma.mk e.1)) with
  | .ok es => .ok ⟨es, by rw [List.NodupKeys, mapM_keys h]; exact m.nodupKeys⟩
  | .error e => .error e

private theorem checks_entries [DecidableEq κ] {E : ε → Prop} (l : List (Sigma fun _ : κ => β))
    (h : ∀ e ∈ l, Checks E (f e.2) (R e.1 e.2)) :
    Checks E (l.mapM fun e => (f e.2).map (Sigma.mk e.1)) fun es =>
      ∀ k, Option.Rel (R k) (l.dlookup k) (es.dlookup k) := by
  induction l with
  | nil => exact Checks.ok fun k => Option.Rel.none
  | cons e l ih =>
    obtain ⟨k0, b⟩ := e
    rw [mapM_cons]
    cases hb : f b with
    | error x => exact Checks.error ((h ⟨k0, b⟩ mem_cons_self).2 x hb)
    | ok c =>
      refine (ih (forall_mem_cons.1 h).2).bind fun es hes => Checks.ok fun k => ?_
      by_cases hk : k = k0
      · subst hk
        rw [dlookup_cons_eq, dlookup_cons_eq]
        exact Option.Rel.some ((h ⟨k, b⟩ mem_cons_self).1 c hb)
      · rw [dlookup_cons_ne _ _ hk, dlookup_cons_ne _ _ hk]
        exact hes k

theorem checks_mapValuesM [DecidableEq κ] {E : ε → Prop} {m : KeyMap κ β}
    (h : ∀ k b, m.lookup k = some b → Checks E (f b) (R k b)) :
    Checks E (m.mapValuesM f) fun m' => ∀ k, Option.Rel (R k) (m.lookup k) (m'.lookup k) := by
  have hents := checks_entries m.entries fun e he => h e.1 e.2 (AList.mem_lookup_iff.2 he)
  unfold mapValuesM
  split
  · rename_i es hes
    exact Checks.ok (hents.1 es hes)
  · rename_i e he
    exact Checks.error (hents.2 e he)

end KeyMap
