import LitecoinZ.Lib.Simulation

/-!
# Triples with failures

`Checks E x Q`: a fallible computation gives a result that satisfies `Q`, or fails in a way that `E` allows;
`Triple E s m Q` says the same of a computation run from a state.  There is a rule for each way to build
computations.
-/

namespace StateExcept

variable {ε σ α β : Type} {E : ε → Prop}

def Checks (E : ε → Prop) (x : Except ε α) (Q : α → Prop) : Prop :=
  (∀ a, x = .ok a → Q a) ∧ ∀ e, x = .error e → E e

def Triple (E : ε → Prop) (s : σ) (m : StateT σ (Except ε) α) (Q : α → σ → Prop) : Prop :=
  (∀ a s', m.run s = .ok (a, s') → Q a s') ∧ ∀ e, m.run s = .error e → E e

variable {Q : α → Prop} {x : Except ε α} {s : σ} {m m' : StateT σ (Except ε) α} {f : α → StateT σ (Except ε) β}
  {Q' : β → σ → Prop} {a : α} {e : ε}

theorem Checks.ok (h : Q a) : Checks E (.ok a) Q := by
  refine ⟨?_, ?_⟩
  · rintro _ ⟨⟩
    exact h
  · rintro _ ⟨⟩

theorem Checks.error (h : E e) : Checks E (.error e) Q := by
  refine ⟨?_, ?_⟩
  · rintro _ ⟨⟩
  · rintro _ ⟨⟩
    exact h

theorem Checks.bind {f : α → Except ε β} {Q' : β → Prop} (hx : Checks E x Q) (hf : ∀ a, Q a → Checks E (f a) Q') :
    Checks E (x >>= f) Q' := by
  cases x with
  | error e => exact .error (hx.2 e rfl)
  | ok a => exact hf a (hx.1 a rfl)

theorem Checks.mono {Q' : α → Prop} (hx : Checks E x Q) (h : ∀ a, Q a → Q' a) : Checks E x Q' :=
  ⟨fun a ha => h a (hx.1 a ha), hx.2⟩

theorem Checks.exists_ok (hx : Checks (fun _ : ε => False) x Q) : ∃ a, x = .ok a ∧ Q a := by
  cases x with
  | error e => exact (hx.2 e rfl).elim
  | ok a => exact ⟨a, rfl, hx.1 a rfl⟩

theorem Triple.pure {Q : α → σ → Prop} (h : Q a s) :
    Triple E s (pure a : StateT σ (Except ε) α) Q := by
  refine ⟨?_, ?_⟩
  · rintro _ _ ⟨⟩
    exact h
  · rintro _ ⟨⟩

theorem Triple.throw {Q : α → σ → Prop} (h : E e) :
    Triple E s (throw e : StateT σ (Except ε) α) Q := by
  refine ⟨?_, ?_⟩
  · rintro _ _ ⟨⟩
  · rintro _ ⟨⟩
    exact h

theorem Triple.bind {Q : α → σ → Prop} (hm : Triple E s m Q) (hf : ∀ a s', Q a s' → Triple E s' (f a) Q') :
    Triple E s (m >>= f) Q' := by
  rw [Triple, StateT.run_bind]
  cases h : m.run s with
  | error e =>
    refine ⟨?_, ?_⟩
    · rintro _ _ ⟨⟩
    · rintro _ ⟨⟩
      exact hm.2 e h
  | ok r => exact hf r.1 r.2 (hm.1 r.1 r.2 h)

theorem Triple.bind_run {Q : α → σ → Prop} (hm : Triple E s m Q)
    (hf : ∀ a s', m.run s = .ok (a, s') → Q a s' → Triple E s' (f a) Q') : Triple E s (m >>= f) Q' := by
  have hrun : Triple E s m fun a s' => m.run s = .ok (a, s') ∧ Q a s' := ⟨fun a s' h => ⟨h, hm.1 a s' h⟩, hm.2⟩
  exact hrun.bind fun a s' h => hf a s' h.1 h.2

theorem Triple.lift (hx : Checks E x Q) :
    Triple E s (liftM x : StateT σ (Except ε) α) fun a s' => Q a ∧ s' = s := by
  cases x with
  | error e => exact Triple.throw (hx.2 e rfl)
  | ok a => exact Triple.pure ⟨hx.1 a rfl, rfl⟩

theorem Triple.lift_bind (hx : Checks E x Q) (hf : ∀ a, Q a → Triple E s (f a) Q') : Triple E s (liftM x >>= f) Q' := by
  refine (Triple.lift hx).bind fun a s' h => ?_
  rw [h.2]
  exact hf a h.1

theorem Triple.ite {p : Prop} [Decidable p] {Q : α → σ → Prop} (h : p → Triple E s m Q) (h' : ¬ p → Triple E s m' Q) :
    Triple E s (if p then m else m') Q := by
  split
  · exact h ‹_›
  · exact h' ‹_›

theorem Triple.mono {Q Q' : α → σ → Prop} (hm : Triple E s m Q) (h : ∀ a s', Q a s' → Q' a s') : Triple E s m Q' :=
  ⟨fun a s' hr => h a s' (hm.1 a s' hr), hm.2⟩

/-- Runs from any state leave it as it is. -/
def ReadOnly (E : ε → Prop) (m : StateT σ (Except ε) α) : Prop := ∀ s, Triple E s m fun _ s' => s' = s

theorem ReadOnly.state (h : ReadOnly E m) {s' : σ} (hrun : m.run s = .ok (a, s')) : s' = s := (h s).1 a s' hrun

theorem ReadOnly.pure (a : α) : ReadOnly E (pure a : StateT σ (Except ε) α) := fun _ => Triple.pure rfl

theorem ReadOnly.throw (h : E e) : ReadOnly E (throw e : StateT σ (Except ε) α) := fun _ => Triple.throw h

theorem ReadOnly.lift (hx : Checks E x Q) :
    ReadOnly E (liftM x : StateT σ (Except ε) α) := fun _ => (Triple.lift hx).mono fun _ _ h => h.2

theorem ReadOnly.bind (hm : ReadOnly E m) (hf : ∀ a, ReadOnly E (f a)) : ReadOnly E (m >>= f) := by
  intro s
  refine (hm s).bind fun a s' hs => ?_
  subst hs
  exact hf a s'

theorem ReadOnly.ite {p : Prop} [Decidable p] (h : ReadOnly E m) (h' : ReadOnly E m') : ReadOnly E (if p then m else m') := by
  split
  · exact h
  · exact h'

theorem ReadOnly.weaken (h : ReadOnly E m) : ReadOnly (fun _ => True) m :=
  fun s => ⟨(h s).1, fun _ _ => trivial⟩

theorem ReadOnly.lift_any (x : Except ε α) : ReadOnly (fun _ => True) (liftM x : StateT σ (Except ε) α) :=
  .lift (Q := fun _ => True) ⟨fun _ _ => trivial, fun _ _ => trivial⟩

end StateExcept
