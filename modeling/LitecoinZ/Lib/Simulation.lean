import Mathlib.Tactic.Common

/-!
# Computations with a state and failures, and their simulation

For computations `StateT σ (Except ε)`: what a successful run of a sequence went through (`run_bind_ok`), and when a
computation over one state simulates one over another (`Sim`), with a rule for each way to build computations.  For
computations without a state, one that fails less often and otherwise gives the same results (`Relaxes`).
-/

namespace StateExcept

open List

variable {ε σ τ α β γ δ : Type} {x y : Except ε α} {f : α → Except ε β} {l : List α} {s s' : σ} {a : α}
  {m : StateT σ (Except ε) α} {n : StateT τ (Except ε) α} {R' : σ → τ → Prop} {g : α → StateT τ (Except ε) δ}

theorem except_bind_ok {b : β} :
    (x >>= f) = .ok b ↔ ∃ a, x = .ok a ∧ f a = .ok b := by
  cases x with
  | error e => simp [bind, Except.bind]
  | ok a => simp [bind, Except.bind]

theorem forM_ok {f : α → Except ε Unit} : l.forM f = .ok () ↔ ∀ a ∈ l, f a = .ok () := by
  induction l with
  | nil => exact ⟨fun _ a ha => absurd ha not_mem_nil, fun _ => rfl⟩
  | cons a l ih =>
    rw [forall_mem_cons]
    refine except_bind_ok.trans ?_
    constructor
    · rintro ⟨u, ha, hl⟩
      exact ⟨ha, ih.1 hl⟩
    · rintro ⟨ha, hl⟩
      exact ⟨(), ha, ih.2 hl⟩

theorem mapM_ok {g : α → β} (h : ∀ a ∈ l, f a = .ok (g a)) :
    l.mapM f = .ok (l.map g) := by
  induction l with
  | nil => rfl
  | cons a l ih =>
    rw [mapM_cons, h a mem_cons_self, ih (forall_mem_cons.1 h).2]
    rfl

/-- Where the first computation gives a result, the second gives the same. -/
def Relaxes (x y : Except ε α) : Prop := ∀ a, x = .ok a → y = .ok a

theorem Relaxes.refl (x : Except ε α) : Relaxes x x := fun _ h => h

theorem Relaxes.error {e : ε} : Relaxes (.error e) y := by
  rintro a ⟨⟩

theorem Relaxes.bind {g : α → Except ε β} (h : Relaxes x y) (hf : ∀ a, Relaxes (f a) (g a)) :
    Relaxes (x >>= f) (y >>= g) := by
  intro b hb
  obtain ⟨a, hx, hfa⟩ := except_bind_ok.1 hb
  exact except_bind_ok.2 ⟨a, h a hx, hf a b hfa⟩

theorem Relaxes.ite {c : Prop} [Decidable c] {x' y' : Except ε α} (h : c → Relaxes x y) (h' : ¬ c → Relaxes x' y') :
    Relaxes (if c then x else x') (if c then y else y') := by
  by_cases hc : c
  · rw [if_pos hc, if_pos hc]
    exact h hc
  · rw [if_neg hc, if_neg hc]
    exact h' hc

theorem run_bind_ok {x : StateT σ (Except ε) α} {f : α → StateT σ (Except ε) β} {b : β} :
    (x >>= f).run s = .ok (b, s') ↔ ∃ a s1, x.run s = .ok (a, s1) ∧ (f a).run s1 = .ok (b, s') := by
  rw [StateT.run_bind, except_bind_ok]
  constructor
  · rintro ⟨⟨a, s1⟩, h1, h2⟩
    exact ⟨a, s1, h1, h2⟩
  · rintro ⟨a, s1, h1, h2⟩
    exact ⟨(a, s1), h1, h2⟩

theorem run_pure_ok {b : α} :
    (pure a : StateT σ (Except ε) α).run s = .ok (b, s') ↔ b = a ∧ s' = s := by
  rw [StateT.run_pure]
  simp [pure, Except.pure, eq_comm]

theorem run_and_ok {x y : StateT σ (Except ε) Bool} :
    (do let a ← x; let b ← y; pure (a && b) : StateT σ (Except ε) Bool).run s = .ok (true, s') ↔
      ∃ s1, x.run s = .ok (true, s1) ∧ y.run s1 = .ok (true, s') := by
  constructor
  · intro h
    obtain ⟨a, s1, hx, h⟩ := run_bind_ok.1 h
    obtain ⟨b, s2, hy, h⟩ := run_bind_ok.1 h
    obtain ⟨hab, rfl⟩ := run_pure_ok.1 h
    obtain ⟨rfl, rfl⟩ := Bool.and_eq_true_iff.1 hab.symm
    exact ⟨s1, hx, hy⟩
  · rintro ⟨s1, hx, hy⟩
    exact run_bind_ok.2 ⟨_, _, hx, run_bind_ok.2 ⟨_, _, hy, rfl⟩⟩

theorem run_lift_ok {b : α} :
    (liftM x : StateT σ (Except ε) α).run s = .ok (b, s') ↔ x = .ok b ∧ s' = s := by
  cases x with
  | error e => simp [liftM, monadLift, MonadLift.monadLift, StateT.lift, StateT.run, bind, Except.bind]
  | ok a =>
    simp [liftM, monadLift, MonadLift.monadLift, StateT.lift, StateT.run, bind, Except.bind, pure, Except.pure, eq_comm]

/-- Runs from related states both fail in the same way, or both succeed and end as `Q` says. -/
def Sim (R : σ → τ → Prop) (m : StateT σ (Except ε) α) (n : StateT τ (Except ε) β) (Q : α → σ → β → τ → Prop) :
    Prop :=
  ∀ s t, R s t →
    (∃ e, m.run s = .error e ∧ n.run t = .error e) ∨
    ∃ a s' b t', m.run s = .ok (a, s') ∧ n.run t = .ok (b, t') ∧ Q a s' b t'

/-- The results are equal and the states related. -/
def Same (R : σ → τ → Prop) (a : α) (s : σ) (b : α) (t : τ) : Prop := a = b ∧ R s t

variable {R : σ → τ → Prop} {Q : α → σ → β → τ → Prop} {Q' : γ → σ → δ → τ → Prop}

theorem Sim.pure {b : β} (h : ∀ s t, R s t → Q a s b t) :
    Sim R (pure a : StateT σ (Except ε) α) (pure b : StateT τ (Except ε) β) Q :=
  fun s t hR => .inr ⟨a, s, b, t, rfl, rfl, h s t hR⟩

theorem Sim.pure_same (a : α) :
    Sim R (Pure.pure a : StateT σ (Except ε) α) (Pure.pure a : StateT τ (Except ε) α) (Same R) :=
  Sim.pure fun _ _ h => ⟨rfl, h⟩

theorem Sim.throw (e : ε) : Sim R (throw e : StateT σ (Except ε) α) (throw e : StateT τ (Except ε) β) Q :=
  fun _ _ _ => .inl ⟨e, rfl, rfl⟩

theorem Sim.bind {n : StateT τ (Except ε) β} {f : α → StateT σ (Except ε) γ} {g : β → StateT τ (Except ε) δ}
    (h : Sim R m n Q) (hf : ∀ a b, Sim (Q a · b ·) (f a) (g b) Q') :
    Sim R (m >>= f) (n >>= g) Q' := by
  intro s t hR
  rcases h s t hR with ⟨e, h1, h2⟩ | ⟨a, s', b, t', h1, h2, hQ⟩
  · refine .inl ⟨e, ?_, ?_⟩
    · rw [StateT.run_bind, h1]
      rfl
    · rw [StateT.run_bind, h2]
      rfl
  · have hs : (m >>= f).run s = (f a).run s' := by
      rw [StateT.run_bind, h1]
      rfl
    have ht : (n >>= g).run t = (g b).run t' := by
      rw [StateT.run_bind, h2]
      rfl
    rw [hs, ht]
    exact hf a b s' t' hQ

theorem Sim.bind_same {f : α → StateT σ (Except ε) γ} (h : Sim R m n (Same R')) (hf : ∀ a, Sim R' (f a) (g a) Q') :
    Sim R (m >>= f) (n >>= g) Q' := by
  refine h.bind fun a b s t hab => ?_
  obtain ⟨rfl, hR⟩ := hab
  exact hf a s t hR

theorem Sim.bind_run {f : α → StateT σ (Except ε) γ} {t0 : τ} (hR : ∀ s t, R s t → t = t0) (h : Sim R m n (Same R'))
    (hf : ∀ a t', n.run t0 = .ok (a, t') → Sim (fun s t => t = t' ∧ R' s t) (f a) (g a) Q') :
    Sim R (m >>= f) (n >>= g) Q' := by
  intro s t hst
  obtain rfl := hR s t hst
  have hrun : Sim (fun s' t' => s' = s ∧ t' = t) m n fun a s' b t' => n.run t = .ok (b, t') ∧ Same R' a s' b t' := by
    rintro _ _ ⟨rfl, rfl⟩
    rcases h _ _ hst with he | ⟨a, s', b, t', h1, h2, h3⟩
    · exact .inl he
    · exact .inr ⟨a, s', b, t', h1, h2, h2, h3⟩
  refine hrun.bind (fun a b s' t' hab => ?_) s t ⟨rfl, rfl⟩
  obtain ⟨hn, rfl, hR'⟩ := hab
  exact hf a t' hn s' t' ⟨rfl, hR'⟩

theorem Sim.ite {p : Prop} [Decidable p] {m' : StateT σ (Except ε) α} {n n' : StateT τ (Except ε) β}
    (h : p → Sim R m n Q) (h' : ¬ p → Sim R m' n' Q) : Sim R (if p then m else m') (if p then n else n') Q := by
  split
  · exact h ‹_›
  · exact h' ‹_›

/-- A computation that does not touch the state; what it ensures is known afterwards. -/
theorem Sim.lift_bind {f : α → StateT σ (Except ε) γ} (hf : ∀ a, x = .ok a → Sim R (f a) (g a) Q') :
    Sim R (liftM x >>= f) (liftM x >>= g) Q' := by
  cases x with
  | error e => exact fun s t _ => .inl ⟨e, rfl, rfl⟩
  | ok a => exact fun s t hR => hf a rfl s t hR

theorem Sim.lift (x : Except ε α) :
    Sim R (liftM x : StateT σ (Except ε) α) (liftM x : StateT τ (Except ε) α) (Same R) := by
  intro s t hR
  cases x with
  | error e => exact .inl ⟨e, rfl, rfl⟩
  | ok a => exact .inr ⟨a, s, a, t, rfl, rfl, rfl, hR⟩

theorem Sim.forward (h : Sim R m n (Same R')) {t t' : τ} (hR : R s t) (hrun : n.run t = .ok (a, t')) :
    ∃ s', m.run s = .ok (a, s') ∧ R' s' t' := by
  rcases h s t hR with ⟨e, -, he⟩ | ⟨a', s', b, t'', hm, hn, rfl, hR'⟩
  · rw [hrun] at he
    cases he
  · rw [hrun] at hn
    cases hn
    exact ⟨s', hm, hR'⟩

/-- From related states, a run of `n` that answers `true` is one of `m`. -/
def Forward (R : σ → τ → Prop) (m : StateT σ (Except ε) Bool) (n : StateT τ (Except ε) Bool) : Prop :=
  ∀ ⦃s t t'⦄, R s t → n.run t = .ok (true, t') → ∃ s', m.run s = .ok (true, s') ∧ R s' t'

theorem Forward.and {x y : StateT σ (Except ε) Bool} {x' y' : StateT τ (Except ε) Bool} (hx : Forward R x x')
    (hy : Forward R y y') :
    Forward R (do let a ← x; let b ← y; pure (a && b)) (do let a ← x'; let b ← y'; pure (a && b)) := by
  intro s t t' hR hrun
  obtain ⟨t1, h1, h2⟩ := run_and_ok.1 hrun
  obtain ⟨s1, hs1, hR1⟩ := hx hR h1
  obtain ⟨s2, hs2, hR2⟩ := hy hR1 h2
  exact ⟨s2, run_and_ok.2 ⟨s1, hs1, hs2⟩, hR2⟩

theorem Sim.backward (h : Sim R m n (Same R')) {t : τ} (hR : R s t) (hrun : m.run s = .ok (a, s')) :
    ∃ t', n.run t = .ok (a, t') ∧ R' s' t' := by
  rcases h s t hR with ⟨e, he, -⟩ | ⟨a', s'', b, t', hm, hn, rfl, hR'⟩
  · rw [hrun] at he
    cases he
  · rw [hrun] at hm
    cases hm
    exact ⟨t', hn, hR'⟩

theorem Sim.mono {Q2 : α → σ → β → τ → Prop} {n : StateT τ (Except ε) β} (h : Sim R m n Q) (hR : ∀ s t, R' s t → R s t)
    (hQ : ∀ a s b t, Q a s b t → Q2 a s b t) : Sim R' m n Q2 := by
  intro s t hst
  rcases h s t (hR s t hst) with he | ⟨a, s', b, t', h1, h2, h3⟩
  · exact .inl he
  · exact .inr ⟨a, s', b, t', h1, h2, hQ _ _ _ _ h3⟩

end StateExcept
