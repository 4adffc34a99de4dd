import Mathlib.Algebra.Order.Ring.Int
import LitecoinZ.Lib.Triple

/-!
# Loops that end from within

`loop` repeats a fallible body until it gives a result, for a number of rounds at most.  A loop whose state grows towards a
bound ends (`exists_loop`), and its result has what the body ensures (`Checks.loop`).
-/

namespace StateExcept

variable {ε σ α : Type} {E : ε → Prop} {body : Nat → σ → Except ε (α ⊕ σ)}

/-- Run the body, which knows the number of the round, until it gives a result.  `none`: it has not given one yet. -/
def loop (body : Nat → σ → Except ε (α ⊕ σ)) : (fuel round : Nat) → σ → Option (Except ε α)
  | 0, _, _ => none
  | fuel + 1, round, s =>
    match body round s with
    | .error e => some (.error e)
    | .ok (.inl a) => some (.ok a)
    | .ok (.inr s') => loop body fuel (round + 1) s'

variable {round : Nat} {s : σ}

theorem loop_of_le {fuel fuel' : Nat} {r : Except ε α} (h : loop body fuel round s = some r) (hle : fuel ≤ fuel') :
    loop body fuel' round s = some r := by
  induction fuel generalizing fuel' round s with
  | zero => cases h
  | succ fuel ih =>
    obtain ⟨n, rfl⟩ := Nat.exists_eq_add_of_le hle
    rw [Nat.add_right_comm, loop]
    rw [loop] at h
    split at h
    · exact h
    · exact h
    · exact ih h (Nat.le_add_right _ _)

theorem exists_loop {I : σ → Prop} (size : σ → ℤ) {bound : ℤ}
    (hbody : ∀ round s s', I s → body round s = .ok (.inr s') → I s' ∧ size s < size s')
    (hbound : ∀ s, I s → size s ≤ bound) (hs : I s) (round : Nat) : ∃ fuel r, loop body fuel round s = some r := by
  -- Each round that gives no result brings the size closer to the bound.
  generalize hm : (bound - size s).toNat = m
  induction m using Nat.strongRecOn generalizing s round with
  | _ m ih =>
    cases hround : body round s with
    | error e =>
      refine ⟨1, .error e, ?_⟩
      rw [loop, hround]
    | ok r =>
      cases r with
      | inl a =>
        refine ⟨1, .ok a, ?_⟩
        rw [loop, hround]
      | inr s' =>
        obtain ⟨hs', hlt⟩ := hbody round s s' hs hround
        have hle := hbound s' hs'
        obtain ⟨fuel, r, hr⟩ := ih (bound - size s').toNat (by omega) hs' (round + 1) rfl
        refine ⟨fuel + 1, r, ?_⟩
        rw [loop, hround]
        exact hr

theorem Checks.loop {I : σ → Prop} {Q : α → Prop}
    (hbody : ∀ round s, I s → Checks E (body round s) fun r => (∀ a, r = .inl a → Q a) ∧ ∀ s', r = .inr s' → I s')
    {fuel : Nat} (hs : I s) {r : Except ε α} (h : loop body fuel round s = some r) : Checks E r Q := by
  induction fuel generalizing round s with
  | zero => cases h
  | succ fuel ih =>
    rw [StateExcept.loop] at h
    split at h
    · rename_i e he
      cases h
      exact Checks.error ((hbody round s hs).2 e he)
    · rename_i a ha
      cases h
      exact Checks.ok (((hbody round s hs).1 _ ha).1 a rfl)
    · rename_i s' hs'
      exact ih (((hbody round s hs).1 _ hs').2 s' rfl) h

/-- A loop each of whose rounds ends it with a wanted outcome, or keeps what is known of a round and makes the state smaller. -/
theorem loop_ends (body : Nat → σ → Except ε (α ⊕ σ)) (I : Nat → σ → Prop) (Q : Except ε α → Prop) (size : σ → Nat)
    (hbody : ∀ round s, I round s → (∃ a, body round s = .ok (.inl a) ∧ Q (.ok a)) ∨
      (∃ e, body round s = .error e ∧ Q (.error e)) ∨
      ∃ s', body round s = .ok (.inr s') ∧ I (round + 1) s' ∧ size s' < size s) (hs : I round s) :
    ∃ fuel r, loop body fuel round s = some r ∧ Q r := by
  generalize hm : size s = m
  induction m using Nat.strongRecOn generalizing s round with
  | _ m ih =>
    rcases hbody round s hs with ⟨a, ha, hQ⟩ | ⟨e, he, hQ⟩ | ⟨s', hs', hI, hlt⟩
    · refine ⟨1, .ok a, ?_, hQ⟩
      rw [loop, ha]
    · refine ⟨1, .error e, ?_, hQ⟩
      rw [loop, he]
    · obtain ⟨fuel, r, hr, hQ⟩ := ih _ (hm ▸ hlt) hI rfl
      refine ⟨fuel + 1, r, ?_, hQ⟩
      rw [loop, hs']
      exact hr

end StateExcept
