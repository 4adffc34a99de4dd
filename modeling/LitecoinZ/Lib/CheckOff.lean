import Mathlib.Data.List.Basic
import Mathlib.Data.List.Count

/-!
# Checking things off

A loop over places takes what it finds at each place off what is still expected.  Something that is not expected any more is
an error, and so is something that a further check at its place refuses.  The loop gets through with nothing left exactly if
every place passes its check and everything is found as often as it is expected (`checkOff_iff`).
-/

namespace CheckOff

variable {ι κ σ ε : Type}

/-- `present` says whether a thing is still expected, `take` takes it off once. -/
def checkOff (present : σ → κ → Bool) (take : σ → κ → σ) (missing : ε) (check : ι → κ → Except ε Unit)
    (entry : ι → Option κ) : List ι → σ → Except ε σ
  | [], m => .ok m
  | i :: is, m =>
    match entry i with
    | none => checkOff present take missing check entry is m
    | some k =>
      if present m k then do
        check i k
        checkOff present take missing check entry is (take m k)
      else .error missing

/-- `left` says how often a thing is still expected. -/
structure Counts [DecidableEq κ] (present : σ → κ → Bool) (take : σ → κ → σ) (I : σ → Prop) (left : σ → κ → Nat) : Prop where
  present_iff : ∀ m k, I m → (present m k = true ↔ 0 < left m k)
  take_keeps : ∀ m k, I m → 0 < left m k → I (take m k)
  take_left : ∀ m k k', I m → 0 < left m k → left (take m k) k' = left m k' - if k = k' then 1 else 0

variable [DecidableEq κ] {present : σ → κ → Bool} {take : σ → κ → σ} {missing : ε} {check : ι → κ → Except ε Unit}
  {entry : ι → Option κ} {I : σ → Prop} {left : σ → κ → Nat}

def found (entry : ι → Option κ) (is : List ι) (k : κ) : Nat := is.countP fun i => entry i = some k

private theorem found_cons (i : ι) (is : List ι) (k : κ) :
    found entry (i :: is) k = found entry is k + if entry i = some k then 1 else 0 := by
  simp only [found, List.countP_cons, decide_eq_true_eq]

theorem checkOff_iff (h : Counts present take I left) (is : List ι) {m : σ} (hm : I m) :
    (∃ m', checkOff present take missing check entry is m = .ok m' ∧ I m' ∧ ∀ k, left m' k = 0) ↔
      (∀ i ∈ is, ∀ k, entry i = some k → check i k = .ok ()) ∧ ∀ k, left m k = found entry is k := by
  induction is generalizing m with
  | nil =>
    constructor
    · rintro ⟨m', hrun, -, hleft⟩
      obtain rfl := Except.ok.inj hrun
      exact ⟨fun i hi => absurd hi List.not_mem_nil, hleft⟩
    · rintro ⟨-, hleft⟩
      exact ⟨m, rfl, hm, hleft⟩
  | cons i is ih =>
    rw [checkOff]
    cases hentry : entry i with
    | none =>
      have hfound : ∀ k, found entry (i :: is) k = found entry is k := fun k => by simp [found_cons, hentry]
      refine (ih hm).trans (and_congr ?_ (forall_congr' fun k => by rw [hfound k]))
      constructor
      · intro hall j hj k hk
        rcases List.mem_cons.1 hj with rfl | hj
        · rw [hentry] at hk
          cases hk
        · exact hall j hj k hk
      · intro hall j hj
        exact hall j (List.mem_cons_of_mem _ hj)
    | some k0 =>
      dsimp only
      have hfound : ∀ k, found entry (i :: is) k = found entry is k + if k0 = k then 1 else 0 := fun k => by
        simp [found_cons, hentry]
      by_cases hpresent : present m k0 = true
      · rw [if_pos hpresent]
        have hpos := (h.present_iff m k0 hm).1 hpresent
        have hcts : (∀ k, left (take m k0) k = found entry is k) ↔ ∀ k, left m k = found entry (i :: is) k := by
          refine forall_congr' fun k => ?_
          rw [h.take_left m k0 k hm hpos, hfound k]
          by_cases hk : k0 = k
          · subst hk
            rw [if_pos rfl]
            omega
          · rw [if_neg hk]
            omega
        cases hcheck : check i k0 with
        | error e =>
          constructor
          · rintro ⟨m', hrun, -⟩
            cases hrun
          · rintro ⟨hall, -⟩
            rw [hall i (List.mem_cons_self ..) k0 hentry] at hcheck
            cases hcheck
        | ok u =>
          refine (ih (h.take_keeps m k0 hm hpos)).trans (and_congr ?_ hcts)
          constructor
          · intro hall j hj k hk
            rcases List.mem_cons.1 hj with rfl | hj
            · rw [hentry] at hk
              obtain rfl := Option.some.inj hk
              exact hcheck
            · exact hall j hj k hk
          · intro hall j hj
            exact hall j (List.mem_cons_of_mem _ hj)
      · rw [if_neg hpresent]
        constructor
        · rintro ⟨m', hrun, -⟩
          cases hrun
        · rintro ⟨-, hleft⟩
          have hk := hleft k0
          rw [hfound k0, if_pos rfl] at hk
          exact absurd ((h.present_iff m k0 hm).2 (by omega)) hpresent

end CheckOff
