import Mathlib.Algebra.Order.Ring.Int

/-!
# Forests of nodes that know their parents

A node knows its parent, and `n` steps up lead from a node to an ancestor (`up`).  If heights count the steps to a root
(`Graded`) a node has one ancestor of each height up to its own.
-/

namespace Forest

variable {α : Type} {parent : α → Option α}

/-- The node that is reached by a number of steps towards the root. -/
def up (parent : α → Option α) : Nat → α → Option α
  | 0, a => some a
  | n + 1, a => (parent a).bind (up parent n)

variable {a b : α}

theorem up_one : up parent 1 a = parent a := by
  rw [up]
  cases parent a <;> rfl

theorem up_add (m n : Nat) (a : α) : up parent (m + n) a = (up parent m a).bind (up parent n) := by
  induction m generalizing a with
  | zero => rw [Nat.zero_add]; rfl
  | succ m ih =>
    rw [Nat.succ_add, up, up]
    cases parent a with
    | none => rfl
    | some p => exact ih p

theorem up_succ_of_up {n : Nat} (h : up parent n a = some b) : up parent (n + 1) a = parent b := by
  rw [up_add, h]
  exact up_one

/-- An ancestor of a node, or the node itself. -/
def Ancestor (parent : α → Option α) (b a : α) : Prop := ∃ n, up parent n a = some b

theorem Ancestor.refl (a : α) : Ancestor parent a a := ⟨0, rfl⟩

theorem Ancestor.trans {c : α} (h : Ancestor parent c b) (h' : Ancestor parent b a) : Ancestor parent c a := by
  obtain ⟨n, hn⟩ := h
  obtain ⟨m, hm⟩ := h'
  refine ⟨m + n, ?_⟩
  rw [up_add, hm]
  exact hn

theorem Ancestor.of_parent {p : α} (hp : parent a = some p) (h : Ancestor parent b p) : Ancestor parent b a :=
  h.trans ⟨1, up_one.trans hp⟩

theorem Ancestor.cases (h : Ancestor parent b a) : b = a ∨ ∃ p, parent a = some p ∧ Ancestor parent b p := by
  obtain ⟨n, hn⟩ := h
  cases n with
  | zero => exact .inl (Option.some.inj hn).symm
  | succ n =>
    rw [up] at hn
    obtain ⟨p, hp, hn⟩ := Option.bind_eq_some_iff.1 hn
    exact .inr ⟨p, hp, n, hn⟩

/-- The nodes that are known have heights that count the steps to a root. -/
structure Graded (parent : α → Option α) (known : α → Prop) (height : α → ℤ) : Prop where
  nonneg : ∀ {a}, known a → 0 ≤ height a
  root : ∀ {a}, known a → parent a = none → height a = 0
  step : ∀ {a p}, known a → parent a = some p → known p ∧ height a = height p + 1

namespace Graded

variable {known : α → Prop} {height : α → ℤ} {a b : α} (h : Graded parent known height)

include h

theorem of_up {n : Nat} (ha : known a) (hup : up parent n a = some b) :
    known b ∧ height b = height a - n := by
  induction n generalizing a with
  | zero =>
    cases hup
    exact ⟨ha, by simp⟩
  | succ n ih =>
    rw [up] at hup
    obtain ⟨p, hp, hup⟩ := Option.bind_eq_some_iff.1 hup
    obtain ⟨hknown, hht⟩ := h.step ha hp
    obtain ⟨hb, hb'⟩ := ih hknown hup
    refine ⟨hb, ?_⟩
    push_cast
    omega

theorem of_ancestor (ha : known a) (hab : Ancestor parent b a) :
    known b ∧ height b ≤ height a := by
  obtain ⟨n, hn⟩ := hab
  obtain ⟨hb, hht⟩ := h.of_up ha hn
  exact ⟨hb, by omega⟩

theorem exists_up {n : Nat} (ha : known a) (hn : (n : ℤ) ≤ height a) :
    ∃ b, up parent n a = some b := by
  induction n generalizing a with
  | zero => exact ⟨a, rfl⟩
  | succ n ih =>
    cases hp : parent a with
    | none =>
      have := h.root ha hp
      push_cast at hn
      omega
    | some p =>
      obtain ⟨hknown, hht⟩ := h.step ha hp
      push_cast at hn
      obtain ⟨b, hb⟩ := ih hknown (by omega)
      refine ⟨b, ?_⟩
      rw [up, hp]
      exact hb

theorem exists_ancestor (ha : known a) {k : ℤ} (hk : 0 ≤ k) (hka : k ≤ height a) :
    ∃ b, up parent (height a - k).toNat a = some b ∧ known b ∧ height b = k := by
  obtain ⟨b, hb⟩ := h.exists_up ha (show (((height a - k).toNat : Nat) : ℤ) ≤ height a by omega)
  obtain ⟨hknown, hht⟩ := h.of_up ha hb
  exact ⟨b, hb, hknown, by omega⟩

theorem up_of_ancestor (ha : known a) (hab : Ancestor parent b a) :
    up parent (height a - height b).toNat a = some b := by
  obtain ⟨n, hn⟩ := hab
  obtain ⟨-, hht⟩ := h.of_up ha hn
  have hsame : (height a - height b).toNat = n := by omega
  rw [hsame]
  exact hn

theorem ancestor_unique {c : α} (ha : known a) (hb : Ancestor parent b a)
    (hc : Ancestor parent c a) (heq : height b = height c) : b = c := by
  have h1 := h.up_of_ancestor ha hb
  have h2 := h.up_of_ancestor ha hc
  rw [heq, h2] at h1
  exact (Option.some.inj h1).symm

theorem ancestor_of_le {c : α} (ha : known a) (hb : Ancestor parent b a)
    (hc : Ancestor parent c a) (hle : height b ≤ height c) : Ancestor parent b c := by
  have h1 := h.up_of_ancestor ha hb
  have h2 := h.up_of_ancestor ha hc
  have hc' := (h.of_ancestor ha hc).2
  have hsplit : (height a - height b).toNat = (height a - height c).toNat + (height c - height b).toNat := by omega
  rw [hsplit, up_add, h2] at h1
  exact ⟨_, h1⟩

end Graded

/-- The highest node of a set, `none` if the set is empty. -/
def Highest (height : α → ℤ) (S : α → Prop) : Option α → Prop
  | some a => S a ∧ ∀ b, S b → height b ≤ height a
  | none => ∀ b, ¬ S b

end Forest
