import Mathlib.Data.List.GetD
import Mathlib.Tactic.Ring

/-!
# Perfect binary trees over an infinite row of leaves

`subRoot node L k o` is the root of the perfect binary tree of depth `k` whose leaves are `L o, …, L (o + 2^k - 1)`.
A frontier is the list of complete left subtrees met on the way from a leaf to the root: entry `i` is `some p` when
the subtree of depth `k + i` containing the leaf is a right child, and `p` is then the root of its left sibling
(`Blocks`).  The levels without an entry are the gaps, and a gap is filled by the right sibling.

The key facts: climbing from a subtree through a frontier with the right siblings as fillers gives the root of the
whole tree (`climb_eq`), and adding one complete subtree to a frontier is a binary increment (`blocks_carry`).
-/

namespace PerfectTree

open List

variable {α : Type} (node : α → α → α)

/-- The root of the perfect tree of depth `k` over the leaves from `o` on. -/
def subRoot (L : Nat → α) : Nat → Nat → α
  | 0, o => L o
  | k + 1, o => node (subRoot L k o) (subRoot L k (o + 2 ^ k))

/-- The root of the perfect tree of depth `d` whose leaves are the entries of `l`, in order. -/
def perfectRoot (nil : α) : Nat → List α → α
  | 0, l => l.headD nil
  | d + 1, l => node (perfectRoot nil d (l.take (2 ^ d))) (perfectRoot nil d (l.drop (2 ^ d)))

def emptyRoot (nil : α) : Nat → α
  | 0 => nil
  | d + 1 => node (emptyRoot nil d) (emptyRoot nil d)

/-- A list read as a row of leaves that continues with `nil`. -/
def leaves (nil : α) (l : List α) (i : Nat) : α := l.getD i nil

variable {nil : α} {L L' : Nat → α} {k o n : Nat} {ps : List (Option α)}

theorem leaves_append_left {l l' : List α} {i : Nat} (h : i < l.length) :
    leaves nil (l ++ l') i = leaves nil l i := by
  unfold leaves; rw [getD_append _ _ _ _ h]

theorem leaves_drop (nil : α) (l : List α) (o i : Nat) : leaves nil (l.drop o) i = leaves nil l (o + i) := by
  simp [leaves, getD_eq_getElem?_getD, getElem?_drop]

theorem leaves_of_le {l : List α} {i : Nat} (h : l.length ≤ i) : leaves nil l i = nil := by
  simp [leaves, getD_eq_getElem?_getD, h]

theorem leaves_snoc (nil : α) (l : List α) (x : α) : leaves nil (l ++ [x]) l.length = x := by
  simp [leaves, getD_eq_getElem?_getD]

theorem subRoot_congr {o' : Nat} (h : ∀ i, i < 2 ^ k → L (o + i) = L' (o' + i)) :
    subRoot node L k o = subRoot node L' k o' := by
  induction k generalizing o o' with
  | zero => simpa [subRoot] using h 0 (by simp)
  | succ k ih =>
    have hk : 2 ^ (k + 1) = 2 ^ k + 2 ^ k := by ring
    simp only [subRoot]
    rw [ih (fun i hi => h i (by omega)), @ih (o + 2 ^ k) (o' + 2 ^ k)]
    intro i hi
    have := h (2 ^ k + i) (by omega)
    simpa [Nat.add_assoc] using this

theorem subRoot_nil (h : ∀ i, i < 2 ^ k → L (o + i) = nil) :
    subRoot node L k o = emptyRoot node nil k := by
  induction k generalizing o with
  | zero => simpa [subRoot, emptyRoot] using h 0 (by simp)
  | succ k ih =>
    have hk : 2 ^ (k + 1) = 2 ^ k + 2 ^ k := by ring
    simp only [subRoot, emptyRoot]
    rw [ih (fun i hi => h i (by omega)), ih (o := o + 2 ^ k)]
    intro i hi
    rw [Nat.add_assoc]
    exact h _ (by omega)

/-- Halving the list of leaves and reading the leaves by position give the same root. -/
theorem perfectRoot_eq_subRoot (nil : α) (d : Nat) (l : List α) :
    perfectRoot node nil d l = subRoot node (leaves nil l) d 0 := by
  induction d generalizing l with
  | zero => cases l <;> simp [perfectRoot, subRoot, leaves]
  | succ d ih =>
    simp only [perfectRoot, subRoot, ih]
    congr 1
    · apply subRoot_congr
      intro i hi
      rw [Nat.zero_add]
      conv => rhs; rw [← take_append_drop (2 ^ d) l]
      by_cases hl : i < (l.take (2 ^ d)).length
      · rw [leaves_append_left hl]
      · have hle : l.length ≤ i := by rw [length_take] at hl; omega
        rw [take_append_drop, leaves_of_le (by omega), leaves_of_le hle]
    · apply subRoot_congr
      intro i _
      rw [leaves_drop]
      congr 1
      omega

theorem perfectRoot_append_replicate (nil : α) (d n : Nat) (l : List α) :
    perfectRoot node nil d (l ++ List.replicate n nil) = subRoot node (leaves nil l) d 0 := by
  rw [perfectRoot_eq_subRoot]
  apply subRoot_congr
  intro i _
  by_cases hi : 0 + i < l.length
  · rw [leaves_append_left hi]
  · rw [leaves_of_le (l := l) (by omega)]
    unfold leaves
    rw [getD_append_right _ _ _ _ (by omega), getD_eq_getElem?_getD, getElem?_replicate]
    split <;> rfl

/-! ### Frontiers -/

/-- `Blocks L k ps o`: the entries of `ps`, for the depths `k, k+1, …`, are the roots of the complete subtrees that
partition the leaves `0, …, o-1`, the deepest one last. -/
def Blocks (L : Nat → α) : Nat → List (Option α) → Nat → Prop
  | _, [], o => o = 0
  | k, none :: ps, o => Blocks L (k + 1) ps o
  | k, some p :: ps, o => ∃ o', o = o' + 2 ^ k ∧ p = subRoot node L k o' ∧ Blocks L (k + 1) ps o'

/-- Adding the subtree with root `c` to a frontier; at most `n` entries are visited. -/
def carry : Nat → α → List (Option α) → List (Option α)
  | 0, _, ps => ps
  | _ + 1, c, [] => [some c]
  | _ + 1, c, none :: ps => some c :: ps
  | n + 1, c, some p :: ps => none :: carry n (node p c) ps

/-- The occupied entries of a frontier read as a binary number. -/
def value : List (Option α) → Nat
  | [] => 0
  | none :: ps => 2 * value ps
  | some _ :: ps => 2 * value ps + 1

/-- The deepest entry of a canonical frontier is occupied. -/
def Canonical (ps : List (Option α)) : Prop := ∀ p ∈ ps.getLast?, p.isSome

/-- The depths `k, …, k + n - 1` at which a frontier has no entry. -/
def gaps : Nat → List (Option α) → Nat → List Nat
  | _, _, 0 => []
  | k, [], n + 1 => k :: gaps (k + 1) [] n
  | k, none :: ps, n + 1 => k :: gaps (k + 1) ps n
  | k, some _ :: ps, n + 1 => gaps (k + 1) ps n

/-- The roots of consecutive subtrees of the depths `ms`, from the leaf `e` on. -/
def gapRoots (L : Nat → α) : List Nat → Nat → List α
  | [], _ => []
  | m :: ms, e => subRoot node L m e :: gapRoots L ms (e + 2 ^ m)

/-- Climbing `n` levels from a subtree with root `r`: a frontier entry goes to the left, a filler to the right. -/
def climb : List (Option α) → Nat → α → List α → α
  | _, 0, r, _ => r
  | some p :: ps, n + 1, r, fs => climb ps n (node p r) fs
  | none :: ps, n + 1, r, f :: fs => climb ps n (node r f) fs
  | [], n + 1, r, f :: fs => climb [] n (node r f) fs
  | _, _ + 1, r, [] => r

private theorem canonical_cons {p : Option α} (h : ps ≠ []) :
    Canonical (p :: ps) ↔ Canonical ps := by
  obtain ⟨q, qs, rfl⟩ := exists_cons_of_ne_nil h
  simp [Canonical, getLast?_cons_cons]

theorem canonical_tail {p : Option α} (h : Canonical (p :: ps)) : Canonical ps := by
  by_cases hps : ps = []
  · subst hps; simp [Canonical]
  · exact (canonical_cons hps).1 h

theorem canonical_carry {c : α} (h : Canonical ps) (hn : ps.length < n) :
    Canonical (carry node n c ps) := by
  induction ps generalizing n c with
  | nil =>
    obtain ⟨n, rfl⟩ := Nat.exists_eq_succ_of_ne_zero (Nat.ne_zero_of_lt hn)
    simp [carry, Canonical]
  | cons p ps ih =>
    obtain ⟨n, rfl⟩ := Nat.exists_eq_succ_of_ne_zero (Nat.ne_zero_of_lt hn)
    simp only [length_cons, Nat.succ_lt_succ_iff] at hn
    cases p with
    | none =>
      by_cases hps : ps = []
      · subst hps; simp [carry, Canonical]
      · exact (canonical_cons hps).2 (canonical_tail h)
    | some p =>
      have hne : carry node n (node p c) ps ≠ [] := by
        intro he
        obtain ⟨n, rfl⟩ := Nat.exists_eq_succ_of_ne_zero (Nat.ne_zero_of_lt hn)
        rcases ps with _ | ⟨_ | q, ps⟩ <;> simp [carry] at he
      exact (canonical_cons hne).2 (ih (canonical_tail h) hn)

theorem canonical_length (h : Canonical ps) (m : Nat) (hv : value ps < 2 ^ m) :
    ps.length ≤ m := by
  induction ps generalizing m with
  | nil => simp
  | cons p ps ih =>
    cases m with
    | zero =>
      have h0 : value (p :: ps) = 0 := by simpa using hv
      cases p with
      | some p => simp [value] at h0
      | none =>
        -- an empty value leaves no room for the occupied last entry
        have hps : ps = [] := by
          have := ih (canonical_tail h) 0 (by simp only [value] at h0; omega)
          simpa using this
        subst hps
        simp [Canonical] at h
    | succ m =>
      have hv' : value ps < 2 ^ m := by
        have hm : 2 ^ (m + 1) = 2 * 2 ^ m := by ring
        cases p <;> simp only [value] at hv <;> omega
      simpa using ih (canonical_tail h) m hv'

theorem value_eq_pow_iff (h : Canonical ps) (m : Nat) :
    value ps + 1 = 2 ^ m ↔ ps.length = m ∧ ∀ p ∈ ps, p.isSome := by
  induction ps generalizing m with
  | nil =>
    cases m with
    | zero => simp [value]
    | succ m =>
      have : 1 < 2 ^ (m + 1) := Nat.one_lt_two_pow (by omega)
      simp only [value, length_nil]
      constructor
      · intro he; omega
      · rintro ⟨he, -⟩; omega
  | cons p ps ih =>
    have ht := ih (canonical_tail h)
    cases m with
    | zero =>
      simp only [Nat.pow_zero, length_cons]
      constructor
      · intro he
        -- the value is zero, so the frontier is empty
        have := canonical_length h 0 (by simp only [Nat.pow_zero]; omega)
        simp at this
      · rintro ⟨he, -⟩; omega
    | succ m =>
      have hm : 2 ^ (m + 1) = 2 * 2 ^ m := by ring
      cases p with
      | none =>
        simp only [value, length_cons, mem_cons, forall_eq_or_imp]
        constructor
        · intro he; omega
        · rintro ⟨-, hno, -⟩; cases hno
      | some p =>
        simp only [value, length_cons, mem_cons, forall_eq_or_imp, Option.isSome_some, true_and,
          Nat.add_right_cancel_iff]
        rw [← ht m]
        omega

/-- The number of leaves below consecutive subtrees of the depths `ms`. -/
def span (ms : List Nat) : Nat := (ms.map (2 ^ ·)).sum

@[simp] theorem span_nil : span [] = 0 := rfl

@[simp] theorem span_cons (m : Nat) (ms : List Nat) : span (m :: ms) = 2 ^ m + span ms := by
  simp [span]

@[simp] theorem span_append (ms ms' : List Nat) : span (ms ++ ms') = span ms + span ms' := by
  simp [span]

section

variable (hb : Blocks node L k ps o)
include hb

theorem blocks_congr (h : ∀ i, i < o → L i = L' i) : Blocks node L' k ps o := by
  induction ps generalizing k o with
  | nil => exact hb
  | cons p ps ih =>
    cases p with
    | none => exact ih (k := k + 1) hb h
    | some p =>
      obtain ⟨o', rfl, hp, hb'⟩ := hb
      refine ⟨o', rfl, ?_, ih hb' (fun i hi => h i (Nat.lt_add_right _ hi))⟩
      rw [hp]
      exact subRoot_congr node (fun i hi => h (o' + i) (by omega))

theorem blocks_value : o = 2 ^ k * value ps := by
  induction ps generalizing k o with
  | nil => simpa [Blocks, value] using hb
  | cons p ps ih =>
    cases p with
    | none =>
      rw [ih (k := k + 1) hb, value]
      ring
    | some p =>
      obtain ⟨o', rfl, -, hb'⟩ := hb
      rw [ih hb', value]
      ring

/-- Adding the next complete subtree of depth `k` to a frontier is a binary increment. -/
theorem blocks_carry (hn : ps.length < n) : Blocks node L k (carry node n (subRoot node L k o) ps) (o + 2 ^ k) := by
  induction ps generalizing k o n with
  | nil =>
    obtain ⟨n, rfl⟩ := Nat.exists_eq_succ_of_ne_zero (Nat.ne_zero_of_lt hn)
    exact ⟨o, rfl, rfl, hb⟩
  | cons p ps ih =>
    obtain ⟨n, rfl⟩ := Nat.exists_eq_succ_of_ne_zero (Nat.ne_zero_of_lt hn)
    simp only [length_cons, Nat.succ_lt_succ_iff] at hn
    cases p with
    | none => exact ⟨o, rfl, rfl, hb⟩
    | some p =>
      obtain ⟨o', rfl, rfl, hb'⟩ := hb
      have := ih hb' hn
      have he : o' + 2 ^ k + 2 ^ k = o' + 2 ^ (k + 1) := by ring
      rw [he]
      exact this

/-- Climbing through a frontier, with the right siblings in the gaps, gives the root of the whole tree. -/
theorem climb_eq (hn : ps.length ≤ n) :
    climb node ps n (subRoot node L k o) (gapRoots node L (gaps k ps n) (o + 2 ^ k)) =
      subRoot node L (k + n) 0 := by
  induction n generalizing k o ps with
  | zero =>
    obtain rfl : ps = [] := by simpa using hn
    rw [show o = 0 from hb]
    simp [climb]
  | succ n ih =>
    rw [show k + (n + 1) = (k + 1) + n by omega]
    have he : o + 2 ^ k + 2 ^ k = o + 2 ^ (k + 1) := by ring
    rcases ps with _ | ⟨_ | p, ps⟩
    · have := @ih (k + 1) o [] hb (by simp)
      simp only [gaps, gapRoots, climb]
      rw [he]
      exact this
    · have := @ih (k + 1) o ps hb (by simpa using hn)
      simp only [gaps, gapRoots, climb]
      rw [he]
      exact this
    · obtain ⟨o', rfl, rfl, hb'⟩ := hb
      have := ih hb' (by simpa using hn)
      simp only [gaps, climb]
      rw [show o' + 2 ^ k + 2 ^ k = o' + 2 ^ (k + 1) by ring]
      exact this

/-- The gaps of a frontier together with the leaves it covers and the subtree it belongs to make up the tree. -/
theorem sum_gaps (hn : ps.length ≤ n) : o + 2 ^ k + span (gaps k ps n) = 2 ^ (k + n) := by
  induction n generalizing k o ps with
  | zero =>
    obtain rfl : ps = [] := by simpa using hn
    rw [show o = 0 from hb]
    simp [gaps]
  | succ n ih =>
    rw [show k + (n + 1) = (k + 1) + n by omega]
    have hk : 2 ^ (k + 1) = 2 ^ k + 2 ^ k := by ring
    rcases ps with _ | ⟨_ | p, ps⟩
    · have := @ih (k + 1) o [] hb (by simp)
      simp only [gaps, span_cons]
      omega
    · have := @ih (k + 1) o ps hb (by simpa using hn)
      simp only [gaps, span_cons]
      omega
    · obtain ⟨o', rfl, -, hb'⟩ := hb
      have := ih hb' (by simpa using hn)
      simp only [gaps]
      omega

end

theorem span_eq_zero {ms : List Nat} (h : span ms = 0) : ms = [] := by
  cases ms with
  | nil => rfl
  | cons m ms =>
    have := Nat.two_pow_pos m
    rw [span_cons] at h
    omega

@[simp] theorem length_gapRoots (L : Nat → α) (ms : List Nat) (e : Nat) :
    (gapRoots node L ms e).length = ms.length := by
  induction ms generalizing e with
  | nil => rfl
  | cons m ms ih => simp [gapRoots, ih]

theorem gapRoots_append (L : Nat → α) (ms ms' : List Nat) (e : Nat) :
    gapRoots node L (ms ++ ms') e = gapRoots node L ms e ++ gapRoots node L ms' (e + span ms) := by
  induction ms generalizing e with
  | nil => rfl
  | cons m ms ih => simp [gapRoots, ih, Nat.add_assoc]

theorem gapRoots_congr {ms : List Nat} {e : Nat} (h : ∀ i, i < e + span ms → L i = L' i) :
    gapRoots node L ms e = gapRoots node L' ms e := by
  induction ms generalizing e with
  | nil => rfl
  | cons m ms ih =>
    simp only [span_cons, ← Nat.add_assoc] at h
    simp only [gapRoots]
    rw [ih h, subRoot_congr node (fun i hi => h (e + i) (by omega))]

theorem gaps_nil (k n : Nat) : gaps k ([] : List (Option α)) n = List.range' k n := by
  induction n generalizing k with
  | zero => rfl
  | succ n ih => rw [gaps, ih, range'_succ]

theorem mem_gaps {m : Nat} (h : m ∈ gaps k ps n) : k ≤ m ∧ m < k + n := by
  induction n generalizing k ps with
  | zero => simp [gaps] at h
  | succ n ih =>
    rcases ps with _ | ⟨_ | p, ps⟩
    all_goals simp only [gaps, mem_cons] at h
    · rcases h with rfl | h
      · omega
      · have := ih h
        omega
    · rcases h with rfl | h
      · omega
      · have := ih h
        omega
    · have := ih h
      omega

end PerfectTree
