import Mathlib.Algebra.BigOperators.Group.List.Basic
import Mathlib.Algebra.Order.Ring.Int

/-!
# Outcomes of validation

The ways in which the validation code stops (`Fault`), the reject codes of `consensus/validation.h` and the amounts of
`amount.h`.  `CAmount` is an `int64_t`: sums are checked, and an overflow, undefined in the source, is an outcome of
its own.
-/

namespace LitecoinZ

/-- How a validation function stops without a result. -/
inductive Fault where
  /-- `state.DoS(level, …)`, and `state.Invalid(…)` with level 0, followed by `return false`. -/
  | dos (level : Nat) (code : UInt8) (reason : String) (corruption : Bool)
  /-- `return error(message)` or a `false` that leaves the validation state as it is. -/
  | error (message : String)
  /-- An `assert` fails. -/
  | assertion (expression : String)
  /-- An exception leaves the function. -/
  | exception (what : String)
  /-- An `int64_t` sum leaves its range. -/
  | overflow
  deriving DecidableEq, Repr

def REJECT_INVALID : UInt8 := 0x10
def REJECT_OBSOLETE : UInt8 := 0x11
def REJECT_NONSTANDARD : UInt8 := 0x40

/-- `state.DoS(level, …, REJECT_INVALID, reason)`. -/
def rejectInvalid (level : Nat) (reason : String) : Fault := .dos level REJECT_INVALID reason false

def reject (condition : Bool) (fault : Fault) : Except Fault Unit :=
  if condition then .error fault else .ok ()

theorem reject_ok {condition : Bool} {fault : Fault} {u : Unit} :
    reject condition fault = .ok u ↔ condition = false := by
  cases condition <;> simp [reject]

theorem reject_ne_ok {α : Type} [DecidableEq α] {a b : α} {fault : Fault} {u : Unit} :
    reject (a ≠ b) fault = .ok u ↔ a = b := by
  rw [reject_ok, decide_eq_false_iff_not]
  exact Decidable.not_not

abbrev CAmount := ℤ

def COIN : CAmount := 100000000

def MAX_MONEY : CAmount := 840000000 * COIN

def moneyRange (nValue : CAmount) : Bool := 0 ≤ nValue && nValue ≤ MAX_MONEY

/-- The values of an `int64_t`. -/
def Int64Range (n : ℤ) : Prop := -(2 ^ 63) ≤ n ∧ n < 2 ^ 63

instance (n : ℤ) : Decidable (Int64Range n) := inferInstanceAs (Decidable (_ ∧ _))

/-- The result of an `int64_t` operation. -/
def checked (n : ℤ) : Except Fault CAmount := if Int64Range n then .ok n else .error .overflow

theorem moneyRange_iff {n : CAmount} : moneyRange n = true ↔ 0 ≤ n ∧ n ≤ MAX_MONEY := by
  simp [moneyRange]

theorem checked_ok {n : ℤ} (h : Int64Range n) : checked n = .ok n := if_pos h

theorem checked_eq_ok {n m : ℤ} : checked n = .ok m ↔ Int64Range n ∧ m = n := by
  unfold checked
  split
  · simp [*, eq_comm]
  · simp [*]

/-- The result of an `int` operation. -/
def checkedInt (n : Int) : Except Fault Int := if -(2 ^ 31) ≤ n ∧ n < 2 ^ 31 then .ok n else .error .overflow

theorem checkedInt_ok {n : Int} (h : -(2 ^ 31) ≤ n) (h' : n < 2 ^ 31) : checkedInt n = .ok n := if_pos ⟨h, h'⟩

theorem checkedInt_eq_ok {n m : Int} : checkedInt n = .ok m ↔ (-(2 ^ 31) ≤ n ∧ n < 2 ^ 31) ∧ m = n := by
  unfold checkedInt
  split
  · rename_i h
    exact ⟨fun hm => ⟨h, (Except.ok.inj hm).symm⟩, fun hm => by rw [hm.2]⟩
  · rename_i h
    exact ⟨fun hm => (by cases hm), fun hm => absurd hm.1 h⟩

end LitecoinZ
