import Mathlib.Data.List.DropRight
import LitecoinZ.Primitives.Transaction

/-!
# The unspent outputs of a transaction

`CCoins` of `coins.h`: the outputs of a transaction that are still available, with the metadata of the transaction.
Spent outputs are null, and `Cleanup` drops them at the end of the list.
-/

namespace LitecoinZ

open List

structure CCoins where
  fCoinBase : Bool := false
  vout : List CTxOut := []
  nHeight : Int := 0
  nVersion : Int := 0
  deriving DecidableEq, Repr

def dropNulls (vout : List CTxOut) : List CTxOut := vout.rdropWhile CTxOut.isNull

namespace CCoins

def clear : CCoins := {}

variable (c : CCoins)

def cleanup : CCoins := { c with vout := dropNulls c.vout }

def clearUnspendable : CCoins :=
  cleanup { c with vout := c.vout.map fun o => if isUnspendable o.scriptPubKey then .null else o }

/-- `FromTx`, and the constructor from a transaction. -/
def fromTx (tx : CTransaction) (nHeightIn : Int) : CCoins :=
  clearUnspendable { fCoinBase := tx.isCoinBase, vout := tx.vout, nHeight := nHeightIn, nVersion := tx.nVersion }

def isPruned : Bool := c.vout.all CTxOut.isNull

def isAvailable (nPos : Nat) : Bool := c.vout[nPos]?.any (!·.isNull)

/-- `Spend`: whether the output was there, and the coins after it. -/
def spend (nPos : Nat) : Bool × CCoins :=
  if c.isAvailable nPos then (true, cleanup { c with vout := c.vout.set nPos .null }) else (false, c)

/-- `operator==`: all pruned coins are equal. -/
def equal (a b : CCoins) : Bool := (a.isPruned && b.isPruned) || a == b

def output (nPos : Nat) : Option CTxOut := c.vout[nPos]?.filter (!·.isNull)

theorem isAvailable_eq (n : Nat) : c.isAvailable n = (c.output n).isSome := by
  simp only [isAvailable, output]
  cases c.vout[n]? with
  | none => rfl
  | some o => cases h : o.isNull <;> simp [h]

variable {c : CCoins}

theorem isPruned_iff : c.isPruned = true ↔ ∀ n, c.output n = none := by
  simp only [isPruned, all_eq_true, output, Option.filter_eq_none_iff, Bool.not_eq_true', Bool.not_eq_false]
  constructor
  · intro h n o ho
    exact h o (mem_of_getElem? ho)
  · intro h o ho
    obtain ⟨n, hn⟩ := mem_iff_getElem?.1 ho
    exact h n o hn

theorem filter_getElem?_dropNulls (vout : List CTxOut) (n : Nat) :
    (dropNulls vout)[n]?.filter (!·.isNull) = vout[n]?.filter (!·.isNull) := by
  induction vout using List.reverseRecOn with
  | nil => rfl
  | append_singleton vout o ih =>
    by_cases ho : o.isNull = true
    · rw [dropNulls, rdropWhile_concat_pos _ _ _ ho, ← dropNulls, ih]
      rcases lt_trichotomy n vout.length with h | rfl | h
      · rw [getElem?_append_left h]
      · simp [Option.filter, ho]
      · rw [getElem?_eq_none (by omega), getElem?_eq_none (by simp; omega)]
    · rw [dropNulls, rdropWhile_concat_neg _ _ _ ho]

@[simp] theorem output_cleanup (c : CCoins) (n : Nat) : c.cleanup.output n = c.output n :=
  filter_getElem?_dropNulls c.vout n

@[simp] theorem isPruned_cleanup (c : CCoins) : c.cleanup.isPruned = c.isPruned := by
  rw [Bool.eq_iff_iff, isPruned_iff, isPruned_iff]
  simp only [output_cleanup]

theorem output_spend {n : Nat} (h : c.isAvailable n = true) (m : Nat) :
    (c.spend n).2.output m = if m = n then none else c.output m := by
  rw [spend, if_pos h, output_cleanup]
  simp only [output, getElem?_set]
  have hlt : n < c.vout.length := by
    by_contra hn
    rw [isAvailable, getElem?_eq_none (by omega)] at h
    cases h
  by_cases hm : m = n
  · subst hm
    simp [hlt]
  · rw [if_neg (Ne.symm hm), if_neg hm]

theorem isPruned_clearUnspendable (h : c.isPruned = true) : c.clearUnspendable.isPruned = true := by
  rw [clearUnspendable, isPruned_cleanup]
  simp only [isPruned, all_eq_true, mem_map] at h ⊢
  rintro _ ⟨o, ho, rfl⟩
  split
  · rfl
  · exact h o ho

theorem equal_of_isPruned {a b : CCoins} (ha : a.isPruned = true) : a.equal b = b.isPruned := by
  by_cases hb : b.isPruned = true
  · simp [equal, ha, hb]
  · have hne : a ≠ b := by
      rintro rfl
      exact hb ha
    simp [equal, hb, hne]

end CCoins

/-- What an answer of `GetCoins` says with absent and fully spent identified. -/
def unspent (c : Option CCoins) : Option CCoins := c.filter (!·.isPruned)

@[simp] theorem unspent_none : unspent none = none := rfl

variable {c : CCoins}

theorem unspent_some_of_pruned (h : c.isPruned = true) : unspent (some c) = none := by
  simp [unspent, h]

theorem unspent_some_of_not_pruned (h : c.isPruned = false) : unspent (some c) = some c := by
  simp [unspent, h]

theorem not_pruned_of_unspent {a : Option CCoins} (h : unspent a = some c) : c.isPruned = false := by
  simpa using (Option.filter_eq_some_iff.1 h).2

end LitecoinZ
