import LitecoinZ.Script.MultiSig
import LitecoinZ.Script.StackAgrees

/-!
# The limits of scripts

A run of `EvalScript` from a stack of at most 1000 values of at most 520 bytes is left only with an error that is set or a
`scriptnum_error`, and it is the run of the interpreter on lists; a run that succeeds counts at most 201 operations, with the
keys of `OP_CHECKMULTISIG`, and has at most 1000 values of at most 520 bytes on its stacks after each opcode
(`evalScript_limits`).
-/

namespace LitecoinZ.StackMachine

open StateExcept

/-! ### The loop -/

/-- The limits between two opcodes. -/
structure Within (st : EvalState) : Prop extends Held st where
  size : st.stack.length + st.altstack.length ≤ 1000
  nOpCount : st.nOpCount ≤ 201

/-- The operations that an opcode counts as. -/
def countedOps (opcode : UInt8) (st : EvalState) : Nat :=
  (if opcode > OP_16 then 1 else 0) + if st.vfExec.contains false then 0 else keysChecked opcode st

theorem keysChecked_of_le {opcode : UInt8} {st : EvalState} (h : opcode ≤ OP_ENDIF) : keysChecked opcode st = 0 := by
  rw [keysChecked, if_neg]
  rintro (rfl | rfl)
  · exact absurd h (by decide)
  · exact absurd h (by decide)

section

variable (crypto : Crypto) (checker : BaseSignatureChecker) (flags : BitVec 32) (script : CScript) {st : EvalState}

theorem agrees_pushOrExec (fExec : Bool) (opcode : UInt8) {vchPushValue : Valtype} (h : Held st)
    (hvch : vchPushValue.length ≤ MAX_SCRIPT_ELEMENT_SIZE) (hops : st.nOpCount ≤ 201) (hsize : st.stack.length ≤ 1000) :
    Agrees (fun st' => Stays st (if fExec then keysChecked opcode st else 0) st' ∧ st'.nOpCount ≤ 201)
      (pushOrExec crypto checker flags script fExec opcode vchPushValue st)
      (LitecoinZ.pushOrExec crypto.toScriptCrypto checker flags script fExec opcode vchPushValue st) := by
  rw [pushOrExec, LitecoinZ.pushOrExec]
  by_cases hpush : (fExec && decide (opcode ≤ OP_PUSHDATA4)) = true
  · rw [if_pos hpush, if_pos hpush]
    rw [Bool.and_eq_true, decide_eq_true_iff] at hpush
    have hzero : keysChecked opcode st = 0 := keysChecked_of_le (UInt8.le_trans hpush.2 (by decide))
    refine (agrees_returnIf _ _).bind fun _ _ => .ok ⟨⟨⟨h.stack.cons hvch, h.altstack⟩, ?_⟩, hops⟩
    rw [hzero, ite_self]
    rfl
  · rw [if_neg hpush, if_neg hpush]
    by_cases hexec : (fExec || decide (OP_IF ≤ opcode) && decide (opcode ≤ OP_ENDIF)) = true
    · rw [if_pos hexec, if_pos hexec]
      have hkeys : (if fExec then keysChecked opcode st else 0) = keysChecked opcode st := by
        cases fExec with
        | true => rfl
        | false =>
          rw [Bool.false_or, Bool.and_eq_true, decide_eq_true_iff, decide_eq_true_iff] at hexec
          exact (keysChecked_of_le hexec.2).symm
      rw [hkeys]
      exact agrees_execOp h checker flags script opcode hops hsize
    · rw [if_neg hexec, if_neg hexec]
      rw [Bool.not_eq_true, Bool.or_eq_false_iff] at hexec
      rw [hexec.1]
      exact .ok ⟨⟨h, rfl⟩, hops⟩

theorem agrees_evalOp (opcode : UInt8) (vchPushValue : Valtype) (h : Within st) :
    Agrees (fun st' => Within st' ∧ st'.nOpCount = st.nOpCount + countedOps opcode st)
      (evalOp crypto checker flags script opcode vchPushValue st)
      (LitecoinZ.evalOp crypto.toScriptCrypto checker flags script opcode vchPushValue st) := by
  rw [evalOp, LitecoinZ.evalOp]
  dsimp only
  refine (agrees_returnIf _ _).bind fun _ hvch => (agrees_returnIf _ _).bind fun _ hops => (agrees_returnIf _ _).bind fun _ _ => ?_
  have hlimit : (if opcode > OP_16 then st.nOpCount + 1 else st.nOpCount) ≤ 201 := by
    by_cases hcnt : opcode > OP_16
    · rw [decide_eq_true hcnt, Bool.true_and, if_pos hcnt] at hops
      rw [if_pos hcnt]
      exact Nat.not_lt.1 (of_decide_eq_false hops)
    · rw [if_neg hcnt]
      exact h.nOpCount
  have hsize := h.size
  refine Agrees.bind (agrees_pushOrExec crypto checker flags script _ opcode ⟨h.stack, h.altstack⟩
    (Nat.not_lt.1 (of_decide_eq_false hvch)) hlimit (show st.stack.length ≤ 1000 by omega)) fun st' hst' => ?_
  refine (agrees_returnIf _ _).bind fun _ hsize' => .ok ⟨⟨hst'.1.toHeld, ?_, hst'.2⟩, ?_⟩
  · exact Nat.not_lt.1 (of_decide_eq_false hsize')
  · rw [hst'.1.nOpCount, countedOps]
    cases st.vfExec.contains false with
    | true =>
      dsimp only
      split <;> rfl
    | false =>
      dsimp only
      split
      · exact Nat.add_assoc _ _ _
      · exact congrArg _ (Nat.zero_add _).symm

/-- The opcodes that a run reads, each with the states before and after it. -/
structure Step where
  opcode : UInt8
  before : EvalState
  after : EvalState

/-- The steps of a run, up to its end or its first failure. -/
def steps (pc : CScript) (st : EvalState) : List Step :=
  match pc with
  | [] => []
  | op :: rest =>
    match _h : CScript.getOp (op :: rest) with
    | none => []
    | some (opcode, vchPushValue, pc') =>
      match evalOp crypto checker flags script opcode vchPushValue st with
      | .error _ => []
      | .ok st' => ⟨opcode, st, st'⟩ :: steps pc' st'
termination_by pc.length
decreasing_by exact CScript.length_getOp _h

/-- The operations that the steps of a run count as. -/
def opsOf (run : List Step) : Nat := (run.map fun step => countedOps step.opcode step.before).sum

theorem agrees_evalFrom (pc : CScript) (h : Within st) :
    Agrees (fun st' => Within st' ∧ st'.nOpCount = st.nOpCount + opsOf (steps crypto checker flags script pc st) ∧
        ∀ step ∈ steps crypto checker flags script pc st, Within step.after)
      (evalFrom crypto checker flags script pc st)
      (LitecoinZ.evalFrom crypto.toScriptCrypto checker flags script pc st) := by
  induction pc, st using evalFrom.induct with
  | case1 st =>
    rw [evalFrom, LitecoinZ.evalFrom, steps]
    exact .ok ⟨h, rfl, fun _ hstep => absurd hstep List.not_mem_nil⟩
  | case2 st op rest hop =>
    rw [evalFrom, LitecoinZ.evalFrom, hop]
    exact .serror _
  | case3 st op rest opcode vchPushValue pc' hop ih =>
    obtain ⟨hchk, hsame⟩ := agrees_evalOp crypto checker flags script opcode vchPushValue h
    rw [evalFrom, LitecoinZ.evalFrom, steps, hop]
    dsimp only
    rw [← hsame]
    cases heval : evalOp crypto checker flags script opcode vchPushValue st with
    | error fault => exact ⟨.error (hchk.2 fault heval), rfl⟩
    | ok st' =>
      obtain ⟨hwithin, hcount⟩ := hchk.1 st' heval
      refine (ih st' hwithin).mono fun st'' hst'' => ⟨hst''.1, ?_, List.forall_mem_cons.2 ⟨hwithin, hst''.2.2⟩⟩
      rw [hst''.2.1, hcount, Nat.add_assoc]
      rfl

end

/-- `EvalScript` leaves its `try` block with an error that it sets or a `scriptnum_error` and keeps to its limits; and it is
the interpreter on lists. -/
theorem evalScript_limits (crypto : Crypto) (checker : BaseSignatureChecker) (flags : BitVec 32) (script : CScript)
    (stack : List Valtype) (hsize : stack.length ≤ 1000) (hshort : ∀ vch ∈ stack, vch.length ≤ 520) :
    (∀ fault, evalFrom crypto checker flags script script { stack := stack } = .error fault →
      (∃ e, fault = .serror e) ∨ ∃ what, fault = .scriptnumError what) ∧
    (∀ stack', evalScript crypto checker flags script stack = .ok stack' →
      opsOf (steps crypto checker flags script script { stack := stack }) ≤ 201 ∧
      ∀ step ∈ steps crypto checker flags script script { stack := stack },
        step.after.stack.length + step.after.altstack.length ≤ 1000 ∧
        ∀ vch ∈ step.after.stack ++ step.after.altstack, vch.length ≤ 520) ∧
    evalScript crypto checker flags script stack = LitecoinZ.evalScript crypto.toScriptCrypto checker flags stack script := by
  have hwithin : Within { stack := stack } := ⟨⟨hshort, fun _ h => absurd h List.not_mem_nil⟩, hsize, Nat.zero_le _⟩
  obtain ⟨hchk, hsame⟩ := agrees_evalFrom crypto checker flags script script hwithin
  refine ⟨?_, ?_, ?_⟩
  · intro fault hfault
    have hexpected := hchk.2 fault hfault
    cases fault with
    | serror e => exact .inl ⟨e, rfl⟩
    | scriptnumError what => exact .inr ⟨what, rfl⟩
    | exception what => exact hexpected.elim
    | assertion expression => exact hexpected.elim
  · intro stack' hstack'
    rw [evalScript, except_bind_ok] at hstack'
    obtain ⟨-, -, hstack'⟩ := hstack'
    obtain ⟨st', hcaught, -⟩ := except_bind_ok.1 hstack'
    cases hrun : evalFrom crypto checker flags script script { stack := stack } with
    | error fault =>
      rw [hrun] at hcaught
      cases hcaught
    | ok st =>
      obtain ⟨hlast, hcount, hsteps⟩ := hchk.1 st hrun
      rw [Nat.zero_add] at hcount
      refine ⟨hcount ▸ hlast.nOpCount, fun step hstep => ⟨(hsteps step hstep).size, ?_⟩⟩
      intro vch hvch
      rcases List.mem_append.1 hvch with hvch | hvch
      · exact (hsteps step hstep).stack vch hvch
      · exact (hsteps step hstep).altstack vch hvch
  · rw [evalScript, LitecoinZ.evalScript, hsame]

def zeroCrypto : Crypto := ⟨fun _ => .replicate 20 0, fun _ => .replicate 20 0, fun _ => .replicate 32 0, fun _ => false⟩

/-- One and one, on top of a value that is not used. -/
theorem evalScript_limits_add : evalScript zeroCrypto numberedChecker 0 [OP_1, OP_DUP, OP_ADD] [[7]] = .ok [[2], [7]] ∧
    opsOf (steps zeroCrypto numberedChecker 0 [OP_1, OP_DUP, OP_ADD] [OP_1, OP_DUP, OP_ADD] { stack := [[7]] }) ≤ 201 := by
  have hrun : evalScript zeroCrypto numberedChecker 0 [OP_1, OP_DUP, OP_ADD] [[7]] = .ok [[2], [7]] := by decide +kernel
  obtain ⟨-, hlimits, -⟩ := evalScript_limits zeroCrypto numberedChecker 0 [OP_1, OP_DUP, OP_ADD] [[7]] (by decide) (by decide)
  exact ⟨hrun, (hlimits _ hrun).1⟩

end LitecoinZ.StackMachine
