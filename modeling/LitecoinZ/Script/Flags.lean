import LitecoinZ.Lib.Simulation
import LitecoinZ.Script.Interpreter

/-!
# Script flags only tighten

A flag makes the interpreter refuse more scripts.  Under fewer flags every step that succeeds gives the same state, with
two exceptions: `CLEANSTACK` needs `P2SH`, and without `CHECKLOCKTIMEVERIFY` its opcode is a `NOP` that may be discouraged.
The steps are compared with `Relaxes`, first each operation, then the loop, then the runs of `VerifyScript`
(`verifyScript_relaxes`).  So a script that the standard flags accept is accepted under the mandatory flags.
-/

namespace LitecoinZ

open StateExcept

/-- `F'` has no flag that `F` has not, and does not discourage the opcode that `F` enables. -/
structure Looser (F F' : BitVec 32) : Prop where
  subset : F' &&& F = F'
  nops : hasFlag F' SCRIPT_VERIFY_DISCOURAGE_UPGRADABLE_NOPS → hasFlag F SCRIPT_VERIFY_CHECKLOCKTIMEVERIFY →
    hasFlag F' SCRIPT_VERIFY_CHECKLOCKTIMEVERIFY

theorem hasFlag_of_subset {F F' flag : BitVec 32} (h : F' &&& F = F') (hflag : hasFlag F' flag = true) :
    hasFlag F flag = true := by
  unfold hasFlag at hflag ⊢
  rw [bne_iff_ne] at hflag ⊢
  intro hzero
  refine hflag ?_
  rw [← h, BitVec.and_assoc, hzero]
  exact BitVec.and_zero

theorem setErrorIf_relaxes {c c' : Bool} (e : ScriptError) (h : c' = true → c = true) :
    Relaxes (setErrorIf c e) (setErrorIf c' e) := by
  cases c' with
  | false =>
    rintro ⟨⟩ -
    rfl
  | true =>
    rw [h rfl]
    exact .refl _

theorem Looser.setErrorIf {F F' flag : BitVec 32} (h : Looser F F') (c : Bool) (e : ScriptError) :
    Relaxes (setErrorIf (hasFlag F flag && c) e) (setErrorIf (hasFlag F' flag && c) e) := by
  refine setErrorIf_relaxes e fun hc => ?_
  rw [Bool.and_eq_true] at hc ⊢
  exact ⟨hasFlag_of_subset h.subset hc.1, hc.2⟩

theorem onStack_relaxes {f g : List Valtype → Except ScriptFault (List Valtype)} (st : EvalState) (size : Nat)
    (h : ∀ stack, Relaxes (f stack) (g stack)) : Relaxes (onStack st size f) (onStack st size g) :=
  (Relaxes.refl _).bind fun _ => (h _).bind fun _ => .refl _

section

variable {F F' : BitVec 32} (crypto : ScriptCrypto) (checker : BaseSignatureChecker) (script : CScript) (h : Looser F F')

include h

/-! ### Operations -/

theorem Looser.scriptNum (vch : Valtype) (nMaxNumSize : Nat) :
    Relaxes (scriptNum vch (hasFlag F SCRIPT_VERIFY_MINIMALDATA) nMaxNumSize)
      (scriptNum vch (hasFlag F' SCRIPT_VERIFY_MINIMALDATA) nMaxNumSize) :=
  (Relaxes.refl _).bind fun _ => (h.setErrorIf _ _).bind fun _ => .refl _

theorem Looser.opPick (roll : Bool) (st : EvalState) :
    Relaxes (opPick roll (hasFlag F SCRIPT_VERIFY_MINIMALDATA) st)
      (opPick roll (hasFlag F' SCRIPT_VERIFY_MINIMALDATA) st) :=
  onStack_relaxes st 2 fun _ => (Relaxes.refl _).bind fun _ => (h.scriptNum _ _).bind fun _ => .refl _

theorem Looser.opUnary (f : Int → Int) (st : EvalState) :
    Relaxes (opUnary f (hasFlag F SCRIPT_VERIFY_MINIMALDATA) st)
      (opUnary f (hasFlag F' SCRIPT_VERIFY_MINIMALDATA) st) :=
  onStack_relaxes st 1 fun _ => (Relaxes.refl _).bind fun _ => (h.scriptNum _ _).bind fun _ => .refl _

theorem Looser.opBinary (f : Int → Int → Int) (st : EvalState) :
    Relaxes (opBinary f (hasFlag F SCRIPT_VERIFY_MINIMALDATA) st)
      (opBinary f (hasFlag F' SCRIPT_VERIFY_MINIMALDATA) st) := by
  refine onStack_relaxes st 2 fun stack => ?_
  refine (Relaxes.refl _).bind fun vch1 => (h.scriptNum vch1 _).bind fun bn1 => ?_
  exact (Relaxes.refl _).bind fun vch2 => (h.scriptNum vch2 _).bind fun bn2 => .refl _

theorem Looser.opWithin (st : EvalState) :
    Relaxes (opWithin (hasFlag F SCRIPT_VERIFY_MINIMALDATA) st) (opWithin (hasFlag F' SCRIPT_VERIFY_MINIMALDATA) st) := by
  refine onStack_relaxes st 3 fun stack => ?_
  refine (Relaxes.refl _).bind fun vch1 => (h.scriptNum vch1 _).bind fun bn1 => ?_
  refine (Relaxes.refl _).bind fun vch2 => (h.scriptNum vch2 _).bind fun bn2 => ?_
  exact (Relaxes.refl _).bind fun vch3 => (h.scriptNum vch3 _).bind fun bn3 => .refl _

/-- Where the looser flags do not enable the opcode, it does nothing, and enabled it leaves the state as it is. -/
theorem Looser.opCheckLockTimeVerify (st : EvalState) :
    Relaxes (opCheckLockTimeVerify checker F st) (opCheckLockTimeVerify checker F' st) := by
  unfold LitecoinZ.opCheckLockTimeVerify
  by_cases hF' : hasFlag F' SCRIPT_VERIFY_CHECKLOCKTIMEVERIFY = true
  · rw [if_pos hF', if_pos (hasFlag_of_subset h.subset hF')]
    refine (Relaxes.refl _).bind fun _ => (Relaxes.refl _).bind fun vch => ?_
    exact (h.scriptNum vch 5).bind fun nLockTime => .refl _
  · rw [if_neg hF']
    by_cases hF : hasFlag F SCRIPT_VERIFY_CHECKLOCKTIMEVERIFY = true
    · rw [if_pos hF]
      have hnops : hasFlag F' SCRIPT_VERIFY_DISCOURAGE_UPGRADABLE_NOPS = false := by
        by_contra hd
        exact hF' (h.nops (by simpa using hd) hF)
      intro st' hst'
      simp only [except_bind_ok] at hst'
      obtain ⟨-, -, -, -, -, -, -, -, -, -, hst'⟩ := hst'
      rw [hnops]
      exact hst'
    · rw [if_neg hF]
      exact (setErrorIf_relaxes _ (hasFlag_of_subset h.subset)).bind fun _ => .refl _

theorem Looser.opUpgradableNop (st : EvalState) :
    Relaxes (opUpgradableNop F st) (opUpgradableNop F' st) :=
  (setErrorIf_relaxes _ (hasFlag_of_subset h.subset)).bind fun _ => .refl _

theorem Looser.checkSignatureEncoding (vchSig : Valtype) :
    Relaxes (checkSignatureEncoding crypto vchSig F) (checkSignatureEncoding crypto vchSig F') := by
  refine Relaxes.ite (fun _ => .refl _) fun _ => (Relaxes.refl _).bind fun _ => ?_
  refine Relaxes.bind ?_ fun _ => h.setErrorIf _ _
  by_cases hF' : hasFlag F' SCRIPT_VERIFY_LOW_S = true
  · rw [if_pos hF', if_pos (hasFlag_of_subset h.subset hF')]
    exact .refl _
  · rw [if_neg hF']
    rintro ⟨⟩ -
    rfl

theorem Looser.checkEncodings (vchSig vchPubKey : Valtype) :
    Relaxes (checkEncodings crypto F vchSig vchPubKey) (checkEncodings crypto F' vchSig vchPubKey) :=
  (h.checkSignatureEncoding crypto vchSig).bind fun _ => h.setErrorIf _ _

theorem Looser.opCheckSig (verify : Option ScriptError) (st : EvalState) :
    Relaxes (opCheckSig crypto checker F script verify st) (opCheckSig crypto checker F' script verify st) := by
  refine onStack_relaxes st 2 fun stack => ?_
  refine (Relaxes.refl _).bind fun vchSig => (Relaxes.refl _).bind fun vchPubKey => ?_
  exact (h.checkEncodings crypto vchSig vchPubKey).bind fun _ => .refl _

theorem Looser.checkMultiSig (stack : List Valtype) (nKeysCount nSigsCount ikey isig : Nat) :
    Relaxes (checkMultiSig crypto checker F script stack nKeysCount nSigsCount ikey isig)
      (checkMultiSig crypto checker F' script stack nKeysCount nSigsCount ikey isig) := by
  induction nKeysCount generalizing nSigsCount ikey isig with
  | zero => cases nSigsCount <;> exact .refl _
  | succ nKeysCount ih =>
    cases nSigsCount with
    | zero => exact .refl _
    | succ nSigsCount =>
      refine (Relaxes.refl _).bind fun vchSig => (Relaxes.refl _).bind fun vchPubKey => ?_
      exact (h.checkEncodings crypto vchSig vchPubKey).bind fun _ => .ite (fun _ => .refl _) fun _ => ih _ _ _

theorem Looser.opCheckMultiSig (verify : Option ScriptError) (st : EvalState) :
    Relaxes (opCheckMultiSig crypto checker F script verify st) (opCheckMultiSig crypto checker F' script verify st) := by
  refine (Relaxes.refl _).bind fun _ => (Relaxes.refl _).bind fun vchKeys => (h.scriptNum vchKeys _).bind fun numKeys => ?_
  refine (Relaxes.refl _).bind fun _ => (Relaxes.refl _).bind fun _ => (Relaxes.refl _).bind fun _ => ?_
  refine (Relaxes.refl _).bind fun vchSigs => (h.scriptNum vchSigs _).bind fun numSigs => ?_
  refine (Relaxes.refl _).bind fun _ => (Relaxes.refl _).bind fun _ => ?_
  refine (h.checkMultiSig crypto checker script _ _ _ _ _).bind fun fSuccess => ?_
  exact (Relaxes.refl _).bind fun _ => (Relaxes.refl _).bind fun dummy => (h.setErrorIf _ _).bind fun _ => .refl _

theorem Looser.execOp (fExec : Bool) (opcode : UInt8) (st : EvalState) :
    Relaxes (execOp crypto checker F script fExec opcode st) (execOp crypto checker F' script fExec opcode st) := by
  unfold LitecoinZ.execOp
  dsimp only
  split
  case h_18 =>
    split
    · exact h.opUnary _ st
    · exact (h.opBinary _ st).bind fun _ => .refl _
    · exact .refl _
  all_goals first
    | exact h.opCheckLockTimeVerify checker st
    | exact h.opUpgradableNop st
    | exact h.opPick _ st
    | exact h.opWithin st
    | exact h.opCheckSig crypto checker script _ st
    | exact h.opCheckMultiSig crypto checker script _ st

/-! ### Runs -/

theorem Looser.evalOp (opcode : UInt8) (vchPushValue : Valtype) (st : EvalState) :
    Relaxes (evalOp crypto checker F script opcode vchPushValue st)
      (evalOp crypto checker F' script opcode vchPushValue st) := by
  refine (Relaxes.refl _).bind fun _ => (Relaxes.refl _).bind fun _ => (Relaxes.refl _).bind fun _ => ?_
  refine Relaxes.bind ?_ fun _ => .refl _
  refine Relaxes.ite (fun _ => (h.setErrorIf _ _).bind fun _ => .refl _) fun _ => ?_
  exact Relaxes.ite (fun _ => h.execOp crypto checker script _ opcode _) fun _ => .refl _

theorem Looser.evalFrom (pc : CScript) (st : EvalState) :
    Relaxes (evalFrom crypto checker F script pc st) (evalFrom crypto checker F' script pc st) := by
  induction pc, st using evalFrom.induct with
  | case1 st =>
    rw [LitecoinZ.evalFrom, LitecoinZ.evalFrom]
    exact .refl _
  | case2 st op rest hop =>
    rw [LitecoinZ.evalFrom, hop]
    exact .error
  | case3 st op rest opcode vchPushValue pc' hop ih =>
    rw [LitecoinZ.evalFrom, LitecoinZ.evalFrom, hop]
    exact (h.evalOp crypto checker script opcode vchPushValue st).bind ih

theorem Looser.evalScript (stack : List Valtype) :
    Relaxes (evalScript crypto checker F stack script) (evalScript crypto checker F' stack script) :=
  (Relaxes.refl _).bind fun _ => (h.evalFrom crypto checker script script _).bind fun _ => .refl _

theorem Looser.evalRedeemScript (scriptSig : CScript) (stackCopy : List Valtype) :
    Relaxes (evalRedeemScript crypto checker F scriptSig stackCopy)
      (evalRedeemScript crypto checker F' scriptSig stackCopy) := by
  refine (Relaxes.refl _).bind fun _ => ?_
  cases stackCopy with
  | nil => exact .refl _
  | cons pubKeySerialized stack => exact (h.evalScript crypto checker pubKeySerialized stack).bind fun _ => .refl _

/-- The runs of `VerifyScript`.  The clean stack is asked for only together with `P2SH`. -/
theorem Looser.verifyScript
    (hclean : hasFlag F' SCRIPT_VERIFY_CLEANSTACK → hasFlag F' SCRIPT_VERIFY_P2SH) (scriptSig scriptPubKey : CScript) :
    Relaxes (verifyScript crypto checker F scriptSig scriptPubKey)
      (verifyScript crypto checker F' scriptSig scriptPubKey) := by
  refine (h.setErrorIf _ _).bind fun _ => (h.evalScript crypto checker scriptSig []).bind fun stackCopy => ?_
  refine (h.evalScript crypto checker scriptPubKey stackCopy).bind fun stack => (Relaxes.refl _).bind fun _ => ?_
  by_cases hP2SH : hasFlag F' SCRIPT_VERIFY_P2SH = true
  · rw [hP2SH, hasFlag_of_subset h.subset hP2SH]
    refine Relaxes.bind (.ite (fun _ => h.evalRedeemScript crypto checker scriptSig stackCopy) fun _ => .refl _) ?_
    intro stack
    by_cases hCS : hasFlag F' SCRIPT_VERIFY_CLEANSTACK = true
    · rw [if_pos hCS, if_pos (hasFlag_of_subset h.subset hCS)]
      exact .refl _
    · rw [if_neg hCS]
      rintro ⟨⟩ -
      rfl
  · -- The second script is not run, and the stack is not looked at.
    have hCS : ¬ hasFlag F' SCRIPT_VERIFY_CLEANSTACK = true := fun hCS => hP2SH (hclean hCS)
    rintro ⟨⟩ -
    rw [if_neg (by simp [hP2SH]), except_bind_ok]
    exact ⟨stack, rfl, if_neg hCS⟩

end

/-- A script that is accepted stays accepted when flags are taken away. -/
theorem verifyScript_relaxes (crypto : ScriptCrypto) (checker : BaseSignatureChecker) (scriptSig scriptPubKey : CScript)
    (F F' : BitVec 32) (hsubset : F' &&& F = F')
    (hclean : hasFlag F' SCRIPT_VERIFY_CLEANSTACK → hasFlag F' SCRIPT_VERIFY_P2SH)
    (hnops : hasFlag F' SCRIPT_VERIFY_DISCOURAGE_UPGRADABLE_NOPS → hasFlag F SCRIPT_VERIFY_CHECKLOCKTIMEVERIFY →
      hasFlag F' SCRIPT_VERIFY_CHECKLOCKTIMEVERIFY)
    (h : verifyScript crypto checker F scriptSig scriptPubKey = .ok ()) :
    verifyScript crypto checker F' scriptSig scriptPubKey = .ok () := by
  have hloose : Looser F F' := ⟨hsubset, hnops⟩
  exact hloose.verifyScript crypto checker hclean scriptSig scriptPubKey () h

def nullCrypto : ScriptCrypto :=
  ⟨fun _ => List.replicate 20 0, fun _ => List.replicate 20 0, fun _ => List.replicate 32 0, fun _ => false⟩

def nullChecker : BaseSignatureChecker := ⟨fun _ _ _ => false, fun _ => false⟩

/-- The output of a script hash whose script is `OP_1`, under the standard and the mandatory flags. -/
theorem verifyScript_relaxes_standard :
    verifyScript nullCrypto nullChecker STANDARD_SCRIPT_VERIFY_FLAGS [1, OP_1]
      (OP_HASH160 :: 20 :: List.replicate 20 0 ++ [OP_EQUAL]) = .ok () ∧
    verifyScript nullCrypto nullChecker MANDATORY_SCRIPT_VERIFY_FLAGS [1, OP_1]
      (OP_HASH160 :: 20 :: List.replicate 20 0 ++ [OP_EQUAL]) = .ok () := by
  have h : verifyScript nullCrypto nullChecker STANDARD_SCRIPT_VERIFY_FLAGS [1, OP_1]
      (OP_HASH160 :: 20 :: List.replicate 20 0 ++ [OP_EQUAL]) = .ok () := by decide +kernel
  exact ⟨h, verifyScript_relaxes _ _ _ _ _ _ (by decide) (by decide) (by decide) h⟩

end LitecoinZ
