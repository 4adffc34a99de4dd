import LitecoinZ.Script.Interpreter

/-!
# The stack machine

`EvalScript` of `interpreter.cpp` with every access to its vectors, every assertion of `CScriptNum` and every exception.  The
operations are written as the source has them: what they check first, which values they read, in which order values are taken
and put back.  A stack is a list with its top first, `stacktop(-i)` its value number `i`.
-/

namespace LitecoinZ.StackMachine

/-- How the `try` block of `EvalScript` is left before its end. -/
inductive Thrown where
  /-- The function returns `false` and leaves an error. -/
  | serror (e : ScriptError)
  /-- A `scriptnum_error`. -/
  | scriptnumError (what : String)
  /-- Another exception, or an access outside of a vector. -/
  | exception (what : String)
  /-- An `assert` fails, or the result of an operation has no `int64_t`. -/
  | assertion (expression : String)
  deriving DecidableEq, Repr

/-- `catch (...)`: an exception leaves an unknown error. -/
def Thrown.caught : Thrown → ScriptFault
  | .serror e => .serror e
  | .scriptnumError _ | .exception _ => .serror .unknownError
  | .assertion expression => .assertion expression

/-- The hash functions, which fill vectors of fixed sizes, and the test for a low S value. -/
structure Crypto where
  ripemd160 : List UInt8 → Vector UInt8 20
  sha1 : List UInt8 → Vector UInt8 20
  sha256 : List UInt8 → Vector UInt8 32
  checkLowS : List UInt8 → Bool

def Crypto.toScriptCrypto (crypto : Crypto) : ScriptCrypto where
  ripemd160 vch := (crypto.ripemd160 vch).toList
  sha1 vch := (crypto.sha1 vch).toList
  sha256 vch := (crypto.sha256 vch).toList
  checkLowS := crypto.checkLowS

/-- `return set_error(serror, e)` when the condition holds. -/
def returnIf (condition : Bool) (e : ScriptError) : Except Thrown Unit :=
  if condition then .error (.serror e) else .ok ()

def orReturn {α : Type} (x : Except ScriptFault α) : Except Thrown α :=
  x.mapError fun
    | .serror e => .serror e
    | .assertion expression => .assertion expression

variable (stack : List Valtype)

/-- `stacktop(-i)`, which is `stack.at(stack.size() - i)`. -/
def stacktop (i : Nat) : Except Thrown Valtype :=
  if i = 0 then .error (.exception "vector::at")
  else
    match stack[i - 1]? with
    | some vch => .ok vch
    | none => .error (.exception "vector::at")

def popstack (stack : List Valtype) : Except Thrown (List Valtype) :=
  match stack with
  | [] => .error (.exception "popstack(): stack empty")
  | _ :: stack => .ok stack

/-- `n` times `popstack(stack)`. -/
def popMany : Nat → List Valtype → Except Thrown (List Valtype)
  | 0, stack => .ok stack
  | n + 1, stack => do
    let stack ← popstack stack
    popMany n stack

/-- `swap(stacktop(-i), stacktop(-j))`. -/
def swapTop (i j : Nat) : Except Thrown (List Valtype) := do
  let a ← stacktop stack i
  let b ← stacktop stack j
  pure ((stack.set (i - 1) b).set (j - 1) a)

/-- `stack.erase(stack.end() - i, stack.end() - j)`. -/
def eraseTop (i j : Nat) : Except Thrown (List Valtype) :=
  if j ≤ i ∧ i ≤ stack.length then .ok (stack.take j ++ stack.drop i) else .error (.exception "vector::erase")

/-- `stack.insert(stack.end() - i, vch)`. -/
def insertTop (i : Nat) (vch : Valtype) : Except Thrown (List Valtype) :=
  if i ≤ stack.length then .ok (stack.take i ++ vch :: stack.drop i) else .error (.exception "vector::insert")

/-! ### Numbers -/

/-- The constructor of `CScriptNum` from bytes. -/
def scriptNum (vch : Valtype) (fRequireMinimal : Bool) (nMaxNumSize : Nat) : Except Thrown Int :=
  if vch.length > nMaxNumSize then .error (.scriptnumError "script number overflow")
  else if fRequireMinimal && CScriptNum.padded vch then .error (.scriptnumError "non-minimally encoded script number")
  else .ok (CScriptNum.setVch vch)

/-- Just the bytes that `serialize` writes are taken, so a number has no other bytes, and zero none at all. -/
theorem scriptNum_ok_iff_serialize : (∀ n : Int, -2 ^ 63 < n → n < 2 ^ 63 → CScriptNum.setVch (CScriptNum.serialize n) = n) ∧
    ∀ (vch : Valtype) (nMaxNumSize : Nat), vch.length ≤ 8 → vch.length ≤ nMaxNumSize →
      ((∃ n, scriptNum vch true nMaxNumSize = .ok n) ↔ vch = CScriptNum.serialize (CScriptNum.setVch vch)) ∧
      (∀ n, scriptNum vch true nMaxNumSize = .ok n ↔ vch = CScriptNum.serialize n) ∧
      (scriptNum vch true nMaxNumSize = .ok 0 ↔ vch = []) := by
  refine ⟨fun n _ _ => (CScriptNum.eq_serialize_iff.1 rfl).2, fun vch nMaxNumSize _ hlen => ?_⟩
  have hok : ∀ n, scriptNum vch true nMaxNumSize = .ok n ↔ vch = CScriptNum.serialize n := by
    intro n
    rw [CScriptNum.eq_serialize_iff, scriptNum, if_neg (not_lt.2 hlen)]
    cases CScriptNum.padded vch <;> simp
  refine ⟨⟨?_, fun h => ⟨_, (hok _).2 h⟩⟩, hok, hok 0⟩
  rintro ⟨n, h⟩
  have hn := (hok n).1 h
  rw [(CScriptNum.eq_serialize_iff.1 hn).2]
  exact hn

def assert (expression : String) (condition : Bool) : Except Thrown Unit :=
  if condition then .ok () else .error (.assertion expression)

def int64Max : Int := 2 ^ 63 - 1
def int64Min : Int := -2 ^ 63

def plusAssign (value rhs : Int) : Except Thrown Int := do
  assert "rhs == 0 || (rhs > 0 && m_value <= max - rhs) || (rhs < 0 && m_value >= min - rhs)"
    (rhs == 0 || (rhs > 0 && value ≤ int64Max - rhs) || (rhs < 0 && value ≥ int64Min - rhs))
  pure (value + rhs)

def minusAssign (value rhs : Int) : Except Thrown Int := do
  assert "rhs == 0 || (rhs > 0 && m_value >= min + rhs) || (rhs < 0 && m_value <= max + rhs)"
    (rhs == 0 || (rhs > 0 && value ≥ int64Min + rhs) || (rhs < 0 && value ≤ int64Max + rhs))
  pure (value - rhs)

def negate (value : Int) : Except Thrown Int := do
  assert "m_value != min" (value != int64Min)
  pure (-value)

/-- The result of `operator+` and `operator-`. -/
def fromInt64 (value : Int) : Except Thrown Int := do
  assert "int64_t" (int64Min ≤ value && value ≤ int64Max)
  pure value

def unary (opcode : UInt8) (bn : Int) : Except Thrown Int :=
  match opcode with
  | OP_1ADD => plusAssign bn 1
  | OP_1SUB => minusAssign bn 1
  | OP_NEGATE => negate bn
  | OP_ABS => if bn < 0 then negate bn else .ok bn
  | OP_NOT => .ok (boolNum (bn == 0))
  | OP_0NOTEQUAL => .ok (boolNum (bn != 0))
  | _ => .error (.assertion "!\"invalid opcode\"")

def binary (opcode : UInt8) (bn1 bn2 : Int) : Except Thrown Int :=
  match opcode with
  | OP_ADD => fromInt64 (bn1 + bn2)
  | OP_SUB => fromInt64 (bn1 - bn2)
  | OP_BOOLAND => .ok (boolNum (bn1 != 0 && bn2 != 0))
  | OP_BOOLOR => .ok (boolNum (bn1 != 0 || bn2 != 0))
  | OP_NUMEQUAL => .ok (boolNum (bn1 == bn2))
  | OP_NUMEQUALVERIFY => .ok (boolNum (bn1 == bn2))
  | OP_NUMNOTEQUAL => .ok (boolNum (bn1 != bn2))
  | OP_LESSTHAN => .ok (boolNum (bn1 < bn2))
  | OP_GREATERTHAN => .ok (boolNum (bn1 > bn2))
  | OP_LESSTHANOREQUAL => .ok (boolNum (bn1 ≤ bn2))
  | OP_GREATERTHANOREQUAL => .ok (boolNum (bn1 ≥ bn2))
  | OP_MIN => .ok (if bn1 < bn2 then bn1 else bn2)
  | OP_MAX => .ok (if bn1 > bn2 then bn1 else bn2)
  | _ => .error (.assertion "!\"invalid opcode\"")

/-! ### Operations on the stack -/

variable (st : EvalState)

/-- An operation that changes only the stack. -/
def onStack (f : List Valtype → Except Thrown (List Valtype)) : Except Thrown EvalState := do
  let stack ← f st.stack
  pure { st with stack := stack }

def op2Drop : Except Thrown (List Valtype) := do
  returnIf (stack.length < 2) .invalidStackOperation
  let stack ← popstack stack
  popstack stack

def op2Dup : Except Thrown (List Valtype) := do
  returnIf (stack.length < 2) .invalidStackOperation
  let vch1 ← stacktop stack 2
  let vch2 ← stacktop stack 1
  pure (vch2 :: vch1 :: stack)

def op3Dup : Except Thrown (List Valtype) := do
  returnIf (stack.length < 3) .invalidStackOperation
  let vch1 ← stacktop stack 3
  let vch2 ← stacktop stack 2
  let vch3 ← stacktop stack 1
  pure (vch3 :: vch2 :: vch1 :: stack)

def op2Over : Except Thrown (List Valtype) := do
  returnIf (stack.length < 4) .invalidStackOperation
  let vch1 ← stacktop stack 4
  let vch2 ← stacktop stack 3
  pure (vch2 :: vch1 :: stack)

def op2Rot : Except Thrown (List Valtype) := do
  returnIf (stack.length < 6) .invalidStackOperation
  let vch1 ← stacktop stack 6
  let vch2 ← stacktop stack 5
  let stack ← eraseTop stack 6 4
  pure (vch2 :: vch1 :: stack)

def op2Swap : Except Thrown (List Valtype) := do
  returnIf (stack.length < 4) .invalidStackOperation
  let stack ← swapTop stack 4 2
  swapTop stack 3 1

def opIfDup : Except Thrown (List Valtype) := do
  returnIf (stack.length < 1) .invalidStackOperation
  let vch ← stacktop stack 1
  pure (if castToBool vch then vch :: stack else stack)

def opDrop : Except Thrown (List Valtype) := do
  returnIf (stack.length < 1) .invalidStackOperation
  popstack stack

def opDup : Except Thrown (List Valtype) := do
  returnIf (stack.length < 1) .invalidStackOperation
  let vch ← stacktop stack 1
  pure (vch :: stack)

def opNip : Except Thrown (List Valtype) := do
  returnIf (stack.length < 2) .invalidStackOperation
  eraseTop stack 2 1

def opOver : Except Thrown (List Valtype) := do
  returnIf (stack.length < 2) .invalidStackOperation
  let vch ← stacktop stack 2
  pure (vch :: stack)

def opPick (roll fRequireMinimal : Bool) (stack : List Valtype) : Except Thrown (List Valtype) := do
  returnIf (stack.length < 2) .invalidStackOperation
  let vch ← stacktop stack 1
  let num ← scriptNum vch fRequireMinimal nDefaultMaxNumSize
  let n := CScriptNum.getint num
  let stack ← popstack stack
  returnIf (n < 0 || n ≥ stack.length) .invalidStackOperation
  let vch ← stacktop stack (n.toNat + 1)
  let stack ← (if roll then eraseTop stack (n.toNat + 1) n.toNat else .ok stack)
  pure (vch :: stack)

def opRot : Except Thrown (List Valtype) := do
  returnIf (stack.length < 3) .invalidStackOperation
  let stack ← swapTop stack 3 2
  swapTop stack 2 1

def opSwap : Except Thrown (List Valtype) := do
  returnIf (stack.length < 2) .invalidStackOperation
  swapTop stack 2 1

def opTuck : Except Thrown (List Valtype) := do
  returnIf (stack.length < 2) .invalidStackOperation
  let vch ← stacktop stack 1
  insertTop stack 2 vch

def opSize : Except Thrown (List Valtype) := do
  returnIf (stack.length < 1) .invalidStackOperation
  let vch ← stacktop stack 1
  pure (CScriptNum.serialize vch.length :: stack)

/-- The truth value that an operation leaves; its `VERIFY` form drops it again or fails. -/
def pushVerify (verify : Option ScriptError) (fValue : Bool) (stack : List Valtype) : Except Thrown (List Valtype) :=
  let stack := ofBool fValue :: stack
  match verify with
  | none => .ok stack
  | some e => if fValue then popstack stack else .error (.serror e)

def opEqual (verify : Option ScriptError) (stack : List Valtype) : Except Thrown (List Valtype) := do
  returnIf (stack.length < 2) .invalidStackOperation
  let vch1 ← stacktop stack 2
  let vch2 ← stacktop stack 1
  let stack ← popMany 2 stack
  pushVerify verify (vch1 == vch2) stack

def opUnary (opcode : UInt8) (fRequireMinimal : Bool) (stack : List Valtype) : Except Thrown (List Valtype) := do
  returnIf (stack.length < 1) .invalidStackOperation
  let vch ← stacktop stack 1
  let bn ← scriptNum vch fRequireMinimal nDefaultMaxNumSize
  let bn ← unary opcode bn
  let stack ← popstack stack
  pure (CScriptNum.serialize bn :: stack)

def opBinary (opcode : UInt8) (fRequireMinimal : Bool) (stack : List Valtype) : Except Thrown (List Valtype) := do
  returnIf (stack.length < 2) .invalidStackOperation
  let vch1 ← stacktop stack 2
  let bn1 ← scriptNum vch1 fRequireMinimal nDefaultMaxNumSize
  let vch2 ← stacktop stack 1
  let bn2 ← scriptNum vch2 fRequireMinimal nDefaultMaxNumSize
  let bn ← binary opcode bn1 bn2
  let stack ← popMany 2 stack
  let stack := CScriptNum.serialize bn :: stack
  if opcode = OP_NUMEQUALVERIFY then do
    let vch ← stacktop stack 1
    returnIf (!castToBool vch) .numEqualVerify
    popstack stack
  else pure stack

def opWithin (fRequireMinimal : Bool) (stack : List Valtype) : Except Thrown (List Valtype) := do
  returnIf (stack.length < 3) .invalidStackOperation
  let vch1 ← stacktop stack 3
  let bn1 ← scriptNum vch1 fRequireMinimal nDefaultMaxNumSize
  let vch2 ← stacktop stack 2
  let bn2 ← scriptNum vch2 fRequireMinimal nDefaultMaxNumSize
  let vch3 ← stacktop stack 1
  let bn3 ← scriptNum vch3 fRequireMinimal nDefaultMaxNumSize
  let stack ← popMany 3 stack
  pure (ofBool (bn2 ≤ bn1 && bn1 < bn3) :: stack)

def opHash {n : Nat} (hash : List UInt8 → Vector UInt8 n) (stack : List Valtype) : Except Thrown (List Valtype) := do
  returnIf (stack.length < 1) .invalidStackOperation
  let vch ← stacktop stack 1
  let stack ← popstack stack
  pure ((hash vch).toList :: stack)

section

variable (crypto : Crypto) (checker : BaseSignatureChecker) (flags : BitVec 32) (script : CScript)

def opCheckSig (verify : Option ScriptError) (stack : List Valtype) : Except Thrown (List Valtype) := do
  returnIf (stack.length < 2) .invalidStackOperation
  let vchSig ← stacktop stack 2
  let vchPubKey ← stacktop stack 1
  orReturn (checkEncodings crypto.toScriptCrypto flags vchSig vchPubKey)
  let stack ← popMany 2 stack
  pushVerify verify (checker.checkSig vchSig vchPubKey script) stack

/-- The loop of `OP_CHECKMULTISIG`: as long as it succeeds and signatures are left.  Each round uses up a key. -/
def checkMultiSig (stack : List Valtype) : (nKeysCount nSigsCount ikey isig : Nat) → Except Thrown Bool
  | _, 0, _, _ => .ok true
  -- This would read a signature for which no key is left.
  | 0, _ + 1, _, _ => .error (.exception "nSigsCount > nKeysCount")
  | nKeysCount + 1, nSigsCount + 1, ikey, isig => do
    let vchSig ← stacktop stack isig
    let vchPubKey ← stacktop stack ikey
    orReturn (checkEncodings crypto.toScriptCrypto flags vchSig vchPubKey)
    let fOk := checker.checkSig vchSig vchPubKey script
    let nSigsLeft := if fOk then nSigsCount else nSigsCount + 1
    if nSigsLeft > nKeysCount then pure false
    else checkMultiSig stack nKeysCount nSigsLeft (ikey + 1) (if fOk then isig + 1 else isig)

def opCheckMultiSig (verify : Option ScriptError) (st : EvalState) : Except Thrown EvalState := do
  let fRequireMinimal := hasFlag flags SCRIPT_VERIFY_MINIMALDATA
  returnIf (st.stack.length < 1) .invalidStackOperation
  let vchKeys ← stacktop st.stack 1
  let numKeys ← scriptNum vchKeys fRequireMinimal nDefaultMaxNumSize
  let nKeysCount := CScriptNum.getint numKeys
  returnIf (nKeysCount < 0 || nKeysCount > 20) .pubkeyCount
  let nOpCount := st.nOpCount + nKeysCount.toNat
  returnIf (nOpCount > 201) .opCount
  let ikey := 2
  let i := ikey + nKeysCount.toNat
  returnIf (st.stack.length < i) .invalidStackOperation
  let vchSigs ← stacktop st.stack i
  let numSigs ← scriptNum vchSigs fRequireMinimal nDefaultMaxNumSize
  let nSigsCount := CScriptNum.getint numSigs
  returnIf (nSigsCount < 0 || nSigsCount > nKeysCount) .sigCount
  let isig := i + 1
  let i := isig + nSigsCount.toNat
  returnIf (st.stack.length < i) .invalidStackOperation
  let fSuccess ← checkMultiSig crypto checker flags script st.stack nKeysCount.toNat nSigsCount.toNat ikey isig
  let stack ← popMany (i - 1) st.stack
  returnIf (stack.length < 1) .invalidStackOperation
  let dummy ← stacktop stack 1
  returnIf (hasFlag flags SCRIPT_VERIFY_NULLDUMMY && dummy.length > 0) .sigNullDummy
  let stack ← popstack stack
  let stack ← pushVerify verify fSuccess stack
  pure { st with stack := stack, nOpCount := nOpCount }

/-! ### Control -/

def opCheckLockTimeVerify (st : EvalState) : Except Thrown EvalState :=
  if !hasFlag flags SCRIPT_VERIFY_CHECKLOCKTIMEVERIFY then do
    returnIf (hasFlag flags SCRIPT_VERIFY_DISCOURAGE_UPGRADABLE_NOPS) .discourageUpgradableNops
    pure st
  else do
    returnIf (st.stack.length < 1) .invalidStackOperation
    let vch ← stacktop st.stack 1
    let nLockTime ← scriptNum vch (hasFlag flags SCRIPT_VERIFY_MINIMALDATA) 5
    returnIf (nLockTime < 0) .negativeLockTime
    returnIf (!checker.checkLockTime nLockTime) .unsatisfiedLockTime
    pure st

def opUpgradableNop (st : EvalState) : Except Thrown EvalState := do
  returnIf (hasFlag flags SCRIPT_VERIFY_DISCOURAGE_UPGRADABLE_NOPS) .discourageUpgradableNops
  pure st

def opIf (negated fExec : Bool) (st : EvalState) : Except Thrown EvalState :=
  if fExec then do
    returnIf (st.stack.length < 1) .unbalancedConditional
    let vch ← stacktop st.stack 1
    let fValue := if negated then !castToBool vch else castToBool vch
    let stack ← popstack st.stack
    pure { st with stack := stack, vfExec := fValue :: st.vfExec }
  else .ok { st with vfExec := false :: st.vfExec }

def opElse : Except Thrown EvalState := do
  returnIf st.vfExec.isEmpty .unbalancedConditional
  pure { st with vfExec := st.vfExec.modifyHead (!·) }

def opEndIf : Except Thrown EvalState := do
  returnIf st.vfExec.isEmpty .unbalancedConditional
  pure { st with vfExec := st.vfExec.tail }

def opVerify : Except Thrown (List Valtype) := do
  returnIf (stack.length < 1) .invalidStackOperation
  let vch ← stacktop stack 1
  if castToBool vch then popstack stack else .error (.serror .verify)

def opToAltStack : Except Thrown EvalState := do
  returnIf (st.stack.length < 1) .invalidStackOperation
  let vch ← stacktop st.stack 1
  let stack ← popstack st.stack
  pure { st with stack := stack, altstack := vch :: st.altstack }

def opFromAltStack : Except Thrown EvalState := do
  returnIf (st.altstack.length < 1) .invalidAltstackOperation
  let vch ← stacktop st.altstack 1
  let altstack ← popstack st.altstack
  pure { st with stack := vch :: st.stack, altstack := altstack }

/-- The cases that look at no flag. -/
def plainOp (fExec : Bool) (opcode : UInt8) (st : EvalState) : Except Thrown EvalState :=
  match opcode with
  | OP_1NEGATE | OP_1 | OP_2 | OP_3 | OP_4 | OP_5 | OP_6 | OP_7 | OP_8 | OP_9 | OP_10 | OP_11 | OP_12 | OP_13 | OP_14
  | OP_15 | OP_16 => .ok { st with stack := CScriptNum.serialize (opcode.toNat - (OP_1.toNat - 1 : Int)) :: st.stack }
  | OP_NOP => .ok st
  | OP_IF => opIf false fExec st
  | OP_NOTIF => opIf true fExec st
  | OP_ELSE => opElse st
  | OP_ENDIF => opEndIf st
  | OP_VERIFY => onStack st opVerify
  | OP_RETURN => .error (.serror .opReturn)
  | OP_TOALTSTACK => opToAltStack st
  | OP_FROMALTSTACK => opFromAltStack st
  | OP_2DROP => onStack st op2Drop
  | OP_2DUP => onStack st op2Dup
  | OP_3DUP => onStack st op3Dup
  | OP_2OVER => onStack st op2Over
  | OP_2ROT => onStack st op2Rot
  | OP_2SWAP => onStack st op2Swap
  | OP_IFDUP => onStack st opIfDup
  | OP_DEPTH => .ok { st with stack := CScriptNum.serialize st.stack.length :: st.stack }
  | OP_DROP => onStack st opDrop
  | OP_DUP => onStack st opDup
  | OP_NIP => onStack st opNip
  | OP_OVER => onStack st opOver
  | OP_ROT => onStack st opRot
  | OP_SWAP => onStack st opSwap
  | OP_TUCK => onStack st opTuck
  | OP_SIZE => onStack st opSize
  | OP_EQUAL => onStack st (opEqual none)
  | OP_EQUALVERIFY => onStack st (opEqual (some .equalVerify))
  | OP_RIPEMD160 => onStack st (opHash crypto.ripemd160)
  | OP_SHA1 => onStack st (opHash crypto.sha1)
  | OP_SHA256 => onStack st (opHash crypto.sha256)
  | OP_HASH160 => onStack st (opHash fun vch => crypto.ripemd160 (crypto.sha256 vch).toList)
  | OP_HASH256 => onStack st (opHash fun vch => crypto.sha256 (crypto.sha256 vch).toList)
  | _ => .error (.serror .badOpcode)

def execOp (fExec : Bool) (opcode : UInt8) (st : EvalState) : Except Thrown EvalState :=
  let fRequireMinimal := hasFlag flags SCRIPT_VERIFY_MINIMALDATA
  match opcode with
  | OP_CHECKLOCKTIMEVERIFY => opCheckLockTimeVerify checker flags st
  | OP_NOP1 | OP_NOP3 | OP_NOP4 | OP_NOP5 | OP_NOP6 | OP_NOP7 | OP_NOP8 | OP_NOP9 | OP_NOP10 => opUpgradableNop flags st
  | OP_PICK => onStack st (opPick false fRequireMinimal)
  | OP_ROLL => onStack st (opPick true fRequireMinimal)
  | OP_1ADD | OP_1SUB | OP_NEGATE | OP_ABS | OP_NOT | OP_0NOTEQUAL => onStack st (opUnary opcode fRequireMinimal)
  | OP_ADD | OP_SUB | OP_BOOLAND | OP_BOOLOR | OP_NUMEQUAL | OP_NUMEQUALVERIFY | OP_NUMNOTEQUAL | OP_LESSTHAN
  | OP_GREATERTHAN | OP_LESSTHANOREQUAL | OP_GREATERTHANOREQUAL | OP_MIN | OP_MAX =>
    onStack st (opBinary opcode fRequireMinimal)
  | OP_WITHIN => onStack st (opWithin fRequireMinimal)
  | OP_CHECKSIG => onStack st (opCheckSig crypto checker flags script none)
  | OP_CHECKSIGVERIFY => onStack st (opCheckSig crypto checker flags script (some .checkSigVerify))
  | OP_CHECKMULTISIG => opCheckMultiSig crypto checker flags script none st
  | OP_CHECKMULTISIGVERIFY => opCheckMultiSig crypto checker flags script (some .checkMultiSigVerify) st
  | _ => plainOp crypto fExec opcode st

def pushOrExec (fExec : Bool) (opcode : UInt8) (vchPushValue : Valtype) (st : EvalState) : Except Thrown EvalState :=
  if fExec && opcode ≤ OP_PUSHDATA4 then do
    returnIf (hasFlag flags SCRIPT_VERIFY_MINIMALDATA && !checkMinimalPush vchPushValue opcode) .minimalData
    pure { st with stack := vchPushValue :: st.stack }
  else if fExec || (OP_IF ≤ opcode && opcode ≤ OP_ENDIF) then execOp crypto checker flags script fExec opcode st
  else pure st

def evalOp (opcode : UInt8) (vchPushValue : Valtype) (st : EvalState) : Except Thrown EvalState := do
  let fExec := !st.vfExec.contains false
  returnIf (vchPushValue.length > MAX_SCRIPT_ELEMENT_SIZE) .pushSize
  let nOpCount := if opcode > OP_16 then st.nOpCount + 1 else st.nOpCount
  returnIf (opcode > OP_16 && nOpCount > 201) .opCount
  returnIf (isDisabled opcode) .disabledOpcode
  let st ← pushOrExec crypto checker flags script fExec opcode vchPushValue { st with nOpCount := nOpCount }
  returnIf (st.stack.length + st.altstack.length > 1000) .stackSize
  pure st

/-- The loop in the `try` block, at the rest of the script. -/
def evalFrom (pc : CScript) (st : EvalState) : Except Thrown EvalState :=
  match pc with
  | [] => .ok st
  | op :: rest =>
    match _h : CScript.getOp (op :: rest) with
    | none => .error (.serror .badOpcode)
    | some (opcode, vchPushValue, pc') => do
      let st' ← evalOp crypto checker flags script opcode vchPushValue st
      evalFrom pc' st'
termination_by pc.length
decreasing_by exact CScript.length_getOp _h

def evalScript (stack : List Valtype) : Except ScriptFault (List Valtype) := do
  setErrorIf (script.length > MAX_SCRIPT_SIZE) .scriptSize
  let st ← (evalFrom crypto checker flags script script { stack := stack }).mapError Thrown.caught
  setErrorIf (!st.vfExec.isEmpty) .unbalancedConditional
  pure st.stack

end

end LitecoinZ.StackMachine
