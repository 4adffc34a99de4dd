import LitecoinZ.Script.Script

/-!
# The script interpreter

`EvalScript` and `VerifyScript` of `script/interpreter.cpp`, with the checks of encodings they make.  A stack is a list
with its top in front.  Exceptions of the source are caught in `EvalScript` and end as an unknown error; a failed
`assert` is an outcome of its own.
-/

namespace LitecoinZ

/-! ### Errors and flags -/

/-- `ScriptError_t`. -/
inductive ScriptError where
  | unknownError | evalFalse | opReturn
  | scriptSize | pushSize | opCount | stackSize | sigCount | pubkeyCount
  | verify | equalVerify | checkMultiSigVerify | checkSigVerify | numEqualVerify
  | badOpcode | disabledOpcode | invalidStackOperation | invalidAltstackOperation | unbalancedConditional
  | negativeLockTime | unsatisfiedLockTime
  | sigHashType | sigDER | minimalData | sigPushOnly | sigNullDummy | pubkeyType | cleanStack
  | discourageUpgradableNops
  deriving DecidableEq, Repr

/-- How a function of the interpreter stops without a result. -/
inductive ScriptFault where
  /-- It returns `false` and leaves an error. -/
  | serror (e : ScriptError)
  /-- An `assert` fails. -/
  | assertion (expression : String)
  deriving DecidableEq, Repr

/-- `return set_error(serror, e)` when the condition holds. -/
def setErrorIf (condition : Bool) (e : ScriptError) : Except ScriptFault Unit :=
  if condition then .error (.serror e) else .ok ()

def SCRIPT_VERIFY_P2SH : BitVec 32 := 1 <<< 0
def SCRIPT_VERIFY_STRICTENC : BitVec 32 := 1 <<< 1
def SCRIPT_VERIFY_LOW_S : BitVec 32 := 1 <<< 3
def SCRIPT_VERIFY_NULLDUMMY : BitVec 32 := 1 <<< 4
def SCRIPT_VERIFY_SIGPUSHONLY : BitVec 32 := 1 <<< 5
def SCRIPT_VERIFY_MINIMALDATA : BitVec 32 := 1 <<< 6
def SCRIPT_VERIFY_DISCOURAGE_UPGRADABLE_NOPS : BitVec 32 := 1 <<< 7
def SCRIPT_VERIFY_CLEANSTACK : BitVec 32 := 1 <<< 8
def SCRIPT_VERIFY_CHECKLOCKTIMEVERIFY : BitVec 32 := 1 <<< 9

def MANDATORY_SCRIPT_VERIFY_FLAGS : BitVec 32 := SCRIPT_VERIFY_P2SH

def STANDARD_SCRIPT_VERIFY_FLAGS : BitVec 32 :=
  MANDATORY_SCRIPT_VERIFY_FLAGS ||| SCRIPT_VERIFY_STRICTENC ||| SCRIPT_VERIFY_MINIMALDATA ||| SCRIPT_VERIFY_NULLDUMMY |||
    SCRIPT_VERIFY_DISCOURAGE_UPGRADABLE_NOPS ||| SCRIPT_VERIFY_CLEANSTACK ||| SCRIPT_VERIFY_CHECKLOCKTIMEVERIFY |||
    SCRIPT_VERIFY_LOW_S

def hasFlag (flags flag : BitVec 32) : Bool := flags &&& flag != 0

abbrev Valtype := List UInt8

/-- What the interpreter asks about the spending transaction. -/
structure BaseSignatureChecker where
  checkSig : Valtype → Valtype → CScript → Bool
  checkLockTime : Int → Bool

/-- The hash functions, and the test for a low S value of `secp256k1`. -/
structure ScriptCrypto where
  ripemd160 : List UInt8 → Valtype
  sha1 : List UInt8 → Valtype
  sha256 : List UInt8 → Valtype
  checkLowS : List UInt8 → Bool

/-! ### Encodings -/

def castToBool : Valtype → Bool
  | [] => false
  | [b] => b ≠ 0 && b ≠ 0x80
  | b :: vch => b ≠ 0 || castToBool vch

def isCompressedOrUncompressedPubKey (vchPubKey : Valtype) : Bool :=
  if vchPubKey.length < 33 then false
  else if vchPubKey.getD 0 0 = 0x04 then vchPubKey.length == 65
  else if vchPubKey.getD 0 0 = 0x02 ∨ vchPubKey.getD 0 0 = 0x03 then vchPubKey.length == 33
  else false

def isValidSignatureEncoding (sig : Valtype) : Bool :=
  let at_ (i : Nat) : UInt8 := sig.getD i 0
  let lenR := (at_ 3).toNat
  let lenS := (at_ (5 + lenR)).toNat
  if sig.length < 9 then false
  else if sig.length > 73 then false
  else if at_ 0 ≠ 0x30 then false
  else if (at_ 1).toNat ≠ sig.length - 3 then false
  else if 5 + lenR ≥ sig.length then false
  else if lenR + lenS + 7 ≠ sig.length then false
  else if at_ 2 ≠ 0x02 then false
  else if lenR = 0 then false
  else if at_ 4 &&& 0x80 ≠ 0 then false
  else if lenR > 1 ∧ at_ 4 = 0x00 ∧ at_ 5 &&& 0x80 = 0 then false
  else if at_ (lenR + 4) ≠ 0x02 then false
  else if lenS = 0 then false
  else if at_ (lenR + 6) &&& 0x80 ≠ 0 then false
  else if lenS > 1 ∧ at_ (lenR + 6) = 0x00 ∧ at_ (lenR + 7) &&& 0x80 = 0 then false
  else true

variable (crypto : ScriptCrypto)

/-- The test of the S value leaves no error of its own. -/
def isLowDERSignature (vchSig : Valtype) : Except ScriptFault Unit := do
  setErrorIf (!isValidSignatureEncoding vchSig) .sigDER
  setErrorIf (!crypto.checkLowS vchSig.dropLast) .unknownError

def isDefinedHashtypeSignature (vchSig : Valtype) : Bool :=
  if vchSig.length = 0 then false
  else
    let nHashType := vchSig.getLastD 0 &&& ~~~0x80
    !(nHashType < 1 || nHashType > 3)

def checkSignatureEncoding (vchSig : Valtype) (flags : BitVec 32) : Except ScriptFault Unit :=
  if vchSig.length = 0 then .ok ()
  else do
    setErrorIf (!isValidSignatureEncoding vchSig) .sigDER
    let _ ← (if hasFlag flags SCRIPT_VERIFY_LOW_S then isLowDERSignature crypto vchSig else .ok ())
    setErrorIf (hasFlag flags SCRIPT_VERIFY_STRICTENC && !isDefinedHashtypeSignature vchSig) .sigHashType

def checkPubKeyEncoding (vchPubKey : Valtype) (flags : BitVec 32) : Except ScriptFault Unit :=
  setErrorIf (hasFlag flags SCRIPT_VERIFY_STRICTENC && !isCompressedOrUncompressedPubKey vchPubKey) .pubkeyType

def checkMinimalPush (data : Valtype) (opcode : UInt8) : Bool :=
  if data.length = 0 then opcode == OP_0
  else if data.length = 1 ∧ data.getD 0 0 ≥ 1 ∧ data.getD 0 0 ≤ 16 then opcode == OP_1 + (data.getD 0 0 - 1)
  else if data.length = 1 ∧ data.getD 0 0 = 0x81 then opcode == OP_1NEGATE
  else if data.length ≤ 75 then opcode.toNat == data.length
  else if data.length ≤ 255 then opcode == OP_PUSHDATA1
  else if data.length ≤ 65535 then opcode == OP_PUSHDATA2
  else true

/-- The constructor of `CScriptNum` from bytes.  What it throws is caught in `EvalScript`. -/
def scriptNum (vch : Valtype) (fRequireMinimal : Bool) (nMaxNumSize : Nat) : Except ScriptFault Int := do
  setErrorIf (vch.length > nMaxNumSize) .unknownError
  setErrorIf (fRequireMinimal && CScriptNum.padded vch) .unknownError
  pure (CScriptNum.setVch vch)

def nDefaultMaxNumSize : Nat := 4

/-! ### The operations -/

/-- What `EvalScript` works on. -/
structure EvalState where
  stack : List Valtype
  altstack : List Valtype := []
  /-- The branches around the current opcode and whether each is taken. -/
  vfExec : List Bool := []
  nOpCount : Nat := 0
  deriving DecidableEq, Repr

def MAX_SCRIPT_ELEMENT_SIZE : Nat := 520

def vchFalse : Valtype := []
def vchTrue : Valtype := [1]

def ofBool (b : Bool) : Valtype := if b then vchTrue else vchFalse

def boolNum (b : Bool) : Int := if b then 1 else 0

/-- `stacktop(-i)`; `vector::at` throws outside the stack. -/
def stacktop (stack : List Valtype) (i : Nat) : Except ScriptFault Valtype :=
  match stack[i - 1]? with
  | some vch => .ok vch
  | none => .error (.serror .unknownError)

variable (st : EvalState)

/-- The size of the stack is checked and its values are replaced. -/
def onStack (size : Nat) (f : List Valtype → Except ScriptFault (List Valtype)) : Except ScriptFault EvalState := do
  setErrorIf (st.stack.length < size) .invalidStackOperation
  let stack ← f st.stack
  pure { st with stack := stack }

/-- The end of an operation with a truth value; its `VERIFY` form drops the value again or fails. -/
def pushBool (verify : Option ScriptError) (fSuccess : Bool) (stack : List Valtype) :
    Except ScriptFault (List Valtype) :=
  match verify with
  | none => .ok (ofBool fSuccess :: stack)
  | some e => if fSuccess then .ok stack else .error (.serror e)

def opPushNumber (n : Int) (st : EvalState) : Except ScriptFault EvalState :=
  .ok { st with stack := CScriptNum.serialize n :: st.stack }

def opIf (negate fExec : Bool) (st : EvalState) : Except ScriptFault EvalState :=
  if fExec then
    match st.stack with
    | [] => .error (.serror .unbalancedConditional)
    | vch :: stack => .ok { st with stack := stack, vfExec := (castToBool vch ^^ negate) :: st.vfExec }
  else .ok { st with vfExec := false :: st.vfExec }

def opElse : Except ScriptFault EvalState :=
  match st.vfExec with
  | [] => .error (.serror .unbalancedConditional)
  | f :: vfExec => .ok { st with vfExec := (!f) :: vfExec }

def opEndIf : Except ScriptFault EvalState :=
  match st.vfExec with
  | [] => .error (.serror .unbalancedConditional)
  | _ :: vfExec => .ok { st with vfExec := vfExec }

def opVerify : Except ScriptFault EvalState :=
  match st.stack with
  | [] => .error (.serror .invalidStackOperation)
  | vch :: stack => if castToBool vch then .ok { st with stack := stack } else .error (.serror .verify)

def opToAltStack : Except ScriptFault EvalState :=
  match st.stack with
  | [] => .error (.serror .invalidStackOperation)
  | vch :: stack => .ok { st with stack := stack, altstack := vch :: st.altstack }

def opFromAltStack : Except ScriptFault EvalState :=
  match st.altstack with
  | [] => .error (.serror .invalidAltstackOperation)
  | vch :: altstack => .ok { st with stack := vch :: st.stack, altstack := altstack }

/-- Operations that rearrange the top of the stack. -/
def rearrange (f : List Valtype → Option (List Valtype)) : Except ScriptFault EvalState :=
  match f st.stack with
  | none => .error (.serror .invalidStackOperation)
  | some stack => .ok { st with stack := stack }

def opEqual (verify : Option ScriptError) (st : EvalState) : Except ScriptFault EvalState :=
  onStack st 2 fun
    | vch2 :: vch1 :: stack => pushBool verify (vch1 == vch2) stack
    | _ => .error (.serror .unknownError)

def opHash (hash : List UInt8 → Valtype) (st : EvalState) : Except ScriptFault EvalState :=
  rearrange st fun
    | vch :: stack => some (hash vch :: stack)
    | _ => none

/-- The cases of the switch that look at no flag. -/
def plainOp (fExec : Bool) (opcode : UInt8) (st : EvalState) : Except ScriptFault EvalState :=
  match opcode with
  | OP_1NEGATE | OP_1 | OP_2 | OP_3 | OP_4 | OP_5 | OP_6 | OP_7 | OP_8 | OP_9 | OP_10 | OP_11 | OP_12 | OP_13 | OP_14
  | OP_15 | OP_16 => opPushNumber (opcode.toNat - (OP_1.toNat - 1 : Int)) st
  | OP_NOP => .ok st
  | OP_IF => opIf false fExec st
  | OP_NOTIF => opIf true fExec st
  | OP_ELSE => opElse st
  | OP_ENDIF => opEndIf st
  | OP_VERIFY => opVerify st
  | OP_RETURN => .error (.serror .opReturn)
  | OP_TOALTSTACK => opToAltStack st
  | OP_FROMALTSTACK => opFromAltStack st
  | OP_2DROP => rearrange st fun
    | _ :: _ :: stack => some stack
    | _ => none
  | OP_2DUP => rearrange st fun
    | x2 :: x1 :: stack => some (x2 :: x1 :: x2 :: x1 :: stack)
    | _ => none
  | OP_3DUP => rearrange st fun
    | x3 :: x2 :: x1 :: stack => some (x3 :: x2 :: x1 :: x3 :: x2 :: x1 :: stack)
    | _ => none
  | OP_2OVER => rearrange st fun
    | x4 :: x3 :: x2 :: x1 :: stack => some (x2 :: x1 :: x4 :: x3 :: x2 :: x1 :: stack)
    | _ => none
  | OP_2ROT => rearrange st fun
    | x6 :: x5 :: x4 :: x3 :: x2 :: x1 :: stack => some (x2 :: x1 :: x6 :: x5 :: x4 :: x3 :: stack)
    | _ => none
  | OP_2SWAP => rearrange st fun
    | x4 :: x3 :: x2 :: x1 :: stack => some (x2 :: x1 :: x4 :: x3 :: stack)
    | _ => none
  | OP_IFDUP => rearrange st fun
    | x :: stack => some (if castToBool x then x :: x :: stack else x :: stack)
    | _ => none
  | OP_DEPTH => opPushNumber st.stack.length st
  | OP_DROP => rearrange st fun
    | _ :: stack => some stack
    | _ => none
  | OP_DUP => rearrange st fun
    | x :: stack => some (x :: x :: stack)
    | _ => none
  | OP_NIP => rearrange st fun
    | x2 :: _ :: stack => some (x2 :: stack)
    | _ => none
  | OP_OVER => rearrange st fun
    | x2 :: x1 :: stack => some (x1 :: x2 :: x1 :: stack)
    | _ => none
  | OP_ROT => rearrange st fun
    | x3 :: x2 :: x1 :: stack => some (x1 :: x3 :: x2 :: stack)
    | _ => none
  | OP_SWAP => rearrange st fun
    | x2 :: x1 :: stack => some (x1 :: x2 :: stack)
    | _ => none
  | OP_TUCK => rearrange st fun
    | x2 :: x1 :: stack => some (x2 :: x1 :: x2 :: stack)
    | _ => none
  | OP_SIZE => rearrange st fun
    | x :: stack => some (CScriptNum.serialize x.length :: x :: stack)
    | _ => none
  | OP_EQUAL => opEqual none st
  | OP_EQUALVERIFY => opEqual (some .equalVerify) st
  | OP_RIPEMD160 => opHash crypto.ripemd160 st
  | OP_SHA1 => opHash crypto.sha1 st
  | OP_SHA256 => opHash crypto.sha256 st
  | OP_HASH160 => opHash (fun vch => crypto.ripemd160 (crypto.sha256 vch)) st
  | OP_HASH256 => opHash (fun vch => crypto.sha256 (crypto.sha256 vch)) st
  | _ => .error (.serror .badOpcode)

variable (checker : BaseSignatureChecker) (flags : BitVec 32)

/-- `OP_CHECKLOCKTIMEVERIFY`, a discouraged `NOP` when it is not enabled. -/
def opCheckLockTimeVerify (st : EvalState) : Except ScriptFault EvalState :=
  if hasFlag flags SCRIPT_VERIFY_CHECKLOCKTIMEVERIFY then do
    setErrorIf (st.stack.length < 1) .invalidStackOperation
    let vch ← stacktop st.stack 1
    let nLockTime ← scriptNum vch (hasFlag flags SCRIPT_VERIFY_MINIMALDATA) 5
    setErrorIf (nLockTime < 0) .negativeLockTime
    setErrorIf (!checker.checkLockTime nLockTime) .unsatisfiedLockTime
    pure st
  else do
    setErrorIf (hasFlag flags SCRIPT_VERIFY_DISCOURAGE_UPGRADABLE_NOPS) .discourageUpgradableNops
    pure st

def opUpgradableNop (st : EvalState) : Except ScriptFault EvalState := do
  setErrorIf (hasFlag flags SCRIPT_VERIFY_DISCOURAGE_UPGRADABLE_NOPS) .discourageUpgradableNops
  pure st

def opPick (roll fRequireMinimal : Bool) (st : EvalState) : Except ScriptFault EvalState :=
  onStack st 2 fun stack => do
    let vch ← stacktop stack 1
    let num ← scriptNum vch fRequireMinimal nDefaultMaxNumSize
    let n := CScriptNum.getint num
    let stack := stack.tail
    setErrorIf (n < 0 || n ≥ stack.length) .invalidStackOperation
    let vch ← stacktop stack (n.toNat + 1)
    pure (vch :: if roll then stack.eraseIdx n.toNat else stack)

def opUnary (f : Int → Int) (fRequireMinimal : Bool) (st : EvalState) : Except ScriptFault EvalState :=
  onStack st 1 fun stack => do
    let vch ← stacktop stack 1
    let bn ← scriptNum vch fRequireMinimal nDefaultMaxNumSize
    pure (CScriptNum.serialize (f bn) :: stack.drop 1)

def opBinary (f : Int → Int → Int) (fRequireMinimal : Bool) (st : EvalState) : Except ScriptFault EvalState :=
  onStack st 2 fun stack => do
    let vch1 ← stacktop stack 2
    let bn1 ← scriptNum vch1 fRequireMinimal nDefaultMaxNumSize
    let vch2 ← stacktop stack 1
    let bn2 ← scriptNum vch2 fRequireMinimal nDefaultMaxNumSize
    pure (CScriptNum.serialize (f bn1 bn2) :: stack.drop 2)

/-- The inner switch of the operations on one number. -/
def unaryOp (opcode : UInt8) : Option (Int → Int) :=
  match opcode with
  | OP_1ADD => some (· + 1)
  | OP_1SUB => some (· - 1)
  | OP_NEGATE => some (- ·)
  | OP_ABS => some fun bn => if bn < 0 then -bn else bn
  | OP_NOT => some fun bn => boolNum (bn == 0)
  | OP_0NOTEQUAL => some fun bn => boolNum (bn != 0)
  | _ => none

/-- The inner switch of the operations on two numbers. -/
def binaryOp (opcode : UInt8) : Option (Int → Int → Int) :=
  match opcode with
  | OP_ADD => some (· + ·)
  | OP_SUB => some (· - ·)
  | OP_BOOLAND => some fun bn1 bn2 => boolNum (bn1 != 0 && bn2 != 0)
  | OP_BOOLOR => some fun bn1 bn2 => boolNum (bn1 != 0 || bn2 != 0)
  | OP_NUMEQUAL => some fun bn1 bn2 => boolNum (bn1 == bn2)
  | OP_NUMEQUALVERIFY => some fun bn1 bn2 => boolNum (bn1 == bn2)
  | OP_NUMNOTEQUAL => some fun bn1 bn2 => boolNum (bn1 != bn2)
  | OP_LESSTHAN => some fun bn1 bn2 => boolNum (bn1 < bn2)
  | OP_GREATERTHAN => some fun bn1 bn2 => boolNum (bn1 > bn2)
  | OP_LESSTHANOREQUAL => some fun bn1 bn2 => boolNum (bn1 ≤ bn2)
  | OP_GREATERTHANOREQUAL => some fun bn1 bn2 => boolNum (bn1 ≥ bn2)
  | OP_MIN => some fun bn1 bn2 => if bn1 < bn2 then bn1 else bn2
  | OP_MAX => some fun bn1 bn2 => if bn1 > bn2 then bn1 else bn2
  | _ => none

/-- The end of `OP_NUMEQUALVERIFY`. -/
def verifyNumEqual (opcode : UInt8) (st : EvalState) : Except ScriptFault EvalState :=
  if opcode = OP_NUMEQUALVERIFY then do
    let vch ← stacktop st.stack 1
    setErrorIf (!castToBool vch) .numEqualVerify
    pure { st with stack := st.stack.tail }
  else .ok st

def opWithin (fRequireMinimal : Bool) (st : EvalState) : Except ScriptFault EvalState :=
  onStack st 3 fun stack => do
    let vch1 ← stacktop stack 3
    let bn1 ← scriptNum vch1 fRequireMinimal nDefaultMaxNumSize
    let vch2 ← stacktop stack 2
    let bn2 ← scriptNum vch2 fRequireMinimal nDefaultMaxNumSize
    let vch3 ← stacktop stack 1
    let bn3 ← scriptNum vch3 fRequireMinimal nDefaultMaxNumSize
    pure (ofBool (bn2 ≤ bn1 && bn1 < bn3) :: stack.drop 3)

/-- The encodings are checked before the signature is. -/
def checkEncodings (vchSig vchPubKey : Valtype) : Except ScriptFault Unit := do
  checkSignatureEncoding crypto vchSig flags
  checkPubKeyEncoding vchPubKey flags

variable (script : CScript)

def opCheckSig (verify : Option ScriptError) (st : EvalState) : Except ScriptFault EvalState :=
  onStack st 2 fun stack => do
    let vchSig ← stacktop stack 2
    let vchPubKey ← stacktop stack 1
    checkEncodings crypto flags vchSig vchPubKey
    pushBool verify (checker.checkSig vchSig vchPubKey script) (stack.drop 2)

/-- The loop of `OP_CHECKMULTISIG` over the keys.  There are never more signatures left than keys. -/
def checkMultiSig (crypto : ScriptCrypto) (checker : BaseSignatureChecker) (flags : BitVec 32) (script : CScript)
    (stack : List Valtype) : (nKeysCount nSigsCount ikey isig : Nat) → Except ScriptFault Bool
  | _, 0, _, _ => .ok true
  | 0, _ + 1, _, _ => .ok false
  | nKeysCount + 1, nSigsCount + 1, ikey, isig => do
    let vchSig ← stacktop stack isig
    let vchPubKey ← stacktop stack ikey
    checkEncodings crypto flags vchSig vchPubKey
    let fOk := checker.checkSig vchSig vchPubKey script
    let nSigsLeft := if fOk then nSigsCount else nSigsCount + 1
    if nSigsLeft > nKeysCount then pure false
    else checkMultiSig crypto checker flags script stack nKeysCount nSigsLeft (ikey + 1) (if fOk then isig + 1 else isig)

def opCheckMultiSig (verify : Option ScriptError) (st : EvalState) : Except ScriptFault EvalState := do
  let fRequireMinimal := hasFlag flags SCRIPT_VERIFY_MINIMALDATA
  setErrorIf (st.stack.length < 1) .invalidStackOperation
  let vchKeys ← stacktop st.stack 1
  let numKeys ← scriptNum vchKeys fRequireMinimal nDefaultMaxNumSize
  let nKeysCount := CScriptNum.getint numKeys
  setErrorIf (nKeysCount < 0 || nKeysCount > 20) .pubkeyCount
  let nOpCount := st.nOpCount + nKeysCount.toNat
  setErrorIf (nOpCount > 201) .opCount
  let ikey := 2
  let i := ikey + nKeysCount.toNat
  setErrorIf (st.stack.length < i) .invalidStackOperation
  let vchSigs ← stacktop st.stack i
  let numSigs ← scriptNum vchSigs fRequireMinimal nDefaultMaxNumSize
  let nSigsCount := CScriptNum.getint numSigs
  setErrorIf (nSigsCount < 0 || nSigsCount > nKeysCount) .sigCount
  let isig := i + 1
  let i := isig + nSigsCount.toNat
  setErrorIf (st.stack.length < i) .invalidStackOperation
  let fSuccess ← checkMultiSig crypto checker flags script st.stack nKeysCount.toNat nSigsCount.toNat ikey isig
  let stack := st.stack.drop (i - 1)
  -- One more value is taken than there are arguments.
  setErrorIf (stack.length < 1) .invalidStackOperation
  let dummy ← stacktop stack 1
  setErrorIf (hasFlag flags SCRIPT_VERIFY_NULLDUMMY && dummy.length > 0) .sigNullDummy
  let stack ← pushBool verify fSuccess stack.tail
  pure { st with stack := stack, nOpCount := nOpCount }

def execOp (fExec : Bool) (opcode : UInt8) (st : EvalState) : Except ScriptFault EvalState :=
  let fRequireMinimal := hasFlag flags SCRIPT_VERIFY_MINIMALDATA
  match opcode with
  | OP_CHECKLOCKTIMEVERIFY => opCheckLockTimeVerify checker flags st
  | OP_NOP1 | OP_NOP3 | OP_NOP4 | OP_NOP5 | OP_NOP6 | OP_NOP7 | OP_NOP8 | OP_NOP9 | OP_NOP10 => opUpgradableNop flags st
  | OP_PICK => opPick false fRequireMinimal st
  | OP_ROLL => opPick true fRequireMinimal st
  | OP_WITHIN => opWithin fRequireMinimal st
  | OP_CHECKSIG => opCheckSig crypto checker flags script none st
  | OP_CHECKSIGVERIFY => opCheckSig crypto checker flags script (some .checkSigVerify) st
  | OP_CHECKMULTISIG => opCheckMultiSig crypto checker flags script none st
  | OP_CHECKMULTISIGVERIFY => opCheckMultiSig crypto checker flags script (some .checkMultiSigVerify) st
  | _ =>
    match unaryOp opcode, binaryOp opcode with
    | some f, _ => opUnary f fRequireMinimal st
    | none, some f => opBinary f fRequireMinimal st >>= verifyNumEqual opcode
    | none, none => plainOp crypto fExec opcode st

/-! ### The loop -/

def isDisabled (opcode : UInt8) : Bool :=
  opcode ∈ [OP_CAT, OP_SUBSTR, OP_LEFT, OP_RIGHT, OP_INVERT, OP_AND, OP_OR, OP_XOR, OP_2MUL, OP_2DIV, OP_MUL, OP_DIV,
    OP_MOD, OP_LSHIFT, OP_RSHIFT, OP_CODESEPARATOR]

/-- A push, an operation, or nothing in a branch that is not taken. -/
def pushOrExec
    (fExec : Bool) (opcode : UInt8) (vchPushValue : Valtype) (st : EvalState) : Except ScriptFault EvalState :=
  if fExec && opcode ≤ OP_PUSHDATA4 then do
    setErrorIf (hasFlag flags SCRIPT_VERIFY_MINIMALDATA && !checkMinimalPush vchPushValue opcode) .minimalData
    pure { st with stack := vchPushValue :: st.stack }
  else if fExec || (OP_IF ≤ opcode && opcode ≤ OP_ENDIF) then execOp crypto checker flags script fExec opcode st
  else pure st

/-- The body of the loop, after an opcode has been read. -/
def evalOp (opcode : UInt8) (vchPushValue : Valtype) (st : EvalState) : Except ScriptFault EvalState := do
  let fExec := !st.vfExec.contains false
  setErrorIf (vchPushValue.length > MAX_SCRIPT_ELEMENT_SIZE) .pushSize
  let nOpCount := if opcode > OP_16 then st.nOpCount + 1 else st.nOpCount
  setErrorIf (opcode > OP_16 && nOpCount > 201) .opCount
  setErrorIf (isDisabled opcode) .disabledOpcode
  let st ← pushOrExec crypto checker flags script fExec opcode vchPushValue { st with nOpCount := nOpCount }
  setErrorIf (st.stack.length + st.altstack.length > 1000) .stackSize
  pure st

/-- The loop, at the rest of the script. -/
def evalFrom (crypto : ScriptCrypto) (checker : BaseSignatureChecker) (flags : BitVec 32) (script pc : CScript)
    (st : EvalState) : Except ScriptFault EvalState :=
  match pc with
  | [] => .ok st
  | op :: rest =>
    match _h : CScript.getOp (op :: rest) with
    | none => .error (.serror .badOpcode)
    | some (opcode, vchPushValue, pc') => do
      let st' ← evalOp crypto checker flags script opcode vchPushValue st
      evalFrom crypto checker flags script pc' st'
termination_by pc.length
decreasing_by exact CScript.length_getOp _h

def evalScript (stack : List Valtype) (script : CScript) : Except ScriptFault (List Valtype) := do
  setErrorIf (script.length > MAX_SCRIPT_SIZE) .scriptSize
  let st ← evalFrom crypto checker flags script script { stack := stack }
  setErrorIf (!st.vfExec.isEmpty) .unbalancedConditional
  pure st.stack

/-- The script has left a true value on top. -/
def checkTop (stack : List Valtype) : Except ScriptFault Unit :=
  match stack with
  | [] => .error (.serror .evalFalse)
  | vch :: _ => setErrorIf (!castToBool vch) .evalFalse

/-- The script behind a script hash, run on the stack that `scriptSig` left. -/
def evalRedeemScript (scriptSig : CScript) (stackCopy : List Valtype) : Except ScriptFault (List Valtype) := do
  setErrorIf (!CScript.isPushOnly scriptSig) .sigPushOnly
  match stackCopy with
  | [] => .error (.assertion "!stack.empty()")
  | pubKeySerialized :: stack => do
    let stack ← evalScript crypto checker flags stack pubKeySerialized
    checkTop stack
    pure stack

def verifyScript (scriptSig scriptPubKey : CScript) : Except ScriptFault Unit := do
  setErrorIf (hasFlag flags SCRIPT_VERIFY_SIGPUSHONLY && !CScript.isPushOnly scriptSig) .sigPushOnly
  let stackCopy ← evalScript crypto checker flags [] scriptSig
  let stack ← evalScript crypto checker flags stackCopy scriptPubKey
  checkTop stack
  let stack ← (if hasFlag flags SCRIPT_VERIFY_P2SH && CScript.isPayToScriptHash scriptPubKey then
      evalRedeemScript crypto checker flags scriptSig stackCopy
    else .ok stack)
  if hasFlag flags SCRIPT_VERIFY_CLEANSTACK then
    if hasFlag flags SCRIPT_VERIFY_P2SH then setErrorIf (stack.length ≠ 1) .cleanStack
    else .error (.assertion "(flags & SCRIPT_VERIFY_P2SH) != 0")
  else .ok ()

end LitecoinZ
