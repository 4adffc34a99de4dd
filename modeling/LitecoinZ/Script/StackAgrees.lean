import LitecoinZ.Lib.Triple
import LitecoinZ.Script.StackMachine

/-!
# The stack machine and the interpreter on lists

Every operation of the stack machine reads its vectors only where they have values, keeps to the assertions, and does what
the interpreter on lists does (`agrees_execOp`).  The comparison is `Agrees`: it has a rule for sequences, so an operation is
compared step by step, and it says how the operation ends, which is where the bounds on numbers and lengths come from.
-/

namespace LitecoinZ.StackMachine

open StateExcept
open List hiding Vector

variable {α β : Type}

/-- What leaves the `try` block: an error that was set, or a `scriptnum_error`. -/
def Thrown.Expected : Thrown → Prop
  | .serror _ | .scriptnumError _ => True
  | .exception _ | .assertion _ => False

/-- A step is left only as expected and otherwise ends as `Q` says, and it is the step of the interpreter on lists. -/
def Agrees (Q : α → Prop) (x : Except Thrown α) (y : Except ScriptFault α) : Prop :=
  Checks Thrown.Expected x Q ∧ x.mapError Thrown.caught = y

variable {Q : α → Prop} {x : Except Thrown α} {y : Except ScriptFault α} {f : α → Except Thrown β}
  {stack l : List Valtype} {vch : Valtype}

theorem Agrees.ok {a : α} (h : Q a) : Agrees Q (.ok a) (.ok a) := ⟨.ok h, rfl⟩

theorem Agrees.serror (e : ScriptError) : Agrees Q (.error (.serror e)) (.error (.serror e)) :=
  ⟨.error trivial, rfl⟩

theorem Agrees.bind {P : α → Prop} {Q : β → Prop} {g : α → Except ScriptFault β} (h : Agrees P x y)
    (hf : ∀ a, P a → Agrees Q (f a) (g a)) :
    Agrees Q (x >>= f) (y >>= g) := by
  obtain ⟨hx, rfl⟩ := h
  cases x with
  | error e => exact ⟨.error (hx.2 e rfl), rfl⟩
  | ok a => exact hf a (hx.1 a rfl)

theorem Agrees.mono {P : α → Prop} (h : Agrees P x y) (hPQ : ∀ a, P a → Q a) :
    Agrees Q x y := ⟨h.1.mono hPQ, h.2⟩

theorem agrees_returnIf (condition : Bool) (e : ScriptError) :
    Agrees (fun _ => condition = false) (returnIf condition e) (setErrorIf condition e) := by
  cases condition with
  | true => exact .serror e
  | false => exact .ok rfl

theorem agrees_stacktop {i : Nat} (h : 1 ≤ i) (h' : i ≤ stack.length) :
    Agrees (fun vch => stack[i - 1]? = some vch) (stacktop stack i) (LitecoinZ.stacktop stack i) := by
  have hget := getElem?_eq_getElem (show i - 1 < stack.length by omega)
  rw [stacktop, if_neg (by omega), LitecoinZ.stacktop, hget]
  exact .ok rfl

private theorem ok_bind {a : α} : (Except.ok a >>= f) = f a := rfl

theorem popstack_eq (h : 1 ≤ stack.length) : popstack stack = .ok (stack.drop 1) := by
  cases stack with
  | nil => simp at h
  | cons vch stack => rfl

theorem popMany_eq {n : Nat} (h : n ≤ stack.length) : popMany n stack = .ok (stack.drop n) := by
  induction n generalizing stack with
  | zero => rfl
  | succ n ih =>
    cases stack with
    | nil => simp at h
    | cons vch stack => exact ih (by simpa using h)

/-- A function that fails with an error. -/
def SetsError (x : Except ScriptFault α) : Prop := Checks (fun fault => ∃ e, fault = .serror e) x fun _ => True

theorem setsError_setErrorIf (condition : Bool) (e : ScriptError) : SetsError (setErrorIf condition e) := by
  cases condition with
  | true => exact .error ⟨e, rfl⟩
  | false => exact .ok trivial

theorem setsError_checkEncodings (crypto : ScriptCrypto) (flags : BitVec 32) (vchSig vchPubKey : Valtype) :
    SetsError (checkEncodings crypto flags vchSig vchPubKey) := by
  refine Checks.bind (Q := fun _ => True) ?_ fun _ _ => setsError_setErrorIf _ _
  rw [checkSignatureEncoding]
  split
  · exact .ok trivial
  · refine (setsError_setErrorIf _ _).bind fun _ _ => Checks.bind (Q := fun _ => True) ?_ fun _ _ => setsError_setErrorIf _ _
    split
    · exact (setsError_setErrorIf _ _).bind fun _ _ => setsError_setErrorIf _ _
    · exact .ok trivial

theorem SetsError.agrees {x : Except ScriptFault α} (h : SetsError x) : Agrees (fun _ => True) (orReturn x) x := by
  cases x with
  | ok a => exact .ok trivial
  | error fault =>
    obtain ⟨e, rfl⟩ := h.2 fault rfl
    exact .serror e

/-- No value is longer than what a script may push. -/
def Short (l : List Valtype) : Prop := ∀ vch ∈ l, vch.length ≤ MAX_SCRIPT_ELEMENT_SIZE

/-- So are the values on both stacks. -/
structure Held (st : EvalState) : Prop where
  stack : Short st.stack
  altstack : Short st.altstack

/-- After a step that counts as `n` operations. -/
structure Stays (st : EvalState) (n : Nat) (st' : EvalState) : Prop extends Held st' where
  nOpCount : st'.nOpCount = st.nOpCount + n

theorem Held.stays {st : EvalState} (h : Held st) (hl : Short l) : Stays st 0 { st with stack := l } := ⟨⟨hl, h.altstack⟩, rfl⟩

theorem Short.mono {l' : List Valtype} (h : Short l) (hsub : l' ⊆ l) : Short l' := fun vch hvch => h vch (hsub hvch)

theorem Short.cons (hvch : vch.length ≤ MAX_SCRIPT_ELEMENT_SIZE) (h : Short l) :
    Short (vch :: l) := forall_mem_cons.2 ⟨hvch, h⟩

theorem Short.tail (h : Short (vch :: l)) : Short l := h.mono (subset_cons_self _ _)

/-! ### Numbers -/

private theorem natAbs_setVch (h : vch.length ≤ 5) : (CScriptNum.setVch vch).natAbs < 2 ^ 40 := by
  have hread : readLE vch < 2 ^ 40 :=
    calc readLE vch < 256 ^ vch.length := readLE_lt vch
      _ ≤ 256 ^ 5 := Nat.pow_le_pow_right (by decide) h
      _ = 2 ^ 40 := by decide
  rw [CScriptNum.setVch]
  split
  · rw [Int.natAbs_neg, Int.natAbs_natCast]
    exact (Nat.mod_le _ _).trans_lt hread
  · rw [Int.natAbs_natCast]
    exact hread

private theorem short_serialize {n : Int} (h : n.natAbs < 2 ^ 64) : (CScriptNum.serialize n).length ≤ MAX_SCRIPT_ELEMENT_SIZE :=
  (length_serialize (k := 8) h).trans (by decide)

theorem agrees_scriptNum (vch : Valtype) (fRequireMinimal : Bool) {nMaxNumSize : Nat} (h : nMaxNumSize ≤ 5) :
    Agrees (fun n => n = CScriptNum.setVch vch ∧ n.natAbs < 2 ^ 40) (scriptNum vch fRequireMinimal nMaxNumSize)
      (LitecoinZ.scriptNum vch fRequireMinimal nMaxNumSize) := by
  rw [scriptNum]
  by_cases hlong : vch.length > nMaxNumSize
  · rw [if_pos hlong, LitecoinZ.scriptNum, setErrorIf, if_pos (decide_eq_true hlong)]
    exact ⟨.error trivial, rfl⟩
  · rw [if_neg hlong, LitecoinZ.scriptNum, setErrorIf, decide_eq_false hlong, if_neg Bool.false_ne_true, setErrorIf]
    split
    · exact ⟨.error trivial, rfl⟩
    · exact .ok ⟨rfl, natAbs_setVch (by omega)⟩

private theorem natAbs_boolNum (b : Bool) : (boolNum b).natAbs < 2 ^ 64 := by
  cases b with
  | true => decide
  | false => decide

private theorem agrees_assert {expression : String} {condition : Bool} (h : condition = true) {n : Int} (hn : n.natAbs < 2 ^ 64) :
    Agrees (fun n => n.natAbs < 2 ^ 64) (do assert expression condition; pure n) (.ok n) := by
  rw [assert, if_pos h]
  exact .ok hn

theorem agrees_unary {opcode : UInt8} {f : Int → Int} (hf : unaryOp opcode = some f) {bn : Int} (hbn : bn.natAbs < 2 ^ 40) :
    Agrees (fun n => n.natAbs < 2 ^ 64) (unary opcode bn) (.ok (f bn)) := by
  have hmax : int64Max = 2 ^ 63 - 1 := rfl
  have hmin : int64Min = -2 ^ 63 := rfl
  unfold unaryOp at hf
  split at hf <;> cases hf
  iterate 3
    next =>
      refine agrees_assert ?_ (by omega)
      simp
      omega
  · by_cases hneg : bn < 0
    · dsimp only
      rw [unary, if_pos hneg, if_pos hneg]
      refine agrees_assert ?_ (by omega)
      simp
      omega
    · dsimp only
      rw [unary, if_neg hneg, if_neg hneg]
      exact .ok (by omega)
  · exact .ok (natAbs_boolNum _)
  · exact .ok (natAbs_boolNum _)

theorem agrees_binary {opcode : UInt8} {f : Int → Int → Int} (hf : binaryOp opcode = some f) {bn1 bn2 : Int}
    (hbn1 : bn1.natAbs < 2 ^ 40) (hbn2 : bn2.natAbs < 2 ^ 40) :
    Agrees (fun n => n.natAbs < 2 ^ 64) (binary opcode bn1 bn2) (.ok (f bn1 bn2)) := by
  have hmax : int64Max = 2 ^ 63 - 1 := rfl
  have hmin : int64Min = -2 ^ 63 := rfl
  unfold binaryOp at hf
  split at hf <;> cases hf
  iterate 2
    next =>
      refine agrees_assert ?_ (by omega)
      simp
      omega
  all_goals first | exact .ok (natAbs_boolNum _) | skip
  · refine .ok ?_
    split <;> omega
  · refine .ok ?_
    split <;> omega

/-- A case of the switch is an operation that changes only the stack. -/
def Rearranges (crypto : Crypto) (fExec : Bool) (st : EvalState) (opcode : UInt8)
    (f : List Valtype → Except Thrown (List Valtype)) : Prop :=
  Agrees (Stays st 0) (onStack st f) (LitecoinZ.plainOp crypto.toScriptCrypto fExec opcode st)

section

variable (crypto : Crypto) (fExec : Bool) {st : EvalState} (h : Held st)

include h

theorem agrees_one : Rearranges crypto fExec st OP_IFDUP opIfDup ∧ Rearranges crypto fExec st OP_DROP opDrop ∧
    Rearranges crypto fExec st OP_DUP opDup := by
  obtain ⟨stack, altstack, vfExec, nOpCount⟩ := st
  match stack with
  | [] => exact ⟨.serror _, .serror _, .serror _⟩
  | x :: stack =>
    refine ⟨.ok (h.stays ?_), .ok (h.stays h.stack.tail), .ok (h.stays (h.stack.mono (by simp)))⟩
    dsimp only
    split
    · exact h.stack.mono (by simp)
    · exact h.stack

theorem agrees_two : Rearranges crypto fExec st OP_2DROP op2Drop ∧ Rearranges crypto fExec st OP_2DUP op2Dup ∧
    Rearranges crypto fExec st OP_NIP opNip ∧ Rearranges crypto fExec st OP_OVER opOver ∧
    Rearranges crypto fExec st OP_SWAP opSwap ∧ Rearranges crypto fExec st OP_TUCK opTuck := by
  obtain ⟨stack, altstack, vfExec, nOpCount⟩ := st
  match stack with
  | [] => exact ⟨.serror _, .serror _, .serror _, .serror _, .serror _, .serror _⟩
  | [_] => exact ⟨.serror _, .serror _, .serror _, .serror _, .serror _, .serror _⟩
  | x2 :: x1 :: stack =>
    refine ⟨.ok (h.stays h.stack.tail.tail), .ok (h.stays (h.stack.mono ?_)), .ok (h.stays (h.stack.mono ?_)),
      .ok (h.stays (h.stack.mono ?_)), .ok (h.stays (h.stack.mono ?_)), .ok (h.stays (h.stack.mono ?_))⟩
    all_goals
      intro vch
      simp
      tauto

theorem agrees_three : Rearranges crypto fExec st OP_3DUP op3Dup ∧ Rearranges crypto fExec st OP_ROT opRot := by
  obtain ⟨stack, altstack, vfExec, nOpCount⟩ := st
  match stack with
  | [] => exact ⟨.serror _, .serror _⟩
  | [_] => exact ⟨.serror _, .serror _⟩
  | [_, _] => exact ⟨.serror _, .serror _⟩
  | x3 :: x2 :: x1 :: stack =>
    refine ⟨.ok (h.stays (h.stack.mono ?_)), .ok (h.stays (h.stack.mono ?_))⟩
    all_goals
      intro vch
      simp
      tauto

theorem agrees_four : Rearranges crypto fExec st OP_2OVER op2Over ∧ Rearranges crypto fExec st OP_2SWAP op2Swap := by
  obtain ⟨stack, altstack, vfExec, nOpCount⟩ := st
  match stack with
  | [] => exact ⟨.serror _, .serror _⟩
  | [_] => exact ⟨.serror _, .serror _⟩
  | [_, _] => exact ⟨.serror _, .serror _⟩
  | [_, _, _] => exact ⟨.serror _, .serror _⟩
  | x4 :: x3 :: x2 :: x1 :: stack =>
    refine ⟨.ok (h.stays (h.stack.mono ?_)), .ok (h.stays (h.stack.mono ?_))⟩
    all_goals
      intro vch
      simp
      tauto

theorem agrees_six : Rearranges crypto fExec st OP_2ROT op2Rot := by
  obtain ⟨stack, altstack, vfExec, nOpCount⟩ := st
  match stack with
  | [] => exact .serror _
  | [_] => exact .serror _
  | [_, _] => exact .serror _
  | [_, _, _] => exact .serror _
  | [_, _, _, _] => exact .serror _
  | [_, _, _, _, _] => exact .serror _
  | x6 :: x5 :: x4 :: x3 :: x2 :: x1 :: stack =>
    refine .ok (h.stays (h.stack.mono ?_))
    intro vch
    simp
    tauto

variable {crypto fExec}

omit h in
theorem length_ofBool (b : Bool) : (ofBool b).length ≤ MAX_SCRIPT_ELEMENT_SIZE := by
  cases b with
  | true => decide
  | false => decide

variable {stack : List Valtype}

omit h in
theorem agrees_pushVerify (verify : Option ScriptError) (fValue : Bool) (h : Short stack) :
    Agrees Short (pushVerify verify fValue stack) (pushBool verify fValue stack) := by
  cases verify with
  | none => exact .ok (h.cons (length_ofBool fValue))
  | some e =>
    cases fValue with
    | true => exact .ok h
    | false => exact .serror e

theorem agrees_opEqual (verify : Option ScriptError) :
    Agrees (Stays st 0) (onStack st (opEqual verify)) (LitecoinZ.opEqual verify st) := by
  obtain ⟨stack, altstack, vfExec, nOpCount⟩ := st
  match stack with
  | [] => exact .serror _
  | [_] => exact .serror _
  | x2 :: x1 :: stack =>
    exact (agrees_pushVerify verify (x1 == x2) h.stack.tail.tail).bind fun stack' hshort => .ok (h.stays hshort)

theorem agrees_opSize : Rearranges crypto fExec st OP_SIZE opSize := by
  obtain ⟨stack, altstack, vfExec, nOpCount⟩ := st
  match stack with
  | [] => exact .serror _
  | x :: stack =>
    have hx : x.length ≤ 520 := h.stack x mem_cons_self
    exact .ok (h.stays (h.stack.cons (short_serialize (by omega))))

theorem agrees_opHash {n : Nat} (hn : n ≤ 32) (hash : List UInt8 → Vector UInt8 n) :
    Agrees (Stays st 0) (onStack st (opHash hash)) (LitecoinZ.opHash (fun vch => (hash vch).toList) st) := by
  obtain ⟨stack, altstack, vfExec, nOpCount⟩ := st
  match stack with
  | [] => exact .serror _
  | x :: stack =>
    have hlen : (hash x).toList.length ≤ 520 := by
      rw [Vector.length_toList]
      omega
    exact .ok (h.stays (h.stack.tail.cons hlen))

theorem agrees_pushNumber {n : Int} (hn : n.natAbs < 2 ^ 64) :
    Agrees (Stays st 0) (.ok { st with stack := CScriptNum.serialize n :: st.stack }) (opPushNumber n st) :=
  .ok (h.stays (h.stack.cons (short_serialize hn)))

theorem agrees_opIf (negated : Bool) :
    Agrees (Stays st 0) (opIf negated fExec st) (LitecoinZ.opIf negated fExec st) := by
  obtain ⟨stack, altstack, vfExec, nOpCount⟩ := st
  cases fExec with
  | false => exact .ok ⟨⟨h.stack, h.altstack⟩, rfl⟩
  | true =>
    match stack with
    | [] => exact .serror _
    | x :: stack =>
      have hvalue : (castToBool x ^^ negated) = if negated then !castToBool x else castToBool x := by
        cases negated with
        | true => exact Bool.xor_true _
        | false => exact Bool.xor_false _
      rw [LitecoinZ.opIf, if_pos rfl]
      dsimp only
      rw [hvalue]
      exact .ok ⟨⟨h.stack.tail, h.altstack⟩, rfl⟩

theorem agrees_opElse :
    Agrees (Stays st 0) (opElse st) (LitecoinZ.opElse st) ∧ Agrees (Stays st 0) (opEndIf st) (LitecoinZ.opEndIf st) := by
  obtain ⟨stack, altstack, vfExec, nOpCount⟩ := st
  cases vfExec with
  | nil => exact ⟨.serror _, .serror _⟩
  | cons f vfExec => exact ⟨.ok ⟨⟨h.stack, h.altstack⟩, rfl⟩, .ok ⟨⟨h.stack, h.altstack⟩, rfl⟩⟩

theorem agrees_opVerify :
    Agrees (Stays st 0) (onStack st opVerify) (LitecoinZ.opVerify st) := by
  obtain ⟨stack, altstack, vfExec, nOpCount⟩ := st
  match stack with
  | [] => exact .serror _
  | x :: stack =>
    have htop : opVerify (x :: stack) = if castToBool x then .ok stack else .error (.serror .verify) := rfl
    rw [onStack, htop, LitecoinZ.opVerify]
    dsimp only
    split
    · exact .ok (h.stays h.stack.tail)
    · exact .serror _

theorem agrees_altstack :
    Agrees (Stays st 0) (opToAltStack st) (LitecoinZ.opToAltStack st) ∧
      Agrees (Stays st 0) (opFromAltStack st) (LitecoinZ.opFromAltStack st) := by
  obtain ⟨stack, altstack, vfExec, nOpCount⟩ := st
  constructor
  · cases stack with
    | nil => exact .serror _
    | cons x stack => exact .ok ⟨⟨h.stack.tail, h.altstack.cons (h.stack x mem_cons_self)⟩, rfl⟩
  · cases altstack with
    | nil => exact .serror _
    | cons x altstack => exact .ok ⟨⟨h.stack.cons (h.altstack x mem_cons_self), h.altstack.tail⟩, rfl⟩

/-! ### Operations on numbers -/

/-- An operation that the interpreter on lists begins with the check of the size. -/
theorem Agrees.onStack {f : List Valtype → Except Thrown (List Valtype)} {g : List Valtype → Except ScriptFault (List Valtype)}
    {size : Nat} (hf : Agrees Short (f st.stack)
      (setErrorIf (st.stack.length < size) .invalidStackOperation >>= fun _ => g st.stack)) :
    Agrees (Stays st 0) (onStack st f) (LitecoinZ.onStack st size g) := by
  have hassoc : LitecoinZ.onStack st size g =
      (setErrorIf (st.stack.length < size) .invalidStackOperation >>= fun _ => g st.stack) >>= fun stack =>
        pure { st with stack := stack } := by
    rw [bind_assoc]
    rfl
  rw [hassoc]
  exact hf.bind fun stack hstack => .ok (h.stays hstack)

omit h in
private theorem le_length {n m : Nat} (h : decide (n < m) = false) : m ≤ n := Nat.not_lt.1 (of_decide_eq_false h)

omit h in
theorem Short.drop {l : List Valtype} (h : Short l) (n : Nat) : Short (l.drop n) := h.mono (drop_subset n l)

theorem agrees_opUnary {opcode : UInt8} {f : Int → Int} (hf : unaryOp opcode = some f) (fRequireMinimal : Bool) :
    Agrees (Stays st 0) (onStack st (opUnary opcode fRequireMinimal)) (LitecoinZ.opUnary f fRequireMinimal st) := by
  refine .onStack h ((agrees_returnIf _ _).bind fun _ hsize => ?_)
  have hlen := le_length hsize
  refine (agrees_stacktop (le_refl 1) hlen).bind fun vch _ => (agrees_scriptNum vch _ (by decide)).bind fun bn hbn => ?_
  refine Agrees.bind (g := fun n => pure (CScriptNum.serialize n :: st.stack.drop 1)) (agrees_unary hf hbn.2) fun n hn => ?_
  rw [popstack_eq hlen]
  exact .ok ((h.stack.drop 1).cons (short_serialize hn))

theorem agrees_opBinary {opcode : UInt8} {f : Int → Int → Int} (hf : binaryOp opcode = some f) (fRequireMinimal : Bool) :
    Agrees (Stays st 0) (onStack st (opBinary opcode fRequireMinimal))
      (LitecoinZ.opBinary f fRequireMinimal st >>= verifyNumEqual opcode) := by
  rw [onStack, LitecoinZ.opBinary, LitecoinZ.onStack]
  simp only [opBinary, bind_assoc, pure_bind]
  refine (agrees_returnIf _ _).bind fun _ hsize => ?_
  have hlen := le_length hsize
  refine (agrees_stacktop (by decide) hlen).bind fun vch1 _ => (agrees_scriptNum vch1 _ (by decide)).bind fun bn1 hbn1 => ?_
  refine (agrees_stacktop (le_refl 1) (by omega)).bind fun vch2 _ => ?_
  refine (agrees_scriptNum vch2 _ (by decide)).bind fun bn2 hbn2 => ?_
  refine Agrees.bind (g := fun n => verifyNumEqual opcode { st with stack := CScriptNum.serialize n :: st.stack.drop 2 })
    (agrees_binary hf hbn1.2 hbn2.2) fun n hn => ?_
  have hshort : Short (CScriptNum.serialize n :: st.stack.drop 2) := (h.stack.drop 2).cons (short_serialize hn)
  rw [popMany_eq hlen, ok_bind, verifyNumEqual]
  by_cases hverify : opcode = OP_NUMEQUALVERIFY
  · simp only [if_pos hverify, bind_assoc]
    have hone : 1 ≤ (CScriptNum.serialize n :: st.stack.drop 2).length := Nat.le_add_left _ _
    refine (agrees_stacktop (le_refl 1) hone).bind fun vch _ => (agrees_returnIf _ _).bind fun _ _ => ?_
    exact .ok (h.stays hshort.tail)
  · simp only [if_neg hverify]
    exact .ok (h.stays hshort)

theorem agrees_opWithin (fRequireMinimal : Bool) :
    Agrees (Stays st 0) (onStack st (opWithin fRequireMinimal)) (LitecoinZ.opWithin fRequireMinimal st) := by
  refine .onStack h ((agrees_returnIf _ _).bind fun _ hsize => ?_)
  have hlen := le_length hsize
  refine (agrees_stacktop (by decide) hlen).bind fun vch1 _ => (agrees_scriptNum vch1 _ (by decide)).bind fun bn1 _ => ?_
  refine (agrees_stacktop (by decide) (by omega)).bind fun vch2 _ => ?_
  refine (agrees_scriptNum vch2 _ (by decide)).bind fun bn2 _ => ?_
  refine (agrees_stacktop (by decide) (by omega)).bind fun vch3 _ => ?_
  refine (agrees_scriptNum vch3 _ (by decide)).bind fun bn3 _ => ?_
  rw [popMany_eq hlen]
  exact .ok ((h.stack.drop 3).cons (length_ofBool _))

theorem agrees_opPick (roll fRequireMinimal : Bool) :
    Agrees (Stays st 0) (onStack st (opPick roll fRequireMinimal)) (LitecoinZ.opPick roll fRequireMinimal st) := by
  refine .onStack h ((agrees_returnIf _ _).bind fun _ hsize => ?_)
  have hlen := le_length hsize
  refine (agrees_stacktop (le_refl 1) (by omega)).bind fun vch _ => (agrees_scriptNum vch _ (by decide)).bind fun num _ => ?_
  dsimp only
  rw [popstack_eq (by omega), ← drop_one]
  refine (agrees_returnIf _ _).bind fun _ hrange => ?_
  rw [Bool.or_eq_false_iff, decide_eq_false_iff_not, decide_eq_false_iff_not] at hrange
  have hn : (CScriptNum.getint num).toNat + 1 ≤ (st.stack.drop 1).length := by omega
  refine (agrees_stacktop (by omega) hn).bind fun vch hvch => ?_
  have hvch' := h.stack.drop 1 vch (mem_of_getElem? hvch)
  cases roll with
  | true =>
    rw [if_pos rfl, if_pos rfl, eraseTop, if_pos ⟨by omega, hn⟩, ← eraseIdx_eq_take_drop_succ]
    exact .ok (((h.stack.drop 1).mono eraseIdx_subset).cons hvch')
  | false => exact .ok ((h.stack.drop 1).cons hvch')

variable (checker : BaseSignatureChecker)

theorem agrees_opCheckSig (flags : BitVec 32) (script : CScript) (verify : Option ScriptError) :
    Agrees (Stays st 0) (onStack st (opCheckSig crypto checker flags script verify))
      (LitecoinZ.opCheckSig crypto.toScriptCrypto checker flags script verify st) := by
  refine .onStack h ((agrees_returnIf _ _).bind fun _ hsize => ?_)
  have hlen := le_length hsize
  refine (agrees_stacktop (by decide) hlen).bind fun vchSig _ => (agrees_stacktop (le_refl 1) (by omega)).bind fun vchPubKey _ => ?_
  refine (setsError_checkEncodings _ _ _ _).agrees.bind fun _ _ => ?_
  rw [popMany_eq hlen]
  exact agrees_pushVerify _ _ (h.stack.drop 2)

/-- The keys that the operation is given, by the value on top of the stack. -/
def keysCount (st : EvalState) : Nat := (CScriptNum.getint (CScriptNum.setVch (st.stack.headD []))).toNat

omit h in
theorem agrees_checkMultiSig (crypto : Crypto) (checker : BaseSignatureChecker) (flags : BitVec 32) (script : CScript)
    {nKeysCount nSigsCount ikey isig : Nat} (hle : nSigsCount ≤ nKeysCount) (hikey : 1 ≤ ikey) (hisig : 1 ≤ isig)
    (hkeys : ikey + nKeysCount ≤ stack.length + 1) (hsigs : isig + nSigsCount ≤ stack.length + 1) :
    Agrees (fun _ => True) (checkMultiSig crypto checker flags script stack nKeysCount nSigsCount ikey isig)
      (LitecoinZ.checkMultiSig crypto.toScriptCrypto checker flags script stack nKeysCount nSigsCount ikey isig) := by
  induction nKeysCount generalizing nSigsCount ikey isig with
  | zero =>
    obtain rfl : nSigsCount = 0 := by omega
    exact .ok trivial
  | succ nKeysCount ih =>
    cases nSigsCount with
    | zero => exact .ok trivial
    | succ nSigsCount =>
      rw [checkMultiSig, LitecoinZ.checkMultiSig]
      refine (agrees_stacktop hisig (by omega)).bind fun vchSig _ => (agrees_stacktop hikey (by omega)).bind fun vchPubKey _ => ?_
      refine (setsError_checkEncodings _ _ _ _).agrees.bind fun _ _ => ?_
      dsimp only
      generalize checker.checkSig vchSig vchPubKey script = fOk
      by_cases hleft : (if fOk then nSigsCount else nSigsCount + 1) > nKeysCount
      · rw [if_pos hleft, if_pos hleft]
        exact .ok trivial
      · rw [if_neg hleft, if_neg hleft]
        refine ih (by omega) (by omega) ?_ (by omega) ?_
        · split <;> omega
        · cases fOk with
          | true => exact (show isig + 1 + nSigsCount ≤ _ by omega)
          | false => exact hsigs

theorem agrees_opCheckMultiSig (crypto : Crypto) (checker : BaseSignatureChecker) (flags : BitVec 32) (script : CScript)
    (verify : Option ScriptError) :
    Agrees (fun st' => Stays st (keysCount st) st' ∧ st'.nOpCount ≤ 201)
      (opCheckMultiSig crypto checker flags script verify st)
      (LitecoinZ.opCheckMultiSig crypto.toScriptCrypto checker flags script verify st) := by
  rw [opCheckMultiSig, LitecoinZ.opCheckMultiSig]
  dsimp only
  refine (agrees_returnIf _ _).bind fun _ hsize => (agrees_stacktop (le_refl 1) (le_length hsize)).bind fun vchKeys hvchKeys => ?_
  refine (agrees_scriptNum vchKeys _ (by decide)).bind fun numKeys hnumKeys => (agrees_returnIf _ _).bind fun _ hcount => ?_
  refine (agrees_returnIf _ _).bind fun _ hops => (agrees_returnIf _ _).bind fun _ hsize2 => ?_
  have hlen2 := le_length hsize2
  refine (agrees_stacktop (by omega) hlen2).bind fun vchSigs _ => ?_
  refine (agrees_scriptNum vchSigs _ (by decide)).bind fun numSigs _ => (agrees_returnIf _ _).bind fun _ hcount2 => ?_
  rw [Bool.or_eq_false_iff, decide_eq_false_iff_not, decide_eq_false_iff_not] at hcount hcount2
  refine (agrees_returnIf _ _).bind fun _ hsize3 => ?_
  have hlen3 := le_length hsize3
  refine (agrees_checkMultiSig crypto checker flags script (by omega) (by decide) (by omega) (by omega) (by omega)).bind
    fun fSuccess _ => ?_
  rw [popMany_eq (by omega)]
  refine (agrees_returnIf _ _).bind fun _ hsize4 => (agrees_stacktop (le_refl 1) (le_length hsize4)).bind fun dummy _ => ?_
  refine (agrees_returnIf _ _).bind fun _ _ => ?_
  rw [popstack_eq (le_length hsize4), ← drop_one]
  refine (agrees_pushVerify verify fSuccess ((h.stack.drop _).drop 1)).bind fun stack hshort => ?_
  have hkeys : keysCount st = (CScriptNum.getint numKeys).toNat := by
    rw [keysCount, headD_eq_head?_getD, head?_eq_getElem?, hvchKeys, hnumKeys.1]
    rfl
  refine .ok ⟨⟨⟨hshort, h.altstack⟩, by rw [hkeys]⟩, ?_⟩
  exact Nat.not_lt.1 (of_decide_eq_false hops)

theorem agrees_opCheckLockTimeVerify (flags : BitVec 32) :
    Agrees (Stays st 0) (opCheckLockTimeVerify checker flags st) (LitecoinZ.opCheckLockTimeVerify checker flags st) := by
  rw [opCheckLockTimeVerify, LitecoinZ.opCheckLockTimeVerify]
  cases hasFlag flags SCRIPT_VERIFY_CHECKLOCKTIMEVERIFY with
  | false => exact (agrees_returnIf _ _).bind fun _ _ => .ok ⟨h, rfl⟩
  | true =>
    refine (agrees_returnIf _ _).bind fun _ hsize => (agrees_stacktop (le_refl 1) (le_length hsize)).bind fun vch _ => ?_
    refine (agrees_scriptNum vch _ (le_refl 5)).bind fun nLockTime _ => (agrees_returnIf _ _).bind fun _ _ => ?_
    exact (agrees_returnIf _ _).bind fun _ _ => .ok ⟨h, rfl⟩

theorem agrees_plainOp (opcode : UInt8) (hsize : st.stack.length ≤ 1000) :
    Agrees (Stays st 0) (plainOp crypto fExec opcode st) (LitecoinZ.plainOp crypto.toScriptCrypto fExec opcode st) := by
  obtain ⟨hifdup, hdrop, hdup⟩ := agrees_one crypto fExec h
  obtain ⟨h2drop, h2dup, hnip, hover, hswap, htuck⟩ := agrees_two crypto fExec h
  obtain ⟨h3dup, hrot⟩ := agrees_three crypto fExec h
  obtain ⟨h2over, h2swap⟩ := agrees_four crypto fExec h
  unfold plainOp
  split
  iterate 17
    next => exact agrees_pushNumber h (by decide)
  · exact .ok ⟨h, rfl⟩
  · exact agrees_opIf h _
  · exact agrees_opIf h _
  · exact (agrees_opElse h).1
  · exact (agrees_opElse h).2
  · exact agrees_opVerify h
  · exact .serror _
  · exact (agrees_altstack h).1
  · exact (agrees_altstack h).2
  · exact h2drop
  · exact h2dup
  · exact h3dup
  · exact h2over
  · exact agrees_six crypto fExec h
  · exact h2swap
  · exact hifdup
  · exact agrees_pushNumber h (by omega)
  · exact hdrop
  · exact hdup
  · exact hnip
  · exact hover
  · exact hrot
  · exact hswap
  · exact htuck
  · exact agrees_opSize h
  · exact agrees_opEqual h _
  · exact agrees_opEqual h _
  iterate 5
    next => exact agrees_opHash h (by decide) _
  · unfold LitecoinZ.plainOp
    split
    all_goals first
      | contradiction
      | exact .serror _

/-- The operations that an executed opcode counts as, beyond the opcode itself. -/
def keysChecked (opcode : UInt8) (st : EvalState) : Nat :=
  if opcode = OP_CHECKMULTISIG ∨ opcode = OP_CHECKMULTISIGVERIFY then keysCount st else 0

theorem agrees_execOp (flags : BitVec 32) (script : CScript) (opcode : UInt8)
    (hops : st.nOpCount ≤ 201) (hsize : st.stack.length ≤ 1000) :
    Agrees (fun st' => Stays st (keysChecked opcode st) st' ∧ st'.nOpCount ≤ 201)
      (execOp crypto checker flags script fExec opcode st)
      (LitecoinZ.execOp crypto.toScriptCrypto checker flags script fExec opcode st) := by
  have hzero : ∀ {x : Except Thrown EvalState} {y : Except ScriptFault EvalState}, Agrees (Stays st 0) x y →
      Agrees (fun st' => Stays st 0 st' ∧ st'.nOpCount ≤ 201) x y := by
    intro x y h
    exact h.mono fun st' hst' => ⟨hst', hst'.nOpCount.trans_le hops⟩
  unfold execOp
  dsimp only
  split
  · exact hzero (agrees_opCheckLockTimeVerify h checker flags)
  iterate 9
    next => exact hzero ((agrees_returnIf _ _).bind fun _ _ => .ok ⟨h, rfl⟩)
  · exact hzero (agrees_opPick h false _)
  · exact hzero (agrees_opPick h true _)
  iterate 6
    next => exact hzero (agrees_opUnary h rfl _)
  iterate 13
    next => exact hzero (agrees_opBinary h rfl _)
  · exact hzero (agrees_opWithin h _)
  · exact hzero (agrees_opCheckSig h checker flags script none)
  · exact hzero (agrees_opCheckSig h checker flags script _)
  · exact agrees_opCheckMultiSig h crypto checker flags script none
  · exact agrees_opCheckMultiSig h crypto checker flags script _
  · rename_i hcms hcmsv
    have hunary : unaryOp opcode = none := by
      unfold unaryOp
      split
      all_goals first
        | contradiction
        | rfl
    have hbinary : binaryOp opcode = none := by
      unfold binaryOp
      split
      all_goals first
        | contradiction
        | rfl
    have hexec : LitecoinZ.execOp crypto.toScriptCrypto checker flags script fExec opcode st =
        LitecoinZ.plainOp crypto.toScriptCrypto fExec opcode st := by
      unfold LitecoinZ.execOp
      dsimp only
      split
      all_goals first
        | contradiction
        | rw [hunary, hbinary]
    have hkeys : keysChecked opcode st = 0 := if_neg (not_or.2 ⟨hcms, hcmsv⟩)
    rw [hexec, hkeys]
    exact hzero (agrees_plainOp h opcode hsize)

end

end LitecoinZ.StackMachine
