import LitecoinZ.Lib.Matching
import LitecoinZ.Script.Flags

/-!
# Signatures of several keys

The loop of `OP_CHECKMULTISIG` goes once through the keys and has as many signatures left as it can still place.  It
succeeds exactly if the signatures can be assigned to keys in their order such that each is one of its key
(`opCheckMultiSig_matched`), and the values that it is given are taken from the stack.
-/

namespace LitecoinZ

open Matching List

variable {crypto : ScriptCrypto} {flags : BitVec 32}

/-- A signature is accepted for a key. -/
def Verifies (checker : BaseSignatureChecker) (script : CScript) (vchSig vchPubKey : Valtype) : Prop :=
  checker.checkSig vchSig vchPubKey script = true

instance (checker : BaseSignatureChecker) (script : CScript) : DecidableRel (Verifies checker script) :=
  fun _ _ => inferInstanceAs (Decidable (_ = true))

variable {stack rest : List Valtype}

private theorem stacktop_eq {vch : Valtype} {i : Nat} (h : stack.drop i = vch :: rest) :
    stacktop stack (i + 1) = .ok vch := by
  have hget : stack[i]? = some vch := by
    rw [← head?_drop, h]
    rfl
  rw [stacktop, Nat.add_sub_cancel, hget]

private theorem drop_succ {vch : Valtype} {i : Nat} (h : stack.drop i = vch :: rest) :
    stack.drop (i + 1) = rest := by
  rw [← drop_drop, h]
  rfl

private theorem setErrorIf_pos {p : Prop} [Decidable p] (e : ScriptError) (h : p) : setErrorIf p e = .error (.serror e) := by
  rw [setErrorIf, if_pos (decide_eq_true h)]

private theorem setErrorIf_neg {p : Prop} [Decidable p] (e : ScriptError) (h : ¬ p) : setErrorIf p e = .ok () := by
  rw [setErrorIf, decide_eq_false h]
  rfl

/-- The loop is the greedy search, if `keys` and `sigs` stand on the stack from `ikey` and `isig` on. -/
theorem checkMultiSig_greedy (checker : BaseSignatureChecker) (script : CScript) {keysRest sigsRest : List Valtype} {sigs keys : List Valtype} {ikey isig : Nat}
    (hkeys : stack.drop ikey = keys ++ keysRest) (hsigs : stack.drop isig = sigs ++ sigsRest)
    (hsigsOk : ∀ vchSig ∈ sigs, checkSignatureEncoding crypto vchSig flags = .ok ())
    (hkeysOk : ∀ vchPubKey ∈ keys, checkPubKeyEncoding vchPubKey flags = .ok ()) :
    checkMultiSig crypto checker flags script stack keys.length sigs.length (ikey + 1) (isig + 1) =
      .ok (greedy (Verifies checker script) sigs keys) := by
  induction keys generalizing sigs ikey isig with
  | nil =>
    cases sigs with
    | nil => rfl
    | cons vchSig sigs => rfl
  | cons vchPubKey keys ih =>
    cases sigs with
    | nil => rfl
    | cons vchSig sigs =>
      have hencodings : checkEncodings crypto flags vchSig vchPubKey = .ok () := by
        rw [checkEncodings, hsigsOk _ mem_cons_self]
        exact hkeysOk _ mem_cons_self
      have hkeysOk' := (forall_mem_cons.1 hkeysOk).2
      rw [length_cons, length_cons, checkMultiSig, stacktop_eq hsigs, stacktop_eq hkeys, greedy]
      simp only [bind, Except.bind, hencodings]
      by_cases hok : Verifies checker script vchSig vchPubKey
      · have hok' : checker.checkSig vchSig vchPubKey script = true := hok
        simp only [hok', if_pos hok, if_true]
        split
        · rename_i hlt
          rw [greedy_eq_false_of_lt hlt]
          rfl
        · exact ih (drop_succ hkeys) (drop_succ hsigs) (forall_mem_cons.1 hsigsOk).2 hkeysOk'
      · have hok' : checker.checkSig vchSig vchPubKey script = false := eq_false_of_ne_true hok
        simp only [hok', if_neg hok, Bool.false_eq_true, if_false]
        split
        · rename_i hlt
          rw [greedy_eq_false_of_lt (by exact hlt)]
          rfl
        · exact @ih (vchSig :: sigs) _ _ (drop_succ hkeys) hsigs hsigsOk hkeysOk'

/-- `OP_CHECKMULTISIG` on the values it is made for.  The values of a script are on the stack in reverse order. -/
theorem opCheckMultiSig_matched (crypto : ScriptCrypto) (checker : BaseSignatureChecker) (flags : BitVec 32) (script : CScript)
    (verify : Option ScriptError) (sigs keys rest : List Valtype) (vchKeys vchSigs dummy : Valtype) (st : EvalState)
    (hle : sigs.length ≤ keys.length) (hmax : keys.length ≤ 20)
    (hstack : st.stack = vchKeys :: keys.reverse ++ vchSigs :: sigs.reverse ++ dummy :: rest)
    (hnumKeys : scriptNum vchKeys (hasFlag flags SCRIPT_VERIFY_MINIMALDATA) nDefaultMaxNumSize = .ok keys.length)
    (hnumSigs : scriptNum vchSigs (hasFlag flags SCRIPT_VERIFY_MINIMALDATA) nDefaultMaxNumSize = .ok sigs.length)
    (hsigs : ∀ vchSig ∈ sigs, checkSignatureEncoding crypto vchSig flags = .ok ())
    (hkeys : ∀ vchPubKey ∈ keys, checkPubKeyEncoding vchPubKey flags = .ok ()) :
    ∃ fSuccess : Bool,
      (fSuccess = true ↔ ∃ f : Fin sigs.length → Fin keys.length, StrictMono f ∧
        ∀ i, checker.checkSig (sigs.get i) (keys.get (f i)) script = true) ∧
      opCheckMultiSig crypto checker flags script verify st =
        if st.nOpCount + keys.length > 201 then .error (.serror .opCount)
        else if hasFlag flags SCRIPT_VERIFY_NULLDUMMY ∧ dummy.length > 0 then .error (.serror .sigNullDummy)
        else (pushBool verify fSuccess rest).map fun stack =>
          { st with stack := stack, nOpCount := st.nOpCount + keys.length } := by
  refine ⟨greedy (Verifies checker script) sigs.reverse keys.reverse, ?_, ?_⟩
  · rw [greedy_iff, matched_reverse]
    rfl
  · have hlen : st.stack.length = keys.length + sigs.length + 3 + rest.length := by
      rw [hstack]
      simp only [length_append, length_cons, length_reverse]
      omega
    have hdrop1 : st.stack.drop 1 = keys.reverse ++ (vchSigs :: sigs.reverse ++ dummy :: rest) := by
      rw [hstack]
      simp
    have hdrop2 : st.stack.drop (1 + keys.length) = vchSigs :: (sigs.reverse ++ dummy :: rest) := by
      rw [← drop_drop, hdrop1, drop_left' length_reverse]
      rfl
    have hdrop3 := drop_succ hdrop2
    have hdrop4 : st.stack.drop (2 + keys.length + 1 + sigs.length - 1) = dummy :: rest := by
      rw [show 2 + keys.length + 1 + sigs.length - 1 = 1 + keys.length + 1 + sigs.length by omega, ← drop_drop, hdrop3,
        drop_left' length_reverse]
    have hloop : checkMultiSig crypto checker flags script st.stack keys.length sigs.length 2 (2 + keys.length + 1) =
        .ok (greedy (Verifies checker script) sigs.reverse keys.reverse) := by
      have := checkMultiSig_greedy checker script hdrop1 hdrop3 (fun vch h => hsigs vch (mem_reverse.1 h))
        fun vch h => hkeys vch (mem_reverse.1 h)
      rw [length_reverse, length_reverse] at this
      rw [show 2 + keys.length + 1 = 1 + keys.length + 1 + 1 by omega]
      exact this
    have htop : stacktop st.stack 1 = .ok vchKeys := stacktop_eq (i := 0) hstack
    have htop2 : stacktop st.stack (2 + keys.length) = .ok vchSigs := by
      rw [show 2 + keys.length = 1 + keys.length + 1 by omega]
      exact stacktop_eq hdrop2
    have hint : ∀ k : Nat, k ≤ 20 → CScriptNum.getint k = k := by
      intro k hk
      rw [CScriptNum.getint]
      omega
    have hcount : (decide ((keys.length : Int) < 0) || decide ((keys.length : Int) > 20)) = false := by
      rw [Bool.or_eq_false_iff, decide_eq_false_iff_not, decide_eq_false_iff_not]
      omega
    have hcount' : (decide ((sigs.length : Int) < 0) || decide ((sigs.length : Int) > keys.length)) = false := by
      rw [Bool.or_eq_false_iff, decide_eq_false_iff_not, decide_eq_false_iff_not]
      omega
    have hsize1 := setErrorIf_neg .invalidStackOperation (show ¬ st.stack.length < 1 by omega)
    have hsize2 := setErrorIf_neg .invalidStackOperation (show ¬ st.stack.length < 2 + keys.length by omega)
    have hsize3 := setErrorIf_neg .invalidStackOperation
      (show ¬ st.stack.length < 2 + keys.length + 1 + sigs.length by omega)
    have hsize4 := setErrorIf_neg .invalidStackOperation (show ¬ (dummy :: rest).length < 1 by simp)
    have hdummy : (hasFlag flags SCRIPT_VERIFY_NULLDUMMY && decide (dummy.length > 0)) =
        decide (hasFlag flags SCRIPT_VERIFY_NULLDUMMY = true ∧ dummy.length > 0) := by simp
    have htop3 : stacktop (dummy :: rest) 1 = .ok dummy := rfl
    simp only [opCheckMultiSig, htop, hnumKeys, bind, Except.bind, hint _ hmax, hint _ (hle.trans hmax), Int.toNat_natCast,
      hcount, hcount', hsize1, hsize2, hsize3, htop2, hnumSigs, hloop, hdrop4, hsize4, htop3, hdummy, tail_cons]
    by_cases hops : st.nOpCount + keys.length > 201
    · rw [setErrorIf_pos _ hops, if_pos hops]
      rfl
    · rw [setErrorIf_neg _ hops, if_neg hops]
      by_cases hnull : hasFlag flags SCRIPT_VERIFY_NULLDUMMY = true ∧ dummy.length > 0
      · rw [setErrorIf_pos _ hnull, if_pos hnull]
        rfl
      · rw [setErrorIf_neg _ hnull, if_neg hnull]
        rfl

def numberedSig (key : UInt8) : Valtype := [0x30, 6, 2, 1, 1, 2, 1, key, 1]

def numberedChecker : BaseSignatureChecker := ⟨fun vchSig vchPubKey _ => vchSig.getD 7 0 == vchPubKey.getD 0 0, fun _ => false⟩

/-- The signatures of the first and the third of three keys. -/
theorem opCheckMultiSig_matched_three :
    opCheckMultiSig nullCrypto numberedChecker 0 [] none
      { stack := [[3], [3], [2], [1], [2], numberedSig 3, numberedSig 1, [], [7]] } =
    .ok { stack := [vchTrue, [7]], nOpCount := 3 } := by
  obtain ⟨fSuccess, hiff, heq⟩ := opCheckMultiSig_matched nullCrypto numberedChecker 0 [] none
    [numberedSig 1, numberedSig 3] [[1], [2], [3]] [[7]] [3] [2] []
    { stack := [[3], [3], [2], [1], [2], numberedSig 3, numberedSig 1, [], [7]] } (by decide) (by decide) rfl rfl rfl
    (by decide) (by decide)
  have hsucc : fSuccess = true := hiff.2 ⟨fun i => if i = 0 then 0 else 2, by decide, by decide⟩
  rw [heq, hsucc]
  rfl

end LitecoinZ
