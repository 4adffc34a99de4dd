import LitecoinZ.Wallet.NoteWitnesses
import LitecoinZ.Wallet.ReceivedNotes

/-!
# The assertions of the witness cache

`nWitnessCacheSize` counts the connected blocks up to `WITNESS_CACHE_SIZE`, less the blocks disconnected below the
highest height (`Sized`).  It bounds the number of witnesses of every note, so the assertions about notes hold in every
run that never falls `WITNESS_CACHE_SIZE` blocks below its highest height.  The last assertion of
`DecrementNoteWitnesses` fails when the only block connected since the run began is disconnected (`run_assertion_iff`).
-/

namespace LitecoinZ

open StateExcept List

theorem WITNESS_CACHE_SIZE_eq : (WITNESS_CACHE_SIZE : Int) = 100 := rfl

namespace CWallet

/-! ### A note -/

/-- A note up to date with a height, with no more witnesses than the cache covers. -/
structure Bounded (height nWitnessCacheSize : Int) (nd : CNoteData) : Prop where
  height : nd.witnessHeight = -1 ∨ nd.witnessHeight = height
  length : (nd.witnesses.length : Int) ≤ nWitnessCacheSize

section

variable {E : Fault → Prop} {w : CWallet} {h n : Int} {nd : CNoteData}

theorem assertCovers_ok (hlen : (nd.witnesses.length : Int) ≤ n) (hn : n ≤ WITNESS_CACHE_SIZE) :
    assertCovers n nd = .ok () := by
  rw [WITNESS_CACHE_SIZE_eq] at hn
  have hmod : n % 2 ^ 64 = n := Int.emod_eq_of_lt (by omega) (by omega)
  rw [assertCovers, reject_ok, decide_eq_false_iff_not, hmod]
  omega

theorem length_pushCopy {witnesses : List ZCIncrementalWitness} (hlen : witnesses.length ≤ WITNESS_CACHE_SIZE) :
    (pushCopy witnesses).length = if witnesses = [] then 0 else min (witnesses.length + 1) WITNESS_CACHE_SIZE := by
  cases witnesses with
  | nil => rfl
  | cons witness witnesses =>
    have hcopy : pushCopy (witness :: witnesses) =
        if (witness :: witness :: witnesses).length > WITNESS_CACHE_SIZE then (witness :: witness :: witnesses).dropLast
        else witness :: witness :: witnesses := rfl
    rw [hcopy, if_neg (cons_ne_nil witness witnesses)]
    split
    · rename_i hlong
      rw [length_dropLast]
      simp only [length_cons] at hlen hlong ⊢
      omega
    · rename_i hshort
      simp only [length_cons] at hshort ⊢
      omega

theorem Bounded.checkCovered_eq (hnd : Bounded h n nd) (hn : n ≤ WITNESS_CACHE_SIZE) (nHeight : Int) :
    checkCovered nHeight n nd = .ok nd := by
  unfold checkCovered
  split
  · rw [assertCovers_ok hnd.length hn]
    rfl
  · rfl

theorem checkCovered_ok {nHeight : Int} {nd' : CNoteData} (hok : checkCovered nHeight n nd = .ok nd') : nd' = nd := by
  unfold checkCovered at hok
  split at hok
  · obtain ⟨-, -, hok⟩ := except_bind_ok.1 hok
    cases hok
    rfl
  · cases hok
    rfl

/-- The fault is not a failed assertion. -/
def NoAssertion (e : Fault) : Prop := ∀ what, e ≠ .assertion what

/-- All the notes are up to date with a height, and covered by the cache. -/
def BoundedBy (height nWitnessCacheSize : Int) (w : CWallet) : Prop :=
  w.AllNotes (fun _ _ => Bounded height nWitnessCacheSize) ∧ w.nWitnessCacheSize = nWitnessCacheSize

theorem grown_le (hn : n ≤ WITNESS_CACHE_SIZE) : grown n ≤ WITNESS_CACHE_SIZE := by
  unfold grown
  split <;> omega

section

variable (hnd : Bounded h n nd) (hh : -1 ≤ h)
include hnd hh

theorem Bounded.copyWitness_eq (hn : n ≤ WITNESS_CACHE_SIZE) :
    copyWitness (h + 1) n nd = .ok { nd with witnesses := pushCopy nd.witnesses } := by
  have hlow : nd.witnessHeight < h + 1 := by
    rcases hnd.height with hht | hht <;> omega
  have hht : ¬(nd.witnessHeight ≠ -1 ∧ nd.witnessHeight ≠ h + 1 - 1) := by
    rcases hnd.height with hht | hht <;> omega
  rw [copyWitness, if_pos hlow, assertCovers_ok hnd.length hn, decide_eq_false hht]
  rfl

theorem Bounded.updateHeight_eq (hn : n ≤ WITNESS_CACHE_SIZE) :
    updateHeight (h + 1) n nd = .ok { nd with witnessHeight := h + 1 } := by
  have hlow : nd.witnessHeight < h + 1 := by
    rcases hnd.height with hht | hht <;> omega
  have hcovers : assertCovers n { nd with witnessHeight := h + 1 } = .ok () := assertCovers_ok hnd.length hn
  simp only [updateHeight, if_pos hlow, hcovers]
  rfl

theorem Bounded.dropWitness_eq (hn : n ≤ WITNESS_CACHE_SIZE) :
    dropWitness h n nd = .ok { nd with witnesses := nd.witnesses.tail, witnessHeight := h - 1 } := by
  have hlow : nd.witnessHeight ≤ h := by
    rcases hnd.height with hht | hht <;> omega
  have hht : ¬(nd.witnessHeight ≠ -1 ∧ nd.witnessHeight ≠ h) := by
    rcases hnd.height with hht | hht <;> omega
  rw [dropWitness, if_pos hlow, assertCovers_ok hnd.length hn, decide_eq_false hht]
  rfl

theorem Bounded.appendCommitment_eq [MerkleHash Uint256] (hn : n ≤ WITNESS_CACHE_SIZE) (cm : Uint256) :
    appendCommitment (h + 1) n cm nd =
      match nd.witnesses with
      | [] => .ok nd
      | witness :: witnesses =>
        match witness.append cm with
        | .ok witness => .ok { nd with witnesses := witness :: witnesses }
        | .error e => .error (.exception e.what) := by
  have hlow : nd.witnessHeight < h + 1 := by
    rcases hnd.height with hht | hht <;> omega
  rw [appendCommitment, if_pos hlow]
  cases hws : nd.witnesses with
  | nil => rfl
  | cons witness witnesses =>
    simp only [assertCovers_ok hnd.length hn]
    rfl

/-! ### The wallet -/

theorem Bounded.checks_appendCommitment [MerkleHash Uint256] (hn : n ≤ WITNESS_CACHE_SIZE) (cm : Uint256) :
    Checks NoAssertion (appendCommitment (h + 1) n cm nd) (Bounded h n) := by
  rw [hnd.appendCommitment_eq hh hn]
  cases hws : nd.witnesses with
  | nil => exact Checks.ok hnd
  | cons witness witnesses =>
    simp only
    cases witness.append cm with
    | error e => exact Checks.error fun what => Fault.noConfusion
    | ok witness' =>
      refine Checks.ok ⟨hnd.height, ?_⟩
      have hlen := hnd.length
      rw [hws] at hlen
      exact hlen

end

theorem checks_copyWitness (hw : BoundedBy h n w) (hh : -1 ≤ h) (hn : n ≤ WITNESS_CACHE_SIZE) (hpos : 0 ≤ n) :
    Checks E (w.mapNotes (copyWitness (h + 1) w.nWitnessCacheSize)) fun w' =>
      BoundedBy h (grown n) (w'.setCacheSize (grown w'.nWitnessCacheSize)) := by
  rw [hw.2]
  refine (AllNotes.mapNotes (Q := fun _ _ => Bounded h (grown n)) hw.1 fun hash jsop nd hnd => ?_).mono
    fun w' hw' => ⟨hw'.1.setCacheSize _, congrArg grown (hw'.2.trans hw.2)⟩
  rw [hnd.copyWitness_eq hh hn]
  refine Checks.ok ⟨hnd.height, ?_⟩
  have hlen := hnd.length
  have hcopy := length_pushCopy (show nd.witnesses.length ≤ WITNESS_CACHE_SIZE by omega)
  change ((pushCopy nd.witnesses).length : Int) ≤ grown n
  rw [hcopy, grown]
  split <;> split <;> omega

theorem checks_incrementCommitment [MerkleHash Uint256] {tree : ZCIncrementalMerkleTree} (hw : BoundedBy h n w)
    (hh : -1 ≤ h) (hn : n ≤ WITNESS_CACHE_SIZE) (hpos : 1 ≤ n) (c : JSOutPoint × Uint256) :
    Checks NoAssertion (incrementCommitment (h + 1) (w, tree) c) fun s => BoundedBy h n s.1 := by
  unfold incrementCommitment
  cases tree.append c.2 with
  | error e => exact Checks.error fun what => Fault.noConfusion
  | ok tree =>
    simp only [hw.2]
    have happ := AllNotes.mapNotes (E := NoAssertion) (f := appendCommitment (h + 1) n c.2)
      (Q := fun _ _ => Bounded h n) hw.1 fun _ _ _ hnd => hnd.checks_appendCommitment hh hn c.2
    refine happ.bind fun w1 hw1 => ?_
    refine (checks_witnessNote (Q := BoundedBy h n) (fun _ => ⟨hw1.1, hw1.2.trans hw.2⟩) ?_).bind fun w2 hw2 => Checks.ok hw2
    intro wtx nd hwtx hnd _
    have hlen : ((witnessed (h + 1) tree nd).witnesses.length : Int) ≤ n := by
      rw [witnesses_witnessed, length_singleton]
      omega
    rw [hw1.2, hw.2, assertCovers_ok hlen hn]
    refine Checks.ok ⟨fun hash jsop nd' hnd' => ?_, hw1.2.trans hw.2⟩
    rw [noteAt_setNote hwtx] at hnd'
    split at hnd'
    · cases hnd'
      exact ⟨.inr (show h + 1 - 1 = h by omega), hlen⟩
    · exact hw1.1 hash jsop nd' hnd'

theorem checks_incrementNoteWitnesses [MerkleHash Uint256] (env : WalletEnv) (block : CBlock)
    (tree : ZCIncrementalMerkleTree) (hw : BoundedBy h n w) (hh : -1 ≤ h) (hn : n ≤ WITNESS_CACHE_SIZE) (hpos : 0 ≤ n) :
    Checks NoAssertion (w.incrementNoteWitnesses env (h + 1) block tree) fun s => BoundedBy (h + 1) (grown n) s.1 := by
  have hgrown : 1 ≤ grown n := by
    have hsize := WITNESS_CACHE_SIZE_eq
    unfold grown
    split <;> omega
  refine (checks_copyWitness hw hh hn hpos).bind fun w1 hw1 => ?_
  have hloop := Checks.foldlM (E := NoAssertion) (P := fun _ s => BoundedBy h (grown n) s.1)
    (l := noteCommitments env block) (f := incrementCommitment (h + 1))
    (b := (w1.setCacheSize (grown w1.nWitnessCacheSize), tree)) hw1
    fun _ c _ _ s hs => checks_incrementCommitment hs hh (grown_le hn) hgrown c
  refine hloop.bind fun s hs => ?_
  have hupd := AllNotes.mapNotes (E := NoAssertion) (f := updateHeight (h + 1) (grown n))
    (Q := fun _ _ => Bounded (h + 1) (grown n)) hs.1 fun hash jsop nd hnd => by
      rw [hnd.updateHeight_eq hh (grown_le hn)]
      exact Checks.ok ⟨.inr rfl, hnd.length⟩
  rw [← hs.2] at hupd
  exact hupd.bind fun w2 hw2 => Checks.ok ⟨by rw [← hs.2]; exact hw2.1, hw2.2.trans hs.2⟩

theorem decrementNoteWitnesses_size {w' : CWallet} (hdec : w.decrementNoteWitnesses h = .ok w') :
    1 < w.nWitnessCacheSize := by
  have hsize : ∀ (v : CWallet) (f : CNoteData → Except Fault CNoteData) (v' : CWallet), v.mapNotes f = .ok v' →
      v'.nWitnessCacheSize = v.nWitnessCacheSize := fun v f v' hv' =>
    ((AllNotes.mapNotes (E := fun _ => True) (P := fun _ _ _ => True) (Q := fun _ _ _ => True) (fun _ _ _ _ => trivial)
      fun _ _ _ _ => ⟨fun _ _ => trivial, fun _ _ => trivial⟩).1 v' hv').2
  obtain ⟨w1, hdrop, hdec⟩ := except_bind_ok.1 hdec
  obtain ⟨w2, hcheck, hdec⟩ := except_bind_ok.1 hdec
  obtain ⟨_, hpos, -⟩ := except_bind_ok.1 hdec
  have hsize2 : w2.nWitnessCacheSize = w.nWitnessCacheSize - 1 := by
    rw [hsize _ _ _ hcheck, ← hsize _ _ _ hdrop]
    rfl
  rw [reject_ok, decide_eq_false_iff_not] at hpos
  omega

theorem decrementNoteWitnesses_eq (hw : BoundedBy h n w) (hh : -1 ≤ h) (hn : n ≤ WITNESS_CACHE_SIZE) (hpos : 1 ≤ n) :
    ∃ w', BoundedBy (h - 1) (n - 1) w' ∧
      w.decrementNoteWitnesses h = if n = 1 then .error (.assertion "nWitnessCacheSize > 0") else .ok w' := by
  obtain ⟨w1, hdrop, hw1⟩ := (AllNotes.mapNotes (E := fun _ => False) (f := dropWitness h w.nWitnessCacheSize)
    (Q := fun _ _ => Bounded (h - 1) (n - 1)) hw.1 fun hash jsop nd hnd => by
      rw [hw.2, hnd.dropWitness_eq hh hn]
      refine Checks.ok ⟨.inr rfl, ?_⟩
      have hlen := hnd.length
      simp only [length_tail]
      omega).exists_ok
  have hsize : w1.nWitnessCacheSize - 1 = n - 1 := by rw [hw1.2, hw.2]
  obtain ⟨w2, hcheck, hw2⟩ := (AllNotes.mapNotes (E := fun _ => False) (f := checkCovered h (n - 1))
    (Q := fun _ _ => Bounded (h - 1) (n - 1)) (hw1.1.setCacheSize (n - 1)) fun hash jsop nd hnd => by
      rw [hnd.checkCovered_eq (by omega)]
      exact Checks.ok hnd).exists_ok
  have hsize2 : w2.nWitnessCacheSize = n - 1 := hw2.2
  refine ⟨w2, ⟨hw2.1, hsize2⟩, ?_⟩
  have hstages : w.decrementNoteWitnesses h = (do
      reject (w2.nWitnessCacheSize ≤ 0) (.assertion "nWitnessCacheSize > 0")
      pure w2) := by
    unfold decrementNoteWitnesses
    rw [hdrop]
    change (do
      let w ← (w1.setCacheSize (w1.nWitnessCacheSize - 1)).mapNotes (checkCovered h (w1.nWitnessCacheSize - 1))
      reject (w.nWitnessCacheSize ≤ 0) (.assertion "nWitnessCacheSize > 0")
      pure w) = _
    rw [hsize, hcheck]
    rfl
  rw [hstages, hsize2]
  by_cases hone : n = 1
  · rw [if_pos hone, decide_eq_true (by omega)]
    rfl
  · rw [if_neg hone, decide_eq_false (by omega)]
    rfl

end

end CWallet

namespace WitnessRun

/-- The height and the size of the cache along a run. -/
structure Sized (s : WitnessRun) : Prop where
  base : -1 ≤ s.height - s.past.length
  low : s.height ≤ s.highest
  lag : s.highest - s.height < WITNESS_CACHE_SIZE
  notes : s.wallet.BoundedBy s.height
    (min (s.past.length + (s.highest - s.height)) WITNESS_CACHE_SIZE - (s.highest - s.height))

/-- A run starts with a new wallet at some height. -/
structure Starts (env : WalletEnv) (s : WitnessRun) : Prop where
  wallet : s.wallet.IsNew env
  height : -1 ≤ s.height
  highest : s.highest = s.height
  past : s.past = []

theorem Starts.sized (hs : Starts env s) : Sized s := by
  have hsize := WITNESS_CACHE_SIZE_eq
  have hzero : min ((s.past.length : Int) + (s.highest - s.height)) WITNESS_CACHE_SIZE - (s.highest - s.height) = 0 := by
    rw [hs.past, hs.highest, length_nil]
    omega
  refine ⟨?_, ?_, ?_, ?_⟩
  · rw [hs.past, length_nil]
    have := hs.height
    omega
  · rw [hs.highest]
  · rw [hs.highest]
    omega
  · rw [hzero]
    refine ⟨fun hash jsop nd hnd => ?_, hs.wallet.size⟩
    obtain ⟨wtx, hwtx, hdata⟩ := Option.bind_eq_some_iff.1 hnd
    obtain ⟨-, hempty, hht⟩ := (hs.wallet.txs hash wtx hwtx).2 jsop nd hdata
    exact ⟨.inl hht, by rw [hempty]; rfl⟩

variable [MerkleHash Uint256] {env : WalletEnv} {s : WitnessRun}

/-- The calls that the node makes: only connected blocks are disconnected, fewer than `WITNESS_CACHE_SIZE` of them below
the highest height, and a transaction comes with new notes. -/
def Permitted (env : WalletEnv) (s : WitnessRun) : WitnessCall → Prop
  | .connect _ => True
  | .disconnect => s.past ≠ [] ∧ s.highest - (s.height - 1) < WITNESS_CACHE_SIZE
  | .addToWallet wtx => wtx.IsNew env

/-- All the calls of a run are permitted when they are made. -/
def PermittedAll (env : WalletEnv) (s : WitnessRun) : List WitnessCall → Prop
  | [] => True
  | call :: calls => Permitted env s call ∧ ∀ s', step env s call = .ok s' → PermittedAll env s' calls

theorem Sized.checks_connect (hs : Sized s) (block : CBlock) :
    Checks CWallet.NoAssertion (step env s (.connect block)) Sized := by
  have hsize := WITNESS_CACHE_SIZE_eq
  obtain ⟨hbase, hlow, hlag, hnotes⟩ := hs
  refine (CWallet.checks_incrementNoteWitnesses env block s.tree hnotes (by omega) (by omega) (by omega)).bind
    fun r hr => Checks.ok ?_
  refine ⟨?_, ?_, ?_, ?_⟩
  · simp only [connected, length_cons]
    omega
  · simp only [connected]
    omega
  · simp only [connected]
    omega
  · have hgrown : CWallet.grown
        (min (s.past.length + (s.highest - s.height)) WITNESS_CACHE_SIZE - (s.highest - s.height)) =
        min (((s.past.length + 1 : Nat) : Int) + (max s.highest (s.height + 1) - (s.height + 1))) WITNESS_CACHE_SIZE -
          (max s.highest (s.height + 1) - (s.height + 1)) := by
      unfold CWallet.grown
      split <;> omega
    rw [hgrown] at hr
    exact hr

section

variable (hs : Sized s) (hc : Permitted env s .disconnect)
include hs hc

omit [MerkleHash Uint256] in
private theorem Sized.cacheSize :
    let n := min ((s.past.length : Int) + (s.highest - s.height)) WITNESS_CACHE_SIZE - (s.highest - s.height)
    1 ≤ n ∧ n ≤ WITNESS_CACHE_SIZE ∧ (n = 1 ↔ s.past.length = 1) := by
  have hsize := WITNESS_CACHE_SIZE_eq
  have hlow := hs.low
  have hlag := hc.2
  have hpos := length_pos_iff.2 hc.1
  refine ⟨by omega, by omega, ?_⟩
  omega

theorem Sized.checks_disconnect (hmore : s.past.length ≠ 1) : Checks CWallet.NoAssertion (step env s .disconnect) Sized := by
  obtain ⟨hpos, hle, hone⟩ := hs.cacheSize hc
  have hlag := hc.2
  have hlen := length_pos_iff.2 hc.1
  obtain ⟨hbase, hlow, -, hnotes⟩ := hs
  obtain ⟨w', hw', heq⟩ := CWallet.decrementNoteWitnesses_eq hnotes (by omega) hle hpos
  rw [if_neg (mt hone.1 hmore)] at heq
  rw [step, heq]
  refine Checks.ok ⟨?_, ?_, ?_, ?_⟩
  · simp only [disconnected, length_tail]
    omega
  · simp only [disconnected]
    omega
  · simp only [disconnected]
    omega
  · have hshrunk : min ((s.past.length : Int) + (s.highest - s.height)) WITNESS_CACHE_SIZE - (s.highest - s.height) - 1 =
        min (((s.past.length - 1 : Nat) : Int) + (s.highest - (s.height - 1))) WITNESS_CACHE_SIZE -
          (s.highest - (s.height - 1)) := by
      omega
    rw [hshrunk] at hw'
    simp only [disconnected, length_tail]
    exact hw'

theorem Sized.disconnect_last (hlast : s.past.length = 1) :
    step env s .disconnect = .error (.assertion "nWitnessCacheSize > 0") := by
  obtain ⟨hpos, hle, hone⟩ := hs.cacheSize hc
  have hlow := hs.base
  obtain ⟨w', -, heq⟩ := CWallet.decrementNoteWitnesses_eq hs.notes (by omega) hle hpos
  rw [if_pos (hone.2 hlast)] at heq
  rw [step, heq]
  rfl

end

omit [MerkleHash Uint256] in
theorem Sized.added (hs : Sized s) {wtx : CWalletTx} (hwtx : wtx.IsNew env) : Sized (s.added env wtx) := by
  have hsize := WITNESS_CACHE_SIZE_eq
  obtain ⟨hbase, hlow, hlag, hnotes⟩ := hs
  refine ⟨hbase, hlow, hlag, ?_, hnotes.2⟩
  intro hash jsop nd hnd
  obtain ⟨wtx', hlook, hdata⟩ := Option.bind_eq_some_iff.1 hnd
  rcases KeyMap.lookup_insert_cases hlook with ⟨-, rfl⟩ | ⟨-, hold⟩
  · obtain ⟨-, hempty, hht⟩ := hwtx jsop nd hdata
    refine ⟨.inl hht, ?_⟩
    rw [hempty, length_nil]
    simp only [WitnessRun.added]
    omega
  · exact hnotes.1 hash jsop nd (Option.bind_eq_some_iff.2 ⟨wtx', hold, hdata⟩)

/-- The one call that fails an assertion. -/
def DisconnectsLast (s : WitnessRun) (call : WitnessCall) : Prop := call = .disconnect ∧ s.past.length = 1

theorem Sized.checks_step {call : WitnessCall} (hs : Sized s) (hc : Permitted env s call)
    (hcall : ¬DisconnectsLast s call) : Checks CWallet.NoAssertion (step env s call) Sized := by
  cases call with
  | connect block => exact hs.checks_connect block
  | disconnect => exact hs.checks_disconnect hc fun hlast => hcall ⟨rfl, hlast⟩
  | addToWallet wtx => exact Checks.ok (hs.added hc)

/-- A permitted run of a new wallet fails an assertion just when it disconnects the only block that it had connected. -/
theorem run_assertion_iff (hs : Starts env s) {calls : List WitnessCall} (hp : PermittedAll env s calls) :
    (∃ what, run env calls s = .error (.assertion what)) ↔
      ∃ pre post s', calls = pre ++ .disconnect :: post ∧ run env pre s = .ok s' ∧ s'.past.length = 1 := by
  have hsized := hs.sized
  clear hs
  induction calls generalizing s with
  | nil =>
    constructor
    · rintro ⟨what, h⟩
      cases h
    · rintro ⟨pre, post, s', h, -⟩
      cases pre <;> cases h
  | cons call calls ih =>
    have hcons : ∀ l, run env (call :: l) s = step env s call >>= run env l := fun _ => foldlM_cons
    by_cases hlast : DisconnectsLast s call
    · -- the first call fails, and is the call looked for
      obtain ⟨rfl, hlast⟩ := hlast
      refine ⟨fun _ => ⟨[], calls, s, rfl, rfl, hlast⟩, fun _ => ⟨"nWitnessCacheSize > 0", ?_⟩⟩
      rw [hcons, hsized.disconnect_last hp.1 hlast]
      rfl
    · have hpre : (∃ pre post s', call :: calls = pre ++ .disconnect :: post ∧ run env pre s = .ok s' ∧ s'.past.length = 1) ↔
          ∃ s1, step env s call = .ok s1 ∧
            ∃ pre post s', calls = pre ++ .disconnect :: post ∧ run env pre s1 = .ok s' ∧ s'.past.length = 1 := by
        constructor
        · rintro ⟨pre, post, s', heq, hpre, hone⟩
          cases pre with
          | nil =>
            cases heq
            cases hpre
            exact absurd ⟨rfl, hone⟩ hlast
          | cons call' pre =>
            cases heq
            obtain ⟨s1, hs1, hpre⟩ := except_bind_ok.1 ((hcons pre).symm.trans hpre)
            exact ⟨s1, hs1, pre, post, s', rfl, hpre, hone⟩
        · rintro ⟨s1, hs1, pre, post, s', rfl, hpre, hone⟩
          exact ⟨call :: pre, post, s', rfl, (hcons pre).trans (except_bind_ok.2 ⟨s1, hs1, hpre⟩), hone⟩
      have hstep := hsized.checks_step hp.1 hlast
      rw [hpre, hcons]
      cases hr : step env s call with
      | error e =>
        constructor
        · rintro ⟨what, h⟩
          cases h
          exact absurd rfl (hstep.2 _ hr what)
        · rintro ⟨s1, ⟨⟩, -⟩
      | ok s1 =>
        refine (ih (hp.2 s1 hr) (hstep.1 s1 hr)).trans ⟨fun h => ⟨s1, rfl, h⟩, ?_⟩
        rintro ⟨_, ⟨⟩, h⟩
        exact h

/-- A new wallet without transactions after the block at height 5. -/
def emptyRun : WitnessRun where
  wallet := {}
  tree := {}
  height := 5
  highest := 5

def emptyBlock : CBlock where
  header := ⟨4, 0, 0, 0, 0, 0, 0, []⟩
  vtx := []

omit [MerkleHash Uint256] in
theorem emptyRun_starts (env : WalletEnv) : Starts env emptyRun :=
  ⟨⟨fun _ _ h => (by cases h), rfl⟩, by decide, rfl, rfl⟩

@[reducible] def sumHash : MerkleHash Uint256 where
  null := 0
  combine a b := a + b
  bytes _ := []

omit [MerkleHash Uint256] in
/-- A block is connected to a new wallet, and disconnected again. -/
theorem disconnect_only_block_aborts :
    Starts CWallet.plainWalletEnv emptyRun ∧
    @PermittedAll sumHash CWallet.plainWalletEnv emptyRun [.connect emptyBlock, .disconnect] ∧
    @run sumHash CWallet.plainWalletEnv [.connect emptyBlock, .disconnect] emptyRun =
      .error (.assertion "nWitnessCacheSize > 0") := by
  refine ⟨emptyRun_starts _, ⟨trivial, ?_⟩, rfl⟩
  intro s' hs'
  cases hs'
  exact ⟨⟨cons_ne_nil _ _, by decide⟩, fun _ _ => trivial⟩

omit [MerkleHash Uint256] in
/-- With a second block, the tip can be disconnected. -/
theorem run_assertion_iff_two_blocks :
    ¬∃ what, @run sumHash CWallet.plainWalletEnv [.connect emptyBlock, .connect emptyBlock, .disconnect] emptyRun =
      .error (.assertion what) := by
  have hpermitted : @PermittedAll sumHash CWallet.plainWalletEnv emptyRun
      [.connect emptyBlock, .connect emptyBlock, .disconnect] := by
    refine ⟨trivial, fun s₁ hs1 => ⟨trivial, fun s₂ hs2 => ⟨?_, fun _ _ => trivial⟩⟩⟩
    cases hs1
    cases hs2
    exact ⟨cons_ne_nil _ _, by decide⟩
  rw [@run_assertion_iff sumHash _ _ (emptyRun_starts _) _ hpermitted]
  rintro ⟨pre, post, s', heq, hpre, hone⟩
  rcases pre with _ | ⟨first, _ | ⟨second, _ | ⟨third, pre⟩⟩⟩
  · cases heq
  · cases heq
  · cases heq
    cases hpre
    cases hone
  · simp at heq

end WitnessRun

end LitecoinZ
