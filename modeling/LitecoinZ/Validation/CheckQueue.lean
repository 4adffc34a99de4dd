import Mathlib.Algebra.Order.BigOperators.Group.Finset
import LitecoinZ.Consensus.Validation
import LitecoinZ.Lib.Threads

/-!
# The queue of script checks

`CCheckQueue` of `checkqueue.h`: a master adds checks and waits, workers take batches off the queue.  A thread is in one of
four phases, and a step of the system is a section that holds the mutex, or the execution of one check; the threads wake up
from their waiting at any time.  The counters say what the phases hold (`Counted`), in every reachable state.
-/

namespace LitecoinZ

open Function Threads List Multiset Finset

/-- The shared fields.  The back of the vector `queue` is the head of the list. -/
structure CCheckQueue (α : Type) where
  nBatchSize : Nat
  queue : List α := []
  nIdle : Int := 0
  nTotal : Int := 0
  fAllOk : Bool := true
  nTodo : BitVec 32 := 0
  fQuit : Bool := false

/-- Where a thread is in `Loop`, with its local variables. -/
inductive CheckPhase (α : Type) where
  /-- Before the first section. -/
  | entering
  /-- In `cond.wait(lock)`. -/
  | waiting
  /-- Between two sections, with the checks of its batch that are left. -/
  | working (vChecks : List α) (nNow : Nat) (fOk : Bool)
  /-- `Loop` has returned. -/
  | done (fRet : Bool)

namespace CCheckQueue

variable {α : Type}

/-- The clean-up of the previous run of the loop. -/
def cleanUp (nNow : Nat) (fOk : Bool) (q : CCheckQueue α) : Except Fault (CCheckQueue α) :=
  if nNow ≠ 0 then .ok { q with fAllOk := q.fAllOk && fOk, nTodo := q.nTodo - BitVec.ofNat 32 nNow }
  else do
    let nTotal ← checkedInt (q.nTotal + 1)
    pure { q with nTotal }

def batchSize (q : CCheckQueue α) : Except Fault Nat := do
  let n ← checkedInt (q.nTotal + q.nIdle)
  let n ← checkedInt (n + 1)
  if n = 0 then .error (.exception "division by zero")
  else pure (max 1 (min q.nBatchSize (q.queue.length % 2 ^ 32 / (n % 2 ^ 32).toNat)))

def takeBatch (q : CCheckQueue α) : Except Fault (CCheckQueue α × CheckPhase α) := do
  let nNow ← q.batchSize
  pure ({ q with queue := q.queue.drop nNow }, .working (q.queue.take nNow) nNow q.fAllOk)

/-- `while (queue.empty())`, up to the wait or to the end of the section. -/
def whileEmpty (fMaster : Bool) (q : CCheckQueue α) : Except Fault (CCheckQueue α × CheckPhase α) :=
  if q.queue.isEmpty then
    if (fMaster || q.fQuit) && q.nTodo = 0 then do
      let nTotal ← checkedInt (q.nTotal - 1)
      pure ({ q with nTotal, fAllOk := fMaster || q.fAllOk }, .done q.fAllOk)
    else do
      let nIdle ← checkedInt (q.nIdle + 1)
      pure ({ q with nIdle }, .waiting)
  else q.takeBatch

def lock (fMaster : Bool) (nNow : Nat) (fOk : Bool) (q : CCheckQueue α) : Except Fault (CCheckQueue α × CheckPhase α) := do
  let q ← q.cleanUp nNow fOk
  q.whileEmpty fMaster

def wake (fMaster : Bool) (q : CCheckQueue α) : Except Fault (CCheckQueue α × CheckPhase α) := do
  let nIdle ← checkedInt (q.nIdle - 1)
  whileEmpty fMaster { q with nIdle }

def add (vChecks : List α) (q : CCheckQueue α) : CCheckQueue α :=
  { q with queue := vChecks.reverse ++ q.queue, nTodo := q.nTodo + BitVec.ofNat 32 vChecks.length }

def isIdle (q : CCheckQueue α) : Bool := q.nTotal = q.nIdle && q.nTodo = 0 && q.fAllOk

end CCheckQueue

/-- A master (`none`) and its workers. -/
abbrev CheckThread (W : Nat) := Option (Fin W)

structure CheckSystem (α : Type) (W : Nat) where
  q : CCheckQueue α
  thread : CheckThread W → CheckPhase α
  /-- The checks that have been added since `Wait` returned, and those of them that have been executed. -/
  added : List α := []
  executed : List α := []

inductive CheckEvent (α : Type) (W : Nat) where
  | add (vChecks : List α)
  | wait
  | lock (i : CheckThread W)
  | wake (i : CheckThread W)
  | check (i : CheckThread W)

namespace CheckSystem

variable {α : Type} {W : Nat}

def init (α : Type) (W nBatchSize : Nat) : CheckSystem α W where
  q := { nBatchSize }
  thread
    | none => .done true
    | some _ => .entering

def leave (i : CheckThread W) (s : CheckSystem α W) : CCheckQueue α × CheckPhase α → CheckSystem α W
  | (q, .done fRet) =>
    { q, thread := update s.thread i (.done fRet)
      added := if i = none then [] else s.added, executed := if i = none then [] else s.executed }
  | (q, phase) => { s with q, thread := update s.thread i phase }

/-- The events that are possible. -/
def step (result : α → Bool) (s : CheckSystem α W) : CheckEvent α W → Option (Except Fault (CheckSystem α W))
  | .add vChecks =>
    match s.thread none with
    | .done _ => some (.ok { s with q := s.q.add vChecks, added := s.added ++ vChecks })
    | _ => none
  | .wait =>
    match s.thread none with
    | .done _ => some (.ok { s with thread := update s.thread none .entering })
    | _ => none
  | .lock i =>
    match s.thread i with
    | .entering => some ((s.q.lock i.isNone 0 true).map (s.leave i))
    | .working [] nNow fOk => some ((s.q.lock i.isNone nNow fOk).map (s.leave i))
    | _ => none
  | .wake i =>
    match s.thread i with
    | .waiting => some ((s.q.wake i.isNone).map (s.leave i))
    | _ => none
  | .check i =>
    match s.thread i with
    | .working (check :: vChecks) nNow fOk =>
      some (.ok { s with
        thread := update s.thread i (.working vChecks nNow (fOk && result check))
        executed := if fOk then check :: s.executed else s.executed })
    | _ => none

end CheckSystem

/-! ### The branches of a section -/

namespace CCheckQueue

variable {α : Type} {q : CCheckQueue α} {fMaster : Bool}

theorem lock_first {fOk : Bool} (h0 : 0 ≤ q.nTotal) (hrange : q.nTotal + 1 < 2 ^ 31) :
    q.lock fMaster 0 fOk = whileEmpty fMaster { q with nTotal := q.nTotal + 1 } := by
  rw [lock, cleanUp, if_neg (by decide), checkedInt_ok (by omega) hrange]
  rfl

theorem lock_later {fOk : Bool} {nNow : Nat} (hnow : nNow ≠ 0) : q.lock fMaster nNow fOk =
    whileEmpty fMaster { q with fAllOk := q.fAllOk && fOk, nTodo := q.nTodo - BitVec.ofNat 32 nNow } := by
  rw [lock, cleanUp, if_pos hnow]
  rfl

theorem wake_eq (h0 : 0 ≤ q.nIdle) (hrange : q.nIdle < 2 ^ 31) :
    q.wake fMaster = whileEmpty fMaster { q with nIdle := q.nIdle - 1 } := by
  rw [wake, checkedInt_ok (by omega) (by omega)]
  rfl

theorem whileEmpty_return (hempty : q.queue = []) (hdone : (fMaster || q.fQuit) = true) (htodo : q.nTodo = 0)
    (h0 : 0 ≤ q.nTotal) (hrange : q.nTotal < 2 ^ 31) : q.whileEmpty fMaster =
      .ok ({ q with nTotal := q.nTotal - 1, fAllOk := fMaster || q.fAllOk }, .done q.fAllOk) := by
  rw [whileEmpty, if_pos (List.isEmpty_iff.2 hempty), if_pos (by rw [hdone, htodo]; rfl),
    checkedInt_ok (by omega) (by omega)]
  rfl

theorem whileEmpty_sleep (hempty : q.queue = []) (hwait : ((fMaster || q.fQuit) && q.nTodo = 0) = false)
    (h0 : 0 ≤ q.nIdle) (hrange : q.nIdle + 1 < 2 ^ 31) :
    q.whileEmpty fMaster = .ok ({ q with nIdle := q.nIdle + 1 }, .waiting) := by
  rw [whileEmpty, if_pos (List.isEmpty_iff.2 hempty), hwait, if_neg (by decide), checkedInt_ok (by omega) hrange]
  rfl

/-- The size of a batch when the counters are in range. -/
def nNow (q : CCheckQueue α) : Nat :=
  max 1 (min q.nBatchSize (q.queue.length % 2 ^ 32 / (q.nTotal + q.nIdle + 1).toNat))

theorem batchSize_eq (hidle : 0 ≤ q.nIdle) (htotal : 0 ≤ q.nTotal) (hrange : q.nTotal + q.nIdle + 1 < 2 ^ 31) :
    q.batchSize = .ok q.nNow := by
  unfold batchSize
  rw [checkedInt_ok (by omega) (by omega)]
  change (checkedInt (q.nTotal + q.nIdle + 1) >>= _) = _
  rw [checkedInt_ok (by omega) hrange]
  change (if _ then _ else _) = _
  rw [if_neg (by omega), Int.emod_eq_of_lt (by omega) (by omega)]
  rfl

theorem batchSize_overflow (hrange : q.nTotal + q.nIdle + 1 = 2 ^ 31) :
    q.batchSize = .error .overflow := by
  unfold batchSize
  rw [checkedInt_ok (by omega) (by omega)]
  change (checkedInt (q.nTotal + q.nIdle + 1) >>= _) = _
  rw [checkedInt, if_neg (by omega)]
  rfl

theorem whileEmpty_busy (hempty : q.queue ≠ []) : q.whileEmpty fMaster = q.takeBatch := by
  rw [whileEmpty, if_neg (by rwa [List.isEmpty_iff])]

theorem whileEmpty_take (hempty : q.queue ≠ []) (hidle : 0 ≤ q.nIdle) (htotal : 0 ≤ q.nTotal)
    (hrange : q.nTotal + q.nIdle + 1 < 2 ^ 31) : q.whileEmpty fMaster =
      .ok ({ q with queue := q.queue.drop q.nNow }, .working (q.queue.take q.nNow) q.nNow q.fAllOk) := by
  rw [whileEmpty_busy hempty, takeBatch, batchSize_eq hidle htotal hrange]
  rfl

theorem nNow_le (hempty : q.queue ≠ []) : q.nNow ≤ q.queue.length := by
  have hpos := length_pos_iff.2 hempty
  have hle : q.queue.length % 2 ^ 32 / (q.nTotal + q.nIdle + 1).toNat ≤ q.queue.length :=
    (Nat.div_le_self _ _).trans (Nat.mod_le _ _)
  unfold nNow
  omega

end CCheckQueue

/-! ### What the phases hold -/

namespace CheckPhase

variable {α : Type}

/-- Whether the thread counts in `nTotal`. -/
def entered : CheckPhase α → Int
  | waiting => 1
  | working _ _ _ => 1
  | _ => 0

/-- Whether the thread counts in `nIdle`. -/
def idle : CheckPhase α → Int
  | waiting => 1
  | _ => 0

/-- How many checks of the thread count in `nTodo`. -/
def held : CheckPhase α → Nat
  | working _ nNow _ => nNow
  | _ => 0

/-- The checks that the thread has not come to. -/
def pending : CheckPhase α → Multiset α
  | working vChecks _ _ => vChecks
  | _ => 0

/-- Whether the thread knows of a failure. -/
def failed : CheckPhase α → Bool
  | working _ _ fOk => !fOk
  | _ => false

theorem idle_le (phase : CheckPhase α) : 0 ≤ phase.idle ∧ phase.idle ≤ phase.entered ∧ phase.entered ≤ 1 := by
  cases phase <;> simp [idle, entered]

end CheckPhase

namespace CheckSystem

open CheckPhase

variable {α : Type} {W : Nat} {result : α → Bool} {s : CheckSystem α W}

/-- A failure is known to all threads or to one. -/
def Failing (s : CheckSystem α W) : Prop := s.q.fAllOk = false ∨ ∃ i, (s.thread i).failed = true

/-- The counters count the checks that are queued or held and the threads in the loop, the checks are accounted for, and
failures are known. -/
structure Counted (result : α → Bool) (s : CheckSystem α W) : Prop where
  quit : s.q.fQuit = false
  nTodo : s.q.nTodo = BitVec.ofNat 32 (s.q.queue.length + total held s.thread)
  nTotal : s.q.nTotal = total entered s.thread
  nIdle : s.q.nIdle = total idle s.thread
  count : s.q.queue.length + total held s.thread ≤ s.added.length
  checks : ∃ skipped : Multiset α,
    (s.added : Multiset α) = s.q.queue + total pending s.thread + s.executed + skipped ∧ (skipped ≠ 0 → s.Failing)
  fails : s.Failing ↔ ∃ c ∈ s.executed, result c = false

variable {q : CCheckQueue α} {i : CheckThread W} {nNow nBatchSize : Nat}

theorem failing_update {y : CheckPhase α} {added executed : List α} :
    Failing { q, thread := update s.thread i y, added, executed } ↔
      (q.fAllOk = false ∨ y.failed = true) ∨ ∃ j ≠ i, (s.thread j).failed = true := by
  rw [Failing, Function.exists_update_iff s.thread fun _ phase => phase.failed = true, or_assoc]

theorem failing_iff (i : CheckThread W) :
    s.Failing ↔ (s.q.fAllOk = false ∨ (s.thread i).failed = true) ∨ ∃ j ≠ i, (s.thread j).failed = true := by
  have hsame : Failing { s with thread := update s.thread i (s.thread i) } ↔ _ := failing_update
  rw [update_eq_self] at hsame
  exact hsame

variable {x y : CheckPhase α}

/-- The counters of the queue `q₀` and of `q` differ by what a thread counts in its phases `x` and `y`. -/
structure Moves (q₀ q : CCheckQueue α) (x y : CheckPhase α) : Prop where
  quit : q.fQuit = q₀.fQuit
  todo : q.nTodo + BitVec.ofNat 32 (q₀.queue.length + x.held) = q₀.nTodo + BitVec.ofNat 32 (q.queue.length + y.held)
  total : q.nTotal + x.entered = q₀.nTotal + y.entered
  idle : q.nIdle + x.idle = q₀.nIdle + y.idle
  count : q.queue.length + y.held ≤ q₀.queue.length + x.held

/-- The thread holds the mutex and has nothing to publish. -/
def inSection : CheckPhase α := .working [] 0 true

/-- A batch is not empty and not larger than it may be. -/
def Busy (nBatchSize : Nat) (phase : CheckPhase α) : Prop :=
  ∀ vChecks nNow fOk, phase = .working vChecks nNow fOk → 0 < nNow ∧ nNow ≤ nBatchSize

theorem busy_update {y : CheckPhase α} (hy : Busy nBatchSize y) (hoth : ∀ j ≠ i, Busy nBatchSize (s.thread j))
    (j : CheckThread W) : Busy nBatchSize (update s.thread i y j) := by
  by_cases hj : j = i
  · rw [hj, update_self]
    exact hy
  · rw [update_of_ne hj]
    exact hoth j hj

structure Batched (nBatchSize : Nat) (s : CheckSystem α W) : Prop where
  limit : s.q.nBatchSize = nBatchSize
  busy : ∀ i, Busy nBatchSize (s.thread i)

/-- The checks that are held at a time are counted without wrapping. -/
def Room (nBatchSize : Nat) (s : CheckSystem α W) : Prop := s.added.length < 2 ^ 32 ∨ (W + 1) * nBatchSize < 2 ^ 32

/-- What the caller of `Wait` gets: `s` is before the section that returns, `s'` after it. -/
structure Faithful (result : α → Bool) (s s' : CheckSystem α W) (fRet : Bool) : Prop where
  answer : fRet = true ↔ ∀ c ∈ s.added, result c = true
  all : (∀ c ∈ s.added, result c = true) → s.executed.Perm s.added
  none_running : ∀ i vChecks nNow fOk, s'.thread i ≠ .working vChecks nNow fOk
  idle : s'.q.isIdle = true

theorem totals_settled (hi : s.thread i = inSection)
    (hoth : ∀ j ≠ i, ∀ vChecks nNow fOk, s.thread j ≠ .working vChecks nNow fOk) :
    total pending s.thread = 0 ∧ total entered s.thread = total idle s.thread + 1 ∧ (∀ j, (s.thread j).failed = false) := by
  have hphase : ∀ j ≠ i, (s.thread j).pending = 0 ∧ (s.thread j).entered = (s.thread j).idle ∧ (s.thread j).failed = false := by
    intro j hj
    cases hj' : s.thread j with
    | working vChecks nNow fOk => exact absurd hj' (hoth j hj _ _ _)
    | _ => exact ⟨rfl, rfl, rfl⟩
  refine ⟨?_, ?_, ?_⟩
  · refine Finset.sum_eq_zero fun j _ => ?_
    by_cases hj : j = i
    · rw [hj, hi]
      rfl
    · exact (hphase j hj).1
  · have hsum : ∑ j ∈ Finset.univ.erase i, (s.thread j).entered = ∑ j ∈ Finset.univ.erase i, (s.thread j).idle :=
      Finset.sum_congr rfl fun j hj => (hphase j (Finset.ne_of_mem_erase hj)).2.1
    rw [total_eq_add entered s.thread i, total_eq_add CheckPhase.idle s.thread i, hsum, hi]
    simp only [inSection, entered, CheckPhase.idle]
    omega
  · intro j
    by_cases hj : j = i
    · rw [hj, hi]
      rfl
    · exact (hphase j hj).2.2

/-- The shared fields after `Wait` has returned. -/
def returned (q : CCheckQueue α) : CCheckQueue α := { q with nTotal := q.nTotal - 1, fAllOk := true }

section

variable (h : Counted result s)
include h

/-- A thread goes from the phase `x` to the phase `y`; `others` are the checks of the other threads. -/
theorem Counted.goes {executed : List α} (hi : s.thread i = x) (hmoves : Moves s.q q x y)
    (hchk : ∀ others skipped : Multiset α, (skipped ≠ 0 → s.Failing) → ∃ skipped' : Multiset α, (s.q.queue : Multiset α) + (x.pending + others) + s.executed + skipped = q.queue + (y.pending + others) + executed + skipped' ∧ (skipped' ≠ 0 → Failing { s with q, thread := update s.thread i y, executed }))
    (hfails : Failing { s with q, thread := update s.thread i y, executed } ↔ ∃ c ∈ executed, result c = false) :
    Counted result { s with q, thread := update s.thread i y, executed } := by
  subst hi
  obtain ⟨hquit, htodo, htotal, hidle, hcount⟩ := hmoves
  have hheld := total_update held s.thread i y
  have hentered := total_update entered s.thread i y
  have hidle' := total_update CheckPhase.idle s.thread i y
  refine ⟨hquit.trans h.quit, ?_, ?_, ?_, ?_, ?_, hfails⟩
  · have hsum : s.q.queue.length + total held s.thread + (q.queue.length + y.held) =
        q.queue.length + total held (update s.thread i y) + (s.q.queue.length + (s.thread i).held) := by omega
    refine (BitVec.add_left_inj (BitVec.ofNat 32 (s.q.queue.length + (s.thread i).held))).1 ?_
    rw [htodo, h.nTodo, ← BitVec.ofNat_add, hsum, ← BitVec.ofNat_add]
  · have := h.nTotal
    dsimp only
    omega
  · have := h.nIdle
    dsimp only
    omega
  · have := h.count
    dsimp only
    omega
  · obtain ⟨skipped, hadded, hskip⟩ := h.checks
    obtain ⟨skipped', hsum, hfail⟩ := hchk _ skipped hskip
    refine ⟨skipped', ?_, hfail⟩
    rw [hadded, total_eq_add pending _ i, hsum, total_update_eq pending]

theorem Counted.change (hi : s.thread i = x) (hmoves : Moves s.q q x y)
    (hchk : (q.queue : Multiset α) + y.pending = s.q.queue + x.pending)
    (hfails : q.fAllOk = false ∨ y.failed = true ↔ s.q.fAllOk = false ∨ x.failed = true) :
    Counted result { s with q, thread := update s.thread i y } := by
  have hfail : Failing { s with q, thread := update s.thread i y } ↔ s.Failing := by
    rw [failing_update, failing_iff i, hi, hfails]
  refine h.goes hi hmoves (fun others skipped hskip => ?_) (hfail.trans h.fails)
  refine ⟨skipped, ?_, fun hne => hfail.2 (hskip hne)⟩
  rw [← add_assoc, ← add_assoc, hchk]

/-! ### Sections -/

theorem Counted.enter (hi : s.thread i = .entering) :
    Counted result { s with
      q := { s.q with nTotal := s.q.nTotal + 1 }, thread := update s.thread i inSection } := by
  refine h.change hi ⟨rfl, rfl, ?_, rfl, le_refl _⟩ rfl ?_
  · change s.q.nTotal + 1 + 0 = s.q.nTotal + 1
    omega
  · simp [inSection, failed]

theorem Counted.publish {fOk : Bool} (hi : s.thread i = .working [] nNow fOk) :
    Counted result { s with
      q := { s.q with fAllOk := s.q.fAllOk && fOk, nTodo := s.q.nTodo - BitVec.ofNat 32 nNow }
      thread := update s.thread i inSection } := by
  refine h.change hi ⟨rfl, ?_, rfl, rfl, ?_⟩ rfl ?_
  · change s.q.nTodo - BitVec.ofNat 32 nNow + BitVec.ofNat 32 (s.q.queue.length + nNow) =
      s.q.nTodo + BitVec.ofNat 32 (s.q.queue.length + 0)
    rw [Nat.add_zero, Nat.add_comm, BitVec.ofNat_add, ← BitVec.add_assoc, BitVec.sub_add_cancel]
  · change s.q.queue.length + 0 ≤ s.q.queue.length + nNow
    omega
  · cases s.q.fAllOk <;> simp [inSection, failed]

theorem Counted.woken (hi : s.thread i = .waiting) :
    Counted result { s with
      q := { s.q with nIdle := s.q.nIdle - 1 }, thread := update s.thread i inSection } := by
  refine h.change hi ⟨rfl, rfl, rfl, ?_, le_refl _⟩ rfl ?_
  · change s.q.nIdle - 1 + 1 = s.q.nIdle + 0
    omega
  · simp [inSection, failed]

theorem Counted.sleep (hi : s.thread i = inSection) :
    Counted result { s with
      q := { s.q with nIdle := s.q.nIdle + 1 }, thread := update s.thread i .waiting } := by
  refine h.change hi ⟨rfl, rfl, rfl, ?_, le_refl _⟩ rfl ?_
  · change s.q.nIdle + 1 + 0 = s.q.nIdle + 1
    omega
  · simp [inSection, failed]

theorem Counted.takeBatch (hi : s.thread i = inSection) (hnow : nNow ≤ s.q.queue.length) :
    Counted result { s with
      q := { s.q with queue := s.q.queue.drop nNow }
      thread := update s.thread i (.working (s.q.queue.take nNow) nNow s.q.fAllOk) } := by
  have hlen : (s.q.queue.drop nNow).length + nNow = s.q.queue.length := by
    rw [length_drop]
    omega
  refine h.change hi ⟨rfl, ?_, rfl, rfl, ?_⟩ ?_ ?_
  · change s.q.nTodo + BitVec.ofNat 32 (s.q.queue.length + 0) =
      s.q.nTodo + BitVec.ofNat 32 ((s.q.queue.drop nNow).length + nNow)
    rw [hlen, Nat.add_zero]
  · exact le_of_eq hlen
  · change ((s.q.queue.drop nNow : List α) : Multiset α) + (s.q.queue.take nNow : List α) = s.q.queue + 0
    rw [add_zero, add_comm, coe_add, take_append_drop]
  · simp [inSection, failed]

theorem Counted.range : 0 ≤ s.q.nIdle ∧ s.q.nIdle ≤ s.q.nTotal ∧ s.q.nTotal ≤ W + 1 := by
  rw [h.nIdle, h.nTotal]
  refine ⟨Finset.sum_nonneg fun i _ => (idle_le _).1, Finset.sum_le_sum fun i _ => (idle_le _).2.1, ?_⟩
  calc total entered s.thread ≤ ∑ _ : CheckThread W, (1 : Int) := Finset.sum_le_sum fun i _ => (idle_le _).2.2
    _ = W + 1 := by simp

theorem Counted.held_lt (hbatched : Batched nBatchSize s) (hroom : Room nBatchSize s) : total held s.thread < 2 ^ 32 := by
  rcases hroom with hroom | hroom
  · have := h.count
    omega
  · refine lt_of_le_of_lt ?_ hroom
    calc total held s.thread ≤ ∑ _ : CheckThread W, nBatchSize := sum_le_sum fun i _ => by
          cases hi : s.thread i with
          | working vChecks nNow fOk => exact (hbatched.busy i _ _ _ hi).2
          | _ => exact Nat.zero_le _
      _ = (W + 1) * nBatchSize := by simp

theorem Counted.settled (hoth : ∀ j ≠ i, Busy nBatchSize (s.thread j)) (hheld : total held s.thread < 2 ^ 32)
    (hempty : s.q.queue = []) (htodo : s.q.nTodo = 0) :
    total held s.thread = 0 ∧ ∀ j ≠ i, ∀ vChecks nNow fOk, s.thread j ≠ .working vChecks nNow fOk := by
  have hzero : total held s.thread = 0 := by
    have hcount := h.nTodo
    rw [htodo, hempty, length_nil, Nat.zero_add] at hcount
    have hcount := congrArg BitVec.toNat hcount
    rw [BitVec.toNat_ofNat, Nat.mod_eq_of_lt hheld] at hcount
    exact hcount.symm
  refine ⟨hzero, fun j hj vChecks nNow fOk hwork => ?_⟩
  have hpos := (hoth j hj _ _ _ hwork).1
  have hnone : (s.thread j).held = 0 := sum_eq_zero_iff.1 hzero j (mem_univ j)
  rw [hwork] at hnone
  exact absurd hnone (Nat.ne_of_gt hpos)

theorem Counted.answer (hempty : s.q.queue = []) (hpend : total pending s.thread = 0)
    (hfailed : ∀ j, (s.thread j).failed = false) : (s.q.fAllOk = true ↔ ∀ c ∈ s.added, result c = true) ∧
      ((∀ c ∈ s.added, result c = true) → s.executed.Perm s.added) := by
  have hfailing : s.Failing ↔ s.q.fAllOk = false := by
    rw [Failing]
    constructor
    · rintro (hok | ⟨j, hj⟩)
      · exact hok
      · rw [hfailed j] at hj
        cases hj
    · exact .inl
  obtain ⟨skipped, hadded, hskip⟩ := h.checks
  rw [hempty, hpend, Multiset.coe_nil, add_zero, zero_add] at hadded
  have hexecuted : ¬ s.Failing → s.executed.Perm s.added := by
    intro hnot
    have hnone : skipped = 0 := by
      by_contra hne
      exact hnot (hskip hne)
    rw [hnone, add_zero] at hadded
    exact Multiset.coe_eq_coe.1 hadded.symm
  have hall : (∀ c ∈ s.added, result c = true) → ¬ s.Failing := by
    intro hall hfail
    obtain ⟨c, hc, hfalse⟩ := h.fails.1 hfail
    have hmem : c ∈ s.added := by
      rw [← Multiset.mem_coe, hadded]
      exact Multiset.mem_add.2 (.inl (Multiset.mem_coe.2 hc))
    rw [hall c hmem] at hfalse
    cases hfalse
  refine ⟨⟨?_, ?_⟩, fun htrue => hexecuted (hall htrue)⟩
  · intro hok c hc
    have hnot : ¬ s.Failing := by
      rw [hfailing, hok]
      decide
    by_contra hfalse
    exact hnot (h.fails.2 ⟨c, (hexecuted hnot).mem_iff.2 hc, Bool.eq_false_iff.2 hfalse⟩)
  · intro htrue
    have hnot := hall htrue
    rw [hfailing, Bool.not_eq_false] at hnot
    exact hnot

theorem Counted.finish (hi : s.thread none = inSection) (hempty : s.q.queue = []) (htodo : s.q.nTodo = 0)
    (hheld : total held s.thread = 0) (hoth : ∀ j ≠ none, ∀ vChecks nNow fOk, s.thread j ≠ .working vChecks nNow fOk) :
    Counted result (s.leave none (returned s.q, .done s.q.fAllOk)) ∧
      Faithful result s (s.leave none (returned s.q, .done s.q.fAllOk)) s.q.fAllOk := by
  obtain ⟨hpend, hentered, hfail⟩ := totals_settled hi hoth
  have hheld' := total_update held s.thread none (.done s.q.fAllOk)
  have hentered' := total_update entered s.thread none (.done s.q.fAllOk)
  have hidle' := total_update CheckPhase.idle s.thread none (.done s.q.fAllOk)
  have hpend' := total_update pending s.thread none (.done s.q.fAllOk)
  rw [hi] at hheld' hentered' hidle' hpend'
  simp only [inSection, held, entered, CheckPhase.idle, pending, add_zero, coe_nil]
    at hheld' hentered' hidle' hpend'
  rw [hheld] at hheld'
  rw [hpend] at hpend'
  have hnt := h.nTotal
  have hnIdle := h.nIdle
  obtain ⟨hans, hall⟩ := h.answer hempty hpend hfail
  refine ⟨⟨h.quit, ?_, ?_, ?_, ?_, ⟨0, ?_, fun hne => absurd rfl hne⟩, ?_⟩, hans, hall, ?_, ?_⟩
  · change s.q.nTodo = BitVec.ofNat 32 (s.q.queue.length + total held (update s.thread none _))
    rw [htodo, hempty, hheld']
    rfl
  · change s.q.nTotal - 1 = total entered (update s.thread none _)
    omega
  · change s.q.nIdle = total CheckPhase.idle (update s.thread none _)
    omega
  · change s.q.queue.length + total held (update s.thread none _) ≤ 0
    rw [hempty, hheld']
    rfl
  · change (0 : Multiset α) = (s.q.queue : Multiset α) + total pending (update s.thread none _) + 0 + 0
    rw [hempty, hpend']
    rfl
  · refine failing_update.trans ?_
    constructor
    · rintro ((hok | hdone) | ⟨j, -, hj⟩)
      · cases hok
      · cases hdone
      · rw [hfail j] at hj
        cases hj
    · rintro ⟨c, hc, -⟩
      cases hc
  · intro j vChecks nNow fOk hwork
    change update s.thread none _ j = _ at hwork
    by_cases hj : j = none
    · rw [hj, update_self] at hwork
      cases hwork
    · rw [update_of_ne hj] at hwork
      exact hoth j hj _ _ _ hwork
  · change (decide (s.q.nTotal - 1 = s.q.nIdle) && decide (s.q.nTodo = 0) && true) = true
    rw [htodo, hnt, hentered, hnIdle]
    simp

theorem Counted.whileEmpty (hi : s.thread i = inSection) (hlimit : s.q.nBatchSize = nBatchSize) (hbatch : 1 ≤ nBatchSize)
    (hoth : ∀ j ≠ i, Busy nBatchSize (s.thread j)) (hheld : total held s.thread < 2 ^ 32) (hW : W + 1 < 2 ^ 30) :
    ∃ r, s.q.whileEmpty i.isNone = .ok r ∧ Counted result (s.leave i r) ∧ Batched nBatchSize (s.leave i r) ∧
      ∀ fRet, r.2 = .done fRet → i = none ∧ Faithful result s (s.leave i r) fRet := by
  subst hlimit
  obtain ⟨hidle, hle, htotal⟩ := h.range
  by_cases hempty : s.q.queue = []
  · by_cases hdone : (i.isNone || s.q.fQuit) = true ∧ s.q.nTodo = 0
    · obtain ⟨hmaster, htodo⟩ := hdone
      have hret := CCheckQueue.whileEmpty_return hempty hmaster htodo (by omega) (by omega)
      rw [h.quit, Bool.or_false, Option.isNone_iff_eq_none] at hmaster
      subst hmaster
      obtain ⟨hzero, hrest⟩ := h.settled hoth hheld hempty htodo
      obtain ⟨hcnt, hfai⟩ := h.finish hi hempty htodo hzero hrest
      refine ⟨_, hret, hcnt, ⟨rfl, busy_update (by rintro _ _ _ ⟨⟩) hoth⟩, ?_⟩
      rintro _ ⟨⟩
      exact ⟨rfl, hfai⟩
    · have hwait : ((i.isNone || s.q.fQuit) && s.q.nTodo = 0) = false := by
        rw [Bool.and_eq_false_iff, decide_eq_false_iff_not, Bool.eq_false_iff]
        exact not_and_or.1 hdone
      refine ⟨_, CCheckQueue.whileEmpty_sleep hempty hwait hidle (by omega), h.sleep hi,
        ⟨rfl, busy_update (by rintro _ _ _ ⟨⟩) hoth⟩, ?_⟩
      rintro _ ⟨⟩
  · refine ⟨_, CCheckQueue.whileEmpty_take hempty hidle (by omega) (by omega), h.takeBatch hi (CCheckQueue.nNow_le hempty),
      ⟨rfl, busy_update ?_ hoth⟩, ?_⟩
    · rintro _ _ _ ⟨⟩
      unfold CCheckQueue.nNow
      omega
    · rintro _ ⟨⟩

/-! ### Steps -/

theorem Counted.add (vChecks : List α) : Counted result { s with q := s.q.add vChecks, added := s.added ++ vChecks } := by
  obtain ⟨skipped, hadded, hskip⟩ := h.checks
  refine ⟨h.quit, ?_, h.nTotal, h.nIdle, ?_, ⟨skipped, ?_, hskip⟩, h.fails⟩
  · change s.q.nTodo + BitVec.ofNat 32 vChecks.length =
      BitVec.ofNat 32 ((vChecks.reverse ++ s.q.queue).length + total held s.thread)
    rw [h.nTodo, ← BitVec.ofNat_add, length_append, length_reverse]
    congr 1
    omega
  · change (vChecks.reverse ++ s.q.queue).length + total held s.thread ≤ (s.added ++ vChecks).length
    rw [length_append, length_append, length_reverse]
    have := h.count
    omega
  · change ((s.added ++ vChecks : List α) : Multiset α) =
      ((vChecks.reverse ++ s.q.queue : List α) : Multiset α) + total pending s.thread + s.executed + skipped
    rw [← coe_add, hadded, ← coe_add, coe_reverse, add_comm]
    simp only [add_assoc]

theorem Counted.check {check : α} {vChecks : List α} {fOk : Bool} (hi : s.thread i = .working (check :: vChecks) nNow fOk) :
    Counted result { s with
      thread := update s.thread i (.working vChecks nNow (fOk && result check))
      executed := if fOk then check :: s.executed else s.executed } := by
  have hfailing := failing_iff (s := s) i
  rw [hi] at hfailing
  have hfail' {executed : List α} :
      Failing { s with thread := update s.thread i (.working vChecks nNow (fOk && result check)), executed } ↔
        (s.q.fAllOk = false ∨ (!(fOk && result check)) = true) ∨ ∃ j ≠ i, (s.thread j).failed = true := failing_update
  refine h.goes hi ⟨rfl, rfl, rfl, rfl, le_rfl⟩ (fun others skipped hskip => ?_) (hfail'.trans ?_)
  · change ∃ skipped', _ + (((check :: vChecks : List α) : Multiset α) + others) + _ + skipped = _ ∧ _
    rw [← cons_coe, ← singleton_add]
    cases fOk with
    | true =>
      refine ⟨skipped, ?_, fun hne => hfail'.2 ?_⟩
      · rw [if_pos rfl, ← cons_coe, ← singleton_add]
        simp only [pending, add_assoc, add_left_comm ({check} : Multiset α)]
      · rcases hfailing.1 (hskip hne) with (hok | hfail) | hoth
        · exact .inl (.inl hok)
        · cases hfail
        · exact .inr hoth
    | false =>
      refine ⟨{check} + skipped, ?_, fun _ => hfail'.2 (.inl (.inr rfl))⟩
      rw [if_neg (by decide)]
      simp only [pending, add_assoc, add_left_comm ({check} : Multiset α)]
  · cases fOk with
    | true =>
      have hlist : (∃ c ∈ check :: s.executed, result c = false) ↔ result check = false ∨ s.Failing := by
        rw [h.fails]
        simp
      refine Iff.trans ?_ hlist.symm
      rw [hfailing, Bool.true_and, Bool.not_eq_true']
      simp only [failed, Bool.not_true, Bool.false_eq_true, or_false]
      rw [or_comm (a := s.q.fAllOk = false), or_assoc]
    | false =>
      rw [if_neg (by decide), ← h.fails, hfailing]
      rfl

end

structure Inv (result : α → Bool) (nBatchSize : Nat) (s : CheckSystem α W) : Prop where
  counted : Counted result s
  batched : Batched nBatchSize s

/-- `Wait` returns `fRet` with the step from `s` to `s'`. -/
def Returns (s s' : CheckSystem α W) (fRet : Bool) : Prop :=
  (∀ b, s.thread none ≠ .done b) ∧ s'.thread none = .done fRet

theorem thread_leave (i : CheckThread W) (r : CCheckQueue α × CheckPhase α) :
    (s.leave i r).thread = update s.thread i r.2 := by
  obtain ⟨q, phase⟩ := r
  cases phase <;> rfl

theorem leave_update (i : CheckThread W) (q : CCheckQueue α) (x : CheckPhase α) (r : CCheckQueue α × CheckPhase α) :
    leave i { s with q, thread := update s.thread i x } r = s.leave i r := by
  obtain ⟨q, phase⟩ := r
  cases phase <;> simp only [leave, update_idem]

section

variable {nBatchSize : Nat} (hbatch : 1 ≤ nBatchSize) (hW : W + 1 < 2 ^ 30)
include hbatch hW

theorem Inv.inSection (h : Inv result nBatchSize s) (hroom : Room nBatchSize s) {i : CheckThread W} {q : CCheckQueue α}
    (hcnt : Counted result { s with q, thread := update s.thread i CheckSystem.inSection })
    (hlimit : q.nBatchSize = nBatchSize) :
    ∃ r, q.whileEmpty i.isNone = .ok r ∧ Inv result nBatchSize (s.leave i r) ∧
      ∀ fRet, Returns s (s.leave i r) fRet → Faithful result s (s.leave i r) fRet := by
  have hheld : total held (update s.thread i CheckSystem.inSection) < 2 ^ 32 := by
    have hupd := total_update held s.thread i CheckSystem.inSection
    have hlt := h.counted.held_lt h.batched hroom
    simp only [CheckSystem.inSection, held] at hupd ⊢
    omega
  have hoth : ∀ j ≠ i, Busy nBatchSize (update s.thread i CheckSystem.inSection j) := by
    intro j hj
    rw [update_of_ne hj]
    exact h.batched.busy j
  obtain ⟨r, hr, hcnt', hbatched', hret⟩ :=
    hcnt.whileEmpty (update_self ..) hlimit hbatch hoth hheld hW
  rw [leave_update] at hcnt' hbatched' hret
  refine ⟨r, hr, ⟨hcnt', hbatched'⟩, ?_⟩
  rintro fRet ⟨hbef, hafter⟩
  rw [thread_leave] at hafter
  by_cases hi : i = none
  · rw [hi, update_self] at hafter
    obtain ⟨-, hfai⟩ := hret fRet hafter
    exact ⟨hfai.answer, hfai.all, hfai.none_running, hfai.idle⟩
  · rw [update_of_ne (Ne.symm hi)] at hafter
    exact absurd hafter (hbef fRet)

/-- No step fails, each keeps the invariant, and `Wait` returns what it should. -/
theorem Inv.step (h : Inv result nBatchSize s) (hroom : Room nBatchSize s) {e : CheckEvent α W}
    {r : Except Fault (CheckSystem α W)} (hstep : s.step result e = some r) :
    ∃ s', r = .ok s' ∧ Inv result nBatchSize s' ∧ ∀ fRet, Returns s s' fRet → Faithful result s s' fRet := by
  have hcnt := h.counted
  obtain ⟨hidle, hle, htotal⟩ := hcnt.range
  cases e with
  | add vChecks =>
    simp only [CheckSystem.step] at hstep
    split at hstep
    · rename_i b hdone
      cases hstep
      refine ⟨_, rfl, ⟨hcnt.add vChecks, h.batched.limit, h.batched.busy⟩, ?_⟩
      rintro fRet ⟨hbef, -⟩
      exact absurd hdone (hbef b)
    · cases hstep
  | wait =>
    simp only [CheckSystem.step] at hstep
    split at hstep
    · rename_i b hdone
      cases hstep
      have hcnt' := hcnt.change (q := s.q) (y := .entering) hdone ⟨rfl, rfl, rfl, rfl, le_refl _⟩ rfl Iff.rfl
      refine ⟨_, rfl, ⟨hcnt', h.batched.limit, busy_update (by rintro _ _ _ ⟨⟩) fun j _ => h.batched.busy j⟩, ?_⟩
      rintro fRet ⟨hbef, -⟩
      exact absurd hdone (hbef b)
    · cases hstep
  | lock i =>
    simp only [CheckSystem.step] at hstep
    split at hstep
    · rename_i hent
      cases hstep
      obtain ⟨r, hr, hinv, hret⟩ := h.inSection hbatch hW hroom (hcnt.enter hent) h.batched.limit
      refine ⟨s.leave i r, ?_, hinv, hret⟩
      rw [CCheckQueue.lock_first (by omega) (by omega), hr]
      rfl
    · rename_i nNow fOk hwork
      cases hstep
      obtain ⟨r, hr, hinv, hret⟩ := h.inSection hbatch hW hroom (hcnt.publish hwork) h.batched.limit
      refine ⟨s.leave i r, ?_, hinv, hret⟩
      have hpos := (h.batched.busy i _ _ _ hwork).1
      rw [CCheckQueue.lock_later (Nat.ne_of_gt hpos), hr]
      rfl
    · cases hstep
  | wake i =>
    simp only [CheckSystem.step] at hstep
    split at hstep
    · rename_i hwaiting
      cases hstep
      obtain ⟨r, hr, hinv, hret⟩ := h.inSection hbatch hW hroom (hcnt.woken hwaiting) h.batched.limit
      refine ⟨s.leave i r, ?_, hinv, hret⟩
      rw [CCheckQueue.wake_eq hidle (by omega), hr]
      rfl
    · cases hstep
  | check i =>
    simp only [CheckSystem.step] at hstep
    split at hstep
    · rename_i check vChecks nNow fOk hwork
      cases hstep
      refine ⟨_, rfl, ⟨hcnt.check hwork, h.batched.limit, busy_update ?_ fun j _ => h.batched.busy j⟩, ?_⟩
      · rintro _ _ _ ⟨⟩
        exact h.batched.busy i _ _ _ hwork
      · rintro fRet ⟨hbef, hafter⟩
        change update s.thread i _ none = _ at hafter
        by_cases hi : i = none
        · subst hi
          rw [update_self] at hafter
          cases hafter
        · rw [update_of_ne (Ne.symm hi)] at hafter
          exact absurd hafter (hbef fRet)
    · cases hstep

end

/-- The states of runs that stay within `P`. -/
inductive Reachable (result : α → Bool) (nBatchSize : Nat) (P : CheckSystem α W → Prop) : CheckSystem α W → Prop where
  | init : Reachable result nBatchSize P (init α W nBatchSize)
  | step {s s' : CheckSystem α W} (e : CheckEvent α W) : Reachable result nBatchSize P s →
      s.step result e = some (.ok s') → P s' → Reachable result nBatchSize P s'

theorem inv_init (nBatchSize : Nat) : Inv result nBatchSize (CheckSystem.init α W nBatchSize) := by
  have hphase : ∀ i, (CheckSystem.init α W nBatchSize).thread i = .entering ∨
      (CheckSystem.init α W nBatchSize).thread i = .done true := by
    intro i
    cases i with
    | none => exact .inr rfl
    | some i => exact .inl rfl
  have hzero {M : Type} [AddCommMonoid M] (f : CheckPhase α → M) (h1 : f .entering = 0) (h2 : f (.done true) = 0) :
      total f (CheckSystem.init α W nBatchSize).thread = 0 := by
    refine Finset.sum_eq_zero fun i _ => ?_
    rcases hphase i with hi | hi
    · rw [hi, h1]
    · rw [hi, h2]
  refine ⟨⟨rfl, ?_, ?_, ?_, ?_, ⟨0, ?_, fun hne => absurd rfl hne⟩, ?_⟩, rfl, ?_⟩
  · rw [hzero held rfl rfl]
    rfl
  · rw [hzero entered rfl rfl]
    rfl
  · rw [hzero CheckPhase.idle rfl rfl]
    rfl
  · rw [hzero held rfl rfl]
    rfl
  · rw [hzero pending rfl rfl]
    rfl
  · constructor
    · rintro (hok | ⟨i, hi⟩)
      · cases hok
      · rcases hphase i with h | h <;> rw [h] at hi <;> cases hi
    · rintro ⟨c, hc, -⟩
      cases hc
  · intro i vChecks nNow fOk hi
    rcases hphase i with h | h <;> rw [h] at hi <;> cases hi

theorem Reachable.inv (hbatch : 1 ≤ nBatchSize) (hW : W + 1 < 2 ^ 30)
    (h : Reachable result nBatchSize (Room nBatchSize) s) : Inv result nBatchSize s ∧ Room nBatchSize s := by
  induction h with
  | init => exact ⟨inv_init nBatchSize, .inl (show 0 < 2 ^ 32 by decide)⟩
  | step _ _ hstep hroom ih =>
    obtain ⟨s', hs', hinv, -⟩ := ih.1.step hbatch hW ih.2 hstep
    cases hs'
    exact ⟨hinv, hroom⟩

theorem Inv.isIdle (h : Inv result nBatchSize s) (hadded : s.added = []) : s.q.isIdle = true := by
  have hcount := h.counted.count
  rw [hadded, length_nil] at hcount
  have hheld : total held s.thread = 0 := by omega
  have hphase : ∀ i, (s.thread i).entered = (s.thread i).idle := by
    intro i
    cases hi : s.thread i with
    | working vChecks nNow fOk =>
      have hnone : (s.thread i).held = 0 := sum_eq_zero_iff.1 hheld i (mem_univ i)
      rw [hi] at hnone
      exact absurd hnone (Nat.ne_of_gt (h.batched.busy i _ _ _ hi).1)
    | _ => rfl
  have htotal : s.q.nTotal = s.q.nIdle := by
    rw [h.counted.nTotal, h.counted.nIdle]
    exact sum_congr rfl fun i _ => hphase i
  have htodo : s.q.nTodo = 0 := by
    rw [h.counted.nTodo, show s.q.queue.length + total held s.thread = 0 by omega]
    rfl
  have hok : s.q.fAllOk = true := by
    by_contra hfalse
    obtain ⟨c, hc, -⟩ := h.counted.fails.1 (.inl (Bool.eq_false_iff.2 hfalse))
    obtain ⟨skipped, hchk, -⟩ := h.counted.checks
    have hmem : c ∈ (s.added : Multiset α) := by
      rw [hchk]
      exact mem_add.2 (.inl (mem_add.2 (.inr (mem_coe.2 hc))))
    rw [hadded] at hmem
    exact not_mem_nil (mem_coe.1 hmem)
  simp [CCheckQueue.isIdle, htotal, htodo, hok]

/-- Whatever the threads do, `Wait` tells whether all checks are true, each check is executed once at most, and all of them if
they are true; when `Wait` returns the queue is idle and it stays so until checks are added. -/
theorem wait_faithful {nBatchSize : Nat} (hbatch : 1 ≤ nBatchSize) (hW : W + 1 < 2 ^ 30)
    (h : Reachable result nBatchSize (Room nBatchSize) s) :
    (∀ e fault, s.step result e ≠ some (.error fault)) ∧ (s.executed : Multiset α) ≤ s.added ∧
      (∀ e s' fRet, s.step result e = some (.ok s') → Returns s s' fRet → Faithful result s s' fRet) ∧
      (s.added = [] → s.q.isIdle = true) := by
  obtain ⟨hinv, hroom⟩ := h.inv hbatch hW
  refine ⟨?_, ?_, ?_, ?_⟩
  · intro e fault hstep
    obtain ⟨s', hs', -⟩ := hinv.step hbatch hW hroom hstep
    cases hs'
  · obtain ⟨skipped, hadded, -⟩ := hinv.counted.checks
    rw [hadded]
    exact (Multiset.le_add_left _ _).trans (Multiset.le_add_right _ _)
  · intro e s' fRet hstep hreturns
    obtain ⟨_, hs', -, hfai⟩ := hinv.step hbatch hW hroom hstep
    cases hs'
    exact hfai fRet hreturns
  · exact hinv.isIdle

/-- The master checks one check itself. -/
theorem wait_faithful_alone : ∃ s s' : CheckSystem Bool 1, Reachable id 1 (Room 1) s ∧ s.step id (.lock none) = some (.ok s') ∧
    Returns s s' true ∧ Faithful id s s' true := by
  have hroom : ∀ s : CheckSystem Bool 1, Room 1 s := fun _ => .inr (by decide)
  have h1 : Reachable id 1 (Room 1) _ := (Reachable.init (W := 1)).step (.add [true]) rfl (hroom _)
  have h2 := h1.step .wait rfl (hroom _)
  have h3 := h2.step (.lock none) rfl (hroom _)
  have h4 := h3.step (.check none) rfl (hroom _)
  have hfai := (wait_faithful (by decide) (by decide) h4).2.2.1 (.lock none) _ true rfl
  refine ⟨_, _, h4, rfl, ?_, hfai ?_⟩ <;> exact ⟨by rintro _ ⟨⟩, rfl⟩

end CheckSystem

end LitecoinZ
