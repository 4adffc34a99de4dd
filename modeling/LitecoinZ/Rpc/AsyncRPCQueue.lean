import LitecoinZ.Consensus.Validation
import LitecoinZ.Lib.Threads

/-!
# The queue of RPC operations

`AsyncRPCQueue` of `asyncrpcqueue.cpp` with any number of workers.  The sections under `lock_` are interrupted by the other
threads wherever one of the atomic flags or the state of an operation is read, since these are written without the lock.
In every interleaving `main()` is called at most once for an operation, and an operation that was accepted is run before
`finishAndWait` returns (`runs_once`).
-/

namespace LitecoinZ

open Function Threads List

abbrev AsyncRPCOperationId := String

inductive OperationStatus where
  | ready
  | executing
  | cancelled
  | failed
  | success
deriving DecidableEq

/-- Where a worker that has the lock is in `run`. -/
inductive RunStage where
  /-- The three conditions of the `while` loop, in the order in which they are evaluated. -/
  | whileEmpty
  | whileOpen
  | whileNotFinishing
  /-- The tests after the loop. -/
  | exitFinishing
  | exitClosed
  | takeFront
deriving DecidableEq

/-- Where `addOperation` is. -/
inductive AddStage where
  | testClosed
  | testFinishing
  | insert
deriving DecidableEq

/-- Which thread has `lock_`, and what it does next. -/
inductive LockHolder (W : Nat) where
  | free
  | worker (i : Fin W) (stage : RunStage)
  | adding (id : AsyncRPCOperationId) (stage : AddStage)
  /-- In `cancelAllOperations`, before the test of the first operation. -/
  | cancelling (operations : List AsyncRPCOperationId)
  /-- In `cancelAllOperations`, after a test that said that the operation is ready. -/
  | storing (id : AsyncRPCOperationId) (operations : List AsyncRPCOperationId)
deriving DecidableEq

/-- Where a worker is outside of the sections. -/
inductive WorkerPhase where
  | outside
  | inside
  | waiting
  /-- It has dequeued an id, and knows whether there was an operation for it. -/
  | found (key : AsyncRPCOperationId) (present : Bool)
  /-- It has called `main()`. -/
  | main (key : AsyncRPCOperationId)
  | executing (key : AsyncRPCOperationId)
  | exited
deriving DecidableEq

/-- What became of an operation when its turn came. -/
inductive Turn where
  | main
  | removed
  | cancelled
deriving DecidableEq

/-- The queue with its threads.  An operation is its id; the front of the queue is the head of the list. -/
structure AsyncRPCQueue (W : Nat) where
  lock : LockHolder W := .free
  closed : Bool := false
  finish : Bool := false
  operationMap : List AsyncRPCOperationId := []
  operationIdQueue : List AsyncRPCOperationId := []
  workers : Fin W → WorkerPhase := fun _ => .outside
  state : AsyncRPCOperationId → OperationStatus := fun _ => .ready
  /-- Calls of `popOperationForId` between its two sections. -/
  popping : List AsyncRPCOperationId := []
  /-- Calls of `cancel` that have seen a ready operation. -/
  cancels : List AsyncRPCOperationId := []
  /-- Calls of `close` before their section. -/
  closing : Nat := 0
  /-- Whether `finishAndWait` has returned. -/
  finished : Bool := false
  /-- What has happened so far: the operations given to `addOperation`, those that it accepted, those that were dequeued
  and those that a closed queue threw away. -/
  submitted : List AsyncRPCOperationId := []
  accepted : List AsyncRPCOperationId := []
  dequeued : List AsyncRPCOperationId := []
  cleared : List AsyncRPCOperationId := []
  turns : List (AsyncRPCOperationId × Turn) := []
  /-- The operations that were removed or cancelled before their turn. -/
  removed : List AsyncRPCOperationId := []
  cancelled : List AsyncRPCOperationId := []

inductive QueueEvent (W : Nat) where
  | lock (i : Fin W)
  | wake (i : Fin W)
  /-- The thread that has the lock goes on. -/
  | hold
  | turn (i : Fin W)
  | mainTest (i : Fin W)
  | mainEnd (i : Fin W) (ok : Bool)
  | addOperation (id : AsyncRPCOperationId)
  | getOperationForId (id : AsyncRPCOperationId)
  | popGet (id : AsyncRPCOperationId)
  | popErase (id : AsyncRPCOperationId)
  | cancelTest (id : AsyncRPCOperationId)
  | cancelStore (id : AsyncRPCOperationId)
  | finish
  | close
  | cancelAll (order : List AsyncRPCOperationId)
  | finishAndWait

namespace AsyncRPCQueue

variable {W : Nat} (s : AsyncRPCQueue W)

/-- The operations whose turn has come. -/
def turned : List AsyncRPCOperationId := s.turns.map Prod.fst

def setWorker (i : Fin W) (phase : WorkerPhase) : AsyncRPCQueue W :=
  { s with workers := update s.workers i phase }

def leave (i : Fin W) (phase : WorkerPhase) : AsyncRPCQueue W :=
  { s.setWorker i phase with lock := .free }

def setState (id : AsyncRPCOperationId) (state : OperationStatus) : AsyncRPCQueue W :=
  { s with state := update s.state id state }

/-- The second half of `cancel`. -/
def storeCancelled (id : AsyncRPCOperationId) : AsyncRPCQueue W :=
  { s.setState id .cancelled with cancelled := if id ∈ s.turned then s.cancelled else id :: s.cancelled }

/-- A worker that has the lock. -/
def run (i : Fin W) : RunStage → Except Fault (AsyncRPCQueue W)
  | .whileEmpty =>
    .ok { s with lock := .worker i (if s.operationIdQueue.isEmpty then .whileOpen else .exitFinishing) }
  | .whileOpen => .ok { s with lock := .worker i (if s.closed then .exitFinishing else .whileNotFinishing) }
  | .whileNotFinishing =>
    .ok (if s.finish then { s with lock := .worker i .exitFinishing } else s.leave i .waiting)
  | .exitFinishing =>
    .ok (if s.finish && s.operationIdQueue.isEmpty then s.leave i .exited else { s with lock := .worker i .exitClosed })
  | .exitClosed =>
    .ok (if s.closed then
      { s.leave i .exited with operationIdQueue := [], cleared := s.operationIdQueue ++ s.cleared }
    else { s with lock := .worker i .takeFront })
  | .takeFront =>
    match s.operationIdQueue with
    | [] => .error (.exception "front of an empty queue")
    | key :: rest =>
      .ok { s.leave i (.found key (key ∈ s.operationMap)) with operationIdQueue := rest, dequeued := s.dequeued ++ [key] }

/-- `addOperation` when it has the lock. -/
def add (id : AsyncRPCOperationId) : AddStage → AsyncRPCQueue W
  | .testClosed => { s with lock := if s.closed then .free else .adding id .testFinishing }
  | .testFinishing => { s with lock := if s.finish then .free else .adding id .insert }
  | .insert =>
    { s with
      lock := .free
      operationMap := if id ∈ s.operationMap then s.operationMap else id :: s.operationMap
      operationIdQueue := s.operationIdQueue ++ [id]
      accepted := s.accepted ++ [id] }

/-- `cancelAllOperations` when it has the lock. -/
def cancelNext : List AsyncRPCOperationId → AsyncRPCQueue W
  | [] => { s with lock := .free }
  | id :: operations =>
    { s with lock := if s.state id = .ready then .storing id operations else .cancelling operations }

def hold : Option (Except Fault (AsyncRPCQueue W)) :=
  match s.lock with
  | .free => none
  | .worker i stage => some (s.run i stage)
  | .adding id stage => some (.ok (s.add id stage))
  | .cancelling operations => some (.ok (s.cancelNext operations))
  | .storing id operations => some (.ok { s.storeCancelled id with lock := .cancelling operations })

/-- The end of an iteration of a worker, outside of the section: the turn of the operation. -/
def turn (i : Fin W) (key : AsyncRPCOperationId) (present : Bool) : AsyncRPCQueue W :=
  if !present then { s.setWorker i .outside with turns := (key, .removed) :: s.turns }
  else if s.state key = .cancelled then { s.setWorker i .outside with turns := (key, .cancelled) :: s.turns }
  else { s.setWorker i (.main key) with turns := (key, .main) :: s.turns }

/-- The beginning of `main()`. -/
def mainTest (i : Fin W) (key : AsyncRPCOperationId) : AsyncRPCQueue W :=
  if s.state key = .cancelled then s.setWorker i .outside else (s.setState key .executing).setWorker i (.executing key)

def popErase (id : AsyncRPCOperationId) : AsyncRPCQueue W :=
  { s with
    operationMap := s.operationMap.erase id
    popping := s.popping.erase id
    removed := if id ∈ s.turned then s.removed else id :: s.removed }

/-- What the threads do; `none` for what is not possible in the state. -/
def step : QueueEvent W → Option (Except Fault (AsyncRPCQueue W))
  | .lock i =>
    if s.lock = .free ∧ s.workers i = .outside then some (.ok { s.setWorker i .inside with lock := .worker i .whileEmpty })
    else none
  | .wake i =>
    if s.lock = .free ∧ s.workers i = .waiting then some (.ok { s.setWorker i .inside with lock := .worker i .whileEmpty })
    else none
  | .hold => s.hold
  | .turn i =>
    match s.workers i with
    | .found key present => some (.ok (s.turn i key present))
    | _ => none
  | .mainTest i =>
    match s.workers i with
    | .main key => some (.ok (s.mainTest i key))
    | _ => none
  | .mainEnd i ok =>
    match s.workers i with
    | .executing key => some (.ok ((s.setState key (if ok then .success else .failed)).setWorker i .outside))
    | _ => none
  | .addOperation id =>
    if s.lock = .free ∧ id ∉ s.submitted then
      some (.ok { s with lock := .adding id .testClosed, submitted := id :: s.submitted })
    else none
  | .getOperationForId _ => if s.lock = .free then some (.ok s) else none
  | .popGet id =>
    if s.lock = .free then some (.ok (if id ∈ s.operationMap then { s with popping := id :: s.popping } else s)) else none
  | .popErase id => if s.lock = .free ∧ id ∈ s.popping then some (.ok (s.popErase id)) else none
  | .cancelTest id => some (.ok (if s.state id = .ready then { s with cancels := id :: s.cancels } else s))
  | .cancelStore id =>
    if id ∈ s.cancels then some (.ok { s.storeCancelled id with cancels := s.cancels.erase id }) else none
  | .finish => some (.ok { s with finish := true })
  | .close => some (.ok { s with closed := true, closing := s.closing + 1 })
  | .cancelAll order =>
    if s.lock = .free ∧ 0 < s.closing ∧ order.Perm s.operationMap then
      some (.ok { s with lock := .cancelling order, closing := s.closing - 1 })
    else none
  | .finishAndWait =>
    if s.finish = true ∧ ∀ i, s.workers i = .exited then some (.ok { s with finished := true }) else none

def steps (s : AsyncRPCQueue W) : List (QueueEvent W) → Option (AsyncRPCQueue W)
  | [] => some s
  | e :: es =>
    match s.step e with
    | some (.ok t) => t.steps es
    | _ => none

/-! ### The invariant -/

end AsyncRPCQueue

/-- The id that a worker has dequeued and not come to. -/
def WorkerPhase.pending : WorkerPhase → Multiset AsyncRPCOperationId
  | found key _ => {key}
  | _ => 0

namespace AsyncRPCQueue

variable {W : Nat} {s t : AsyncRPCQueue W}

/-- What the thread that has the lock knows from the tests that it has made. -/
def HolderKnows (s : AsyncRPCQueue W) : LockHolder W → Prop
  | .worker i stage => s.workers i = .inside ∧
    match stage with
    | .exitFinishing => s.operationIdQueue ≠ [] ∨ s.closed = true ∨ s.finish = true
    | .exitClosed => s.operationIdQueue ≠ [] ∨ s.closed = true
    | .takeFront => s.operationIdQueue ≠ []
    | _ => True
  | .adding id stage => (id ∈ s.submitted ∧ id ∉ s.accepted) ∧
    match stage with
    | .testClosed => True
    | .testFinishing => s.cleared = [] ∧ ∀ i, s.workers i = .exited → s.finish = true
    | .insert => s.cleared = [] ∧ ∀ i, s.workers i ≠ .exited
  | _ => True

/-- Every accepted id is in one place, and a worker exits only when no id can be queued any more. -/
structure Sound (s : AsyncRPCQueue W) : Prop where
  order : s.accepted = s.dequeued ++ s.operationIdQueue ++ s.cleared
  nodup : s.accepted.Nodup
  submitted : s.accepted ⊆ s.submitted
  places : (s.dequeued : Multiset AsyncRPCOperationId) = s.turned + total WorkerPhase.pending s.workers
  cleared : s.cleared ≠ [] → s.closed = true
  queued : ∀ id ∈ s.operationIdQueue, id ∈ s.operationMap ∨ id ∈ s.removed
  missing : ∀ i key, s.workers i = .found key false → key ∈ s.removed
  states : ∀ id, s.state id = .cancelled → id ∈ s.cancelled ∨ id ∈ s.turned
  turnRemoved : ∀ id, (id, .removed) ∈ s.turns → id ∈ s.removed
  turnCancelled : ∀ id, (id, .cancelled) ∈ s.turns → id ∈ s.cancelled
  exited : ∀ i, s.workers i = .exited → s.closed = true ∨ s.finish = true ∧ s.operationIdQueue = []
  finished : s.finished = true → s.finish = true ∧ ∀ i, s.workers i = .exited
  holder : s.HolderKnows s.lock

theorem sound_init : Sound ({} : AsyncRPCQueue W) where
  order := rfl
  nodup := nodup_nil
  submitted := nil_subset _
  places := by
    change (0 : Multiset AsyncRPCOperationId) = 0 + ∑ _, 0
    rw [Finset.sum_const_zero, add_zero]
  cleared h := absurd rfl h
  queued _ h := absurd h not_mem_nil
  missing _ _ h := nomatch h
  states _ h := nomatch h
  turnRemoved _ h := absurd h not_mem_nil
  turnCancelled _ h := absurd h not_mem_nil
  exited _ h := nomatch h
  finished h := nomatch h
  holder := trivial

variable {id key : AsyncRPCOperationId} {i : Fin W} {present : Bool} {lock : LockHolder W} {phase : WorkerPhase}
  {r : Except Fault (AsyncRPCQueue W)} {es : List (QueueEvent W)}

/-- A step leads to a sound state, and once `finishAndWait` has returned it accepts nothing. -/
def Goes (s : AsyncRPCQueue W) (r : Except Fault (AsyncRPCQueue W)) : Prop :=
  ∃ t, r = .ok t ∧ Sound t ∧ (s.finished = true → t.finished = true ∧ (0 < W → t.accepted = s.accepted))

theorem Goes.of (h : Sound t) (hfin : t.finished = s.finished) (hacc : t.accepted = s.accepted) :
    Goes s (.ok t) :=
  ⟨t, rfl, h, fun hs => ⟨hfin.trans hs, fun _ => hacc⟩⟩

theorem mem_ite_cons {k : AsyncRPCOperationId} {l : List AsyncRPCOperationId} (c : Prop) [Decidable c] (hk : k ∈ l) :
    k ∈ if c then l else id :: l := by
  split
  · exact hk
  · exact mem_cons_of_mem id hk

theorem setWorker_workers {j : Fin W} {x y : WorkerPhase} (h : (s.setWorker i y).workers j = x) :
    y = x ∨ s.workers j = x := by
  change update s.workers i y j = x at h
  by_cases hji : j = i
  · rw [hji, update_self] at h
    exact .inl h
  · rw [update_of_ne hji] at h
    exact .inr h

theorem HolderKnows.setWorker (h : s.HolderKnows lock) (hi : s.workers i ≠ .inside) (hphase : phase ≠ .exited) :
    (s.setWorker i phase).HolderKnows lock := by
  have hex : ∀ j, (s.setWorker i phase).workers j = .exited → s.workers j = .exited :=
    fun j hj => (setWorker_workers hj).resolve_left hphase
  cases lock with
  | worker j stage =>
    have hji : j ≠ i := fun hji => hi (hji ▸ h.1)
    exact ⟨(update_of_ne hji _ _).trans h.1, h.2⟩
  | adding id stage =>
    refine ⟨h.1, ?_⟩
    cases stage with
    | testClosed => trivial
    | testFinishing => exact ⟨h.2.1, fun j hj => h.2.2 j (hex j hj)⟩
    | insert => exact ⟨h.2.1, fun j hj => h.2.2 j (hex j hj)⟩
  | _ => trivial

/-- What the other threads do to the rest of the state leaves what the thread knows: the flags are only set. -/
theorem HolderKnows.mono (h : s.HolderKnows lock) (hworkers : t.workers = s.workers)
    (hqueue : t.operationIdQueue = s.operationIdQueue) (hcl : s.closed = true → t.closed = true)
    (hfin : s.finish = true → t.finish = true) (hsubmitted : t.submitted = s.submitted)
    (hacc : t.accepted = s.accepted) (hclr : t.cleared = s.cleared) : t.HolderKnows lock := by
  cases lock with
  | worker i stage =>
    refine ⟨hworkers ▸ h.1, ?_⟩
    cases stage with
    | exitFinishing => exact h.2.imp (fun hne => hqueue ▸ hne) (Or.imp hcl hfin)
    | exitClosed => exact h.2.imp (fun hne => hqueue ▸ hne) hcl
    | takeFront => exact hqueue ▸ h.2
    | _ => trivial
  | adding id stage =>
    refine ⟨⟨hsubmitted ▸ h.1.1, hacc ▸ h.1.2⟩, ?_⟩
    cases stage with
    | testClosed => trivial
    | testFinishing => exact ⟨hclr.trans h.2.1, fun i hi => hfin (h.2.2 i (hworkers ▸ hi))⟩
    | insert => exact ⟨hclr.trans h.2.1, fun i => hworkers ▸ h.2.2 i⟩
  | _ => trivial

theorem turn_kept : (s.turn i key present).finished = s.finished ∧ (s.turn i key present).accepted = s.accepted := by
  unfold AsyncRPCQueue.turn
  split
  · exact ⟨rfl, rfl⟩
  · split <;> exact ⟨rfl, rfl⟩

theorem mainTest_kept : (s.mainTest i key).finished = s.finished ∧ (s.mainTest i key).accepted = s.accepted := by
  unfold AsyncRPCQueue.mainTest
  split <;> exact ⟨rfl, rfl⟩

section

variable (h : Sound s)
include h

theorem Sound.turned_dequeued (hid : id ∈ s.turned) : id ∈ s.dequeued := by
  have hmem : id ∈ (s.dequeued : Multiset AsyncRPCOperationId) := by
    rw [h.places]
    exact Multiset.mem_add.2 (.inl (Multiset.mem_coe.2 hid))
  exact Multiset.mem_coe.1 hmem

theorem Sound.queued_not_turned (hid : id ∈ s.operationIdQueue) : id ∉ s.turned := by
  intro hturn
  have hnodup := h.nodup
  rw [h.order, append_assoc] at hnodup
  exact (nodup_append.1 hnodup).2.2 id (h.turned_dequeued hturn) id (mem_append_left _ hid) rfl

theorem Sound.dequeued_nodup : s.dequeued.Nodup := by
  have hnodup := h.nodup
  rw [h.order, append_assoc] at hnodup
  exact (nodup_append.1 hnodup).1

theorem Sound.not_turned (hi : s.workers i = .found key present) : key ∉ s.turned := by
  intro hturn
  have hnodup : (s.dequeued : Multiset AsyncRPCOperationId).Nodup := Multiset.coe_nodup.2 h.dequeued_nodup
  rw [h.places, total_eq_add _ _ i, hi] at hnodup
  refine Multiset.disjoint_left.1 (Multiset.nodup_add.1 hnodup).2.2 (Multiset.mem_coe.2 hturn) ?_
  exact Multiset.mem_add.2 (.inl (Multiset.mem_singleton_self key))

/-! ### The steps -/

/-- The thread that has the lock takes note of a test, or another thread takes the lock. -/
theorem Sound.setLock (hhold : s.HolderKnows lock) : Sound { s with lock } :=
  { h with
    holder := by
      cases lock <;> exact hhold }

theorem Sound.setWorker {x y : WorkerPhase} (hi : s.workers i = x) (hx : x ≠ .exited) (hpend : y.pending = x.pending)
    (hmiss : ∀ key, y ≠ .found key false)
    (hexit : y = .exited → s.closed = true ∨ s.finish = true ∧ s.operationIdQueue = [])
    (hhold : (s.setWorker i y).HolderKnows s.lock) : Sound (s.setWorker i y) :=
  { h with
    places := by
      have htotal := total_update WorkerPhase.pending s.workers i y
      rw [hi, hpend] at htotal
      exact h.places.trans (congrArg _ (add_right_cancel htotal).symm)
    missing := fun j key hj => h.missing j key ((setWorker_workers hj).resolve_left (hmiss key))
    exited := fun j hj => (setWorker_workers hj).elim hexit (h.exited j)
    finished := fun hfin => absurd (hi.symm.trans ((h.finished hfin).2 i)) hx
    holder := hhold }

theorem Sound.enter (hlock : s.lock = .free) (hi : s.workers i = .outside ∨ s.workers i = .waiting) :
    Sound { s.setWorker i .inside with lock := .worker i .whileEmpty } := by
  have hhold : (s.setWorker i .inside).HolderKnows s.lock := by
    rw [hlock]
    trivial
  have hin : Sound (s.setWorker i .inside) := by
    rcases hi with hi | hi
    · exact h.setWorker hi nofun rfl nofun nofun hhold
    · exact h.setWorker hi nofun rfl nofun nofun hhold
  exact hin.setLock ⟨update_self _ _ _, trivial⟩

theorem Sound.leave (hi : s.workers i = .inside) (hpend : phase.pending = 0) (hmiss : ∀ key, phase ≠ .found key false)
    (hexit : phase = .exited → s.closed = true ∨ s.finish = true ∧ s.operationIdQueue = []) : Sound (s.leave i phase) := by
  have hfree : Sound { s with lock := .free } := h.setLock trivial
  exact hfree.setWorker hi WorkerPhase.noConfusion hpend hmiss hexit trivial

theorem Sound.exitClosed (hi : s.workers i = .inside) (hcl : s.closed = true) :
    Sound { s.leave i .exited with operationIdQueue := [], cleared := s.operationIdQueue ++ s.cleared } :=
  { h.leave hi rfl (fun _ => WorkerPhase.noConfusion) fun _ => .inl hcl with
    order := by
      have := h.order
      rw [append_assoc] at this
      change s.accepted = s.dequeued ++ [] ++ (s.operationIdQueue ++ s.cleared)
      rw [append_nil, this]
    cleared := fun _ => hcl
    queued := fun _ hid => absurd hid not_mem_nil
    exited := fun _ _ => .inl hcl
    holder := trivial }

theorem Sound.takeFront (hi : s.workers i = .inside) {rest : List AsyncRPCOperationId}
    (hqueue : s.operationIdQueue = key :: rest) :
    Sound { s.leave i (.found key (key ∈ s.operationMap)) with
      operationIdQueue := rest, dequeued := s.dequeued ++ [key] } := by
  have hkey : key ∈ s.operationMap ∨ key ∈ s.removed := h.queued key (by rw [hqueue]; exact mem_cons_self)
  refine
    { h with
      order := ?_
      places := ?_
      queued := fun id hid => h.queued id (by rw [hqueue]; exact mem_cons_of_mem key hid)
      missing := ?_
      exited := ?_
      finished := fun hfin => absurd (hi.symm.trans ((h.finished hfin).2 i)) nofun
      holder := trivial }
  · have := h.order
    rw [hqueue] at this
    change s.accepted = s.dequeued ++ [key] ++ rest ++ s.cleared
    rw [this, append_assoc s.dequeued [key] rest]
    rfl
  · have htotal := total_update WorkerPhase.pending s.workers i (.found key (key ∈ s.operationMap))
    rw [hi] at htotal
    change (↑(s.dequeued ++ [key]) : Multiset AsyncRPCOperationId) = s.turned +
      total WorkerPhase.pending (update s.workers i (.found key (key ∈ s.operationMap)))
    rw [← Multiset.coe_add, h.places, add_assoc]
    refine congrArg _ ?_
    exact htotal.symm.trans (add_zero _)
  · intro j id hj
    rcases setWorker_workers hj with hfound | hj
    · simp only [WorkerPhase.found.injEq, decide_eq_false_iff_not] at hfound
      exact hfound.1 ▸ hkey.resolve_left hfound.2
    · exact h.missing j id hj
  · intro j hj
    have hj : s.workers j = .exited := (setWorker_workers hj).resolve_left WorkerPhase.noConfusion
    refine (h.exited j hj).imp_right fun hfinish => absurd hfinish.2 ?_
    rw [hqueue]
    exact cons_ne_nil key rest

theorem Sound.run {stage : RunStage} (hlock : s.lock = .worker i stage) : Goes s (s.run i stage) := by
  have hhold := h.holder
  rw [hlock] at hhold
  obtain ⟨hi, hknows⟩ := hhold
  cases stage with
  | whileEmpty =>
    refine .of (h.setLock ?_) rfl rfl
    cases hqueue : s.operationIdQueue with
    | nil => exact ⟨hi, trivial⟩
    | cons key rest => exact ⟨hi, .inl (hqueue ▸ cons_ne_nil key rest)⟩
  | whileOpen =>
    refine .of (h.setLock ?_) rfl rfl
    cases hcl : s.closed with
    | false => exact ⟨hi, trivial⟩
    | true => exact ⟨hi, .inr (.inl hcl)⟩
  | whileNotFinishing =>
    simp only [AsyncRPCQueue.run]
    split
    · rename_i hfin
      exact .of (h.setLock ⟨hi, .inr (.inr hfin)⟩) rfl rfl
    · exact .of (h.leave hi rfl nofun nofun) rfl rfl
  | exitFinishing =>
    simp only [AsyncRPCQueue.run]
    split
    · rename_i hexit
      rw [Bool.and_eq_true, List.isEmpty_iff] at hexit
      exact .of (h.leave hi rfl nofun fun _ => .inr hexit) rfl rfl
    · rename_i hexit
      rw [Bool.and_eq_true, List.isEmpty_iff] at hexit
      refine .of (h.setLock ⟨hi, ?_⟩) rfl rfl
      rcases hknows with hqueue | hcl | hfin
      · exact .inl hqueue
      · exact .inr hcl
      · exact .inl fun hqueue => hexit ⟨hfin, hqueue⟩
  | exitClosed =>
    simp only [AsyncRPCQueue.run]
    split
    · exact .of (h.exitClosed hi ‹_›) rfl rfl
    · exact .of (h.setLock ⟨hi, hknows.resolve_right ‹_›⟩) rfl rfl
  | takeFront =>
    cases hqueue : s.operationIdQueue with
    | nil => exact absurd hqueue hknows
    | cons key rest =>
      rw [AsyncRPCQueue.run, hqueue]
      exact .of (h.takeFront hi hqueue) rfl rfl

theorem Sound.add {stage : AddStage} (hlock : s.lock = .adding id stage) : Goes s (.ok (s.add id stage)) := by
  have hhold := h.holder
  rw [hlock] at hhold
  obtain ⟨hid, hknows⟩ := hhold
  cases stage with
  | testClosed =>
    refine .of (h.setLock ?_) rfl rfl
    cases hcl : s.closed with
    | true => exact trivial
    | false =>
      -- an open queue: nothing has been thrown away, and who has exited was finishing
      refine ⟨hid, ?_, fun i hi => ?_⟩
      · by_contra hclr
        exact Bool.false_ne_true (hcl.symm.trans (h.cleared hclr))
      · exact ((h.exited i hi).resolve_left (by rw [hcl]; exact Bool.false_ne_true)).1
  | testFinishing =>
    refine .of (h.setLock ?_) rfl rfl
    cases hfin : s.finish with
    | true => exact trivial
    | false =>
      refine ⟨hid, hknows.1, fun i hi => ?_⟩
      exact Bool.false_ne_true (hfin.symm.trans (hknows.2 i hi))
  | insert =>
    -- not after `finishAndWait`, when all workers have exited
    refine ⟨_, rfl, ?_, fun hs => ⟨hs, fun hW => absurd ((h.finished hs).2 ⟨0, hW⟩) (hknows.2 _)⟩⟩
    refine
      { h with
        order := ?_
        nodup := nodup_append.2 ⟨h.nodup, nodup_singleton id, fun a ha b hb hab => ?_⟩
        submitted := append_subset.2 ⟨h.submitted, fun _ hk => mem_singleton.1 hk ▸ hid.1⟩
        queued := ?_
        exited := fun i hi => absurd hi (hknows.2 i)
        holder := trivial }
    · have := h.order
      rw [hknows.1, append_nil] at this
      change s.accepted ++ [id] = s.dequeued ++ (s.operationIdQueue ++ [id]) ++ s.cleared
      rw [hknows.1, append_nil, this, append_assoc]
    · rw [mem_singleton.1 hb] at hab
      exact hid.2 (hab ▸ ha)
    · intro k hk
      rcases mem_append.1 hk with hk | hk
      · exact (h.queued k hk).imp_left (mem_ite_cons _)
      · refine .inl ?_
        rw [mem_singleton.1 hk]
        change id ∈ if id ∈ s.operationMap then s.operationMap else id :: s.operationMap
        split
        · assumption
        · exact mem_cons_self

theorem Sound.setState {state : OperationStatus} (hstate : state = .cancelled → id ∈ s.cancelled ∨ id ∈ s.turned) :
    Sound (s.setState id state) := by
  refine
    { h with
      states := fun k hk => ?_
      holder := h.holder.mono rfl rfl (fun hs => hs) (fun hs => hs) rfl rfl rfl }
  change update s.state id state k = .cancelled at hk
  by_cases hkid : k = id
  · rw [hkid, update_self] at hk
    exact hkid ▸ hstate hk
  · rw [update_of_ne hkid] at hk
    exact h.states k hk

theorem Sound.storeCancelled (id : AsyncRPCOperationId) : Sound (s.storeCancelled id) := by
  have hcanc : Sound { s with cancelled := (s.storeCancelled id).cancelled } :=
    { h with
      states := fun k hk => (h.states k hk).imp_left (mem_ite_cons _)
      turnCancelled := fun k hk => mem_ite_cons _ (h.turnCancelled k hk)
      holder := h.holder.mono rfl rfl (fun hs => hs) (fun hs => hs) rfl rfl rfl }
  refine hcanc.setState fun _ => ?_
  change (id ∈ if id ∈ s.turned then s.cancelled else id :: s.cancelled) ∨ id ∈ s.turned
  split
  · exact .inr ‹_›
  · exact .inl mem_cons_self

theorem Sound.popErase (id : AsyncRPCOperationId) : Sound (s.popErase id) := by
  refine
    { h with
      queued := fun k hk => ?_
      missing := fun i key hi => mem_ite_cons _ (h.missing i key hi)
      turnRemoved := fun k hk => mem_ite_cons _ (h.turnRemoved k hk)
      holder := h.holder.mono rfl rfl (fun hs => hs) (fun hs => hs) rfl rfl rfl }
  rcases h.queued k hk with hmap | hrem
  · by_cases hkid : k = id
    · -- an id that is queued has not had its turn
      refine .inr ?_
      have hturn : id ∉ s.turned := by
        rw [← hkid]
        exact h.queued_not_turned hk
      change k ∈ if id ∈ s.turned then s.removed else id :: s.removed
      rw [if_neg hturn, hkid]
      exact mem_cons_self
    · exact .inl ((mem_erase_of_ne hkid).2 hmap)
  · exact .inr (mem_ite_cons _ hrem)

theorem Sound.setTurn (hi : s.workers i = .found key present) {outcome : Turn} (hpend : phase.pending = 0)
    (hphase : phase ≠ .exited) (hrem : outcome = .removed → key ∈ s.removed)
    (hcanc : outcome = .cancelled → key ∈ s.cancelled) :
    Sound { s.setWorker i phase with turns := (key, outcome) :: s.turns } := by
  have hne : ∀ k b, phase ≠ .found k b := by
    intro k b hkb
    rw [hkb] at hpend
    exact Multiset.singleton_ne_zero k hpend
  have hin : s.workers i ≠ .inside := by
    rw [hi]
    exact WorkerPhase.noConfusion
  refine
    { h with
      places := ?_
      missing := fun j k hj => h.missing j k ((setWorker_workers hj).resolve_left (hne k false))
      states := fun k hk => (h.states k hk).imp_right (mem_cons_of_mem key)
      turnRemoved := fun k hk => ?_
      turnCancelled := fun k hk => ?_
      exited := fun j hj => h.exited j ((setWorker_workers hj).resolve_left hphase)
      finished := fun hfin => absurd (hi.symm.trans ((h.finished hfin).2 i)) WorkerPhase.noConfusion
      holder := (h.holder.setWorker hin hphase).mono rfl rfl (fun hs => hs) (fun hs => hs) rfl rfl rfl }
  · have htotal := total_update WorkerPhase.pending s.workers i phase
    rw [hi, hpend, add_zero] at htotal
    change (s.dequeued : Multiset AsyncRPCOperationId) = key ::ₘ (s.turned : Multiset AsyncRPCOperationId) +
      total WorkerPhase.pending (update s.workers i phase)
    rw [h.places, ← htotal, ← Multiset.singleton_add, ← add_assoc]
    exact (add_comm _ _).trans (add_assoc _ _ _).symm
  · rcases mem_cons.1 hk with hk | hk
    · rw [Prod.mk.injEq] at hk
      exact hk.1 ▸ hrem hk.2.symm
    · exact h.turnRemoved k hk
  · rcases mem_cons.1 hk with hk | hk
    · rw [Prod.mk.injEq] at hk
      exact hk.1 ▸ hcanc hk.2.symm
    · exact h.turnCancelled k hk

theorem Sound.turn (hi : s.workers i = .found key present) : Sound (s.turn i key present) := by
  unfold AsyncRPCQueue.turn
  cases present with
  | false => exact h.setTurn hi rfl WorkerPhase.noConfusion (fun _ => h.missing i key hi) nofun
  | true =>
    rw [if_neg (by decide)]
    by_cases hstate : s.state key = .cancelled
    · rw [if_pos hstate]
      refine h.setTurn hi rfl WorkerPhase.noConfusion nofun fun _ => ?_
      exact (h.states key hstate).resolve_right (h.not_turned hi)
    · rw [if_neg hstate]
      exact h.setTurn hi rfl WorkerPhase.noConfusion nofun nofun

theorem Sound.mainTest (hi : s.workers i = .main key) : Sound (s.mainTest i key) := by
  have hin : s.workers i ≠ .inside := by
    rw [hi]
    exact WorkerPhase.noConfusion
  unfold AsyncRPCQueue.mainTest
  split
  · exact h.setWorker hi WorkerPhase.noConfusion rfl nofun nofun (h.holder.setWorker hin nofun)
  · have hstate : Sound (s.setState key .executing) := h.setState nofun
    exact hstate.setWorker hi WorkerPhase.noConfusion rfl (fun _ => WorkerPhase.noConfusion) WorkerPhase.noConfusion
      (hstate.holder.setWorker hin WorkerPhase.noConfusion)

theorem Sound.mainEnd (hi : s.workers i = .executing key) (ok : Bool) :
    Sound ((s.setState key (if ok then .success else .failed)).setWorker i .outside) := by
  have hin : s.workers i ≠ .inside := by
    rw [hi]
    exact WorkerPhase.noConfusion
  have hstate : Sound (s.setState key (if ok then .success else .failed)) := by
    refine h.setState fun hcanc => ?_
    cases ok <;> nomatch hcanc
  exact hstate.setWorker hi WorkerPhase.noConfusion rfl nofun nofun (hstate.holder.setWorker hin nofun)

theorem Sound.cancelNext (operations : List AsyncRPCOperationId) : Sound (s.cancelNext operations) := by
  cases operations with
  | nil => exact h.setLock trivial
  | cons id operations =>
    refine h.setLock ?_
    split <;> trivial

theorem Sound.hold (hr : s.hold = some r) : Goes s r := by
  unfold AsyncRPCQueue.hold at hr
  cases hlock : s.lock with
  | free =>
    rw [hlock] at hr
    nomatch hr
  | worker i stage =>
    rw [hlock] at hr
    exact Option.some.inj hr ▸ h.run hlock
  | adding id stage =>
    rw [hlock] at hr
    exact Option.some.inj hr ▸ h.add hlock
  | cancelling operations =>
    rw [hlock] at hr
    cases hr
    exact .of (h.cancelNext operations) (by cases operations <;> rfl) (by cases operations <;> rfl)
  | storing id operations =>
    rw [hlock] at hr
    cases hr
    exact .of ((h.storeCancelled id).setLock trivial) rfl rfl

theorem Sound.setFlags {closed finish : Bool} (hcl : s.closed = true → closed = true)
    (hfinish : s.finish = true → finish = true) : Sound { s with closed, finish } :=
  { h with
    cleared := fun hne => hcl (h.cleared hne)
    exited := fun i hi => (h.exited i hi).imp hcl fun hs => ⟨hfinish hs.1, hs.2⟩
    finished := fun hfin => ⟨hfinish (h.finished hfin).1, (h.finished hfin).2⟩
    holder := h.holder.mono rfl rfl hcl hfinish rfl rfl rfl }

theorem Sound.setCalls (popping cancels : List AsyncRPCOperationId) (closing : Nat) :
    Sound { s with popping, cancels, closing } :=
  { h with holder := h.holder.mono rfl rfl (fun hs => hs) (fun hs => hs) rfl rfl rfl }

theorem Sound.submit (hid : id ∉ s.submitted) :
    Sound { s with lock := .adding id .testClosed, submitted := id :: s.submitted } :=
  { h with
    submitted := fun _ hk => mem_cons_of_mem id (h.submitted hk)
    holder := ⟨⟨mem_cons_self, fun hacc => hid (h.submitted hacc)⟩, trivial⟩ }

theorem Sound.step {e : QueueEvent W} (hr : s.step e = some r) : Goes s r := by
  cases e with
  | lock i =>
    obtain ⟨⟨hlock, hi⟩, ⟨⟩⟩ := Option.ite_none_right_eq_some.1 hr
    exact .of (h.enter hlock (.inl hi)) rfl rfl
  | wake i =>
    obtain ⟨⟨hlock, hi⟩, ⟨⟩⟩ := Option.ite_none_right_eq_some.1 hr
    exact .of (h.enter hlock (.inr hi)) rfl rfl
  | hold => exact h.hold hr
  | turn i =>
    simp only [AsyncRPCQueue.step] at hr
    split at hr
    · cases hr
      exact .of (h.turn ‹_›) turn_kept.1 turn_kept.2
    · nomatch hr
  | mainTest i =>
    simp only [AsyncRPCQueue.step] at hr
    split at hr
    · cases hr
      exact .of (h.mainTest ‹_›) mainTest_kept.1 mainTest_kept.2
    · nomatch hr
  | mainEnd i ok =>
    simp only [AsyncRPCQueue.step] at hr
    split at hr
    · cases hr
      exact .of (h.mainEnd ‹_› ok) rfl rfl
    · nomatch hr
  | addOperation id =>
    obtain ⟨⟨_, hid⟩, ⟨⟩⟩ := Option.ite_none_right_eq_some.1 hr
    exact .of (h.submit hid) rfl rfl
  | getOperationForId id =>
    obtain ⟨_, ⟨⟩⟩ := Option.ite_none_right_eq_some.1 hr
    exact .of h rfl rfl
  | popGet id =>
    obtain ⟨_, ⟨⟩⟩ := Option.ite_none_right_eq_some.1 hr
    split
    · exact .of (h.setCalls _ _ _) rfl rfl
    · exact .of h rfl rfl
  | popErase id =>
    obtain ⟨_, ⟨⟩⟩ := Option.ite_none_right_eq_some.1 hr
    exact .of (h.popErase id) rfl rfl
  | cancelTest id =>
    cases hr
    split
    · exact .of (h.setCalls _ _ _) rfl rfl
    · exact .of h rfl rfl
  | cancelStore id =>
    obtain ⟨_, ⟨⟩⟩ := Option.ite_none_right_eq_some.1 hr
    exact .of ((h.storeCancelled id).setCalls _ _ _) rfl rfl
  | finish =>
    cases hr
    exact .of (h.setFlags (fun hs => hs) fun _ => rfl) rfl rfl
  | close =>
    cases hr
    exact .of ((h.setFlags (fun _ => rfl) fun hs => hs).setCalls _ _ _) rfl rfl
  | cancelAll order =>
    obtain ⟨_, ⟨⟩⟩ := Option.ite_none_right_eq_some.1 hr
    exact .of ((h.setCalls s.popping s.cancels (s.closing - 1)).setLock trivial) rfl rfl
  | finishAndWait =>
    obtain ⟨hret, ⟨⟩⟩ := Option.ite_none_right_eq_some.1 hr
    refine ⟨_, rfl, ?_, fun _ => ⟨rfl, fun _ => rfl⟩⟩
    exact { h with
      finished := fun _ => hret
      holder := h.holder.mono rfl rfl (fun hs => hs) (fun hs => hs) rfl rfl rfl }

/-! ### Runs -/

theorem Sound.steps (hes : s.steps es = some t) : Sound t ∧ (s.finished = true → 0 < W → t.accepted = s.accepted) := by
  induction es generalizing s with
  | nil =>
    cases hes
    exact ⟨h, fun _ _ => rfl⟩
  | cons e es ih =>
    unfold AsyncRPCQueue.steps at hes
    split at hes
    · rename_i u hu
      obtain ⟨v, hv, hsound, hkept⟩ := h.step hu
      cases hv
      refine ⟨(ih hsound hes).1, fun hfin hW => ?_⟩
      obtain ⟨hfin', hacc⟩ := hkept hfin
      exact ((ih hsound hes).2 hfin' hW).trans (hacc hW)
    · nomatch hes

theorem Sound.turned_nodup : s.turned.Nodup := by
  have hnodup : (s.dequeued : Multiset AsyncRPCOperationId).Nodup := Multiset.coe_nodup.2 h.dequeued_nodup
  rw [h.places] at hnodup
  exact Multiset.coe_nodup.1 (Multiset.nodup_add.1 hnodup).1

theorem Sound.count_main_le (id : AsyncRPCOperationId) : s.turns.count (id, .main) ≤ 1 :=
  nodup_iff_count_le_one.1 h.turned_nodup.of_map (id, .main)

theorem Sound.mem_turned (hW : 0 < W) (hex : ∀ i, s.workers i = .exited) (hopen : s.closed = false)
    (hid : id ∈ s.accepted) : id ∈ s.turned := by
  have hnot : s.closed ≠ true := by
    rw [hopen]
    exact Bool.false_ne_true
  have hqueue : s.operationIdQueue = [] := ((h.exited ⟨0, hW⟩ (hex _)).resolve_left hnot).2
  have hclr : s.cleared = [] := by
    by_contra hne
    exact hnot (h.cleared hne)
  have hnone : total WorkerPhase.pending s.workers = 0 := by
    refine Finset.sum_eq_zero fun i _ => ?_
    rw [hex i]
    rfl
  have hpl := h.places
  rw [hnone, add_zero] at hpl
  rw [h.order, hqueue, hclr, append_nil, append_nil] at hid
  exact (Multiset.coe_eq_coe.1 hpl).subset hid

end

/-- In every interleaving no step fails, `main()` is called at most once for an operation and operations are dequeued in
the order in which they were accepted.  When `finishAndWait` has returned on a queue that has workers and was not closed,
`main()` has been called for every accepted operation that was neither removed nor cancelled before its turn, and no
operation is accepted any more. -/
theorem runs_once {es : List (QueueEvent W)} (hes : steps {} es = some s) :
    (∀ e f, s.step e ≠ some (.error f)) ∧
    (∀ id, s.turns.count (id, .main) ≤ 1) ∧
    s.dequeued <+: s.accepted ∧
    (0 < W → s.finished = true → s.closed = false →
      (∀ id ∈ s.accepted, id ∉ s.removed → id ∉ s.cancelled → s.turns.count (id, .main) = 1) ∧
      ∀ es' t, s.steps es' = some t → t.accepted = s.accepted) := by
  have h : Sound s := (sound_init.steps hes).1
  refine ⟨fun e f hf => ?_, h.count_main_le, ?_, fun hW hfin hopen => ?_⟩
  · obtain ⟨t, ht, _⟩ := h.step hf
    nomatch ht
  · rw [h.order, append_assoc]
    exact prefix_append _ _
  · have hex := (h.finished hfin).2
    refine ⟨fun id hid hrem hcanc => ?_, fun es' t ht => (h.steps ht).2 hfin hW⟩
    obtain ⟨⟨k, outcome⟩, hturn, hk⟩ := mem_map.1 (h.mem_turned hW hex hopen hid)
    obtain rfl : k = id := hk
    cases outcome with
    | main => exact le_antisymm (h.count_main_le k) (one_le_count_iff.2 hturn)
    | removed => exact absurd (h.turnRemoved k hturn) hrem
    | cancelled => exact absurd (h.turnCancelled k hturn) hcanc

def oneOperation : List (QueueEvent 1) :=
  [.addOperation "opid", .hold, .hold, .hold, .lock 0, .hold, .hold, .hold, .hold, .turn 0, .mainTest 0, .mainEnd 0 true,
    .finish, .lock 0, .hold, .hold, .hold, .hold, .finishAndWait]

theorem runs_once_oneOperation : ∃ s : AsyncRPCQueue 1, steps {} oneOperation = some s ∧ s.accepted = ["opid"] ∧
    s.finished = true ∧ s.turns.count ("opid", .main) = 1 := by
  obtain ⟨s, hs⟩ : ∃ s, steps ({} : AsyncRPCQueue 1) oneOperation = some s := ⟨_, rfl⟩
  have hfs : (steps ({} : AsyncRPCQueue 1) oneOperation).map (fun s => (s.accepted, s.finished, s.closed, s.removed,
      s.cancelled)) = some (["opid"], true, false, [], []) := by
    decide +kernel
  rw [hs, Option.map_some, Option.some.injEq] at hfs
  simp only [Prod.mk.injEq] at hfs
  obtain ⟨hacc, hfin, hopen, hrem, hcanc⟩ := hfs
  refine ⟨s, hs, hacc, hfin, ?_⟩
  obtain ⟨_, _, _, hdone⟩ := runs_once hs
  refine (hdone Nat.one_pos hfin hopen).1 "opid" ?_ ?_ ?_
  · rw [hacc]
    exact mem_singleton_self _
  · rw [hrem]
    exact not_mem_nil
  · rw [hcanc]
    exact not_mem_nil

end AsyncRPCQueue

end LitecoinZ
