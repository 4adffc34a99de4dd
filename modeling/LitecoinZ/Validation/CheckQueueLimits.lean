import LitecoinZ.Validation.CheckQueue

/-!
# The limits of the queue of script checks

The counters of `CCheckQueue` are an `int` and an `unsigned int`.  With `2 ^ 30` threads `nTotal + nIdle + 1` overflows, and
when the batches that are held have `2 ^ 32` checks together `nTodo` is zero: the master returns before the workers are done
(`checkQueue_limits`).
-/

namespace LitecoinZ

open Function Threads List 

namespace CheckSystem

open CheckPhase

variable {W : Nat}

/-! ### Too many workers -/

/-- The first `k` workers wait. -/
def started (W nBatchSize k : Nat) : CheckSystem Bool W where
  q := { nBatchSize, nIdle := k, nTotal := k }
  thread
    | none => .done true
    | some i => if i.val < k then .waiting else .entering

variable {nBatchSize k : Nat}

theorem lock_started (hk : k < W) (hW : W < 2 ^ 31 - 1) :
    (started W nBatchSize k).q.lock false 0 true = .ok ((started W nBatchSize (k + 1)).q, .waiting) := by
  have hnext : (started W nBatchSize (k + 1)).q = { nBatchSize, nIdle := (k : Int) + 1, nTotal := (k : Int) + 1 } := by
    simp [started]
  have hq : (started W nBatchSize k).q = { nBatchSize, nIdle := k, nTotal := k } := rfl
  rw [hnext, hq, CCheckQueue.lock_first (by dsimp only; omega) (by dsimp only; omega),
    CCheckQueue.whileEmpty_sleep rfl rfl (by dsimp only; omega) (by dsimp only; omega)]

theorem update_started (hk : k < W) : update (started W nBatchSize k).thread (some ⟨k, hk⟩) .waiting =
    (started W nBatchSize (k + 1)).thread := by
  funext i
  by_cases hi : i = some ⟨k, hk⟩
  · rw [hi, update_self]
    exact (if_pos (Nat.lt_succ_self k)).symm
  · rw [update_of_ne hi]
    cases i with
    | none => rfl
    | some i =>
      have hne : i.val ≠ k := fun heq => hi (congrArg some (Fin.ext heq))
      exact if_congr (by omega) rfl rfl

theorem started_zero (nBatchSize : Nat) : started W nBatchSize 0 = CheckSystem.init Bool W nBatchSize := by
  have hthr : (started W nBatchSize 0).thread = (CheckSystem.init Bool W nBatchSize).thread := by
    funext i
    cases i with
    | none => rfl
    | some i => exact if_neg (t := .waiting) (Nat.not_lt_zero i.val)
  unfold started CheckSystem.init at hthr ⊢
  dsimp only at hthr
  rw [hthr]
  rfl

theorem step_started (hk : k < W) (hW : W < 2 ^ 31 - 1) :
    (started W nBatchSize k).step id (.lock (some ⟨k, hk⟩)) = some (.ok (started W nBatchSize (k + 1))) := by
  have hent : (started W nBatchSize k).thread (some ⟨k, hk⟩) = .entering := if_neg (lt_irrefl k)
  have hlock : (started W nBatchSize k).q.lock false 0 true = _ := lock_started hk hW
  have hthr : update (started W nBatchSize k).thread _ _ = _ := update_started hk
  rw [CheckSystem.step, hent]
  dsimp only
  have hleave : (started W nBatchSize k).leave (some ⟨k, hk⟩) ((started W nBatchSize (k + 1)).q, .waiting) =
      { started W nBatchSize (k + 1) with
        thread := update (started W nBatchSize k).thread (some ⟨k, hk⟩) .waiting } := rfl
  rw [hthr] at hleave
  rw [Option.isNone_some, hlock, Except.map, hleave]

theorem reachable_started (hk : k ≤ W) (hW : W < 2 ^ 31 - 1) :
    Reachable id nBatchSize (fun _ => True) (started W nBatchSize k) := by
  induction k with
  | zero =>
    rw [started_zero]
    exact .init
  | succ k ih => exact (ih (by omega)).step _ (step_started hk hW) trivial

theorem exists_overflow (hW : W + 1 = 2 ^ 30) (nBatchSize : Nat) :
    ∃ (s : CheckSystem Bool W) (e : CheckEvent Bool W),
      Reachable id nBatchSize (fun _ => True) s ∧ s.step id e = some (.error .overflow) := by
  have h0 : Reachable id nBatchSize _ (started W nBatchSize W) := reachable_started (le_refl W) (by omega)
  have h1 := h0.step (.add [true]) rfl trivial
  have h2 := h1.step .wait rfl trivial
  refine ⟨_, .lock none, h2, ?_⟩
  have hlock : ((started W nBatchSize W).q.add [true]).lock true 0 true = .error .overflow := by
    have hcounter : ((started W nBatchSize W).q.add [true]).nTotal = W := rfl
    have hcounter' : ((started W nBatchSize W).q.add [true]).nIdle = W := rfl
    rw [CCheckQueue.lock_first (by omega) (by omega), CCheckQueue.whileEmpty_busy (by rintro ⟨⟩), CCheckQueue.takeBatch,
      CCheckQueue.batchSize_overflow (by dsimp only; omega)]
    rfl
  simp only [CheckSystem.step, update_self, Option.isNone_none, hlock]
  rfl

/-! ### Too many checks in batches -/

section

/-- The workers are in the phases `th`, and the master is outside of `Wait`. -/
def holding (th : Fin 3 → CheckPhase Bool) (queue : List Bool) (nTotal : Int) (nTodo : BitVec 32) (added : List Bool) :
    CheckSystem Bool 3 where
  q := { nBatchSize := 2 ^ 32 - 1, queue, nTotal, nTodo }
  thread
    | none => .done true
    | some i => th i
  added

/-- The master has `m` checks of a batch of `k` left, and `n` checks are queued. -/
def draining (th : Fin 3 → CheckPhase Bool) (n m k : Nat) (added executed : List Bool) : CheckSystem Bool 3 where
  q := { nBatchSize := 2 ^ 32 - 1, queue := List.replicate n true, nTotal := 4, nTodo := BitVec.ofNat 32 (n + k) }
  thread
    | none => .working (List.replicate m true) k true
    | some i => th i
  added
  executed

def batchOf (size : Nat) (nTotal : Int) : Nat := max 1 (min (2 ^ 32 - 1) (size % 2 ^ 32 / (nTotal + 1 + 0 + 1).toNat))

/-- Runs without any bound. -/
abbrev Runs (s : CheckSystem Bool 3) : Prop := Reachable id (2 ^ 32 - 1) (fun _ => True) s

variable {th : Fin 3 → CheckPhase Bool} {queue added executed : List Bool} {nTotal : Int} {nTodo : BitVec 32} {n m k : Nat}

theorem Runs.add (h : Runs (holding th queue nTotal nTodo added)) (v : List Bool) :
    Runs (holding th (v.reverse ++ queue) nTotal (nTodo + BitVec.ofNat 32 v.length) (added ++ v)) :=
  h.step (.add v) rfl trivial

theorem Runs.take (h : Runs (holding th queue nTotal nTodo added)) {i : Fin 3} (hi : th i = .entering) (hempty : queue ≠ [])
    (h0 : 0 ≤ nTotal) (hrange : nTotal + 2 < 2 ^ 31)
    (hm : batchOf queue.length nTotal = m) :
    Runs (holding (update th i (.working (queue.take m) m true)) (queue.drop m) (nTotal + 1) nTodo added) := by
  refine h.step (.lock (some i)) ?_ trivial
  have hlock : (holding th queue nTotal nTodo added).q.lock false 0 true =
      .ok ((holding th (queue.drop m) (nTotal + 1) nTodo added).q, .working (queue.take m) m true) := by
    have hq : (holding th queue nTotal nTodo added).q = { nBatchSize := 2 ^ 32 - 1, queue, nTotal, nTodo } := rfl
    rw [hq, CCheckQueue.lock_first h0 (by dsimp only; omega),
      CCheckQueue.whileEmpty_take hempty (le_refl 0) (by dsimp only; omega) (by dsimp only; omega), ← hm]
    rfl
  have hent : (holding th queue nTotal nTodo added).thread (some i) = .entering := hi
  rw [CheckSystem.step, hent]
  dsimp only
  rw [Option.isNone_some, hlock, Except.map]
  have hthr : update (holding th queue nTotal nTodo added).thread (some i) (.working (queue.take m) m true) =
      (holding (update th i (.working (queue.take m) m true)) (queue.drop m) (nTotal + 1) nTodo added).thread := by
    funext j
    cases j with
    | none => rfl
    | some j =>
      by_cases hj : j = i
      · rw [hj, update_self]
        exact (update_self i _ th).symm
      · rw [update_of_ne (fun heq => hj (Option.some.inj heq))]
        exact (update_of_ne hj ..).symm
  have hleave : (holding th queue nTotal nTodo added).leave (some i)
      ((holding th (queue.drop m) (nTotal + 1) nTodo added).q, .working (queue.take m) m true) =
      { holding th (queue.drop m) (nTotal + 1) nTodo added with
        thread := update (holding th queue nTotal nTodo added).thread (some i) (.working (queue.take m) m true) } := rfl
  rw [hleave, hthr]
  rfl

variable {s : CheckSystem Bool 3}

theorem update_draining (hs : ∀ i, s.thread (some i) = th i) :
    update s.thread none (.working (replicate m true) k true) = (draining th n m k added executed).thread := by
  funext j
  cases j with
  | none => exact update_self ..
  | some j => exact (update_of_ne (by rintro ⟨⟩) ..).trans (hs j)

theorem Runs.checks (h : Runs (draining th n m k added executed)) : ∃ executed', Runs (draining th n 0 k added executed') := by
  induction m generalizing executed with
  | zero => exact ⟨executed, h⟩
  | succ m ih =>
    refine @ih (true :: executed) (h.step (.check none) ?_ trivial)
    have hwork : (draining th n (m + 1) k added executed).thread none = .working (true :: replicate m true) k true := rfl
    have hthr : update (draining th n (m + 1) k added executed).thread none (.working (replicate m true) k true) =
        (draining th n m k added (true :: executed)).thread := update_draining fun _ => rfl
    rw [CheckSystem.step, hwork]
    dsimp only
    rw [if_pos rfl, id, Bool.and_self, hthr]
    rfl

/-- The shared fields with `n` checks queued and those of the workers not counted. -/
def uncounted (n : Nat) : CCheckQueue Bool :=
  { nBatchSize := 2 ^ 32 - 1, queue := List.replicate n true, nTotal := 4, nTodo := BitVec.ofNat 32 n }

theorem Runs.batch (h : Runs s) (hs : ∀ i, s.thread (some i) = th i) {nNow : Nat}
    (hstep : s.step id (.lock none) = some ((s.q.lock true nNow true).map (s.leave none)))
    (hlock : s.q.lock true nNow true = (uncounted n).whileEmpty true) (hn : n ≠ 0) :
    ∃ m, 0 < m ∧ m ≤ n ∧ Runs (draining th (n - m) m m s.added s.executed) := by
  have hempty : (uncounted n).queue ≠ [] := by
    intro hnil
    exact hn ((replicate_eq_nil_iff true).1 hnil)
  have hle := CCheckQueue.nNow_le hempty
  have hpos : 0 < (uncounted n).nNow := by
    unfold CCheckQueue.nNow
    omega
  generalize hm : (uncounted n).nNow = m at hle hpos
  have hle : m ≤ n := hle.trans_eq length_replicate
  refine ⟨m, hpos, hle, h.step (.lock none) ?_ trivial⟩
  have htake : (uncounted n).whileEmpty true =
      .ok ((draining th (n - m) m m s.added s.executed).q, .working (replicate m true) m true) := by
    rw [CCheckQueue.whileEmpty_take hempty (le_refl 0) (show (0 : Int) ≤ 4 by decide)
      (show (4 : Int) + 0 + 1 < 2 ^ 31 by decide), hm]
    have hqueue : (uncounted n).queue = replicate n true := rfl
    have hcount : n - m + m = n := by omega
    rw [hqueue, drop_replicate, take_replicate, Nat.min_eq_left hle, draining, hcount]
    rfl
  have hthr : update s.thread none (.working (replicate m true) m true) =
      (draining th (n - m) m m s.added s.executed).thread := update_draining hs
  rw [hstep, hlock, htake, Except.map]
  change some (Except.ok { s with q := _, thread := update s.thread none _ }) = _
  rw [hthr]
  rfl

theorem Runs.drain (h : Runs (draining th n 0 k added executed)) (hk : 0 < k) :
    ∃ k' executed', 0 < k' ∧ Runs (draining th 0 0 k' added executed') := by
  induction n using Nat.strongRecOn generalizing k executed with
  | _ n ih =>
    by_cases hn : n = 0
    · subst hn
      exact ⟨k, executed, hk, h⟩
    · have hlock : (draining th n 0 k added executed).q.lock true k true = (uncounted n).whileEmpty true := by
        have hq : (draining th n 0 k added executed).q = { uncounted n with nTodo := BitVec.ofNat 32 (n + k) } := rfl
        rw [hq, CCheckQueue.lock_later (Nat.ne_of_gt hk), BitVec.ofNat_add, BitVec.add_sub_cancel]
        rfl
      obtain ⟨m, hm, hmn, hbatch⟩ := h.batch (fun _ => rfl) rfl hlock hn
      obtain ⟨executed', hchk⟩ := hbatch.checks
      exact ih (n - m) (by omega) hchk hm

theorem Runs.return_early (h : Runs (holding th (replicate n true) 3 (BitVec.ofNat 32 n) added)) (hn : n ≠ 0) :
    ∃ s s', Runs s ∧ s.step id (.lock none) = some (.ok s') ∧ Returns s s' true ∧ s.added = added ∧
      (∀ i, s'.thread (some i) = th i) ∧ s'.q.isIdle = false := by
  have hwait : Runs { holding th (replicate n true) 3 (BitVec.ofNat 32 n) added with
      thread := update _ none .entering } := h.step .wait rfl trivial
  have hlock : (holding th (replicate n true) 3 (BitVec.ofNat 32 n) added).q.lock true 0 true =
      (uncounted n).whileEmpty true := CCheckQueue.lock_first (show (0 : Int) ≤ 3 by decide) (show (3 : Int) + 1 < 2 ^ 31 by decide)
  obtain ⟨m, hm, -, hbatch⟩ := hwait.batch (fun _ => rfl) rfl hlock hn
  obtain ⟨executed, hchk⟩ := hbatch.checks
  obtain ⟨k, executed, hk, hdrained⟩ := hchk.drain hm
  have hret : (draining th 0 0 k added executed).q.lock true k true =
      .ok ({ uncounted 0 with nTotal := 3 }, .done true) := by
    have hq : (draining th 0 0 k added executed).q = { uncounted 0 with nTodo := BitVec.ofNat 32 (0 + k) } := rfl
    rw [hq, CCheckQueue.lock_later (Nat.ne_of_gt hk), Nat.zero_add, BitVec.sub_self,
      CCheckQueue.whileEmpty_return rfl rfl rfl (show (0 : Int) ≤ 4 by decide) (show (4 : Int) < 2 ^ 31 by decide)]
    rfl
  have hstep : (draining th 0 0 k added executed).step id (.lock none) =
      some (((draining th 0 0 k added executed).q.lock true k true).map ((draining th 0 0 k added executed).leave none)) := rfl
  rw [hret] at hstep
  refine ⟨_, _, hdrained, hstep, ⟨?_, ?_⟩, rfl, ?_, ?_⟩
  · rintro b ⟨⟩
  · rw [thread_leave]
    exact update_self ..
  · intro i
    rw [thread_leave]
    exact update_of_ne (by rintro ⟨⟩) ..
  · rfl

theorem runs_init : Runs (holding (fun _ => .entering) [] 0 0 []) := by
  have hthr : (CheckSystem.init Bool 3 (2 ^ 32 - 1)).thread = (holding (fun _ => .entering) [] 0 0 []).thread := by
    funext i
    cases i <;> rfl
  have hinit : CheckSystem.init Bool 3 (2 ^ 32 - 1) =
      { holding (fun _ => .entering) [] 0 0 [] with thread := (CheckSystem.init Bool 3 (2 ^ 32 - 1)).thread } := rfl
  rw [hthr] at hinit
  have hrun : Runs (CheckSystem.init Bool 3 (2 ^ 32 - 1)) := .init
  rw [hinit] at hrun
  exact hrun

theorem Runs.add_take (h : Runs (holding th (replicate n true) nTotal nTodo added)) (b : Nat) {i : Fin 3}
    (hi : th i = .entering) (hpos : 0 < b + n) (h0 : 0 ≤ nTotal) (hrange : nTotal + 2 < 2 ^ 31)
    (hm : batchOf (b + n) nTotal = m) :
    Runs (holding (update th i (.working ((replicate (b + n) true).take m) m true))
      (replicate (b + n - m) true) (nTotal + 1) (nTodo + BitVec.ofNat 32 b) (added ++ replicate b true)) := by
  have hadd := h.add (replicate b true)
  rw [reverse_replicate, replicate_append_replicate, length_replicate] at hadd
  have hempty : replicate (b + n) true ≠ [] := by
    intro hnil
    have := (replicate_eq_nil_iff true).1 hnil
    omega
  have htake := hadd.take hi hempty h0 hrange (by rw [length_replicate, hm])
  rwa [drop_replicate] at htake

/-- With `2 ^ 30` threads or with large batches the counters leave their range: a step overflows, and `Wait` returns `true`
while a worker has not come to a check that is false. -/
theorem checkQueue_limits :
    (∃ (s : CheckSystem Bool (2 ^ 30 - 1)) (e : CheckEvent Bool (2 ^ 30 - 1)),
      Reachable id 1 (fun _ => True) s ∧ s.step id e = some (.error .overflow)) ∧
    ∃ s s' : CheckSystem Bool 3, Reachable id (2 ^ 32 - 1) (fun _ => True) s ∧ s.step id (.lock none) = some (.ok s') ∧
      Returns s s' true ∧ false ∈ s.added ∧ (∃ vChecks nNow, s'.thread (some 0) = .working vChecks nNow true) ∧
      s'.q.isIdle = false := by
  refine ⟨exists_overflow (by decide) 1, ?_⟩
  -- The first worker takes half of `2 ^ 32 - 1` checks, with the one that is false.
  generalize hfirst : List.replicate (2 ^ 32 - 2) true ++ [false] = first
  have hlen : first.length = 2 ^ 32 - 1 := by
    rw [← hfirst, length_append, length_replicate]
    rfl
  have hqueue : first.reverse ++ [] = false :: List.replicate (2 ^ 32 - 2) true := by
    rw [← hfirst, append_nil, reverse_append, reverse_replicate]
    rfl
  have h1 := runs_init.add first
  rw [hqueue, hlen] at h1
  have hrest : (false :: List.replicate (2 ^ 32 - 2) true).drop (2 ^ 31 - 1) = List.replicate (2 ^ 31) true := by
    have hsplit : 2 ^ 31 - 1 = 2 ^ 31 - 2 + 1 := by decide
    have hleft : 2 ^ 32 - 2 - (2 ^ 31 - 2) = 2 ^ 31 := by decide
    rw [hsplit, drop_succ_cons, drop_replicate, hleft]
  have hsize : batchOf (false :: List.replicate (2 ^ 32 - 2) true).length 0 = 2 ^ 31 - 1 := by
    rw [length_cons, length_replicate]
    decide
  have h2 := h1.take (i := 0) rfl (by rintro ⟨⟩) (by decide) (by decide) hsize
  rw [hrest] at h2
  -- Two more workers come, and the three hold `2 ^ 32` checks.
  have h3 := h2.add_take (2 ^ 31 - 1) (i := 1) (m := 1431655765) rfl (by decide) (by decide) (by decide) (by decide)
  have h4 := h3.add_take 6 (i := 2) (m := 715827884) rfl (by decide) (by decide) (by decide) (by decide)
  have hleft : 6 + (2 ^ 31 - 1 + 2 ^ 31 - 1431655765) - 715827884 = 2147483652 := by decide
  have htotal : (0 : Int) + 1 + 1 + 1 = 3 := by decide
  have htodo : (0 : BitVec 32) + BitVec.ofNat 32 (2 ^ 32 - 1) + BitVec.ofNat 32 (2 ^ 31 - 1) + BitVec.ofNat 32 6 =
      BitVec.ofNat 32 2147483652 := by decide
  rw [hleft, htotal, htodo] at h4
  obtain ⟨s, s', hrun, hstep, hreturns, hadded, hthr, hidle⟩ := h4.return_early (by decide)
  refine ⟨s, s', hrun, hstep, hreturns, ?_, ⟨_, _, (hthr 0).trans rfl⟩, hidle⟩
  rw [hadded, ← hfirst]
  simp only [mem_append, mem_singleton, or_true, true_or]

end

end CheckSystem

end LitecoinZ
