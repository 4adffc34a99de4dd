import LitecoinZ.Lib.Greatest
import LitecoinZ.Lib.SetMap
import LitecoinZ.Validation.CheckTransaction

/-!
# The orphan transactions

The transactions of `main.cpp` that wait for a missing parent: `mapOrphanTransactions`, and the reverse index
`mapOrphanTransactionsByPrev` from the hash of a previous transaction to the orphans that spend it.  Whatever is added,
erased, dropped with its peer or evicted, the reverse index is exact (`Consistent`).
-/

namespace LitecoinZ

open StateExcept List

abbrev NodeId := Int

structure COrphanTx where
  tx : CTransaction
  fromPeer : NodeId
  deriving DecidableEq, Repr

structure OrphanPool where
  mapOrphanTransactions : KeyMap Uint256 COrphanTx := ∅
  mapOrphanTransactionsByPrev : SetMap Uint256 Uint256 := ∅

/-- The place of a hash in the order of `memcmp`, which looks at the least significant byte first. -/
def memcmpOrder (hash : Uint256) : Nat :=
  (List.range 32).foldl (fun n i => n * 256 + hash.toNat / 256 ^ i % 256) 0

namespace OrphanPool

def prevHashes (tx : CTransaction) : List Uint256 := tx.vin.map fun txin => txin.prevout.hash

def size (pool : OrphanPool) : Nat := pool.mapOrphanTransactions.entries.length

def addOrphanTx (env : Env) (tx : CTransaction) (peer : NodeId) (pool : OrphanPool) : Bool × OrphanPool :=
  let hash := env.getHash tx
  if (pool.mapOrphanTransactions.lookup hash).isSome then (false, pool)
  else if env.txSize tx % 2 ^ 32 > 5000 then (false, pool)
  else (true, {
    mapOrphanTransactions := pool.mapOrphanTransactions.insert hash ⟨tx, peer⟩
    mapOrphanTransactionsByPrev := pool.mapOrphanTransactionsByPrev.addAll hash (prevHashes tx) })

def eraseOrphanTx (hash : Uint256) (pool : OrphanPool) : OrphanPool :=
  match pool.mapOrphanTransactions.lookup hash with
  | none => pool
  | some it => {
    mapOrphanTransactions := pool.mapOrphanTransactions.erase hash
    mapOrphanTransactionsByPrev := pool.mapOrphanTransactionsByPrev.removeAll hash (prevHashes it.tx) }

/-- The loop of `EraseOrphansFor` over the keys of the map that are still to be visited. -/
def eraseOrphansLoop (env : Env) (peer : NodeId) : List Uint256 → OrphanPool → OrphanPool
  | [], pool => pool
  | hash :: hashes, pool =>
    match pool.mapOrphanTransactions.lookup hash with
    | none => pool.eraseOrphansLoop env peer hashes
    | some maybeErase =>
      if maybeErase.fromPeer = peer then
        (pool.eraseOrphanTx (env.getHash maybeErase.tx)).eraseOrphansLoop env peer hashes
      else pool.eraseOrphansLoop env peer hashes

def eraseOrphansFor (env : Env) (peer : NodeId) (pool : OrphanPool) : OrphanPool :=
  pool.eraseOrphansLoop env peer pool.mapOrphanTransactions.keys

def first (hashes : List Uint256) : Option Uint256 :=
  Greatest.greatest (fun a b => decide (memcmpOrder b < memcmpOrder a)) hashes

/-- `lower_bound(randomhash)`, and the first key after the last one. -/
def victim (randomhash : Uint256) (pool : OrphanPool) : Option Uint256 :=
  let hashes := pool.mapOrphanTransactions.keys
  (first (hashes.filter fun hash => memcmpOrder randomhash ≤ memcmpOrder hash)).or (first hashes)

variable {hash : Uint256} {pool : OrphanPool}

theorem first_mem {hashes : List Uint256} (h : first hashes = some hash) : hash ∈ hashes := by
  refine (Greatest.greatest_some (fun a => ?_) (fun a b hab => ?_) (fun a b c hab hbc => ?_) h).1
  · simp
  · simp only [decide_eq_true_eq, decide_eq_false_iff_not] at hab ⊢
    omega
  · simp only [decide_eq_false_iff_not] at hab hbc ⊢
    omega

theorem victim_mem {randomhash : Uint256} (h : pool.victim randomhash = some hash) :
    hash ∈ pool.mapOrphanTransactions.keys := by
  rw [victim, Option.or_eq_some_iff] at h
  rcases h with h | ⟨-, h⟩
  · exact (mem_filter.1 (first_mem h)).1
  · exact first_mem h

theorem eraseOrphanTx_none (h : pool.mapOrphanTransactions.lookup hash = none) :
    pool.eraseOrphanTx hash = pool := by
  rw [eraseOrphanTx, h]

theorem eraseOrphanTx_some {it : COrphanTx} (h : pool.mapOrphanTransactions.lookup hash = some it) :
    pool.eraseOrphanTx hash = {
      mapOrphanTransactions := pool.mapOrphanTransactions.erase hash
      mapOrphanTransactionsByPrev := pool.mapOrphanTransactionsByPrev.removeAll hash (prevHashes it.tx) } := by
  rw [eraseOrphanTx, h]

theorem size_eraseOrphanTx (h : hash ∈ pool.mapOrphanTransactions.keys) :
    (pool.eraseOrphanTx hash).size + 1 = pool.size := by
  obtain ⟨it, hit⟩ := KeyMap.exists_lookup h
  rw [eraseOrphanTx_some hit]
  exact KeyMap.length_erase hit

/-- The loop of `LimitOrphanTxSize`; `getRandHash` gives the random hash of each round. -/
def limitOrphanLoop (getRandHash : Nat → Uint256) (nMaxOrphans round nEvicted : Nat) (pool : OrphanPool) :
    Except Fault (Nat × OrphanPool) :=
  if pool.size > nMaxOrphans then
    match _h : pool.victim (getRandHash round) with
    | none => .error (.exception "end of map")
    | some it => limitOrphanLoop getRandHash nMaxOrphans (round + 1) ((nEvicted + 1) % 2 ^ 32) (pool.eraseOrphanTx it)
  else .ok (nEvicted, pool)
termination_by pool.size
decreasing_by
  have := size_eraseOrphanTx (victim_mem _h)
  omega

def limitOrphanTxSize (getRandHash : Nat → Uint256) (nMaxOrphans : Nat) (pool : OrphanPool) :
    Except Fault (Nat × OrphanPool) :=
  pool.limitOrphanLoop getRandHash nMaxOrphans 0 0

/-! ### Consistency -/

def spending (pool : OrphanPool) (prev : Uint256) : Finset Uint256 :=
  ((pool.mapOrphanTransactions.entries.filter fun e => prev ∈ prevHashes e.2.tx).map Sigma.fst).toFinset

theorem mem_spending {prev : Uint256} :
    hash ∈ pool.spending prev ↔
      ∃ it, pool.mapOrphanTransactions.lookup hash = some it ∧ prev ∈ prevHashes it.tx := by
  rw [spending, mem_toFinset, mem_map]
  constructor
  · rintro ⟨⟨hash', it⟩, hmem, rfl⟩
    rw [mem_filter, decide_eq_true_eq] at hmem
    exact ⟨it, AList.mem_lookup_iff.2 hmem.1, hmem.2⟩
  · rintro ⟨it, hit, hprev⟩
    refine ⟨⟨hash, it⟩, ?_, rfl⟩
    rw [mem_filter, decide_eq_true_eq]
    exact ⟨AList.mem_lookup_iff.1 hit, hprev⟩

/-- The orphans are filed under their hashes, and the reverse index is exact and holds no empty set. -/
structure Consistent (env : Env) (pool : OrphanPool) : Prop where
  hash : ∀ {hash it}, pool.mapOrphanTransactions.lookup hash = some it → env.getHash it.tx = hash
  noEmpty : pool.mapOrphanTransactionsByPrev.NoEmpty
  members : ∀ prev, pool.mapOrphanTransactionsByPrev.members prev = pool.spending prev

variable {env : Env}

theorem consistent_empty (env : Env) : Consistent env {} where
  hash h := by
    rw [KeyMap.lookup_empty] at h
    cases h
  noEmpty := SetMap.noEmpty_empty
  members prev := rfl

theorem Consistent.addOrphanTx (h : Consistent env pool) (tx : CTransaction) (peer : NodeId) :
    Consistent env (pool.addOrphanTx env tx peer).2 := by
  unfold OrphanPool.addOrphanTx
  dsimp only
  split
  · exact h
  · rename_i hnew
    split
    · exact h
    · have hnone : pool.mapOrphanTransactions.lookup (env.getHash tx) = none := by
        rwa [Option.not_isSome_iff_eq_none] at hnew
      refine ⟨fun hl => ?_, h.noEmpty.addAll _ _, fun prev => ?_⟩
      · rcases KeyMap.lookup_insert_cases hl with ⟨rfl, rfl⟩ | ⟨-, hl⟩
        · rfl
        · exact h.hash hl
      · ext hash
        rw [SetMap.mem_addAll, h.members, mem_spending, mem_spending]
        by_cases hh : hash = env.getHash tx
        · subst hh
          simp [hnone]
        · simp [hh]

theorem Consistent.eraseOrphanTx (h : Consistent env pool) (hash : Uint256) :
    Consistent env (pool.eraseOrphanTx hash) := by
  cases hit : pool.mapOrphanTransactions.lookup hash with
  | none =>
    rw [eraseOrphanTx_none hit]
    exact h
  | some it =>
    rw [eraseOrphanTx_some hit]
    refine ⟨fun {hash' it'} hl => ?_, h.noEmpty.removeAll _ _, fun prev => ?_⟩
    · by_cases hh : hash' = hash
      · rw [hh, AList.lookup_erase] at hl
        cases hl
      · rw [AList.lookup_erase_ne hh] at hl
        exact h.hash hl
    · ext hash'
      rw [SetMap.mem_removeAll, h.members, mem_spending, mem_spending]
      by_cases hh : hash' = hash
      · subst hh
        simp [hit]
      · simp [hh]

theorem lookup_eraseOrphanTx (pool : OrphanPool) (hash hash' : Uint256) :
    (pool.eraseOrphanTx hash).mapOrphanTransactions.lookup hash' =
      if hash' = hash then none else pool.mapOrphanTransactions.lookup hash' := by
  cases hit : pool.mapOrphanTransactions.lookup hash with
  | none =>
    rw [eraseOrphanTx_none hit]
    split
    · subst hash'
      exact hit
    · rfl
  | some it =>
    rw [eraseOrphanTx_some hit]
    split
    · subst hash'
      exact AList.lookup_erase _ _
    · exact AList.lookup_erase_ne ‹_›

theorem Consistent.eraseOrphansLoop (h : Consistent env pool) (peer : NodeId) (hashes : List Uint256) :
    Consistent env (pool.eraseOrphansLoop env peer hashes) ∧ ∀ hash,
      (pool.eraseOrphansLoop env peer hashes).mapOrphanTransactions.lookup hash =
        (pool.mapOrphanTransactions.lookup hash).filter fun it => !(decide (hash ∈ hashes) && it.fromPeer = peer) := by
  induction hashes generalizing pool with
  | nil =>
    refine ⟨h, fun hash => ?_⟩
    cases hit : pool.mapOrphanTransactions.lookup hash with
    | none => simp [OrphanPool.eraseOrphansLoop, hit]
    | some it => simp [OrphanPool.eraseOrphansLoop, hit, Option.filter]
  | cons hash0 hashes ih =>
    rw [OrphanPool.eraseOrphansLoop]
    cases hit : pool.mapOrphanTransactions.lookup hash0 with
    | none =>
      obtain ⟨hc, hl⟩ := ih h
      refine ⟨hc, fun hash => ?_⟩
      rw [hl]
      by_cases hh : hash = hash0
      · subst hh
        simp [hit]
      · simp [hh]
    | some it =>
      dsimp only
      by_cases hpeer : it.fromPeer = peer
      · rw [if_pos hpeer, h.hash hit]
        obtain ⟨hc, hl⟩ := ih (h.eraseOrphanTx hash0)
        refine ⟨hc, fun hash => ?_⟩
        rw [hl, lookup_eraseOrphanTx]
        by_cases hh : hash = hash0
        · subst hh
          simp [hit, hpeer, Option.filter]
        · simp [hh]
      · rw [if_neg hpeer]
        obtain ⟨hc, hl⟩ := ih h
        refine ⟨hc, fun hash => ?_⟩
        rw [hl]
        by_cases hh : hash = hash0
        · subst hh
          simp [hit, hpeer, Option.filter]
        · simp [hh]

theorem Consistent.eraseOrphansFor (h : Consistent env pool) (peer : NodeId) :
    Consistent env (pool.eraseOrphansFor env peer) ∧ ∀ hash,
      (pool.eraseOrphansFor env peer).mapOrphanTransactions.lookup hash =
        (pool.mapOrphanTransactions.lookup hash).filter fun it => it.fromPeer ≠ peer := by
  obtain ⟨hc, hl⟩ := h.eraseOrphansLoop peer pool.mapOrphanTransactions.keys
  refine ⟨hc, fun hash => (hl hash).trans ?_⟩
  cases hit : pool.mapOrphanTransactions.lookup hash with
  | none => rfl
  | some it => simp [KeyMap.mem_keys_of_lookup hit]

theorem victim_ne_none {nMaxOrphans : Nat} (h : nMaxOrphans < pool.size) (randomhash : Uint256) :
    pool.victim randomhash ≠ none := by
  intro hnone
  rw [victim, Option.or_eq_none_iff] at hnone
  have hkeys : pool.mapOrphanTransactions.keys = [] := Greatest.greatest_none hnone.2
  have hsize : pool.size = 0 := by
    rw [size, ← length_map Sigma.fst]
    exact congrArg length hkeys
  omega

theorem Consistent.limitOrphanLoop (h : Consistent env pool) (getRandHash : Nat → Uint256) (nMaxOrphans round : Nat)
    {nEvicted : Nat} (hn : nEvicted < 2 ^ 32) :
    ∃ pool', pool.limitOrphanLoop getRandHash nMaxOrphans round nEvicted =
        .ok ((nEvicted + (pool.size - pool'.size)) % 2 ^ 32, pool') ∧
      Consistent env pool' ∧ pool'.size = min pool.size nMaxOrphans ∧
      (∀ hash it, pool'.mapOrphanTransactions.lookup hash = some it → pool.mapOrphanTransactions.lookup hash = some it) ∧
      (pool.size ≤ nMaxOrphans → pool' = pool) := by
  induction hsize : pool.size generalizing pool round nEvicted with
  | zero =>
    refine ⟨pool, ?_, h, by omega, fun _ _ hl => hl, fun _ => rfl⟩
    rw [OrphanPool.limitOrphanLoop, if_neg (by omega), hsize, Nat.sub_self, Nat.add_zero, Nat.mod_eq_of_lt hn]
  | succ n ih =>
    rw [OrphanPool.limitOrphanLoop]
    by_cases hmax : pool.size > nMaxOrphans
    · rw [if_pos hmax]
      split
      · rename_i hnone
        exact absurd hnone (victim_ne_none hmax _)
      · rename_i it hit
        have hone := size_eraseOrphanTx (victim_mem hit)
        obtain ⟨pool', hrun, hc, hs, hsub, -⟩ := ih (h.eraseOrphanTx it) (round + 1)
          (Nat.mod_lt (nEvicted + 1) (by decide)) (by omega)
        refine ⟨pool', ?_, hc, by omega, fun hash it' hl => ?_, fun hle => by omega⟩
        · rw [hrun, Nat.mod_add_mod, show nEvicted + 1 + (n - pool'.size) = nEvicted + (n + 1 - pool'.size) by omega]
        · have hl' := hsub hash it' hl
          rw [lookup_eraseOrphanTx] at hl'
          split at hl'
          · cases hl'
          · exact hl'
    · refine ⟨pool, ?_, h, by omega, fun _ _ hl => hl, fun _ => rfl⟩
      rw [if_neg hmax, hsize, Nat.sub_self, Nat.add_zero, Nat.mod_eq_of_lt hn]

/-! ### Runs -/

inductive OrphanCall where
  | addOrphanTx (tx : CTransaction) (peer : NodeId)
  | eraseOrphanTx (hash : Uint256)
  | eraseOrphansFor (peer : NodeId)
  | limitOrphanTxSize (getRandHash : Nat → Uint256) (nMaxOrphans : Nat)

def step (env : Env) (call : OrphanCall) (pool : OrphanPool) : Except Fault OrphanPool :=
  match call with
  | .addOrphanTx tx peer => .ok (pool.addOrphanTx env tx peer).2
  | .eraseOrphanTx hash => .ok (pool.eraseOrphanTx hash)
  | .eraseOrphansFor peer => .ok (pool.eraseOrphansFor env peer)
  | .limitOrphanTxSize getRandHash nMaxOrphans => do
    let (_, pool) ← pool.limitOrphanTxSize getRandHash nMaxOrphans
    pure pool

def run (env : Env) : List OrphanCall → OrphanPool → Except Fault OrphanPool
  | [], pool => .ok pool
  | call :: calls, pool => pool.step env call >>= run env calls

theorem Consistent.step (h : Consistent env pool) (call : OrphanCall) :
    ∃ pool', pool.step env call = .ok pool' ∧ Consistent env pool' := by
  cases call with
  | addOrphanTx tx peer => exact ⟨_, rfl, h.addOrphanTx tx peer⟩
  | eraseOrphanTx hash => exact ⟨_, rfl, h.eraseOrphanTx hash⟩
  | eraseOrphansFor peer => exact ⟨_, rfl, (h.eraseOrphansFor peer).1⟩
  | limitOrphanTxSize getRandHash nMaxOrphans =>
    obtain ⟨pool', hrun, hc, -⟩ := h.limitOrphanLoop getRandHash nMaxOrphans 0 (by decide : 0 < 2 ^ 32)
    refine ⟨pool', ?_, hc⟩
    rw [OrphanPool.step, OrphanPool.limitOrphanTxSize, hrun]
    rfl

theorem Consistent.run (h : Consistent env pool) (calls : List OrphanCall) :
    ∃ pool', pool.run env calls = .ok pool' ∧ Consistent env pool' := by
  induction calls generalizing pool with
  | nil => exact ⟨pool, rfl, h⟩
  | cons call calls ih =>
    obtain ⟨pool1, hstep, hc⟩ := h.step call
    obtain ⟨pool', hrun, hc'⟩ := ih hc
    exact ⟨pool', except_bind_ok.2 ⟨pool1, hstep, hrun⟩, hc'⟩

/-- After every sequence of calls the reverse index is exact, a peer that leaves takes its orphans with it and no
others, and a limit leaves at most so many orphans and returns how many it evicted, as far as an `unsigned int` can. -/
theorem orphanPool_consistent (env : Env) (calls : List OrphanCall) :
    ∃ pool, run env calls {} = .ok pool ∧
      (∀ prev, pool.mapOrphanTransactionsByPrev.lookup prev =
        if pool.spending prev = ∅ then none else some (pool.spending prev)) ∧
      (∀ peer hash, (pool.eraseOrphansFor env peer).mapOrphanTransactions.lookup hash =
        (pool.mapOrphanTransactions.lookup hash).filter fun it => it.fromPeer ≠ peer) ∧
      ∀ getRandHash nMaxOrphans, ∃ pool',
        pool.limitOrphanTxSize getRandHash nMaxOrphans = .ok ((pool.size - pool'.size) % 2 ^ 32, pool') ∧
        pool'.size ≤ nMaxOrphans ∧ pool'.size ≤ pool.size ∧
        (∀ hash it, pool'.mapOrphanTransactions.lookup hash = some it →
          pool.mapOrphanTransactions.lookup hash = some it) ∧
        (pool.size ≤ nMaxOrphans → pool' = pool) := by
  obtain ⟨pool, hrun, hc⟩ := (consistent_empty env).run calls
  refine ⟨pool, hrun, fun prev => hc.noEmpty.lookup (hc.members prev),
    fun peer => (hc.eraseOrphansFor peer).2, fun getRandHash nMaxOrphans => ?_⟩
  obtain ⟨pool', hlimit, -, hsize, hsub, hsame⟩ :=
    hc.limitOrphanLoop getRandHash nMaxOrphans 0 (by decide : 0 < 2 ^ 32)
  rw [Nat.zero_add] at hlimit
  exact ⟨pool', hlimit, by omega, by omega, hsub, hsame⟩

def emptyTx (nLockTime : Nat) : CTransaction where
  nVersion := 1
  vin := []
  vout := []
  nLockTime := nLockTime
  vjoinsplit := []
  joinSplitPubKey := 0
  joinSplitSig := Vector.replicate 64 0

def manyOrphans (n : Nat) : List OrphanCall := (List.range n).map fun i => .addOrphanTx (emptyTx i) 0

theorem run_append (env : Env) (calls calls' : List OrphanCall) (pool : OrphanPool) :
    pool.run env (calls ++ calls') = pool.run env calls >>= run env calls' := by
  induction calls generalizing pool with
  | nil => rfl
  | cons call calls ih =>
    rw [cons_append, run, run]
    cases pool.step env call with
    | error e => rfl
    | ok pool1 => exact ih pool1

theorem run_manyOrphans {n : Nat} (hn : n ≤ 2 ^ 256) :
    ∃ pool, run plainEnv (manyOrphans n) {} = .ok pool ∧ pool.size = n ∧
      ∀ hash, n ≤ hash.toNat → pool.mapOrphanTransactions.lookup hash = none := by
  induction n with
  | zero => exact ⟨{}, rfl, rfl, fun hash _ => KeyMap.lookup_empty hash⟩
  | succ n ih =>
    obtain ⟨pool, hrun, hsize, hfree⟩ := ih (by omega)
    have hhash : plainEnv.getHash (emptyTx n) = BitVec.ofNat 256 n := rfl
    have htoNat : (BitVec.ofNat 256 n).toNat = n := by
      rw [BitVec.toNat_ofNat, Nat.mod_eq_of_lt (by omega)]
    have hnone := hfree (BitVec.ofNat 256 n) htoNat.ge
    have hadd : pool.addOrphanTx plainEnv (emptyTx n) 0 = (true, {
        mapOrphanTransactions := pool.mapOrphanTransactions.insert (BitVec.ofNat 256 n) ⟨emptyTx n, 0⟩
        mapOrphanTransactionsByPrev := pool.mapOrphanTransactionsByPrev }) := by
      rw [OrphanPool.addOrphanTx, hhash, hnone]
      rfl
    refine ⟨(pool.addOrphanTx plainEnv (emptyTx n) 0).2, ?_, ?_, fun hash hle => ?_⟩
    · rw [manyOrphans, range_succ, map_append, run_append]
      exact except_bind_ok.2 ⟨pool, hrun, rfl⟩
    · rw [hadd]
      exact (KeyMap.length_insert hnone _).trans (congrArg (· + 1) hsize)
    · have hne : hash ≠ BitVec.ofNat 256 n := fun h => by
        rw [h, htoNat] at hle
        omega
      rw [hadd]
      exact (AList.lookup_insert_ne hne).trans (hfree hash (by omega))

/-- When 2 ^ 32 orphans are evicted, the number returned is zero. -/
theorem limitOrphanTxSize_wraps :
    ∃ pool pool', run plainEnv (manyOrphans (2 ^ 32)) {} = .ok pool ∧
      pool.limitOrphanTxSize (fun _ => 0) 0 = .ok (0, pool') ∧ pool.size = 2 ^ 32 ∧ pool'.size = 0 := by
  obtain ⟨pool, hrun, hsize, -⟩ := run_manyOrphans (n := 2 ^ 32) (by decide)
  obtain ⟨pool₁, hrun1, hc⟩ := (consistent_empty plainEnv).run (manyOrphans (2 ^ 32))
  cases hrun.symm.trans hrun1
  obtain ⟨pool', hlimit, -, hsize', -⟩ := hc.limitOrphanLoop (fun _ => 0) 0 0 (by decide : 0 < 2 ^ 32)
  have hzero : pool'.size = 0 := by omega
  refine ⟨pool, pool', hrun, ?_, hsize, hzero⟩
  rw [hzero, hsize] at hlimit
  exact hlimit

end OrphanPool

end LitecoinZ
