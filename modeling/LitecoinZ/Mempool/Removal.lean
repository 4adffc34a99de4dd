import LitecoinZ.Mempool.IndexConsistency

/-!
# What a recursive removal removes

`remove` with `fRecursive` searches the pool breadth first, through the index that it erases from.  Whatever the
transactions spend, it deletes the given transaction and its descendants in the pool, each once, and nothing else
(`remove_recursive_exact`): what is in the queue is a descendant, and the children of a descendant that has left the pool
are in the queue or have left it too.
-/

namespace LitecoinZ

open StateExcept Relation List

namespace CTxMemPool

variable {env : Env} {pool pool0 : CTxMemPool} {hash root : Uint256}

/-- The transaction `child` of the pool spends an output of `parent`. -/
def Child (pool : CTxMemPool) (parent child : Uint256) : Prop :=
  ∃ e, pool.mapTx.lookup child = some e ∧ ∃ txin ∈ e.tx.vin, txin.prevout.hash = parent

/-- The transaction `root`, and what spends its outputs in the pool, directly or not. -/
def Descends (pool : CTxMemPool) (root : Uint256) : Uint256 → Prop := ReflTransGen pool.Child root

/-- The inputs in the pool that refer to `tx` or to a transaction of the pool name an output that it has. -/
structure OutputsExist (env : Env) (tx : CTransaction) (pool : CTxMemPool) : Prop where
  given : ∀ h e, pool.mapTx.lookup h = some e → ∀ txin ∈ e.tx.vin, txin.prevout.hash = env.getHash tx →
    txin.prevout.n < tx.vout.length
  entries : ∀ h e, pool.mapTx.lookup h = some e → ∀ txin ∈ e.tx.vin, ∀ e',
    pool.mapTx.lookup txin.prevout.hash = some e' → txin.prevout.n < e'.tx.vout.length

/-- The loop over the outputs finds all the children, if they spend outputs that the loop comes to. -/
theorem Indexed.spenders_children (hi : Indexed env pool) (hash : Uint256) (n : Nat)
    (hn : ∀ h e, pool.mapTx.lookup h = some e → ∀ txin ∈ e.tx.vin, txin.prevout.hash = hash → txin.prevout.n < n) :
    ∃ hashes, pool.spenders env hash n = .ok hashes ∧ ∀ h, h ∈ hashes ↔ pool.Child hash h := by
  obtain ⟨hashes, hok, hmem⟩ := hi.spenders_ok hash n
  refine ⟨hashes, hok, fun h => (hmem h).trans ?_⟩
  constructor
  · rintro ⟨i, -, p, hp, rfl⟩
    obtain ⟨e, txin, he, htxin, hprev⟩ := (hi.mapNextTx _ p).1 hp
    exact ⟨e, he, txin, mem_of_getElem? htxin, by rw [hprev]⟩
  · rintro ⟨e, he, txin, htxin, rfl⟩
    obtain ⟨k, hk⟩ := mem_iff_getElem?.1 htxin
    exact ⟨txin.prevout.n, hn h e he txin htxin rfl, ⟨h, k⟩, (hi.mapNextTx _ _).2 ⟨e, txin, he, hk, rfl⟩, rfl⟩

/-! ### The loop -/

/-- How far the removal from `pool₀` has come, with `queue` still to be looked at and `gone` removed. -/
structure Removing (env : Env) (pool₀ : CTxMemPool) (root : Uint256) (queue : List Uint256) (gone : List CTransaction)
    (pool : CTxMemPool) : Prop where
  indexed : Indexed env pool
  mapTx : ∀ h e, pool.mapTx.lookup h = some e ↔ pool₀.mapTx.lookup h = some e ∧ h ∉ gone.map env.getHash
  entry : ∀ tx ∈ gone, ∃ e, pool₀.mapTx.lookup (env.getHash tx) = some e ∧ e.tx = tx
  descends : ∀ h ∈ gone.map env.getHash, pool₀.Descends root h
  nodup : (gone.map env.getHash).Nodup
  queued : ∀ h ∈ queue, pool₀.Descends root h
  start : root ∈ queue ∨ pool.mapTx.lookup root = none
  children : ∀ parent child, pool₀.Descends root parent → pool.mapTx.lookup parent = none → pool₀.Child parent child →
    child ∈ queue ∨ pool.mapTx.lookup child = none

namespace Removing

variable {queue : List Uint256} {gone : List CTransaction}

theorem init {hashes : List Uint256} (hi : Indexed env pool) (hchild : ∀ h ∈ hashes, pool.Child root h)
    (hall : pool.mapTx.lookup root = none → ∀ h, pool.Child root h → h ∈ hashes) :
    Removing env pool root (root :: hashes) [] pool := by
  refine ⟨hi, by simp, by simp, by simp, by simp, fun h hh => ?_, .inl mem_cons_self, fun parent child hp hnone hc => ?_⟩
  · rcases mem_cons.1 hh with rfl | hh
    · exact .refl
    · exact .single (hchild h hh)
  · -- a descendant that is not in the pool can only be the root
    rcases hp.cases_tail with rfl | ⟨_, -, e, he, -⟩
    · exact .inl (mem_cons_of_mem _ (hall hnone child hc))
    · rw [hnone] at he
      cases he

theorem skip (hr : Removing env pool0 root (hash :: queue) gone pool) (hnone : pool.mapTx.lookup hash = none) :
    Removing env pool0 root queue gone pool := by
  have hpop : ∀ {h}, h ∈ hash :: queue ∨ pool.mapTx.lookup h = none → h ∈ queue ∨ pool.mapTx.lookup h = none := by
    intro h hh
    rcases hh with hh | hh
    · rcases mem_cons.1 hh with rfl | hh
      · exact .inr hnone
      · exact .inl hh
    · exact .inr hh
  exact { hr with
    queued := (forall_mem_cons.1 hr.queued).2
    start := hpop hr.start
    children := fun parent child hp hgone hchild => hpop (hr.children parent child hp hgone hchild) }

theorem erase {entry : CTxMemPoolEntry} {hashes : List Uint256}
    (hr : Removing env pool0 root (hash :: queue) gone pool) (he : pool.mapTx.lookup hash = some entry)
    (hmem : ∀ h, h ∈ hashes ↔ pool.Child hash h) :
    Removing env pool0 root (queue ++ hashes) (gone ++ [entry.tx]) (pool.eraseEntry hash entry) := by
  have hkey : env.getHash entry.tx = hash := hr.indexed.key hash entry he
  obtain ⟨he0, hnotGone⟩ := (hr.mapTx hash entry).1 he
  have hroot : pool0.Descends root hash := hr.queued hash mem_cons_self
  have hgone : (gone ++ [entry.tx]).map env.getHash = gone.map env.getHash ++ [hash] := by simp [hkey]
  have hlook : ∀ h, (pool.eraseEntry hash entry).mapTx.lookup h = if h = hash then none else pool.mapTx.lookup h :=
    fun h => KeyMap.lookup_erase pool.mapTx hash h
  have hpop : ∀ {h}, h ∈ hash :: queue ∨ pool.mapTx.lookup h = none →
      h ∈ queue ++ hashes ∨ (pool.eraseEntry hash entry).mapTx.lookup h = none := by
    intro h hh
    rw [hlook]
    by_cases hh' : h = hash
    · simp [hh']
    · simp only [mem_cons, hh', false_or] at hh
      simp only [hh', if_false, mem_append]
      tauto
  refine ⟨hr.indexed.eraseEntry he, fun h e => ?_, ?_, ?_, ?_, fun h hh => ?_, hpop hr.start,
    fun parent child hp hnone hchild => ?_⟩
  · rw [hlook, hgone, mem_append, mem_singleton]
    by_cases hh : h = hash
    · simp [hh]
    · simp [hh, hr.mapTx]
  · intro tx htx
    rcases mem_append.1 htx with htx | htx
    · exact hr.entry tx htx
    · rw [mem_singleton.1 htx, hkey]
      exact ⟨entry, he0, rfl⟩
  · intro h hh
    rw [hgone, mem_append, mem_singleton] at hh
    rcases hh with hh | rfl
    · exact hr.descends h hh
    · exact hroot
  · rw [hgone]
    exact hr.nodup.append (nodup_singleton hash) (by simpa using hnotGone)
  · rcases mem_append.1 hh with hh | hh
    · exact hr.queued h (mem_cons_of_mem _ hh)
    · obtain ⟨e, he', hin⟩ := (hmem h).1 hh
      exact hroot.tail ⟨e, ((hr.mapTx h e).1 he').1, hin⟩
  · rw [hlook] at hnone
    by_cases hpar : parent = hash
    · -- the child has left the pool before, or the loop over the outputs has found it
      subst hpar
      cases hc : pool.mapTx.lookup child with
      | none => exact hpop (.inr hc)
      | some e =>
        obtain ⟨e0, hc0, hin⟩ := hchild
        cases ((hr.mapTx child e).1 hc).1.symm.trans hc0
        exact .inl (mem_append_right _ ((hmem child).2 ⟨e, hc, hin⟩))
    · rw [if_neg hpar] at hnone
      exact hpop (hr.children parent child hp hnone hchild)

theorem done (hr : Removing env pool0 root [] gone pool) {h : Uint256} (hd : pool0.Descends root h) :
    pool.mapTx.lookup h = none := by
  induction hd with
  | refl => simpa using hr.start
  | tail hd hchild ih => simpa using hr.children _ _ hd ih hchild

theorem removeLoop (hr : Removing env pool0 root queue gone pool) {tx : CTransaction} (ho : OutputsExist env tx pool0)
    (removed : List CTransaction) :
    ∃ pool' gone', pool.removeLoop env true queue (removed ++ gone) = .ok (pool', removed ++ gone') ∧
      Removing env pool0 root [] gone' pool' := by
  generalize hacc : removed ++ gone = acc
  induction queue, acc, pool using removeLoop.induct generalizing gone with
  | case1 acc pool => exact ⟨pool, gone, by rw [CTxMemPool.removeLoop, hacc], hr⟩
  | case2 acc pool hash queue hnone ih =>
    rw [removeLoop_none hnone]
    exact ih (hr.skip hnone) hacc
  | case3 acc pool hash queue entry hsome ih =>
    have he0 := ((hr.mapTx hash entry).1 hsome).1
    obtain ⟨hashes, hok, hmem⟩ := hr.indexed.spenders_children hash entry.tx.vout.length <| by
      rintro h e he txin htxin rfl
      exact ho.entries h e ((hr.mapTx h e).1 he).1 txin htxin entry he0
    rw [removeLoop_some hsome, if_pos rfl, hok]
    exact ih hashes (hr.erase hsome hmem) (by rw [← hacc, append_assoc])

end Removing

/-- `pool'` is the pool without the transactions of `gone`. -/
structure Without (env : Env) (pool pool' : CTxMemPool) (gone : Uint256 → Prop) : Prop where
  mapTx : ∀ h e, pool'.mapTx.lookup h = some e ↔ pool.mapTx.lookup h = some e ∧ ¬ gone h
  mapNextTx : ∀ o p, pool'.mapNextTx.lookup o = some p ↔ pool.mapNextTx.lookup o = some p ∧ ¬ gone p.ptx
  mapNullifiers : ∀ nf h, pool'.mapNullifiers.lookup nf = some h ↔ pool.mapNullifiers.lookup nf = some h ∧ ¬ gone h

/-- The indices of a pool go with its transactions. -/
theorem Without.of_mapTx {pool' : CTxMemPool} {gone : Uint256 → Prop} (hi : Indexed env pool) (hi' : Indexed env pool')
    (h : ∀ h e, pool'.mapTx.lookup h = some e ↔ pool.mapTx.lookup h = some e ∧ ¬ gone h) : Without env pool pool' gone := by
  refine ⟨h, fun o p => ?_, fun nf hash => ?_⟩
  · rw [hi.mapNextTx, hi'.mapNextTx]
    simp only [h]
    tauto
  · rw [hi.mapNullifiers, hi'.mapNullifiers]
    simp only [h]
    tauto

end CTxMemPool

open CTxMemPool

/-- A recursive removal comes to an end with the pool that has lost the transaction, if it was there, and its descendants;
the list of the removed transactions gets each of these once. -/
theorem remove_recursive_exact (env : Env) (pool : CTxMemPool) (tx : CTransaction) (removed : List CTransaction)
    (hindexed : Indexed env pool) (houtputs : OutputsExist env tx pool) :
    ∃ pool' gone, pool.remove env tx true removed = .ok (pool', removed ++ gone) ∧
      Without env pool pool' (pool.Descends (env.getHash tx)) ∧ (gone.map env.getHash).Nodup ∧
      ∀ t, t ∈ gone ↔ ∃ h e, pool.mapTx.lookup h = some e ∧ pool.Descends (env.getHash tx) h ∧ e.tx = t := by
  obtain ⟨hashes, hok, hr⟩ : ∃ hashes, (if true && (pool.mapTx.lookup (env.getHash tx)).isNone then
      pool.spenders env (env.getHash tx) tx.vout.length else pure []) = .ok hashes ∧
      Removing env pool (env.getHash tx) (env.getHash tx :: hashes) [] pool := by
    cases hroot : pool.mapTx.lookup (env.getHash tx) with
    | some e => exact ⟨[], rfl, .init hindexed (by simp) (by simp [hroot])⟩
    | none =>
      obtain ⟨hashes, hok, hmem⟩ := hindexed.spenders_children _ _ houtputs.given
      exact ⟨hashes, hok, .init hindexed (fun h => (hmem h).1) fun _ h => (hmem h).2⟩
  obtain ⟨pool', gone, hloop, hr'⟩ := hr.removeLoop houtputs removed
  rw [append_nil] at hloop
  have hgone : ∀ h e, pool.mapTx.lookup h = some e →
      (h ∈ gone.map env.getHash ↔ pool.Descends (env.getHash tx) h) := by
    intro h e he
    refine ⟨hr'.descends h, fun hd => ?_⟩
    by_contra hnot
    have := (hr'.mapTx h e).2 ⟨he, hnot⟩
    rw [hr'.done hd] at this
    cases this
  refine ⟨pool', gone, by rw [remove, hok]; exact hloop, .of_mapTx hindexed hr'.indexed fun h e => ?_, hr'.nodup,
    fun t => ⟨fun ht => ?_, ?_⟩⟩
  · rw [hr'.mapTx]
    exact and_congr_right fun he => not_congr (hgone h e he)
  · obtain ⟨e, he, rfl⟩ := hr'.entry t ht
    exact ⟨_, e, he, hr'.descends _ (mem_map_of_mem ht), rfl⟩
  · rintro ⟨h, e, he, hd, rfl⟩
    obtain ⟨t, ht, rfl⟩ := mem_map.1 ((hgone h e he).2 hd)
    obtain ⟨e', he', rfl⟩ := hr'.entry t ht
    cases he.symm.trans he'
    exact ht

def parentTx : CTransaction := ⟨1, [], [⟨5, []⟩], [], 7, 0, nullSig⟩

def childEntry : CTxMemPoolEntry where
  tx := ⟨1, [⟨⟨7, 0⟩, [], 0⟩], [], [], 12, 0, nullSig⟩
  nTxSize := 100
  nUsageSize := 200

/-- The child is removed with its parent, which is not in the pool. -/
theorem remove_recursive_exact_child : ∃ pool' gone,
    (CTxMemPool.addUnchecked 12 childEntry {}).remove plainEnv parentTx true [] = .ok (pool', gone) ∧
      pool'.mapTx.lookup 12 = none ∧ childEntry.tx ∈ gone := by
  have hlook : ∀ h e, (CTxMemPool.addUnchecked 12 childEntry {}).mapTx.lookup h = some e → h = 12 ∧ e = childEntry := by
    intro h e he
    rcases KeyMap.lookup_insert_cases he with ⟨rfl, rfl⟩ | ⟨-, he⟩
    · exact ⟨rfl, rfl⟩
    · cases he
  have haddable : Addable plainEnv childEntry {} :=
    ⟨rfl, by decide, by decide, fun _ _ he => (nomatch he), fun _ _ he => (nomatch he)⟩
  have hidx := ((consistent_empty false).addUnchecked haddable).indexed
  obtain ⟨pool', gone, hok, hwithout, -, hgone⟩ := remove_recursive_exact plainEnv _ parentTx [] hidx <| by
    constructor
    · intro h e he
      obtain ⟨rfl, rfl⟩ := hlook h e he
      decide
    · intro h e he txin htxin e' he'
      obtain ⟨rfl, rfl⟩ := hlook h e he
      rw [mem_singleton.1 htxin] at he'
      obtain ⟨h7, -⟩ := hlook _ e' he'
      cases h7
  have hd : (CTxMemPool.addUnchecked 12 childEntry {}).Descends (plainEnv.getHash parentTx) 12 :=
    .single ⟨childEntry, rfl, _, mem_singleton_self _, rfl⟩
  refine ⟨pool', gone, hok, ?_, (hgone _).2 ⟨12, childEntry, rfl, hd, rfl⟩⟩
  cases hp : pool'.mapTx.lookup 12 with
  | none => rfl
  | some e => exact absurd hd ((hwithout.mapTx 12 e).1 hp).2

end LitecoinZ
