import LitecoinZ.Mempool.TxMemPool

/-!
# The indices of the memory pool

The pool is consistent if its indices say what its transactions spend and reveal, and its totals are the sums over its
entries.  Every routine keeps a consistent pool consistent and follows no dangling pointer, except that `clear` forgets to
empty `mapNullifiers`.  So a run keeps the pool consistent just when `clear` is called on pools that reveal nothing
(`consistent_run_iff`).
-/

namespace LitecoinZ

open StateExcept List

namespace CTxMemPool

variable {env : Env} {pool pool' : CTxMemPool} {hash : Uint256}

structure Consistent (env : Env) (pool : CTxMemPool) : Prop where
  key : ∀ h e, pool.mapTx.lookup h = some e → env.getHash e.tx = h
  mapNextTx : ∀ o p, pool.mapNextTx.lookup o = some p ↔
    ∃ e txin, pool.mapTx.lookup p.ptx = some e ∧ e.tx.vin[p.n]? = some txin ∧ txin.prevout = o
  mapNullifiers : ∀ nf h, pool.mapNullifiers.lookup nf = some h ↔
    ∃ e, pool.mapTx.lookup h = some e ∧ nf ∈ e.tx.nullifiers
  totalTxSize : pool.totalTxSize = pool.mapTx.total CTxMemPoolEntry.nTxSize
  cachedInnerUsage : pool.cachedInnerUsage = pool.mapTx.total CTxMemPoolEntry.nUsageSize

/-- The part of it that `remove` goes by: the indices. -/
structure Indexed (env : Env) (pool : CTxMemPool) : Prop where
  key : ∀ h e, pool.mapTx.lookup h = some e → env.getHash e.tx = h
  mapNextTx : ∀ o p, pool.mapNextTx.lookup o = some p ↔
    ∃ e txin, pool.mapTx.lookup p.ptx = some e ∧ e.tx.vin[p.n]? = some txin ∧ txin.prevout = o
  mapNullifiers : ∀ nf h, pool.mapNullifiers.lookup nf = some h ↔
    ∃ e, pool.mapTx.lookup h = some e ∧ nf ∈ e.tx.nullifiers

theorem Consistent.indexed (hc : Consistent env pool) : Indexed env pool :=
  ⟨hc.key, hc.mapNextTx, hc.mapNullifiers⟩

theorem consistent_empty (fSanityCheck : Bool) : Consistent env { fSanityCheck } := by
  constructor <;> simp [KeyMap.total]

/-- What the callers of `addUnchecked` see to: the transaction is new, has no input or nullifier twice, and shares none
with a transaction of the pool. -/
structure Addable (env : Env) (entry : CTxMemPoolEntry) (pool : CTxMemPool) : Prop where
  new : pool.mapTx.lookup (env.getHash entry.tx) = none
  inputs : (entry.tx.vin.map CTxIn.prevout).Nodup
  nullifiers : entry.tx.nullifiers.Nodup
  noDoubleSpend : ∀ h e, pool.mapTx.lookup h = some e → ∀ txin ∈ entry.tx.vin, ∀ txin' ∈ e.tx.vin,
    txin.prevout ≠ txin'.prevout
  noDoubleReveal : ∀ h e, pool.mapTx.lookup h = some e → ∀ nf ∈ entry.tx.nullifiers, nf ∉ e.tx.nullifiers

theorem map_fst_inPoints (hash : Uint256) (tx : CTransaction) :
    (inPoints hash tx).map Prod.fst = tx.vin.map CTxIn.prevout := by
  apply ext_getElem?
  intro i
  simp only [inPoints, getElem?_map, getElem?_mapIdx, Option.map_map]
  rfl

theorem mem_inPoints {tx : CTransaction} {o : COutPoint} {p : CInPoint} :
    (o, p) ∈ inPoints hash tx ↔ p.ptx = hash ∧ ∃ txin, tx.vin[p.n]? = some txin ∧ txin.prevout = o := by
  obtain ⟨ptx, n⟩ := p
  simp only [inPoints, mem_iff_getElem?, getElem?_mapIdx, Option.map_eq_some_iff, Prod.mk.injEq,
    CInPoint.mk.injEq]
  constructor
  · rintro ⟨i, txin, htxin, rfl, rfl, rfl⟩
    exact ⟨rfl, txin, htxin, rfl⟩
  · rintro ⟨rfl, txin, htxin, rfl⟩
    exact ⟨n, txin, htxin, rfl, rfl, rfl⟩

variable {entry : CTxMemPoolEntry}

theorem Consistent.addUnchecked (hc : Consistent env pool) (ha : Addable env entry pool) :
    Consistent env (pool.addUnchecked (env.getHash entry.tx) entry) := by
  generalize hh : env.getHash entry.tx = hash
  have hnew : pool.mapTx.lookup hash = none := hh ▸ ha.new
  have hold : ∀ {h e}, pool.mapTx.lookup h = some e → (pool.mapTx.insert hash entry).lookup h = some e := by
    intro h e he
    rw [AList.lookup_insert_ne]
    · exact he
    · rintro rfl
      rw [hnew] at he
      cases he
  constructor
  · intro h e he
    rcases KeyMap.lookup_insert_cases he with ⟨rfl, rfl⟩ | ⟨-, he⟩
    · exact hh
    · exact hc.key h e he
  · intro o p
    have hkeys : ((inPoints hash entry.tx).map Prod.fst).Nodup := by
      rw [map_fst_inPoints]
      exact ha.inputs
    refine (KeyMap.lookup_insertAll pool.mapNextTx hkeys o p).trans ?_
    rw [map_fst_inPoints, mem_inPoints, hc.mapNextTx]
    constructor
    · rintro (⟨rfl, txin, htxin, rfl⟩ | ⟨-, e, txin, he, htxin, rfl⟩)
      · exact ⟨entry, txin, AList.lookup_insert _, htxin, rfl⟩
      · exact ⟨e, txin, hold he, htxin, rfl⟩
    · rintro ⟨e, txin, he, htxin, rfl⟩
      rcases KeyMap.lookup_insert_cases he with ⟨hp, rfl⟩ | ⟨-, he⟩
      · exact .inl ⟨hp, txin, htxin, rfl⟩
      · refine .inr ⟨fun hmem => ?_, e, txin, he, htxin, rfl⟩
        obtain ⟨txin', hin', heq⟩ := mem_map.1 hmem
        exact ha.noDoubleSpend _ e he txin' hin' txin (mem_of_getElem? htxin) heq
  · intro nf h
    have hfst : (entry.tx.nullifiers.map fun nf => (nf, hash)).map Prod.fst = entry.tx.nullifiers := by
      rw [map_map]
      exact map_id _
    refine (KeyMap.lookup_insertAll pool.mapNullifiers (by rw [hfst]; exact ha.nullifiers) nf h).trans ?_
    rw [hfst, hc.mapNullifiers, mem_map]
    constructor
    · rintro (⟨nf', hnf, heq⟩ | ⟨-, e, he, hnf⟩)
      · cases heq
        exact ⟨entry, AList.lookup_insert _, hnf⟩
      · exact ⟨e, hold he, hnf⟩
    · rintro ⟨e, he, hnf⟩
      rcases KeyMap.lookup_insert_cases he with ⟨rfl, rfl⟩ | ⟨-, he⟩
      · exact .inl ⟨nf, hnf, rfl⟩
      · exact .inr ⟨fun hmem => ha.noDoubleReveal h e he nf hmem hnf, e, he, hnf⟩
  · show pool.totalTxSize + entry.nTxSize = KeyMap.total _ (pool.mapTx.insert hash entry)
    rw [KeyMap.total_insert _ hnew, hc.totalTxSize, add_comm]
  · show pool.cachedInnerUsage + entry.nUsageSize = KeyMap.total _ (pool.mapTx.insert hash entry)
    rw [KeyMap.total_insert _ hnew, hc.cachedInnerUsage, add_comm]

/-! ### Removing -/

theorem Indexed.eraseEntry (hc : Indexed env pool)
    (he : pool.mapTx.lookup hash = some entry) : Indexed env (pool.eraseEntry hash entry) := by
  have hlook : ∀ {h e}, (pool.mapTx.erase hash).lookup h = some e ↔ h ≠ hash ∧ pool.mapTx.lookup h = some e := by
    intro h e
    by_cases hh : h = hash
    · subst hh
      simp
    · simp [hh]
  constructor
  · intro h e h'
    exact hc.key h e (hlook.1 h').2
  · intro o p
    show (pool.mapNextTx.eraseAll _).lookup o = some p ↔ ∃ e txin, (pool.mapTx.erase hash).lookup p.ptx = some e ∧ _
    rw [KeyMap.lookup_eraseAll]
    constructor
    · intro h
      split at h
      · cases h
      · rename_i hnot
        obtain ⟨e, txin, hp, htxin, rfl⟩ := (hc.mapNextTx o p).1 h
        refine ⟨e, txin, hlook.2 ⟨fun heq => hnot ?_, hp⟩, htxin, rfl⟩
        rw [heq, he] at hp
        cases hp
        exact mem_map_of_mem (mem_of_getElem? htxin)
    · rintro ⟨e, txin, hp, htxin, rfl⟩
      obtain ⟨hne, hp⟩ := hlook.1 hp
      have hentry := (hc.mapNextTx txin.prevout p).2 ⟨e, txin, hp, htxin, rfl⟩
      rw [if_neg]
      · exact hentry
      · intro hmem
        -- the index has one entry for each outpoint
        obtain ⟨txin', hin', heq⟩ := mem_map.1 hmem
        obtain ⟨i, hi⟩ := mem_iff_getElem?.1 hin'
        have hother := (hc.mapNextTx txin.prevout ⟨hash, i⟩).2 ⟨entry, txin', he, hi, heq⟩
        cases hentry.symm.trans hother
        exact hne rfl
  · intro nf h
    show (pool.mapNullifiers.eraseAll _).lookup nf = some h ↔ ∃ e, (pool.mapTx.erase hash).lookup h = some e ∧ _
    rw [KeyMap.lookup_eraseAll]
    constructor
    · intro hnf
      split at hnf
      · cases hnf
      · rename_i hnot
        obtain ⟨e, hp, hin⟩ := (hc.mapNullifiers nf h).1 hnf
        refine ⟨e, hlook.2 ⟨fun heq => hnot ?_, hp⟩, hin⟩
        rw [heq, he] at hp
        cases hp
        exact hin
    · rintro ⟨e, hp, hin⟩
      obtain ⟨hne, hp⟩ := hlook.1 hp
      have hentry := (hc.mapNullifiers nf h).2 ⟨e, hp, hin⟩
      rw [if_neg]
      · exact hentry
      · intro hmem
        have hother := (hc.mapNullifiers nf hash).2 ⟨entry, he, hmem⟩
        cases hentry.symm.trans hother
        exact hne rfl

theorem Consistent.eraseEntry (hc : Consistent env pool)
    (he : pool.mapTx.lookup hash = some entry) : Consistent env (pool.eraseEntry hash entry) := by
  have hidx := hc.indexed.eraseEntry he
  refine ⟨hidx.key, hidx.mapNextTx, hidx.mapNullifiers, ?_, ?_⟩
  · show pool.totalTxSize - entry.nTxSize = KeyMap.total _ (pool.mapTx.erase hash)
    rw [hc.totalTxSize, KeyMap.total_erase _ he, add_sub_cancel_left]
  · show pool.cachedInnerUsage - entry.nUsageSize = KeyMap.total _ (pool.mapTx.erase hash)
    rw [hc.cachedInnerUsage, KeyMap.total_erase _ he, add_sub_cancel_left]

theorem Indexed.spenders_ok (hc : Indexed env pool) (hash : Uint256) (n : Nat) :
    ∃ hashes, pool.spenders env hash n = .ok hashes ∧
      ∀ h, h ∈ hashes ↔ ∃ i < n, ∃ p, pool.mapNextTx.lookup ⟨hash, i⟩ = some p ∧ p.ptx = h := by
  induction n with
  | zero => exact ⟨[], rfl, by simp⟩
  | succ n ih =>
    obtain ⟨hashes, hn, hmem⟩ := ih
    simp only [Nat.lt_succ_iff_lt_or_eq, or_and_right, exists_or, exists_eq_left, ← hmem]
    rw [spenders, hn]
    simp only [bind, Except.bind]
    split
    · rename_i hnone
      exact ⟨hashes, rfl, by simp [hnone]⟩
    · rename_i p hp
      obtain ⟨e, txin, he, -⟩ := (hc.mapNextTx _ p).1 hp
      rw [getTx, he]
      refine ⟨_, rfl, fun h => ?_⟩
      simp [hp, hc.key p.ptx e he, eq_comm]

theorem Consistent.removeLoop_ok (hc : Consistent env pool) (fRecursive : Bool)
    (txToRemove : List Uint256) (removed : List CTransaction) :
    ∃ r, pool.removeLoop env fRecursive txToRemove removed = .ok r := by
  induction txToRemove, removed, pool using removeLoop.induct with
  | case1 removed pool => exact ⟨(pool, removed), by rw [removeLoop]⟩
  | case2 removed pool hash txToRemove hnone ih =>
    rw [removeLoop_none hnone]
    exact ih hc
  | case3 removed pool hash txToRemove entry hsome ih =>
    rw [removeLoop_some hsome]
    cases fRecursive with
    | false => exact ih [] (hc.eraseEntry hsome)
    | true =>
      obtain ⟨children, hkids, -⟩ := hc.indexed.spenders_ok hash entry.tx.vout.length
      rw [if_pos rfl, hkids]
      exact ih children (hc.eraseEntry hsome)

/-- Entries leave the pool one after the other. -/
inductive Shrinks : CTxMemPool → CTxMemPool → Prop
  | refl (pool : CTxMemPool) : Shrinks pool pool
  | erase {pool : CTxMemPool} {hash : Uint256} {entry} {pool' : CTxMemPool} (h : pool.mapTx.lookup hash = some entry)
      (rest : Shrinks (pool.eraseEntry hash entry) pool') : Shrinks pool pool'

theorem Shrinks.trans {pool'' : CTxMemPool} (h : Shrinks pool pool') (h' : Shrinks pool' pool'') :
    Shrinks pool pool'' := by
  induction h with
  | refl => exact h'
  | erase hentry _ ih => exact .erase hentry (ih h')

theorem Shrinks.consistent (h : Shrinks pool pool') (hc : Consistent env pool) :
    Consistent env pool' := by
  induction h with
  | refl => exact hc
  | erase hentry _ ih => exact ih (hc.eraseEntry hentry)

theorem shrinks_removeLoop {fRecursive : Bool} {txToRemove : List Uint256} {removed : List CTransaction}
    {r : CTxMemPool × List CTransaction}
    (h : pool.removeLoop env fRecursive txToRemove removed = .ok r) : Shrinks pool r.1 := by
  induction txToRemove, removed, pool using removeLoop.induct with
  | case1 removed pool =>
    rw [removeLoop] at h
    cases h
    exact .refl pool
  | case2 removed pool hash txToRemove hnone ih =>
    rw [removeLoop_none hnone] at h
    exact ih h
  | case3 removed pool hash txToRemove entry hsome ih =>
    rw [removeLoop_some hsome] at h
    obtain ⟨children, -, h⟩ := except_bind_ok.1 h
    exact .erase hsome (ih children h)

/-- What a routine does to a consistent pool: it comes to an end, and only removes entries. -/
def Removes (env : Env) (pool : CTxMemPool) {α : Type} (run : Except Fault α) (pool' : α → CTxMemPool) : Prop :=
  Consistent env pool → ∃ a, run = .ok a ∧ Shrinks pool (pool' a)

theorem Removes.bind {α β : Type} {run : Except Fault α} {pool1 : α → CTxMemPool}
    {next : α → Except Fault β} {pool2 : β → CTxMemPool} (h : Removes env pool run pool1)
    (h' : ∀ a, Removes env (pool1 a) (next a) pool2) : Removes env pool (run >>= next) pool2 := by
  intro hc
  obtain ⟨a, rfl, hfirst⟩ := h hc
  obtain ⟨b, hb, hsnd⟩ := h' a (hfirst.consistent hc)
  exact ⟨b, hb, hfirst.trans hsnd⟩

theorem remove_removes (origTx : CTransaction) (fRecursive : Bool) (removed : List CTransaction) (pool : CTxMemPool) :
    Removes env pool (pool.remove env origTx fRecursive removed) Prod.fst := by
  intro hc
  obtain ⟨children, hkids⟩ : ∃ children, (if fRecursive && (pool.mapTx.lookup (env.getHash origTx)).isNone then
      pool.spenders env (env.getHash origTx) origTx.vout.length else pure []) = .ok children := by
    split
    · obtain ⟨children, hkids, -⟩ := hc.indexed.spenders_ok (env.getHash origTx) origTx.vout.length
      exact ⟨children, hkids⟩
    · exact ⟨[], rfl⟩
  obtain ⟨r, hr⟩ := hc.removeLoop_ok fRecursive (env.getHash origTx :: children) removed
  refine ⟨r, ?_, shrinks_removeLoop hr⟩
  rw [remove, hkids]
  exact hr

theorem removeEach_removes (txs : List CTransaction) (pool : CTxMemPool) :
    Removes env pool (pool.removeEach env txs) id := by
  induction txs generalizing pool with
  | nil => exact fun _ => ⟨pool, rfl, .refl pool⟩
  | cons tx txs ih => exact (remove_removes tx true [] pool).bind fun r => ih r.1

theorem spendsImmature_ok (hcheck : pool.fSanityCheck = false)
    (accessCoins : Uint256 → Option CCoins) (nMemPoolHeight : Int) (vin : List CTxIn) :
    ∃ b, pool.spendsImmature accessCoins nMemPoolHeight vin = .ok b := by
  induction vin with
  | nil => exact ⟨false, rfl⟩
  | cons txin vin ih =>
    unfold spendsImmature
    split
    · exact ih
    · split
      · rw [hcheck]
        exact ⟨true, rfl⟩
      · split
        · exact ⟨true, rfl⟩
        · exact ih

theorem collectImmature_ok (hcheck : pool.fSanityCheck = false)
    (accessCoins : Uint256 → Option CCoins) (nMemPoolHeight : Int)
    (entries : List (Sigma fun _ : Uint256 => CTxMemPoolEntry)) :
    ∃ txs, pool.collectImmature accessCoins nMemPoolHeight entries = .ok txs := by
  induction entries with
  | nil => exact ⟨[], rfl⟩
  | cons entry entries ih =>
    obtain ⟨immature, hentry⟩ := spendsImmature_ok hcheck accessCoins nMemPoolHeight entry.2.tx.vin
    obtain ⟨txs, hents⟩ := ih
    rw [collectImmature, hentry, hents]
    exact ⟨_, rfl⟩

variable (tx : CTransaction)

theorem removeConflict_removes {ptx : Option Uint256} (removed : List CTransaction)
    (hptx : Consistent env pool → ∀ p ∈ ptx, ∃ e, pool.mapTx.lookup p = some e) :
    Removes env pool (pool.removeConflict env tx ptx removed) Prod.fst := by
  intro hc
  cases ptx with
  | none => exact ⟨(pool, removed), rfl, .refl pool⟩
  | some p =>
    obtain ⟨e, he⟩ := hptx hc p rfl
    rw [removeConflict, getTx, he]
    simp only [bind, Except.bind]
    split
    · exact remove_removes e.tx true removed pool hc
    · exact ⟨(pool, removed), rfl, .refl pool⟩

theorem removeSpenders_removes (vin : List CTxIn) (removed : List CTransaction) (pool : CTxMemPool) :
    Removes env pool (pool.removeSpenders env tx vin removed) Prod.fst := by
  induction vin generalizing removed pool with
  | nil => exact fun _ => ⟨(pool, removed), rfl, .refl pool⟩
  | cons txin vin ih =>
    refine (removeConflict_removes tx removed fun hc p hp => ?_).bind fun r => ih r.2 r.1
    obtain ⟨inPoint, hin, rfl⟩ := Option.map_eq_some_iff.1 hp
    obtain ⟨e, txin', he, -⟩ := (hc.mapNextTx _ inPoint).1 hin
    exact ⟨e, he⟩

theorem removeRevealers_removes (nullifiers : List Uint256) (removed : List CTransaction)
    (pool : CTxMemPool) : Removes env pool (pool.removeRevealers env tx nullifiers removed) Prod.fst := by
  induction nullifiers generalizing removed pool with
  | nil => exact fun _ => ⟨(pool, removed), rfl, .refl pool⟩
  | cons nf nullifiers ih =>
    refine (removeConflict_removes tx removed fun hc p hp => ?_).bind fun r => ih r.2 r.1
    obtain ⟨e, he, -⟩ := (hc.mapNullifiers nf p).1 hp
    exact ⟨e, he⟩

theorem removeConflicts_removes (removed : List CTransaction) (pool : CTxMemPool) :
    Removes env pool (pool.removeConflicts env tx removed) Prod.fst :=
  (removeSpenders_removes tx tx.vin removed pool).bind fun r => removeRevealers_removes tx tx.nullifiers r.2 r.1

theorem removeForBlock_removes (vtx conflicts : List CTransaction) (pool : CTxMemPool) :
    Removes env pool (pool.removeForBlock env vtx conflicts) Prod.fst := by
  induction vtx generalizing conflicts pool with
  | nil => exact fun _ => ⟨(pool, conflicts), rfl, .refl pool⟩
  | cons tx vtx ih =>
    exact (remove_removes tx false [] pool).bind fun r =>
      (removeConflicts_removes tx conflicts r.1).bind fun r' => ih r'.2 r'.1

/-- No transaction of the pool has a JoinSplit. -/
def RevealsNothing (pool : CTxMemPool) : Prop := ∀ h e, pool.mapTx.lookup h = some e → e.tx.nullifiers = []

theorem Consistent.clear_iff (hc : Consistent env pool) :
    Consistent env pool.clear ↔ pool.RevealsNothing := by
  constructor
  · intro hclear h e he
    rw [eq_nil_iff_forall_not_mem]
    intro nf hnf
    have hindex := (hc.mapNullifiers nf h).2 ⟨e, he, hnf⟩
    obtain ⟨e', he', -⟩ := (hclear.mapNullifiers nf h).1 hindex
    exact absurd he' (by simp [clear])
  · intro hnone
    refine ⟨?_, ?_, ?_, rfl, rfl⟩
    · intro h e he
      exact absurd he (by simp [clear])
    · simp [clear]
    · intro nf h
      constructor
      · intro hindex
        obtain ⟨e, he, hnf⟩ := (hc.mapNullifiers nf h).1 hindex
        rw [hnone h e he] at hnf
        exact absurd hnf not_mem_nil
      · rintro ⟨e, he, -⟩
        exact absurd he (by simp [clear])

end CTxMemPool

/-! ### Runs -/

open CTxMemPool

inductive PoolOp where
  | addUnchecked (entry : CTxMemPoolEntry)
  | remove (origTx : CTransaction) (fRecursive : Bool)
  | removeConflicts (tx : CTransaction)
  | removeForBlock (vtx : List CTransaction)
  | removeWithAnchor (invalidRoot : Uint256)
  | removeCoinbaseSpends (accessCoins : Uint256 → Option CCoins) (nMemPoolHeight : Int)
  | clear

namespace PoolOp

variable {env : Env}

def exec (env : Env) : PoolOp → CTxMemPool → Except Fault CTxMemPool
  | addUnchecked entry, pool => .ok (pool.addUnchecked (env.getHash entry.tx) entry)
  | remove origTx fRecursive, pool => (pool.remove env origTx fRecursive []).map Prod.fst
  | removeConflicts tx, pool => (pool.removeConflicts env tx []).map Prod.fst
  | removeForBlock vtx, pool => (pool.removeForBlock env vtx []).map Prod.fst
  | removeWithAnchor invalidRoot, pool => pool.removeWithAnchor env invalidRoot
  | removeCoinbaseSpends accessCoins nMemPoolHeight, pool => pool.removeCoinbaseSpends env accessCoins nMemPoolHeight
  | clear, pool => .ok pool.clear

/-- What a caller sees to before a call. -/
def Allowed (env : Env) : PoolOp → CTxMemPool → Prop
  | addUnchecked entry, pool => Addable env entry pool
  | _, _ => True

theorem shrinks_of_removes {run : Except Fault (CTxMemPool × List CTransaction)}
    (h : Removes env pool run Prod.fst) (hc : Consistent env pool) (hrun : run.map Prod.fst = .ok pool') :
    Shrinks pool pool' := by
  obtain ⟨r, rfl, hr⟩ := h hc
  cases hrun
  exact hr

/-- A call keeps a consistent pool consistent, unless it is `clear` on a pool that reveals something. -/
theorem consistent_exec {op : PoolOp} (hc : Consistent env pool) (ha : op.Allowed env pool)
    (hclear : op = .clear → pool.RevealsNothing) (hexec : op.exec env pool = .ok pool') : Consistent env pool' := by
  cases op with
  | addUnchecked entry =>
    cases hexec
    exact hc.addUnchecked ha
  | remove origTx fRecursive => exact (shrinks_of_removes (remove_removes _ _ _ _) hc hexec).consistent hc
  | removeConflicts tx => exact (shrinks_of_removes (removeConflicts_removes _ _ _) hc hexec).consistent hc
  | removeForBlock vtx => exact (shrinks_of_removes (removeForBlock_removes _ _ _) hc hexec).consistent hc
  | removeWithAnchor invalidRoot =>
    obtain ⟨r, hr, hshrinks⟩ := removeEach_removes _ _ hc
    cases hexec.symm.trans hr
    exact hshrinks.consistent hc
  | removeCoinbaseSpends accessCoins nMemPoolHeight =>
    obtain ⟨txs, -, hexec⟩ := except_bind_ok.1 hexec
    obtain ⟨r, hr, hshrinks⟩ := removeEach_removes txs _ hc
    cases hexec.symm.trans hr
    exact hshrinks.consistent hc
  | clear =>
    cases hexec
    exact hc.clear_iff.2 (hclear rfl)

/-- On a consistent pool every call comes to an end, and follows no dangling pointer. -/
theorem exec_ok {op : PoolOp} (hc : Consistent env pool) (hcheck : pool.fSanityCheck = false) :
    ∃ pool', op.exec env pool = .ok pool' := by
  have hmap : ∀ {run : Except Fault (CTxMemPool × List CTransaction)}, Removes env pool run Prod.fst →
      ∃ pool', run.map Prod.fst = .ok pool' := by
    intro run h
    obtain ⟨r, rfl, -⟩ := h hc
    exact ⟨r.1, rfl⟩
  cases op with
  | addUnchecked entry => exact ⟨_, rfl⟩
  | remove origTx fRecursive => exact hmap (remove_removes _ _ _ _)
  | removeConflicts tx => exact hmap (removeConflicts_removes _ _ _)
  | removeForBlock vtx => exact hmap (removeForBlock_removes _ _ _)
  | removeWithAnchor invalidRoot =>
    obtain ⟨r, hr, -⟩ := removeEach_removes _ _ hc
    exact ⟨r, hr⟩
  | removeCoinbaseSpends accessCoins nMemPoolHeight =>
    obtain ⟨txs, htxs⟩ := collectImmature_ok hcheck accessCoins nMemPoolHeight pool.mapTx.entries
    obtain ⟨r, hr, -⟩ := removeEach_removes txs _ hc
    refine ⟨r, ?_⟩
    rw [exec, CTxMemPool.removeCoinbaseSpends, htxs]
    exact hr
  | clear => exact ⟨_, rfl⟩

/-- Calls one after the other, with the pools they were made on, the last call first. -/
inductive Run (env : Env) : List (PoolOp × CTxMemPool) → CTxMemPool → Prop
  | start (fSanityCheck : Bool) : Run env [] { fSanityCheck }
  | step {log : List (PoolOp × CTxMemPool)} {pool pool' : CTxMemPool} {op : PoolOp} (run : Run env log pool)
      (allowed : op.Allowed env pool) (exec : op.exec env pool = .ok pool') : Run env ((op, pool) :: log) pool'

end PoolOp

/-- The pool stays consistent throughout a run if and only if `clear` is only called on pools that reveal nothing; and
from a consistent pool the run can go on with any call. -/
theorem consistent_run_iff (env : Env) (log : List (PoolOp × CTxMemPool)) (pool : CTxMemPool)
    (hrun : PoolOp.Run env log pool) :
    ((∀ x ∈ log, Consistent env x.2) ∧ Consistent env pool ↔ ∀ x ∈ log, x.1 = .clear → x.2.RevealsNothing) ∧
      (Consistent env pool → pool.fSanityCheck = false → ∀ op : PoolOp, ∃ pool', op.exec env pool = .ok pool') := by
  refine ⟨?_, fun hc hcheck op => PoolOp.exec_ok hc hcheck⟩
  induction hrun with
  | start fSanityCheck =>
    exact ⟨fun _ x hx => absurd hx not_mem_nil, fun _ => ⟨fun x hx => absurd hx not_mem_nil,
      consistent_empty fSanityCheck⟩⟩
  | @step log pool pool' op run allowed exec ih =>
    simp only [forall_mem_cons]
    constructor
    · rintro ⟨⟨hpool, hlog⟩, hpool'⟩
      refine ⟨?_, ih.1 ⟨hlog, hpool⟩⟩
      rintro rfl
      cases exec
      exact hpool.clear_iff.1 hpool'
    · rintro ⟨hclear, hlog⟩
      obtain ⟨hlog', hpool⟩ := ih.2 hlog
      exact ⟨⟨hpool, hlog'⟩, PoolOp.consistent_exec hpool allowed hclear exec⟩

/-- A transaction that reveals the nullifiers 5 and 6. -/
def revealingEntry : CTxMemPoolEntry where
  tx := ⟨2, [], [], [⟨0, 0, 1, #v[6, 5], .replicate _ 0, 0, .replicate _ nullCiphertext, 0,
    .replicate _ 0, {}⟩], 11, 0, nullSig⟩
  nTxSize := 1900
  nUsageSize := 2000

theorem addable_revealingEntry : Addable plainEnv revealingEntry {} :=
  ⟨rfl, by decide, by decide, fun _ _ he => (nomatch he), fun _ _ he => (nomatch he)⟩

theorem run_revealingEntry : PoolOp.Run plainEnv [(.addUnchecked revealingEntry, {})]
    (CTxMemPool.addUnchecked 11 revealingEntry {}) :=
  .step (.start false) addable_revealingEntry rfl

/-- The pool with the transaction is consistent. -/
theorem consistent_run_iff_revealingEntry : Consistent plainEnv (CTxMemPool.addUnchecked 11 revealingEntry {}) := by
  refine ((consistent_run_iff plainEnv _ _ run_revealingEntry).1.2 fun x hx hclear => ?_).2
  rw [mem_singleton.1 hx] at hclear
  cases hclear

/-- Cleared, it has no transaction, and an entry for each of the nullifiers. -/
theorem clear_keeps_nullifiers : ∃ pool : CTxMemPool,
    PoolOp.Run plainEnv [(.clear, CTxMemPool.addUnchecked 11 revealingEntry {}), (.addUnchecked revealingEntry, {})] pool ∧
      pool.mapTx.entries = [] ∧ pool.mapNullifiers.lookup 5 = some 11 ∧ pool.mapNullifiers.lookup 6 = some 11 :=
  ⟨_, .step run_revealingEntry trivial rfl, rfl, rfl, rfl⟩

end LitecoinZ
