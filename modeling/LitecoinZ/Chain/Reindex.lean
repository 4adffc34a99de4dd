import LitecoinZ.Chain.DiskBlockIndex

/-!
# Reading the block files again

`LoadExternalBlockFile` of `main.cpp` scans a file for records and hands the blocks over to `ProcessNewBlock`.  A block whose
parent is not known waits in `mapBlocksUnknownParent`, which outlives the call, until the parent comes; then a worklist takes
up all that waited for it.  Whatever the order of the records and the files, the blocks that are connected to the genesis
block are processed once, after their parents, and the others wait (`loadFiles_connected`).
-/

namespace LitecoinZ

open List hiding Vector 

/-- What `ProcessNewBlock` leaves and reports. -/
structure Processed where
  mapBlockIndex : KeyMap Uint256 Bool
  ok : Bool
  isError : Bool

/-- What `LoadExternalBlockFile` asks the rest of the node. -/
structure ReindexEnv where
  messageStart : Vector UInt8 4
  hashGenesisBlock : Uint256
  getHash : CBlock → Uint256
  /-- The reading of a `CBlock` from a stream. -/
  unserialize : List UInt8 → Except Fault (CBlock × List UInt8)
  readBlockFromDisk : CDiskBlockPos → Option CBlock
  processNewBlock : KeyMap Uint256 Bool → CBlock → Option CDiskBlockPos → Processed

/-- The part of the node that is involved.  The index says of a block whether `BLOCK_HAVE_DATA` is set; the entries of one key of
the multimap are in the order of their insertion. -/
structure Reindex where
  mapBlockIndex : KeyMap Uint256 Bool
  mapBlocksUnknownParent : List (Uint256 × CDiskBlockPos) := []
  nLoaded : Nat := 0
  /-- The calls of `ProcessNewBlock` so far. -/
  calls : List (CBlock × Option CDiskBlockPos) := []

variable (env : ReindexEnv)

namespace Reindex

def process (block : CBlock) (dbp : Option CDiskBlockPos) (s : Reindex) : Reindex :=
  { s with
    mapBlockIndex := (env.processNewBlock s.mapBlockIndex block dbp).mapBlockIndex
    nLoaded := if (env.processNewBlock s.mapBlockIndex block dbp).ok then s.nLoaded + 1 else s.nLoaded
    calls := s.calls ++ [(block, dbp)] }

/-- The worklist takes up a block that waited. -/
def processChild (p : Reindex × List Uint256) (pos : CDiskBlockPos) : Reindex × List Uint256 :=
  match env.readBlockFromDisk pos with
  | none => p
  | some block =>
    (p.1.process env block (some pos),
      if (env.processNewBlock p.1.mapBlockIndex block (some pos)).ok then p.2 ++ [env.getHash block] else p.2)

def range (head : Uint256) (s : Reindex) : List CDiskBlockPos :=
  (s.mapBlocksUnknownParent.filter fun e => e.1 = head).map Prod.snd

/-- A round of the worklist. -/
def processChildren (head : Uint256) (queue : List Uint256) (s : Reindex) : Reindex × List Uint256 :=
  let p := (s.range head).foldl (processChild env) (s, queue)
  ({ p.1 with mapBlocksUnknownParent := s.mapBlocksUnknownParent.filter fun e => e.1 ≠ head }, p.2)

private theorem length_foldl_processChild (positions : List CDiskBlockPos) (p : Reindex × List Uint256) :
    (positions.foldl (processChild env) p).2.length ≤ p.2.length + positions.length := by
  induction positions generalizing p with
  | nil => exact Nat.le_refl _
  | cons pos positions ih =>
    have hstep : (processChild env p pos).2.length ≤ p.2.length + 1 := by
      unfold processChild
      split
      · omega
      · dsimp only
        split
        · rw [length_append, length_singleton]
        · omega
    have := ih (processChild env p pos)
    rw [foldl_cons, length_cons]
    omega

theorem processChildren_decreases (head : Uint256) (queue : List Uint256) (s : Reindex) :
    (processChildren env head queue s).2.length + (processChildren env head queue s).1.mapBlocksUnknownParent.length ≤
      queue.length + s.mapBlocksUnknownParent.length := by
  have hqueue := length_foldl_processChild env (s.range head) (s, queue)
  have hsplit := length_eq_length_filter_add (l := s.mapBlocksUnknownParent) fun e => decide (e.1 = head)
  have hrange : (s.range head).length = (s.mapBlocksUnknownParent.filter fun e => e.1 = head).length := length_map _
  have hrest : (processChildren env head queue s).1.mapBlocksUnknownParent =
      s.mapBlocksUnknownParent.filter fun e => !decide (e.1 = head) := by
    simp only [processChildren, decide_not]
  rw [hrest]
  change (foldl (processChild env) (s, queue) (s.range head)).2.length + _ ≤ _
  dsimp only at hqueue
  omega

/-- `while (!queue.empty())`: every round takes a block off the queue or out of those that wait. -/
def drain (env : ReindexEnv) : List Uint256 → Reindex → Reindex
  | [], s => s
  | head :: queue, s => drain env (processChildren env head queue s).2 (processChildren env head queue s).1
termination_by queue s => queue.length + s.mapBlocksUnknownParent.length
decreasing_by
  have := processChildren_decreases env head queue s
  rw [length_cons]
  omega

def haveData (hash : Uint256) (s : Reindex) : Bool := s.mapBlockIndex.lookup hash = some true

/-- A block that was read; the result says whether the file is given up. -/
def receive (dbp : Option CDiskBlockPos) (block : CBlock) (s : Reindex) : Reindex × Bool :=
  if env.getHash block ≠ env.hashGenesisBlock && (s.mapBlockIndex.lookup block.header.hashPrevBlock).isNone then
    -- out of order
    match dbp with
    | none => (s, false)
    | some pos =>
      ({ s with mapBlocksUnknownParent := s.mapBlocksUnknownParent ++ [(block.header.hashPrevBlock, pos)] }, false)
  else if s.haveData (env.getHash block) then (drain env [env.getHash block] s, false)
  else if (env.processNewBlock s.mapBlockIndex block dbp).isError then (s.process env block dbp, true)
  else (drain env [env.getHash block] (s.process env block dbp), false)

/-- The loop over a file, from a position on.  `CBufferedFile` is the bytes that are left. -/
def scan (env : ReindexEnv) (dbp : Option CDiskBlockPos) (nRewind : Nat) (bytes : List UInt8) (s : Reindex) : Reindex :=
  -- FindByte
  match hfound : bytes.dropWhile fun b => b ≠ env.messageStart[0] with
  | [] => s
  | b :: rest =>
    let start := nRewind + (bytes.length - (b :: rest).length)
    if (b :: rest).length < 4 then s
    else if (b :: rest).take 4 ≠ env.messageStart.toList then scan env dbp (start + 1) rest s
    else
      match (uintLE 4).get ((b :: rest).drop 4) with
      | .error _ => s
      | .ok (nSize, _) =>
        if nSize < 80 || nSize > MAX_BLOCK_SIZE then scan env dbp (start + 1) rest s
        else
          let nBlockPos := start + 8
          let data := ((b :: rest).drop 8).take nSize
          match env.unserialize data with
          | .error _ => scan env dbp (start + 1) rest s
          | .ok (block, left) =>
            let nRead := data.length - left.length
            let p := s.receive env (dbp.map fun pos => { pos with nPos := nBlockPos % 2 ^ 32 }) block
            if p.2 then p.1 else scan env dbp (nBlockPos + nRead) ((b :: rest).drop (8 + nRead)) p.1
termination_by bytes.length
decreasing_by
  all_goals
    have hle : (b :: rest).length ≤ bytes.length := by
      rw [← hfound]
      exact (dropWhile_suffix _).length_le
    simp only [length_cons, length_drop] at hle ⊢
    omega

def loadExternalBlockFile (dbp : Option CDiskBlockPos) (file : List UInt8) (s : Reindex) : Bool × Reindex :=
  let s := scan env dbp 0 file { s with nLoaded := 0 }
  (s.nLoaded > 0, s)

def loadFiles (env : ReindexEnv) (s : Reindex) : List (Int × List UInt8) → Reindex
  | [] => s
  | (nFile, file) :: files => loadFiles env (s.loadExternalBlockFile env (some ⟨nFile, 0⟩) file).2 files

end Reindex

/-! ### Block files -/

/-- A record of a block file, with the bytes before it that belong to no record. -/
structure StoredBlock where
  gap : List UInt8
  block : CBlock
  data : List UInt8

namespace StoredBlock

def bytes (r : StoredBlock) : List UInt8 :=
  r.gap ++ (env.messageStart.toList ++ ((uintLE 4).put r.data.length ++ r.data))

structure WellFormed (env : ReindexEnv) (r : StoredBlock) : Prop where
  gap : ∀ b ∈ r.gap, b ≠ env.messageStart[0]
  min : 80 ≤ r.data.length
  max : r.data.length ≤ MAX_BLOCK_SIZE
  data : env.unserialize r.data = .ok (r.block, [])

theorem length_bytes (r : StoredBlock) : (r.bytes env).length = r.gap.length + 8 + r.data.length := by
  simp only [bytes, length_append, Vector.length_toList, uintLE, Codec.length_put_le]
  omega

end StoredBlock

def storedFrom (env : ReindexEnv) (nFile : Int) : (start : Nat) → List StoredBlock → List (CBlock × CDiskBlockPos)
  | _, [] => []
  | start, r :: records =>
    (r.block, ⟨nFile, start + r.gap.length + 8⟩) :: storedFrom env nFile (start + (r.bytes env).length) records

/-- A file of records, and bytes behind the last one. -/
structure BlockFile where
  nFile : Int
  records : List StoredBlock
  padding : List UInt8

namespace BlockFile

def bytes (env : ReindexEnv) (f : BlockFile) : List UInt8 := f.records.flatMap (StoredBlock.bytes env) ++ f.padding

def stored (f : BlockFile) : List (CBlock × CDiskBlockPos) := storedFrom env f.nFile 0 f.records

structure WellFormed (env : ReindexEnv) (f : BlockFile) : Prop where
  records : ∀ r ∈ f.records, r.WellFormed env
  padding : ∀ b ∈ f.padding, b ≠ env.messageStart[0]

end BlockFile

namespace Reindex

variable {env : ReindexEnv} {s : Reindex} {dbp : Option CDiskBlockPos}

private theorem toList_four (v : Vector UInt8 4) : v.toList = [v[0], v[1], v[2], v[3]] := by
  rcases v with ⟨⟨l⟩, hl⟩
  match l, hl with
  | [_, _, _, _], _ => rfl

theorem scan_record {r : StoredBlock} (hr : r.WellFormed env) (rest : List UInt8) (start : Nat) :
    scan env dbp start (r.bytes env ++ rest) s =
      if (s.receive env (dbp.map fun pos => { pos with nPos := (start + r.gap.length + 8) % 2 ^ 32 }) r.block).2 then
        (s.receive env (dbp.map fun pos => { pos with nPos := (start + r.gap.length + 8) % 2 ^ 32 }) r.block).1
      else scan env dbp (start + (r.bytes env).length) rest
        (s.receive env (dbp.map fun pos => { pos with nPos := (start + r.gap.length + 8) % 2 ^ 32 }) r.block).1 := by
  have hsize : (uintLE 4).get ((uintLE 4).put r.data.length ++ (r.data ++ rest)) = .ok (r.data.length, r.data ++ rest) := by
    refine (exact_uintLE 4).decodes _ ?_ _
    have := hr.max
    rw [MAX_BLOCK_SIZE] at this
    omega
  have hmin := hr.min
  have hmax := hr.max
  -- what is left when the first byte of the record has been found
  obtain ⟨tail, htail⟩ : ∃ tail, env.messageStart.toList ++ ((uintLE 4).put r.data.length ++ (r.data ++ rest)) =
      env.messageStart[0] :: tail := by
    rw [toList_four env.messageStart]
    exact ⟨_, rfl⟩
  have hput : ((uintLE 4).put r.data.length).length = 4 := by simp only [uintLE, Codec.length_put_le]
  have hbytes : r.bytes env ++ rest = r.gap ++ env.messageStart[0] :: tail := by
    rw [← htail]
    simp only [StoredBlock.bytes, append_assoc]
  have hfound : (r.bytes env ++ rest).dropWhile (fun b => b ≠ env.messageStart[0]) = env.messageStart[0] :: tail := by
    rw [hbytes, dropWhile_append_of_pos fun b hb => decide_eq_true (hr.gap b hb)]
    exact dropWhile_cons_of_neg (by simp)
  have htake : (env.messageStart[0] :: tail).take 4 = env.messageStart.toList := by
    rw [← htail]
    exact take_left' Vector.length_toList
  have hfour : (env.messageStart[0] :: tail).drop 4 = (uintLE 4).put r.data.length ++ (r.data ++ rest) := by
    rw [← htail]
    exact drop_left' Vector.length_toList
  have height : (env.messageStart[0] :: tail).drop 8 = r.data ++ rest := by
    have := congrArg (drop 4) hfour
    rw [drop_drop, drop_left' hput] at this
    exact this
  have hlen : (env.messageStart[0] :: tail).length = 8 + (r.data.length + rest.length) := by
    rw [← htail, length_append, length_append, length_append, Vector.length_toList, hput]
    omega
  have hstart : (r.bytes env ++ rest).length - (env.messageStart[0] :: tail).length = r.gap.length := by
    rw [hbytes, length_append, Nat.add_sub_cancel]
  have hread : (r.data ++ rest).take r.data.length = r.data := take_left' rfl
  have hdrop : (env.messageStart[0] :: tail).drop (8 + r.data.length) = rest := by
    rw [← drop_drop, height]
    exact drop_left' rfl
  rw [scan]
  split
  · rename_i hnone
    rw [hfound] at hnone
    cases hnone
  · rename_i b tail' hsome
    obtain ⟨rfl, rfl⟩ := cons.inj (hfound.symm.trans hsome)
    rw [if_neg (by omega), if_neg (not_not.2 htake), hfour, hsize]
    dsimp only
    rw [if_neg (by simp only [Bool.or_eq_true, decide_eq_true_eq]; omega), height, hread, hr.data]
    dsimp only
    rw [hstart, length_nil, Nat.sub_zero, hdrop, StoredBlock.length_bytes]
    have hnext : start + r.gap.length + 8 + r.data.length = start + (r.gap.length + 8 + r.data.length) := by omega
    rw [hnext]

variable {padding : List UInt8} {l l' : List (CBlock × CDiskBlockPos)} {blocks : List CBlock}

theorem scan_padding (h : ∀ b ∈ padding, b ≠ env.messageStart[0]) (start : Nat) :
    scan env dbp start padding s = s := by
  have hnone : padding.dropWhile (fun b => b ≠ env.messageStart[0]) = [] := by
    rw [← append_nil padding, dropWhile_append_of_pos fun b hb => decide_eq_true (h b hb)]
    rfl
  rw [scan]
  split
  · rfl
  · rename_i hsome
    rw [hnone] at hsome
    cases hsome

/-! ### What is done and what waits -/

/-- What is assumed of the rest of the node: a block whose parent is known is accepted. -/
def AcceptsChildren (env : ReindexEnv) : Prop :=
  ∀ index block dbp, block.header.hashPrevBlock ∈ index →
    (env.processNewBlock index block dbp).ok = true ∧ (env.processNewBlock index block dbp).isError = false ∧
    ∀ hash, hash ∈ (env.processNewBlock index block dbp).mapBlockIndex ↔ hash = env.getHash block ∨ hash ∈ index

/-- Blocks that are stored once, at positions where they can be read. -/
structure StoredOnce (env : ReindexEnv) (stored : List (CBlock × CDiskBlockPos)) : Prop where
  nodup : (stored.map fun x => env.getHash x.1).Nodup
  genesis : ∀ x ∈ stored, env.getHash x.1 ≠ env.hashGenesisBlock
  read : ∀ x ∈ stored, env.readBlockFromDisk x.2 = some x.1

theorem StoredOnce.perm (h : StoredOnce env l) (hperm : l.Perm l') :
    StoredOnce env l' where
  nodup := (hperm.map _).nodup_iff.1 h.nodup
  genesis x hx := h.genesis x (hperm.mem_iff.2 hx)
  read x hx := h.read x (hperm.mem_iff.2 hx)

theorem StoredOnce.take (h : StoredOnce env l) (hfirst : l' <+: l) :
    StoredOnce env l' where
  nodup := h.nodup.sublist (hfirst.sublist.map _)
  genesis x hx := h.genesis x (hfirst.subset hx)
  read x hx := h.read x (hfirst.subset hx)

def ParentsFirst (env : ReindexEnv) (blocks : List CBlock) : Prop :=
  ∀ before block after, blocks = before ++ block :: after →
    block.header.hashPrevBlock = env.hashGenesisBlock ∨ block.header.hashPrevBlock ∈ before.map env.getHash

theorem ParentsFirst.snoc (h : ParentsFirst env blocks) {block : CBlock}
    (hpar : block.header.hashPrevBlock = env.hashGenesisBlock ∨ block.header.hashPrevBlock ∈ blocks.map env.getHash) :
    ParentsFirst env (blocks ++ [block]) := by
  intro before b after heq
  rcases eq_nil_or_concat after with rfl | ⟨after, c, rfl⟩
  · obtain ⟨rfl, hb⟩ := append_inj' heq rfl
    obtain rfl := singleton_inj.1 hb
    exact hpar
  · rw [concat_eq_append, ← cons_append, ← append_assoc] at heq
    exact h before b after (append_inj' heq rfl).1

/-- The blocks `done` have been processed, the blocks `waiting` wait, and the blocks that some of them may wait for are in the
queue. -/
structure Progress (env : ReindexEnv) (done waiting : List (CBlock × CDiskBlockPos)) (queue : List Uint256) (s : Reindex) :
    Prop where
  calls : s.calls = done.map fun x => (x.1, some x.2)
  waits : s.mapBlocksUnknownParent = waiting.map fun x => (x.1.header.hashPrevBlock, x.2)
  index : ∀ hash, hash ∈ s.mapBlockIndex ↔ hash = env.hashGenesisBlock ∨ hash ∈ done.map fun x => env.getHash x.1
  order : ParentsFirst env (done.map Prod.fst)
  queued : ∀ hash ∈ queue, hash ∈ s.mapBlockIndex
  ready : ∀ x ∈ waiting, x.1.header.hashPrevBlock ∈ s.mapBlockIndex → x.1.header.hashPrevBlock ∈ queue

variable {done waiting rest : List (CBlock × CDiskBlockPos)} {queue : List Uint256} {x : CBlock × CDiskBlockPos}

theorem Progress.parent (h : Progress env done waiting queue s) {hash : Uint256} (hhash : hash ∈ s.mapBlockIndex) :
    hash = env.hashGenesisBlock ∨ hash ∈ (done.map Prod.fst).map env.getHash := by
  rw [map_map]
  exact (h.index hash).1 hhash

theorem Progress.setLoaded (h : Progress env done waiting queue s) (nLoaded : Nat) :
    Progress env done waiting queue { s with nLoaded } :=
  ⟨h.calls, h.waits, h.index, h.order, h.queued, h.ready⟩

section

variable (henv : AcceptsChildren env)
include henv

theorem Progress.process (h : Progress env done waiting queue s) (hpar : x.1.header.hashPrevBlock ∈ s.mapBlockIndex)
    {waiting' : List (CBlock × CDiskBlockPos)} (hwaiting : ∀ y ∈ waiting', y ∈ waiting) :
    Progress env (done ++ [x]) waiting' (queue ++ [env.getHash x.1])
      { s.process env x.1 (some x.2) with
        mapBlocksUnknownParent := waiting'.map fun x => (x.1.header.hashPrevBlock, x.2) } := by
  obtain ⟨-, -, hindex⟩ := henv s.mapBlockIndex x.1 (some x.2) hpar
  refine ⟨?_, rfl, fun hash => ?_, ?_, fun hash hhash => (hindex hash).2 ?_, fun y hy hknown => ?_⟩
  · change s.calls ++ [(x.1, some x.2)] = _
    rw [h.calls, map_append]
    rfl
  · refine (hindex hash).trans ?_
    rw [h.index hash, map_append, mem_append, map_singleton, mem_singleton, or_comm, or_assoc]
  · rw [map_append]
    exact h.order.snoc (h.parent hpar)
  · rcases mem_append.1 hhash with hhash | hhash
    · exact .inr (h.queued hash hhash)
    · exact .inl (mem_singleton.1 hhash)
  · rcases (hindex _).1 hknown with hnew | hold
    · exact mem_append_right queue (mem_singleton.2 hnew)
    · exact mem_append_left _ (h.ready y (hwaiting y hy) hold)

theorem processChild_eq (hread : env.readBlockFromDisk x.2 = some x.1) (hpar : x.1.header.hashPrevBlock ∈ s.mapBlockIndex) :
    processChild env (s, queue) x.2 = (s.process env x.1 (some x.2), queue ++ [env.getHash x.1]) := by
  unfold processChild
  rw [hread]
  dsimp only
  rw [if_pos (henv s.mapBlockIndex x.1 (some x.2) hpar).1]

theorem Progress.foldl {children : List (CBlock × CDiskBlockPos)}
    (hread : ∀ x ∈ children, env.readBlockFromDisk x.2 = some x.1)
    (hpar : ∀ x ∈ children, x.1.header.hashPrevBlock ∈ s.mapBlockIndex)
    (h : Progress env done waiting queue { s with mapBlocksUnknownParent := waiting.map fun x => (x.1.header.hashPrevBlock, x.2) }) :
    Progress env (done ++ children) waiting ((children.map Prod.snd).foldl (processChild env) (s, queue)).2
      { ((children.map Prod.snd).foldl (processChild env) (s, queue)).1 with
        mapBlocksUnknownParent := waiting.map fun x => (x.1.header.hashPrevBlock, x.2) } := by
  induction children generalizing done queue s with
  | nil =>
    rw [append_nil]
    exact h
  | cons c children ih =>
    have hc := hpar c mem_cons_self
    rw [map_cons, foldl_cons, processChild_eq henv (hread c mem_cons_self) hc, append_cons]
    refine ih (fun x hx => hread x (mem_cons_of_mem c hx)) (fun x hx => ?_) (h.process henv hc fun y hy => hy)
    exact ((henv s.mapBlockIndex c.1 (some c.2) hc).2.2 _).2 (.inr (hpar x (mem_cons_of_mem c hx)))

theorem Progress.processChildren {head : Uint256} (hread : ∀ x ∈ waiting, env.readBlockFromDisk x.2 = some x.1)
    (h : Progress env done waiting (head :: queue) s) :
    Progress env (done ++ waiting.filter fun x => x.1.header.hashPrevBlock = head)
      (waiting.filter fun x => x.1.header.hashPrevBlock ≠ head) (Reindex.processChildren env head queue s).2
      (Reindex.processChildren env head queue s).1 := by
  have hhead : head ∈ s.mapBlockIndex := h.queued head mem_cons_self
  have hrange : s.range head = (waiting.filter fun x => x.1.header.hashPrevBlock = head).map Prod.snd := by
    rw [range, h.waits, filter_map, map_map]
    rfl
  have hrest : s.mapBlocksUnknownParent.filter (fun e => e.1 ≠ head) =
      (waiting.filter fun x => x.1.header.hashPrevBlock ≠ head).map fun x => (x.1.header.hashPrevBlock, x.2) := by
    rw [h.waits, filter_map]
    rfl
  rw [Reindex.processChildren, hrest, hrange]
  refine Progress.foldl henv (fun x hx => hread x (mem_of_mem_filter hx)) (fun x hx => ?_) ?_
  · rw [of_decide_eq_true (mem_filter.1 hx).2]
    exact hhead
  · refine ⟨h.calls, rfl, h.index, h.order, fun hash hhash => h.queued hash (mem_cons_of_mem head hhash), ?_⟩
    -- who waits for another block than the head finds it in the rest of the queue
    intro x hx hknown
    have hx := mem_filter.1 hx
    exact (mem_cons.1 (h.ready x hx.1 hknown)).resolve_left (of_decide_eq_true hx.2)

/-- The worklist comes to its end, and nobody waits for a block that is known. -/
theorem Progress.drain (hread : ∀ x ∈ waiting, env.readBlockFromDisk x.2 = some x.1) (h : Progress env done waiting queue s) :
    ∃ done' waiting', Progress env done' waiting' [] (Reindex.drain env queue s) ∧
      (done' ++ waiting').Perm (done ++ waiting) := by
  generalize hm : queue.length + s.mapBlocksUnknownParent.length = m
  induction m using Nat.strongRecOn generalizing done waiting queue s with
  | _ m ih =>
    cases queue with
    | nil =>
      rw [Reindex.drain]
      exact ⟨done, waiting, h, Perm.refl _⟩
    | cons head queue =>
      have hdecreases := processChildren_decreases env head queue s
      rw [length_cons] at hm
      obtain ⟨done', waiting', hprog, hperm⟩ :=
        ih _ (by omega) (fun x hx => hread x (mem_of_mem_filter hx)) (h.processChildren henv hread) rfl
      rw [Reindex.drain]
      refine ⟨done', waiting', hprog, hperm.trans ?_⟩
      rw [append_assoc]
      refine Perm.append_left done ?_
      simpa using filter_append_perm (fun x => decide (x.1.header.hashPrevBlock = head)) waiting

/-- A block that is read is processed, with all that waited for it, or waits. -/
theorem Progress.receive (hst : StoredOnce env (done ++ waiting ++ [x])) (h : Progress env done waiting [] s) :
    (s.receive env (some x.2) x.1).2 = false ∧ ∃ done' waiting',
      Progress env done' waiting' [] (s.receive env (some x.2) x.1).1 ∧
        (done' ++ waiting').Perm (done ++ waiting ++ [x]) := by
  have hgenesis : env.getHash x.1 ≠ env.hashGenesisBlock := hst.genesis x (by simp)
  have hnew : env.getHash x.1 ∉ s.mapBlockIndex := by
    rw [h.index]
    rintro (hgen | hdone)
    · exact hgenesis hgen
    · have hnodup := hst.nodup
      rw [map_append, map_append, append_assoc, nodup_append] at hnodup
      exact hnodup.2.2 _ hdone _ (by simp) rfl
  unfold Reindex.receive
  by_cases hpar : x.1.header.hashPrevBlock ∈ s.mapBlockIndex
  · obtain ⟨-, herror, -⟩ := henv s.mapBlockIndex x.1 (some x.2) hpar
    have hprocessed := h.process henv hpar fun y hy => hy
    rw [← h.waits] at hprocessed
    obtain ⟨done', waiting', hprog, hperm⟩ := hprocessed.drain henv fun y hy =>
      hst.read y (by simp [hy])
    have hknown : (s.mapBlockIndex.lookup x.1.header.hashPrevBlock).isNone = false := by
      rw [Option.isNone_eq_false_iff]
      exact AList.lookup_isSome.2 hpar
    have hdata : s.haveData (env.getHash x.1) = false := by
      rw [haveData, AList.lookup_eq_none.2 hnew]
      rfl
    rw [hknown, Bool.and_false, if_neg Bool.false_ne_true, hdata, if_neg Bool.false_ne_true, herror,
      if_neg Bool.false_ne_true]
    refine ⟨rfl, done', waiting', hprog, hperm.trans ?_⟩
    rw [append_assoc, append_assoc]
    exact perm_append_comm.append_left done
  · rw [AList.lookup_eq_none.2 hpar, if_pos (by simp [hgenesis])]
    refine ⟨rfl, done, waiting ++ [x], ?_, ?_⟩
    · refine ⟨h.calls, ?_, h.index, h.order, h.queued, fun y hy hknown => ?_⟩
      · dsimp only
        rw [h.waits, map_append]
        rfl
      · rcases mem_append.1 hy with hy | hy
        · exact h.ready y hy hknown
        · rw [mem_singleton.1 hy] at hknown
          exact absurd hknown hpar
    · rw [append_assoc]

/-! ### Files -/

theorem Progress.scan {nFile : Int} (nPos : Nat) {start : Nat} {records : List StoredBlock}
    (hrecs : ∀ r ∈ records, r.WellFormed env) (hpadding : ∀ b ∈ padding, b ≠ env.messageStart[0])
    (hfits : ∀ x ∈ storedFrom env nFile start records, x.2.nPos < 2 ^ 32)
    (hst : StoredOnce env (done ++ waiting ++ storedFrom env nFile start records ++ rest))
    (h : Progress env done waiting [] s) :
    ∃ done' waiting', Progress env done' waiting' []
        (Reindex.scan env (some ⟨nFile, nPos⟩) start (records.flatMap (StoredBlock.bytes env) ++ padding) s) ∧
      (done' ++ waiting').Perm (done ++ waiting ++ storedFrom env nFile start records) := by
  induction records generalizing done waiting start s with
  | nil =>
    rw [flatMap_nil, nil_append, scan_padding hpadding]
    refine ⟨done, waiting, h, ?_⟩
    rw [storedFrom, append_nil]
  | cons r records ih =>
    let x : CBlock × CDiskBlockPos := (r.block, ⟨nFile, start + r.gap.length + 8⟩)
    have hcons : storedFrom env nFile start (r :: records) =
        x :: storedFrom env nFile (start + (r.bytes env).length) records := rfl
    rw [hcons] at hfits hst ⊢
    have hpos : (start + r.gap.length + 8) % 2 ^ 32 = start + r.gap.length + 8 :=
      Nat.mod_eq_of_lt (hfits x mem_cons_self)
    have hx : StoredOnce env (done ++ waiting ++ [x]) := hst.take (by simp)
    obtain ⟨hgoes, done', waiting', hprog, hperm⟩ := h.receive henv hx
    rw [append_cons] at hst ⊢
    obtain ⟨done'', waiting'', hprog', hperm'⟩ := ih (fun r' hr' => hrecs r' (mem_cons_of_mem r hr'))
      (fun y hy => hfits y (mem_cons_of_mem x hy)) (hst.perm ((hperm.symm.append_right _).append_right rest)) hprog
    rw [flatMap_cons, append_assoc, scan_record (hrecs r mem_cons_self), Option.map_some, hpos, hgoes,
      if_neg Bool.false_ne_true]
    exact ⟨done'', waiting'', hprog', hperm'.trans (hperm.append_right _)⟩

theorem Progress.loadFiles {files : List BlockFile} (hfiles : ∀ f ∈ files, f.WellFormed env)
    (hfits : ∀ x ∈ files.flatMap (BlockFile.stored env), x.2.nPos < 2 ^ 32)
    (hst : StoredOnce env (done ++ waiting ++ files.flatMap (BlockFile.stored env))) (h : Progress env done waiting [] s) :
    ∃ done' waiting', Progress env done' waiting' []
        (Reindex.loadFiles env s (files.map fun f => (f.nFile, f.bytes env))) ∧
      (done' ++ waiting').Perm (done ++ waiting ++ files.flatMap (BlockFile.stored env)) := by
  induction files generalizing done waiting s with
  | nil =>
    refine ⟨done, waiting, h, ?_⟩
    rw [flatMap_nil, append_nil]
  | cons f files ih =>
    have hf := hfiles f mem_cons_self
    rw [flatMap_cons] at hfits hst ⊢
    rw [← append_assoc] at hst
    obtain ⟨done', waiting', hprog, hperm⟩ := (h.setLoaded 0).scan henv 0 hf.records hf.padding
      (fun x hx => hfits x (mem_append_left _ hx)) hst
    obtain ⟨done'', waiting'', hprog', hperm'⟩ := ih (fun f' hf' => hfiles f' (mem_cons_of_mem f hf'))
      (fun x hx => hfits x (mem_append_right _ hx)) (hst.perm (hperm.symm.append_right _)) hprog
    refine ⟨done'', waiting'', hprog', hperm'.trans ?_⟩
    rw [← append_assoc]
    exact hperm.append_right _

end

/-- The block is connected to the genesis block by blocks of the list. -/
inductive Connected (env : ReindexEnv) (blocks : List CBlock) : CBlock → Prop
  | root {block : CBlock} (hblock : block ∈ blocks) (hprev : block.header.hashPrevBlock = env.hashGenesisBlock) :
    Connected env blocks block
  | child {parent block : CBlock} (hparent : Connected env blocks parent) (hblock : block ∈ blocks)
    (hprev : block.header.hashPrevBlock = env.getHash parent) : Connected env blocks block

theorem Connected.mem {block : CBlock} (h : Connected env blocks block) : block ∈ blocks := by
  cases h with
  | root hblock hprev => exact hblock
  | child hpar hblock hprev => exact hblock

theorem ParentsFirst.connected {all : List CBlock} (h : ParentsFirst env blocks) (hsub : ∀ b ∈ blocks, b ∈ all) :
    ∀ block ∈ blocks, Connected env all block := by
  induction blocks using reverseRecOn with
  | nil => exact fun block hblock => absurd hblock not_mem_nil
  | append_singleton blocks last ih =>
    have hinit : ParentsFirst env blocks := by
      intro before block after heq
      exact h before block (after ++ [last]) (by rw [heq, append_assoc, cons_append])
    have hconn := ih hinit fun b hb => hsub b (mem_append_left _ hb)
    intro block hblock
    rcases mem_append.1 hblock with hblock | hblock
    · exact hconn block hblock
    · obtain rfl := mem_singleton.1 hblock
      have hall := hsub block (mem_append_right _ hblock)
      rcases h blocks block [] rfl with hgen | hpar
      · exact .root hall hgen
      · obtain ⟨parent, hmem, hhash⟩ := mem_map.1 hpar
        exact .child (hconn parent hmem) hall hhash.symm

theorem Progress.not_connected {all : List (CBlock × CDiskBlockPos)} (h : Progress env done waiting [] s)
    (hperm : (done ++ waiting).Perm all) (hx : x ∈ waiting) : ¬Connected env (all.map Prod.fst) x.1 := by
  have hlost : ∀ y ∈ waiting, y.1.header.hashPrevBlock ∉ s.mapBlockIndex :=
    fun y hy hknown => absurd (h.ready y hy hknown) not_mem_nil
  intro hconn
  generalize hblock : x.1 = block at hconn
  induction hconn generalizing x with
  | root hmem hprev =>
    refine hlost x hx ((h.index _).2 (.inl ?_))
    rw [hblock, hprev]
  | child hpar hmem hprev ih =>
    obtain ⟨y, hy, rfl⟩ := mem_map.1 hpar.mem
    rcases mem_append.1 (hperm.mem_iff.2 hy) with hdone | hwaits
    · refine hlost x hx ((h.index _).2 (.inr ?_))
      rw [hblock, hprev]
      exact mem_map.2 ⟨y, hdone, rfl⟩
    · exact ih hwaits rfl

/-- The files of any blocks, in any order, are read from an index that holds the genesis block only.  `ProcessNewBlock` is called
for the blocks `done`, in this order, with their positions; every block of them comes after its parent, they are the blocks
that are connected to the genesis block, and all others are waiting.  A position has 32 bits. -/
theorem loadFiles_connected (henv : AcceptsChildren env) {files : List BlockFile} (hfiles : ∀ f ∈ files, f.WellFormed env)
    (hstored : StoredOnce env (files.flatMap (BlockFile.stored env)))
    (hfits : ∀ x ∈ files.flatMap (BlockFile.stored env), x.2.nPos < 2 ^ 32) (index : KeyMap Uint256 Bool)
    (hindex : ∀ hash, hash ∈ index ↔ hash = env.hashGenesisBlock) :
    ∃ done waiting : List (CBlock × CDiskBlockPos),
      (done ++ waiting).Perm (files.flatMap (BlockFile.stored env)) ∧
      (∀ x ∈ done, Connected env ((files.flatMap (BlockFile.stored env)).map Prod.fst) x.1) ∧
      (∀ x ∈ waiting, ¬Connected env ((files.flatMap (BlockFile.stored env)).map Prod.fst) x.1) ∧
      (loadFiles env { mapBlockIndex := index } (files.map fun f => (f.nFile, f.bytes env))).calls =
        (done.map fun x => (x.1, some x.2)) ∧
      ParentsFirst env (done.map Prod.fst) ∧
      (loadFiles env { mapBlockIndex := index } (files.map fun f => (f.nFile, f.bytes env))).mapBlocksUnknownParent =
        waiting.map fun x => (x.1.header.hashPrevBlock, x.2) := by
  have hinit : Progress env [] [] [] { mapBlockIndex := index } := by
    refine ⟨rfl, rfl, fun hash => (hindex hash).trans ?_, ?_, ?_, ?_⟩
    · simp
    · intro before block after heq
      simp at heq
    · exact fun hash hhash => absurd hhash not_mem_nil
    · exact fun x hx => absurd hx not_mem_nil
  obtain ⟨done, waiting, hprog, hperm⟩ := hinit.loadFiles henv hfiles hfits hstored
  refine ⟨done, waiting, hperm, fun x hx => ?_, fun x hx => hprog.not_connected hperm hx, hprog.calls,
    hprog.order, hprog.waits⟩
  refine hprog.order.connected (fun b hb => ?_) x.1 (mem_map_of_mem hx)
  obtain ⟨y, hy, rfl⟩ := mem_map.1 hb
  exact mem_map_of_mem (hperm.subset (mem_append_left _ hy))

/-! ### Small files -/

def plainBlock (hash parent : UInt8) : CBlock where
  header :=
    { nVersion := 4, hashPrevBlock := BitVec.ofNat 256 parent.toNat, hashMerkleRoot := 0, hashReserved := 0, nTime := 0,
      nBits := 0, nNonce := BitVec.ofNat 256 hash.toNat, nSolution := [] }
  vtx := []

/-- A node that accepts every block.  The file 0 has the block 6, whose parent is 5; the file 1 has the block 5. -/
def plainReindexEnv : ReindexEnv where
  messageStart := #v[1, 2, 3, 4]
  hashGenesisBlock := 0
  getHash block := block.header.nNonce
  unserialize
    | hash :: parent :: _ => .ok (plainBlock hash parent, [])
    | _ => .error endOfData
  readBlockFromDisk pos := some (if pos.nFile = 0 then plainBlock 6 5 else plainBlock 5 0)
  processNewBlock index block _ := ⟨index.insert block.header.nNonce true, true, false⟩

def plainRecord (gap : Nat) (hash parent : UInt8) : StoredBlock :=
  ⟨List.replicate gap 0, plainBlock hash parent, hash :: parent :: List.replicate 78 0⟩

private theorem plainRecord_wellFormed (gap : Nat) (hash parent : UInt8) :
    (plainRecord gap hash parent).WellFormed plainReindexEnv where
  gap b hb := by
    rw [eq_of_mem_replicate hb]
    decide
  min := by
    change 80 ≤ (replicate 78 0).length + 1 + 1
    rw [length_replicate]
  max := by
    change (replicate 78 0).length + 1 + 1 ≤ MAX_BLOCK_SIZE
    rw [length_replicate]
    decide
  data := rfl

private theorem plainReindexEnv_accepts : AcceptsChildren plainReindexEnv :=
  fun _ _ _ _ => ⟨rfl, rfl, fun _ => AList.mem_insert _⟩

private theorem plainIndex (hash : Uint256) :
    hash ∈ (AList.singleton (0 : Uint256) true : KeyMap Uint256 Bool) ↔ hash = plainReindexEnv.hashGenesisBlock := by
  rw [AList.mem_keys, AList.keys_singleton, mem_singleton]
  rfl

def twoFiles : List BlockFile := [⟨0, [plainRecord 0 6 5], []⟩, ⟨1, [plainRecord 0 5 0], []⟩]

theorem loadFiles_connected_twoFiles : ∃ done waiting : List (CBlock × CDiskBlockPos),
    (done ++ waiting).Perm [(plainBlock 6 5, ⟨0, 8⟩), (plainBlock 5 0, ⟨1, 8⟩)] ∧
    (loadFiles plainReindexEnv { mapBlockIndex := AList.singleton 0 true }
      (twoFiles.map fun f => (f.nFile, f.bytes plainReindexEnv))).calls = (done.map fun x => (x.1, some x.2)) ∧
    ParentsFirst plainReindexEnv (done.map Prod.fst) := by
  have hst : twoFiles.flatMap (BlockFile.stored plainReindexEnv) =
      [(plainBlock 6 5, ⟨0, 8⟩), (plainBlock 5 0, ⟨1, 8⟩)] := rfl
  have hfiles : ∀ f ∈ twoFiles, f.WellFormed plainReindexEnv := by
    intro f hf
    rcases mem_pair.1 hf with rfl | rfl
    · exact ⟨fun r hr => mem_singleton.1 hr ▸ plainRecord_wellFormed _ _ _, nofun⟩
    · exact ⟨fun r hr => mem_singleton.1 hr ▸ plainRecord_wellFormed _ _ _, nofun⟩
  have honce : StoredOnce plainReindexEnv (twoFiles.flatMap (BlockFile.stored plainReindexEnv)) := by
    rw [hst]
    refine ⟨by decide +kernel, ?_, ?_⟩
    · intro x hx
      rcases mem_pair.1 hx with rfl | rfl <;> decide +kernel
    · intro x hx
      rcases mem_pair.1 hx with rfl | rfl <;> rfl
  have hfits : ∀ x ∈ twoFiles.flatMap (BlockFile.stored plainReindexEnv), x.2.nPos < 2 ^ 32 := by
    rw [hst]
    intro x hx
    rcases mem_pair.1 hx with rfl | rfl <;> decide
  obtain ⟨done, waiting, hperm, -, -, hcalls, horder, -⟩ :=
    loadFiles_connected plainReindexEnv_accepts hfiles honce hfits (AList.singleton 0 true) plainIndex
  exact ⟨done, waiting, hst ▸ hperm, hcalls, horder⟩

def farRecord (gap : Nat) : BlockFile := ⟨1, [plainRecord gap 5 0], []⟩

private theorem farRecord_stored (gap : Nat) :
    (farRecord gap).stored plainReindexEnv = [(plainBlock 5 0, ⟨1, gap + 8⟩)] := by
  change [(plainBlock 5 0, (⟨1, 0 + (replicate gap (0 : UInt8)).length + 8⟩ : CDiskBlockPos))] = _
  rw [length_replicate, Nat.zero_add]

private theorem drain_calls {head : Uint256} (h : s.mapBlocksUnknownParent = []) : (drain env [head] s).calls = s.calls := by
  have hround : (processChildren env head [] s).2 = [] := by
    rw [processChildren, range, h]
    rfl
  have hcalls : (processChildren env head [] s).1.calls = s.calls := by
    rw [processChildren, range, h]
    rfl
  rw [drain, hround, drain, hcalls]

private theorem farRecord_calls (gap : Nat) :
    (loadFiles plainReindexEnv { mapBlockIndex := AList.singleton 0 true }
      [(1, (farRecord gap).bytes plainReindexEnv)]).calls = [(plainBlock 5 0, some ⟨1, (gap + 8) % 2 ^ 32⟩)] := by
  have hbytes : (farRecord gap).bytes plainReindexEnv = (plainRecord gap 5 0).bytes plainReindexEnv ++ [] := by
    rw [BlockFile.bytes, farRecord, flatMap_singleton]
  have hgap : 0 + (plainRecord gap 5 0).gap.length + 8 = gap + 8 := by
    change 0 + (replicate gap (0 : UInt8)).length + 8 = gap + 8
    rw [length_replicate, Nat.zero_add]
  have hreceive : ∀ pos, receive plainReindexEnv (some pos) (plainBlock 5 0) { mapBlockIndex := AList.singleton 0 true } =
      (drain plainReindexEnv [5] (process plainReindexEnv (plainBlock 5 0) (some pos)
        { mapBlockIndex := AList.singleton 0 true }), false) := by
    intro pos
    rfl
  rw [loadFiles, loadFiles, loadExternalBlockFile, hbytes]
  dsimp only
  rw [scan_record (plainRecord_wellFormed gap 5 0), hgap, Option.map_some]
  have hblock : (plainRecord gap 5 0).block = plainBlock 5 0 := rfl
  rw [hblock, hreceive, if_neg Bool.false_ne_true, scan_padding fun b hb => absurd hb not_mem_nil, drain_calls rfl]
  rfl

/-- The position of a record that begins `2 ^ 32` bytes behind the beginning of a file is cut off to 32 bits. -/
theorem loadFiles_truncates :
    AcceptsChildren plainReindexEnv ∧ (farRecord (2 ^ 32)).WellFormed plainReindexEnv ∧
    (farRecord (2 ^ 32)).stored plainReindexEnv = [(plainBlock 5 0, ⟨1, 2 ^ 32 + 8⟩)] ∧
    StoredOnce plainReindexEnv [(plainBlock 5 0, ⟨1, 2 ^ 32 + 8⟩)] ∧
    (loadFiles plainReindexEnv { mapBlockIndex := AList.singleton 0 true }
      [(1, (farRecord (2 ^ 32)).bytes plainReindexEnv)]).calls = [(plainBlock 5 0, some ⟨1, 8⟩)] := by
  refine ⟨plainReindexEnv_accepts, ⟨fun r hr => ?_, nofun⟩, farRecord_stored _, ⟨?_, ?_, ?_⟩, farRecord_calls _⟩
  · exact mem_singleton.1 hr ▸ plainRecord_wellFormed _ _ _
  · exact nodup_singleton _
  · intro x hx
    rw [mem_singleton.1 hx]
    decide +kernel
  · intro x hx
    rw [mem_singleton.1 hx]
    rfl

end Reindex

end LitecoinZ
