import LitecoinZ.Chain.DiskBlockIndex

/-!
# Pruning block files

Where `main.cpp` stores blocks and their undo data (`FindBlockPos`, `FindUndoPos`), the summary it keeps of every block
file, and which files `FindFilesToPrune` gives up when too much disk space is used.  A summary covers the heights of all
blocks stored in its file, in whatever order they come (`FilesFit`); so no block near the tip is ever pruned
(`findFilesToPrune_safe`).
-/

namespace LitecoinZ

open List

def MAX_BLOCKFILE_SIZE : Nat := 0x8000000
def BLOCKFILE_CHUNK_SIZE : Nat := 0x1000000
def UNDOFILE_CHUNK_SIZE : Nat := 0x100000
def MIN_BLOCKS_TO_KEEP : Nat := 288
def BLOCK_VALID_TREE : Nat := 2

structure CBlockFileInfo where
  nBlocks : Nat := 0
  nSize : Nat := 0
  nUndoSize : Nat := 0
  nHeightFirst : Nat := 0
  nHeightLast : Nat := 0
  nTimeFirst : Nat := 0
  nTimeLast : Nat := 0
  deriving DecidableEq, Repr

def CBlockFileInfo.setNull : CBlockFileInfo := {}

def CBlockFileInfo.addBlock (nHeightIn nTimeIn : Nat) (info : CBlockFileInfo) : CBlockFileInfo :=
  { info with
    nHeightFirst := if info.nBlocks = 0 ∨ info.nHeightFirst > nHeightIn then nHeightIn else info.nHeightFirst
    nTimeFirst := if info.nBlocks = 0 ∨ info.nTimeFirst > nTimeIn then nTimeIn else info.nTimeFirst
    nBlocks := (info.nBlocks + 1) % 2 ^ 32
    nHeightLast := if nHeightIn > info.nHeightLast then nHeightIn else info.nHeightLast
    nTimeLast := if nTimeIn > info.nTimeLast then nTimeIn else info.nTimeLast }

/-- The globals of `main.cpp` about the block files, with the entries that say where blocks are stored. -/
structure BlockStore where
  mapBlockIndex : KeyMap Uint256 BlockIndexEntry := ∅
  mapBlocksUnlinked : List (Uint256 × Uint256) := []
  vinfoBlockFile : List CBlockFileInfo := []
  nLastBlockFile : Nat := 0
  fCheckForPruning : Bool := false

namespace BlockStore

/-- The summary of a file; files that were never written have an empty one. -/
def info (nFile : Nat) (s : BlockStore) : CBlockFileInfo := s.vinfoBlockFile.getD nFile .setNull

/-- Write a summary, after `vinfoBlockFile.resize` where the vector is too short. -/
def setInfo (nFile : Nat) (info : CBlockFileInfo) (s : BlockStore) : BlockStore :=
  { s with vinfoBlockFile :=
      (s.vinfoBlockFile ++ List.replicate (nFile + 1 - s.vinfoBlockFile.length) CBlockFileInfo.setNull).set nFile info }

def chunks (chunkSize nSize : Nat) : Nat := (nSize + chunkSize - 1) % 2 ^ 32 / chunkSize

/-- The loop of `FindBlockPos` over the summaries from `nFile` on.  It does not end when the block fits no file. -/
def firstFit (nAddSize : Nat) : List CBlockFileInfo → Nat → Option Nat
  | [], nFile => if nAddSize % 2 ^ 32 ≥ MAX_BLOCKFILE_SIZE then none else some nFile
  | info :: infos, nFile =>
    if (info.nSize + nAddSize) % 2 ^ 32 ≥ MAX_BLOCKFILE_SIZE then firstFit nAddSize infos (nFile + 1) else some nFile

/-- `FindBlockPos` for a block that is still to be written, in prune mode; the flag says whether the disk had room. -/
def findBlockPos (nAddSize nHeight nTime : Nat) (checkDiskSpace : Bool) (s : BlockStore) :
    Option (Bool × CDiskBlockPos × BlockStore) := do
  let nFile ← firstFit nAddSize (s.vinfoBlockFile.drop s.nLastBlockFile) s.nLastBlockFile
  let old := s.info nFile
  let new := { old.addBlock nHeight nTime with nSize := (old.nSize + nAddSize) % 2 ^ 32 }
  let grows := chunks BLOCKFILE_CHUNK_SIZE new.nSize > chunks BLOCKFILE_CHUNK_SIZE old.nSize
  some (!decide grows || checkDiskSpace, ⟨nFile, old.nSize⟩,
    { s.setInfo nFile new with
      nLastBlockFile := nFile
      fCheckForPruning := s.fCheckForPruning || grows })

/-- `FindBlockPos` for a block that is in a file already. -/
def findKnownBlockPos (nFile nPos nAddSize nHeight nTime : Nat) (s : BlockStore) : BlockStore :=
  let old := s.info nFile
  { s.setInfo nFile { old.addBlock nHeight nTime with nSize := max ((nPos + nAddSize) % 2 ^ 32) old.nSize } with
    nLastBlockFile := nFile }

/-- `FindUndoPos`, in prune mode; the flag says whether the disk had room. -/
def findUndoPos (nFile nAddSize : Nat) (checkDiskSpace : Bool) (s : BlockStore) : Bool × Nat × BlockStore :=
  let old := s.info nFile
  let nNewSize := (old.nUndoSize + nAddSize) % 2 ^ 32
  let grows := chunks UNDOFILE_CHUNK_SIZE nNewSize > chunks UNDOFILE_CHUNK_SIZE old.nUndoSize
  (!decide grows || checkDiskSpace, old.nUndoSize,
    { s.setInfo nFile { old with nUndoSize := nNewSize } with fCheckForPruning := s.fCheckForPruning || grows })

def calculateCurrentUsage (s : BlockStore) : Nat :=
  (s.vinfoBlockFile.map fun file => (file.nSize + file.nUndoSize) % 2 ^ 32).sum % 2 ^ 64

/-- `nStatus & ~mask`. -/
def clearStatus (nStatus mask : Nat) : Nat := nStatus &&& (2 ^ 32 - 1 - mask)

/-- What is left of an entry whose block was pruned. -/
def forget (e : BlockIndexEntry) : BlockIndexEntry :=
  { e with
    nStatus := clearStatus (clearStatus e.nStatus BLOCK_HAVE_DATA) BLOCK_HAVE_UNDO
    nFile := 0
    nDataPos := 0
    nUndoPos := 0 }

def prune (fileNumber : Nat) (e : BlockIndexEntry) : BlockIndexEntry := if e.nFile = fileNumber then forget e else e

def pruneOneBlockFile (fileNumber : Nat) (s : BlockStore) : BlockStore :=
  { s.setInfo fileNumber .setNull with
    mapBlockIndex := s.mapBlockIndex.mapValues (prune fileNumber)
    mapBlocksUnlinked := s.mapBlocksUnlinked.filter fun p =>
      match s.mapBlockIndex.lookup p.2 with
      | some e => !(e.nFile = fileNumber && e.pprev = some p.1)
      | none => true }

/-- The loop of `FindFilesToPrune` over the files that are left. -/
def pruneLoop (nLastBlockWeCanPrune nPruneTarget : Nat) :
    List Nat → Nat → List Nat → BlockStore → List Nat × BlockStore
  | [], _, setFilesToPrune, s => (setFilesToPrune, s)
  | fileNumber :: fileNumbers, nCurrentUsage, setFilesToPrune, s =>
    let file := s.info fileNumber
    let nBytesToPrune := (file.nSize + file.nUndoSize) % 2 ^ 32
    let nBuffer := BLOCKFILE_CHUNK_SIZE + UNDOFILE_CHUNK_SIZE
    if file.nSize = 0 then pruneLoop nLastBlockWeCanPrune nPruneTarget fileNumbers nCurrentUsage setFilesToPrune s
    else if (nCurrentUsage + nBuffer) % 2 ^ 64 < nPruneTarget then (setFilesToPrune, s)
    else if file.nHeightLast > nLastBlockWeCanPrune then
      pruneLoop nLastBlockWeCanPrune nPruneTarget fileNumbers nCurrentUsage setFilesToPrune s
    else
      pruneLoop nLastBlockWeCanPrune nPruneTarget fileNumbers ((nCurrentUsage + 2 ^ 64 - nBytesToPrune) % 2 ^ 64)
        (setFilesToPrune ++ [fileNumber]) (s.pruneOneBlockFile fileNumber)

/-- `FindFilesToPrune`, with the height of the tip of the active chain. -/
def findFilesToPrune (tip : Option Int) (pruneAfterHeight : Int) (nPruneTarget : Nat) (s : BlockStore) :
    List Nat × BlockStore :=
  match tip with
  | none => ([], s)
  | some nHeight =>
    if nPruneTarget = 0 then ([], s)
    else if nHeight ≤ pruneAfterHeight then ([], s)
    else
      let nLastBlockWeCanPrune := ((nHeight - MIN_BLOCKS_TO_KEEP) % 2 ^ 32).toNat
      let nBuffer := BLOCKFILE_CHUNK_SIZE + UNDOFILE_CHUNK_SIZE
      if (s.calculateCurrentUsage + nBuffer) % 2 ^ 64 ≥ nPruneTarget then
        s.pruneLoop nLastBlockWeCanPrune nPruneTarget (List.range s.nLastBlockFile) s.calculateCurrentUsage []
      else ([], s)

/-! ### Histories -/

def inFile (nFile : Nat) (e : BlockIndexEntry) : Bool := hasStatus e.nStatus BLOCK_HAVE_DATA && e.nFile = nFile

/-- The place of a block that a reindex finds in a block file: within the size that `FindBlockPos` lets a file grow to,
and apart from the other blocks of the file by at least the header that precedes a block. -/
def freePlace (nFile nPos nAddSize : Nat) (s : BlockStore) : Bool :=
  nPos + nAddSize ≤ MAX_BLOCKFILE_SIZE + 8 && s.mapBlockIndex.entries.all fun e =>
    !inFile nFile e.2 || nPos + 8 ≤ e.2.nDataPos || e.2.nDataPos + 8 ≤ nPos

inductive StoreCall where
  /-- A header enters the index. -/
  | addHeader (hash : Uint256) (header : CBlockHeader) (pprev : Option Uint256) (nHeight : Nat)
  /-- `AcceptBlock` writes a block; the flags say whether there was room on the disk and whether the write succeeded. -/
  | writeBlock (hash : Uint256) (nBlockSize nTime nTx : Nat) (checkDiskSpace written : Bool)
  /-- `AcceptBlock` takes over a block that a reindex found in a file. -/
  | reindexBlock (hash : Uint256) (nBlockSize nTime nTx nFile nPos : Nat)
  /-- `ConnectBlock` writes the undo data of a block. -/
  | writeUndo (hash : Uint256) (nUndoBytes : Nat) (checkDiskSpace : Bool)
  /-- Other code links blocks. -/
  | relink (mapBlocksUnlinked : List (Uint256 × Uint256))
  | findFilesToPrune (tip : Option Int) (pruneAfterHeight : Int) (nPruneTarget : Nat)

def headerEntry (header : CBlockHeader) (pprev : Option Uint256) (nHeight : Nat) : BlockIndexEntry :=
  { BlockIndexEntry.ofHeader header with pprev, nHeight, nStatus := BLOCK_VALID_TREE }

/-- What `ReceivedBlockTransactions` notes of where the block is. -/
def received (nTx nFile nDataPos : Nat) (e : BlockIndexEntry) : BlockIndexEntry :=
  { e with nTx, nFile, nDataPos, nUndoPos := 0, nStatus := e.nStatus ||| BLOCK_HAVE_DATA }

/-- What `ConnectBlock` notes of where the undo data is. -/
def undoWritten (nUndoPos : Nat) (e : BlockIndexEntry) : BlockIndexEntry :=
  { e with nUndoPos, nStatus := e.nStatus ||| BLOCK_HAVE_UNDO }

def setEntry (hash : Uint256) (e : BlockIndexEntry) (s : BlockStore) : BlockStore :=
  { s with mapBlockIndex := s.mapBlockIndex.insert hash e }

def blockSizeOk (nBlockSize : Nat) : Bool := 80 ≤ nBlockSize && nBlockSize ≤ MAX_BLOCK_SIZE

/-- One step of a history; `none` when the call cannot be made. -/
def step (call : StoreCall) (s : BlockStore) : Option BlockStore :=
  match call with
  | .addHeader hash header pprev nHeight =>
    if (s.mapBlockIndex.lookup hash).isNone && nHeight < 2 ^ 31 then
      some (s.setEntry hash (headerEntry header pprev nHeight))
    else none
  | .writeBlock hash nBlockSize nTime nTx checkDiskSpace written => do
    let e ← s.mapBlockIndex.lookup hash
    if blockSizeOk nBlockSize && !hasStatus e.nStatus BLOCK_HAVE_DATA then
      let (ok, pos, s) ← s.findBlockPos (nBlockSize + 8) e.nHeight.toNat nTime checkDiskSpace
      if ok then
        let nDataPos := if written then pos.nPos + 8 else pos.nPos
        some (s.setEntry hash (received nTx pos.nFile.toNat nDataPos e))
      else some s
    else none
  | .reindexBlock hash nBlockSize nTime nTx nFile nPos => do
    let e ← s.mapBlockIndex.lookup hash
    if blockSizeOk nBlockSize && !hasStatus e.nStatus BLOCK_HAVE_DATA && s.freePlace nFile nPos (nBlockSize + 8) then
      let s := s.findKnownBlockPos nFile nPos (nBlockSize + 8) e.nHeight.toNat nTime
      some (s.setEntry hash (received nTx nFile nPos e))
    else none
  | .writeUndo hash nUndoBytes checkDiskSpace => do
    let e ← s.mapBlockIndex.lookup hash
    if hasStatus e.nStatus BLOCK_HAVE_DATA then
      if e.getUndoPos.nFile = -1 then
        let (ok, nUndoPos, s) := s.findUndoPos e.nFile.toNat (nUndoBytes + 40) checkDiskSpace
        if ok then some (s.setEntry hash (undoWritten nUndoPos e)) else some s
      else some s
    else none
  | .relink mapBlocksUnlinked => some { s with mapBlocksUnlinked }
  | .findFilesToPrune tip pruneAfterHeight nPruneTarget => some (s.findFilesToPrune tip pruneAfterHeight nPruneTarget).2

def run : List StoreCall → BlockStore → Option BlockStore
  | [], s => some s
  | call :: calls, s => (s.step call).bind (run calls)

/-! ### Bits and summaries -/

theorem hasStatus_clearStatus (nStatus mask mask' : Nat) :
    hasStatus (clearStatus nStatus mask) mask' = hasStatus nStatus ((2 ^ 32 - 1 - mask) &&& mask') := by
  rw [hasStatus, hasStatus, clearStatus, Nat.and_assoc]

theorem hasStatus_lor (nStatus a mask : Nat) :
    hasStatus (nStatus ||| a) mask = (hasStatus nStatus mask || hasStatus a mask) := by
  simp [hasStatus, Nat.and_or_distrib_right, Nat.or_eq_zero_iff, imp_iff_not_or]

@[simp] theorem hasStatus_zero (nStatus : Nat) : hasStatus nStatus 0 = false := by
  rw [hasStatus, Nat.and_zero]
  rfl

@[simp] theorem forget_data (e : BlockIndexEntry) : hasStatus (forget e).nStatus BLOCK_HAVE_DATA = false := by
  simp [forget, hasStatus_clearStatus, BLOCK_HAVE_DATA, BLOCK_HAVE_UNDO]

@[simp] theorem forget_undo (e : BlockIndexEntry) : hasStatus (forget e).nStatus BLOCK_HAVE_UNDO = false := by
  simp [forget, hasStatus_clearStatus, BLOCK_HAVE_DATA, BLOCK_HAVE_UNDO]

@[simp] theorem received_data (nTx nFile nDataPos : Nat) (e : BlockIndexEntry) :
    hasStatus (received nTx nFile nDataPos e).nStatus BLOCK_HAVE_DATA = true := by
  rw [received, hasStatus_lor]
  exact Bool.or_true _

@[simp] theorem undoWritten_data (nUndoPos : Nat) (e : BlockIndexEntry) :
    hasStatus (undoWritten nUndoPos e).nStatus BLOCK_HAVE_DATA = hasStatus e.nStatus BLOCK_HAVE_DATA := by
  rw [undoWritten, hasStatus_lor]
  exact Bool.or_false _

theorem inFile_iff {nFile : Nat} {e : BlockIndexEntry} :
    inFile nFile e = true ↔ hasStatus e.nStatus BLOCK_HAVE_DATA = true ∧ e.nFile = nFile := by
  simp [inFile]

theorem info_setInfo (nFile nFile' : Nat) (info : CBlockFileInfo) (s : BlockStore) :
    (s.setInfo nFile info).info nFile' = if nFile' = nFile then info else s.info nFile' := by
  simp only [BlockStore.info, setInfo, getD_eq_getElem?_getD, getElem?_set, length_append,
    length_replicate]
  by_cases h : nFile' = nFile
  · subst h
    rw [if_pos rfl, if_pos (by omega), if_pos rfl, Option.getD_some]
  · rw [if_neg (Ne.symm h), if_neg h, getElem?_append]
    split
    · rfl
    · rename_i hlen
      rw [getElem?_eq_none (Nat.le_of_not_lt hlen), getElem?_replicate]
      split <;> rfl

theorem info_setEntry (nFile : Nat) (hash : Uint256) (e : BlockIndexEntry) (s : BlockStore) :
    (s.setEntry hash e).info nFile = s.info nFile := rfl

theorem CBlockFileInfo.addBlock_spec {info : CBlockFileInfo} (h : info.nBlocks + 1 < 2 ^ 32) (nHeight nTime : Nat) :
    (info.addBlock nHeight nTime).nBlocks = info.nBlocks + 1 ∧
      (info.addBlock nHeight nTime).nHeightFirst ≤ nHeight ∧ nHeight ≤ (info.addBlock nHeight nTime).nHeightLast ∧
      (info.nBlocks ≠ 0 → (info.addBlock nHeight nTime).nHeightFirst ≤ info.nHeightFirst) ∧
      info.nHeightLast ≤ (info.addBlock nHeight nTime).nHeightLast := by
  simp only [CBlockFileInfo.addBlock]
  refine ⟨Nat.mod_eq_of_lt h, ?_, ?_, fun hne => ?_, ?_⟩ <;> split <;> omega

variable {nAddSize nLastBlockWeCanPrune nTime : Nat} {files : List Nat} {checkDiskSpace : Bool} {pos : CDiskBlockPos}

theorem firstFit_spec {nFile nFile' : Nat} {infos : List CBlockFileInfo}
    (h : firstFit nAddSize infos nFile = some nFile') :
    nFile ≤ nFile' ∧ ((infos.getD (nFile' - nFile) .setNull).nSize + nAddSize) % 2 ^ 32 < MAX_BLOCKFILE_SIZE := by
  induction infos generalizing nFile with
  | nil =>
    rw [firstFit] at h
    split at h
    · cases h
    · rename_i hlt
      cases h
      exact ⟨le_rfl, by simpa [CBlockFileInfo.setNull] using hlt⟩
  | cons info infos ih =>
    rw [firstFit] at h
    split at h
    · obtain ⟨hle, hlt⟩ := ih h
      refine ⟨by omega, ?_⟩
      rw [show nFile' - nFile = nFile' - (nFile + 1) + 1 by omega, getD_cons_succ]
      exact hlt
    · rename_i hlt
      cases h
      refine ⟨le_rfl, ?_⟩
      rw [Nat.sub_self, getD_cons_zero]
      exact Nat.lt_of_not_le hlt

theorem firstFit_last {nFile : Nat} {s : BlockStore}
    (h : firstFit nAddSize (s.vinfoBlockFile.drop s.nLastBlockFile) s.nLastBlockFile = some nFile) :
    ((s.info nFile).nSize + nAddSize) % 2 ^ 32 < MAX_BLOCKFILE_SIZE := by
  obtain ⟨hle, hlt⟩ := firstFit_spec h
  rw [getD_eq_getElem?_getD, getElem?_drop, Nat.add_sub_cancel' hle] at hlt
  rw [BlockStore.info, getD_eq_getElem?_getD]
  exact hlt

/-! ### The summaries cover the blocks -/

def stored (nFile : Nat) (s : BlockStore) : Nat := s.mapBlockIndex.count (inFile nFile)

/-- Every stored block lies in its file, apart from the others, and the summary of the file covers its height.  A
summary counts the blocks of its file and those for which the disk had no room. -/
structure FilesFit (s : BlockStore) : Prop where
  height : ∀ {hash e}, s.mapBlockIndex.lookup hash = some e → 0 ≤ e.nHeight
  undo : ∀ {hash e}, s.mapBlockIndex.lookup hash = some e → hasStatus e.nStatus BLOCK_HAVE_UNDO = true →
    hasStatus e.nStatus BLOCK_HAVE_DATA = true
  file : ∀ {hash e}, s.mapBlockIndex.lookup hash = some e → 0 ≤ e.nFile
  covered : ∀ {hash e nFile}, s.mapBlockIndex.lookup hash = some e → inFile nFile e = true →
    (s.info nFile).nHeightFirst ≤ e.nHeight ∧ e.nHeight ≤ (s.info nFile).nHeightLast
  within : ∀ {hash e nFile}, s.mapBlockIndex.lookup hash = some e → inFile nFile e = true →
    e.nDataPos + 80 ≤ (s.info nFile).nSize
  apart : ∀ {hash e hash' e' nFile}, s.mapBlockIndex.lookup hash = some e → s.mapBlockIndex.lookup hash' = some e' →
    inFile nFile e = true → inFile nFile e' = true → hash ≠ hash' →
    e.nDataPos + 8 ≤ e'.nDataPos ∨ e'.nDataPos + 8 ≤ e.nDataPos
  blocks : ∀ nFile, ∃ failed, (s.info nFile).nBlocks = s.stored nFile + failed ∧ 8 * failed ≤ (s.info nFile).nSize
  size : ∀ nFile, (s.info nFile).nSize ≤ MAX_BLOCKFILE_SIZE + 8

theorem filesFit_empty : FilesFit {} := by
  have hinfo : ∀ nFile, info nFile {} = .setNull := fun nFile => by simp [BlockStore.info]
  constructor
  case blocks => exact fun nFile => ⟨0, by rw [hinfo]; exact ⟨rfl, le_rfl⟩⟩
  case size => exact fun nFile => by rw [hinfo]; exact Nat.zero_le _
  all_goals simp

variable {s s' : BlockStore} {hash : Uint256} {e : BlockIndexEntry} {nFile : Nat}

theorem FilesFit.nBlocks_lt (h : FilesFit s) (nFile : Nat) : (s.info nFile).nBlocks + 1 < 2 ^ 32 := by
  obtain ⟨failed, hbs, hfail⟩ := h.blocks nFile
  have hsize := h.size nFile
  have hst : s.stored nFile ≤ (s.info nFile).nSize / 8 + 1 := by
    refine KeyMap.count_le (fun e => e.nDataPos / 8) (fun hash e hl hin => ?_)
      (fun hash e hash' e' hl hl' hin hin' heq => ?_)
    · have := h.within hl hin
      omega
    · by_contra hne
      rcases h.apart hl hl' hin hin' hne with hlt | hlt <;> omega
  rw [MAX_BLOCKFILE_SIZE] at hsize
  omega

/-- What an entry has to say for itself. -/
def EntryFits (e : BlockIndexEntry) : Prop :=
  0 ≤ e.nHeight ∧ 0 ≤ e.nFile ∧
    (hasStatus e.nStatus BLOCK_HAVE_UNDO = true → hasStatus e.nStatus BLOCK_HAVE_DATA = true)

theorem FilesFit.entry (h : FilesFit s) (hl : s.mapBlockIndex.lookup hash = some e) : EntryFits e :=
  ⟨h.height hl, h.file hl, h.undo hl⟩

/-- A summary that covers what another one does. -/
structure Widens (info info' : CBlockFileInfo) : Prop where
  first : info'.nHeightFirst ≤ info.nHeightFirst
  last : info.nHeightLast ≤ info'.nHeightLast
  size : info.nSize ≤ info'.nSize

/-- A block of a new state that was stored at the same place before. -/
def KeptFrom (s s' : BlockStore) (hash : Uint256) (nFile : Nat) (e' : BlockIndexEntry) : Prop :=
  ∃ e, s.mapBlockIndex.lookup hash = some e ∧ inFile nFile e = true ∧ e'.nHeight = e.nHeight ∧
    e'.nDataPos = e.nDataPos ∧ Widens (s.info nFile) (s'.info nFile)

/-- A block of a new state that was not stored before. -/
structure Entered (s s' : BlockStore) (nFile : Nat) (e : BlockIndexEntry) : Prop where
  covered : (s'.info nFile).nHeightFirst ≤ e.nHeight ∧ e.nHeight ≤ (s'.info nFile).nHeightLast
  within : e.nDataPos + 80 ≤ (s'.info nFile).nSize
  free : ∀ {hash' e'}, s.mapBlockIndex.lookup hash' = some e' → inFile nFile e' = true →
    e.nDataPos + 8 ≤ e'.nDataPos ∨ e'.nDataPos + 8 ≤ e.nDataPos

theorem FilesFit.of_kept (h : FilesFit s) (hash0 : Uint256)
    (hentry : ∀ {hash e}, s'.mapBlockIndex.lookup hash = some e → EntryFits e)
    (hkept : ∀ {hash e nFile}, s'.mapBlockIndex.lookup hash = some e → inFile nFile e = true →
      KeptFrom s s' hash nFile e ∨ hash = hash0 ∧ Entered s s' nFile e)
    (hbs : ∀ nFile, ∃ failed, (s'.info nFile).nBlocks = s'.stored nFile + failed ∧ 8 * failed ≤ (s'.info nFile).nSize)
    (hsize : ∀ nFile, (s'.info nFile).nSize ≤ MAX_BLOCKFILE_SIZE + 8) : FilesFit s' := by
  refine ⟨fun hl => (hentry hl).1, fun hl => (hentry hl).2.2, fun hl => (hentry hl).2.1, fun hl hin => ?_,
    fun hl hin => ?_, fun hl hl' hin hin' hne => ?_, hbs, hsize⟩
  · rcases hkept hl hin with ⟨e, he, hin, hht, -, hw⟩ | ⟨-, hnew⟩
    · have := h.covered he hin
      have := hw.first
      have := hw.last
      omega
    · exact hnew.covered
  · rcases hkept hl hin with ⟨e, he, hin, -, hpos, hw⟩ | ⟨-, hnew⟩
    · have := h.within he hin
      have := hw.size
      omega
    · exact hnew.within
  · rcases hkept hl hin with ⟨e, he, hin, -, hpos, -⟩ | ⟨rfl, hnew⟩
    · rcases hkept hl' hin' with ⟨e', he', hin', -, hpos', -⟩ | ⟨rfl, hnew⟩
      · rw [hpos, hpos']
        exact h.apart he he' hin hin' hne
      · rw [hpos]
        exact (hnew.free he hin).symm
    · rcases hkept hl' hin' with ⟨e', he', hin', -, hpos', -⟩ | ⟨rfl, -⟩
      · rw [hpos']
        exact hnew.free he' hin'
      · exact absurd rfl hne

theorem FilesFit.congr (h : FilesFit s) (hmap : s'.mapBlockIndex = s.mapBlockIndex)
    (hinfo : ∀ nFile, (s'.info nFile).nBlocks = (s.info nFile).nBlocks ∧ (s'.info nFile).nSize = (s.info nFile).nSize ∧
      (s'.info nFile).nHeightFirst = (s.info nFile).nHeightFirst ∧
      (s'.info nFile).nHeightLast = (s.info nFile).nHeightLast) : FilesFit s' := by
  refine h.of_kept 0 (fun hl => h.entry (hmap ▸ hl)) (fun {_ e nFile} hl hin => ?_) (fun nFile => ?_) (fun nFile => ?_)
  · obtain ⟨-, hsize, hfirst, hlast⟩ := hinfo nFile
    exact .inl ⟨e, hmap ▸ hl, hin, rfl, rfl, hfirst.le, hlast.ge, hsize.ge⟩
  · rw [stored, hmap, (hinfo nFile).1, (hinfo nFile).2.1]
    exact h.blocks nFile
  · rw [(hinfo nFile).2.1]
    exact h.size nFile

theorem FilesFit.setEntry (h : FilesFit s) {e' : BlockIndexEntry} (hentry : EntryFits e')
    (hold : (s.mapBlockIndex.lookup hash = none ∧ hasStatus e'.nStatus BLOCK_HAVE_DATA = false) ∨
      ∃ e, s.mapBlockIndex.lookup hash = some e ∧ e'.nHeight = e.nHeight ∧ e'.nDataPos = e.nDataPos ∧
        ∀ nFile, inFile nFile e' = inFile nFile e) : FilesFit (s.setEntry hash e') := by
  have hcount : ∀ nFile, (s.setEntry hash e').stored nFile = s.stored nFile := by
    intro nFile
    rcases hold with ⟨hnone, hdata⟩ | ⟨e, he, -, -, hin⟩
    · have := KeyMap.count_insert_none (inFile nFile) hnone e'
      rwa [inFile, hdata, Bool.false_and] at this
    · have := KeyMap.count_insert_some (inFile nFile) he e'
      rw [hin nFile] at this
      exact Nat.add_right_cancel this
  refine h.of_kept hash (fun hl => ?_) (fun {_ e1 _} hl hin => ?_) (fun nFile => ?_) h.size
  · rcases KeyMap.lookup_insert_cases hl with ⟨-, rfl⟩ | ⟨-, hl⟩
    · exact hentry
    · exact h.entry hl
  · rcases KeyMap.lookup_insert_cases hl with ⟨rfl, rfl⟩ | ⟨-, hl⟩
    · rcases hold with ⟨-, hdata⟩ | ⟨e, he, hht, hpos, hin'⟩
      · simp [inFile, hdata] at hin
      · exact .inl ⟨e, he, hin' _ ▸ hin, hht, hpos, le_rfl, le_rfl, le_rfl⟩
    · exact .inl ⟨e1, hl, hin, rfl, rfl, le_rfl, le_rfl, le_rfl⟩
  · rw [hcount]
    exact h.blocks nFile

def grown (nFile nHeight nTime nSize : Nat) (s : BlockStore) : CBlockFileInfo :=
  { (s.info nFile).addBlock nHeight nTime with nSize }

section Grown

variable {nHeight nTime nSize : Nat}

theorem FilesFit.kept_grown (h : FilesFit s) (hsize : (s.info nFile).nSize ≤ nSize) {hash : Uint256}
    {e : BlockIndexEntry} {nFile' : Nat} (hl : s.mapBlockIndex.lookup hash = some e) (hin : inFile nFile' e = true) :
    KeptFrom s (s.setInfo nFile (s.grown nFile nHeight nTime nSize)) hash nFile' e := by
  refine ⟨e, hl, hin, rfl, rfl, ?_⟩
  rw [info_setInfo]
  split
  · rename_i hfile
    subst hfile
    obtain ⟨-, -, -, hfirst, hlast⟩ := CBlockFileInfo.addBlock_spec (h.nBlocks_lt nFile') nHeight nTime
    obtain ⟨failed, hbs, -⟩ := h.blocks nFile'
    have hpos : 0 < s.stored nFile' := KeyMap.count_pos hl hin
    exact ⟨hfirst (by omega), hlast, hsize⟩
  · exact ⟨le_rfl, le_rfl, le_rfl⟩

theorem FilesFit.size_grown (h : FilesFit s) (hmax : nSize ≤ MAX_BLOCKFILE_SIZE + 8) (nFile' : Nat) :
    ((s.setInfo nFile (s.grown nFile nHeight nTime nSize)).info nFile').nSize ≤ MAX_BLOCKFILE_SIZE + 8 := by
  rw [info_setInfo]
  split
  · exact hmax
  · exact h.size nFile'

theorem FilesFit.failed (h : FilesFit s) (hsize : (s.info nFile).nSize + 8 ≤ nSize)
    (hmax : nSize ≤ MAX_BLOCKFILE_SIZE + 8) : FilesFit (s.setInfo nFile (s.grown nFile nHeight nTime nSize)) := by
  refine h.of_kept 0 h.entry (fun hl hin => .inl (h.kept_grown (by omega) hl hin)) (fun nFile' => ?_) (h.size_grown hmax)
  obtain ⟨failed, hbs, hfail⟩ := h.blocks nFile'
  rw [info_setInfo]
  split
  · rename_i hfile
    subst hfile
    obtain ⟨hn, -⟩ := CBlockFileInfo.addBlock_spec (h.nBlocks_lt nFile') nHeight nTime
    refine ⟨failed + 1, ?_, ?_⟩
    · dsimp only [grown]
      rw [hn, hbs]
      rfl
    · dsimp only [grown]
      omega
  · exact ⟨failed, hbs, hfail⟩

theorem FilesFit.received (h : FilesFit s) (he : s.mapBlockIndex.lookup hash = some e)
    (hdata : hasStatus e.nStatus BLOCK_HAVE_DATA = false) (hsize : (s.info nFile).nSize ≤ nSize)
    (hmax : nSize ≤ MAX_BLOCKFILE_SIZE + 8) {nDataPos : Nat} (hpos : nDataPos + 80 ≤ nSize)
    (hfree : ∀ {hash' e'}, s.mapBlockIndex.lookup hash' = some e' → inFile nFile e' = true →
      nDataPos + 8 ≤ e'.nDataPos ∨ e'.nDataPos + 8 ≤ nDataPos) (hht : nHeight = e.nHeight.toNat) (nTx : Nat) :
    FilesFit ((s.setInfo nFile (s.grown nFile nHeight nTime nSize)).setEntry hash
      (BlockStore.received nTx nFile nDataPos e)) := by
  obtain ⟨hn, hfirst, hlast, -⟩ := CBlockFileInfo.addBlock_spec (h.nBlocks_lt nFile) nHeight nTime
  have hnn := h.height he
  have hnew : ∀ nFile', inFile nFile' (BlockStore.received nTx nFile nDataPos e) = decide (nFile' = nFile) := by
    intro nFile'
    rw [inFile, received_data, Bool.true_and]
    exact decide_eq_decide.2 (by rw [BlockStore.received, Nat.cast_inj, eq_comm])
  refine h.of_kept hash (fun hl => ?_) (fun {_ _ nFile'} hl hin => ?_) (fun nFile' => ?_) (h.size_grown hmax)
  · rcases KeyMap.lookup_insert_cases hl with ⟨-, rfl⟩ | ⟨-, hl⟩
    · exact ⟨hnn, Int.natCast_nonneg nFile, fun _ => received_data nTx nFile nDataPos e⟩
    · exact h.entry hl
  · rcases KeyMap.lookup_insert_cases hl with ⟨rfl, rfl⟩ | ⟨-, hl⟩
    · rw [hnew, decide_eq_true_eq] at hin
      subst hin
      refine .inr ⟨rfl, ?_, ?_, hfree⟩
      · rw [info_setEntry, info_setInfo, if_pos rfl]
        dsimp only [grown, BlockStore.received]
        omega
      · rw [info_setEntry, info_setInfo, if_pos rfl]
        exact hpos
    · exact .inl (h.kept_grown hsize hl hin)
  · obtain ⟨failed, hbs, hfail⟩ := h.blocks nFile'
    have hcount : ((s.setInfo nFile (s.grown nFile nHeight nTime nSize)).setEntry hash
        (BlockStore.received nTx nFile nDataPos e)).stored nFile' = s.stored nFile' + (decide (nFile' = nFile)).toNat := by
      have := KeyMap.count_insert_some (inFile nFile') he (BlockStore.received nTx nFile nDataPos e)
      rwa [inFile, hdata, Bool.false_and, hnew] at this
    refine ⟨failed, ?_⟩
    rw [hcount, info_setEntry, info_setInfo]
    by_cases hfile : nFile' = nFile
    · subst hfile
      rw [if_pos rfl, decide_eq_true rfl]
      dsimp only [grown]
      rw [hn, hbs, Bool.toNat_true]
      omega
    · rw [if_neg hfile, decide_eq_false hfile]
      exact ⟨hbs, hfail⟩

end Grown

/-! ### Pruning -/

theorem lookup_pruneOneBlockFile (fileNumber : Nat) (s : BlockStore) (hash : Uint256) :
    (s.pruneOneBlockFile fileNumber).mapBlockIndex.lookup hash =
      (s.mapBlockIndex.lookup hash).map (prune fileNumber) :=
  KeyMap.lookup_mapValues _ _ _

theorem info_pruneOneBlockFile (fileNumber nFile : Nat) (s : BlockStore) :
    (s.pruneOneBlockFile fileNumber).info nFile = if nFile = fileNumber then .setNull else s.info nFile :=
  info_setInfo fileNumber nFile .setNull s

theorem inFile_prune (fileNumber nFile : Nat) (e : BlockIndexEntry) :
    inFile nFile (prune fileNumber e) = (inFile nFile e && nFile ≠ fileNumber) := by
  unfold prune
  by_cases hf : e.nFile = fileNumber
  · by_cases hn : nFile = fileNumber
    · simp [hf, hn, inFile]
    · simp [hf, hn, inFile, Ne.symm hn]
  · by_cases hn : nFile = fileNumber
    · simp [inFile, hn, hf]
    · simp [hn, hf]

theorem stored_pruneOneBlockFile (fileNumber nFile : Nat) (s : BlockStore) :
    (s.pruneOneBlockFile fileNumber).stored nFile = if nFile = fileNumber then 0 else s.stored nFile := by
  have hcount : (s.pruneOneBlockFile fileNumber).stored nFile =
      s.mapBlockIndex.count fun e => inFile nFile e && nFile ≠ fileNumber := by
    refine (KeyMap.count_mapValues _ _ _).trans ?_
    rw [funext (inFile_prune fileNumber nFile)]
  rw [hcount]
  split
  · rename_i hn
    simp [hn, KeyMap.count]
  · rename_i hn
    simp [hn, stored]

theorem prune_of_inFile {fileNumber : Nat} (hin : inFile nFile (prune fileNumber e) = true) :
    prune fileNumber e = e ∧ nFile ≠ fileNumber := by
  rw [inFile_prune, Bool.and_eq_true, decide_eq_true_eq] at hin
  refine ⟨if_neg fun hf => hin.2 ?_, hin.2⟩
  rw [(inFile_iff.1 hin.1).2] at hf
  exact Int.natCast_inj.1 hf

theorem EntryFits.prune (h : EntryFits e) (fileNumber : Nat) : EntryFits (prune fileNumber e) := by
  unfold BlockStore.prune
  split
  · exact ⟨h.1, le_rfl, fun hundo => by simp at hundo⟩
  · exact h

theorem FilesFit.pruneOneBlockFile (h : FilesFit s) (fileNumber : Nat) : FilesFit (s.pruneOneBlockFile fileNumber) := by
  have hback : ∀ {hash e'}, (s.pruneOneBlockFile fileNumber).mapBlockIndex.lookup hash = some e' →
      ∃ e, s.mapBlockIndex.lookup hash = some e ∧ prune fileNumber e = e' := by
    intro hash e' hl
    rwa [lookup_pruneOneBlockFile, Option.map_eq_some_iff] at hl
  refine h.of_kept 0 (fun hl => ?_) (fun hl hin => ?_) (fun nFile => ?_) (fun nFile => ?_)
  · obtain ⟨e, he, rfl⟩ := hback hl
    exact (h.entry he).prune fileNumber
  · obtain ⟨e, he, rfl⟩ := hback hl
    obtain ⟨hsame, hne⟩ := prune_of_inFile hin
    rw [hsame] at hin ⊢
    refine .inl ⟨e, he, hin, rfl, rfl, ?_⟩
    rw [info_pruneOneBlockFile, if_neg hne]
    exact ⟨le_rfl, le_rfl, le_rfl⟩
  · rw [stored_pruneOneBlockFile, info_pruneOneBlockFile]
    split
    · exact ⟨0, rfl, le_rfl⟩
    · exact h.blocks nFile
  · rw [info_pruneOneBlockFile]
    split
    · exact Nat.zero_le _
    · exact h.size nFile

/-- What pruning the given files makes of an entry. -/
structure Pruned (files : List Nat) (e e' : BlockIndexEntry) : Prop where
  height : e'.nHeight = e.nHeight
  data : hasStatus e'.nStatus BLOCK_HAVE_DATA = (hasStatus e.nStatus BLOCK_HAVE_DATA && e.nFile.toNat ∉ files)
  undo : hasStatus e'.nStatus BLOCK_HAVE_UNDO = (hasStatus e.nStatus BLOCK_HAVE_UNDO && e.nFile.toNat ∉ files)
  file : hasStatus e'.nStatus BLOCK_HAVE_DATA = true → e'.nFile = e.nFile

theorem Pruned.prune {e0 : BlockIndexEntry} (h : Pruned files e0 e) (hentry : EntryFits e) (fileNumber : Nat) :
    Pruned (files ++ [fileNumber]) e0 (prune fileNumber e) := by
  obtain ⟨hht, hdata, hundo, hfile⟩ := h
  obtain ⟨-, hnn, himp⟩ := hentry
  unfold BlockStore.prune
  by_cases hf : e.nFile = fileNumber
  · rw [if_pos hf]
    -- a block that is still stored is in the file its first entry names
    have hgone : hasStatus e.nStatus BLOCK_HAVE_DATA = true → e0.nFile.toNat = fileNumber := fun hd => by
      have := hfile hd
      omega
    refine ⟨hht, ?_, ?_, fun hd => by simp at hd⟩
    · grind [forget_data]
    · grind [forget_undo]
  · rw [if_neg hf]
    have hkept : hasStatus e.nStatus BLOCK_HAVE_DATA = true → e0.nFile.toNat ≠ fileNumber := fun hd => by
      have := hfile hd
      omega
    refine ⟨hht, ?_, ?_, hfile⟩
    · grind
    · grind

/-- The state in the loop of `FindFilesToPrune` that has pruned the given files. -/
structure Pruning (nLastBlockWeCanPrune : Nat) (s₀ : BlockStore) (files : List Nat) (s : BlockStore) : Prop where
  fits : FilesFit s
  entries : ∀ {hash e₀}, s₀.mapBlockIndex.lookup hash = some e₀ →
    ∃ e, s.mapBlockIndex.lookup hash = some e ∧ Pruned files e₀ e
  low : ∀ {hash e₀}, s₀.mapBlockIndex.lookup hash = some e₀ → hasStatus e₀.nStatus BLOCK_HAVE_DATA = true →
    e₀.nFile.toNat ∈ files → e₀.nHeight ≤ nLastBlockWeCanPrune

theorem Pruning.refl (h : FilesFit s) (nLastBlockWeCanPrune : Nat) : Pruning nLastBlockWeCanPrune s [] s :=
  ⟨h, fun {_ e} hl => ⟨e, hl, rfl, by simp, by simp, fun _ => rfl⟩, fun _ _ hin => by cases hin⟩

theorem Pruning.pruneOneBlockFile {fileNumber : Nat} {s0 : BlockStore} (h : Pruning nLastBlockWeCanPrune s0 files s)
    (hlow : (s.info fileNumber).nHeightLast ≤ nLastBlockWeCanPrune) :
    Pruning nLastBlockWeCanPrune s0 (files ++ [fileNumber]) (s.pruneOneBlockFile fileNumber) := by
  refine ⟨h.fits.pruneOneBlockFile fileNumber, fun {hash e0} hl0 => ?_, fun {hash e0} hl0 hdata hin => ?_⟩
  · obtain ⟨e, hl, hp⟩ := h.entries hl0
    exact ⟨prune fileNumber e, by rw [lookup_pruneOneBlockFile, hl]; rfl,
      hp.prune (h.fits.entry hl) fileNumber⟩
  · rcases mem_append.1 hin with hin | hin
    · exact h.low hl0 hdata hin
    · by_cases hold : e0.nFile.toNat ∈ files
      · exact h.low hl0 hdata hold
      · -- the block was still stored in the file that is pruned now
        obtain ⟨e, hl, hp⟩ := h.entries hl0
        have hdata' : hasStatus e.nStatus BLOCK_HAVE_DATA = true := by simp [hp.data, hdata, hold]
        have hnn := h.fits.file hl
        have hfile : inFile fileNumber e = true := by
          have := hp.file hdata'
          rw [mem_singleton] at hin
          exact inFile_iff.2 ⟨hdata', by omega⟩
        have := (h.fits.covered hl hfile).2
        have := hp.height
        omega

theorem Pruning.pruneLoop {nPruneTarget : Nat} {s0 : BlockStore} (h : Pruning nLastBlockWeCanPrune s0 files s)
    (fileNumbers : List Nat) (nCurrentUsage : Nat) :
    Pruning nLastBlockWeCanPrune s0
      (s.pruneLoop nLastBlockWeCanPrune nPruneTarget fileNumbers nCurrentUsage files).1
      (s.pruneLoop nLastBlockWeCanPrune nPruneTarget fileNumbers nCurrentUsage files).2 := by
  induction fileNumbers generalizing s files nCurrentUsage with
  | nil => exact h
  | cons fileNumber fileNumbers ih =>
    rw [BlockStore.pruneLoop]
    split
    · exact ih h _
    · split
      · exact h
      · split
        · exact ih h _
        · exact ih (h.pruneOneBlockFile (by omega)) _

theorem FilesFit.findFilesToPrune (h : FilesFit s) (tip : Option Int) (pruneAfterHeight : Int) (nPruneTarget : Nat) :
    ∃ nLastBlockWeCanPrune, Pruning nLastBlockWeCanPrune s (s.findFilesToPrune tip pruneAfterHeight nPruneTarget).1
        (s.findFilesToPrune tip pruneAfterHeight nPruneTarget).2 ∧
      ∀ nHeight, tip = some nHeight → MIN_BLOCKS_TO_KEEP ≤ pruneAfterHeight → pruneAfterHeight < nHeight →
        nHeight < 2 ^ 31 → (nLastBlockWeCanPrune : Int) = nHeight - MIN_BLOCKS_TO_KEEP := by
  cases tip with
  | none => exact ⟨0, Pruning.refl h 0, fun _ ht => by cases ht⟩
  | some nHeight =>
    refine ⟨((nHeight - MIN_BLOCKS_TO_KEEP) % 2 ^ 32).toNat, ?_, fun _ ht hafter hlt hint => by
      cases ht
      rw [MIN_BLOCKS_TO_KEEP] at *
      omega⟩
    rw [BlockStore.findFilesToPrune]
    split
    · exact Pruning.refl h _
    · split
      · exact Pruning.refl h _
      · dsimp only
        split
        · exact (Pruning.refl h _).pruneLoop _ _
        · exact Pruning.refl h _

/-! ### Whole histories -/

theorem findBlockPos_eq {nHeight : Nat} {ok : Bool}
    (hs : s.findBlockPos nAddSize nHeight nTime checkDiskSpace = some (ok, pos, s')) :
    ∃ nFile : Nat, ((s.info nFile).nSize + nAddSize) % 2 ^ 32 < MAX_BLOCKFILE_SIZE ∧ pos = ⟨nFile, (s.info nFile).nSize⟩ ∧
      s'.mapBlockIndex = s.mapBlockIndex ∧ s'.vinfoBlockFile =
        (s.setInfo nFile (s.grown nFile nHeight nTime (((s.info nFile).nSize + nAddSize) % 2 ^ 32))).vinfoBlockFile := by
  unfold findBlockPos at hs
  cases hfit : firstFit nAddSize (s.vinfoBlockFile.drop s.nLastBlockFile) s.nLastBlockFile with
  | none =>
    rw [hfit] at hs
    cases hs
  | some nFile =>
    rw [hfit] at hs
    cases hs
    exact ⟨nFile, firstFit_last hfit, rfl, rfl, rfl⟩

theorem FilesFit.writeBlock (h : FilesFit s) (he : s.mapBlockIndex.lookup hash = some e)
    (hdata : hasStatus e.nStatus BLOCK_HAVE_DATA = false) {nBlockSize : Nat} {ok : Bool}
    (hsize : blockSizeOk nBlockSize = true)
    (hs : s.findBlockPos (nBlockSize + 8) e.nHeight.toNat nTime checkDiskSpace = some (ok, pos, s')) (nTx : Nat)
    (written : Bool) :
    FilesFit s' ∧
      FilesFit (s'.setEntry hash (BlockStore.received nTx pos.nFile.toNat (if written then pos.nPos + 8 else pos.nPos) e)) := by
  obtain ⟨nFile, hfit, rfl, hmap, hvinfo⟩ := findBlockPos_eq hs
  rw [blockSizeOk, Bool.and_eq_true, decide_eq_true_eq, decide_eq_true_eq, MAX_BLOCK_SIZE] at hsize
  have hold := h.size nFile
  have hmod : ((s.info nFile).nSize + (nBlockSize + 8)) % 2 ^ 32 = (s.info nFile).nSize + (nBlockSize + 8) := by
    rw [MAX_BLOCKFILE_SIZE] at hold
    omega
  have hinfo : ∀ nFile', s'.info nFile' = (s.setInfo nFile (s.grown nFile e.nHeight.toNat nTime
      (((s.info nFile).nSize + (nBlockSize + 8)) % 2 ^ 32))).info nFile' := by
    intro nFile'
    rw [BlockStore.info, hvinfo]
    rfl
  rw [hmod] at hinfo hfit
  have hgrow : (s.info nFile).nSize + 8 ≤ (s.info nFile).nSize + (nBlockSize + 8) := by omega
  have hmax : (s.info nFile).nSize + (nBlockSize + 8) ≤ MAX_BLOCKFILE_SIZE + 8 := by omega
  refine ⟨(h.failed hgrow hmax).congr hmap fun nFile' => by rw [hinfo]; exact ⟨rfl, rfl, rfl, rfl⟩, ?_⟩
  have hpos : (if written = true then (s.info nFile).nSize + 8 else (s.info nFile).nSize) + 80 ≤
      (s.info nFile).nSize + (nBlockSize + 8) := by
    split <;> omega
  have hrec : FilesFit ((s.setInfo nFile (s.grown nFile e.nHeight.toNat nTime
      ((s.info nFile).nSize + (nBlockSize + 8)))).setEntry hash (BlockStore.received nTx nFile
        (if written = true then (s.info nFile).nSize + 8 else (s.info nFile).nSize) e)) := by
    refine h.received he hdata (by omega) hmax hpos (fun hl hin => .inr ?_) rfl nTx
    have := h.within hl hin
    split <;> omega
  refine hrec.congr ?_ fun nFile' => by rw [info_setEntry, info_setEntry, hinfo]; exact ⟨rfl, rfl, rfl, rfl⟩
  rw [BlockStore.setEntry, hmap]
  rfl

theorem FilesFit.reindexBlock (h : FilesFit s) (he : s.mapBlockIndex.lookup hash = some e)
    (hdata : hasStatus e.nStatus BLOCK_HAVE_DATA = false) {nBlockSize nPos : Nat} (hsize : blockSizeOk nBlockSize = true)
    (hfree : s.freePlace nFile nPos (nBlockSize + 8) = true) (nTx : Nat) :
    FilesFit ((s.findKnownBlockPos nFile nPos (nBlockSize + 8) e.nHeight.toNat nTime).setEntry hash
      (BlockStore.received nTx nFile nPos e)) := by
  rw [blockSizeOk, Bool.and_eq_true, decide_eq_true_eq, decide_eq_true_eq, MAX_BLOCK_SIZE] at hsize
  rw [freePlace, Bool.and_eq_true, decide_eq_true_eq, all_eq_true] at hfree
  obtain ⟨hend, hfree⟩ := hfree
  have hold := h.size nFile
  have hmod : (nPos + (nBlockSize + 8)) % 2 ^ 32 = nPos + (nBlockSize + 8) := by
    rw [MAX_BLOCKFILE_SIZE] at hend
    omega
  have hrec : FilesFit ((s.setInfo nFile (s.grown nFile e.nHeight.toNat nTime
      (max ((nPos + (nBlockSize + 8)) % 2 ^ 32) (s.info nFile).nSize))).setEntry hash
        (BlockStore.received nTx nFile nPos e)) := by
    refine h.received he hdata (by omega) (by omega) (by omega) (fun hl hin => ?_) rfl nTx
    have := hfree _ (AList.mem_lookup_iff.1 hl)
    simpa [hin] using this
  exact hrec.congr rfl fun nFile' => ⟨rfl, rfl, rfl, rfl⟩

theorem FilesFit.writeUndo (h : FilesFit s) (he : s.mapBlockIndex.lookup hash = some e)
    (hdata : hasStatus e.nStatus BLOCK_HAVE_DATA = true) (nFile nAddSize nUndoPos : Nat) (checkDiskSpace : Bool) :
    FilesFit (s.findUndoPos nFile nAddSize checkDiskSpace).2.2 ∧
      FilesFit ((s.findUndoPos nFile nAddSize checkDiskSpace).2.2.setEntry hash (undoWritten nUndoPos e)) := by
  have hfit : FilesFit (s.findUndoPos nFile nAddSize checkDiskSpace).2.2 := by
    refine h.congr rfl fun nFile' => ?_
    have hinfo : (s.findUndoPos nFile nAddSize checkDiskSpace).2.2.info nFile' =
        (s.setInfo nFile { s.info nFile with nUndoSize := ((s.info nFile).nUndoSize + nAddSize) % 2 ^ 32 }).info nFile' :=
      rfl
    rw [hinfo, info_setInfo]
    split
    · rename_i hf
      subst hf
      exact ⟨rfl, rfl, rfl, rfl⟩
    · exact ⟨rfl, rfl, rfl, rfl⟩
  have hsame : ∀ nFile', inFile nFile' (undoWritten nUndoPos e) = inFile nFile' e := by
    intro nFile'
    rw [inFile, inFile, undoWritten_data]
    rfl
  obtain ⟨hht, hfile, -⟩ := h.entry he
  have hentry : EntryFits (undoWritten nUndoPos e) :=
    ⟨hht, hfile, fun _ => by rw [undoWritten_data, hdata]⟩
  exact ⟨hfit, hfit.setEntry hentry (.inr ⟨e, he, rfl, rfl, hsame⟩)⟩

theorem FilesFit.step (h : FilesFit s) {call : StoreCall} (hs : s.step call = some s') : FilesFit s' := by
  cases call with
  | addHeader hash header pprev nHeight =>
    rw [BlockStore.step] at hs
    split at hs
    · rename_i hnew
      rw [Bool.and_eq_true, Option.isNone_iff_eq_none] at hnew
      cases hs
      have hdata : hasStatus BLOCK_VALID_TREE BLOCK_HAVE_DATA = false := by decide
      have hundo : hasStatus BLOCK_VALID_TREE BLOCK_HAVE_UNDO ≠ true := by decide
      exact h.setEntry ⟨Int.natCast_nonneg nHeight, le_rfl, fun hu => absurd hu hundo⟩ (.inl ⟨hnew.1, hdata⟩)
    · cases hs
  | writeBlock hash nBlockSize nTime nTx checkDiskSpace written =>
    obtain ⟨e, he, hs⟩ := Option.bind_eq_some_iff.1 hs
    split at hs
    · rename_i hguard
      rw [Bool.and_eq_true, Bool.not_eq_true'] at hguard
      obtain ⟨⟨ok, pos, s1⟩, hpos, hs⟩ := Option.bind_eq_some_iff.1 hs
      obtain ⟨hfail, hwr⟩ := h.writeBlock he hguard.2 hguard.1 hpos nTx written
      cases ok with
      | true =>
        cases hs
        exact hwr
      | false =>
        cases hs
        exact hfail
    · cases hs
  | reindexBlock hash nBlockSize nTime nTx nFile nPos =>
    obtain ⟨e, he, hs⟩ := Option.bind_eq_some_iff.1 hs
    split at hs
    · rename_i hguard
      rw [Bool.and_eq_true, Bool.and_eq_true, Bool.not_eq_true'] at hguard
      cases hs
      exact h.reindexBlock he hguard.1.2 hguard.1.1 hguard.2 nTx
    · cases hs
  | writeUndo hash nUndoBytes checkDiskSpace =>
    obtain ⟨e, he, hs⟩ := Option.bind_eq_some_iff.1 hs
    split at hs
    · rename_i hdata
      split at hs
      · obtain ⟨hfail, hwr⟩ := h.writeUndo he hdata e.nFile.toNat (nUndoBytes + 40)
          (s.findUndoPos e.nFile.toNat (nUndoBytes + 40) checkDiskSpace).2.1 checkDiskSpace
        dsimp only at hs
        split at hs
        · cases hs
          exact hwr
        · cases hs
          exact hfail
      · cases hs
        exact h
    · cases hs
  | relink mapBlocksUnlinked =>
    cases hs
    exact h.congr rfl fun _ => ⟨rfl, rfl, rfl, rfl⟩
  | findFilesToPrune tip pruneAfterHeight nPruneTarget =>
    cases hs
    obtain ⟨n, hprun, -⟩ := h.findFilesToPrune tip pruneAfterHeight nPruneTarget
    exact hprun.fits

theorem FilesFit.run (h : FilesFit s) {calls : List StoreCall} (hs : s.run calls = some s') : FilesFit s' := by
  induction calls generalizing s with
  | nil =>
    cases hs
    exact h
  | cons call calls ih =>
    obtain ⟨s1, hs1, hs⟩ := Option.bind_eq_some_iff.1 hs
    exact ih (h.step hs1) hs

/-- After every history of arrivals, undo writes and prunings the summaries cover the heights of the stored blocks.  A
pruning at a tip that is high enough clears the two bits of the blocks stored in the files it returns, of no other
block, and of no block near the tip. -/
theorem findFilesToPrune_safe {calls : List StoreCall} (hs : run calls {} = some s) :
    (∀ hash e nFile, s.mapBlockIndex.lookup hash = some e → inFile nFile e = true →
      (s.info nFile).nHeightFirst ≤ e.nHeight ∧ e.nHeight ≤ (s.info nFile).nHeightLast) ∧
    ∀ (nHeight pruneAfterHeight : Int) (nPruneTarget : Nat) files s', MIN_BLOCKS_TO_KEEP ≤ pruneAfterHeight →
      pruneAfterHeight < nHeight → nHeight < 2 ^ 31 →
      s.findFilesToPrune (some nHeight) pruneAfterHeight nPruneTarget = (files, s') →
      ∀ hash e, s.mapBlockIndex.lookup hash = some e → ∃ e', s'.mapBlockIndex.lookup hash = some e' ∧
        hasStatus e'.nStatus BLOCK_HAVE_DATA = (hasStatus e.nStatus BLOCK_HAVE_DATA && e.nFile.toNat ∉ files) ∧
        hasStatus e'.nStatus BLOCK_HAVE_UNDO = (hasStatus e.nStatus BLOCK_HAVE_UNDO && e.nFile.toNat ∉ files) ∧
        (nHeight - MIN_BLOCKS_TO_KEEP < e.nHeight →
          hasStatus e'.nStatus BLOCK_HAVE_DATA = hasStatus e.nStatus BLOCK_HAVE_DATA ∧
          hasStatus e'.nStatus BLOCK_HAVE_UNDO = hasStatus e.nStatus BLOCK_HAVE_UNDO) := by
  have h := filesFit_empty.run hs
  refine ⟨fun _ _ _ hl hin => h.covered hl hin, ?_⟩
  intro nHeight pruneAfterHeight nPruneTarget files s' hafter htip hint hcall hash e hl
  obtain ⟨nLast, hprun, hlast⟩ := h.findFilesToPrune (some nHeight) pruneAfterHeight nPruneTarget
  rw [hcall] at hprun
  have hlast := hlast nHeight rfl hafter htip hint
  obtain ⟨e', hl', hp⟩ := hprun.entries hl
  refine ⟨e', hl', hp.data, hp.undo, fun hhigh => ?_⟩
  rw [hp.data, hp.undo]
  cases hdata : hasStatus e.nStatus BLOCK_HAVE_DATA with
  | true =>
    have hout : e.nFile.toNat ∉ files := fun hin => by
      have := hprun.low hl hdata hin
      omega
    rw [decide_eq_true hout, Bool.and_true, Bool.and_true]
    exact ⟨rfl, rfl⟩
  | false =>
    cases hundo : hasStatus e.nStatus BLOCK_HAVE_UNDO with
    | true =>
      rw [h.undo hl hundo] at hdata
      cases hdata
    | false => exact ⟨Bool.false_and _, Bool.false_and _⟩

def nullHeader : CBlockHeader where
  nVersion := 4
  hashPrevBlock := 0
  hashMerkleRoot := 0
  hashReserved := 0
  nTime := 0
  nBits := 0
  nNonce := 0
  nSolution := []

/-- An old block in the first file and a recent one in the second. -/
def twoFiles : List StoreCall :=
  [.addHeader 1 nullHeader none 0, .addHeader 2 nullHeader (some 1) 900, .writeBlock 1 1000 0 1 true true,
    .reindexBlock 2 1000 0 1 1 8, .writeUndo 2 100 true]

theorem findFilesToPrune_safe_twoFiles :
    ∃ s s', run twoFiles {} = some s ∧ s.findFilesToPrune (some 1000) 288 1 = ([0], s') ∧
      ∀ e, s.mapBlockIndex.lookup 2 = some e → ∃ e', s'.mapBlockIndex.lookup 2 = some e' ∧
        hasStatus e'.nStatus BLOCK_HAVE_DATA = hasStatus e.nStatus BLOCK_HAVE_DATA := by
  have hfiles : (run twoFiles {}).map (fun s => (s.findFilesToPrune (some 1000) 288 1).1) = some [0] := by decide
  obtain ⟨s, hs, hfiles⟩ := Option.map_eq_some_iff.1 hfiles
  cases hcall : s.findFilesToPrune (some 1000) 288 1 with
  | mk files s' =>
  rw [hcall] at hfiles
  obtain rfl : files = [0] := hfiles
  refine ⟨s, s', hs, hcall, fun e he => ?_⟩
  obtain ⟨e', he', hdata, -⟩ :=
    (findFilesToPrune_safe hs).2 1000 288 1 [0] s' (by decide) (by decide) (by decide) hcall 2 e he
  have hfile : (run twoFiles {}).map (fun s => (s.mapBlockIndex.lookup 2).map BlockIndexEntry.nFile) = some (some 1) := by
    decide
  rw [hs, Option.map_some, he, Option.map_some, Option.some.injEq, Option.some.injEq] at hfile
  have hout : (1 : Int).toNat ∉ [0] := by decide
  refine ⟨e', he', ?_⟩
  rw [hdata, hfile, decide_eq_true hout, Bool.and_true]

end BlockStore

end LitecoinZ
