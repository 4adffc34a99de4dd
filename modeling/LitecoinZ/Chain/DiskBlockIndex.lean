import LitecoinZ.Lib.KeyMap
import LitecoinZ.Primitives.VarInt
import LitecoinZ.Primitives.WireFormat
import LitecoinZ.Validation.CheckTransaction

/-!
# The block index on disk

What `CDiskBlockIndex` writes of an entry of the block index and what `LoadBlockIndexGuts` makes of it.  Loading files an
entry under the hash of the header that was written and copies its fields one by one; `hashReserved` is not among them.
So the headers of a loaded index are those of the written one just when they leave that field null
(`loadBlockIndexGuts_iff`).  Everything else comes back (`loadBlockIndexGuts_ok`).
-/

namespace LitecoinZ

open Codec StateExcept List

/-! ### Entries -/

def BLOCK_HAVE_DATA : Nat := 8
def BLOCK_HAVE_UNDO : Nat := 16

structure CDiskBlockPos where
  nFile : Int := -1
  nPos : Nat := 0
  deriving DecidableEq, Repr

/-- An entry of `mapBlockIndex`: its parent, what is stored about it, and its header. -/
structure BlockIndexEntry where
  pprev : Option Uint256 := none
  nHeight : Int := 0
  nFile : Int := 0
  nDataPos : Nat := 0
  nUndoPos : Nat := 0
  nTx : Nat := 0
  nStatus : Nat := 0
  hashAnchor : Uint256 := 0
  nSproutValue : Option CAmount := none
  nVersion : Int := 0
  hashMerkleRoot : Uint256 := 0
  hashReserved : Uint256 := 0
  nTime : Nat := 0
  nBits : Nat := 0
  nNonce : Uint256 := 0
  nSolution : List UInt8 := []
  nArrivalTime : Int := -1
  deriving DecidableEq, Repr

def hasStatus (nStatus mask : Nat) : Bool := nStatus &&& mask ≠ 0

variable (e : BlockIndexEntry)

namespace BlockIndexEntry

def getBlockPos : CDiskBlockPos :=
  if hasStatus e.nStatus BLOCK_HAVE_DATA then ⟨e.nFile, e.nDataPos⟩ else {}

def getUndoPos : CDiskBlockPos :=
  if hasStatus e.nStatus BLOCK_HAVE_UNDO then ⟨e.nFile, e.nUndoPos⟩ else {}

def getBlockHeader : CBlockHeader where
  nVersion := e.nVersion
  hashPrevBlock := e.pprev.getD 0
  hashMerkleRoot := e.hashMerkleRoot
  hashReserved := e.hashReserved
  nTime := e.nTime
  nBits := e.nBits
  nNonce := e.nNonce
  nSolution := e.nSolution

/-- `CBlockIndex(const CBlockHeader& block)`. -/
def ofHeader (block : CBlockHeader) : BlockIndexEntry where
  nVersion := block.nVersion
  hashMerkleRoot := block.hashMerkleRoot
  hashReserved := block.hashReserved
  nTime := block.nTime
  nBits := block.nBits
  nNonce := block.nNonce
  nSolution := block.nSolution

end BlockIndexEntry

structure CDiskBlockIndex where
  nHeight : Int
  nStatus : Nat
  nTx : Nat
  nFile : Int
  nDataPos : Nat
  nUndoPos : Nat
  hashAnchor : Uint256
  nVersion : Int
  hashPrev : Uint256
  hashMerkleRoot : Uint256
  hashReserved : Uint256
  nTime : Nat
  nBits : Nat
  nNonce : Uint256
  nArrivalTime : Int
  nSolution : List UInt8
  nSproutValue : Option CAmount
  deriving DecidableEq, Repr

namespace CDiskBlockIndex

/-- `CDiskBlockIndex(const CBlockIndex* pindex)`. -/
def ofIndex : CDiskBlockIndex :=
  { e with hashPrev := e.pprev.getD 0 }

def getBlockHash (env : Env) (d : CDiskBlockIndex) : Uint256 :=
  env.blockHash {
    nVersion := d.nVersion
    hashPrevBlock := d.hashPrev
    hashMerkleRoot := d.hashMerkleRoot
    hashReserved := d.hashReserved
    nTime := d.nTime
    nBits := d.nBits
    nNonce := d.nNonce
    nSolution := d.nSolution }

end CDiskBlockIndex

/-! ### The format -/

/-- The bytes of a `VARINT` before the last, from the last backwards. -/
def varIntTail : Nat → Nat → List UInt8
  | 0, _ => []
  | digits + 1, n => (if n ≤ 0x7F then [] else varIntTail digits (n / 128 - 1)) ++ [UInt8.ofNat (n % 128 + 128)]

/-- `WriteVarInt` of a 32-bit integer: at most five bytes. -/
def writeVarInt (n : Int) : List UInt8 :=
  (if n ≤ 0x7F then [] else varIntTail 4 (n.toNat / 128 - 1)) ++ [UInt8.ofNat (n % 128).toNat]

def readVarInt : Nat → List UInt8 → Except Fault (Nat × List UInt8)
  | _, [] => .error endOfData
  | n, chData :: bytes =>
    let n := (n * 128 + chData.toNat % 128) % 2 ^ 32
    if chData &&& 0x80 ≠ 0 then readVarInt ((n + 1) % 2 ^ 32) bytes else .ok (n, bytes)

def varUInt : Codec Fault Nat where
  put n := writeVarInt n
  get bytes := readVarInt 0 bytes

def varInt : Codec Fault Int where
  put := writeVarInt
  get bytes := do
    let (n, bytes) ← readVarInt 0 bytes
    pure (if n < 2 ^ 31 then n else n - 2 ^ 32, bytes)

def optional {α : Type} (c : Codec Fault α) : Codec Fault (Option α) where
  put
    | none => [0]
    | some a => 1 :: c.put a
  get
    | [] => .error endOfData
    | discriminant :: bytes =>
      if discriminant = 0 then .ok (none, bytes)
      else if discriminant = 1 then do
        let (a, bytes) ← c.get bytes
        pure (some a, bytes)
      else .error (.exception "non-canonical optional discriminant")

private theorem readVarInt_eq (n : Nat) (bytes : List UInt8) : readVarInt n bytes = VarInt.readVarInt 32 n bytes := by
  induction bytes generalizing n with
  | nil => rfl
  | cons ch bytes ih => simp only [readVarInt, VarInt.readVarInt, ih]

private theorem fill_eq {digits n : Nat} (hn : n < 128 ^ (digits + 1)) :
    VarInt.fill (digits + 1) n 0x80 = .ok (varIntTail (digits + 1) n) := by
  induction digits generalizing n with
  | zero =>
    have hlow : n ≤ 0x7F := by omega
    simp [VarInt.fill, varIntTail, hlow]
  | succ digits ih =>
    rw [VarInt.fill, varIntTail]
    split
    · rfl
    · rw [ih (by rw [Nat.pow_succ] at hn; omega)]
      rfl

theorem readVarInt_writeVarInt {n : Nat} (hn : n < 2 ^ 32) (rest : List UInt8) :
    readVarInt 0 (writeVarInt n ++ rest) = .ok (n, rest) := by
  obtain ⟨bytes, hwrite, -, -, hread⟩ := VarInt.read_write (by decide) hn
  have heq : VarInt.writeVarInt 32 n = .ok (writeVarInt n) := by
    have hmod : ((n : Int) % 128).toNat = n % 128 := by omega
    rw [VarInt.writeVarInt, writeVarInt, VarInt.fill, hmod, Int.toNat_natCast]
    by_cases hlow : n ≤ 0x7F
    · rw [if_pos hlow, if_pos (by omega)]
      rfl
    · rw [if_neg hlow, if_neg (by omega), fill_eq (by omega)]
      rfl
  rw [readVarInt_eq, Except.ok.inj (heq.symm.trans hwrite), hread]

theorem decodes_varUInt : varUInt.Decodes (· < 2 ^ 32) := by
  intro n hn rest
  exact readVarInt_writeVarInt hn rest

theorem decodes_varInt : varInt.Decodes fun n => 0 ≤ n ∧ n < 2 ^ 31 := by
  rintro n ⟨hpos, hlt⟩ rest
  obtain ⟨k, rfl⟩ := Int.eq_ofNat_of_zero_le hpos
  have hk : k < 2 ^ 31 := by omega
  have hread := readVarInt_writeVarInt (show k < 2 ^ 32 by omega) rest
  simp only [varInt, bind, Except.bind]
  rw [hread]
  simp only [if_pos hk]
  rfl

theorem decodes_optional {α : Type} {c : Codec Fault α} {P : α → Prop} (hc : c.Decodes P) :
    (optional c).Decodes fun x => ∀ a ∈ x, P a := by
  intro x hx rest
  cases x with
  | none => rfl
  | some a =>
    have hread := hc a (hx a rfl) rest
    simp only [optional, cons_append, bind, Except.bind]
    rw [if_neg (by decide), if_pos trivial, hread]
    rfl

theorem decodes_ite {α : Type} {b : Bool} {c : Codec Fault α} {P : α → Prop} (a : α) (hc : c.Decodes P) :
    (if b then c else const a).Decodes fun x => if b then P x else x = a := by
  cases b
  · exact (exact_const a).decodes
  · exact hc

/-- `CDiskBlockIndex::SerializationOp` for `SER_DISK`.  What is not stored is zero in a new entry. -/
def CDiskBlockIndex.serializationOp : Codec Fault CDiskBlockIndex :=
  (varInt.seq fun _ => varInt.seq fun _ => varUInt.seq fun nStatus => varUInt.seq fun _ =>
    (if hasStatus nStatus (BLOCK_HAVE_DATA ||| BLOCK_HAVE_UNDO) then varInt else const 0).seq fun _ =>
    (if hasStatus nStatus BLOCK_HAVE_DATA then varUInt else const 0).seq fun _ =>
    (if hasStatus nStatus BLOCK_HAVE_UNDO then varUInt else const 0).seq fun _ =>
    uint256.seq fun _ => (intLE 4).seq fun _ => uint256.seq fun _ => uint256.seq fun _ => uint256.seq fun _ =>
    (uintLE 4).seq fun _ => (uintLE 4).seq fun _ => uint256.seq fun _ => (intLE 8).seq fun _ =>
    (byteVector MAX_SIZE).seq fun _ => optional (intLE 8)).imap
    (fun (_, nHeight, nStatus, nTx, nFile, nDataPos, nUndoPos, hashAnchor, nVersion, hashPrev, hashMerkleRoot,
        hashReserved, nTime, nBits, nNonce, nArrivalTime, nSolution, nSproutValue) =>
      { nHeight, nStatus, nTx, nFile, nDataPos, nUndoPos, hashAnchor, nVersion, hashPrev, hashMerkleRoot,
        hashReserved, nTime, nBits, nNonce, nArrivalTime, nSolution, nSproutValue })
    fun d => (CLIENT_VERSION, d.nHeight, d.nStatus, d.nTx, d.nFile, d.nDataPos, d.nUndoPos, d.hashAnchor, d.nVersion,
      d.hashPrev, d.hashMerkleRoot, d.hashReserved, d.nTime, d.nBits, d.nNonce, d.nArrivalTime, d.nSolution,
      d.nSproutValue)

/-- The stored fields are in the ranges of their types; heights and file numbers are not negative. -/
structure BlockIndexEntry.Fits (e : BlockIndexEntry) : Prop where
  nHeight : 0 ≤ e.nHeight ∧ e.nHeight < 2 ^ 31
  nStatus : e.nStatus < 2 ^ 32
  nTx : e.nTx < 2 ^ 32
  nFile : 0 ≤ e.nFile ∧ e.nFile < 2 ^ 31
  nDataPos : e.nDataPos < 2 ^ 32
  nUndoPos : e.nUndoPos < 2 ^ 32
  nVersion : -2 ^ 31 ≤ e.nVersion ∧ e.nVersion < 2 ^ 31
  nTime : e.nTime < 2 ^ 32
  nBits : e.nBits < 2 ^ 32
  nArrivalTime : Int64Range e.nArrivalTime
  nSolution : e.nSolution.length ≤ MAX_SIZE
  nSproutValue : ∀ v ∈ e.nSproutValue, Int64Range v

/-- What is read of a written entry: positions are stored for the data that is there. -/
def CDiskBlockIndex.stored (d : CDiskBlockIndex) : CDiskBlockIndex :=
  { d with
    nFile := if hasStatus d.nStatus (BLOCK_HAVE_DATA ||| BLOCK_HAVE_UNDO) then d.nFile else 0
    nDataPos := if hasStatus d.nStatus BLOCK_HAVE_DATA then d.nDataPos else 0
    nUndoPos := if hasStatus d.nStatus BLOCK_HAVE_UNDO then d.nUndoPos else 0 }

private theorem put_ite {α : Type} (b : Bool) (c : Codec Fault α) (a x : α) :
    (if b then c else const a).put (if b then x else a) = (if b then c else const a).put x := by
  cases b <;> rfl

theorem CDiskBlockIndex.put_stored (d : CDiskBlockIndex) : serializationOp.put d.stored = serializationOp.put d := by
  simp only [serializationOp, Codec.imap, Codec.seq, stored, put_ite]

theorem CDiskBlockIndex.get_put {e : BlockIndexEntry} (he : e.Fits) (rest : List UInt8) :
    serializationOp.get (serializationOp.put (ofIndex e) ++ rest) = .ok ((ofIndex e).stored, rest) := by
  have hseq := decodes_seq decodes_varInt fun _ _ => decodes_seq decodes_varInt fun _ _ =>
    decodes_seq decodes_varUInt fun nStatus _ => decodes_seq decodes_varUInt fun _ _ =>
    decodes_seq (decodes_ite (b := hasStatus nStatus (BLOCK_HAVE_DATA ||| BLOCK_HAVE_UNDO)) 0 decodes_varInt) fun _ _ =>
    decodes_seq (decodes_ite (b := hasStatus nStatus BLOCK_HAVE_DATA) 0 decodes_varUInt) fun _ _ =>
    decodes_seq (decodes_ite (b := hasStatus nStatus BLOCK_HAVE_UNDO) 0 decodes_varUInt) fun _ _ =>
    decodes_seq exact_uint256.decodes fun _ _ => decodes_seq (exact_intLE 4).decodes fun _ _ =>
    decodes_seq exact_uint256.decodes fun _ _ => decodes_seq exact_uint256.decodes fun _ _ =>
    decodes_seq exact_uint256.decodes fun _ _ => decodes_seq (exact_uintLE 4).decodes fun _ _ =>
    decodes_seq (exact_uintLE 4).decodes fun _ _ => decodes_seq exact_uint256.decodes fun _ _ =>
    decodes_seq exact_int64.decodes fun _ _ =>
    decodes_seq (exact_byteVector (show MAX_SIZE < 2 ^ 64 by decide)).decodes fun _ _ =>
    decodes_optional exact_int64.decodes
  rw [← put_stored]
  refine decodes_imap hseq (Q := (· = (ofIndex e).stored)) ?_ _ rfl rest
  rintro d rfl
  refine ⟨?_, rfl⟩
  have hfile : ∀ b : Bool, if b then 0 ≤ (if b then e.nFile else 0) ∧ (if b then e.nFile else 0) < 2 ^ 31
      else (if b then e.nFile else 0) = 0 := by
    intro b
    cases b
    · rfl
    · exact he.nFile
  have hpos : ∀ b : Bool, ∀ n : Nat, n < 2 ^ 32 →
      if b then (if b then n else 0) < 2 ^ 32 else (if b then n else 0) = 0 := by
    intro b n hn
    cases b
    · rfl
    · exact hn
  have hver := he.nVersion
  have hclient : 0 ≤ CLIENT_VERSION ∧ CLIENT_VERSION < 2 ^ 31 := by decide
  exact ⟨hclient, he.nHeight, he.nStatus, he.nTx, hfile _, hpos _ _ he.nDataPos, hpos _ _ he.nUndoPos, trivial,
    by show _ ≤ 2 * e.nVersion ∧ 2 * e.nVersion < _; omega, trivial, trivial, trivial, he.nTime, he.nBits, trivial,
    he.nArrivalTime, he.nSolution, he.nSproutValue⟩

/-! ### Loading -/

/-- `InsertBlockIndex`: no entry for the null hash, and a new one for a hash that has none. -/
def insertBlockIndex (hash : Uint256) (mapBlockIndex : KeyMap Uint256 BlockIndexEntry) :
    Option Uint256 × KeyMap Uint256 BlockIndexEntry :=
  if hash = 0 then (none, mapBlockIndex)
  else
    match mapBlockIndex.lookup hash with
    | some _ => (some hash, mapBlockIndex)
    | none => (some hash, mapBlockIndex.insert hash {})

/-- The assignments of `LoadBlockIndexGuts` to an entry. -/
def CDiskBlockIndex.assign (d : CDiskBlockIndex) (pprev : Option Uint256) (e : BlockIndexEntry) : BlockIndexEntry :=
  { e with
    pprev
    nHeight := d.nHeight
    nFile := d.nFile
    nDataPos := d.nDataPos
    nUndoPos := d.nUndoPos
    hashAnchor := d.hashAnchor
    nVersion := d.nVersion
    hashMerkleRoot := d.hashMerkleRoot
    nTime := d.nTime
    nBits := d.nBits
    nNonce := d.nNonce
    nArrivalTime := d.nArrivalTime
    nSolution := d.nSolution
    nStatus := d.nStatus
    nTx := d.nTx
    nSproutValue := d.nSproutValue }

/-- The body of the loop for an entry that was read.  The pointer of the null hash is null, and assigning through it is
undefined. -/
def loadEntry (env : Env) (d : CDiskBlockIndex) (mapBlockIndex : KeyMap Uint256 BlockIndexEntry) :
    Except Fault (KeyMap Uint256 BlockIndexEntry) := do
  let (pindexNew, mapBlockIndex) := insertBlockIndex (d.getBlockHash env) mapBlockIndex
  let (pprev, mapBlockIndex) := insertBlockIndex d.hashPrev mapBlockIndex
  match pindexNew with
  | none => .error (.exception "null pointer")
  | some hash =>
    reject (!env.checkProofOfWork hash d.nBits) (.error "LoadBlockIndex(): CheckProofOfWork failed")
    pure (mapBlockIndex.insert hash (d.assign pprev ((mapBlockIndex.lookup hash).getD {})))

/-- The loop over the values stored under `DB_BLOCK_INDEX`. -/
def loadBlockIndexGuts (env : Env) :
    List (List UInt8) → KeyMap Uint256 BlockIndexEntry → Except Fault (KeyMap Uint256 BlockIndexEntry)
  | [], mapBlockIndex => .ok mapBlockIndex
  | value :: values, mapBlockIndex => do
    let (d, _) ← CDiskBlockIndex.serializationOp.get value
    let mapBlockIndex ← loadEntry env d mapBlockIndex
    loadBlockIndexGuts env values mapBlockIndex

def storedValues (entries : List (Sigma fun _ : Uint256 => BlockIndexEntry)) : List (List UInt8) :=
  entries.map fun entry => CDiskBlockIndex.serializationOp.put (.ofIndex entry.2)

/-- An entry made from an accepted header: it has the header of the block, and the hash of the block meets its target.
Everything else about it is arbitrary. -/
structure BlockIndexEntry.Accepted (env : Env) (block : CBlockHeader) (e : BlockIndexEntry) : Prop where
  header : e.getBlockHeader = block
  work : env.checkProofOfWork (env.blockHash block) block.nBits = true
  fits : e.Fits

def BlockIndexEntry.reloaded : BlockIndexEntry :=
  (CDiskBlockIndex.ofIndex e).stored.assign (if e.pprev.getD 0 = 0 then none else some (e.pprev.getD 0)) {}

theorem BlockIndexEntry.getBlockHeader_reloaded :
    e.reloaded.getBlockHeader = { e.getBlockHeader with hashReserved := 0 } := by
  have hprev : (if e.pprev.getD 0 = 0 then none else some (e.pprev.getD 0)).getD 0 = e.pprev.getD 0 := by
    split
    · exact ‹e.pprev.getD 0 = 0›.symm
    · rfl
  unfold reloaded getBlockHeader
  simp only [CDiskBlockIndex.assign, CDiskBlockIndex.stored, CDiskBlockIndex.ofIndex, hprev]

structure BlockIndexEntry.SameStored (e e' : BlockIndexEntry) : Prop where
  nHeight : e'.nHeight = e.nHeight
  nStatus : e'.nStatus = e.nStatus
  nTx : e'.nTx = e.nTx
  nSproutValue : e'.nSproutValue = e.nSproutValue
  hashAnchor : e'.hashAnchor = e.hashAnchor
  getBlockPos : e'.getBlockPos = e.getBlockPos
  getUndoPos : e'.getUndoPos = e.getUndoPos

theorem hasStatus_or (nStatus a b : Nat) : hasStatus nStatus (a ||| b) = (hasStatus nStatus a || hasStatus nStatus b) := by
  simp [hasStatus, Nat.and_or_distrib_left, Nat.or_eq_zero_iff, imp_iff_not_or]

theorem BlockIndexEntry.sameStored_reloaded : e.SameStored e.reloaded := by
  refine ⟨rfl, rfl, rfl, rfl, rfl, ?_, ?_⟩
  · simp only [getBlockPos, reloaded, CDiskBlockIndex.assign, CDiskBlockIndex.stored, CDiskBlockIndex.ofIndex, hasStatus_or]
    split <;> simp [*]
  · simp only [getUndoPos, reloaded, CDiskBlockIndex.assign, CDiskBlockIndex.stored, CDiskBlockIndex.ofIndex, hasStatus_or]
    split <;> simp [*]

/-! ### The loop -/

section

variable {env : Env}

theorem insertBlockIndex_fst (hash : Uint256) (m : KeyMap Uint256 BlockIndexEntry) :
    (insertBlockIndex hash m).1 = if hash = 0 then none else some hash := by
  unfold insertBlockIndex
  split
  · rfl
  · split <;> rfl

theorem lookup_insertBlockIndex (hash k : Uint256) (m : KeyMap Uint256 BlockIndexEntry) :
    (insertBlockIndex hash m).2.lookup k = m.lookup k ∨
      m.lookup k = none ∧ (insertBlockIndex hash m).2.lookup k = some {} := by
  unfold insertBlockIndex
  split
  · exact .inl rfl
  · split
    · exact .inl rfl
    · rename_i hnone
      by_cases hk : k = hash
      · subst hk
        exact .inr ⟨hnone, AList.lookup_insert m⟩
      · exact .inl (AList.lookup_insert_ne hk)

theorem CDiskBlockIndex.getBlockHash_stored :
    (CDiskBlockIndex.ofIndex e).stored.getBlockHash env = env.blockHash e.getBlockHeader := rfl

def Blank (m : KeyMap Uint256 BlockIndexEntry) (k : Uint256) : Prop := (m.lookup k).getD {} = {}

variable {m : KeyMap Uint256 BlockIndexEntry} {e : BlockIndexEntry}
  {entries : List (Sigma fun _ : Uint256 => BlockIndexEntry)}

theorem blank_insertBlockIndex {hash k : Uint256} :
    Blank (insertBlockIndex hash m).2 k ↔ Blank m k := by
  unfold Blank
  rcases lookup_insertBlockIndex hash k m with h | ⟨hnone, hnew⟩
  · rw [h]
  · rw [hnone, hnew]
    rfl

theorem loadEntry_ok {block : CBlockHeader} (he : e.Accepted env block) (hnull : env.blockHash block ≠ 0)
    (hm : Blank m (env.blockHash block)) :
    ∃ m', loadEntry env (CDiskBlockIndex.ofIndex e).stored m = .ok m' ∧
      m'.lookup (env.blockHash block) = some e.reloaded ∧
      ∀ k ≠ env.blockHash block, (∀ x, m.lookup k = some x → m'.lookup k = some x) ∧ (Blank m k → Blank m' k) := by
  obtain ⟨rfl, hwork, -⟩ := he
  generalize hh : env.blockHash e.getBlockHeader = h at hnull hm hwork
  -- the two insertions, and then the assignment
  let m1 := (insertBlockIndex h m).2
  let m2 := (insertBlockIndex (e.pprev.getD 0) m1).2
  have hblank : ∀ k, Blank m2 k ↔ Blank m k := fun k => blank_insertBlockIndex.trans blank_insertBlockIndex
  have hkeep : ∀ k x, m.lookup k = some x → m2.lookup k = some x := by
    intro k x hx
    rcases lookup_insertBlockIndex h k m with h1 | ⟨h1, -⟩
    · rcases lookup_insertBlockIndex (e.pprev.getD 0) k m1 with h2 | ⟨h2, -⟩
      · rw [h2, h1, hx]
      · rw [h1, hx] at h2
        cases h2
    · rw [hx] at h1
      cases h1
  refine ⟨m2.insert h e.reloaded, ?_, AList.lookup_insert m2, ?_⟩
  · have hfirst : (insertBlockIndex h m).1 = some h := by rw [insertBlockIndex_fst, if_neg hnull]
    have hsnd := insertBlockIndex_fst (e.pprev.getD 0) m1
    have hempty : (m2.lookup h).getD {} = {} := (hblank h).2 hm
    have hbits : (CDiskBlockIndex.ofIndex e).stored.nBits = e.getBlockHeader.nBits := rfl
    have hprev : (CDiskBlockIndex.ofIndex e).stored.hashPrev = e.pprev.getD 0 := rfl
    unfold loadEntry
    rw [CDiskBlockIndex.getBlockHash_stored, hh, hprev, hbits]
    simp only [hfirst]
    rw [show (insertBlockIndex h m).2 = m1 from rfl, show (insertBlockIndex (e.pprev.getD 0) m1).2 = m2 from rfl, hempty,
      hsnd, hwork]
    rfl
  · intro k hk
    refine ⟨fun x hx => ?_, fun hb => ?_⟩
    · rw [AList.lookup_insert_ne hk]
      exact hkeep k x hx
    · unfold Blank
      rw [AList.lookup_insert_ne hk]
      exact (hblank k).2 hb

theorem loadEntry_null (hnull : env.blockHash e.getBlockHeader = 0) (m : KeyMap Uint256 BlockIndexEntry) :
    loadEntry env (CDiskBlockIndex.ofIndex e).stored m = .error (.exception "null pointer") := by
  have hfirst : (insertBlockIndex 0 m).1 = none := by rw [insertBlockIndex_fst, if_pos rfl]
  unfold loadEntry
  rw [CDiskBlockIndex.getBlockHash_stored, hnull]
  simp only [hfirst]

theorem loadBlockIndexGuts_cons {h : Uint256} (he : e.Fits) (entries : List (Sigma fun _ : Uint256 => BlockIndexEntry))
    (m : KeyMap Uint256 BlockIndexEntry) :
    loadBlockIndexGuts env (storedValues (⟨h, e⟩ :: entries)) m =
      loadEntry env (CDiskBlockIndex.ofIndex e).stored m >>= loadBlockIndexGuts env (storedValues entries) := by
  have hread := CDiskBlockIndex.get_put he []
  rw [append_nil] at hread
  simp only [storedValues, map_cons, loadBlockIndexGuts]
  rw [hread]
  rfl

theorem loadBlockIndexGuts_ok {headers : Uint256 → CBlockHeader} (hkeys : entries.NodupKeys)
    (hacc : ∀ x ∈ entries, x.1 = env.blockHash (headers x.1) ∧ x.2.Accepted env (headers x.1) ∧ x.1 ≠ 0)
    (hm : ∀ x ∈ entries, Blank m x.1) :
    ∃ loaded, loadBlockIndexGuts env (storedValues entries) m = .ok loaded ∧
      (∀ x ∈ entries, loaded.lookup x.1 = some x.2.reloaded) ∧
      ∀ k, k ∉ entries.keys → ∀ x, m.lookup k = some x → loaded.lookup k = some x := by
  induction entries generalizing m with
  | nil => exact ⟨m, rfl, fun x hx => absurd hx not_mem_nil, fun k _ x hx => hx⟩
  | cons entry entries ih =>
    obtain ⟨h, e⟩ := entry
    obtain ⟨hh, he, hnull⟩ := hacc ⟨h, e⟩ mem_cons_self
    dsimp only at hh he hnull
    rw [nodupKeys_cons] at hkeys
    obtain ⟨hnew, hkeys⟩ := hkeys
    have hne : ∀ x ∈ entries, x.1 ≠ h := fun x hx => (ne_key.1 hnew x hx).symm
    have hblank := hm ⟨h, e⟩ mem_cons_self
    dsimp only at hblank
    obtain ⟨m', hload, hloaded, hoth⟩ := loadEntry_ok he (by rwa [← hh]) (by rwa [← hh])
    rw [← hh] at hloaded hoth
    obtain ⟨loaded, hrun, hall, hkeep⟩ := ih hkeys (forall_mem_cons.1 hacc).2
      (fun x hx => (hoth x.1 (hne x hx)).2 (hm x (mem_cons_of_mem _ hx)))
    refine ⟨loaded, ?_, ?_, ?_⟩
    · rw [loadBlockIndexGuts_cons he.fits, hload]
      exact hrun
    · intro x hx
      rcases mem_cons.1 hx with rfl | hx
      · exact hkeep h hnew _ hloaded
      · exact hall x hx
    · intro k hk x hx
      rw [keys_cons, mem_cons, not_or] at hk
      exact hkeep k hk.2 x ((hoth k hk.1).1 x hx)

theorem ne_null_of_load (hfits : ∀ x ∈ entries, x.1 = env.blockHash x.2.getBlockHeader ∧ x.2.Fits)
    {loaded : KeyMap Uint256 BlockIndexEntry} (hload : loadBlockIndexGuts env (storedValues entries) m = .ok loaded) :
    ∀ x ∈ entries, x.1 ≠ 0 := by
  induction entries generalizing m with
  | nil => exact fun x hx => absurd hx not_mem_nil
  | cons entry entries ih =>
    obtain ⟨h, e⟩ := entry
    obtain ⟨hh, he⟩ := hfits ⟨h, e⟩ mem_cons_self
    rw [loadBlockIndexGuts_cons he] at hload
    obtain ⟨m', hentry, hload⟩ := except_bind_ok.1 hload
    intro x hx
    rcases mem_cons.1 hx with rfl | hx
    · intro hnull
      dsimp only at hh hnull
      rw [loadEntry_null (by rw [← hh, hnull])] at hentry
      cases hentry
    · exact ih (forall_mem_cons.1 hfits).2 hload x hx

end

/-- The index comes back, with the headers its entries were made from, if and only if these headers leave
`hashReserved` null (and none of them hashes to the null hash, which stands for no block). -/
theorem loadBlockIndexGuts_iff (env : Env) (index : KeyMap Uint256 BlockIndexEntry) (headers : Uint256 → CBlockHeader)
    (haccepted : ∀ h e, index.lookup h = some e → h = env.blockHash (headers h) ∧ e.Accepted env (headers h))
    (entries : List (Sigma fun _ : Uint256 => BlockIndexEntry)) (hperm : entries.Perm index.entries) :
    (∃ loaded, loadBlockIndexGuts env (storedValues entries) ∅ = .ok loaded ∧
      ∀ h e, index.lookup h = some e → ∃ e', loaded.lookup h = some e' ∧ e'.getBlockHeader = headers h ∧
        env.blockHash e'.getBlockHeader = h ∧ e.SameStored e') ↔
    ∀ h e, index.lookup h = some e → (headers h).hashReserved = 0 ∧ h ≠ 0 := by
  have hmem : ∀ x ∈ entries, index.lookup x.1 = some x.2 := fun x hx =>
    AList.mem_lookup_iff.2 (hperm.mem_iff.1 hx)
  have hmem' : ∀ h e, index.lookup h = some e → ⟨h, e⟩ ∈ entries := fun h e he =>
    hperm.mem_iff.2 (AList.mem_lookup_iff.1 he)
  have hkeys : entries.NodupKeys := (perm_nodupKeys hperm).2 index.nodupKeys
  have hblank : ∀ x ∈ entries, Blank ∅ x.1 := fun x _ => by
    unfold Blank
    rw [KeyMap.lookup_empty]
    rfl
  -- loading an index without the null hash
  have hload : (∀ h e, index.lookup h = some e → h ≠ 0) → ∃ loaded,
      loadBlockIndexGuts env (storedValues entries) ∅ = .ok loaded ∧
        ∀ x ∈ entries, loaded.lookup x.1 = some x.2.reloaded := by
    intro hnull
    obtain ⟨loaded, hrun, hall, -⟩ := loadBlockIndexGuts_ok hkeys (fun x hx =>
      ⟨(haccepted x.1 x.2 (hmem x hx)).1, (haccepted x.1 x.2 (hmem x hx)).2, hnull x.1 x.2 (hmem x hx)⟩) hblank
    exact ⟨loaded, hrun, hall⟩
  constructor
  · rintro ⟨loaded, hrun, hloaded⟩
    have hnull : ∀ h e, index.lookup h = some e → h ≠ 0 := fun h e he =>
      ne_null_of_load (fun x hx => by
        obtain ⟨hh, hacc⟩ := haccepted x.1 x.2 (hmem x hx)
        exact ⟨by rw [hacc.header]; exact hh, hacc.fits⟩) hrun ⟨h, e⟩ (hmem' h e he)
    obtain ⟨loaded', hrun', hall⟩ := hload hnull
    cases hrun.symm.trans hrun'
    intro h e he
    obtain ⟨e', he', hhd, -⟩ := hloaded h e he
    refine ⟨?_, hnull h e he⟩
    cases he'.symm.trans (hall ⟨h, e⟩ (hmem' h e he))
    rw [← hhd, BlockIndexEntry.getBlockHeader_reloaded]
  · intro hgood
    obtain ⟨loaded, hrun, hall⟩ := hload fun h e he => (hgood h e he).2
    refine ⟨loaded, hrun, fun h e he => ?_⟩
    obtain ⟨hh, hacc⟩ := haccepted h e he
    have hhd : e.reloaded.getBlockHeader = headers h := by
      rw [BlockIndexEntry.getBlockHeader_reloaded, hacc.header, ← (hgood h e he).1]
    refine ⟨e.reloaded, hall ⟨h, e⟩ (hmem' h e he), hhd, ?_, e.sameStored_reloaded⟩
    rw [hhd, ← hh]

/-- The header of a first block, and its entry with one transaction. -/
def firstHeader (hashReserved : Uint256) : CBlockHeader := ⟨4, 0, 0, hashReserved, 1, 0, 0, []⟩

def firstEntry (hashReserved : Uint256) : BlockIndexEntry :=
  { BlockIndexEntry.ofHeader (firstHeader hashReserved) with nTx := 1, nStatus := 3 }

theorem firstEntry_accepted (hashReserved : Uint256) :
    (firstEntry hashReserved).Accepted plainEnv (firstHeader hashReserved) where
  header := rfl
  work := rfl
  fits :=
    have h : (firstEntry 0).Fits := ⟨by decide, by decide, by decide, by decide, by decide, by decide, by decide,
      by decide, by decide, by decide, by decide, fun v h => by cases h⟩
    ⟨h.nHeight, h.nStatus, h.nTx, h.nFile, h.nDataPos, h.nUndoPos, h.nVersion, h.nTime, h.nBits, h.nArrivalTime,
      h.nSolution, h.nSproutValue⟩

/-- A null `hashReserved` comes back. -/
theorem loadBlockIndexGuts_iff_first :
    ∃ loaded, loadBlockIndexGuts plainEnv (storedValues [⟨1, firstEntry 0⟩]) ∅ = .ok loaded ∧
      ∀ h e, (AList.singleton 1 (firstEntry 0) : KeyMap Uint256 BlockIndexEntry).lookup h = some e →
        ∃ e', loaded.lookup h = some e' ∧ e'.getBlockHeader = firstHeader 0 ∧
          plainEnv.blockHash e'.getBlockHeader = h ∧ e.SameStored e' := by
  have hlook : ∀ h e, (AList.singleton 1 (firstEntry 0) : KeyMap Uint256 BlockIndexEntry).lookup h = some e →
      h = 1 ∧ e = firstEntry 0 := by
    intro h e he
    have hmem := AList.mem_lookup_iff.1 he
    cases mem_singleton.1 hmem
    exact ⟨rfl, rfl⟩
  refine (loadBlockIndexGuts_iff plainEnv (AList.singleton 1 (firstEntry 0)) (fun _ => firstHeader 0) ?_ _
    (List.Perm.refl _)).2 ?_
  · intro h e he
    obtain ⟨rfl, rfl⟩ := hlook h e he
    exact ⟨rfl, firstEntry_accepted 0⟩
  · intro h e he
    obtain ⟨rfl, rfl⟩ := hlook h e he
    decide

/-- Any other one is lost, and with it the header. -/
theorem load_firstEntry_reserved :
    (loadBlockIndexGuts plainEnv (storedValues [⟨1, firstEntry 5⟩]) ∅).map
      (fun loaded => (loaded.lookup 1).map BlockIndexEntry.getBlockHeader) = .ok (some (firstHeader 0)) ∧
    (firstEntry 5).Accepted plainEnv (firstHeader 5) ∧ firstHeader 0 ≠ firstHeader 5 := by
  exact ⟨by decide +kernel, firstEntry_accepted 5, by decide⟩

end LitecoinZ
