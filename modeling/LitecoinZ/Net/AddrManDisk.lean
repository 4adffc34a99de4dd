import LitecoinZ.Net.AddrManRuns

/-!
# The address manager on disk

`CAddrMan::Serialize` and `CAddrMan::Unserialize` of `addrman.h`.  What is written are the records, the new ones before the
tried ones, and for every bucket of the new table the indices of its entries; ids, random order, tried slots and reference
counts are made again on reading.  What is read is the address manager that was written, with other ids
(`unserialize_serialize`).
-/

namespace LitecoinZ

open Function Codec StateExcept Table List

structure StoredAddr where
  addr : CAddress
  source : CNetAddr
  nLastSuccess : Int
  nAttempts : Int
  deriving DecidableEq, Repr

def CAddrInfo.stored (info : CAddrInfo) : StoredAddr := ⟨info.addr, info.source, info.nLastSuccess, info.nAttempts⟩

/-- A new record, after reading. -/
def StoredAddr.load (r : StoredAddr) : CAddrInfo where
  addr := r.addr
  source := r.source
  nLastSuccess := r.nLastSuccess
  nAttempts := r.nAttempts

structure StoredAddr.Typed (r : StoredAddr) : Prop where
  nTime : r.addr.nTime < 2 ^ 32
  nServices : r.addr.nServices < 2 ^ 64
  nLastSuccess : -2 ^ 63 ≤ r.nLastSuccess ∧ r.nLastSuccess < 2 ^ 63
  nAttempts : -2 ^ 31 ≤ r.nAttempts ∧ r.nAttempts < 2 ^ 31

def StoredAddr.serializationOp : Codec Fault StoredAddr :=
  (CAddress.serializationOp.seq fun _ => CNetAddr.serializationOp.seq fun _ => (intLE 8).seq fun _ => intLE 4).imap
    (fun (addr, source, nLastSuccess, nAttempts) => { addr, source, nLastSuccess, nAttempts })
    fun r => (r.addr, r.source, r.nLastSuccess, r.nAttempts)

theorem StoredAddr.decodes : StoredAddr.serializationOp.Decodes StoredAddr.Typed := by
  refine decodes_imap (decodes_seq CAddress.decodes fun _ _ => decodes_seq (exact_blob 16).decodes fun _ _ =>
    decodes_seq (exact_intLE 8).decodes fun _ _ => (exact_intLE 4).decodes) ?_
  intro r hr
  have hsucc : -256 ^ 8 ≤ 2 * r.nLastSuccess ∧ 2 * r.nLastSuccess < 256 ^ 8 := by
    have := hr.nLastSuccess
    omega
  have hatt : -256 ^ 4 ≤ 2 * r.nAttempts ∧ 2 * r.nAttempts < 256 ^ 4 := by
    have := hr.nAttempts
    omega
  exact ⟨⟨⟨hr.nTime, hr.nServices⟩, trivial, hsucc, hatt⟩, rfl⟩

namespace CAddrMan

/-! ### Writing -/

/-- The number of buckets and the bit that marks the format. -/
def flipMark (nUBuckets : Int) : Int := (BitVec.ofInt 32 nUBuckets ^^^ BitVec.ofNat 32 (1 <<< 30)).toInt

/-- What comes before the records: the format, the key, and the numbers of entries and of buckets. -/
def headerOp : Codec Fault (UInt8 × Uint256 × Int × Int × Int) :=
  ((byte endOfData).seq fun _ =>
    ((byte endOfData).guard fun nKeySize =>
      reject (nKeySize ≠ 32) (.exception "Incorrect keysize in addrman deserialization")).seq fun _ =>
    uint256.seq fun _ => (intLE 4).seq fun _ => (intLE 4).seq fun _ => intLE 4).imap
    (fun (nVersion, _, nKey, nNew, nTried, nUBuckets) => (nVersion, nKey, nNew, nTried, nUBuckets))
    fun (nVersion, nKey, nNew, nTried, nUBuckets) => (nVersion, 32, nKey, nNew, nTried, nUBuckets)

/-- The loop over the new entries; `mapUnkIds` has the number of new entries before each id. -/
def writeNew (nNew : Int) : List (Int × CAddrInfo) → (nIds : Int) → (mapUnkIds : KeyMap Int Int) →
    Except Fault (KeyMap Int Int × List UInt8)
  | [], _, mapUnkIds => .ok (mapUnkIds, [])
  | e :: es, nIds, mapUnkIds =>
    if e.2.nRefCount ≠ 0 then
      if nIds = nNew then .error (.assertion "nIds != nNew")
      else do
        let (mapUnkIds, bytes) ← writeNew nNew es (nIds + 1) (mapUnkIds.insert e.1 nIds)
        pure (mapUnkIds, StoredAddr.serializationOp.put e.2.stored ++ bytes)
    else writeNew nNew es nIds (mapUnkIds.insert e.1 nIds)

def writeTried (nTried : Int) : List (Int × CAddrInfo) → (nIds : Int) → Except Fault (List UInt8)
  | [], _ => .ok []
  | e :: es, nIds =>
    if e.2.fInTried then
      if nIds = nTried then .error (.assertion "nIds != nTried")
      else do
        let bytes ← writeTried nTried es (nIds + 1)
        pure (StoredAddr.serializationOp.put e.2.stored ++ bytes)
    else writeTried nTried es nIds

/-- The slots of a bucket that are not empty. -/
def heldSlots (s : CAddrMan) (bucket : Fin ADDRMAN_NEW_BUCKET_COUNT) : List NewSlot :=
  ((List.finRange ADDRMAN_BUCKET_SIZE).map fun i => (bucket, i)).filter fun slot => s.vvNew slot ≠ -1

def writeBucket (mapUnkIds : KeyMap Int Int) (s : CAddrMan) (bucket : Fin ADDRMAN_NEW_BUCKET_COUNT) : List UInt8 :=
  (intLE 4).put (s.heldSlots bucket).length ++
    (s.heldSlots bucket).flatMap fun slot => (intLE 4).put ((mapUnkIds.lookup (s.vvNew slot)).getD 0)

def serialize (s : CAddrMan) : Except Fault (List UInt8) := do
  let (mapUnkIds, newBytes) ← writeNew s.nNew (ascending s.mapInfo) 0 ∅
  let triedBytes ← writeTried s.nTried (ascending s.mapInfo) 0
  pure (headerOp.put (1, s.nKey, s.nNew, s.nTried, flipMark ADDRMAN_NEW_BUCKET_COUNT) ++ newBytes ++ triedBytes ++
    (List.finRange ADDRMAN_NEW_BUCKET_COUNT).flatMap (writeBucket mapUnkIds s))

/-! ### Reading -/

/-- A record gets the next place of the random order. -/
def enterInfo (n : Int) (info : CAddrInfo) (s : CAddrMan) : CAddrMan :=
  { s with
    mapInfo := s.mapInfo.insert n { info with nRandomPos := s.vRandom.length }
    mapAddr := s.mapAddr.insert info.ip n
    vRandom := s.vRandom ++ [n] }

variable (env : AddrManEnv)

/-- Where the table of the new ones cannot be used, an entry gets a reference from its source. -/
def referSource (n : Int) (info : CAddrInfo) (s : CAddrMan) : CAddrMan :=
  let slot := env.newSlot s.nKey info.addr.service info.source
  if s.vvNew slot = -1 then (s.setNew slot n).setInfo n fun info => { info with nRefCount := info.nRefCount + 1 } else s

/-- The loop over the new entries, from `n` on. -/
def readNew (env : AddrManEnv) (usable : Bool) : (n count : Nat) → CAddrMan → List UInt8 →
    Except Fault (CAddrMan × List UInt8)
  | _, 0, s, bytes => .ok (s, bytes)
  | n, count + 1, s, bytes => do
    let (r, bytes) ← StoredAddr.serializationOp.get bytes
    let s := s.enterInfo n r.load
    readNew env usable (n + 1) count (if usable then s else s.referSource env n r.load) bytes

/-- The loop over the tried entries; it counts those whose slot is taken. -/
def readTried (env : AddrManEnv) : (count : Nat) → (nLost : Int) → CAddrMan → List UInt8 →
    Except Fault (Int × CAddrMan × List UInt8)
  | 0, nLost, s, bytes => .ok (nLost, s, bytes)
  | count + 1, nLost, s, bytes => do
    let (r, bytes) ← StoredAddr.serializationOp.get bytes
    let slot := env.triedSlot s.nKey r.addr.service
    if s.vvTried slot = -1 then
      let s' := (s.enterInfo s.nIdCount { r.load with fInTried := true }).setTried slot s.nIdCount
      readTried env count nLost { s' with nIdCount := s.nIdCount + 1 } bytes
    else readTried env count (nLost + 1) s bytes

/-- An index that is read for a bucket. -/
def placeIndex (usable : Bool) (bucket : Nat) (nIndex : Int) (s : CAddrMan) : CAddrMan :=
  if 0 ≤ nIndex ∧ nIndex < s.nNew then
    if h : usable = true ∧ bucket < ADDRMAN_NEW_BUCKET_COUNT then
      let slot := env.newSlotIn s.nKey (s.info nIndex).addr.service ⟨bucket, h.2⟩
      if s.vvNew slot = -1 ∧ (s.info nIndex).nRefCount < ADDRMAN_NEW_BUCKETS_PER_ADDRESS then
        (s.setInfo nIndex fun info => { info with nRefCount := info.nRefCount + 1 }).setNew slot nIndex
      else s
    else s
  else s

def readIndices (env : AddrManEnv) (usable : Bool) (bucket : Nat) : (count : Nat) → CAddrMan → List UInt8 →
    Except Fault (CAddrMan × List UInt8)
  | 0, s, bytes => .ok (s, bytes)
  | count + 1, s, bytes => do
    let (nIndex, bytes) ← (intLE 4).get bytes
    readIndices env usable bucket count (s.placeIndex env usable bucket nIndex) bytes

def readBuckets (env : AddrManEnv) (usable : Bool) : (bucket count : Nat) → CAddrMan → List UInt8 →
    Except Fault (CAddrMan × List UInt8)
  | _, 0, s, bytes => .ok (s, bytes)
  | bucket, count + 1, s, bytes => do
    let (nSize, bytes) ← (intLE 4).get bytes
    let (s, bytes) ← readIndices env usable bucket nSize.toNat s bytes
    readBuckets env usable (bucket + 1) count s bytes

/-- New entries without a reference are deleted. -/
def prune (s : CAddrMan) : Except Fault CAddrMan :=
  (ascending s.mapInfo).foldlM (fun s e =>
    if (s.info e.1).fInTried = false ∧ (s.info e.1).nRefCount = 0 then s.delete e.1 else .ok s) s

def readEntries (usable : Bool) (nUBuckets : Int) (s : CAddrMan) (bytes : List UInt8) :
    Except Fault (CAddrMan × List UInt8) := do
  let (s, bytes) ← readNew env usable 0 s.nNew.toNat s bytes
  let (nLost, s, bytes) ← readTried env s.nTried.toNat 0 { s with nIdCount := s.nNew } bytes
  let (s, bytes) ← readBuckets env usable 0 nUBuckets.toNat { s with nTried := s.nTried - nLost } bytes
  let s ← s.prune
  pure (s, bytes)

/-- `Unserialize` into a new address manager. -/
def unserialize (bytes : List UInt8) : Except Fault (CAddrMan × List UInt8) := do
  let ((nVersion, nKey, nNew, nTried, nUBuckets), bytes) ← headerOp.get bytes
  let nUBuckets := if nVersion ≠ 0 then flipMark nUBuckets else nUBuckets
  reject (nNew > ADDRMAN_NEW_BUCKET_COUNT * ADDRMAN_BUCKET_SIZE)
    (.exception "Corrupt CAddrMan serialization, nNew exceeds limit.")
  reject (nTried > ADDRMAN_TRIED_BUCKET_COUNT * ADDRMAN_BUCKET_SIZE)
    (.exception "Corrupt CAddrMan serialization, nTried exceeds limit.")
  readEntries env (nVersion = 1 ∧ nUBuckets = ADDRMAN_NEW_BUCKET_COUNT) nUBuckets { nKey, nNew, nTried } bytes

/-! ### The entries in the order of the file -/

variable {env : AddrManEnv} {s s0 : CAddrMan} {l : List CAddrInfo} {id : Int} {info : CAddrInfo} {n : Nat}
  {slot : NewSlot} {done : List NewSlot} {e : Int × CAddrInfo}

def newEntries (s : CAddrMan) : List (Int × CAddrInfo) := (ascending s.mapInfo).filter fun e => !e.2.fInTried

def triedEntries (s : CAddrMan) : List (Int × CAddrInfo) := (ascending s.mapInfo).filter fun e => e.2.fInTried

def storedEntries (s : CAddrMan) : List (Int × CAddrInfo) := s.newEntries ++ s.triedEntries

def bytesOf (es : List (Int × CAddrInfo)) : List UInt8 := es.flatMap fun e => StoredAddr.serializationOp.put e.2.stored

/-- The id that an entry has after reading. -/
def rename (s : CAddrMan) (id : Int) : Int := (s.storedEntries.map Prod.fst).idxOf id

theorem mem_newEntries : e ∈ s.newEntries ↔ s.mapInfo.lookup e.1 = some e.2 ∧ e.2.fInTried = false := by
  simp [newEntries, mem_ascending]

theorem mem_triedEntries : e ∈ s.triedEntries ↔ s.mapInfo.lookup e.1 = some e.2 ∧ e.2.fInTried = true := by
  simp [triedEntries, mem_ascending]

theorem mem_storedEntries : e ∈ s.storedEntries ↔ s.mapInfo.lookup e.1 = some e.2 := by
  rw [storedEntries, mem_append, mem_newEntries, mem_triedEntries]
  cases e.2.fInTried <;> simp

theorem storedEntries_keys (s : CAddrMan) : (s.storedEntries.map Prod.fst).Nodup := by
  have hperm : s.storedEntries.Perm (ascending s.mapInfo) := by
    refine perm_append_comm.trans ?_
    exact filter_append_perm (fun e : Int × CAddrInfo => e.2.fInTried) (ascending s.mapInfo)
  exact (hperm.map Prod.fst).nodup_iff.2 (ascending_keys_nodup _)

theorem rename_eq (h : s.storedEntries[n]? = some e) : s.rename e.1 = n := by
  obtain ⟨hn, rfl⟩ := List.getElem?_eq_some_iff.1 h
  have hidx := (storedEntries_keys s).idxOf_getElem n (by rwa [length_map])
  rw [getElem_map] at hidx
  exact congrArg Nat.cast hidx

theorem exists_index (h : s.mapInfo.lookup id = some info) : ∃ n : Nat, s.storedEntries[n]? = some (id, info) :=
  mem_iff_getElem?.1 (mem_storedEntries.2 h)

private theorem writeNew_ok {nNew : Int} {es : List (Int × CAddrInfo)}
    (hrefs : ∀ e ∈ es, e.2.nRefCount ≠ 0 ↔ e.2.fInTried = false) (hkeys : (es.map Prod.fst).Nodup) {nIds : Int}
    (hle : nIds + (es.filter fun e => !e.2.fInTried).length ≤ nNew) (mapUnkIds : KeyMap Int Int) :
    ∃ mapUnkIds', writeNew nNew es nIds mapUnkIds = .ok (mapUnkIds', bytesOf (es.filter fun e => !e.2.fInTried)) ∧
      (∀ id, id ∉ es.map Prod.fst → mapUnkIds'.lookup id = mapUnkIds.lookup id) ∧
      ∀ (i : Nat) e, (es.filter fun e => !e.2.fInTried)[i]? = some e → mapUnkIds'.lookup e.1 = some (nIds + i) := by
  induction es generalizing nIds mapUnkIds with
  | nil => exact ⟨mapUnkIds, rfl, fun _ _ => rfl, fun i e h => by cases h⟩
  | cons e es ih =>
    rw [map_cons, nodup_cons] at hkeys
    obtain ⟨hfirst, hrefs⟩ := forall_mem_cons.1 hrefs
    rw [writeNew]
    by_cases hnew : e.2.fInTried = false
    · rw [filter_cons_of_pos (by simp [hnew])] at hle ⊢
      rw [length_cons] at hle
      push_cast at hle
      rw [if_pos (hfirst.2 hnew), if_neg (by omega)]
      obtain ⟨m', hrun, hoth, hindex⟩ := ih hrefs hkeys.2 (show nIds + 1 + _ ≤ nNew by omega) (mapUnkIds.insert e.1 nIds)
      refine ⟨m', ?_, fun id hid => ?_, fun i e' he' => ?_⟩
      · rw [hrun]
        rfl
      · rw [map_cons, mem_cons, not_or] at hid
        rw [hoth id hid.2, AList.lookup_insert_ne hid.1]
      · cases i with
        | zero =>
          obtain rfl := Option.some.inj he'
          rw [hoth e.1 hkeys.1, AList.lookup_insert]
          simp
        | succ i =>
          rw [hindex i e' he']
          push_cast
          congr 1
          omega
    · rw [if_neg fun h => hnew (hfirst.1 h)]
      rw [filter_cons_of_neg (by simp [hnew])] at hle ⊢
      obtain ⟨m', hrun, hoth, hindex⟩ := ih hrefs hkeys.2 hle (mapUnkIds.insert e.1 nIds)
      refine ⟨m', hrun, fun id hid => ?_, hindex⟩
      rw [map_cons, mem_cons, not_or] at hid
      rw [hoth id hid.2, AList.lookup_insert_ne hid.1]

private theorem writeTried_ok {nTried : Int} {es : List (Int × CAddrInfo)} {nIds : Int}
    (hle : nIds + (es.filter fun e => e.2.fInTried).length ≤ nTried) : 
    writeTried nTried es nIds = .ok (bytesOf (es.filter fun e => e.2.fInTried)) := by
  induction es generalizing nIds with
  | nil => rfl
  | cons e es ih =>
    rw [writeTried]
    by_cases ht : e.2.fInTried = true
    · rw [filter_cons_of_pos (by exact ht)] at hle ⊢
      rw [length_cons] at hle
      push_cast at hle
      rw [if_pos ht, if_neg (by omega), ih (by omega)]
      rfl
    · rw [filter_cons_of_neg (by exact ht)] at hle ⊢
      rw [if_neg ht, ih hle]

/-! ### What is read -/

/-- The records that are read have their places in the list as ids and as positions in the random order. -/
structure Loaded (l : List CAddrInfo) (s : CAddrMan) : Prop where
  lookup : ∀ id info, s.mapInfo.lookup id = some info ↔
    ∃ (n : Nat) (i : CAddrInfo), l[n]? = some i ∧ id = n ∧ info = { i with nRandomPos := n }
  addr : ∀ (n : Nat) (i : CAddrInfo), l[n]? = some i → s.mapAddr.lookup i.ip = some (n : Int)
  vRandom : s.vRandom = (List.range l.length).map Nat.cast
  countTried : s.mapInfo.count (fun info => info.fInTried) = l.countP fun info => info.fInTried
  countNew : s.mapInfo.count (fun info => !info.fInTried) = l.countP fun info => !info.fInTried

theorem Loaded.congr (h : Loaded l s) {s' : CAddrMan} (hmapInfo : s'.mapInfo = s.mapInfo) (hmapAddr : s'.mapAddr = s.mapAddr)
    (hvRandom : s'.vRandom = s.vRandom) : Loaded l s' := by
  obtain ⟨hlook, haddr, hrandom, htried, hnew⟩ := h
  rw [← hmapInfo] at hlook htried hnew
  exact ⟨hlook, hmapAddr ▸ haddr, hvRandom ▸ hrandom, htried, hnew⟩

theorem Loaded.empty (nKey : Uint256) (nNew nTried : Int) : Loaded [] { nKey, nNew, nTried } := by
  refine ⟨fun id info => ?_, fun n i h => (by cases h), rfl, rfl, rfl⟩
  rw [KeyMap.lookup_empty]
  simp

theorem Loaded.enter (h : Loaded l s) (info : CAddrInfo) {ips : List CNetAddr}
    (hips : (l.map CAddrInfo.ip ++ info.ip :: ips).Nodup) : Loaded (l ++ [info]) (s.enterInfo l.length info) := by
  have hlen : s.vRandom.length = l.length := by simp [h.vRandom]
  have hfresh : s.mapInfo.lookup (l.length : Int) = none := by
    cases hid : s.mapInfo.lookup (l.length : Int) with
    | none => rfl
    | some info' =>
      obtain ⟨n, i, hi, hn, -⟩ := (h.lookup _ _).1 hid
      grind
  have hget : ∀ (n : Nat) i, (l ++ [info])[n]? = some i ↔ l[n]? = some i ∨ n = l.length ∧ i = info := by grind
  unfold enterInfo
  rw [hlen]
  refine ⟨fun id info' => ?_, fun n i hi => ?_, ?_, ?_, ?_⟩
  · by_cases hid : id = l.length
    · rw [hid, AList.lookup_insert]
      grind
    · rw [AList.lookup_insert_ne hid, h.lookup]
      grind
  · rcases (hget _ _).1 hi with hi | ⟨rfl, rfl⟩
    · have hne := (nodup_append.1 hips).2.2 _ (mem_map.2 ⟨i, mem_of_getElem? hi, rfl⟩) _ (mem_cons_self ..)
      exact (AList.lookup_insert_ne hne).trans (h.addr n i hi)
    · exact AList.lookup_insert _
  · simp [h.vRandom, range_succ]
  · refine (KeyMap.count_insert_none _ hfresh _).trans ?_
    cases hb : info.fInTried <;> simp [hb, h.countTried]
  · refine (KeyMap.count_insert_none _ hfresh _).trans ?_
    cases hb : info.fInTried <;> simp [hb, h.countNew]

theorem Loaded.set (h : Loaded l s) {i : CAddrInfo} (hn : l[n]? = some i) (f : CAddrInfo → CAddrInfo)
    (hip : (f i).ip = i.ip) (htried : (f i).fInTried = i.fInTried)
    (hmove : ∀ m, f { i with nRandomPos := m } = { f i with nRandomPos := m }) :
    Loaded (l.set n (f i)) (s.setInfo n f) := by
  obtain ⟨hlt, hi⟩ := List.getElem?_eq_some_iff.1 hn
  have hid : s.mapInfo.lookup (n : Int) = some { i with nRandomPos := n } := (h.lookup _ _).2 ⟨n, i, hn, rfl, rfl⟩
  have hget : ∀ (m : Nat) i', (l.set n (f i))[m]? = some i' ↔ m = n ∧ i' = f i ∨ m ≠ n ∧ l[m]? = some i' := by grind
  have hcount : ∀ p : Bool → Bool, KeyMap.count (fun info => p info.fInTried)
      (s.mapInfo.insert (n : Int) { f i with nRandomPos := n }) = s.mapInfo.count fun info => p info.fInTried := by
    intro p
    have := KeyMap.count_insert_some (fun info : CAddrInfo => p info.fInTried) hid { f i with nRandomPos := n }
    have hsame : (p (f i).fInTried).toNat = (p i.fInTried).toNat := by rw [htried]
    dsimp only at this ⊢
    omega
  have hcountP : ∀ p : Bool → Bool, (l.set n (f i)).countP (fun info => p info.fInTried) =
      l.countP fun info => p info.fInTried := by
    intro p
    rw [countP_set hlt, hi, htried]
    by_cases hp : p i.fInTried = true
    · have : 0 < l.countP fun info => p info.fInTried := countP_pos_iff.2 ⟨i, mem_of_getElem? hn, hp⟩
      rw [if_pos hp]
      omega
    · simp [hp]
  have hset : s.setInfo n f = { s with mapInfo := s.mapInfo.insert (n : Int) { f i with nRandomPos := n } } := by
    rw [setInfo, info_of_lookup hid, hmove n]
  rw [hset]
  refine ⟨fun id info => ?_, fun m i' hi => ?_, ?_, ?_, ?_⟩
  · by_cases hne : id = n
    · rw [hne, AList.lookup_insert]
      grind
    · rw [AList.lookup_insert_ne hne, h.lookup]
      grind
  · rcases (hget _ _).1 hi with ⟨rfl, rfl⟩ | ⟨-, hi⟩
    · exact hip ▸ h.addr m i hn
    · exact h.addr m i' hi
  · rw [length_set]
    exact h.vRandom
  · exact (hcount id).trans (h.countTried.trans (hcountP id).symm)
  · exact (hcount Bool.not).trans (h.countNew.trans (hcountP Bool.not).symm)

/-- What reading the records leaves as it is. -/
private structure KeepsTables (s s' : CAddrMan) : Prop where
  nKey : s'.nKey = s.nKey
  nNew : s'.nNew = s.nNew
  nTried : s'.nTried = s.nTried
  vvNew : s'.vvNew = s.vvNew

/-- A record after some slots of the new ones are read. -/
def rebuilt (s₀ : CAddrMan) (done : List NewSlot) (e : Int × CAddrInfo) : CAddrInfo :=
  { e.2.stored.load with
    fInTried := e.2.fInTried
    nRefCount := done.countP fun slot => s₀.vvNew slot = e.1 }

private theorem readNew_ok (s0 : CAddrMan) (env : AddrManEnv) (h : Loaded l s) (hes : ∀ e ∈ es, e.2.stored.Typed ∧ e.2.fInTried = false)
    (hips : (l.map CAddrInfo.ip ++ es.map fun e => e.2.ip).Nodup) (rest : List UInt8) :
    ∃ s', readNew env true l.length es.length s (bytesOf es ++ rest) = .ok (s', rest) ∧
      Loaded (l ++ es.map (rebuilt s0 [])) s' ∧ KeepsTables s s' ∧ s'.vvTried = s.vvTried := by
  induction es generalizing l s with
  | nil => exact ⟨s, rfl, by rwa [map_nil, append_nil], ⟨rfl, rfl, rfl, rfl⟩, rfl⟩
  | cons e es ih =>
    rw [forall_mem_cons] at hes
    have hload : e.2.stored.load = rebuilt s0 [] e := by
      rw [rebuilt, hes.1.2]
      rfl
    obtain ⟨s', hrun, h', hkeeps, hvvTried⟩ := ih (h.enter (rebuilt s0 [] e) hips) hes.2 (by rwa [map_append, append_assoc])
    rw [length_append, length_singleton, ← hload] at hrun
    refine ⟨s', ?_, by rwa [append_assoc] at h', { hkeeps with }, hvvTried⟩
    rw [length_cons, bytesOf, flatMap_cons, append_assoc, readNew, StoredAddr.decodes _ hes.1.1]
    exact hrun

private def slotOf (env : AddrManEnv) (nKey : Uint256) (e : Int × CAddrInfo) : TriedSlot := env.triedSlot nKey e.2.addr.service

private theorem readTried_ok (s0 : CAddrMan) (env : AddrManEnv) (h : Loaded l s) (hcount : s.nIdCount = l.length)
    (hes : ∀ e ∈ es, e.2.stored.Typed ∧ e.2.fInTried = true) (hips : (l.map CAddrInfo.ip ++ es.map fun e => e.2.ip).Nodup)
    (hslots : (es.map (slotOf env s.nKey)).Nodup) (hempty : ∀ e ∈ es, s.vvTried (slotOf env s.nKey e) = -1) (nLost : Int)
    (rest : List UInt8) :
    ∃ s', readTried env es.length nLost s (bytesOf es ++ rest) = .ok (nLost, s', rest) ∧
      Loaded (l ++ es.map (rebuilt s0 [])) s' ∧ KeepsTables s s' ∧
      (∀ (i : Nat) e, es[i]? = some e → s'.vvTried (slotOf env s.nKey e) = l.length + i) ∧
      ∀ slot, slot ∉ es.map (slotOf env s.nKey) → s'.vvTried slot = s.vvTried slot := by
  induction es generalizing l s with
  | nil => exact ⟨s, rfl, by rwa [map_nil, append_nil], ⟨rfl, rfl, rfl, rfl⟩, fun i e he => (by cases he), fun _ _ => rfl⟩
  | cons e es ih =>
    rw [forall_mem_cons] at hes hempty
    rw [map_cons, nodup_cons] at hslots
    have hload : { e.2.stored.load with fInTried := true } = rebuilt s0 [] e := by
      rw [rebuilt, hes.1.2]
      rfl
    -- The state after the first of the records.
    obtain ⟨s1, hs1⟩ : ∃ s1 : CAddrMan, s1 = { s.enterInfo l.length (rebuilt s0 [] e) with
        vvTried := update s.vvTried (slotOf env s.nKey e) l.length
        nIdCount := l.length + 1 } := ⟨_, rfl⟩
    have hkey1 : s1.nKey = s.nKey := by
      rw [hs1]
      rfl
    have hvvTried1 : s1.vvTried = update s.vvTried (slotOf env s.nKey e) l.length := by rw [hs1]
    have hempty1 : ∀ e' ∈ es, s1.vvTried (slotOf env s.nKey e') = -1 := by
      intro e' he'
      rw [hvvTried1, update_of_ne fun heq => hslots.1 (mem_map.2 ⟨e', he', heq⟩)]
      exact hempty.2 e' he'
    have h1 : Loaded (l ++ [rebuilt s0 [] e]) s1 := (h.enter (rebuilt s0 [] e) hips).congr (by rw [hs1]) (by rw [hs1]) (by rw [hs1])
    obtain ⟨s', hrun, h', hkeeps, hpl, hoth⟩ := ih h1 (by simp [hs1]) hes.2
      (by rwa [map_append, append_assoc]) (by rw [hkey1]; exact hslots.2) (by rwa [hkey1])
    rw [hkey1] at hpl hoth
    refine ⟨s', ?_, by rwa [append_assoc] at h', ?_, ?_, ?_⟩
    · rw [length_cons, bytesOf, flatMap_cons, append_assoc, readTried, StoredAddr.decodes _ hes.1.1]
      change (if s.vvTried (slotOf env s.nKey e) = -1 then _ else _) = _
      rw [if_pos hempty.1, ← hrun, hs1, hcount, ← hload]
      rfl
    · rw [hs1] at hkeeps
      exact { hkeeps with }
    · intro i e' he'
      cases i with
      | zero =>
        obtain rfl := Option.some.inj he'
        rw [hoth _ hslots.1, hvvTried1]
        simp
      | succ i =>
        rw [hpl i e' he']
        simp
        omega
    · intro slot hslot
      rw [map_cons, mem_cons, not_or] at hslot
      rw [hoth slot hslot.2, hvvTried1, update_of_ne hslot.1]

/-! ### The table of the new ones -/

/-- The state after some slots of the new ones are read. -/
structure Rebuilt (s₀ : CAddrMan) (done : List NewSlot) (s : CAddrMan) : Prop where
  loaded : Loaded (s₀.storedEntries.map (rebuilt s₀ done)) s
  nKey : s.nKey = s₀.nKey
  nNew : s.nNew = s₀.nNew
  nTried : s.nTried = s₀.nTried
  vvTried : ∀ slot, s.vvTried slot = if s₀.vvTried slot = -1 then -1 else s₀.rename (s₀.vvTried slot)
  vvNew : ∀ slot, s.vvNew slot = if slot ∈ done then s₀.rename (s₀.vvNew slot) else -1

private theorem length_newEntries (h : Checked env s0) : (s0.newEntries.length : Int) = s0.nNew := by
  rw [newEntries, length_filter_ascending fun info : CAddrInfo => !info.fInTried]
  exact h.countNew

private theorem length_triedEntries (h : Checked env s0) : (s0.triedEntries.length : Int) = s0.nTried := by
  rw [triedEntries, length_filter_ascending fun info : CAddrInfo => info.fInTried]
  exact h.countTried

private theorem triedEntries_keys (s : CAddrMan) : (s.triedEntries.map Prod.fst).Nodup :=
  (storedEntries_keys s).sublist ((sublist_append_right _ _).map Prod.fst)

private theorem nNew_le (h : Checked env s0) : s0.nNew ≤ ADDRMAN_NEW_BUCKET_COUNT * ADDRMAN_BUCKET_SIZE := by
  have hle : (s0.newEntries.map Prod.fst).length ≤ Fintype.card NewSlot := by
    have hkeys := (storedEntries_keys s0).sublist ((sublist_append_left _ _).map Prod.fst)
    refine @length_le_card _ _ _ _ s0.vvNew _ hkeys fun id hid => ?_
    obtain ⟨e, he, rfl⟩ := mem_map.1 hid
    obtain ⟨hlook, hnew⟩ := mem_newEntries.1 he
    have hrefs := h.new_refs _ _ hlook hnew
    have hpos := ((h.record _ _ hlook).new hnew).1
    exact occurrences_pos.1 (by omega)
  rw [length_map, Fintype.card_prod, Fintype.card_fin, Fintype.card_fin] at hle
  have hlen := length_newEntries h
  omega

private theorem nTried_le (h : Checked env s0) : s0.nTried ≤ ADDRMAN_TRIED_BUCKET_COUNT * ADDRMAN_BUCKET_SIZE := by
  have hle : (s0.triedEntries.map Prod.fst).length ≤ Fintype.card TriedSlot := by
    refine @length_le_card _ _ _ _ s0.vvTried _ (triedEntries_keys s0) fun id hid => ?_
    obtain ⟨e, he, rfl⟩ := mem_map.1 hid
    obtain ⟨hlook, ht⟩ := mem_triedEntries.1 he
    exact ⟨_, h.tried_slot _ _ hlook ht⟩
  rw [length_map, Fintype.card_prod, Fintype.card_fin, Fintype.card_fin] at hle
  have hlen := length_triedEntries h
  omega

private theorem newEntries_index (hid : s0.mapInfo.lookup id = some info) (hnew : info.fInTried = false) :
    ∃ n : Nat, s0.newEntries[n]? = some (id, info) ∧ s0.storedEntries[n]? = some (id, info) ∧ s0.rename id = n := by
  obtain ⟨n, hn⟩ := mem_iff_getElem?.1 ((mem_newEntries (e := (id, info))).2 ⟨hid, hnew⟩)
  have hn' : s0.storedEntries[n]? = some (id, info) := by
    rw [storedEntries, getElem?_append_left (List.getElem?_eq_some_iff.1 hn).1]
    exact hn
  exact ⟨n, hn, hn', rename_eq hn'⟩

private theorem set_rebuilt
    (hn : s0.storedEntries[n]? = some (s0.vvNew slot, info)) :
    (s0.storedEntries.map (rebuilt s0 done)).set n
      { rebuilt s0 done (s0.vvNew slot, info) with nRefCount := (rebuilt s0 done (s0.vvNew slot, info)).nRefCount + 1 } =
      s0.storedEntries.map (rebuilt s0 (done ++ [slot])) := by
  refine ext_getElem? fun m => ?_
  rw [getElem?_set, length_map, getElem?_map, getElem?_map]
  by_cases hm : n = m
  · subst hm
    rw [if_pos rfl, if_pos (List.getElem?_eq_some_iff.1 hn).1, hn]
    simp [rebuilt]
  · rw [if_neg hm]
    cases he : s0.storedEntries[m]? with
    | none => rfl
    | some e =>
      have hne : s0.vvNew slot ≠ e.1 := by
        have := rename_eq hn
        have := rename_eq he
        grind
      simp [rebuilt, hne]

private theorem Rebuilt.place (hchk : Checked env s0) (h : Rebuilt s0 done s)
    (hslot : s0.vvNew slot ≠ -1) (hnodup : (done ++ [slot]).Nodup) :
    Rebuilt s0 (done ++ [slot]) (s.placeIndex env true slot.1 (s0.rename (s0.vvNew slot))) := by
  obtain ⟨info, hid, hnew, hposition⟩ := hchk.new_mem slot hslot
  obtain ⟨n, hn, hn', hren⟩ := newEntries_index hid hnew
  have hlt : (n : Int) < s0.nNew := by
    have hlt := (List.getElem?_eq_some_iff.1 hn).1
    have hlen := length_newEntries hchk
    omega
  have hentry : (s0.storedEntries.map (rebuilt s0 done))[n]? = some (rebuilt s0 done (s0.vvNew slot, info)) := by
    rw [getElem?_map, hn']
    rfl
  have hinfo : s.info n = { rebuilt s0 done (s0.vvNew slot, info) with nRandomPos := n } :=
    info_of_lookup ((h.loaded.lookup _ _).2 ⟨n, _, hentry, rfl, rfl⟩)
  have hout : slot ∉ done := fun hin => (nodup_append.1 hnodup).2.2 slot hin slot (mem_singleton.2 rfl) rfl
  have hempty : s.vvNew slot = -1 := by
    rw [h.vvNew, if_neg hout]
  -- The slot is one of those of the entry that are not counted yet.
  have hrefs : ((done.countP fun slot' => s0.vvNew slot' = s0.vvNew slot : Nat) : Int) < ADDRMAN_NEW_BUCKETS_PER_ADDRESS := by
    have hle := countP_le_occurrences hnodup s0.vvNew (s0.vvNew slot)
    rw [countP_append, countP_singleton, decide_eq_true rfl, if_pos rfl] at hle
    have hoccurrences := hchk.new_refs _ _ hid hnew
    have hbound := ((hchk.record _ _ hid).new hnew).2
    omega
  have hown : env.newSlotIn s.nKey (s.info n).addr.service ⟨slot.1, slot.1.isLt⟩ = slot := by
    rw [hinfo, h.nKey]
    exact hposition
  have hfew : (s.info n).nRefCount < ADDRMAN_NEW_BUCKETS_PER_ADDRESS := by
    rw [hinfo]
    exact hrefs
  have hplace : s.placeIndex env true slot.1 (s0.rename (s0.vvNew slot)) =
      (s.setInfo n fun info => { info with nRefCount := info.nRefCount + 1 }).setNew slot n := by
    rw [hren]
    unfold placeIndex
    rw [if_pos ⟨Int.natCast_nonneg n, h.nNew ▸ hlt⟩, dif_pos ⟨rfl, slot.1.isLt⟩]
    dsimp only
    rw [hown, if_pos ⟨hempty, hfew⟩]
  rw [hplace]
  refine ⟨?_, h.nKey, h.nNew, h.nTried, h.vvTried, fun slot' => ?_⟩
  · rw [← set_rebuilt hn']
    exact (h.loaded.set hentry (fun info => { info with nRefCount := info.nRefCount + 1 }) rfl rfl fun _ => rfl).congr rfl rfl rfl
  · change update s.vvNew slot n slot' = _
    by_cases heq : slot' = slot
    · subst heq
      rw [update_self, if_pos (mem_append_right _ (mem_singleton.2 rfl)), hren]
    · rw [update_of_ne heq, h.vvNew]
      simp [heq]

section

variable {mapUnkIds : KeyMap Int Int} (hchk : Checked env s0)
  (hindex : ∀ slot, s0.vvNew slot ≠ -1 → mapUnkIds.lookup (s0.vvNew slot) = some (s0.rename (s0.vvNew slot)))
include hchk hindex

private theorem readIndices_ok {slots : List NewSlot} {bucket : Nat} (h : Rebuilt s0 done s)
    (hbucket : ∀ slot ∈ slots, slot.1.val = bucket) (hslots : ∀ slot ∈ slots, s0.vvNew slot ≠ -1)
    (hnodup : (done ++ slots).Nodup) (rest : List UInt8) :
    ∃ s', readIndices env true bucket slots.length s ((slots.flatMap fun slot =>
        (intLE 4).put ((mapUnkIds.lookup (s0.vvNew slot)).getD 0)) ++ rest) = .ok (s', rest) ∧ Rebuilt s0 (done ++ slots) s' := by
  induction slots generalizing done s with
  | nil => exact ⟨s, rfl, by rw [append_nil]; exact h⟩
  | cons slot slots ih =>
    have hslot := hslots slot (mem_cons_self ..)
    have hnodup' : (done ++ [slot] ++ slots).Nodup := by
      rw [append_assoc]
      exact hnodup
    have hpl := h.place hchk hslot (nodup_append.1 hnodup').1
    rw [hbucket slot (mem_cons_self ..)] at hpl
    obtain ⟨s', hrun, h'⟩ := ih hpl (forall_mem_cons.1 hbucket).2
      (forall_mem_cons.1 hslots).2 hnodup'
    refine ⟨s', ?_, ?_⟩
    · obtain ⟨info, hid, hnew, -⟩ := hchk.new_mem slot hslot
      obtain ⟨n, hn, -, hren⟩ := newEntries_index hid hnew
      have hlt := (List.getElem?_eq_some_iff.1 hn).1
      have hlen := length_newEntries hchk
      have hle := nNew_le hchk
      have hrange : -256 ^ 4 ≤ 2 * s0.rename (s0.vvNew slot) ∧ 2 * s0.rename (s0.vvNew slot) < 256 ^ 4 := by
        rw [hren]
        norm_num [ADDRMAN_NEW_BUCKET_COUNT, ADDRMAN_BUCKET_SIZE] at hle ⊢
        omega
      rw [length_cons, flatMap_cons, append_assoc, readIndices, hindex slot hslot, Option.getD_some,
        (exact_intLE 4).decodes _ hrange]
      exact hrun
    · rw [append_assoc] at h'
      exact h'

private theorem readBuckets_ok {buckets : List (Fin ADDRMAN_NEW_BUCKET_COUNT)} {bucket : Nat} (h : Rebuilt s0 done s)
    (hbkts : ∀ (i : Nat) b, buckets[i]? = some b → b.val = bucket + i)
    (hnodup : (done ++ buckets.flatMap s0.heldSlots).Nodup) (rest : List UInt8) :
    ∃ s', readBuckets env true bucket buckets.length s (buckets.flatMap (writeBucket mapUnkIds s0) ++ rest) = .ok (s', rest) ∧
      Rebuilt s0 (done ++ buckets.flatMap s0.heldSlots) s' := by
  induction buckets generalizing done s bucket with
  | nil => exact ⟨s, rfl, by rw [flatMap_nil, append_nil]; exact h⟩
  | cons b buckets ih =>
    rw [flatMap_cons, ← append_assoc] at hnodup
    have hb : b.val = bucket := hbkts 0 b rfl
    have hheld : ∀ slot ∈ s0.heldSlots b, slot.1.val = bucket ∧ s0.vvNew slot ≠ -1 := by
      intro slot hslot
      obtain ⟨hmem, hne⟩ := mem_filter.1 hslot
      obtain ⟨i, -, rfl⟩ := mem_map.1 hmem
      exact ⟨hb, of_decide_eq_true hne⟩
    have hlen : (s0.heldSlots b).length ≤ ADDRMAN_BUCKET_SIZE := by
      refine (length_filter_le _ _).trans ?_
      rw [length_map, length_finRange]
    obtain ⟨s1, hrun1, h1⟩ := readIndices_ok hchk hindex h (fun slot hslot => (hheld slot hslot).1)
      (fun slot hslot => (hheld slot hslot).2) (nodup_append.1 hnodup).1
      (buckets.flatMap (writeBucket mapUnkIds s0) ++ rest)
    have hbkts' : ∀ (i : Nat) b', buckets[i]? = some b' → b'.val = bucket + 1 + i := by
      intro i b' hb'
      have := hbkts (i + 1) b' hb'
      omega
    obtain ⟨s', hrun, h'⟩ := ih h1 hbkts' hnodup
    refine ⟨s', ?_, ?_⟩
    · have hrange : -256 ^ 4 ≤ 2 * ((s0.heldSlots b).length : Int) ∧ 2 * ((s0.heldSlots b).length : Int) < 256 ^ 4 := by
        norm_num [ADDRMAN_BUCKET_SIZE] at hlen ⊢
        omega
      rw [length_cons, flatMap_cons, append_assoc, writeBucket, append_assoc, readBuckets,
        (exact_intLE 4).decodes _ hrange]
      change (readIndices env true bucket ((s0.heldSlots b).length : Int).toNat s _ >>= _) = _
      rw [Int.toNat_natCast, hrun1]
      exact hrun
    · rw [flatMap_cons, ← append_assoc]
      exact h'

end

private theorem heldSlots_all (s : CAddrMan) : (List.finRange ADDRMAN_NEW_BUCKET_COUNT).flatMap s.heldSlots =
    newSlots.filter fun slot => s.vvNew slot ≠ -1 := by
  unfold newSlots List.product
  rw [filter_flatMap]
  rfl

private theorem prune_ok (h : ∀ id info, s.mapInfo.lookup id = some info → info.fInTried = false → info.nRefCount ≠ 0) :
    s.prune = .ok s := by
  unfold prune
  have hall : ∀ e ∈ ascending s.mapInfo, ¬ ((s.info e.1).fInTried = false ∧ (s.info e.1).nRefCount = 0) := by
    rintro e he ⟨hnew, hzero⟩
    have hid := mem_ascending.1 he
    rw [info_of_lookup hid] at hnew hzero
    exact h _ _ hid hnew hzero
  generalize ascending s.mapInfo = es at hall
  induction es with
  | nil => rfl
  | cons e es ih =>
    rw [foldlM_cons, if_neg (hall e (mem_cons_self ..))]
    exact ih (forall_mem_cons.1 hall).2

/-! ### Writing and reading -/

/-- The second address manager is the first one with other ids. -/
structure Renamed (ρ : Int → Int) (s s' : CAddrMan) : Prop where
  nKey : s'.nKey = s.nKey
  nNew : s'.nNew = s.nNew
  nTried : s'.nTried = s.nTried
  injective : ∀ id id' info info', s.mapInfo.lookup id = some info → s.mapInfo.lookup id' = some info' → ρ id = ρ id' → id = id'
  record : ∀ id info, s.mapInfo.lookup id = some info → ∃ info', s'.mapInfo.lookup (ρ id) = some info' ∧
    info'.stored = info.stored ∧ info'.fInTried = info.fInTried ∧ info'.nRefCount = info.nRefCount
  all : ∀ id' info', s'.mapInfo.lookup id' = some info' → ∃ id info, s.mapInfo.lookup id = some info ∧ ρ id = id'
  vvTried : ∀ slot, s'.vvTried slot = if s.vvTried slot = -1 then -1 else ρ (s.vvTried slot)
  vvNew : ∀ slot, s'.vvNew slot = if s.vvNew slot = -1 then -1 else ρ (s.vvNew slot)

def Typed (s : CAddrMan) : Prop := ∀ id info, s.mapInfo.lookup id = some info → info.stored.Typed

private theorem entry_ext {e' : Int × CAddrInfo} (hid : s.mapInfo.lookup e.1 = some e.2)
    (hid' : s.mapInfo.lookup e'.1 = some e'.2) (hkey : e.1 = e'.1) : e = e' := by
  rw [hkey, hid'] at hid
  exact Prod.ext hkey (Option.some.inj hid).symm

private theorem ips_nodup (h : Checked env s0) : (s0.storedEntries.map fun e => e.2.ip).Nodup := by
  refine (storedEntries_keys s0).of_map.map_on fun e he e' he' hip => ?_
  have hid := mem_storedEntries.1 he
  have hid' := mem_storedEntries.1 he'
  refine entry_ext hid hid' ?_
  rw [← (h.record _ _ hid).addr, ← (h.record _ _ hid').addr, hip]

private theorem triedSlots_distinct (h : Checked env s0) : (s0.triedEntries.map (slotOf env s0.nKey)).Nodup := by
  refine (triedEntries_keys s0).of_map.map_on fun e he e' he' hslot => ?_
  obtain ⟨hid, ht⟩ := mem_triedEntries.1 he
  obtain ⟨hid', ht'⟩ := mem_triedEntries.1 he'
  refine entry_ext hid hid' ?_
  rw [← h.tried_slot _ _ hid ht, ← h.tried_slot _ _ hid' ht']
  exact congrArg s0.vvTried hslot

private theorem readRecords_ok (h : Checked env s0) (htyped : s0.Typed) (rest : List UInt8) :
    ∃ s1 s2, readNew env true 0 s0.nNew.toNat { nKey := s0.nKey, nNew := s0.nNew, nTried := s0.nTried }
        (bytesOf s0.newEntries ++ (bytesOf s0.triedEntries ++ rest)) = .ok (s1, bytesOf s0.triedEntries ++ rest) ∧
      readTried env s1.nTried.toNat 0 { s1 with nIdCount := s1.nNew } (bytesOf s0.triedEntries ++ rest) = .ok (0, s2, rest) ∧
      Rebuilt s0 [] { s2 with nTried := s2.nTried - 0 } := by
  have hnews := length_newEntries h
  have htrieds := length_triedEntries h
  have hips := ips_nodup h
  rw [storedEntries, map_append] at hips
  have hips1 : (([] : List CAddrInfo).map CAddrInfo.ip ++ s0.newEntries.map fun e => e.2.ip).Nodup :=
    (nodup_append.1 hips).1
  obtain ⟨s1, hrun1, h1, hkeeps1, hvvTried1⟩ := readNew_ok s0 env (Loaded.empty s0.nKey s0.nNew s0.nTried)
    (fun e he => (mem_newEntries.1 he).imp_left (htyped _ _)) hips1 (bytesOf s0.triedEntries ++ rest)
  rw [nil_append] at h1
  have hkey1 : s1.nKey = s0.nKey := hkeeps1.nKey
  have h1' : Loaded (s0.newEntries.map (rebuilt s0 [])) { s1 with nIdCount := s1.nNew } := h1.congr rfl rfl rfl
  have hcount1 : ({ s1 with nIdCount := s1.nNew } : CAddrMan).nIdCount = (s0.newEntries.map (rebuilt s0 [])).length := by
    rw [length_map]
    exact hkeeps1.nNew.trans hnews.symm
  have hips2 : ((s0.newEntries.map (rebuilt s0 [])).map CAddrInfo.ip ++ s0.triedEntries.map fun e => e.2.ip).Nodup := by
    rwa [map_map]
  have hslots : (s0.triedEntries.map (slotOf env ({ s1 with nIdCount := s1.nNew } : CAddrMan).nKey)).Nodup := by
    dsimp only
    rw [hkey1]
    exact triedSlots_distinct h
  obtain ⟨s2, hrun2, h2, hkeeps2, hpl, hoth⟩ := readTried_ok s0 env h1' hcount1
    (fun e he => (mem_triedEntries.1 he).imp_left (htyped _ _)) hips2 hslots (fun r _ => congrFun hvvTried1 _) 0 rest
  dsimp only at hpl hoth
  rw [hkey1] at hpl hoth
  refine ⟨s1, s2, ?_, ?_, ?_, hkeeps2.nKey.trans hkey1, hkeeps2.nNew.trans hkeeps1.nNew, ?_, fun slot => ?_, fun slot => ?_⟩
  · rw [show s0.nNew.toNat = s0.newEntries.length by omega]
    exact hrun1
  · rw [show s1.nTried.toNat = s0.triedEntries.length by have : s1.nTried = s0.nTried := hkeeps1.nTried; omega]
    exact hrun2
  · rw [storedEntries, map_append]
    exact h2.congr rfl rfl rfl
  · rw [Int.sub_zero]
    exact hkeeps2.nTried.trans hkeeps1.nTried
  · dsimp only
    by_cases hempty : s0.vvTried slot = -1
    · rw [if_pos hempty, hoth slot]
      · exact congrFun hvvTried1 slot
      · intro hmem
        obtain ⟨e, he, rfl⟩ := mem_map.1 hmem
        obtain ⟨hid, ht⟩ := mem_triedEntries.1 he
        exact h.id_ne _ _ hid ((h.tried_slot _ _ hid ht).symm.trans hempty)
    · obtain ⟨info, hid, ht, hslot⟩ := h.tried_mem slot hempty
      obtain ⟨j, hj⟩ := mem_iff_getElem?.1 ((mem_triedEntries (e := (s0.vvTried slot, info))).2 ⟨hid, ht⟩)
      have hindex : s0.storedEntries[s0.newEntries.length + j]? = some (s0.vvTried slot, info) := by
        rw [storedEntries, getElem?_append_right (Nat.le_add_right _ _), Nat.add_sub_cancel_left]
        exact hj
      have hplace := hpl j _ hj
      rw [show slotOf env s0.nKey (s0.vvTried slot, info) = slot from hslot, length_map] at hplace
      rw [if_neg hempty, hplace, rename_eq hindex]
      push_cast
      rfl
  · rw [if_neg not_mem_nil]
    exact (congrFun hkeeps2.vvNew slot).trans (congrFun hkeeps1.vvNew slot)

private def allHeld (s : CAddrMan) : List NewSlot := newSlots.filter fun slot => s.vvNew slot ≠ -1

private theorem mem_allHeld : slot ∈ s0.allHeld ↔ s0.vvNew slot ≠ -1 := by
  rw [allHeld, mem_filter, decide_eq_true_eq]
  exact and_iff_right (mem_newSlots slot)

private theorem rebuilt_refs (h : Checked env s0) (he : s0.mapInfo.lookup e.1 = some e.2) :
    (rebuilt s0 s0.allHeld e).nRefCount = e.2.nRefCount := by
  have hcount : s0.allHeld.countP (fun slot => s0.vvNew slot = e.1) = occurrences s0.vvNew e.1 := by
    rw [allHeld, countP_filter, ← countP_eq_occurrences newSlots_nodup mem_newSlots]
    refine countP_congr fun slot _ => ?_
    have hne := h.id_ne _ _ he
    grind
  rw [rebuilt, hcount]
  cases ht : e.2.fInTried with
  | false => exact h.new_refs _ _ he ht
  | true =>
    have hzero : occurrences s0.vvNew e.1 = 0 := by
      refine occurrences_eq_zero.2 fun slot hslot => ?_
      obtain ⟨info, hid, hnew, -⟩ := h.new_mem slot (hslot ▸ h.id_ne _ _ he)
      rw [hslot, he] at hid
      obtain rfl := Option.some.inj hid
      rw [ht] at hnew
      cases hnew
    rw [hzero, ((h.record _ _ he).tried ht).2]
    rfl

private theorem Rebuilt.lookup_rename (hr : Rebuilt s0 done s) (hid : s0.mapInfo.lookup id = some info) :
    s.mapInfo.lookup (s0.rename id) = some { rebuilt s0 done (id, info) with nRandomPos := s0.rename id } := by
  obtain ⟨n, hn⟩ := exists_index hid
  have hren : s0.rename id = n := rename_eq hn
  rw [hren]
  refine (hr.loaded.lookup _ _).2 ⟨n, rebuilt s0 done (id, info), ?_, rfl, rfl⟩
  rw [getElem?_map, hn]
  rfl

private theorem Rebuilt.exists_rename (hr : Rebuilt s0 done s) (hid : s.mapInfo.lookup id = some info) :
    ∃ id0 info0, s0.mapInfo.lookup id0 = some info0 ∧ id = s0.rename id0 ∧
      info = { rebuilt s0 done (id0, info0) with nRandomPos := s0.rename id0 } := by
  obtain ⟨n, i, hi, rfl, rfl⟩ := (hr.loaded.lookup _ _).1 hid
  rw [getElem?_map] at hi
  obtain ⟨e, he, rfl⟩ := Option.map_eq_some_iff.1 hi
  have hren := rename_eq he
  exact ⟨e.1, e.2, mem_storedEntries.1 (mem_of_getElem? he), hren.symm, by rw [hren]⟩

private theorem rename_injective {id' : Int} {info' : CAddrInfo} (hid : s0.mapInfo.lookup id = some info)
    (hid' : s0.mapInfo.lookup id' = some info') (heq : s0.rename id = s0.rename id') : id = id' := by
  obtain ⟨n, hn⟩ := exists_index hid
  obtain ⟨m, hm⟩ := exists_index hid'
  have hren : s0.rename id = n := rename_eq hn
  have hren' : s0.rename id' = m := rename_eq hm
  obtain rfl : n = m := by omega
  rw [hn] at hm
  exact congrArg Prod.fst (Option.some.inj hm)

private theorem Rebuilt.vvNew_all (hr : Rebuilt s0 s0.allHeld s) (slot : NewSlot) :
    s.vvNew slot = if s0.vvNew slot = -1 then -1 else s0.rename (s0.vvNew slot) := by
  rw [hr.vvNew]
  by_cases hempty : s0.vvNew slot = -1
  · rw [if_pos hempty, if_neg fun hmem => mem_allHeld.1 hmem hempty]
  · rw [if_neg hempty, if_pos (mem_allHeld.2 hempty)]

private theorem Rebuilt.renamed (h : Checked env s0) (hr : Rebuilt s0 s0.allHeld s) : Renamed s0.rename s0 s := by
  refine ⟨hr.nKey, hr.nNew, hr.nTried, fun id id' info info' hid hid' => rename_injective hid hid', fun id info hid => ?_,
    fun id' info' hid' => ?_, hr.vvTried, hr.vvNew_all⟩
  · have hrefs := rebuilt_refs h (e := (id, info)) hid
    exact ⟨_, hr.lookup_rename hid, rfl, rfl, hrefs⟩
  · obtain ⟨id0, info0, hid0, rfl, -⟩ := hr.exists_rename hid'
    exact ⟨id0, info0, hid0, rfl⟩

private theorem rename_nonneg (s : CAddrMan) (id : Int) : 0 ≤ s.rename id := Int.natCast_nonneg _

private theorem renamed_slot {ι : Type} {table table' : ι → Int}
    (htable : ∀ slot, table' slot = if table slot = -1 then -1 else s0.rename (table slot))
    (hmem : ∀ slot, table slot ≠ -1 → ∃ info, s0.mapInfo.lookup (table slot) = some info)
    (hid : s0.mapInfo.lookup id = some info) (hne : id ≠ -1) (slot : ι) : table' slot = s0.rename id ↔ table slot = id := by
  rw [htable]
  by_cases hempty : table slot = -1
  · rw [if_pos hempty, hempty]
    have := rename_nonneg s0 id
    exact ⟨fun heq => by omega, fun heq => absurd heq.symm hne⟩
  · rw [if_neg hempty]
    obtain ⟨info', hid'⟩ := hmem slot hempty
    exact ⟨fun heq => rename_injective hid' hid heq, fun heq => by rw [heq]⟩

private theorem Rebuilt.checked (h : Checked env s0) (hr : Rebuilt s0 s0.allHeld s) : Checked env s := by
  have hnews := length_newEntries h
  have htrieds := length_triedEntries h
  have hlen : s0.storedEntries.length = s0.newEntries.length + s0.triedEntries.length := length_append
  have hcts : s0.storedEntries.countP (fun e => e.2.fInTried) = s0.triedEntries.length ∧
      s0.storedEntries.countP (fun e => !e.2.fInTried) = s0.newEntries.length := by
    simp [storedEntries, newEntries, triedEntries, countP_eq_length_filter]
  have htriedMem : ∀ slot, s0.vvTried slot ≠ -1 → ∃ info, s0.mapInfo.lookup (s0.vvTried slot) = some info :=
    fun slot hslot => (h.tried_mem slot hslot).imp fun _ hinfo => hinfo.1
  have hnewMem : ∀ slot, s0.vvNew slot ≠ -1 → ∃ info, s0.mapInfo.lookup (s0.vvNew slot) = some info :=
    fun slot hslot => (h.new_mem slot hslot).imp fun _ hinfo => hinfo.1
  refine ⟨?_, fun id info hid => ?_, ?_, ?_, fun slot hslot => ?_, fun id info hid ht => ?_, fun slot hslot => ?_,
    fun id info hid hnew => ?_, fun id info hid => ?_, ?_⟩
  · rw [hr.loaded.vRandom, length_map, length_range, length_map, hr.nTried, hr.nNew]
    omega
  · obtain ⟨id0, info0, hid0, rfl, rfl⟩ := hr.exists_rename hid
    have hrec := h.record _ _ hid0
    have hrefs := rebuilt_refs h (e := (id0, info0)) hid0
    obtain ⟨n, hn⟩ := exists_index hid0
    have hentry : (s0.storedEntries.map (rebuilt s0 s0.allHeld))[n]? = some (rebuilt s0 s0.allHeld (id0, info0)) := by
      simp [hn]
    rw [show s0.rename id0 = n from rename_eq hn]
    refine ⟨fun ht => ⟨(hrec.tried ht).1, hrefs.trans (hrec.tried ht).2⟩, fun hn => hrefs ▸ hrec.new hn, ?_, ?_,
      le_refl 0, hrec.lastSuccess⟩
    · exact congrArg (fun o => Option.getD o 0) (hr.loaded.addr n _ hentry)
    · simp [hr.loaded.vRandom, (List.getElem?_eq_some_iff.1 hn).1]
  · rw [hr.loaded.countTried, countP_map, hr.nTried, ← htrieds, ← hcts.1]
    rfl
  · rw [hr.loaded.countNew, countP_map, hr.nNew, ← hnews, ← hcts.2]
    rfl
  · rw [hr.vvTried] at hslot ⊢
    have hheld : s0.vvTried slot ≠ -1 := fun hempty => hslot (if_pos hempty)
    obtain ⟨info, hid, ht, hown⟩ := h.tried_mem slot hheld
    rw [if_neg hheld, hr.nKey]
    exact ⟨_, hr.lookup_rename hid, ht, hown⟩
  · obtain ⟨id0, info0, hid0, rfl, rfl⟩ := hr.exists_rename hid
    refine (renamed_slot hr.vvTried htriedMem hid0 (h.id_ne _ _ hid0) _).2 ?_
    rw [hr.nKey]
    exact h.tried_slot id0 info0 hid0 ht
  · rw [hr.vvNew_all] at hslot ⊢
    have hheld : s0.vvNew slot ≠ -1 := fun hempty => hslot (if_pos hempty)
    obtain ⟨info, hid, hnew, hown⟩ := h.new_mem slot hheld
    rw [if_neg hheld, hr.nKey]
    exact ⟨_, hr.lookup_rename hid, hnew, hown⟩
  · obtain ⟨id0, info0, hid0, rfl, rfl⟩ := hr.exists_rename hid
    rw [occurrences_congr (renamed_slot hr.vvNew_all hnewMem hid0 (h.id_ne _ _ hid0)), h.new_refs _ _ hid0 hnew]
    exact (rebuilt_refs h (e := (id0, info0)) hid0).symm
  · obtain ⟨id0, info0, hid0, rfl, -⟩ := hr.exists_rename hid
    have := rename_nonneg s0 id0
    omega
  · rw [hr.nKey]
    exact h.key

private theorem decodes_headerOp : headerOp.Decodes fun p => (-256 ^ 4 ≤ 2 * p.2.2.1 ∧ 2 * p.2.2.1 < 256 ^ 4) ∧
    (-256 ^ 4 ≤ 2 * p.2.2.2.1 ∧ 2 * p.2.2.2.1 < 256 ^ 4) ∧ -256 ^ 4 ≤ 2 * p.2.2.2.2 ∧ 2 * p.2.2.2.2 < 256 ^ 4 := by
  refine decodes_imap (decodes_seq (exact_byte endOfData).decodes fun _ _ => decodes_seq (exact_guard (exact_byte endOfData)).decodes
    fun _ _ => decodes_seq (exact_blob 32).decodes fun _ _ => decodes_seq (exact_intLE 4).decodes fun _ _ =>
    decodes_seq (exact_intLE 4).decodes fun _ _ => (exact_intLE 4).decodes) ?_
  rintro ⟨nVersion, nKey, nNew, nTried, nUBuckets⟩ ⟨hnew, htried, hbkts⟩
  exact ⟨⟨trivial, ⟨trivial, rfl⟩, trivial, hnew, htried, hbkts⟩, rfl⟩

private theorem flipMark_flipMark : flipMark (flipMark ADDRMAN_NEW_BUCKET_COUNT) = ADDRMAN_NEW_BUCKET_COUNT := by decide

/-- Reading the address manager again gives the same one with other ids, and `Check_` finds nothing. -/
theorem unserialize_serialize (env : AddrManEnv) {s : CAddrMan} (hcheck : s.check env = 0) (htyped : s.Typed) :
    ∃ bytes s' ρ, s.serialize = .ok bytes ∧ unserialize env bytes = .ok (s', []) ∧ Renamed ρ s s' ∧ s'.check env = 0 := by
  have h := check_eq_zero.1 hcheck
  have hnews := length_newEntries h
  have htrieds := length_triedEntries h
  have hnewLe := nNew_le h
  have htriedLe := nTried_le h
  have hrefs : ∀ e ∈ ascending s.mapInfo, e.2.nRefCount ≠ 0 ↔ e.2.fInTried = false := by
    intro e he
    have hrec := h.record _ _ (mem_ascending.1 he)
    cases ht : e.2.fInTried with
    | false =>
      have := (hrec.new ht).1
      exact ⟨fun _ => rfl, fun _ => by omega⟩
    | true => exact ⟨fun hne => absurd (hrec.tried ht).2 hne, nofun⟩
  obtain ⟨mapUnkIds, hwriteNew, -, hindex⟩ := writeNew_ok hrefs (ascending_keys_nodup _)
    (show (0 : Int) + s.newEntries.length ≤ s.nNew by omega) ∅
  have hwriteTried := writeTried_ok (show (0 : Int) + s.triedEntries.length ≤ s.nTried by omega)
  have hindex' : ∀ slot, s.vvNew slot ≠ -1 → mapUnkIds.lookup (s.vvNew slot) = some (s.rename (s.vvNew slot)) := by
    intro slot hslot
    obtain ⟨info, hid, hnew, -⟩ := h.new_mem slot hslot
    obtain ⟨n, hn, -, hren⟩ := newEntries_index hid hnew
    rw [hren, hindex n _ hn, Int.zero_add]
  have hserialize : s.serialize = .ok (headerOp.put (1, s.nKey, s.nNew, s.nTried, flipMark ADDRMAN_NEW_BUCKET_COUNT) ++
      (bytesOf s.newEntries ++ (bytesOf s.triedEntries ++
        ((List.finRange ADDRMAN_NEW_BUCKET_COUNT).flatMap (writeBucket mapUnkIds s) ++ [])))) := by
    unfold serialize
    rw [hwriteNew]
    change (writeTried s.nTried (ascending s.mapInfo) 0 >>= _) = _
    rw [hwriteTried, append_nil, ← append_assoc, ← append_assoc]
    rfl
  obtain ⟨s₁, s₂, hreadNew, hreadTried, hrebuilt⟩ := readRecords_ok h htyped
    ((List.finRange ADDRMAN_NEW_BUCKET_COUNT).flatMap (writeBucket mapUnkIds s) ++ [])
  have hbkts : ∀ (i : Nat) b, (List.finRange ADDRMAN_NEW_BUCKET_COUNT)[i]? = some b → b.val = 0 + i := by
    intro i b hb
    obtain ⟨hi, rfl⟩ := List.getElem?_eq_some_iff.1 hb
    rw [getElem_finRange, Nat.zero_add]
    rfl
  have hnodup : ([] ++ (List.finRange ADDRMAN_NEW_BUCKET_COUNT).flatMap s.heldSlots).Nodup := by
    rw [nil_append, heldSlots_all]
    exact newSlots_nodup.filter _
  obtain ⟨s₃, hreadBuckets, hrebuilt3⟩ := readBuckets_ok h hindex' hrebuilt hbkts hnodup []
  rw [nil_append, heldSlots_all] at hrebuilt3
  rw [length_finRange] at hreadBuckets
  have hchk3 := Rebuilt.checked h hrebuilt3
  have hprune : s₃.prune = .ok s₃ := by
    refine prune_ok fun id info hid hnew => ?_
    have := ((hchk3.record _ _ hid).new hnew).1
    omega
  have hents : readEntries env true ADDRMAN_NEW_BUCKET_COUNT { nKey := s.nKey, nNew := s.nNew, nTried := s.nTried }
      (bytesOf s.newEntries ++ (bytesOf s.triedEntries ++
        ((List.finRange ADDRMAN_NEW_BUCKET_COUNT).flatMap (writeBucket mapUnkIds s) ++ []))) = .ok (s₃, []) := by
    unfold readEntries
    exact except_bind_ok.2 ⟨_, hreadNew, except_bind_ok.2 ⟨_, hreadTried, except_bind_ok.2 ⟨_, hreadBuckets,
      except_bind_ok.2 ⟨_, hprune, rfl⟩⟩⟩⟩
  refine ⟨_, s₃, s.rename, hserialize, ?_, Rebuilt.renamed h hrebuilt3, check_eq_zero.2 hchk3⟩
  unfold unserialize
  rw [decodes_headerOp _ ?_]
  · change (reject _ _ >>= fun _ => reject _ _ >>= fun _ => readEntries env _ _ _ _) = _
    rw [(reject_ok (u := ())).2 (decide_eq_false (not_lt.2 hnewLe)), (reject_ok (u := ())).2 (decide_eq_false (not_lt.2 htriedLe))]
    change readEntries env _ (flipMark (flipMark ADDRMAN_NEW_BUCKET_COUNT)) _ _ = _
    rw [flipMark_flipMark]
    exact hents
  · have hnewLe' : s.nNew ≤ 65536 := hnewLe
    have htriedLe' : s.nTried ≤ 16384 := htriedLe
    refine ⟨⟨?_, ?_⟩, ⟨?_, ?_⟩, by dsimp only; decide⟩
    all_goals
      dsimp only
      omega

/-- A tried address and a new one. -/
theorem unserialize_serialize_twoHosts : ∃ s, run oneSlot [.add (hostAddress 1) 0 0 1000 0,
      .good (hostAddress 1).service 1000 0, .add (hostAddress 2) 0 0 1000 0] { nKey := 1 } = .ok s ∧
    s.nTried = 1 ∧ s.nNew = 1 ∧ ∃ bytes s' ρ, s.serialize = .ok bytes ∧ unserialize oneSlot bytes = .ok (s', []) ∧
      Renamed ρ s s' ∧ s'.check oneSlot = 0 := by
  obtain ⟨s, hrun, h, hkey⟩ := run_steady (steady_empty oneSlot 1) (le_refl 0) [.add (hostAddress 1) 0 0 1000 0,
    .good (hostAddress 1).service 1000 0, .add (hostAddress 2) 0 0 1000 0] (by simp [AddrOp.GoodTimes])
    (by simp [AddrOp.AttemptTimes]) (by decide) (by decide)
  have hcheck : s.check oneSlot = 0 := check_eq_zero.2 (h.checked (hkey ▸ by decide))
  have heval : (run oneSlot [.add (hostAddress 1) 0 0 1000 0, .good (hostAddress 1).service 1000 0,
      .add (hostAddress 2) 0 0 1000 0] { nKey := 1 }).toOption.map (fun s => (s.nTried, s.nNew, s.mapInfo.entries)) =
      some (1, 1, [⟨1, { addr := hostAddress 2, nRefCount := 1, nRandomPos := 1 }⟩,
        ⟨0, { addr := hostAddress 1, nLastSuccess := 1000, nLastTry := 1000, nRandomPos := 0, fInTried := true }⟩]) := by
    decide +kernel
  rw [hrun] at heval
  obtain ⟨htried, hnew, hents⟩ : s.nTried = 1 ∧ s.nNew = 1 ∧ s.mapInfo.entries = _ := by
    simpa [Except.toOption] using heval
  refine ⟨s, hrun, htried, hnew, unserialize_serialize oneSlot hcheck fun id info hid => ?_⟩
  have hmem := AList.mem_lookup_iff.1 hid
  rw [hents, mem_cons, mem_singleton] at hmem
  rcases hmem with hmem | hmem
  · cases hmem
    exact ⟨by decide, by decide, by decide, by decide⟩
  · cases hmem
    exact ⟨by decide, by decide, by decide, by decide⟩

end CAddrMan

end LitecoinZ
