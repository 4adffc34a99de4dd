import Mathlib.Data.Fintype.Prod
import LitecoinZ.Lib.CheckOff
import LitecoinZ.Lib.KeyMap
import LitecoinZ.Net.NetBase

/-!
# The address manager

`CAddrMan` of `addrman.{h,cpp}`: the records of addresses under their ids, the tables of the addresses that were tried and of
those that are new, and the operations on them with their assertions.  The hash functions that choose the slots are parameters,
and so is every random choice.  `Check_` is the consistency check of the debug builds.
-/

namespace LitecoinZ

structure CAddrInfo where
  addr : CAddress := {}
  source : CNetAddr := 0
  nLastTry : Int := 0
  nLastSuccess : Int := 0
  nAttempts : Int := 0
  nRefCount : Int := 0
  fInTried : Bool := false
  nRandomPos : Int := -1
  deriving DecidableEq, Repr

namespace CAddrInfo

def ip (info : CAddrInfo) : CNetAddr := info.addr.service.ip

def ADDRMAN_HORIZON_DAYS : Int := 30
def ADDRMAN_RETRIES : Int := 3
def ADDRMAN_MAX_FAILURES : Int := 10
def ADDRMAN_MIN_FAIL_DAYS : Int := 7

def isTerrible (nNow : Int) (info : CAddrInfo) : Bool :=
  if info.nLastTry ≠ 0 && info.nLastTry ≥ nNow - 60 then false
  else if info.addr.nTime > nNow + 10 * 60 then true
  else if info.addr.nTime = 0 || nNow - info.addr.nTime > ADDRMAN_HORIZON_DAYS * 24 * 60 * 60 then true
  else if info.nLastSuccess = 0 && info.nAttempts ≥ ADDRMAN_RETRIES then true
  else nNow - info.nLastSuccess > ADDRMAN_MIN_FAIL_DAYS * 24 * 60 * 60 && info.nAttempts ≥ ADDRMAN_MAX_FAILURES

end CAddrInfo

/-! ### The tables -/

abbrev ADDRMAN_TRIED_BUCKET_COUNT : Nat := 256
abbrev ADDRMAN_NEW_BUCKET_COUNT : Nat := 1024
abbrev ADDRMAN_BUCKET_SIZE : Nat := 64
def ADDRMAN_NEW_BUCKETS_PER_ADDRESS : Int := 8
def ADDRMAN_GETADDR_MAX_PCT : Nat := 23
def ADDRMAN_GETADDR_MAX : Nat := 2500

abbrev TriedSlot := Fin ADDRMAN_TRIED_BUCKET_COUNT × Fin ADDRMAN_BUCKET_SIZE
abbrev NewSlot := Fin ADDRMAN_NEW_BUCKET_COUNT × Fin ADDRMAN_BUCKET_SIZE

/-- The functions of addresses that the address manager uses. -/
structure AddrManEnv where
  isRoutable : CNetAddr → Bool
  getTriedBucket : (nKey : Uint256) → CService → Fin ADDRMAN_TRIED_BUCKET_COUNT
  getNewBucket : (nKey : Uint256) → CService → (src : CNetAddr) → Fin ADDRMAN_NEW_BUCKET_COUNT
  getBucketPosition : (nKey : Uint256) → (fNew : Bool) → (nBucket : Nat) → CService → Fin ADDRMAN_BUCKET_SIZE

variable (env : AddrManEnv)

namespace AddrManEnv

def triedSlot (nKey : Uint256) (addr : CService) : TriedSlot :=
  (env.getTriedBucket nKey addr, env.getBucketPosition nKey false (env.getTriedBucket nKey addr) addr)

/-- The slot of an address in a bucket of the table of the new ones. -/
def newSlotIn (nKey : Uint256) (addr : CService) (bucket : Fin ADDRMAN_NEW_BUCKET_COUNT) : NewSlot :=
  (bucket, env.getBucketPosition nKey true bucket addr)

def newSlot (nKey : Uint256) (addr : CService) (src : CNetAddr) : NewSlot :=
  env.newSlotIn nKey addr (env.getNewBucket nKey addr src)

end AddrManEnv

/-- An empty slot has the id -1. -/
structure CAddrMan where
  nIdCount : Int := 0
  mapInfo : KeyMap Int CAddrInfo := ∅
  mapAddr : KeyMap CNetAddr Int := ∅
  vRandom : List Int := []
  nTried : Int := 0
  vvTried : TriedSlot → Int := fun _ => -1
  nNew : Int := 0
  vvNew : NewSlot → Int := fun _ => -1
  nKey : Uint256

namespace CAddrMan

/-- `mapInfo[nId]`. -/
def info (nId : Int) (s : CAddrMan) : CAddrInfo := (s.mapInfo.lookup nId).getD {}

def setInfo (nId : Int) (f : CAddrInfo → CAddrInfo) (s : CAddrMan) : CAddrMan :=
  { s with mapInfo := s.mapInfo.insert nId (f (s.info nId)) }

def setNew (slot : NewSlot) (nId : Int) (s : CAddrMan) : CAddrMan := { s with vvNew := Function.update s.vvNew slot nId }

def setTried (slot : TriedSlot) (nId : Int) (s : CAddrMan) : CAddrMan :=
  { s with vvTried := Function.update s.vvTried slot nId }

def find (addr : CNetAddr) (s : CAddrMan) : Option (Int × CAddrInfo) :=
  match s.mapAddr.lookup addr with
  | none => none
  | some nId => (s.mapInfo.lookup nId).map fun info => (nId, info)

/-- The new entry has the id `s.nIdCount`. -/
def create (addr : CAddress) (addrSource : CNetAddr) (s : CAddrMan) : Except Fault CAddrMan := do
  let nIdCount ← checkedInt (s.nIdCount + 1)
  pure { s with
    nIdCount
    mapInfo := s.mapInfo.insert s.nIdCount { addr, source := addrSource, nRandomPos := s.vRandom.length }
    mapAddr := s.mapAddr.insert addr.service.ip s.nIdCount
    vRandom := s.vRandom ++ [s.nIdCount] }

def swapRandom (nRndPos1 nRndPos2 : Nat) (s : CAddrMan) : Except Fault CAddrMan :=
  if nRndPos1 = nRndPos2 then .ok s
  else
    match s.vRandom[nRndPos1]?, s.vRandom[nRndPos2]? with
    | some nId1, some nId2 =>
      if (s.mapInfo.lookup nId1).isNone then .error (.assertion "mapInfo.count(nId1) == 1")
      else if (s.mapInfo.lookup nId2).isNone then .error (.assertion "mapInfo.count(nId2) == 1")
      else
        let s' := (s.setInfo nId1 fun info => { info with nRandomPos := nRndPos2 }).setInfo nId2 fun info =>
          { info with nRandomPos := nRndPos1 }
        .ok { s' with vRandom := (s.vRandom.set nRndPos1 nId2).set nRndPos2 nId1 }
    | _, _ => .error (.assertion "nRndPos1 < vRandom.size() && nRndPos2 < vRandom.size()")

/-- What `Delete` does after its assertions. -/
def remove (nId : Int) (info : CAddrInfo) (s : CAddrMan) : Except Fault CAddrMan := do
  let s ← s.swapRandom (info.nRandomPos % 2 ^ 32).toNat ((s.vRandom.length + (2 ^ 32 - 1)) % 2 ^ 32)
  pure { s with
    vRandom := s.vRandom.dropLast
    mapAddr := s.mapAddr.erase info.ip
    mapInfo := s.mapInfo.erase nId
    nNew := s.nNew - 1 }

def delete (nId : Int) (s : CAddrMan) : Except Fault CAddrMan :=
  match s.mapInfo.lookup nId with
  | none => .error (.assertion "mapInfo.count(nId) != 0")
  | some info =>
    if info.fInTried then .error (.assertion "!info.fInTried")
    else if info.nRefCount ≠ 0 then .error (.assertion "info.nRefCount == 0")
    else s.remove nId info

def clearNew (slot : NewSlot) (s : CAddrMan) : Except Fault CAddrMan :=
  if s.vvNew slot = -1 then .ok s
  else if ¬ (s.info (s.vvNew slot)).nRefCount > 0 then .error (.assertion "infoDelete.nRefCount > 0")
  else
    let s' := (s.setInfo (s.vvNew slot) fun info => { info with nRefCount := info.nRefCount - 1 }).setNew slot (-1)
    if (s'.info (s.vvNew slot)).nRefCount = 0 then s'.delete (s.vvNew slot) else .ok s'

/-- `MakeTried` removes an entry from a bucket of the new ones. -/
def clearBucket (nId : Int) (s : CAddrMan) (bucket : Fin ADDRMAN_NEW_BUCKET_COUNT) : CAddrMan :=
  let slot := env.newSlotIn s.nKey (s.info nId).addr.service bucket
  if s.vvNew slot = nId then (s.setNew slot (-1)).setInfo nId fun info => { info with nRefCount := info.nRefCount - 1 }
  else s

/-- An entry that was tried is entered into the new ones again. -/
def reenter (nId : Int) (slot : NewSlot) (s : CAddrMan) : Except Fault CAddrMan := do
  let s ← s.clearNew slot
  if s.vvNew slot ≠ -1 then .error (.assertion "vvNew[nUBucket][nUBucketPos] == -1")
  else
    let s' := (s.setInfo nId fun info => { info with nRefCount := 1 }).setNew slot nId
    pure { s' with nNew := s.nNew + 1 }

/-- `MakeTried` makes space in a slot. -/
def evict (slot : TriedSlot) (s : CAddrMan) : Except Fault CAddrMan :=
  if s.vvTried slot = -1 then .ok s
  else
    match s.mapInfo.lookup (s.vvTried slot) with
    | none => .error (.assertion "mapInfo.count(nIdEvict) == 1")
    | some infoOld =>
      let s' := (s.setInfo (s.vvTried slot) fun info => { info with fInTried := false }).setTried slot (-1)
      reenter (s.vvTried slot) (env.newSlot s.nKey infoOld.addr.service infoOld.source) { s' with nTried := s.nTried - 1 }

/-- `MakeTried` from where the entry is in no bucket of the new ones. -/
def enterTried (nId : Int) (s : CAddrMan) : Except Fault CAddrMan :=
  if (s.info nId).nRefCount ≠ 0 then .error (.assertion "info.nRefCount == 0")
  else do
    let slot := env.triedSlot s.nKey (s.info nId).addr.service
    let s ← s.evict env slot
    if s.vvTried slot ≠ -1 then .error (.assertion "vvTried[nKBucket][nKBucketPos] == -1")
    else
      let s' := (s.setTried slot nId).setInfo nId fun info => { info with fInTried := true }
      pure { s' with nTried := s.nTried + 1 }

def makeTried (nId : Int) (s : CAddrMan) : Except Fault CAddrMan :=
  let s := (List.finRange ADDRMAN_NEW_BUCKET_COUNT).foldl (clearBucket env nId) s
  enterTried env nId { s with nNew := s.nNew - 1 }

/-! ### The operations -/

/-- The bucket that is looked at in a round of the search in `Good_`. -/
def bucketAt (nRnd n : Nat) : Fin ADDRMAN_NEW_BUCKET_COUNT :=
  ⟨(n + nRnd % ADDRMAN_NEW_BUCKET_COUNT) % ADDRMAN_NEW_BUCKET_COUNT, Nat.mod_lt _ (by decide)⟩

def good (addr : CService) (nTime : Int) (nRnd : Nat) (s : CAddrMan) : Except Fault CAddrMan :=
  match s.find addr.ip with
  | none => .ok s
  | some (nId, info) =>
    if info.addr.service ≠ addr then .ok s
    else
      let s := s.setInfo nId fun info => { info with nLastSuccess := nTime, nLastTry := nTime, nAttempts := 0 }
      if info.fInTried then .ok s
      else if (List.range ADDRMAN_NEW_BUCKET_COUNT).any fun n =>
          s.vvNew (env.newSlotIn s.nKey info.addr.service (bucketAt nRnd n)) = nId then makeTried env nId s
      else .ok s

def refresh (nNow nTimePenalty : Int) (addr : CAddress) (info : CAddrInfo) : CAddrInfo :=
  let nUpdateInterval : Int := if nNow - addr.nTime < 24 * 60 * 60 then 60 * 60 else 24 * 60 * 60
  let nTime := if addr.nTime ≠ 0 && (info.addr.nTime = 0 || info.addr.nTime < addr.nTime - nUpdateInterval - nTimePenalty) then
      (max 0 (addr.nTime - nTimePenalty) % 2 ^ 32).toNat
    else info.addr.nTime
  { info with addr := { info.addr with nTime, nServices := info.addr.nServices ||| addr.nServices } }

def penalise (nTimePenalty : Int) (info : CAddrInfo) : CAddrInfo :=
  { info with addr := { info.addr with nTime := (max 0 (info.addr.nTime - nTimePenalty) % 2 ^ 32).toNat } }

/-- The end of `Add_`: a reference to the entry is put into the slot, if there is place. -/
def addReference (nNow : Int) (nId : Int) (slot : NewSlot) (s : CAddrMan) : Except Fault CAddrMan :=
  if s.vvNew slot = nId then .ok s
  else if s.vvNew slot = -1 || (s.info (s.vvNew slot)).isTerrible nNow ||
      ((s.info (s.vvNew slot)).nRefCount > 1 && (s.info nId).nRefCount = 0) then do
    let s ← s.clearNew slot
    pure ((s.setInfo nId fun info => { info with nRefCount := info.nRefCount + 1 }).setNew slot nId)
  else if (s.info nId).nRefCount = 0 then s.delete nId
  else .ok s

/-- `Add_` of an address that is known, from where its record is updated. -/
def addFurther (addr : CAddress) (source : CNetAddr) (nNow : Int) (nRnd : Nat) (nId : Int)
    (info : CAddrInfo) (s : CAddrMan) : Except Fault CAddrMan :=
  if addr.nTime = 0 || (info.addr.nTime ≠ 0 && addr.nTime ≤ info.addr.nTime) then .ok s
  else if info.fInTried then .ok s
  else if info.nRefCount = ADDRMAN_NEW_BUCKETS_PER_ADDRESS then .ok s
  else if 2 ^ info.nRefCount.toNat > 1 && nRnd % 2 ^ info.nRefCount.toNat ≠ 0 then .ok s
  else addReference nNow nId (env.newSlot s.nKey info.addr.service source) s

def addKnown (addr : CAddress) (source : CNetAddr) (nTimePenalty nNow : Int) (nRnd : Nat) (nId : Int)
    (s : CAddrMan) : Except Fault CAddrMan :=
  let s := s.setInfo nId (refresh nNow nTimePenalty addr)
  addFurther env addr source nNow nRnd nId (s.info nId) s

def addUnknown (addr : CAddress) (source : CNetAddr) (nTimePenalty nNow : Int) (s : CAddrMan) :
    Except Fault CAddrMan := do
  let nId := s.nIdCount
  let s ← s.create addr source
  let s := s.setInfo nId (penalise nTimePenalty)
  addReference nNow nId (env.newSlot s.nKey addr.service source) { s with nNew := s.nNew + 1 }

/-- The result says whether the address is new. -/
def add (addr : CAddress) (source : CNetAddr) (nTimePenalty nNow : Int) (nRnd : Nat) (s : CAddrMan) :
    Except Fault (Bool × CAddrMan) :=
  if !env.isRoutable addr.service.ip then .ok (false, s)
  else
    match s.find addr.service.ip with
    | some (nId, _) => (s.addKnown env addr source nTimePenalty nNow nRnd nId).map fun s => (false, s)
    | none => (s.addUnknown env addr source nTimePenalty nNow).map fun s => (true, s)

def attempt (addr : CService) (nTime : Int) (s : CAddrMan) : Except Fault CAddrMan :=
  match s.find addr.ip with
  | none => .ok s
  | some (nId, info) =>
    if info.addr.service ≠ addr then .ok s
    else do
      let nAttempts ← checkedInt (info.nAttempts + 1)
      pure (s.setInfo nId fun info => { info with nLastTry := nTime, nAttempts })

def connected (addr : CService) (nTime : Int) (s : CAddrMan) : CAddrMan :=
  match s.find addr.ip with
  | none => s
  | some (nId, info) =>
    if info.addr.service ≠ addr then s
    else if nTime - info.addr.nTime > 20 * 60 then
      s.setInfo nId fun info => { info with addr.nTime := (nTime % 2 ^ 32).toNat }
    else s

/-- The random choices of a round of `Select_`: where the search begins, how it moves on, and whether the chance of the entry that
is found is enough. -/
structure SelectRound (ι : Type) where
  start : ι
  move : Nat → ι → ι
  enough : Bool

def kMaxRetries : Nat := 200000

/-- The search for an entry in a table; `none` when it is given up. -/
def findEntry {ι : Type} (table : ι → Int) (move : Nat → ι → ι) : (retries : Nat) → ι → Option Int
  | retries, slot =>
    if table slot ≠ -1 then some (table slot)
    else
      match retries with
      | 0 => none
      | retries + 1 => findEntry table move retries (move retries slot)

/-- The rounds of `Select_` in one table; `none` when the rounds have come to their end without a result. -/
def selectFrom {ι : Type} (table : ι → Int) (s : CAddrMan) : List (SelectRound ι) → Except Fault (Option CAddrInfo)
  | [] => .ok none
  | round :: rounds =>
    match findEntry table round.move (kMaxRetries + 1) round.start with
    | none => .ok (some {})
    | some nId =>
      match s.mapInfo.lookup nId with
      | none => .error (.assertion "mapInfo.count(nId) == 1")
      | some info => if round.enough then .ok (some info) else selectFrom table s rounds

def select (newOnly : Bool) (nRnd : Nat) (triedRounds : List (SelectRound TriedSlot))
    (newRounds : List (SelectRound NewSlot)) (s : CAddrMan) : Except Fault (Option CAddrInfo) :=
  if s.vRandom.length = 0 then .ok (some {})
  else if newOnly && s.nNew = 0 then .ok (some {})
  else if !newOnly && (s.nTried > 0 && (s.nNew = 0 || nRnd % 2 = 0)) then selectFrom s.vvTried s triedRounds
  else selectFrom s.vvNew s newRounds

/-- A round of `GetAddr_`; what has been gathered is enough when it has `nNodes` elements. -/
def getAddrRound (nNow : Int) (nNodes : Nat) (rnd : Nat → Nat) (p : CAddrMan × List CAddress) (n : Nat) :
    Except Fault (CAddrMan × List CAddress) :=
  if p.2.length ≥ nNodes then .ok p
  else do
    let s ← p.1.swapRandom n (rnd n % (p.1.vRandom.length - n) + n)
    match s.vRandom[n]? with
    | none => .error (.exception "vRandom out of range")
    | some nId =>
      match s.mapInfo.lookup nId with
      | none => .error (.assertion "mapInfo.count(vRandom[n]) == 1")
      | some ai => pure (s, if ai.isTerrible nNow then p.2 else p.2 ++ [ai.addr])

def getAddr (nNow : Int) (rnd : Nat → Nat) (s : CAddrMan) : Except Fault (CAddrMan × List CAddress) :=
  let nNodes := min (ADDRMAN_GETADDR_MAX_PCT * s.vRandom.length / 100) ADDRMAN_GETADDR_MAX
  (List.range s.vRandom.length).foldlM (getAddrRound nNow nNodes rnd) (s, [])

/-! ### The check -/

def ascending {β : Type} (m : KeyMap Int β) : List (Int × β) :=
  (m.entries.map fun e => (e.1, e.2)).mergeSort fun a b => a.1 ≤ b.1

variable (s : CAddrMan)

/-- What `Check_` looks at in a record. -/
def checkInfo (n : Int) (info : CAddrInfo) : Except Int Unit :=
  if info.fInTried && info.nLastSuccess = 0 then .error (-1)
  else if info.fInTried && info.nRefCount ≠ 0 then .error (-2)
  else if !info.fInTried && (info.nRefCount < 0 || info.nRefCount > ADDRMAN_NEW_BUCKETS_PER_ADDRESS) then .error (-3)
  else if !info.fInTried && info.nRefCount = 0 then .error (-4)
  else if (s.mapAddr.lookup info.ip).getD 0 ≠ n then .error (-5)
  else if info.nRandomPos < 0 || s.vRandom[info.nRandomPos.toNat]? ≠ some n then .error (-14)
  else if info.nLastTry < 0 then .error (-6)
  else if info.nLastSuccess < 0 then .error (-8)
  else .ok ()

def triedIds : List Int := ((ascending s.mapInfo).filter fun e => e.2.fInTried).map Prod.fst

def newCounts : KeyMap Int Int :=
  KeyMap.insertAll ∅ (((ascending s.mapInfo).filter fun e => !e.2.fInTried).map fun e => (e.1, e.2.nRefCount))

/-- The slots in the order of the loops. -/
def triedSlots : List TriedSlot := (List.finRange ADDRMAN_TRIED_BUCKET_COUNT).product (List.finRange ADDRMAN_BUCKET_SIZE)

def newSlots : List NewSlot := (List.finRange ADDRMAN_NEW_BUCKET_COUNT).product (List.finRange ADDRMAN_BUCKET_SIZE)

def entry {ι : Type} (table : ι → Int) (slot : ι) : Option Int := if table slot = -1 then none else some (table slot)

def checkTriedSlot (slot : TriedSlot) (nId : Int) : Except Int Unit :=
  if env.getTriedBucket s.nKey (s.info nId).addr.service ≠ slot.1 then .error (-17)
  else if env.getBucketPosition s.nKey false slot.1 (s.info nId).addr.service ≠ slot.2 then .error (-18)
  else .ok ()

def checkNewSlot (slot : NewSlot) (nId : Int) : Except Int Unit :=
  if env.getBucketPosition s.nKey true slot.1 (s.info nId).addr.service ≠ slot.2 then .error (-19) else .ok ()

/-- `--mapNew[nId]`, with the entry erased when it comes to 0. -/
def countDown (mapNew : KeyMap Int Int) (nId : Int) : KeyMap Int Int :=
  let n := (mapNew.lookup nId).getD 0 - 1
  mapNew.put nId (if n = 0 then none else some n)

def rejectCheck (condition : Bool) (code : Int) : Except Int Unit := if condition then .error code else .ok ()

def checkAll : Except Int Unit := do
  rejectCheck (s.vRandom.length ≠ s.nTried + s.nNew) (-7)
  (ascending s.mapInfo).forM fun e => s.checkInfo e.1 e.2
  rejectCheck (s.triedIds.length ≠ s.nTried) (-9)
  rejectCheck (s.newCounts.entries.length ≠ s.nNew) (-10)
  let setTried ← CheckOff.checkOff (fun l nId => nId ∈ l) List.erase (-11) (checkTriedSlot env s) (entry s.vvTried)
    triedSlots s.triedIds
  let mapNew ← CheckOff.checkOff (fun m nId => (m.lookup nId).isSome) countDown (-12) (checkNewSlot env s) (entry s.vvNew)
    newSlots s.newCounts
  rejectCheck (!setTried.isEmpty) (-13)
  rejectCheck (!mapNew.entries.isEmpty) (-15)
  rejectCheck (s.nKey = 0) (-16)

/-- `Check_`: 0, or the code of the first condition that fails. -/
def check : Int :=
  match s.checkAll env with
  | .ok _ => 0
  | .error code => code

end CAddrMan

end LitecoinZ
