import LitecoinZ.Net.NetBase
import LitecoinZ.Net.OrphanPool

/-!
# Blocks in flight

Which blocks were requested from which peer: `InitializeNode`, `FinalizeNode`, `MarkBlockAsReceived` and
`MarkBlockAsInFlight` of `main.cpp`, which keep the global map `mapBlocksInFlight`, a list with two counters for each
peer, and the number of peers that have a validated download.  Over every interleaving of the calls the map, the lists
and the counters agree (`Accounting`).
-/

namespace LitecoinZ

open StateExcept List

structure QueuedBlock where
  hash : Uint256
  pindex : Option Uint256
  fValidatedHeaders : Bool
  deriving DecidableEq, Repr

/-- What `UpdatePreferredDownload` reads of a connection. -/
structure CNode where
  fInbound : Bool
  fWhitelisted : Bool
  fOneShot : Bool
  fClient : Bool
  deriving DecidableEq, Repr

/-- A node of a `list<QueuedBlock>`.  An iterator is the address of its node, and stays valid until it is erased. -/
structure QueuedNode where
  address : Nat
  block : QueuedBlock
  deriving DecidableEq, Repr

structure CNodeState where
  address : CService := ⟨0, 0⟩
  fCurrentlyConnected : Bool := false
  nMisbehavior : Int := 0
  name : String := ""
  fSyncStarted : Bool := false
  nStallingSince : Int := 0
  vBlocksInFlight : List QueuedNode := []
  nDownloadingSince : Int := 0
  nBlocksInFlight : Int := 0
  nBlocksInFlightValidHeaders : Int := 0
  fPreferredDownload : Bool := false
  deriving DecidableEq, Repr

/-- The globals of `main.cpp` about the peers. -/
structure NetState where
  mapNodeState : KeyMap NodeId CNodeState := ∅
  mapBlocksInFlight : KeyMap Uint256 (NodeId × Nat) := ∅
  orphans : OrphanPool := {}
  nSyncStarted : Int := 0
  nPreferredDownload : Int := 0
  nPeersWithValidatedDownloads : Int := 0
  /-- The calls of `AddressCurrentlyConnected`. -/
  currentlyConnected : List CService := []
  /-- Where the next node of a list is allocated. -/
  nextAddress : Nat := 0

namespace NetState

def state (nodeid : NodeId) (s : NetState) : Except Fault CNodeState :=
  match s.mapNodeState.lookup nodeid with
  | none => .error (.exception "null pointer")
  | some state => .ok state

/-- Follow an iterator of a list. -/
def entry (v : List QueuedNode) (it : Nat) : Except Fault QueuedBlock :=
  match v.find? fun node => node.address = it with
  | none => .error (.exception "invalid iterator")
  | some node => .ok node.block

def updatePreferredDownload (node : CNode) (nodeid : NodeId) (s : NetState) : Except Fault NetState := do
  let state ← s.state nodeid
  let fPreferredDownload := (!node.fInbound || node.fWhitelisted) && !node.fOneShot && !node.fClient
  let n ← checkedInt (s.nPreferredDownload - state.fPreferredDownload.toInt)
  let n ← checkedInt (n + fPreferredDownload.toInt)
  pure { s with
    nPreferredDownload := n
    mapNodeState := s.mapNodeState.insert nodeid { state with fPreferredDownload } }

/-- What `SendMessages` does when it starts to fetch the headers from a peer. -/
def startSync (nodeid : NodeId) (s : NetState) : Except Fault NetState := do
  let state ← s.state nodeid
  if state.fSyncStarted then pure s
  else do
    let n ← checkedInt (s.nSyncStarted + 1)
    pure { s with
      nSyncStarted := n
      mapNodeState := s.mapNodeState.insert nodeid { state with fSyncStarted := true } }

def initializeNode (nodeid : NodeId) (name : String) (address : CService) (s : NetState) : NetState :=
  -- `insert` leaves the entry of a peer that is already there
  let state := (s.mapNodeState.lookup nodeid).getD {}
  { s with mapNodeState := s.mapNodeState.insert nodeid { state with name, address } }

def finalizeNode (env : Env) (nodeid : NodeId) (s : NetState) : Except Fault NetState := do
  let state ← s.state nodeid
  let nSyncStarted ← checkedInt (s.nSyncStarted - state.fSyncStarted.toInt)
  let nPreferredDownload ← checkedInt (s.nPreferredDownload - state.fPreferredDownload.toInt)
  let nPeers ← checkedInt (s.nPeersWithValidatedDownloads - (state.nBlocksInFlightValidHeaders != 0).toInt)
  reject (nPeers < 0) (.assertion "nPeersWithValidatedDownloads >= 0")
  pure { s with
    nSyncStarted
    currentlyConnected :=
      if state.nMisbehavior = 0 ∧ state.fCurrentlyConnected then s.currentlyConnected ++ [state.address]
      else s.currentlyConnected
    mapBlocksInFlight := s.mapBlocksInFlight.eraseAll (state.vBlocksInFlight.map fun node => node.block.hash)
    orphans := s.orphans.eraseOrphansFor env nodeid
    nPreferredDownload
    nPeersWithValidatedDownloads := nPeers
    mapNodeState := s.mapNodeState.erase nodeid }

/-- `MarkBlockAsReceived`, at the time `now`. -/
def markBlockAsReceived (now : Int) (hash : Uint256) (s : NetState) : Except Fault (Bool × NetState) :=
  match s.mapBlocksInFlight.lookup hash with
  | none => .ok (false, s)
  | some (nodeid, it) => do
    let state ← s.state nodeid
    let block ← entry state.vBlocksInFlight it
    let nValid ← checkedInt (state.nBlocksInFlightValidHeaders - block.fValidatedHeaders.toInt)
    let nPeers ← checkedInt (s.nPeersWithValidatedDownloads - (nValid == 0 && block.fValidatedHeaders).toInt)
    let n ← checkedInt (state.nBlocksInFlight - 1)
    pure (true, { s with
      nPeersWithValidatedDownloads := nPeers
      mapBlocksInFlight := s.mapBlocksInFlight.erase hash
      mapNodeState := s.mapNodeState.insert nodeid { state with
        nBlocksInFlightValidHeaders := nValid
        nDownloadingSince :=
          if (state.vBlocksInFlight.head?.map QueuedNode.address) = some it then max state.nDownloadingSince now
          else state.nDownloadingSince
        vBlocksInFlight := state.vBlocksInFlight.filter fun node => node.address ≠ it
        nBlocksInFlight := n
        nStallingSince := 0 } })

/-- `MarkBlockAsInFlight`, at the time `now`, after `MarkBlockAsReceived` at the time `received`. -/
def markBlockAsInFlight (received now : Int) (nodeid : NodeId) (hash : Uint256) (pindex : Option Uint256)
    (s : NetState) : Except Fault NetState := do
  reject (s.mapNodeState.lookup nodeid).isNone (.assertion "state != NULL")
  let (_, s) ← s.markBlockAsReceived received hash
  let state ← s.state nodeid
  let n ← checkedInt (state.nBlocksInFlight + 1)
  let nValid ← checkedInt (state.nBlocksInFlightValidHeaders + pindex.isSome.toInt)
  let nPeers ← checkedInt (s.nPeersWithValidatedDownloads + (nValid == 1 && pindex.isSome).toInt)
  pure { s with
    nPeersWithValidatedDownloads := nPeers
    mapBlocksInFlight := s.mapBlocksInFlight.insert hash (nodeid, s.nextAddress)
    nextAddress := s.nextAddress + 1
    mapNodeState := s.mapNodeState.insert nodeid { state with
      vBlocksInFlight := state.vBlocksInFlight ++ [⟨s.nextAddress, hash, pindex, pindex.isSome⟩]
      nBlocksInFlight := n
      nBlocksInFlightValidHeaders := nValid
      nDownloadingSince := if n = 1 then now else state.nDownloadingSince } }

def peersWith (p : CNodeState → Bool) (m : KeyMap NodeId CNodeState) : Int := m.count p

theorem toInt_eq_toNat (b : Bool) : b.toInt = b.toNat := by
  cases b <;> rfl

section Counting

variable {p : CNodeState → Bool} {m : KeyMap NodeId CNodeState} {nodeid : NodeId} {state : CNodeState}

theorem peersWith_insert_some (h : m.lookup nodeid = some state) (state' : CNodeState) :
    peersWith p (m.insert nodeid state') + (p state).toInt = peersWith p m + (p state').toInt := by
  have hins := KeyMap.count_insert_some p h state'
  rw [peersWith, peersWith, toInt_eq_toNat, toInt_eq_toNat]
  omega

theorem peersWith_insert_none (h : m.lookup nodeid = none) (state' : CNodeState) :
    peersWith p (m.insert nodeid state') = peersWith p m + (p state').toInt := by
  have hins := KeyMap.count_insert_none p h state'
  rw [peersWith, peersWith, toInt_eq_toNat]
  omega

theorem peersWith_erase (h : m.lookup nodeid = some state) :
    peersWith p (m.erase nodeid) + (p state).toInt = peersWith p m := by
  have herase := KeyMap.count_erase p h
  rw [peersWith, peersWith, toInt_eq_toNat]
  omega

theorem peersWith_nonneg : 0 ≤ peersWith p m := Int.natCast_nonneg _

theorem toInt_le_peersWith (h : m.lookup nodeid = some state) : (p state).toInt ≤ peersWith p m := by
  rw [← peersWith_erase h]
  exact Int.le_add_of_nonneg_left peersWith_nonneg

end Counting

/-! ### The lists and the map -/

def downloads (state : CNodeState) : Bool := state.nBlocksInFlightValidHeaders != 0

/-- A block is in a list, at an address. -/
def Queued (v : List QueuedNode) (hash : Uint256) (it : Nat) : Prop :=
  ∃ node ∈ v, node.address = it ∧ node.block.hash = hash

/-- The counters of a peer fit its list, whose nodes have been allocated at different addresses. -/
structure PeerFits (nextAddress : Nat) (state : CNodeState) : Prop where
  nodup : (state.vBlocksInFlight.map QueuedNode.address).Nodup
  allocated : ∀ node ∈ state.vBlocksInFlight, node.address < nextAddress
  blocks : state.nBlocksInFlight = state.vBlocksInFlight.length
  headers : state.nBlocksInFlightValidHeaders =
    (state.vBlocksInFlight.filter fun node => node.block.fValidatedHeaders).length
  range : state.nBlocksInFlight < 2 ^ 31

structure InFlight (s : NetState) : Prop where
  peer : ∀ {nodeid state}, s.mapNodeState.lookup nodeid = some state → PeerFits s.nextAddress state
  map : ∀ {hash nodeid it}, s.mapBlocksInFlight.lookup hash = some (nodeid, it) ↔
    ∃ state, s.mapNodeState.lookup nodeid = some state ∧ Queued state.vBlocksInFlight hash it
  syncs : s.nSyncStarted = peersWith CNodeState.fSyncStarted s.mapNodeState
  preferred : s.nPreferredDownload = peersWith CNodeState.fPreferredDownload s.mapNodeState
  downloads : s.nPeersWithValidatedDownloads = peersWith downloads s.mapNodeState
  syncsRange : s.nSyncStarted < 2 ^ 31
  preferredRange : s.nPreferredDownload < 2 ^ 31
  downloadsRange : s.nPeersWithValidatedDownloads < 2 ^ 31

theorem inFlight_empty : InFlight {} where
  peer h := by
    rw [KeyMap.lookup_empty] at h
    cases h
  map := by simp
  syncs := rfl
  preferred := rfl
  downloads := rfl
  syncsRange := by decide
  preferredRange := by decide
  downloadsRange := by decide

variable {s s' : NetState} {nodeid : NodeId} {state state' : CNodeState} {nextAddress : Nat} {node : QueuedNode}
  {hash : Uint256} {pindex : Option Uint256}

theorem PeerFits.unique (h : PeerFits nextAddress state) {node' : QueuedNode} (hn : node ∈ state.vBlocksInFlight)
    (hn' : node' ∈ state.vBlocksInFlight) (ha : node.address = node'.address) :
    node = node' :=
  inj_on_of_nodup_map h.nodup hn hn' ha

theorem PeerFits.headers_le (h : PeerFits nextAddress state) :
    0 ≤ state.nBlocksInFlightValidHeaders ∧ state.nBlocksInFlightValidHeaders ≤ state.nBlocksInFlight := by
  rw [h.headers, h.blocks]
  have := length_filter_le (fun node : QueuedNode => node.block.fValidatedHeaders) state.vBlocksInFlight
  omega

theorem state_eq_ok : s.state nodeid = .ok state ↔ s.mapNodeState.lookup nodeid = some state := by
  unfold NetState.state
  cases s.mapNodeState.lookup nodeid with
  | none => simp
  | some state0 => simp

theorem toInt_range (b : Bool) : 0 ≤ b.toInt ∧ b.toInt ≤ 1 := by
  cases b <;> decide

theorem erase_node {v : List QueuedNode} (hv : (v.map QueuedNode.address).Nodup) (hn : node ∈ v)
    (p : QueuedNode → Bool) :
    ((v.filter fun node' => node'.address ≠ node.address).filter p).length + (p node).toNat = (v.filter p).length := by
  obtain ⟨l1, l2, rfl⟩ := append_of_mem hn
  rw [map_append, map_cons, nodup_append, nodup_cons] at hv
  obtain ⟨-, ⟨h2, -⟩, h1⟩ := hv
  have hl1 : l1.filter (fun node' => node'.address ≠ node.address) = l1 :=
    filter_eq_self.2 fun a ha => decide_eq_true (h1 _ (mem_map_of_mem ha) _ mem_cons_self)
  have hl2 : l2.filter (fun node' => node'.address ≠ node.address) = l2 :=
    filter_eq_self.2 fun a ha => decide_eq_true fun he => h2 (he ▸ mem_map_of_mem ha)
  rw [filter_append, filter_cons_of_neg (by simp), hl1, hl2]
  cases hp : p node with
  | false => simp [hp]
  | true =>
    simp [hp]
    omega

theorem last_download {n : Int} {b : Bool} (h : b.toInt ≤ n) :
    (n - b.toInt == 0 && b).toInt + (n - b.toInt != 0).toInt = (n != 0).toInt := by
  cases b with
  | false => simp
  | true =>
    have hn : (n != 0) = true := by
      rw [bne_iff_ne]
      rintro rfl
      exact absurd h (by decide)
    rw [hn, bne]
    cases n - true.toInt == 0 <;> rfl

theorem first_download {n : Int} (h : 0 ≤ n) (b : Bool) :
    (n + b.toInt == 1 && b).toInt + (n != 0).toInt = (n + b.toInt != 0).toInt := by
  cases b with
  | false => simp
  | true =>
    have hn : (n + true.toInt != 0) = true := by
      rw [bne_iff_ne, Bool.toInt_true]
      omega
    rw [hn]
    by_cases h0 : n = 0
    · subst h0
      rfl
    · have h1 : (n + true.toInt == 1) = false := by
        rw [beq_eq_false_iff_ne, Bool.toInt_true]
        omega
      rw [h1, bne_iff_ne.2 h0]
      rfl

theorem PeerFits.entry (h : PeerFits nextAddress state) (hn : node ∈ state.vBlocksInFlight) :
    entry state.vBlocksInFlight node.address = .ok node.block := by
  unfold NetState.entry
  cases hf : state.vBlocksInFlight.find? fun node' => node'.address = node.address with
  | none =>
    have := find?_eq_none.1 hf node hn
    simp at this
  | some node' =>
    have ha : node'.address = node.address := by simpa using find?_some hf
    rw [h.unique (mem_of_find?_eq_some hf) hn ha]

/-- The number of peers with a validated download after one more block is requested from a peer. -/
def peersAfter (pindex : Option Uint256) (state : CNodeState) (s : NetState) : Int :=
  s.nPeersWithValidatedDownloads +
    (state.nBlocksInFlightValidHeaders + pindex.isSome.toInt == 1 && pindex.isSome).toInt

def requested (now : Int) (nodeid : NodeId) (hash : Uint256) (pindex : Option Uint256) (state : CNodeState)
    (s : NetState) : NetState :=
  { s with
    nPeersWithValidatedDownloads := s.peersAfter pindex state
    mapBlocksInFlight := s.mapBlocksInFlight.insert hash (nodeid, s.nextAddress)
    nextAddress := s.nextAddress + 1
    mapNodeState := s.mapNodeState.insert nodeid { state with
      vBlocksInFlight := state.vBlocksInFlight ++ [⟨s.nextAddress, hash, pindex, pindex.isSome⟩]
      nBlocksInFlight := state.nBlocksInFlight + 1
      nBlocksInFlightValidHeaders := state.nBlocksInFlightValidHeaders + pindex.isSome.toInt
      nDownloadingSince := if state.nBlocksInFlight + 1 = 1 then now else state.nDownloadingSince } }

section

variable (h : InFlight s) (hst : s.mapNodeState.lookup nodeid = some state)
include h hst

theorem InFlight.map_iff {nodeid' : NodeId} {it : Nat} :
    s.mapBlocksInFlight.lookup hash = some (nodeid', it) ↔
      nodeid' = nodeid ∧ Queued state.vBlocksInFlight hash it ∨
      nodeid' ≠ nodeid ∧ s.mapBlocksInFlight.lookup hash = some (nodeid', it) := by
  by_cases hn : nodeid' = nodeid
  · subst hn
    rw [h.map]
    simp [hst]
  · simp [hn]

theorem InFlight.replace (hnodes : s'.mapNodeState = s.mapNodeState.insert nodeid state')
    (hfits : PeerFits s'.nextAddress state') (hnext : s.nextAddress ≤ s'.nextAddress)
    (hmap : ∀ {hash nodeid' it}, s'.mapBlocksInFlight.lookup hash = some (nodeid', it) ↔ nodeid' = nodeid ∧ Queued state'.vBlocksInFlight hash it ∨ nodeid' ≠ nodeid ∧ s.mapBlocksInFlight.lookup hash = some (nodeid', it))
    (hsyncs : s'.nSyncStarted + state.fSyncStarted.toInt = s.nSyncStarted + state'.fSyncStarted.toInt)
    (hpreferred : s'.nPreferredDownload + state.fPreferredDownload.toInt = s.nPreferredDownload + state'.fPreferredDownload.toInt)
    (hdownloads : s'.nPeersWithValidatedDownloads + (NetState.downloads state).toInt = s.nPeersWithValidatedDownloads + (NetState.downloads state').toInt)
    (hrange : s'.nSyncStarted < 2 ^ 31 ∧ s'.nPreferredDownload < 2 ^ 31 ∧ s'.nPeersWithValidatedDownloads < 2 ^ 31) :
    InFlight s' := by
  have hcount : ∀ p : CNodeState → Bool,
      peersWith p s'.mapNodeState + (p state).toInt = peersWith p s.mapNodeState + (p state').toInt := by
    intro p
    rw [hnodes]
    exact peersWith_insert_some hst state'
  refine ⟨fun {nodeid'} {st} hl => ?_, fun {hash} {nodeid'} {it} => hmap.trans ?_, ?_, ?_, ?_, hrange.1, hrange.2.1,
    hrange.2.2⟩
  · rw [hnodes] at hl
    rcases KeyMap.lookup_insert_cases hl with ⟨-, rfl⟩ | ⟨-, hl⟩
    · exact hfits
    · have hp := h.peer hl
      exact ⟨hp.nodup, fun node hn => (hp.allocated node hn).trans_le hnext, hp.blocks, hp.headers, hp.range⟩
  · rw [hnodes]
    by_cases hn : nodeid' = nodeid
    · subst hn
      simp
    · simp only [hn, false_and, ne_eq, not_false_eq_true, true_and, false_or, AList.lookup_insert_ne hn]
      exact h.map
  · have := hcount CNodeState.fSyncStarted
    have := h.syncs
    omega
  · have := hcount CNodeState.fPreferredDownload
    have := h.preferred
    omega
  · have := hcount NetState.downloads
    have := h.downloads
    omega

/-! ### The calls -/

theorem InFlight.map_erase (hn : node ∈ state.vBlocksInFlight) {nodeid' : NodeId} {it : Nat} :
    (s.mapBlocksInFlight.erase node.block.hash).lookup hash = some (nodeid', it) ↔
      nodeid' = nodeid ∧ Queued (state.vBlocksInFlight.filter fun node' => node'.address ≠ node.address) hash it ∨
      nodeid' ≠ nodeid ∧ s.mapBlocksInFlight.lookup hash = some (nodeid', it) := by
  have hmapped : s.mapBlocksInFlight.lookup node.block.hash = some (nodeid, node.address) :=
    h.map.2 ⟨state, hst, node, hn, rfl, rfl⟩
  by_cases hh : hash = node.block.hash
  · subst hh
    rw [AList.lookup_erase, hmapped]
    refine ⟨fun hl => (by cases hl), ?_⟩
    rintro (⟨rfl, node', hn', rfl, hh⟩ | ⟨hne, hl⟩)
    · -- a second node with this hash would have the same entry of the map
      have hl : s.mapBlocksInFlight.lookup node.block.hash = some (nodeid', node'.address) :=
        h.map.2 ⟨state, hst, node', (mem_filter.1 hn').1, rfl, hh⟩
      rw [hmapped, Option.some.injEq, Prod.mk.injEq] at hl
      simp [hl.2] at hn'
    · cases hl
      exact absurd rfl hne
  · rw [AList.lookup_erase_ne hh]
    refine (h.map_iff hst).trans (or_congr_left (and_congr_right fun _ => ?_))
    refine exists_congr fun node' => ⟨fun ⟨hn', ha, hh'⟩ => ⟨?_, ha, hh'⟩, fun ⟨hn', ha, hh'⟩ =>
      ⟨(mem_filter.1 hn').1, ha, hh'⟩⟩
    refine mem_filter.2 ⟨hn', decide_eq_true fun he => hh ?_⟩
    rw [← hh', (h.peer hst).unique hn' hn he]

theorem InFlight.requested (hfree : s.mapBlocksInFlight.lookup hash = none) (pindex : Option Uint256) (now : Int)
    (hroom : state.nBlocksInFlight + 1 < 2 ^ 31) (hpeers : s.peersAfter pindex state < 2 ^ 31) :
    InFlight (s.requested now nodeid hash pindex state) := by
  have hp := h.peer hst
  have hfirst := first_download hp.headers_le.1 pindex.isSome
  refine h.replace hst rfl ⟨?_, ?_, ?_, ?_, hroom⟩ (Nat.le_succ _) ?_ rfl rfl ?_
    ⟨h.syncsRange, h.preferredRange, hpeers⟩
  · rw [map_append, nodup_append]
    refine ⟨hp.nodup, nodup_singleton _, fun a ha b hb => ?_⟩
    obtain ⟨node, hn, rfl⟩ := mem_map.1 ha
    rw [map_singleton, mem_singleton] at hb
    rw [hb]
    exact (hp.allocated node hn).ne
  · intro node hn
    rcases mem_append.1 hn with hn | hn
    · exact (hp.allocated node hn).trans (Nat.lt_succ_self _)
    · rw [mem_singleton.1 hn]
      exact Nat.lt_succ_self _
  · simp [hp.blocks]
  · dsimp only
    rw [filter_append, length_append, hp.headers]
    cases pindex.isSome <;> simp
  · intro hash' nodeid' it
    have hqueued : Queued (state.vBlocksInFlight ++ [⟨s.nextAddress, hash, pindex, pindex.isSome⟩]) hash' it ↔
        Queued state.vBlocksInFlight hash' it ∨ s.nextAddress = it ∧ hash = hash' := by
      simp [Queued, or_and_right, exists_or]
    dsimp only [NetState.requested]
    rw [hqueued]
    by_cases hh : hash' = hash
    · subst hh
      have hnot : ¬ Queued state.vBlocksInFlight hash' it := fun hq => by
        have hl := h.map.2 ⟨state, hst, hq⟩
        rw [hfree] at hl
        cases hl
      rw [AList.lookup_insert, hfree]
      simp [hnot, eq_comm]
    · rw [AList.lookup_insert_ne hh]
      refine (h.map_iff hst).trans ?_
      simp [Ne.symm hh]
  · dsimp only [NetState.downloads, NetState.requested, NetState.peersAfter] at hfirst ⊢
    omega

theorem InFlight.request_ok (hroom : state.nBlocksInFlight + 1 < 2 ^ 31)
    (hpeers : s.nPeersWithValidatedDownloads + 1 < 2 ^ 31) (pindex : Option Uint256) :
    checkedInt (state.nBlocksInFlight + 1) = .ok (state.nBlocksInFlight + 1) ∧
      checkedInt (state.nBlocksInFlightValidHeaders + pindex.isSome.toInt) =
        .ok (state.nBlocksInFlightValidHeaders + pindex.isSome.toInt) ∧
      checkedInt (s.peersAfter pindex state) = .ok (s.peersAfter pindex state) := by
  have := (h.peer hst).headers_le
  have := toInt_range pindex.isSome
  have := toInt_range (state.nBlocksInFlightValidHeaders + pindex.isSome.toInt == 1 && pindex.isSome)
  have hnn : 0 ≤ peersWith NetState.downloads s.mapNodeState := peersWith_nonneg
  have := h.downloads
  refine ⟨checkedInt_ok (by omega) (by omega), checkedInt_ok (by omega) (by omega), ?_⟩
  unfold NetState.peersAfter
  exact checkedInt_ok (by omega) (by omega)

end

theorem InFlight.updatePreferredDownload (h : InFlight s) {node : CNode}
    (hs : s.updatePreferredDownload node nodeid = .ok s') : InFlight s' := by
  obtain ⟨state, hst, hs⟩ := except_bind_ok.1 hs
  obtain ⟨n1, hn1, hs⟩ := except_bind_ok.1 hs
  obtain ⟨n2, hn2, hs⟩ := except_bind_ok.1 hs
  obtain ⟨-, rfl⟩ := checkedInt_eq_ok.1 hn1
  obtain ⟨hrange, rfl⟩ := checkedInt_eq_ok.1 hn2
  cases hs
  rw [state_eq_ok] at hst
  have hp := h.peer hst
  refine h.replace hst rfl ⟨hp.nodup, hp.allocated, hp.blocks, hp.headers, hp.range⟩ le_rfl (h.map_iff hst) rfl ?_ rfl
    ⟨h.syncsRange, hrange.2, h.downloadsRange⟩
  dsimp only
  omega

theorem InFlight.startSync (h : InFlight s) (hs : s.startSync nodeid = .ok s') : InFlight s' := by
  obtain ⟨state, hst, hs⟩ := except_bind_ok.1 hs
  rw [state_eq_ok] at hst
  by_cases hsync : state.fSyncStarted = true
  · rw [if_pos hsync] at hs
    cases hs
    exact h
  · rw [if_neg hsync] at hs
    obtain ⟨n, hn, hs⟩ := except_bind_ok.1 hs
    obtain ⟨hrange, rfl⟩ := checkedInt_eq_ok.1 hn
    cases hs
    have hp := h.peer hst
    refine h.replace hst rfl ⟨hp.nodup, hp.allocated, hp.blocks, hp.headers, hp.range⟩ le_rfl (h.map_iff hst) ?_ rfl rfl
      ⟨hrange.2, h.preferredRange, h.downloadsRange⟩
    rw [Bool.eq_false_iff.2 hsync]
    exact Int.add_zero _

theorem InFlight.initializeNode (h : InFlight s) (nodeid : NodeId) (name : String) (address : CService) :
    InFlight (s.initializeNode nodeid name address) := by
  unfold NetState.initializeNode
  cases hst : s.mapNodeState.lookup nodeid with
  | some state =>
    have hp := h.peer hst
    exact h.replace hst rfl ⟨hp.nodup, hp.allocated, hp.blocks, hp.headers, hp.range⟩ le_rfl (h.map_iff hst) rfl rfl rfl
      ⟨h.syncsRange, h.preferredRange, h.downloadsRange⟩
  | none =>
    -- the new peer has an empty list, and nothing points to it
    have hcount : ∀ p : CNodeState → Bool, p { name, address } = false →
        peersWith p s.mapNodeState = peersWith p (s.mapNodeState.insert nodeid { name, address }) := by
      intro p hp
      rw [peersWith_insert_none hst, hp]
      exact (Int.add_zero _).symm
    refine ⟨fun {nodeid'} {st} hl => ?_, fun {hash} {nodeid'} {it} => h.map.trans ?_, h.syncs.trans (hcount _ rfl),
      h.preferred.trans (hcount _ rfl), h.downloads.trans (hcount _ rfl), h.syncsRange, h.preferredRange,
      h.downloadsRange⟩
    · rcases KeyMap.lookup_insert_cases hl with ⟨-, rfl⟩ | ⟨-, hl⟩
      · exact ⟨nodup_nil, by simp, rfl, rfl, show (0 : Int) < 2 ^ 31 by decide⟩
      · exact h.peer hl
    · by_cases hn : nodeid' = nodeid
      · subst hn
        simp [hst, Queued]
      · simp only [AList.lookup_insert_ne hn]

theorem InFlight.finalizeNode (h : InFlight s) (env : Env) (hst : s.mapNodeState.lookup nodeid = some state) :
    ∃ s', s.finalizeNode env nodeid = .ok s' ∧ InFlight s' ∧ s'.mapNodeState = s.mapNodeState.erase nodeid := by
  have hsyncs := peersWith_erase (p := CNodeState.fSyncStarted) hst
  have hpreferred := peersWith_erase (p := CNodeState.fPreferredDownload) hst
  have hdownloads : peersWith NetState.downloads (s.mapNodeState.erase nodeid) +
      (state.nBlocksInFlightValidHeaders != 0).toInt = peersWith NetState.downloads s.mapNodeState := peersWith_erase hst
  have hnn : ∀ p : CNodeState → Bool, 0 ≤ peersWith p (s.mapNodeState.erase nodeid) := fun p => peersWith_nonneg
  have hs1 := hnn CNodeState.fSyncStarted
  have hs2 := hnn CNodeState.fPreferredDownload
  have hs3 := hnn NetState.downloads
  have hb1 := toInt_range state.fSyncStarted
  have hb2 := toInt_range state.fPreferredDownload
  have hb3 := toInt_range (state.nBlocksInFlightValidHeaders != 0)
  have := h.syncs
  have := h.syncsRange
  have := h.preferred
  have := h.preferredRange
  have := h.downloads
  have := h.downloadsRange
  refine ⟨_, except_bind_ok.2 ⟨state, state_eq_ok.2 hst, except_bind_ok.2 ⟨_, checkedInt_ok (by omega) (by omega),
    except_bind_ok.2 ⟨_, checkedInt_ok (by omega) (by omega), except_bind_ok.2 ⟨_, checkedInt_ok (by omega) (by omega),
    except_bind_ok.2 ⟨(), reject_ok.2 (by rw [decide_eq_false_iff_not]; omega), rfl⟩⟩⟩⟩⟩, ?_, rfl⟩
  refine ⟨fun {nodeid'} {st} hl => ?_, fun {hash} {nodeid'} {it} => ?_, ?_, ?_, ?_, ?_, ?_, ?_⟩
  · by_cases hn : nodeid' = nodeid
    · rw [hn, AList.lookup_erase] at hl
      cases hl
    · rw [AList.lookup_erase_ne hn] at hl
      exact h.peer hl
  · rw [KeyMap.lookup_eraseAll]
    by_cases hn : nodeid' = nodeid
    · -- every entry that points to the peer is the entry of a hash of its list
      subst hn
      rw [AList.lookup_erase]
      refine ⟨fun hl => ?_, fun ⟨_, hl, _⟩ => by cases hl⟩
      split at hl
      · cases hl
      · rename_i hout
        rcases (h.map_iff hst).1 hl with ⟨-, node, hnode, -, rfl⟩ | ⟨hne, -⟩
        · exact absurd (mem_map.2 ⟨node, hnode, rfl⟩) hout
        · exact absurd rfl hne
    · rw [AList.lookup_erase_ne hn, ← h.map]
      refine ⟨fun hl => ?_, fun hl => ?_⟩
      · split at hl
        · cases hl
        · exact hl
      · rw [if_neg, hl]
        intro hin
        obtain ⟨node, hnode, rfl⟩ := mem_map.1 hin
        have hmapped : s.mapBlocksInFlight.lookup node.block.hash = some (nodeid, node.address) :=
          h.map.2 ⟨state, hst, node, hnode, rfl, rfl⟩
        rw [hmapped] at hl
        cases hl
        exact hn rfl
  all_goals
    dsimp only
    omega

/-- A block that is in flight is received: it leaves the map and the list of the peer it was requested from. -/
theorem InFlight.markBlockAsReceived (h : InFlight s) (now : Int) (hash : Uint256) :
    ∃ b s', s.markBlockAsReceived now hash = .ok (b, s') ∧ InFlight s' ∧ s'.mapBlocksInFlight.lookup hash = none ∧
      s'.nPeersWithValidatedDownloads ≤ s.nPeersWithValidatedDownloads ∧
      ∀ {nodeid state}, s.mapNodeState.lookup nodeid = some state →
        ∃ state', s'.mapNodeState.lookup nodeid = some state' ∧ state'.nBlocksInFlight ≤ state.nBlocksInFlight := by
  unfold NetState.markBlockAsReceived
  cases hin : s.mapBlocksInFlight.lookup hash with
  | none => exact ⟨false, s, rfl, h, hin, le_rfl, fun hl => ⟨_, hl, le_rfl⟩⟩
  | some found =>
    obtain ⟨nodeid, it⟩ := found
    obtain ⟨state, hst, node, hnode, rfl, rfl⟩ := h.map.1 hin
    have hp := h.peer hst
    have hbs := erase_node hp.nodup hnode fun _ => true
    have hheaders := erase_node hp.nodup hnode fun node => node.block.fValidatedHeaders
    rw [filter_true, filter_true] at hbs
    have := hp.blocks
    have := hp.headers
    have := hp.headers_le
    have := hp.range
    have := h.downloadsRange
    have := toInt_range node.block.fValidatedHeaders
    have hd := toInt_le_peersWith (p := NetState.downloads) hst
    rw [← h.downloads] at hd
    have hvalid := toInt_eq_toNat node.block.fValidatedHeaders
    have hlast : _ + _ = (NetState.downloads state).toInt :=
      last_download (n := state.nBlocksInFlightValidHeaders) (b := node.block.fValidatedHeaders) (by omega)
    have hpos := toInt_range
      (state.nBlocksInFlightValidHeaders - node.block.fValidatedHeaders.toInt == 0 && node.block.fValidatedHeaders)
    have hpos' := toInt_range (state.nBlocksInFlightValidHeaders - node.block.fValidatedHeaders.toInt != 0)
    have hone : true.toNat = 1 := rfl
    refine ⟨true, _, except_bind_ok.2 ⟨state, state_eq_ok.2 hst, except_bind_ok.2 ⟨_, hp.entry hnode,
      except_bind_ok.2 ⟨_, checkedInt_ok (by omega) (by omega), except_bind_ok.2 ⟨_, checkedInt_ok (by omega) (by omega),
      except_bind_ok.2 ⟨_, checkedInt_ok (by omega) (by omega), rfl⟩⟩⟩⟩⟩, ?_, AList.lookup_erase _ _, ?_, ?_⟩
    · refine h.replace hst rfl ⟨?_, ?_, ?_, ?_, ?_⟩ le_rfl ?_ rfl rfl ?_ ⟨h.syncsRange, h.preferredRange, ?_⟩
      · exact hp.nodup.sublist (filter_sublist.map _)
      · exact fun node' hn => hp.allocated node' (mem_of_mem_filter hn)
      · dsimp only
        omega
      · dsimp only
        omega
      · dsimp only
        omega
      · exact h.map_erase hst hnode
      · dsimp only [NetState.downloads] at hlast ⊢
        omega
      · dsimp only
        omega
    · dsimp only
      omega
    · intro nodeid' state' hl
      by_cases hn : nodeid' = nodeid
      · subst hn
        cases hst.symm.trans hl
        refine ⟨_, AList.lookup_insert _, ?_⟩
        dsimp only
        omega
      · exact ⟨state', (AList.lookup_insert_ne hn).trans hl, le_rfl⟩

theorem markBlockAsInFlight_ok {s1 : NetState} {received now : Int} {b : Bool}
    (hknown : (s.mapNodeState.lookup nodeid).isSome) (hrec : s.markBlockAsReceived received hash = .ok (b, s1)) :
    s.markBlockAsInFlight received now nodeid hash pindex = .ok s' ↔
      ∃ state, s1.mapNodeState.lookup nodeid = some state ∧
        checkedInt (state.nBlocksInFlight + 1) = .ok (state.nBlocksInFlight + 1) ∧
        checkedInt (state.nBlocksInFlightValidHeaders + pindex.isSome.toInt) =
          .ok (state.nBlocksInFlightValidHeaders + pindex.isSome.toInt) ∧
        checkedInt (s1.peersAfter pindex state) = .ok (s1.peersAfter pindex state) ∧
        s' = s1.requested now nodeid hash pindex state := by
  have hrej : reject (s.mapNodeState.lookup nodeid).isNone (.assertion "state != NULL") = .ok () := by
    rw [reject_ok, Option.isNone_eq_false_iff]
    exact hknown
  constructor
  · intro hs
    obtain ⟨⟨⟩, -, hs⟩ := except_bind_ok.1 hs
    obtain ⟨r, hr, hs⟩ := except_bind_ok.1 hs
    cases hrec.symm.trans hr
    obtain ⟨state, hst, hs⟩ := except_bind_ok.1 hs
    obtain ⟨n, hn, hs⟩ := except_bind_ok.1 hs
    obtain ⟨-, rfl⟩ := checkedInt_eq_ok.1 hn
    obtain ⟨nValid, hnValid, hs⟩ := except_bind_ok.1 hs
    obtain ⟨-, rfl⟩ := checkedInt_eq_ok.1 hnValid
    obtain ⟨nPeers, hnp, hs⟩ := except_bind_ok.1 hs
    obtain ⟨-, rfl⟩ := checkedInt_eq_ok.1 hnp
    exact ⟨state, state_eq_ok.1 hst, hn, hnValid, hnp, (Except.ok.inj hs).symm⟩
  · rintro ⟨state, hst, hn, hnValid, hnp, rfl⟩
    exact except_bind_ok.2 ⟨(), hrej, except_bind_ok.2 ⟨_, hrec, except_bind_ok.2 ⟨_, state_eq_ok.2 hst,
      except_bind_ok.2 ⟨_, hn, except_bind_ok.2 ⟨_, hnValid, except_bind_ok.2 ⟨_, hnp, rfl⟩⟩⟩⟩⟩⟩

theorem InFlight.markBlockAsInFlight (h : InFlight s) {received now : Int}
    (hs : s.markBlockAsInFlight received now nodeid hash pindex = .ok s') : InFlight s' := by
  obtain ⟨⟨⟩, hknown, -⟩ := except_bind_ok.1 hs
  rw [reject_ok, Option.isNone_eq_false_iff] at hknown
  obtain ⟨b, s1, hrec, h1, hfree, -⟩ := h.markBlockAsReceived received hash
  obtain ⟨state, hst, hn, -, hnp, rfl⟩ := (markBlockAsInFlight_ok hknown hrec).1 hs
  exact h1.requested hst hfree pindex now (checkedInt_eq_ok.1 hn).1.2 (checkedInt_eq_ok.1 hnp).1.2

/-! ### Runs -/

inductive PeerCall where
  | initializeNode (nodeid : NodeId) (name : String) (address : CService)
  | finalizeNode (nodeid : NodeId)
  | markBlockAsReceived (now : Int) (hash : Uint256)
  | markBlockAsInFlight (received now : Int) (nodeid : NodeId) (hash : Uint256) (pindex : Option Uint256)
  | updatePreferredDownload (node : CNode) (nodeid : NodeId)
  | startSync (nodeid : NodeId)

def step (env : Env) (call : PeerCall) (s : NetState) : Except Fault NetState :=
  match call with
  | .initializeNode nodeid name address => .ok (s.initializeNode nodeid name address)
  | .finalizeNode nodeid => s.finalizeNode env nodeid
  | .markBlockAsReceived now hash => do
    let (_, s) ← s.markBlockAsReceived now hash
    pure s
  | .markBlockAsInFlight received now nodeid hash pindex => s.markBlockAsInFlight received now nodeid hash pindex
  | .updatePreferredDownload node nodeid => s.updatePreferredDownload node nodeid
  | .startSync nodeid => s.startSync nodeid

def run (env : Env) : List PeerCall → NetState → Except Fault NetState
  | [], s => .ok s
  | call :: calls, s => s.step env call >>= run env calls

/-- The peer of the call is known, and no counter stands at the largest `int`. -/
def Permitted (s : NetState) : PeerCall → Prop
  | .initializeNode _ _ _ => True
  | .finalizeNode nodeid => (s.mapNodeState.lookup nodeid).isSome
  | .markBlockAsReceived _ _ => True
  | .markBlockAsInFlight _ _ nodeid _ _ =>
    ∃ state, s.mapNodeState.lookup nodeid = some state ∧ state.nBlocksInFlight + 1 < 2 ^ 31 ∧
      s.nPeersWithValidatedDownloads + 1 < 2 ^ 31
  | .updatePreferredDownload _ nodeid => (s.mapNodeState.lookup nodeid).isSome ∧ s.nPreferredDownload + 1 < 2 ^ 31
  | .startSync nodeid => (s.mapNodeState.lookup nodeid).isSome ∧ s.nSyncStarted + 1 < 2 ^ 31

theorem InFlight.step (h : InFlight s) {env : Env} {call : PeerCall} (hs : s.step env call = .ok s') : InFlight s' := by
  cases call with
  | initializeNode nodeid name address =>
    cases hs
    exact h.initializeNode nodeid name address
  | finalizeNode nodeid =>
    obtain ⟨state, hst, -⟩ := except_bind_ok.1 hs
    obtain ⟨s1, hs1, h1, -⟩ := h.finalizeNode env (state_eq_ok.1 hst)
    cases hs1.symm.trans hs
    exact h1
  | markBlockAsReceived now hash =>
    obtain ⟨b, s1, hs1, h1, -⟩ := h.markBlockAsReceived now hash
    obtain ⟨r, hr, hs⟩ := except_bind_ok.1 hs
    cases hs1.symm.trans hr
    cases hs
    exact h1
  | markBlockAsInFlight received now nodeid hash pindex => exact h.markBlockAsInFlight hs
  | updatePreferredDownload node nodeid => exact h.updatePreferredDownload hs
  | startSync nodeid => exact h.startSync hs

theorem InFlight.step_ok (h : InFlight s) (env : Env) {call : PeerCall} (hc : s.Permitted call) :
    ∃ s', s.step env call = .ok s' := by
  cases call with
  | initializeNode nodeid name address => exact ⟨_, rfl⟩
  | finalizeNode nodeid =>
    obtain ⟨state, hst⟩ := Option.isSome_iff_exists.1 hc
    obtain ⟨s', hs', -⟩ := h.finalizeNode env hst
    exact ⟨s', hs'⟩
  | markBlockAsReceived now hash =>
    obtain ⟨b, s', hs', -⟩ := h.markBlockAsReceived now hash
    exact ⟨s', except_bind_ok.2 ⟨_, hs', rfl⟩⟩
  | markBlockAsInFlight received now nodeid hash pindex =>
    obtain ⟨state, hst, hroom, hpeers⟩ := hc
    obtain ⟨b, s1, hrec, h1, -, hle, hkept⟩ := h.markBlockAsReceived received hash
    obtain ⟨state1, hst1, hle1⟩ := hkept hst
    obtain ⟨hn, hnValid, hnp⟩ := h1.request_ok hst1 (by omega) (by omega) pindex
    exact ⟨_, (markBlockAsInFlight_ok (by rw [hst]; rfl) hrec).2 ⟨state1, hst1, hn, hnValid, hnp, rfl⟩⟩
  | updatePreferredDownload node nodeid =>
    obtain ⟨hknown, hroom⟩ := hc
    obtain ⟨state, hst⟩ := Option.isSome_iff_exists.1 hknown
    have := toInt_le_peersWith (p := CNodeState.fPreferredDownload) hst
    have := h.preferred
    have := toInt_range state.fPreferredDownload
    have := toInt_range ((!node.fInbound || node.fWhitelisted) && !node.fOneShot && !node.fClient)
    exact ⟨_, except_bind_ok.2 ⟨_, state_eq_ok.2 hst, except_bind_ok.2 ⟨_, checkedInt_ok (by omega) (by omega),
      except_bind_ok.2 ⟨_, checkedInt_ok (by omega) (by omega), rfl⟩⟩⟩⟩
  | startSync nodeid =>
    obtain ⟨hknown, hroom⟩ := hc
    obtain ⟨state, hst⟩ := Option.isSome_iff_exists.1 hknown
    have hnn : 0 ≤ peersWith CNodeState.fSyncStarted s.mapNodeState := peersWith_nonneg
    have := h.syncs
    by_cases hsync : state.fSyncStarted = true
    · exact ⟨s, except_bind_ok.2 ⟨_, state_eq_ok.2 hst, if_pos hsync⟩⟩
    · exact ⟨_, except_bind_ok.2 ⟨_, state_eq_ok.2 hst, (if_neg hsync).trans
        (except_bind_ok.2 ⟨_, checkedInt_ok (by omega) (by omega), rfl⟩)⟩⟩

theorem InFlight.run (h : InFlight s) {env : Env} {calls : List PeerCall} (hs : s.run env calls = .ok s') :
    InFlight s' := by
  induction calls generalizing s with
  | nil =>
    cases hs
    exact h
  | cons call calls ih =>
    obtain ⟨s1, hs1, hs⟩ := except_bind_ok.1 hs
    exact ih (h.step hs1) hs

def hashesInFlight (state : CNodeState) : List Uint256 := state.vBlocksInFlight.map fun node => node.block.hash

/-- The map, the lists and the counters agree. -/
structure Accounting (s : NetState) : Prop where
  listed : ∀ hash nodeid, (∃ it, s.mapBlocksInFlight.lookup hash = some (nodeid, it)) ↔
    ∃ state, s.mapNodeState.lookup nodeid = some state ∧ (hashesInFlight state).count hash = 1
  once : ∀ nodeid state, s.mapNodeState.lookup nodeid = some state → (hashesInFlight state).Nodup
  blocks : ∀ nodeid state, s.mapNodeState.lookup nodeid = some state →
    state.nBlocksInFlight = state.vBlocksInFlight.length
  headers : ∀ nodeid state, s.mapNodeState.lookup nodeid = some state →
    state.nBlocksInFlightValidHeaders = (state.vBlocksInFlight.filter fun node => node.block.fValidatedHeaders).length
  downloads : s.nPeersWithValidatedDownloads =
    (s.mapNodeState.entries.filter fun e => e.2.nBlocksInFlightValidHeaders != 0).length

theorem InFlight.accounting (h : InFlight s) : Accounting s := by
  have honce : ∀ nodeid state, s.mapNodeState.lookup nodeid = some state → (hashesInFlight state).Nodup := by
    intro nodeid state hst
    refine Nodup.map_on (fun node hn node' hn' hh => ?_) (Nodup.of_map _ (h.peer hst).nodup)
    have hl := h.map.2 ⟨state, hst, node, hn, rfl, hh⟩
    have hl' := h.map.2 ⟨state, hst, node', hn', rfl, rfl⟩
    rw [hl, Option.some.injEq, Prod.mk.injEq] at hl'
    exact (h.peer hst).unique hn hn' hl'.2
  refine ⟨fun hash nodeid => ?_, honce, fun _ _ hst => (h.peer hst).blocks, fun _ _ hst => (h.peer hst).headers,
    h.downloads⟩
  constructor
  · rintro ⟨it, hl⟩
    obtain ⟨state, hst, node, hn, -, rfl⟩ := h.map.1 hl
    exact ⟨state, hst, count_eq_one_of_mem (honce _ _ hst) (mem_map.2 ⟨node, hn, rfl⟩)⟩
  · rintro ⟨state, hst, hcount⟩
    have hmem : hash ∈ hashesInFlight state := count_pos_iff.1 (by omega)
    obtain ⟨node, hn, rfl⟩ := mem_map.1 hmem
    exact ⟨node.address, h.map.2 ⟨state, hst, node, hn, rfl, rfl⟩⟩

/-- Over every interleaving of the calls the map, the lists and the counters agree, no peer leaves a validated download
behind, and no call fails for a known peer while the counters are below the largest `int`. -/
theorem blocksInFlight_accounting {env : Env} {calls : List PeerCall} (hs : run env calls {} = .ok s) :
    Accounting s ∧ (s.mapNodeState = ∅ → s.nPeersWithValidatedDownloads = 0) ∧
      ∀ call, s.Permitted call → ∃ s', s.step env call = .ok s' := by
  have h := inFlight_empty.run hs
  refine ⟨h.accounting, fun hempty => ?_, fun call hc => h.step_ok env hc⟩
  rw [h.downloads, hempty]
  rfl

/-- A block is requested again from a second peer, and the first one leaves. -/
def refetch : List PeerCall :=
  [.initializeNode 1 "" ⟨0, 0⟩, .initializeNode 2 "" ⟨0, 0⟩, .markBlockAsInFlight 0 0 1 7 (some 7),
    .markBlockAsInFlight 0 0 2 7 none, .finalizeNode 1]

theorem blocksInFlight_accounting_refetch : ∃ s, run plainEnv refetch {} = .ok s ∧ Accounting s := by
  have hok : (run plainEnv refetch {}).isOk = true := by decide
  cases h : run plainEnv refetch {} with
  | error e =>
    rw [h] at hok
    cases hok
  | ok s => exact ⟨s, rfl, (blocksInFlight_accounting h).1⟩

def manyRequests (n : Nat) : List PeerCall :=
  .initializeNode 0 "" ⟨0, 0⟩ :: (List.range n).map fun i => .markBlockAsInFlight 0 0 0 (BitVec.ofNat 256 i) none

theorem run_append (env : Env) (calls calls' : List PeerCall) (s : NetState) :
    s.run env (calls ++ calls') = s.run env calls >>= run env calls' := by
  induction calls generalizing s with
  | nil => rfl
  | cons call calls ih =>
    rw [cons_append, run, run]
    cases s.step env call with
    | error e => rfl
    | ok s1 => exact ih s1

theorem manyRequests_succ (n : Nat) :
    manyRequests (n + 1) = manyRequests n ++ [.markBlockAsInFlight 0 0 0 (BitVec.ofNat 256 n) none] := by
  rw [manyRequests, range_succ, map_append]
  rfl

theorem run_manyRequests {n : Nat} (hn : n < 2 ^ 31) :
    ∃ s state, run plainEnv (manyRequests n) {} = .ok s ∧ s.mapNodeState.lookup 0 = some state ∧
      state.nBlocksInFlight = n ∧ s.nPeersWithValidatedDownloads = 0 ∧
      ∀ hash, n ≤ hash.toNat → s.mapBlocksInFlight.lookup hash = none := by
  induction n with
  | zero => exact ⟨_, _, rfl, rfl, rfl, rfl, fun hash _ => KeyMap.lookup_empty hash⟩
  | succ n ih =>
    obtain ⟨s, state, hrun, hst, hbs, hpeers, hfree⟩ := ih (by omega)
    have htoNat : (BitVec.ofNat 256 n).toNat = n := by
      rw [BitVec.toNat_ofNat, Nat.mod_eq_of_lt (by omega)]
    have hrec : s.markBlockAsReceived 0 (BitVec.ofNat 256 n) = .ok (false, s) := by
      rw [NetState.markBlockAsReceived, hfree _ htoNat.ge]
    obtain ⟨hn, hnValid, hnp⟩ := (inFlight_empty.run hrun).request_ok hst (by omega) (by omega) none
    have hstep : s.markBlockAsInFlight 0 0 0 (BitVec.ofNat 256 n) none =
        .ok (s.requested 0 0 (BitVec.ofNat 256 n) none state) :=
      (markBlockAsInFlight_ok (by rw [hst]; rfl) hrec).2 ⟨state, hst, hn, hnValid, hnp, rfl⟩
    refine ⟨s.requested 0 0 (BitVec.ofNat 256 n) none state, _, ?_, AList.lookup_insert _, ?_, ?_, fun hash hle => ?_⟩
    · rw [manyRequests_succ, run_append]
      exact except_bind_ok.2 ⟨s, hrun, except_bind_ok.2 ⟨_, hstep, rfl⟩⟩
    · dsimp only
      omega
    · simp [requested, peersAfter, hpeers]
    · have hne : hash ≠ BitVec.ofNat 256 n := fun h => by
        rw [h, htoNat] at hle
        omega
      exact (AList.lookup_insert_ne hne).trans (hfree hash (by omega))

/-- The counter of a peer cannot go beyond the largest `int`, though its list can. -/
theorem markBlockAsInFlight_overflow : run plainEnv (manyRequests (2 ^ 31)) {} = .error .overflow := by
  obtain ⟨s, state, hrun, hst, hbs, -, hfree⟩ := run_manyRequests (n := 2 ^ 31 - 1) (by decide)
  have htoNat : (BitVec.ofNat 256 (2 ^ 31 - 1)).toNat = 2 ^ 31 - 1 := rfl
  have hrec : s.markBlockAsReceived 0 (BitVec.ofNat 256 (2 ^ 31 - 1)) = .ok (false, s) := by
    rw [NetState.markBlockAsReceived, hfree _ htoNat.ge]
  have hstate : s.state 0 = .ok state := state_eq_ok.2 hst
  have hover : checkedInt (state.nBlocksInFlight + 1) = .error .overflow := by
    rw [hbs]
    rfl
  have hstep : s.markBlockAsInFlight 0 0 0 (BitVec.ofNat 256 (2 ^ 31 - 1)) none = .error .overflow := by
    rw [NetState.markBlockAsInFlight, hst, hrec]
    simp only [Option.isNone_some, reject, Bool.false_eq_true, if_false, bind, Except.bind, hstate, hover]
  rw [show 2 ^ 31 = 2 ^ 31 - 1 + 1 from rfl, manyRequests_succ, run_append, hrun]
  simp only [bind, Except.bind, run, NetState.step, hstep]

end NetState

end LitecoinZ
