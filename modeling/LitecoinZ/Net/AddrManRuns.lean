import LitecoinZ.Net.AddrManSteps

/-!
# Runs of the address manager

The operations of the address manager one after the other.  From the empty address manager no assertion fails, and `Check_`
finds nothing (`run_consistent`), as long as the key is not null, no attempt has a negative time and the counters do not
overflow.
-/

namespace LitecoinZ

open Table List

namespace CAddrMan

variable {env : AddrManEnv} {s s' : CAddrMan} {a k id : Int} {info : CAddrInfo}

/-! ### Between the operations -/

/-- What holds between the operations. -/
structure Steady (env : AddrManEnv) (a : Int) (s : CAddrMan) : Prop where
  sound : Sound env a (fun _ => False) 0 s
  shuffled : Shuffled s

theorem Steady.mono (h : Steady env a s) {a' : Int} (ha : a ≤ a') : Steady env a' s := by
  obtain ⟨h, hs⟩ := h
  refine ⟨{ h with timed := fun id info hid => ?_ }, hs⟩
  obtain ⟨h1, h2, h3, h4⟩ := h.timed id info hid
  exact ⟨h1, h2, h3, h4.1, h4.2.trans ha⟩

theorem steady_empty (env : AddrManEnv) (nKey : Uint256) : Steady env 0 { nKey } := by
  have hzero : (0 : Int) < 2 ^ 31 := by decide
  have hnone : ∀ (id : Int) (info : CAddrInfo), (∅ : KeyMap Int CAddrInfo).lookup id ≠ some info := by simp
  have hsound : Sound env 0 (fun _ => False) 0 { nKey } := by
    constructor
    case tried_mem => exact fun slot h => absurd rfl h
    case new_mem => exact fun slot h => absurd rfl h
    case id_of_addr => exact fun ip id h => by simp at h
    case countTried => rfl
    case countNew => rfl
    all_goals exact fun id info h => absurd h (hnone id info)
  exact ⟨hsound, fun id info h => absurd h (hnone id info), fun n id h => by simp at h, rfl, le_refl 0, hzero⟩

/-- The record of an id changes in what neither the tables nor the random order depend on. -/
theorem Steady.setInfo (h : Steady env a s) (hid : s.mapInfo.lookup id = some info) (f : CAddrInfo → CAddrInfo)
    (hserv : (f info).addr.service = info.addr.service) (htried : (f info).fInTried = info.fInTried)
    (hrefs : (f info).nRefCount = info.nRefCount) (hpos : (f info).nRandomPos = info.nRandomPos) (htimed : Timed a (f info)) :
    Steady env a (s.setInfo id f) := by
  unfold CAddrMan.setInfo
  rw [info_of_lookup hid]
  exact ⟨h.sound.replace hid _ hserv htried hrefs htimed, h.shuffled.replace hid _ hpos⟩

private theorem find_eq_some {ip : CNetAddr} (h : s.find ip = some (id, info)) : s.mapInfo.lookup id = some info := by
  unfold find at h
  split at h
  · cases h
  · obtain ⟨info', hinfo', heq⟩ := Option.map_eq_some_iff.1 h
    obtain ⟨rfl, rfl⟩ := Prod.mk.inj heq
    exact hinfo'

private theorem find_eq_none (h : Steady env a s) {ip : CNetAddr} (hfind : s.find ip = none) : s.mapAddr.lookup ip = none := by
  cases haddr : s.mapAddr.lookup ip with
  | none => rfl
  | some id =>
    obtain ⟨info, hinfo, -⟩ := h.sound.id_of_addr ip id haddr
    rw [find, haddr] at hfind
    dsimp only at hfind
    rw [hinfo] at hfind
    cases hfind

private theorem lookup_setInfo (hid : s.mapInfo.lookup id = some info) (f : CAddrInfo → CAddrInfo) :
    (s.setInfo id f).mapInfo.lookup id = some (f info) := by
  rw [setInfo, info_of_lookup hid]
  exact AList.lookup_insert _

/-! ### The operations -/

theorem good_spec (h : Steady env a s) (addr : CService) {nTime : Int} (htime : 0 < nTime) (nRnd : Nat) :
    ∃ s', s.good env addr nTime nRnd = .ok s' ∧ Steady env a s' ∧ s'.nIdCount = s.nIdCount ∧ s'.nKey = s.nKey := by
  unfold good
  cases hfind : s.find addr.ip with
  | none => exact ⟨s, rfl, h, rfl, rfl⟩
  | some p =>
    obtain ⟨id, info⟩ := p
    have hid := find_eq_some hfind
    dsimp only
    split
    · exact ⟨s, rfl, h, rfl, rfl⟩
    have hatt := (h.sound.timed id info hid).attempts
    have hset := h.setInfo hid (fun info => { info with nLastSuccess := nTime, nLastTry := nTime, nAttempts := 0 }) rfl rfl rfl
      rfl ⟨htime.le, htime.le, fun _ => htime.ne', le_refl 0, hatt.1.trans hatt.2⟩
    split
    · exact ⟨_, rfl, hset, rfl, rfl⟩
    · rename_i hnew
      split
      · obtain ⟨s', hrun, h', hs', hcount, hkey⟩ := makeTried_spec hset.sound hset.shuffled (lookup_setInfo hid _)
          (eq_false_of_ne_true hnew) htime.ne'
        exact ⟨s', hrun, ⟨h', hs'⟩, hcount, hkey⟩
      · exact ⟨_, rfl, hset, rfl, rfl⟩

theorem attempt_spec (h : Steady env a s) (addr : CService) {nTime : Int} (htime : 0 ≤ nTime) (ha : a + 1 < 2 ^ 31) :
    ∃ s', s.attempt addr nTime = .ok s' ∧ Steady env (a + 1) s' ∧ s'.nIdCount = s.nIdCount ∧ s'.nKey = s.nKey := by
  have h1 : Steady env (a + 1) s := h.mono (by omega)
  unfold attempt
  cases hfind : s.find addr.ip with
  | none => exact ⟨s, rfl, h1, rfl, rfl⟩
  | some p =>
    obtain ⟨id, info⟩ := p
    have hid := find_eq_some hfind
    dsimp only
    split
    · exact ⟨s, rfl, h1, rfl, rfl⟩
    obtain ⟨-, hsucc, htried, hatt⟩ := h.sound.timed id info hid
    rw [checkedInt_ok (by omega) (by omega)]
    refine ⟨_, rfl, h1.setInfo hid _ rfl rfl rfl rfl ⟨htime, hsucc, htried, ?_⟩, rfl, rfl⟩
    dsimp only
    omega

theorem connected_spec (h : Steady env a s) (addr : CService) (nTime : Int) :
    Steady env a (s.connected addr nTime) ∧ (s.connected addr nTime).nIdCount = s.nIdCount ∧
      (s.connected addr nTime).nKey = s.nKey := by
  unfold connected
  cases hfind : s.find addr.ip with
  | none => exact ⟨h, rfl, rfl⟩
  | some p =>
    obtain ⟨id, info⟩ := p
    have hid := find_eq_some hfind
    dsimp only
    split
    · exact ⟨h, rfl, rfl⟩
    · split
      · exact ⟨h.setInfo hid _ rfl rfl rfl rfl ((h.sound.timed id info hid).same rfl rfl rfl rfl), rfl, rfl⟩
      · exact ⟨h, rfl, rfl⟩

private theorem findEntry_spec {ι : Type} {table : ι → Int} {move : Nat → ι → ι} {retries : Nat} {slot : ι}
    (h : findEntry table move retries slot = some id) : ∃ slot', table slot' = id ∧ id ≠ -1 := by
  induction retries generalizing slot with
  | zero =>
    unfold findEntry at h
    split at h
    · rename_i hne
      obtain rfl := Option.some.inj h
      exact ⟨slot, rfl, hne⟩
    · cases h
  | succ retries ih =>
    unfold findEntry at h
    split at h
    · rename_i hne
      obtain rfl := Option.some.inj h
      exact ⟨slot, rfl, hne⟩
    · exact ih h

private theorem selectFrom_spec {ι : Type} {table : ι → Int}
    (htable : ∀ slot, table slot ≠ -1 → ∃ info, s.mapInfo.lookup (table slot) = some info) (rounds : List (SelectRound ι)) :
    ∃ result, selectFrom table s rounds = .ok result := by
  induction rounds with
  | nil => exact ⟨none, rfl⟩
  | cons round rounds ih =>
    unfold selectFrom
    cases hfound : findEntry table round.move (kMaxRetries + 1) round.start with
    | none => exact ⟨_, rfl⟩
    | some id =>
      obtain ⟨slot, rfl, hne⟩ := findEntry_spec hfound
      obtain ⟨info, hinfo⟩ := htable slot hne
      dsimp only
      rw [hinfo]
      dsimp only
      split
      · exact ⟨_, rfl⟩
      · exact ih

theorem select_spec (h : Steady env a s) (newOnly : Bool) (nRnd : Nat) (triedRounds : List (SelectRound TriedSlot))
    (newRounds : List (SelectRound NewSlot)) : ∃ result, s.select newOnly nRnd triedRounds newRounds = .ok result := by
  unfold select
  split
  · exact ⟨_, rfl⟩
  split
  · exact ⟨_, rfl⟩
  split
  · refine selectFrom_spec (fun slot hne => ?_) triedRounds
    obtain ⟨info, hinfo, -⟩ := h.sound.tried_mem slot hne
    exact ⟨info, hinfo⟩
  · refine selectFrom_spec (fun slot hne => ?_) newRounds
    obtain ⟨info, hinfo, -⟩ := h.sound.new_mem slot hne
    exact ⟨info, hinfo⟩

variable {p : CAddrMan × List CAddress}

private theorem getAddrRound_spec (h : Steady env a p.1) (nNow : Int) (nNodes : Nat) (rnd : Nat → Nat) {n : Nat}
    (hn : n < p.1.vRandom.length) :
    ∃ p', getAddrRound nNow nNodes rnd p n = .ok p' ∧ Steady env a p'.1 ∧ p'.1.vRandom.length = p.1.vRandom.length ∧
      p'.1.nIdCount = p.1.nIdCount ∧ p'.1.nKey = p.1.nKey := by
  unfold getAddrRound
  split
  · exact ⟨p, rfl, h, rfl, rfl, rfl⟩
  have hlt : rnd n % (p.1.vRandom.length - n) < p.1.vRandom.length - n := Nat.mod_lt _ (by omega)
  obtain ⟨s', hswap, h', hs', hkeeps, -, hlen, -⟩ := swapRandom_spec h.sound h.shuffled hn
    (show rnd n % (p.1.vRandom.length - n) + n < p.1.vRandom.length by omega)
  have hget := getElem?_eq_getElem (hlen.symm ▸ hn : n < s'.vRandom.length)
  obtain ⟨info, hinfo, -⟩ := hs'.id_of_pos n _ hget
  refine ⟨(s', if info.isTerrible nNow then p.2 else p.2 ++ [info.addr]), StateExcept.except_bind_ok.2 ⟨s', hswap, ?_⟩,
    ⟨h', hs'⟩, hlen, hkeeps.nIdCount, hkeeps.nKey⟩
  rw [hget]
  dsimp only
  rw [hinfo]
  rfl

private theorem getAddrRounds_spec (h : Steady env a p.1) (nNow : Int) (nNodes : Nat) (rnd : Nat → Nat)
    {positions : List Nat} (hpositions : ∀ n ∈ positions, n < p.1.vRandom.length) :
    ∃ p', positions.foldlM (getAddrRound nNow nNodes rnd) p = .ok p' ∧ Steady env a p'.1 ∧
      p'.1.nIdCount = p.1.nIdCount ∧ p'.1.nKey = p.1.nKey := by
  induction positions generalizing p with
  | nil => exact ⟨p, rfl, h, rfl, rfl⟩
  | cons n positions ih =>
    obtain ⟨p1, hround, h1, hlen, hcount, hkey⟩ := getAddrRound_spec h nNow nNodes rnd (hpositions n (mem_cons_self ..))
    obtain ⟨p', hrun, h', hcount', hkey'⟩ := ih h1 fun m hm => hlen ▸ hpositions m (mem_cons_of_mem _ hm)
    refine ⟨p', ?_, h', hcount'.trans hcount, hkey'.trans hkey⟩
    rw [foldlM_cons, hround]
    exact hrun

theorem getAddr_spec (h : Steady env a s) (nNow : Int) (rnd : Nat → Nat) :
    ∃ p, s.getAddr nNow rnd = .ok p ∧ Steady env a p.1 ∧ p.1.nIdCount = s.nIdCount ∧ p.1.nKey = s.nKey := by
  have hstart : Steady env a ((s, []) : CAddrMan × List CAddress).1 := h
  exact getAddrRounds_spec hstart nNow _ rnd fun n hn => mem_range.1 hn

/-- The reference is entered, or the entry keeps the ones that it has, or it had none and is deleted. -/
theorem addReference_spec (h : Sound env a (fun id' => id' = id) 0 s) (hs : Shuffled s) (hid : s.mapInfo.lookup id = some info)
    (hnew : info.fInTried = false) (hlt : info.nRefCount < ADDRMAN_NEW_BUCKETS_PER_ADDRESS) {slot : NewSlot}
    (hslot : env.newSlotIn s.nKey info.addr.service slot.1 = slot) (nNow : Int) :
    ∃ s', s.addReference nNow id slot = .ok s' ∧ Steady env a s' ∧ s'.nIdCount = s.nIdCount ∧ s'.nKey = s.nKey := by
  have hkept : 1 ≤ info.nRefCount → Steady env a s := by
    intro hge
    refine ⟨h.mono ?_, hs⟩
    rintro id' info' hid' - rfl
    exact Or.inr (Option.some.inj (hid.symm.trans hid') ▸ hge)
  have hrefs := h.refs id info hid
  unfold addReference
  split
  · rename_i hin
    have hpos : 0 < occurrences s.vvNew id := occurrences_pos.2 ⟨slot, hin⟩
    exact ⟨s, rfl, hkept (by omega), rfl, rfl⟩
  rename_i hout
  split
  · obtain ⟨s1, hclear, h1, hs1, hkeeps, hvvNew⟩ := clearNew_spec h hs slot
    obtain ⟨n, hid1⟩ := hkeeps.records id info (Ne.symm hout) hid
    have hempty : s1.vvNew slot = -1 := by
      rw [hvvNew, Function.update_self]
    have hrun : (do
        let s ← s.clearNew slot
        pure ((s.setInfo id fun info => { info with nRefCount := info.nRefCount + 1 }).setNew slot id) : Except Fault CAddrMan) =
        .ok { s1 with
          mapInfo := s1.mapInfo.insert id { info with nRandomPos := n, nRefCount := info.nRefCount + 1 }
          vvNew := Function.update s1.vvNew slot id } := by
      rw [hclear]
      change Except.ok _ = _
      simp only [setInfo, setNew, CAddrMan.info, hid1, Option.getD_some]
    refine ⟨_, hrun, ⟨?_, hs1.replace hid1 _ (by rfl)⟩, hkeeps.nIdCount, hkeeps.nKey⟩
    refine h1.addRef hid1 hnew hempty ?_ hlt rfl (fun id' hne heq => hne heq) rfl
    rw [hkeeps.nKey]
    exact hslot
  · split
    · rename_i hzero
      rw [info_of_lookup hid] at hzero
      obtain ⟨s', hrun, h', hs', hkeeps, -⟩ := delete_spec h hs hid hnew hzero
      refine ⟨s', hrun, ⟨h'.mono ?_, hs'⟩, hkeeps.nIdCount, hkeeps.nKey⟩
      rintro id' - - - ⟨heq, hne⟩
      exact absurd heq hne
    · rename_i hzero
      rw [info_of_lookup hid] at hzero
      exact ⟨s, rfl, hkept (by omega), rfl, rfl⟩

theorem addKnown_spec (h : Steady env a s) (hid : s.mapInfo.lookup id = some info) (addr : CAddress) (source : CNetAddr)
    (nTimePenalty nNow : Int) (nRnd : Nat) : ∃ s', s.addKnown env addr source nTimePenalty nNow nRnd id = .ok s' ∧
      Steady env a s' ∧ s'.nIdCount = s.nIdCount ∧ s'.nKey = s.nKey := by
  have hset := h.setInfo hid (refresh nNow nTimePenalty addr) rfl rfl rfl rfl
    ((h.sound.timed id info hid).same rfl rfl rfl rfl)
  have hid' := lookup_setInfo hid (refresh nNow nTimePenalty addr)
  unfold addKnown
  dsimp only
  rw [info_of_lookup hid']
  unfold addFurther
  split
  · exact ⟨_, rfl, hset, rfl, rfl⟩
  split
  · exact ⟨_, rfl, hset, rfl, rfl⟩
  rename_i hnew
  split
  · exact ⟨_, rfl, hset, rfl, rfl⟩
  rename_i hne
  split
  · exact ⟨_, rfl, hset, rfl, rfl⟩
  have hnew : info.fInTried = false := eq_false_of_ne_true hnew
  have hlt : info.nRefCount < ADDRMAN_NEW_BUCKETS_PER_ADDRESS := lt_of_le_of_ne (h.sound.bound id info hid hnew).1 hne
  exact addReference_spec (hset.sound.mono fun _ _ _ _ hin => hin.elim) hset.shuffled hid' hnew hlt rfl nNow

section

variable (h : Steady env a s) (ha : 0 ≤ a)
include h ha

theorem Steady.create {addr : CAddress} {addrSource : CNetAddr} (haddr : s.mapAddr.lookup addr.service.ip = none)
    (hcount : s.nIdCount + 1 < 2 ^ 31) :
    ∃ s', s.create addr addrSource = .ok s' ∧ Sound env a (fun id' => id' = s.nIdCount) 1 s' ∧ Shuffled s' ∧
      s'.mapInfo.lookup s.nIdCount = some { addr, source := addrSource, nRandomPos := s.vRandom.length } ∧
      s'.nIdCount = s.nIdCount + 1 ∧ s'.nKey = s.nKey := by
  obtain ⟨h, hs⟩ := h
  have hlen := hs.length_le
  have hfresh : s.mapInfo.lookup s.nIdCount = none := by
    cases hid : s.mapInfo.lookup s.nIdCount with
    | none => rfl
    | some info =>
      have := (h.id_range _ _ hid).2
      omega
  have hrun : s.create addr addrSource = .ok { s with
      nIdCount := s.nIdCount + 1
      mapInfo := s.mapInfo.insert s.nIdCount { addr, source := addrSource, nRandomPos := s.vRandom.length }
      mapAddr := s.mapAddr.insert addr.service.ip s.nIdCount
      vRandom := s.vRandom ++ [s.nIdCount] } := by
    unfold CAddrMan.create
    rw [checkedInt_ok (by omega) hcount]
    rfl
  have hne : ∀ id info, s.mapInfo.lookup id = some info → id ≠ s.nIdCount := by
    rintro id info hid rfl
    rw [hfresh] at hid
    cases hid
  have hout : ∀ slot, s.vvNew slot ≠ s.nIdCount := by
    intro slot hslot
    by_cases hempty : s.vvNew slot = -1
    · omega
    · obtain ⟨info, hid, -⟩ := h.new_mem slot hempty
      exact hne _ info hid hslot
  refine ⟨_, hrun, ?_, ?_, AList.lookup_insert _, rfl, rfl⟩
  · have hrange := h.id_range
    have haddrs := h.addr_of_id
    have hids := h.id_of_addr
    have htried := h.tried_mem
    have hmem := h.new_mem
    constructor
    · grind
    · grind [CAddrInfo.ip]
    · intro ip id hip
      rcases KeyMap.lookup_insert_cases hip with ⟨rfl, rfl⟩ | ⟨-, hip⟩
      · exact ⟨_, AList.lookup_insert _, rfl⟩
      · obtain ⟨info, hid, heq⟩ := hids ip id hip
        exact ⟨info, by grind, heq⟩
    · have htimed := h.timed
      have hnew : Timed a { addr, source := addrSource, nRandomPos := s.vRandom.length } :=
        ⟨le_refl 0, le_refl 0, fun hfalse => absurd hfalse Bool.false_ne_true, le_refl 0, ha⟩
      grind
    · grind
    · have hslot := h.tried_slot
      grind
    · grind
    · have hrefs := h.refs
      have hzero := occurrences_eq_zero.2 hout
      grind
    · have hbound := h.bound
      grind [ADDRMAN_NEW_BUCKETS_PER_ADDRESS]
    · have hold := h.countTried
      have hins := KeyMap.count_insert_none (fun info : CAddrInfo => info.fInTried) hfresh
        { addr, source := addrSource, nRandomPos := s.vRandom.length }
      dsimp only [Bool.toNat_false] at hins ⊢
      omega
    · have hold := h.countNew
      have hins := KeyMap.count_insert_none (fun info : CAddrInfo => !info.fInTried) hfresh
        { addr, source := addrSource, nRandomPos := s.vRandom.length }
      simp only [Bool.not_false, Bool.toNat_true] at hins ⊢
      omega
  · refine ⟨?_, ?_, ?_, ?_, hcount⟩
    · intro id info hid
      rcases KeyMap.lookup_insert_cases hid with ⟨rfl, rfl⟩ | ⟨-, hid⟩
      · exact ⟨s.vRandom.length, rfl, getElem?_concat_length⟩
      · obtain ⟨n, hpos, hn⟩ := hs.pos_of_id id info hid
        exact ⟨n, hpos, by grind⟩
    · intro n id hn
      by_cases heq : n = s.vRandom.length
      · subst heq
        obtain rfl : s.nIdCount = id := by simpa using hn
        exact ⟨_, AList.lookup_insert _, rfl⟩
      · obtain ⟨info, hid, hpos⟩ := hs.id_of_pos n id (by grind)
        exact ⟨info, by grind, hpos⟩
    · have hold := hs.length
      rw [length_append, length_singleton, KeyMap.length_insert hfresh]
      omega
    · rw [length_append, length_singleton]
      push_cast
      omega

theorem addUnknown_spec {addr : CAddress} (haddr : s.mapAddr.lookup addr.service.ip = none) (hcount : s.nIdCount + 1 < 2 ^ 31)
    (source : CNetAddr) (nTimePenalty nNow : Int) :
    ∃ s', s.addUnknown env addr source nTimePenalty nNow = .ok s' ∧ Steady env a s' ∧ s'.nIdCount = s.nIdCount + 1 ∧
      s'.nKey = s.nKey := by
  obtain ⟨s1, hcreate, h1, hs1, hid1, hcount1, hkey1⟩ := @Steady.create _ _ _ h ha addr source haddr hcount
  have h2 : Sound env a (fun id' => id' = s.nIdCount) 1 (s1.setInfo s.nIdCount (penalise nTimePenalty)) := by
    rw [setInfo, info_of_lookup hid1]
    exact h1.replace hid1 _ rfl rfl rfl ((h1.timed _ _ hid1).same rfl rfl rfl rfl)
  have hs2 : Shuffled (s1.setInfo s.nIdCount (penalise nTimePenalty)) := by
    rw [setInfo, info_of_lookup hid1]
    exact hs1.replace hid1 _ (by rfl)
  have h3 : Sound env a (fun id' => id' = s.nIdCount) 0
      { s1.setInfo s.nIdCount (penalise nTimePenalty) with nNew := s1.nNew + 1 } :=
    h2.recount (Int.add_zero _)
  have hs3 : Shuffled { s1.setInfo s.nIdCount (penalise nTimePenalty) with nNew := s1.nNew + 1 } :=
    ⟨hs2.pos_of_id, hs2.id_of_pos, hs2.length, hs2.length_le, hs2.idCount_lt⟩
  obtain ⟨s', hrun, h', hcount', hkey'⟩ := addReference_spec h3 hs3 (lookup_setInfo hid1 (penalise nTimePenalty)) rfl
    (by decide : (0 : Int) < ADDRMAN_NEW_BUCKETS_PER_ADDRESS) (show env.newSlotIn s1.nKey addr.service _ =
      env.newSlot s1.nKey addr.service source from rfl) nNow
  refine ⟨s', ?_, h', hcount'.trans hcount1, hkey'.trans hkey1⟩
  unfold addUnknown
  rw [hcreate]
  exact hrun

theorem add_spec (hcount : s.nIdCount + 1 < 2 ^ 31) (addr : CAddress) (source : CNetAddr) (nTimePenalty nNow : Int)
    (nRnd : Nat) : ∃ p, s.add env addr source nTimePenalty nNow nRnd = .ok p ∧ Steady env a p.2 ∧
      p.2.nIdCount ≤ s.nIdCount + 1 ∧ p.2.nKey = s.nKey := by
  unfold add
  split
  · exact ⟨_, rfl, h, by dsimp only; omega, rfl⟩
  cases hfind : s.find addr.service.ip with
  | none =>
    obtain ⟨s', hrun, h', hcount', hkey⟩ := addUnknown_spec h ha (find_eq_none h hfind) hcount source nTimePenalty nNow
    dsimp only
    rw [hrun]
    exact ⟨_, rfl, h', hcount'.le, hkey⟩
  | some p =>
    obtain ⟨s', hrun, h', hcount', hkey⟩ := addKnown_spec h (find_eq_some hfind) addr source nTimePenalty nNow nRnd
    dsimp only
    rw [hrun]
    exact ⟨_, rfl, h', by dsimp only; omega, hkey⟩

end

/-! ### Runs -/

/-- A call of an operation, with its random choices and the time of the clock. -/
inductive AddrOp
  | add (addr : CAddress) (source : CNetAddr) (nTimePenalty nNow : Int) (nRnd : Nat)
  | good (addr : CService) (nTime : Int) (nRnd : Nat)
  | attempt (addr : CService) (nTime : Int)
  | connected (addr : CService) (nTime : Int)
  | select (newOnly : Bool) (nRnd : Nat) (triedRounds : List (SelectRound TriedSlot)) (newRounds : List (SelectRound NewSlot))
  | getAddr (nNow : Int) (rnd : Nat → Nat)

namespace AddrOp

def apply (env : AddrManEnv) (s : CAddrMan) : AddrOp → Except Fault CAddrMan
  | add addr source nTimePenalty nNow nRnd => (s.add env addr source nTimePenalty nNow nRnd).map Prod.snd
  | good addr nTime nRnd => s.good env addr nTime nRnd
  | attempt addr nTime => s.attempt addr nTime
  | connected addr nTime => .ok (s.connected addr nTime)
  | select newOnly nRnd triedRounds newRounds => (s.select newOnly nRnd triedRounds newRounds).map fun _ => s
  | getAddr nNow rnd => (s.getAddr nNow rnd).map Prod.fst

def GoodTimes : AddrOp → Prop
  | good _ nTime _ => 0 < nTime
  | _ => True

def AttemptTimes : AddrOp → Prop
  | attempt _ nTime => 0 ≤ nTime
  | _ => True

def isAdd : AddrOp → Bool
  | add .. => true
  | _ => false

def isAttempt : AddrOp → Bool
  | attempt .. => true
  | _ => false

theorem apply_spec (h : Steady env a s) (ha : 0 ≤ a) (op : AddrOp) (hgood : op.GoodTimes) (hattempt : op.AttemptTimes)
    (hadds : s.nIdCount + op.isAdd.toNat < 2 ^ 31) (hatt : a + op.isAttempt.toNat < 2 ^ 31) :
    ∃ s', op.apply env s = .ok s' ∧ Steady env (a + op.isAttempt.toNat) s' ∧
      s'.nIdCount ≤ s.nIdCount + op.isAdd.toNat ∧ s'.nKey = s.nKey := by
  have hle : ∀ (b : Bool) (n : Int), n ≤ n + b.toNat := fun b n => Int.le_add_of_nonneg_right (Int.natCast_nonneg _)
  cases op with
  | add addr source nTimePenalty nNow nRnd =>
    obtain ⟨p, hrun, h', hcount, hkey⟩ := add_spec h ha hadds addr source nTimePenalty nNow nRnd
    refine ⟨p.2, ?_, h'.mono (hle _ _), hcount, hkey⟩
    rw [apply, hrun]
    rfl
  | good addr nTime nRnd =>
    obtain ⟨s', hrun, h', hcount, hkey⟩ := good_spec h addr hgood nRnd
    exact ⟨s', hrun, h'.mono (hle _ _), hcount ▸ hle _ _, hkey⟩
  | attempt addr nTime =>
    obtain ⟨s', hrun, h', hcount, hkey⟩ := attempt_spec h addr hattempt hatt
    exact ⟨s', hrun, h', hcount ▸ hle _ _, hkey⟩
  | connected addr nTime =>
    obtain ⟨h', hcount, hkey⟩ := connected_spec h addr nTime
    exact ⟨_, rfl, h'.mono (hle _ _), hcount ▸ hle _ _, hkey⟩
  | select newOnly nRnd triedRounds newRounds =>
    obtain ⟨result, hrun⟩ := select_spec h newOnly nRnd triedRounds newRounds
    refine ⟨s, ?_, h.mono (hle _ _), hle _ _, rfl⟩
    rw [apply, hrun]
    rfl
  | getAddr nNow rnd =>
    obtain ⟨p, hrun, h', hcount, hkey⟩ := getAddr_spec h nNow rnd
    refine ⟨p.1, ?_, h'.mono (hle _ _), hcount ▸ hle _ _, hkey⟩
    rw [apply, hrun]
    rfl

end AddrOp

def run (env : AddrManEnv) (ops : List AddrOp) (s : CAddrMan) : Except Fault CAddrMan := ops.foldlM (AddrOp.apply env) s

theorem run_steady (h : Steady env a s) (ha : 0 ≤ a) (ops : List AddrOp) (hgood : ∀ op ∈ ops, op.GoodTimes)
    (hattempt : ∀ op ∈ ops, op.AttemptTimes) (hadds : s.nIdCount + ops.countP AddrOp.isAdd < 2 ^ 31)
    (hatt : a + ops.countP AddrOp.isAttempt < 2 ^ 31) :
    ∃ s', run env ops s = .ok s' ∧ Steady env (a + ops.countP AddrOp.isAttempt) s' ∧ s'.nKey = s.nKey := by
  induction ops generalizing s a with
  | nil => exact ⟨s, rfl, by simpa using h, rfl⟩
  | cons op ops ih =>
    have hcons : ∀ p : AddrOp → Bool, (op :: ops).countP p = ops.countP p + (p op).toNat := fun p => by
      rw [countP_cons]
      cases p op <;> rfl
    rw [hcons] at hadds hatt ⊢
    push_cast at hadds hatt ⊢
    obtain ⟨s1, hrun1, h1, hcount1, hkey1⟩ := AddrOp.apply_spec h ha op (hgood op (mem_cons_self ..))
      (hattempt op (mem_cons_self ..)) (by omega) (by omega)
    obtain ⟨s', hrun, h', hkey⟩ := ih h1 (by omega) (forall_mem_cons.1 hgood).2
      (forall_mem_cons.1 hattempt).2 (by omega) (by omega)
    refine ⟨s', ?_, h'.mono (by omega), hkey.trans hkey1⟩
    rw [run, foldlM_cons, hrun1]
    exact hrun

/-! ### What the check finds -/

/-- The ids, the addresses and the random order are in bijection. -/
structure Bijective (s : CAddrMan) : Prop where
  addr : ∀ ip id, s.mapAddr.lookup ip = some id ↔ ∃ info, s.mapInfo.lookup id = some info ∧ info.ip = ip
  random : ∀ id, id ∈ s.vRandom ↔ ∃ info, s.mapInfo.lookup id = some info
  nodup : s.vRandom.Nodup

theorem Steady.bijective (h : Steady env a s) : s.Bijective := by
  refine ⟨fun ip id => ⟨h.sound.id_of_addr ip id, ?_⟩, fun id => ⟨fun hid => ?_, ?_⟩, ?_⟩
  · rintro ⟨info, hid, rfl⟩
    exact h.sound.addr_of_id id info hid
  · obtain ⟨n, hn⟩ := mem_iff_getElem?.1 hid
    obtain ⟨info, hid, -⟩ := h.shuffled.id_of_pos n id hn
    exact ⟨info, hid⟩
  · rintro ⟨info, hid⟩
    obtain ⟨n, -, hn⟩ := h.shuffled.pos_of_id id info hid
    exact mem_of_getElem? hn
  · refine nodup_iff_getElem?_ne_getElem?.2 fun n m hlt hm heq => ?_
    have hget := getElem?_eq_getElem hm
    obtain ⟨info, hid, hpos⟩ := h.shuffled.id_of_pos m _ hget
    obtain ⟨info', hid', hpos'⟩ := h.shuffled.id_of_pos n _ (heq.trans hget)
    obtain rfl := Option.some.inj (hid.symm.trans hid')
    omega

theorem Steady.checked (h : Steady env a s) (hkey : s.nKey ≠ 0) : Checked env s := by
  obtain ⟨h, hs⟩ := h
  have htried := h.countTried
  have hnew := h.countNew
  have hall : s.mapInfo.entries.length =
      s.mapInfo.count (fun info => info.fInTried) + s.mapInfo.count fun info => !info.fInTried :=
    length_eq_length_filter_add _
  have hlen := hs.length
  refine ⟨by omega, fun id info hid => ?_, htried, by omega, h.tried_mem, h.tried_slot, h.new_mem,
    fun id info hid _ => h.refs id info hid, fun id info hid => h.id_ne hid, hkey⟩
  obtain ⟨n, hpos, hn⟩ := hs.pos_of_id id info hid
  obtain ⟨htry, hsucc, htime, -⟩ := h.timed id info hid
  refine ⟨fun ht => ⟨htime ht, ?_⟩, fun hn => ?_, ?_, ?_, htry, hsucc⟩
  · have hrefs := h.refs id info hid
    have hzero := occurrences_eq_zero.2 (h.tried_not_in_new hid ht)
    omega
  · obtain ⟨hle, hge⟩ := h.bound id info hid hn
    exact ⟨hge not_false, hle⟩
  · rw [h.addr_of_id id info hid]
    rfl
  · rw [hpos]
    exact ⟨Int.natCast_nonneg n, hn⟩

/-- From the empty address manager, whatever the hash functions and the random choices are, no assertion fails and `Check_`
finds nothing. -/
theorem run_consistent (env : AddrManEnv) {nKey : Uint256} (hkey : nKey ≠ 0) (ops : List AddrOp)
    (hgood : ∀ op ∈ ops, op.GoodTimes) (hattempt : ∀ op ∈ ops, op.AttemptTimes)
    (hadds : ops.countP AddrOp.isAdd < 2 ^ 31) (hattempts : ops.countP AddrOp.isAttempt < 2 ^ 31) :
    ∃ s, run env ops { nKey } = .ok s ∧ s.check env = 0 ∧ s.Bijective ∧ Checked env s := by
  have hadds' : ({ nKey } : CAddrMan).nIdCount + ops.countP AddrOp.isAdd < 2 ^ 31 := by
    dsimp only
    omega
  obtain ⟨s, hrun, h, hkey'⟩ := run_steady (steady_empty env nKey) (le_refl 0) ops hgood hattempt hadds' (by omega)
  have hchk := h.checked (hkey' ▸ hkey)
  exact ⟨s, hrun, check_eq_zero.2 hchk, h.bijective, hchk⟩

/-- All addresses go to the same slots. -/
def oneSlot : AddrManEnv where
  isRoutable _ := true
  getTriedBucket _ _ := 0
  getNewBucket _ _ _ := 0
  getBucketPosition _ _ _ _ := 0

def hostAddress (n : Nat) : CAddress := { service := ⟨BitVec.ofNat 128 n, 8333⟩, nTime := 1000 }

/-- Two addresses of one slot: the second one takes the place of the first, in both tables. -/
theorem run_consistent_twoHosts : ∃ s, run oneSlot [.add (hostAddress 1) 0 0 1000 0,
      .good (hostAddress 1).service 1000 0, .add (hostAddress 2) 0 0 1000 0,
      .good (hostAddress 2).service 1001 7, .attempt (hostAddress 1).service 0, .getAddr 1002 fun _ => 1] { nKey := 1 } = .ok s ∧
    s.check oneSlot = 0 ∧ s.Bijective ∧ Checked oneSlot s :=
  run_consistent oneSlot (by decide) _ (by simp [AddrOp.GoodTimes]) (by simp [AddrOp.AttemptTimes]) (by decide) (by decide)

/-! ### Where the check finds something, or the counter overflows -/

/-- The slot is taken by the entry 0, the other address is not known. -/
private structure Taken (n : Int) (s : CAddrMan) : Prop where
  nIdCount : s.nIdCount = n
  vRandom : s.vRandom = [0]
  slot : s.vvNew (0, 0) = 0
  record : s.mapInfo.lookup 0 = some { addr := hostAddress 1, nRefCount := 1, nRandomPos := 0 }
  unknown : s.mapAddr.lookup (hostAddress 2).service.ip = none

private theorem Taken.start : ∃ s, AddrOp.apply oneSlot { nKey := 1 }
    (.add (hostAddress 1) 0 0 1000 0) = .ok s ∧ Taken 1 s :=
  ⟨_, rfl, rfl, rfl, rfl, rfl, rfl⟩

private theorem delete_last (hid : s.mapInfo.lookup id = some info) (hnew : info.fInTried = false) (hrefs : info.nRefCount = 0)
    (hpos : info.nRandomPos = 1) (hlen : s.vRandom.length = 2) :
    s.delete id = .ok { s with
      vRandom := s.vRandom.dropLast
      mapAddr := s.mapAddr.erase info.ip
      mapInfo := s.mapInfo.erase id
      nNew := s.nNew - 1 } := by
  unfold delete
  rw [hid]
  dsimp only
  rw [hnew, if_neg Bool.false_ne_true, if_neg (not_not.2 hrefs), remove, hpos, hlen]
  rfl

private theorem addReference_refused {nNow id' : Int} {slot : NewSlot} {info' : CAddrInfo} (hslot : s.vvNew slot = id')
    (hid : s.mapInfo.lookup id = some info) (hid' : s.mapInfo.lookup id' = some info') (hne : id' ≠ id) (hne' : id' ≠ -1)
    (hterrible : info'.isTerrible nNow = false) (hrefs' : info'.nRefCount = 1) (hrefs : info.nRefCount = 0) :
    s.addReference nNow id slot = s.delete id := by
  unfold addReference
  rw [hslot, info_of_lookup hid', info_of_lookup hid, if_neg hne, hterrible, hrefs', hrefs]
  simp only [hne', decide_false, Bool.or_self, gt_iff_lt, decide_true, Bool.and_true, Bool.false_eq_true, if_false, if_true,
    lt_irrefl]

private theorem Taken.refuse (h : Taken k s) (hpos : 1 ≤ k) (hk : k + 1 < 2 ^ 31) :
    ∃ s', AddrOp.apply oneSlot s (.add (hostAddress 2) 0 0 1000 0) = .ok s' ∧ Taken (k + 1) s' := by
  have hne : (0 : Int) ≠ k := by omega
  have hcreate : s.create (hostAddress 2) 0 = .ok { s with
      nIdCount := k + 1
      mapInfo := s.mapInfo.insert k { addr := hostAddress 2, nRandomPos := 1 }
      mapAddr := s.mapAddr.insert (hostAddress 2).service.ip k
      vRandom := [0, k] } := by
    unfold create
    rw [h.nIdCount, h.vRandom, checkedInt_ok (by omega) hk]
    rfl
  have hfind : s.find (hostAddress 2).service.ip = none := by
    rw [find, h.unknown]
  -- The state before the entry is deleted.
  obtain ⟨s2, hs2⟩ : ∃ s2 : CAddrMan, s2 = { s with
      nIdCount := k + 1
      mapInfo := (s.mapInfo.insert k { addr := hostAddress 2, nRandomPos := 1 }).insert k
        (penalise 0 { addr := hostAddress 2, nRandomPos := 1 })
      mapAddr := s.mapAddr.insert (hostAddress 2).service.ip k
      vRandom := [0, k]
      nNew := s.nNew + 1 } := ⟨_, rfl⟩
  have hid2 : s2.mapInfo.lookup k = some (penalise 0 { addr := hostAddress 2, nRandomPos := 1 }) := by
    rw [hs2]
    exact AList.lookup_insert _
  have hrec2 : s2.mapInfo.lookup 0 = some { addr := hostAddress 1, nRefCount := 1, nRandomPos := 0 } := by
    rw [hs2]
    exact (AList.lookup_insert_ne hne).trans ((AList.lookup_insert_ne hne).trans h.record)
  have hslot2 : s2.vvNew (0, 0) = 0 := by
    rw [hs2]
    exact h.slot
  have hvRandom2 : s2.vRandom = [0, k] := by rw [hs2]
  have hcount2 : s2.nIdCount = k + 1 := by rw [hs2]
  have hadd : s.add oneSlot (hostAddress 2) 0 0 1000 0 =
      (s2.addReference 1000 k (0, 0)).map fun s => (true, s) := by
    unfold CAddrMan.add
    rw [hfind, addUnknown, h.nIdCount, hcreate, hs2]
    change Except.map _ (addReference 1000 k (0, 0) _) = _
    rw [setInfo, CAddrMan.info, AList.lookup_insert]
    rfl
  rw [addReference_refused hslot2 hid2 hrec2 hne (by decide) (by decide) rfl rfl,
    delete_last hid2 rfl rfl rfl (by rw [hvRandom2]; rfl)] at hadd
  refine ⟨{ s2 with
      vRandom := s2.vRandom.dropLast
      mapAddr := s2.mapAddr.erase (hostAddress 2).service.ip
      mapInfo := s2.mapInfo.erase k
      nNew := s2.nNew - 1 }, ?_, hcount2, ?_, hslot2, ?_, AList.lookup_erase _ _⟩
  · rw [AddrOp.apply, hadd]
    rfl
  · dsimp only
    rw [hvRandom2]
    rfl
  · exact (AList.lookup_erase_ne hne).trans hrec2

private theorem Taken.overflow (h : Taken (2 ^ 31 - 1) s) :
    AddrOp.apply oneSlot s (.add (hostAddress 2) 0 0 1000 0) = .error .overflow := by
  have hadd : s.add oneSlot (hostAddress 2) 0 0 1000 0 = .error .overflow := by
    unfold CAddrMan.add find
    rw [h.unknown]
    unfold addUnknown create
    rw [h.nIdCount]
    rfl
  rw [AddrOp.apply, hadd]
  rfl

/-- The record of the entry 0 after so many attempts. -/
private structure Attempted (n : Int) (s : CAddrMan) : Prop where
  addr : s.mapAddr.lookup (hostAddress 1).service.ip = some 0
  record : ∃ info, s.mapInfo.lookup 0 = some info ∧ info.addr.service = (hostAddress 1).service ∧ info.nAttempts = n

private theorem Attempted.start : ∃ s, AddrOp.apply oneSlot { nKey := 1 }
    (.add (hostAddress 1) 0 0 1000 0) = .ok s ∧ Attempted 0 s :=
  ⟨_, rfl, rfl, _, rfl, rfl, rfl⟩

private theorem Attempted.attempt (h : Attempted k s) : ∃ info, s.mapInfo.lookup 0 = some info ∧
    info.addr.service = (hostAddress 1).service ∧ s.attempt (hostAddress 1).service 0 =
      (checkedInt (k + 1) >>= fun nAttempts => pure (s.setInfo 0 fun info => { info with nLastTry := 0, nAttempts })) := by
  obtain ⟨info, hid, hserv, hatt⟩ := h.record
  have hfind : s.find (hostAddress 1).service.ip = some (0, info) := by
    rw [find, h.addr]
    dsimp only
    rw [hid]
    rfl
  refine ⟨info, hid, hserv, ?_⟩
  rw [CAddrMan.attempt, hfind]
  dsimp only
  rw [if_neg (not_not.2 hserv), hatt]

private theorem Attempted.again (h : Attempted k s) (hpos : 0 ≤ k) (hk : k + 1 < 2 ^ 31) :
    ∃ s', AddrOp.apply oneSlot s (.attempt (hostAddress 1).service 0) = .ok s' ∧ Attempted (k + 1) s' := by
  obtain ⟨info, hid, hserv, hrun⟩ := h.attempt
  rw [checkedInt_ok (by omega) hk] at hrun
  exact ⟨_, hrun, h.addr, _, lookup_setInfo hid _, hserv, rfl⟩

private theorem Attempted.overflow (h : Attempted (2 ^ 31 - 1) s) :
    AddrOp.apply oneSlot s (.attempt (hostAddress 1).service 0) = .error .overflow := by
  obtain ⟨info, hid, hserv, hrun⟩ := h.attempt
  exact hrun

private theorem run_replicate {P : Int → CAddrMan → Prop} {op : AddrOp}
    (hstep : ∀ n s, P n s → n + 1 < 2 ^ 31 → ∃ s', op.apply oneSlot s = .ok s' ∧ P (n + 1) s')
    (hlast : ∀ s, P (2 ^ 31 - 1) s → op.apply oneSlot s = .error .overflow) (m : Nat) (h : P k s) (hm : 0 < m)
    (hk : k + m = 2 ^ 31) : run oneSlot (List.replicate m op) s = .error .overflow := by
  induction m generalizing k s with
  | zero => exact absurd hm (lt_irrefl 0)
  | succ m ih =>
    rw [replicate_succ, run, foldlM_cons]
    cases m with
    | zero =>
      obtain rfl : k = 2 ^ 31 - 1 := by omega
      rw [hlast s h]
      rfl
    | succ m =>
      obtain ⟨s', hrun, h'⟩ := hstep k s h (by omega)
      rw [hrun]
      exact ih h' (Nat.succ_pos m) (by omega)

/-- An attempt with a negative time, a null key, one slot for many addresses, and many attempts at one address. -/
theorem run_inconsistent :
    (∃ s, run oneSlot [.add (hostAddress 1) 0 0 1000 0, .attempt (hostAddress 1).service (-1)]
      { nKey := 1 } = .ok s ∧ s.check oneSlot ≠ 0) ∧
    (∃ s, run oneSlot [] { nKey := 0 } = .ok s ∧ s.check oneSlot ≠ 0) ∧
    run oneSlot (.add (hostAddress 1) 0 0 1000 0 ::
      List.replicate (2 ^ 31 - 1) (.add (hostAddress 2) 0 0 1000 0)) { nKey := 1 } = .error .overflow ∧
    run oneSlot (.add (hostAddress 1) 0 0 1000 0 ::
      List.replicate (2 ^ 31) (.attempt (hostAddress 1).service 0)) { nKey := 1 } = .error .overflow := by
  refine ⟨⟨_, rfl, fun h => ?_⟩, ⟨_, rfl, fun h => (check_eq_zero.1 h).key rfl⟩, ?_, ?_⟩
  · have hrec := (check_eq_zero.1 h).record 0 _ rfl
    exact absurd hrec.lastTry (by decide)
  · obtain ⟨s, hstart, h⟩ := Taken.start
    have hstep : ∀ n s, 1 ≤ n ∧ Taken n s → n + 1 < 2 ^ 31 → ∃ s', AddrOp.apply oneSlot s
        (.add (hostAddress 2) 0 0 1000 0) = .ok s' ∧ 1 ≤ n + 1 ∧ Taken (n + 1) s' := by
      rintro n s ⟨hpos, h⟩ hn
      obtain ⟨s', hrun, h'⟩ := h.refuse hpos hn
      exact ⟨s', hrun, by omega, h'⟩
    rw [run, foldlM_cons, hstart]
    exact run_replicate hstep (fun s h => h.2.overflow) (2 ^ 31 - 1) ⟨le_refl 1, h⟩ (by decide) (by decide)
  · obtain ⟨s, hstart, h⟩ := Attempted.start
    have hstep : ∀ n s, 0 ≤ n ∧ Attempted n s → n + 1 < 2 ^ 31 → ∃ s', AddrOp.apply oneSlot s
        (.attempt (hostAddress 1).service 0) = .ok s' ∧ 0 ≤ n + 1 ∧ Attempted (n + 1) s' := by
      rintro n s ⟨hpos, h⟩ hn
      obtain ⟨s', hrun, h'⟩ := h.again hpos hn
      exact ⟨s', hrun, by omega, h'⟩
    rw [run, foldlM_cons, hstart]
    exact run_replicate hstep (fun s h => h.2.overflow) (2 ^ 31) ⟨le_refl 0, h⟩ (by decide) (by decide)

end CAddrMan

end LitecoinZ
