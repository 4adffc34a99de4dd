import LitecoinZ.Net.AddrManCheck

/-!
# The steps of the address manager

What holds of the address manager between the steps of its operations.  In the middle of an operation some entries may be
without a reference and some may not be counted; `Sound` has both as parameters.  Every operation starts from a state where
there are none and ends in one, and none of its assertions fails.
-/

namespace LitecoinZ

open Table List

namespace CAddrMan

variable {env : AddrManEnv} {s s' : CAddrMan} {limbo limbo' : Int → Prop} {a k k' id : Int} {info info' : CAddrInfo}

/-! ### What holds between the steps -/

/-- The times of a record, and a bound for the number of its attempts. -/
structure Timed (a : Int) (info : CAddrInfo) : Prop where
  lastTry : 0 ≤ info.nLastTry
  lastSuccess : 0 ≤ info.nLastSuccess
  tried : info.fInTried = true → info.nLastSuccess ≠ 0
  attempts : 0 ≤ info.nAttempts ∧ info.nAttempts ≤ a

theorem Timed.same (h : Timed a info) (hlastTry : info'.nLastTry = info.nLastTry)
    (hlastSuccess : info'.nLastSuccess = info.nLastSuccess) (htried : info'.fInTried = info.fInTried)
    (hatt : info'.nAttempts = info.nAttempts) : Timed a info' := by
  obtain ⟨h1, h2, h3, h4⟩ := h
  rw [← hlastTry] at h1
  rw [← hlastSuccess] at h2 h3
  rw [← htried] at h3
  rw [← hatt] at h4
  exact ⟨h1, h2, h3, h4⟩

/-- The records, the addresses, the tables and the counters agree, except that the ids in `limbo` may be without a reference and
that `k` of the new entries are not counted. -/
structure Sound (env : AddrManEnv) (a : Int) (limbo : Int → Prop) (k : Int) (s : CAddrMan) : Prop where
  id_range : ∀ id info, s.mapInfo.lookup id = some info → 0 ≤ id ∧ id < s.nIdCount
  addr_of_id : ∀ id info, s.mapInfo.lookup id = some info → s.mapAddr.lookup info.ip = some id
  id_of_addr : ∀ ip id, s.mapAddr.lookup ip = some id → ∃ info, s.mapInfo.lookup id = some info ∧ info.ip = ip
  timed : ∀ id info, s.mapInfo.lookup id = some info → Timed a info
  tried_mem : ∀ slot, s.vvTried slot ≠ -1 → ∃ info, s.mapInfo.lookup (s.vvTried slot) = some info ∧
    info.fInTried = true ∧ env.triedSlot s.nKey info.addr.service = slot
  tried_slot : ∀ id info, s.mapInfo.lookup id = some info → info.fInTried = true →
    s.vvTried (env.triedSlot s.nKey info.addr.service) = id
  new_mem : ∀ slot, s.vvNew slot ≠ -1 → ∃ info, s.mapInfo.lookup (s.vvNew slot) = some info ∧
    info.fInTried = false ∧ env.newSlotIn s.nKey info.addr.service slot.1 = slot
  refs : ∀ id info, s.mapInfo.lookup id = some info → (occurrences s.vvNew id : Int) = info.nRefCount
  bound : ∀ id info, s.mapInfo.lookup id = some info → info.fInTried = false →
    info.nRefCount ≤ ADDRMAN_NEW_BUCKETS_PER_ADDRESS ∧ (¬ limbo id → 1 ≤ info.nRefCount)
  countTried : (s.mapInfo.count (fun info => info.fInTried) : Int) = s.nTried
  countNew : (s.mapInfo.count (fun info => !info.fInTried) : Int) = s.nNew + k

/-- The random order has every id once, at the position that its record says. -/
structure Shuffled (s : CAddrMan) : Prop where
  pos_of_id : ∀ id info, s.mapInfo.lookup id = some info → ∃ n : Nat, info.nRandomPos = n ∧ s.vRandom[n]? = some id
  id_of_pos : ∀ (n : Nat) (id : Int), s.vRandom[n]? = some id → ∃ info, s.mapInfo.lookup id = some info ∧ info.nRandomPos = n
  length : s.vRandom.length = s.mapInfo.entries.length
  length_le : (s.vRandom.length : Int) ≤ s.nIdCount
  idCount_lt : s.nIdCount < 2 ^ 31

/-- What a step on the table of the new ones leaves as it is: all records but some, up to their positions. -/
structure Keeps (except : Int → Prop) (s s' : CAddrMan) : Prop where
  nIdCount : s'.nIdCount = s.nIdCount
  nKey : s'.nKey = s.nKey
  vvTried : s'.vvTried = s.vvTried
  records : ∀ id info, ¬ except id → s.mapInfo.lookup id = some info →
    ∃ n, s'.mapInfo.lookup id = some { info with nRandomPos := n }

theorem Sound.mono (h : Sound env a limbo k s) (hlimbo : ∀ id info, s.mapInfo.lookup id = some info → info.fInTried = false →
    limbo id → limbo' id ∨ 1 ≤ info.nRefCount) : Sound env a limbo' k s :=
  { h with
    bound := fun id info hid hnew => by
      refine ⟨(h.bound id info hid hnew).1, fun hout => ?_⟩
      by_cases hin : limbo id
      · exact (hlimbo id info hid hnew hin).resolve_left hout
      · exact (h.bound id info hid hnew).2 hin }

theorem Sound.recount (h : Sound env a limbo k s) {vRandom : List Int} {nNew : Int} (hnNew : nNew + k' = s.nNew + k) :
    Sound env a limbo k' { s with vRandom, nNew } :=
  { h with countNew := h.countNew.trans hnNew.symm }

/-- A slot no longer refers to its entry. -/
def unref (id : Int) (info : CAddrInfo) (slot : NewSlot) (s : CAddrMan) : CAddrMan :=
  { s with
    mapInfo := s.mapInfo.insert id { info with nRefCount := info.nRefCount - 1 }
    vvNew := Function.update s.vvNew slot (-1) }

/-- A slot is emptied, and its entry is among the new ones again. -/
def untried (id : Int) (info : CAddrInfo) (slot : TriedSlot) (s : CAddrMan) : CAddrMan :=
  { s with
    mapInfo := s.mapInfo.insert id { info with fInTried := false }
    vvTried := Function.update s.vvTried slot (-1)
    nTried := s.nTried - 1 }

/-! ### One record changes -/

section

variable (h : Sound env a limbo k s) (hid : s.mapInfo.lookup id = some info)
include h hid

theorem Sound.id_ne : id ≠ -1 := by
  have := (h.id_range id info hid).1
  omega

theorem Sound.not_in_new (hrefs : info.nRefCount = 0) (slot : NewSlot) : s.vvNew slot ≠ id := by
  have hcount := h.refs id info hid
  exact occurrences_eq_zero.1 (by omega) slot

theorem Sound.update (info' : CAddrInfo) (hserv : info'.addr.service = info.addr.service) (htimed : Timed a info')
    {vvTried : TriedSlot → Int} {vvNew : NewSlot → Int} {nTried nNew : Int}
    (htried : ∀ slot id', id' ≠ id → id' ≠ -1 → (vvTried slot = id' ↔ s.vvTried slot = id'))
    (htriedId : ∀ slot, vvTried slot = id ↔ info'.fInTried = true ∧ env.triedSlot s.nKey info'.addr.service = slot)
    (hnew : ∀ slot id', id' ≠ id → id' ≠ -1 → (vvNew slot = id' ↔ s.vvNew slot = id'))
    (hnewId : ∀ slot, vvNew slot = id → info'.fInTried = false ∧ env.newSlotIn s.nKey info'.addr.service slot.1 = slot)
    (hrefs : (occurrences vvNew id : Int) = info'.nRefCount)
    (hbound : info'.fInTried = false → info'.nRefCount ≤ ADDRMAN_NEW_BUCKETS_PER_ADDRESS ∧ (¬ limbo' id → 1 ≤ info'.nRefCount))
    (hlimbo : ∀ id', id' ≠ id → limbo id' → limbo' id')
    (hnTried : nTried + info.fInTried.toNat = s.nTried + info'.fInTried.toNat)
    (hnNew : nNew + k' + (!info.fInTried).toNat = s.nNew + k + (!info'.fInTried).toNat) :
    Sound env a limbo' k' { s with mapInfo := s.mapInfo.insert id info', vvTried, nTried, vvNew, nNew } where
  id_range := by
    have := h.id_range
    grind
  addr_of_id := by
    have := h.addr_of_id
    grind [CAddrInfo.ip]
  id_of_addr := by
    have := h.id_of_addr
    grind [CAddrInfo.ip]
  timed := by
    have := h.timed
    grind
  tried_mem slot hslot := by
    dsimp only at hslot ⊢
    by_cases hne : vvTried slot = id
    · exact ⟨info', by rw [hne, AList.lookup_insert], (htriedId slot).1 hne⟩
    · have hold := (htried slot _ hne hslot).1 rfl
      rw [AList.lookup_insert_ne hne, ← hold]
      exact h.tried_mem slot (hold ▸ hslot)
  tried_slot id' info1 hid' ht := by
    rcases KeyMap.lookup_insert_cases hid' with ⟨rfl, rfl⟩ | ⟨hne, hid'⟩
    · exact (htriedId _).2 ⟨ht, rfl⟩
    · exact (htried _ _ hne (h.id_ne hid')).2 (h.tried_slot _ _ hid' ht)
  new_mem slot hslot := by
    dsimp only at hslot ⊢
    by_cases hne : vvNew slot = id
    · exact ⟨info', by rw [hne, AList.lookup_insert], hnewId slot hne⟩
    · have hold := (hnew slot _ hne hslot).1 rfl
      rw [AList.lookup_insert_ne hne, ← hold]
      exact h.new_mem slot (hold ▸ hslot)
  refs id' info1 hid' := by
    rcases KeyMap.lookup_insert_cases hid' with ⟨rfl, rfl⟩ | ⟨hne, hid'⟩
    · exact hrefs
    · rw [← h.refs _ _ hid']
      exact congrArg _ (occurrences_congr fun slot => hnew slot id' hne (h.id_ne hid'))
  bound := by
    have := h.bound
    grind
  countTried := by
    have hcount := KeyMap.count_insert_some (fun info : CAddrInfo => info.fInTried) hid info'
    have hold := h.countTried
    dsimp only at hcount ⊢
    omega
  countNew := by
    have hcount := KeyMap.count_insert_some (fun info : CAddrInfo => !info.fInTried) hid info'
    have hold := h.countNew
    dsimp only at hcount ⊢
    omega

theorem Sound.tried_iff (slot : TriedSlot) :
    s.vvTried slot = id ↔ info.fInTried = true ∧ env.triedSlot s.nKey info.addr.service = slot := by
  constructor
  · intro hslot
    obtain ⟨info1, hinfo1, hrest⟩ := h.tried_mem slot (hslot ▸ h.id_ne hid)
    rw [hslot, hid] at hinfo1
    obtain rfl := Option.some.inj hinfo1
    exact hrest
  · rintro ⟨ht, rfl⟩
    exact h.tried_slot id info hid ht

theorem Sound.new_of_slot {slot : NewSlot} (hslot : s.vvNew slot = id) :
    info.fInTried = false ∧ env.newSlotIn s.nKey info.addr.service slot.1 = slot := by
  obtain ⟨info1, hinfo1, hrest⟩ := h.new_mem slot (hslot ▸ h.id_ne hid)
  rw [hslot, hid] at hinfo1
  obtain rfl := Option.some.inj hinfo1
  exact hrest

theorem Sound.tried_not_in_new (ht : info.fInTried = true) (slot : NewSlot) : s.vvNew slot ≠ id := by
  intro hslot
  have hnew := (h.new_of_slot hid hslot).1
  rw [ht] at hnew
  cases hnew

theorem Sound.replace (info' : CAddrInfo) (hserv : info'.addr.service = info.addr.service)
    (htried : info'.fInTried = info.fInTried) (hrefs : info'.nRefCount = info.nRefCount) (htimed : Timed a info') :
    Sound env a limbo k { s with mapInfo := s.mapInfo.insert id info' } := by
  refine h.update hid info' hserv htimed (fun _ _ _ _ => Iff.rfl) (fun slot => ?_) (fun _ _ _ _ => Iff.rfl) (fun slot hslot => ?_)
    (hrefs ▸ h.refs id info hid) (fun hnew => ?_) (fun _ _ hin => hin) (by rw [htried]) (by rw [htried])
  · rw [htried, hserv]
    exact h.tried_iff hid slot
  · rw [htried, hserv]
    exact h.new_of_slot hid hslot
  · rw [hrefs]
    exact h.bound id info hid (htried ▸ hnew)

private theorem Sound.erase (hnew : info.fInTried = false) (hrefs : info.nRefCount = 0) {vRandom : List Int} :
    Sound env a (fun id' => limbo id' ∧ id' ≠ id) k { s with
      vRandom
      mapAddr := s.mapAddr.erase info.ip
      mapInfo := s.mapInfo.erase id
      nNew := s.nNew - 1 } where
  id_range := by
    have := h.id_range
    grind
  addr_of_id := by
    have := h.addr_of_id
    grind
  id_of_addr := by
    have := h.id_of_addr
    grind
  timed := by
    have := h.timed
    grind
  tried_mem := by
    have := h.tried_mem
    grind
  tried_slot := by
    have := h.tried_slot
    grind
  new_mem := by
    have := h.new_mem
    have := h.not_in_new hid hrefs
    grind
  refs := by
    have := h.refs
    grind
  bound := by
    have := h.bound
    grind
  countTried := by
    have hcount := KeyMap.count_erase (fun info : CAddrInfo => info.fInTried) hid
    have hold := h.countTried
    rw [hnew] at hcount
    dsimp only [Bool.toNat_false] at hcount ⊢
    omega
  countNew := by
    have hcount := KeyMap.count_erase (fun info : CAddrInfo => !info.fInTried) hid
    have hold := h.countNew
    rw [hnew] at hcount
    simp only [Bool.not_false, Bool.toNat_true] at hcount ⊢
    omega

theorem Sound.dropRef {slot : NewSlot} (hslot : s.vvNew slot = id) (hlimbo : ∀ id', limbo id' → limbo' id') (hin : limbo' id) :
    Sound env a limbo' k (s.unref id info slot) := by
  have hne := h.id_ne hid
  have hcount : occurrences (Function.update s.vvNew slot (-1)) id + 1 = occurrences s.vvNew id := by
    rw [← hslot]
    exact occurrences_update_old (by rw [hslot]; exact Ne.symm hne)
  have hrefs := h.refs id info hid
  have htried := h.tried_iff hid
  obtain ⟨hnew, -⟩ := h.new_of_slot hid hslot
  refine h.update hid { info with nRefCount := info.nRefCount - 1 } rfl ((h.timed _ _ hid).same rfl rfl rfl rfl)
    (fun _ _ _ _ => Iff.rfl) htried (fun slot' id' hne' hne'' => ?_) (fun slot' hslot' => ?_) ?_ (fun _ => ?_)
    (fun id' _ => hlimbo id') rfl rfl
  · grind
  · exact h.new_of_slot hid (by grind)
  · dsimp only
    omega
  · have hbound := (h.bound id info hid hnew).1
    refine ⟨?_, fun hout => absurd hin hout⟩
    dsimp only
    omega

theorem Sound.addRef {slot : NewSlot} {nNew nRefCount : Int} (hnew : info.fInTried = false) (hempty : s.vvNew slot = -1)
    (hslot : env.newSlotIn s.nKey info.addr.service slot.1 = slot) (hlt : info.nRefCount < ADDRMAN_NEW_BUCKETS_PER_ADDRESS)
    (hcnt : nRefCount = info.nRefCount + 1) (hlimbo : ∀ id', id' ≠ id → limbo id' → limbo' id')
    (hnNew : nNew + k' = s.nNew + k) :
    Sound env a limbo' k' { s with
      mapInfo := s.mapInfo.insert id { info with nRefCount }
      vvNew := Function.update s.vvNew slot id
      nNew } := by
  have hne := h.id_ne hid
  have hcount : occurrences (Function.update s.vvNew slot id) id = occurrences s.vvNew id + 1 :=
    occurrences_update_self (by rw [hempty]; exact Ne.symm hne)
  have hrefs := h.refs id info hid
  have htried := h.tried_iff hid
  refine h.update hid { info with nRefCount } rfl ((h.timed _ _ hid).same rfl rfl rfl rfl) (fun _ _ _ _ => Iff.rfl)
    htried (fun slot' id' hne' hne'' => ?_) (fun slot' hslot' => ?_) ?_ (fun _ => ?_) hlimbo rfl ?_
  · grind
  · by_cases heq : slot' = slot
    · subst heq
      exact ⟨hnew, hslot⟩
    · exact h.new_of_slot hid (by grind)
  · dsimp only
    omega
  · dsimp only
    omega
  · dsimp only
    omega

theorem Sound.untry {slot : TriedSlot} (hslot : s.vvTried slot = id) (hlimbo : ∀ id', limbo id' → limbo' id')
    (hin : limbo' id) : Sound env a limbo' (k + 1) (s.untried id info slot) := by
  have hne := h.id_ne hid
  obtain ⟨ht, hown⟩ := (h.tried_iff hid slot).1 hslot
  have hout := h.tried_not_in_new hid ht
  have hzero := occurrences_eq_zero.2 hout
  have hrefs := h.refs id info hid
  refine h.update hid { info with fInTried := false } rfl ?_ (fun slot' id' hne' hne'' => ?_) (fun slot' => ?_)
    (fun _ _ _ _ => Iff.rfl) (fun slot' hslot' => absurd hslot' (hout slot')) hrefs (fun _ => ?_) (fun id' _ => hlimbo id')
    ?_ ?_
  · obtain ⟨h1, h2, -, h4⟩ := h.timed id info hid
    exact ⟨h1, h2, fun h => absurd h Bool.false_ne_true, h4⟩
  · grind
  · grind [h.tried_iff hid slot']
  · refine ⟨?_, fun hout => absurd hin hout⟩
    dsimp only [ADDRMAN_NEW_BUCKETS_PER_ADDRESS]
    omega
  · rw [ht, Bool.toNat_true, Bool.toNat_false]
    omega
  · rw [ht, Bool.not_true, Bool.not_false, Bool.toNat_true, Bool.toNat_false]
    omega

theorem Sound.enter {slot : TriedSlot} (hnew : info.fInTried = false) (hrefs : info.nRefCount = 0)
    (hempty : s.vvTried slot = -1) (hslot : env.triedSlot s.nKey info.addr.service = slot) (htime : info.nLastSuccess ≠ 0)
    (hlimbo : ∀ id', id' ≠ id → limbo id' → limbo' id') :
    Sound env a limbo' (k - 1) { s with
      mapInfo := s.mapInfo.insert id { info with fInTried := true }
      vvTried := Function.update s.vvTried slot id
      nTried := s.nTried + 1 } := by
  have hne := h.id_ne hid
  refine h.update hid { info with fInTried := true } rfl ?_ (fun slot' id' hne' hne'' => ?_) (fun slot' => ?_)
    (fun _ _ _ _ => Iff.rfl) (fun slot' hslot' => absurd hslot' (h.not_in_new hid hrefs slot')) (h.refs id info hid)
    (fun hfalse => absurd hfalse.symm Bool.false_ne_true) hlimbo ?_ ?_
  · obtain ⟨h1, h2, -, h4⟩ := h.timed id info hid
    exact ⟨h1, h2, fun _ => htime, h4⟩
  · grind
  · grind [h.tried_iff hid slot']
  · rw [hnew, Bool.toNat_true, Bool.toNat_false]
    omega
  · rw [hnew, Bool.not_true, Bool.not_false, Bool.toNat_true, Bool.toNat_false]
    omega

end

/-! ### The steps -/

theorem Shuffled.replace (h : Shuffled s) (hid : s.mapInfo.lookup id = some info) (info' : CAddrInfo)
    (hpos : info'.nRandomPos = info.nRandomPos) {vvTried : TriedSlot → Int} {vvNew : NewSlot → Int} {nTried nNew : Int} :
    Shuffled { s with mapInfo := s.mapInfo.insert id info', vvTried, nTried, vvNew, nNew } where
  pos_of_id := by
    have := h.pos_of_id
    grind
  id_of_pos := by
    have := h.id_of_pos
    grind
  length := by
    rw [KeyMap.length_insert_some hid]
    exact h.length
  length_le := h.length_le
  idCount_lt := h.idCount_lt

private theorem Shuffled.swap (hs : Shuffled s) {n1 n2 : Nat} {id1 id2 : Int} {info1 info2 : CAddrInfo} (hne : n1 ≠ n2)
    (h1 : s.vRandom[n1]? = some id1) (h2 : s.vRandom[n2]? = some id2) (hid1 : s.mapInfo.lookup id1 = some info1)
    (hid2 : s.mapInfo.lookup id2 = some info2) (hids : id1 ≠ id2) :
    Shuffled { s with
      mapInfo := (s.mapInfo.insert id1 { info1 with nRandomPos := n2 }).insert id2 { info2 with nRandomPos := n1 }
      vRandom := (s.vRandom.set n1 id2).set n2 id1 } := by
  have hswap : ∀ n : Nat, ((s.vRandom.set n1 id2).set n2 id1)[n]? =
      if n = n2 then some id1 else if n = n1 then some id2 else s.vRandom[n]? := by grind
  -- a position and its id determine each other
  have hown : ∀ (n : Nat) id info, s.vRandom[n]? = some id → s.mapInfo.lookup id = some info → info.nRandomPos = n := by
    intro n id info hn hid
    have := hs.id_of_pos n id hn
    grind
  refine ⟨fun id info hid => ?_, fun n id hn => ?_, ?_, ?_, hs.idCount_lt⟩
  · rcases KeyMap.lookup_insert_cases hid with ⟨rfl, rfl⟩ | ⟨hne2, hid⟩
    · exact ⟨n1, rfl, by rw [hswap, if_neg hne, if_pos rfl]⟩
    · rcases KeyMap.lookup_insert_cases hid with ⟨rfl, rfl⟩ | ⟨hne1, hid⟩
      · exact ⟨n2, rfl, by rw [hswap, if_pos rfl]⟩
      · obtain ⟨n, hpos, hn⟩ := hs.pos_of_id id info hid
        exact ⟨n, hpos, by grind⟩
  · rw [hswap] at hn
    by_cases hn2 : n = n2
    · exact ⟨{ info1 with nRandomPos := n2 }, by grind, by grind⟩
    · by_cases hn1 : n = n1
      · exact ⟨{ info2 with nRandomPos := n1 }, by grind, by grind⟩
      · rw [if_neg hn2, if_neg hn1] at hn
        obtain ⟨info, hid, hpos⟩ := hs.id_of_pos n id hn
        exact ⟨info, by grind [hown n1 id info, hown n2 id info], hpos⟩
  · rw [length_set, length_set, KeyMap.length_insert_some (by grind : _ = some info2), KeyMap.length_insert_some hid1]
    exact hs.length
  · rw [length_set, length_set]
    exact hs.length_le

private theorem Shuffled.dropLast (hs : Shuffled s) (hid : s.mapInfo.lookup id = some info)
    (hlast : s.vRandom[s.vRandom.length - 1]? = some id) {mapAddr : KeyMap CNetAddr Int} {nNew : Int} :
    Shuffled { s with
      vRandom := s.vRandom.dropLast
      mapAddr
      mapInfo := s.mapInfo.erase id
      nNew } where
  pos_of_id := by
    have := hs.pos_of_id
    grind
  id_of_pos n id' hn := by
    obtain ⟨info', hid', hpos⟩ := hs.id_of_pos n id' (by grind)
    obtain ⟨info1, hid1, hpos1⟩ := hs.id_of_pos _ id hlast
    exact ⟨info', by grind, hpos⟩
  length := by
    have hcount := KeyMap.length_erase hid
    have hold := hs.length
    rw [length_dropLast]
    dsimp only
    omega
  length_le := by
    have hold := hs.length_le
    rw [length_dropLast]
    dsimp only
    omega
  idCount_lt := hs.idCount_lt

section

variable (h : Sound env a limbo k s) (hs : Shuffled s)
include h hs

theorem swapRandom_spec {n1 n2 : Nat} (h1 : n1 < s.vRandom.length) (h2 : n2 < s.vRandom.length) :
    ∃ s', s.swapRandom n1 n2 = .ok s' ∧ Sound env a limbo k s' ∧ Shuffled s' ∧
      Keeps (fun _ => False) s s' ∧ s'.vvNew = s.vvNew ∧ s'.vRandom.length = s.vRandom.length ∧
      s'.vRandom[n2]? = s.vRandom[n1]? := by
  by_cases hne : n1 = n2
  · subst hne
    exact ⟨s, if_pos rfl, h, hs, ⟨rfl, rfl, rfl, fun id info _ hid => ⟨info.nRandomPos, hid⟩⟩, rfl, rfl, rfl⟩
  have hn1 := getElem?_eq_getElem h1
  have hn2 := getElem?_eq_getElem h2
  generalize s.vRandom[n1] = id1 at hn1
  generalize s.vRandom[n2] = id2 at hn2
  obtain ⟨info1, hid1, hpos1⟩ := hs.id_of_pos n1 id1 hn1
  obtain ⟨info2, hid2, hpos2⟩ := hs.id_of_pos n2 id2 hn2
  have hids : id1 ≠ id2 := by
    rintro rfl
    rw [hid1] at hid2
    obtain rfl := Option.some.inj hid2
    omega
  have hid2' : (s.mapInfo.insert id1 { info1 with nRandomPos := n2 }).lookup id2 = some info2 := by
    rw [AList.lookup_insert_ne (Ne.symm hids)]
    exact hid2
  have hrun : s.swapRandom n1 n2 = .ok { s with
      mapInfo := (s.mapInfo.insert id1 { info1 with nRandomPos := n2 }).insert id2 { info2 with nRandomPos := n1 }
      vRandom := (s.vRandom.set n1 id2).set n2 id1 } := by
    unfold swapRandom
    rw [if_neg hne, hn1, hn2]
    simp only [hid1, hid2, Option.isNone_some, Bool.false_eq_true, if_false, setInfo, CAddrMan.info, Option.getD_some, hid2']
  have hlast : ((s.vRandom.set n1 id2).set n2 id1)[n2]? = s.vRandom[n1]? := by
    grind
  refine ⟨_, hrun, ?_, hs.swap hne hn1 hn2 hid1 hid2 hids, ⟨rfl, rfl, rfl, ?_⟩, rfl, ?_, hlast⟩
  · have hfirst := h.replace hid1 { info1 with nRandomPos := n2 } rfl rfl rfl ((h.timed _ _ hid1).same rfl rfl rfl rfl)
    have hsnd := hfirst.replace hid2' { info2 with nRandomPos := n1 } rfl rfl rfl ((h.timed _ _ hid2).same rfl rfl rfl rfl)
    exact hsnd.recount rfl
  · intro id info _ hid
    by_cases hid2' : id = id2
    · exact ⟨n1, by grind⟩
    · by_cases hid1' : id = id1
      · exact ⟨n2, by grind⟩
      · exact ⟨info.nRandomPos, by rw [AList.lookup_insert_ne hid2', AList.lookup_insert_ne hid1']; exact hid⟩
  · exact (length_set ..).trans (length_set ..)

theorem delete_spec (hid : s.mapInfo.lookup id = some info) (hnew : info.fInTried = false) (hrefs : info.nRefCount = 0) :
    ∃ s', s.delete id = .ok s' ∧ Sound env a (fun id' => limbo id' ∧ id' ≠ id) k s' ∧ Shuffled s' ∧
      Keeps (fun id' => id' = id) s s' ∧ s'.vvNew = s.vvNew := by
  obtain ⟨n, hpos, hn⟩ := hs.pos_of_id id info hid
  have hlt : n < s.vRandom.length := (List.getElem?_eq_some_iff.1 hn).1
  have hle := hs.length_le
  have hcount := hs.idCount_lt
  have hfirst : (info.nRandomPos % 2 ^ 32).toNat = n := by
    rw [hpos]
    omega
  have hsnd : (s.vRandom.length + (2 ^ 32 - 1)) % 2 ^ 32 = s.vRandom.length - 1 := by omega
  obtain ⟨s1, hrun, h1, hs1, hkeeps, hvvNew, hlen, hlast⟩ := swapRandom_spec h hs hlt
    (show s.vRandom.length - 1 < s.vRandom.length by omega)
  obtain ⟨m, hid1⟩ := hkeeps.records id info not_false hid
  have hdelete : s.delete id = .ok { s1 with
      vRandom := s1.vRandom.dropLast
      mapAddr := s1.mapAddr.erase info.ip
      mapInfo := s1.mapInfo.erase id
      nNew := s1.nNew - 1 } := by
    unfold delete
    rw [hid]
    dsimp only
    rw [hnew, if_neg Bool.false_ne_true, if_neg (not_not.2 hrefs), remove, hfirst, hsnd, hrun]
    rfl
  refine ⟨_, hdelete, h1.erase hid1 hnew hrefs, hs1.dropLast hid1 (by rw [hlen, hlast, hn]), ?_, hvvNew⟩
  refine ⟨hkeeps.nIdCount, hkeeps.nKey, hkeeps.vvTried, fun id' info' hne hid' => ?_⟩
  obtain ⟨m', hid'⟩ := hkeeps.records id' info' not_false hid'
  exact ⟨m', KeyMap.lookup_erase_some.2 ⟨hne, hid'⟩⟩

theorem clearNew_spec (slot : NewSlot) :
    ∃ s', s.clearNew slot = .ok s' ∧ Sound env a limbo k s' ∧ Shuffled s' ∧ Keeps (fun id => id = s.vvNew slot) s s' ∧
      s'.vvNew = Function.update s.vvNew slot (-1) := by
  by_cases hempty : s.vvNew slot = -1
  · refine ⟨s, if_pos hempty, h, hs, ⟨rfl, rfl, rfl, fun id info _ hid => ⟨info.nRandomPos, hid⟩⟩, ?_⟩
    rw [← hempty, Function.update_eq_self]
  obtain ⟨info, hid, hnew, -⟩ := h.new_mem slot hempty
  generalize hold : s.vvNew slot = id at hempty hid ⊢
  have hpos : 0 < occurrences s.vvNew id := occurrences_pos.2 ⟨slot, hold⟩
  have hrefs := h.refs id info hid
  have hdrop : Sound env a (fun id' => limbo id' ∨ id' = id) k (s.unref id info slot) :=
    h.dropRef hid hold (fun _ => .inl) (.inr rfl)
  have hsdrop : Shuffled (s.unref id info slot) := hs.replace hid _ (by rfl)
  have hlook : (s.unref id info slot).mapInfo.lookup id = some { info with nRefCount := info.nRefCount - 1 } :=
    AList.lookup_insert _
  have hrun : s.clearNew slot =
      if info.nRefCount - 1 = 0 then (s.unref id info slot).delete id else .ok (s.unref id info slot) := by
    unfold clearNew
    rw [unref] at hlook ⊢
    rw [hold, if_neg hempty]
    simp only [setInfo, setNew, CAddrMan.info, hid, Option.getD_some, hlook]
    rw [if_neg (not_not.2 (by omega))]
  have hkeeps : Keeps (fun id' => id' = id) s (s.unref id info slot) := by
    refine ⟨rfl, rfl, rfl, fun id' info' hne hid' => ⟨info'.nRandomPos, ?_⟩⟩
    exact (AList.lookup_insert_ne hne).trans hid'
  rw [hrun]
  by_cases hzero : info.nRefCount - 1 = 0
  · rw [if_pos hzero]
    obtain ⟨s', hdelete, hs'⟩ := delete_spec hdrop hsdrop hlook hnew hzero
    obtain ⟨h', hshuffled, hkeeps', hvvNew⟩ := hs'
    refine ⟨s', hdelete, h'.mono ?_, hshuffled, ?_, hvvNew⟩
    · rintro id' - - - ⟨hin | heq, hne⟩
      · exact .inl hin
      · exact absurd heq hne
    · refine ⟨hkeeps'.nIdCount, hkeeps'.nKey, hkeeps'.vvTried, fun id' info' hne hid' => ?_⟩
      obtain ⟨n, hn⟩ := hkeeps.records id' info' hne hid'
      obtain ⟨m, hm⟩ := hkeeps'.records id' _ hne hn
      exact ⟨m, hm⟩
  · rw [if_neg hzero]
    refine ⟨_, rfl, hdrop.mono ?_, hsdrop, hkeeps, rfl⟩
    rintro id' info' hid' - (hin | rfl)
    · exact .inl hin
    · rw [hlook] at hid'
      obtain rfl := Option.some.inj hid'
      dsimp only
      omega

private theorem clearBuckets_spec (hid : s.mapInfo.lookup id = some info) (hlimbo : limbo id)
    {buckets : List (Fin ADDRMAN_NEW_BUCKET_COUNT)} {s' : CAddrMan} (hrun : buckets.foldl (clearBucket env id) s = s') :
    ∃ c, Sound env a limbo k s' ∧ Shuffled s' ∧ s'.mapInfo.lookup id = some { info with nRefCount := c } ∧
      s'.nIdCount = s.nIdCount ∧ s'.nKey = s.nKey ∧ ∀ slot, s'.vvNew slot = id → s.vvNew slot = id ∧ slot.1 ∉ buckets := by
  induction buckets generalizing s info with
  | nil =>
    cases hrun
    exact ⟨info.nRefCount, h, hs, hid, rfl, rfl, fun slot hslot => ⟨hslot, not_mem_nil⟩⟩
  | cons bucket buckets ih =>
    rw [foldl_cons] at hrun
    by_cases hslot : s.vvNew (env.newSlotIn s.nKey info.addr.service bucket) = id
    · have hstep : clearBucket env id s bucket = s.unref id info (env.newSlotIn s.nKey info.addr.service bucket) := by
        unfold clearBucket unref
        simp only [info_of_lookup hid]
        rw [if_pos hslot]
        simp only [setInfo, setNew, CAddrMan.info, hid, Option.getD_some]
      rw [hstep] at hrun
      obtain ⟨c, h', hs', hid', hcount, hkey, hslots⟩ := ih (h.dropRef hid hslot (fun _ hin => hin) hlimbo)
        (hs.replace hid _ (by rfl)) (AList.lookup_insert _) hrun
      refine ⟨c, h', hs', hid', hcount, hkey, fun slot hin => ?_⟩
      obtain ⟨hold, hout⟩ := hslots slot hin
      dsimp only [unref] at hold
      have hne : slot ≠ env.newSlotIn s.nKey info.addr.service bucket := by
        rintro rfl
        rw [Function.update_self] at hold
        exact h.id_ne hid hold.symm
      rw [Function.update_of_ne hne] at hold
      refine ⟨hold, fun hmem => ?_⟩
      rcases mem_cons.1 hmem with rfl | hmem
      · exact hne (h.new_of_slot hid hold).2.symm
      · exact hout hmem
    · have hstep : clearBucket env id s bucket = s := by
        unfold clearBucket
        simp only [info_of_lookup hid]
        rw [if_neg hslot]
      rw [hstep] at hrun
      obtain ⟨c, h', hs', hid', hcount, hkey, hslots⟩ := ih h hs hid hrun
      refine ⟨c, h', hs', hid', hcount, hkey, fun slot hin => ?_⟩
      obtain ⟨hold, hout⟩ := hslots slot hin
      refine ⟨hold, fun hmem => ?_⟩
      rcases mem_cons.1 hmem with rfl | hmem
      · rw [(h.new_of_slot hid hold).2] at hslot
        exact hslot hold
      · exact hout hmem

private theorem evict_spec (slot : TriedSlot) :
    ∃ s', s.evict env slot = .ok s' ∧ Sound env a limbo k s' ∧ Shuffled s' ∧ s'.vvTried slot = -1 ∧
      s'.nIdCount = s.nIdCount ∧ s'.nKey = s.nKey ∧
      ∀ id info, s.mapInfo.lookup id = some info → info.fInTried = false → info.nRefCount = 0 →
        ∃ n, s'.mapInfo.lookup id = some { info with nRandomPos := n } := by
  by_cases hempty : s.vvTried slot = -1
  · exact ⟨s, if_pos hempty, h, hs, hempty, rfl, rfl, fun id info hid _ _ => ⟨info.nRandomPos, hid⟩⟩
  obtain ⟨old, hold, htried, hslot⟩ := h.tried_mem slot hempty
  generalize hid : s.vvTried slot = id at hempty hold
  have hout := h.tried_not_in_new hold htried
  have hzero := occurrences_eq_zero.2 hout
  have hrefs := h.refs id old hold
  have huntry : Sound env a (fun id' => limbo id' ∨ id' = id) (k + 1) (s.untried id old slot) :=
    h.untry hold hid (fun _ => .inl) (.inr rfl)
  have hsuntry : Shuffled (s.untried id old slot) := hs.replace hold _ (by rfl)
  obtain ⟨s1, hclear, h1, hs1, hkeeps, hvvNew⟩ := clearNew_spec huntry hsuntry (env.newSlot s.nKey old.addr.service old.source)
  obtain ⟨n, hold1⟩ := hkeeps.records id _ (Ne.symm (hout _)) (AList.lookup_insert _)
  have hempty1 : s1.vvNew (env.newSlot s.nKey old.addr.service old.source) = -1 := by
    rw [hvvNew, Function.update_self]
  have hrun : s.evict env slot = .ok { s1 with
      mapInfo := s1.mapInfo.insert id { old with fInTried := false, nRandomPos := n, nRefCount := 1 }
      vvNew := Function.update s1.vvNew (env.newSlot s.nKey old.addr.service old.source) id
      nNew := s1.nNew + 1 } := by
    unfold evict reenter
    rw [hid, if_neg hempty, hold]
    simp only [setInfo, setTried, CAddrMan.info, hold, Option.getD_some]
    rw [untried] at hclear
    rw [hclear]
    change (if s1.vvNew _ ≠ -1 then _ else _) = _
    rw [if_neg (not_not.2 hempty1)]
    simp only [setNew, hold1, Option.getD_some]
    rfl
  refine ⟨_, hrun, ?_, hs1.replace hold1 _ (by rfl), ?_, hkeeps.nIdCount, hkeeps.nKey, fun id' info' hid' hnew' hrefs' => ?_⟩
  · refine h1.addRef hold1 rfl hempty1 ?_ ?_ ?_ ?_ ?_
    · rw [hkeeps.nKey]
      rfl
    · dsimp only [ADDRMAN_NEW_BUCKETS_PER_ADDRESS]
      omega
    · dsimp only
      omega
    · rintro id' hne (hin | heq)
      · exact hin
      · exact absurd heq hne
    · omega
  · refine (congrFun hkeeps.vvTried slot).trans ?_
    exact Function.update_self ..
  · have hne : id' ≠ id := by
      rintro rfl
      rw [hold] at hid'
      obtain rfl := Option.some.inj hid'
      rw [htried] at hnew'
      cases hnew'
    obtain ⟨m, hm⟩ := hkeeps.records id' info' (Ne.symm (h.not_in_new hid' hrefs' _))
      ((AList.lookup_insert_ne hne).trans hid')
    exact ⟨m, (AList.lookup_insert_ne hne).trans hm⟩

end

private theorem enterTried_spec (h : Sound env a (fun id' => id' = id) 1 s) (hs : Shuffled s)
    (hid : s.mapInfo.lookup id = some info) (hnew : info.fInTried = false) (hrefs : info.nRefCount = 0)
    (htime : info.nLastSuccess ≠ 0) :
    ∃ s', s.enterTried env id = .ok s' ∧ Sound env a (fun _ => False) 0 s' ∧ Shuffled s' ∧ s'.nIdCount = s.nIdCount ∧
      s'.nKey = s.nKey := by
  obtain ⟨s1, hevict, h1, hs1, hempty, hcount, hkey, hrecs⟩ := evict_spec h hs (env.triedSlot s.nKey info.addr.service)
  obtain ⟨n, hid1⟩ := hrecs id info hid hnew hrefs
  have hrun : s.enterTried env id = .ok { s1 with
      mapInfo := s1.mapInfo.insert id { info with nRandomPos := n, fInTried := true }
      vvTried := Function.update s1.vvTried (env.triedSlot s.nKey info.addr.service) id
      nTried := s1.nTried + 1 } := by
    unfold enterTried
    rw [info_of_lookup hid, if_neg (not_not.2 hrefs)]
    dsimp only
    rw [hevict]
    change (if s1.vvTried _ ≠ -1 then _ else _) = _
    rw [if_neg (not_not.2 hempty)]
    simp only [setInfo, setTried, CAddrMan.info, hid1, Option.getD_some]
    rfl
  refine ⟨_, hrun, ?_, hs1.replace hid1 _ (by rfl), hcount, hkey⟩
  refine h1.enter hid1 hnew hrefs hempty ?_ htime fun id' hne heq => hne heq
  rw [hkey]

theorem makeTried_spec (h : Sound env a (fun _ => False) 0 s) (hs : Shuffled s) (hid : s.mapInfo.lookup id = some info)
    (hnew : info.fInTried = false) (htime : info.nLastSuccess ≠ 0) :
    ∃ s', s.makeTried env id = .ok s' ∧ Sound env a (fun _ => False) 0 s' ∧ Shuffled s' ∧ s'.nIdCount = s.nIdCount ∧
      s'.nKey = s.nKey := by
  have h0 : Sound env a (fun id' => id' = id) 0 s := h.mono fun _ _ _ _ hin => hin.elim
  generalize hclr : (List.finRange ADDRMAN_NEW_BUCKET_COUNT).foldl (clearBucket env id) s = s1
  obtain ⟨c, h1, hs1, hid1, hcount, hkey, hslots⟩ := clearBuckets_spec h0 hs hid rfl hclr
  have hzero : occurrences s1.vvNew id = 0 :=
    occurrences_eq_zero.2 fun slot hslot => (hslots slot hslot).2 (mem_finRange _)
  have hrefs := h1.refs id _ hid1
  have hc : c = 0 := by
    dsimp only at hrefs
    omega
  have h2 : Sound env a (fun id' => id' = id) 1 { s1 with nNew := s1.nNew - 1 } := h1.recount (by omega)
  have hs2 : Shuffled { s1 with nNew := s1.nNew - 1 } :=
    ⟨hs1.pos_of_id, hs1.id_of_pos, hs1.length, hs1.length_le, hs1.idCount_lt⟩
  obtain ⟨s', hrun, h', hs', hcount', hkey'⟩ := enterTried_spec h2 hs2 hid1 hnew hc htime
  refine ⟨s', ?_, h', hs', hcount'.trans hcount, hkey'.trans hkey⟩
  unfold makeTried
  rw [hclr]
  exact hrun

end CAddrMan

end LitecoinZ
