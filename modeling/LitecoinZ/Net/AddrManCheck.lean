import LitecoinZ.Lib.Table
import LitecoinZ.Lib.Triple
import LitecoinZ.Net.AddrMan

/-!
# What the check of the address manager says

`Check_` copies the ids into `setTried` and `mapNew` and checks them off against the slots of the tables.  It returns 0 exactly
if the records, the counters and the tables agree with each other (`check_eq_zero`).
-/

namespace LitecoinZ

open Table StateExcept List

namespace CAddrMan

variable {env : AddrManEnv} {s : CAddrMan}

variable {id code : Int} {x : Except Int Unit} {β ι : Type} {m : KeyMap Int β} {table : ι → Int}

private theorem mem_entries {b : β} : (⟨id, b⟩ : Sigma fun _ : Int => β) ∈ m.entries ↔
    m.lookup id = some b := AList.mem_lookup_iff.symm

theorem ascending_perm (m : KeyMap Int β) : (ascending m).Perm (m.entries.map fun e => (e.1, e.2)) :=
  mergeSort_perm _ _

theorem mem_ascending {e : Int × β} : e ∈ ascending m ↔ m.lookup e.1 = some e.2 := by
  rw [(ascending_perm m).mem_iff, mem_map]
  constructor
  · rintro ⟨e', he', rfl⟩
    exact mem_entries.1 he'
  · intro he
    exact ⟨⟨e.1, e.2⟩, mem_entries.2 he, rfl⟩

theorem ascending_keys_nodup (m : KeyMap Int β) : ((ascending m).map Prod.fst).Nodup := by
  rw [((ascending_perm m).map Prod.fst).nodup_iff, map_map]
  exact m.nodupKeys

theorem length_filter_ascending (p : β → Bool) (m : KeyMap Int β) :
    ((ascending m).filter fun e => p e.2).length = m.count p := by
  rw [((ascending_perm m).filter fun e => p e.2).length_eq, filter_map, length_map]
  rfl

private theorem keys_filter_nodup (p : Int × β → Bool) (m : KeyMap Int β) :
    (((ascending m).filter p).map Prod.fst).Nodup :=
  (ascending_keys_nodup m).sublist (filter_sublist.map _)

/-- What `Check_` says of a record. -/
structure CheckedInfo (s : CAddrMan) (id : Int) (info : CAddrInfo) : Prop where
  tried : info.fInTried = true → info.nLastSuccess ≠ 0 ∧ info.nRefCount = 0
  new : info.fInTried = false → 1 ≤ info.nRefCount ∧ info.nRefCount ≤ ADDRMAN_NEW_BUCKETS_PER_ADDRESS
  addr : (s.mapAddr.lookup info.ip).getD 0 = id
  random : 0 ≤ info.nRandomPos ∧ s.vRandom[info.nRandomPos.toNat]? = some id
  lastTry : 0 ≤ info.nLastTry
  lastSuccess : 0 ≤ info.nLastSuccess

private theorem ite_error {c : Prop} [Decidable c] :
    (if c then .error code else x) = .ok () ↔ ¬ c ∧ x = .ok () := by
  by_cases hc : c
  · simp [hc]
  · simp [hc]

theorem checkInfo_ok {info : CAddrInfo} : s.checkInfo id info = .ok () ↔ s.CheckedInfo id info := by
  unfold checkInfo
  simp only [ite_error, and_true]
  constructor
  · rintro ⟨h1, h2, h3, h4, h5, h6, h7, h8⟩
    simp only [Bool.and_eq_true, Bool.or_eq_true, decide_eq_true_eq, Bool.not_eq_true', not_and, not_or, not_lt,
      ne_eq, not_not] at h1 h2 h3 h4 h5 h6 h7 h8
    refine ⟨fun h => ⟨h1 h, h2 h⟩, fun h => ⟨?_, (h3 h).2⟩, h5, h6, h7, h8⟩
    have := h3 h
    have := h4 h
    omega
  · intro h
    simp only [Bool.and_eq_true, Bool.or_eq_true, decide_eq_true_eq, Bool.not_eq_true', not_and, not_or, not_lt,
      ne_eq, not_not]
    refine ⟨fun ht => (h.tried ht).1, fun ht => (h.tried ht).2, fun hn => ?_, fun hn => ?_, h.addr, h.random, h.lastTry,
      h.lastSuccess⟩
    · have := h.new hn
      exact ⟨by omega, this.2⟩
    · have := h.new hn
      omega

/-! ### The tables -/

theorem info_of_lookup {info : CAddrInfo} (h : s.mapInfo.lookup id = some info) : s.info id = info := by
  rw [CAddrMan.info, h]
  rfl

private theorem checkTriedSlot_ok {slot : TriedSlot} : checkTriedSlot env s slot id = .ok () ↔
    env.triedSlot s.nKey (s.info id).addr.service = slot := by
  unfold checkTriedSlot
  simp only [ite_error, and_true, ne_eq, not_not]
  constructor
  · rintro ⟨hbucket, hpos⟩
    rw [AddrManEnv.triedSlot, hbucket, hpos]
  · rintro rfl
    exact ⟨rfl, rfl⟩

private theorem checkNewSlot_ok {slot : NewSlot} : checkNewSlot env s slot id = .ok () ↔
    env.newSlotIn s.nKey (s.info id).addr.service slot.1 = slot := by
  unfold checkNewSlot
  simp only [ite_error, and_true, ne_eq, not_not]
  constructor
  · intro hpos
    rw [AddrManEnv.newSlotIn, hpos]
  · intro hslot
    exact congrArg Prod.snd hslot

private theorem entry_eq_some {slot : ι} :
    entry table slot = some id ↔ table slot = id ∧ id ≠ -1 := by
  unfold entry
  split
  · rename_i h
    simp only [reduceCtorEq, false_iff, not_and, not_not]
    rintro rfl
    exact h
  · rename_i h
    rw [Option.some.injEq]
    exact ⟨fun heq => ⟨heq, heq ▸ h⟩, And.left⟩

private theorem found_entry [Fintype ι] {slots : List ι} (hnodup : slots.Nodup)
    (hall : ∀ slot, slot ∈ slots) (id : Int) :
    CheckOff.found (entry table) slots id = if id = -1 then 0 else occurrences table id := by
  unfold CheckOff.found
  split
  · rename_i h
    rw [countP_eq_zero]
    intro slot _ hfound
    exact (entry_eq_some.1 (of_decide_eq_true hfound)).2 h
  · rename_i h
    rw [← countP_eq_occurrences hnodup hall]
    refine countP_congr fun slot _ => ?_
    rw [decide_eq_true_eq, decide_eq_true_eq, entry_eq_some]
    exact and_iff_left h

theorem triedSlots_nodup : triedSlots.Nodup := (nodup_finRange _).product (nodup_finRange _)

theorem newSlots_nodup : newSlots.Nodup := (nodup_finRange _).product (nodup_finRange _)

theorem mem_triedSlots (slot : TriedSlot) : slot ∈ triedSlots :=
  mem_product.2 ⟨mem_finRange _, mem_finRange _⟩

theorem mem_newSlots (slot : NewSlot) : slot ∈ newSlots :=
  mem_product.2 ⟨mem_finRange _, mem_finRange _⟩

/-! ### Checking the tables off -/

private theorem counts_setTried : CheckOff.Counts (fun (l : List Int) nId => decide (nId ∈ l)) List.erase (fun _ => True)
    fun l nId => l.count nId where
  present_iff l k _ := by rw [decide_eq_true_eq, count_pos_iff]
  take_keeps _ _ _ _ := trivial
  take_left l k k' _ _ := by simp [List.count_erase]

/-- No entry of `mapNew` has come to 0. -/
private def Positive (m : KeyMap Int Int) : Prop := ∀ k n, m.lookup k = some n → 0 < n

private theorem counts_mapNew : CheckOff.Counts (fun (m : KeyMap Int Int) nId => (m.lookup nId).isSome) countDown Positive
    fun m nId => ((m.lookup nId).getD 0).toNat where
  present_iff m k hm := by
    cases hk : m.lookup k with
    | none => simp
    | some n =>
      have := hm k n hk
      simp [this]
  take_keeps m k hm hpos k' n hn := by
    rw [countDown, KeyMap.lookup_put] at hn
    split at hn
    · split at hn
      · cases hn
      · obtain rfl := Option.some.inj hn
        omega
    · exact hm k' n hn
  take_left m k k' hm hpos := by
    rw [countDown, KeyMap.lookup_put]
    by_cases hk : k' = k
    · subst hk
      rw [if_pos rfl, if_pos rfl]
      split
      · rw [Option.getD_none]
        omega
      · rw [Option.getD_some]
        omega
    · rw [if_neg hk, if_neg (Ne.symm hk), Nat.sub_zero]

private theorem count_triedIds (id : Int) : s.triedIds.count id =
    if ∃ info, s.mapInfo.lookup id = some info ∧ info.fInTried = true then 1 else 0 := by
  have hmem : id ∈ s.triedIds ↔ ∃ info, s.mapInfo.lookup id = some info ∧ info.fInTried = true := by
    rw [triedIds, mem_map]
    constructor
    · rintro ⟨e, he, rfl⟩
      rw [mem_filter, mem_ascending] at he
      exact ⟨e.2, he⟩
    · rintro ⟨info, hinfo, htried⟩
      exact ⟨(id, info), mem_filter.2 ⟨mem_ascending.2 hinfo, htried⟩, rfl⟩
  split
  · rename_i h
    exact count_eq_one_of_mem (keys_filter_nodup _ _) (hmem.2 h)
  · rename_i h
    exact count_eq_zero_of_not_mem fun hin => h (hmem.1 hin)

private theorem newCounts_keys (s : CAddrMan) : ((((ascending s.mapInfo).filter fun e => !e.2.fInTried).map fun e =>
    (e.1, e.2.nRefCount)).map Prod.fst).Nodup := by
  rw [map_map]
  exact keys_filter_nodup _ _

private theorem lookup_newCounts {n : Int} : s.newCounts.lookup id = some n ↔
    ∃ info, s.mapInfo.lookup id = some info ∧ info.fInTried = false ∧ info.nRefCount = n := by
  rw [newCounts, KeyMap.lookup_insertAll _ (newCounts_keys s)]
  simp only [KeyMap.lookup_empty, reduceCtorEq, and_false, or_false, mem_map, mem_filter, Prod.mk.injEq]
  constructor
  · rintro ⟨e, ⟨he, htried⟩, rfl, hn⟩
    exact ⟨e.2, mem_ascending.1 he, by simpa using htried, hn⟩
  · rintro ⟨info, hinfo, htried, hn⟩
    exact ⟨(id, info), ⟨mem_ascending.2 hinfo, by simp [htried]⟩, rfl, hn⟩

private theorem length_newCounts : s.newCounts.entries.length = s.mapInfo.count fun info => !info.fInTried := by
  rw [newCounts, KeyMap.length_insertAll _ (newCounts_keys s) fun k _ => KeyMap.lookup_empty k, length_map,
    length_filter_ascending fun info : CAddrInfo => !info.fInTried]
  exact Nat.zero_add _

private theorem isEmpty_iff {m : KeyMap Int Int} :
    m.entries.isEmpty = true ↔ Positive m ∧ ∀ k, ((m.lookup k).getD 0).toNat = 0 := by
  rw [List.isEmpty_iff]
  constructor
  · intro h
    have hnone : ∀ k, m.lookup k = none := fun k => by
      rw [AList.lookup_eq_none, AList.mem_keys, AList.keys, h]
      exact not_mem_nil
    exact ⟨fun k n hn => by simp [hnone] at hn, fun k => by simp [hnone]⟩
  · rintro ⟨hm, h⟩
    refine eq_nil_iff_forall_not_mem.2 fun e he => ?_
    have hlook : m.lookup e.1 = some e.2 := mem_entries.1 he
    have hzero := h e.1
    have hpos := hm e.1 e.2 hlook
    rw [hlook, Option.getD_some] at hzero
    omega

/-- A table passes when each slot that is held is right for an id that is expected, and each id that is expected stands in
the table as often as it is. -/
private theorem found_iff [Fintype ι] {slots : List ι} (hnodup : slots.Nodup)
    (hall : ∀ slot, slot ∈ slots) {right : ι → Int → Prop} {refs : Int → Nat} :
    ((∀ slot ∈ slots, ∀ id, entry table slot = some id → right slot id) ∧
      ∀ id, refs id = CheckOff.found (entry table) slots id) ↔
    (∀ slot, table slot ≠ -1 → refs (table slot) ≠ 0 ∧ right slot (table slot)) ∧
      ∀ id, refs id ≠ 0 → id ≠ -1 ∧ occurrences table id = refs id := by
  simp only [found_entry hnodup hall, entry_eq_some]
  constructor
  · rintro ⟨hright, hcount⟩
    refine ⟨fun slot hne => ⟨?_, hright slot (hall slot) _ ⟨rfl, hne⟩⟩, fun id hid => ?_⟩
    · rw [hcount, if_neg hne]
      exact (occurrences_pos.2 ⟨slot, rfl⟩).ne'
    · have hcount := hcount id
      split at hcount
      · exact absurd hcount hid
      · exact ⟨‹_›, hcount.symm⟩
  · rintro ⟨hslot, hcount⟩
    constructor
    · rintro slot - id ⟨rfl, hne⟩
      exact (hslot slot hne).2
    · intro id
      by_cases hid : refs id = 0
      · split
        · exact hid
        · rw [hid, eq_comm, occurrences_eq_zero]
          rintro slot rfl
          exact (hslot slot ‹_›).1 hid
      · obtain ⟨hne, heq⟩ := hcount id hid
        rw [if_neg hne, heq]

/-! ### The check -/

/-- The records, the counters and the tables agree with each other. -/
structure Checked (env : AddrManEnv) (s : CAddrMan) : Prop where
  size : (s.vRandom.length : Int) = s.nTried + s.nNew
  record : ∀ id info, s.mapInfo.lookup id = some info → s.CheckedInfo id info
  countTried : (s.mapInfo.count (fun info => info.fInTried) : Int) = s.nTried
  countNew : (s.mapInfo.count (fun info => !info.fInTried) : Int) = s.nNew
  tried_mem : ∀ slot, s.vvTried slot ≠ -1 → ∃ info, s.mapInfo.lookup (s.vvTried slot) = some info ∧
    info.fInTried = true ∧ env.triedSlot s.nKey info.addr.service = slot
  tried_slot : ∀ id info, s.mapInfo.lookup id = some info → info.fInTried = true →
    s.vvTried (env.triedSlot s.nKey info.addr.service) = id
  new_mem : ∀ slot, s.vvNew slot ≠ -1 → ∃ info, s.mapInfo.lookup (s.vvNew slot) = some info ∧
    info.fInTried = false ∧ env.newSlotIn s.nKey info.addr.service slot.1 = slot
  new_refs : ∀ id info, s.mapInfo.lookup id = some info → info.fInTried = false →
    (occurrences s.vvNew id : Int) = info.nRefCount
  id_ne : ∀ id info, s.mapInfo.lookup id = some info → id ≠ -1
  key : s.nKey ≠ 0

/-- The loops over the tables. -/
private def checkTried (env : AddrManEnv) (s : CAddrMan) : Except Int (List Int) :=
  CheckOff.checkOff (fun l nId => decide (nId ∈ l)) List.erase (-11) (checkTriedSlot env s) (entry s.vvTried) triedSlots s.triedIds

private def checkNew (env : AddrManEnv) (s : CAddrMan) : Except Int (KeyMap Int Int) :=
  CheckOff.checkOff (fun m nId => (m.lookup nId).isSome) countDown (-12) (checkNewSlot env s) (entry s.vvNew) newSlots s.newCounts

private theorem checkTried_ok : (∃ setTried, checkTried env s = .ok setTried ∧ setTried.isEmpty = true) ↔
    (∀ slot, s.vvTried slot ≠ -1 → ∃ info, s.mapInfo.lookup (s.vvTried slot) = some info ∧
      info.fInTried = true ∧ env.triedSlot s.nKey info.addr.service = slot) ∧
    ∀ id info, s.mapInfo.lookup id = some info → info.fInTried = true →
      id ≠ -1 ∧ s.vvTried (env.triedSlot s.nKey info.addr.service) = id := by
  have hiff := @CheckOff.checkOff_iff _ _ _ _ _ _ _ (-11 : Int) (checkTriedSlot env s) (entry s.vvTried) _ _ counts_setTried
    triedSlots s.triedIds trivial
  have hempty : ∀ l : List Int, l.isEmpty = true ↔ True ∧ ∀ k, l.count k = 0 := by
    intro l
    simp [eq_nil_iff_forall_not_mem, count_eq_zero]
  have hrefs : ∀ id, s.triedIds.count id ≠ 0 ↔ ∃ info, s.mapInfo.lookup id = some info ∧ info.fInTried = true := by
    intro id
    rw [count_triedIds]
    split <;> simp_all
  simp only [hempty]
  refine hiff.trans ((found_iff triedSlots_nodup mem_triedSlots).trans ?_)
  simp only [hrefs, checkTriedSlot_ok]
  constructor
  · rintro ⟨hslots, hcts⟩
    have hmem : ∀ slot, s.vvTried slot ≠ -1 → ∃ info, s.mapInfo.lookup (s.vvTried slot) = some info ∧
        info.fInTried = true ∧ env.triedSlot s.nKey info.addr.service = slot := by
      intro slot hne
      obtain ⟨⟨info, hinfo, htried⟩, hslot⟩ := hslots slot hne
      rw [info_of_lookup hinfo] at hslot
      exact ⟨info, hinfo, htried, hslot⟩
    refine ⟨hmem, fun id info hinfo htried => ?_⟩
    obtain ⟨hne, hcount⟩ := hcts id ⟨info, hinfo, htried⟩
    have hpos : 0 < s.triedIds.count id := Nat.pos_of_ne_zero ((hrefs id).2 ⟨info, hinfo, htried⟩)
    obtain ⟨slot, hslot⟩ := occurrences_pos.1 (hcount ▸ hpos)
    obtain ⟨info', hinfo', -, heq⟩ := hmem slot (by rwa [hslot])
    rw [hslot, hinfo] at hinfo'
    obtain rfl := Option.some.inj hinfo'
    rw [heq]
    exact ⟨hne, hslot⟩
  · rintro ⟨hmem, hslot⟩
    refine ⟨fun slot hne => ?_, ?_⟩
    · obtain ⟨info, hinfo, htried, heq⟩ := hmem slot hne
      rw [info_of_lookup hinfo]
      exact ⟨⟨info, hinfo, htried⟩, heq⟩
    · rintro id ⟨info, hinfo, htried⟩
      obtain ⟨hne, hin⟩ := hslot id info hinfo htried
      have hpos := occurrences_pos.2 ⟨_, hin⟩
      have hown : ∀ slot, s.vvTried slot = id → slot = env.triedSlot s.nKey info.addr.service := by
        rintro slot rfl
        obtain ⟨info', hinfo', -, heq⟩ := hmem slot hne
        rw [hinfo] at hinfo'
        exact Option.some.inj hinfo' ▸ heq.symm
      have hle : occurrences s.vvTried id ≤ 1 := occurrences_le_one fun i j hi hj => (hown i hi).trans (hown j hj).symm
      rw [count_triedIds, if_pos ⟨info, hinfo, htried⟩]
      exact ⟨hne, by omega⟩

private theorem checkNew_ok (hrefs : ∀ id info, s.mapInfo.lookup id = some info → info.fInTried = false →
      1 ≤ info.nRefCount) : (∃ mapNew, checkNew env s = .ok mapNew ∧ mapNew.entries.isEmpty = true) ↔
    (∀ slot, s.vvNew slot ≠ -1 → ∃ info, s.mapInfo.lookup (s.vvNew slot) = some info ∧
      info.fInTried = false ∧ env.newSlotIn s.nKey info.addr.service slot.1 = slot) ∧
    ∀ id info, s.mapInfo.lookup id = some info → info.fInTried = false →
      id ≠ -1 ∧ (occurrences s.vvNew id : Int) = info.nRefCount := by
  have hpos : Positive s.newCounts := by
    intro id n hn
    obtain ⟨info, hinfo, hnew, rfl⟩ := lookup_newCounts.1 hn
    exact hrefs id info hinfo hnew
  have hiff := @CheckOff.checkOff_iff _ _ _ _ _ _ _ (-12 : Int) (checkNewSlot env s) (entry s.vvNew) _ _ counts_mapNew
    newSlots s.newCounts hpos
  have hcount : ∀ id info, s.mapInfo.lookup id = some info → info.fInTried = false →
      ((s.newCounts.lookup id).getD 0).toNat = info.nRefCount := by
    intro id info hinfo hnew
    have := hrefs id info hinfo hnew
    rw [lookup_newCounts.2 ⟨info, hinfo, hnew, rfl⟩, Option.getD_some]
    omega
  have hexpected : ∀ id, ((s.newCounts.lookup id).getD 0).toNat ≠ 0 ↔
      ∃ info, s.mapInfo.lookup id = some info ∧ info.fInTried = false := by
    intro id
    constructor
    · intro hne
      cases hlook : s.newCounts.lookup id with
      | none => simp [hlook] at hne
      | some n =>
        obtain ⟨info, hinfo, hnew, -⟩ := lookup_newCounts.1 hlook
        exact ⟨info, hinfo, hnew⟩
    · rintro ⟨info, hinfo, hnew⟩
      have := hcount id info hinfo hnew
      have := hrefs id info hinfo hnew
      omega
  simp only [isEmpty_iff]
  refine hiff.trans ((found_iff newSlots_nodup mem_newSlots).trans ?_)
  simp only [hexpected, checkNewSlot_ok]
  refine and_congr (forall_congr' fun slot => forall_congr' fun _ => ?_) (forall_congr' fun id => ?_)
  · constructor
    · rintro ⟨⟨info, hinfo, hnew⟩, hslot⟩
      rw [info_of_lookup hinfo] at hslot
      exact ⟨info, hinfo, hnew, hslot⟩
    · rintro ⟨info, hinfo, hnew, hslot⟩
      rw [info_of_lookup hinfo]
      exact ⟨⟨info, hinfo, hnew⟩, hslot⟩
  · constructor
    · intro h info hinfo hnew
      have := hcount id info hinfo hnew
      exact ⟨(h ⟨info, hinfo, hnew⟩).1, by rw [(h ⟨info, hinfo, hnew⟩).2, this]⟩
    · rintro h ⟨info, hinfo, hnew⟩
      have := hcount id info hinfo hnew
      exact ⟨(h info hinfo hnew).1, by have := (h info hinfo hnew).2; omega⟩

private theorem rejectCheck_ok {condition : Bool} {u : Unit} :
    rejectCheck condition code = .ok u ↔ condition = false := by
  cases condition <;> simp [rejectCheck]

private theorem checkAll_ok : s.checkAll env = .ok () ↔
    (s.vRandom.length : Int) = s.nTried + s.nNew ∧
    (∀ id info, s.mapInfo.lookup id = some info → s.CheckedInfo id info) ∧
    (s.triedIds.length : Int) = s.nTried ∧ (s.newCounts.entries.length : Int) = s.nNew ∧
    (∃ setTried, checkTried env s = .ok setTried ∧ setTried.isEmpty = true) ∧
    (∃ mapNew, checkNew env s = .ok mapNew ∧ mapNew.entries.isEmpty = true) ∧
    s.nKey ≠ 0 := by
  have hrecs : (ascending s.mapInfo).forM (fun e => s.checkInfo e.1 e.2) = .ok () ↔
      ∀ id info, s.mapInfo.lookup id = some info → s.CheckedInfo id info := by
    rw [forM_ok]
    constructor
    · intro h id info hinfo
      exact checkInfo_ok.1 (h (id, info) (mem_ascending.2 hinfo))
    · intro h e he
      exact checkInfo_ok.2 (h e.1 e.2 (mem_ascending.1 he))
  unfold checkAll checkTried checkNew
  simp only [except_bind_ok, rejectCheck_ok, hrecs, decide_eq_false_iff_not, ne_eq, not_not, Bool.not_eq_false',
    exists_const]
  constructor
  · rintro ⟨hsize, hrec, htried, hnew, setTried, hsetTried, mapNew, hmapNew, hempty, hempty', hkey⟩
    exact ⟨hsize, hrec, htried, hnew, ⟨setTried, hsetTried, hempty⟩, ⟨mapNew, hmapNew, hempty'⟩, hkey⟩
  · rintro ⟨hsize, hrec, htried, hnew, ⟨setTried, hsetTried, hempty⟩, ⟨mapNew, hmapNew, hempty'⟩, hkey⟩
    exact ⟨hsize, hrec, htried, hnew, setTried, hsetTried, mapNew, hmapNew, hempty, hempty', hkey⟩

private theorem checks_ite {c : Prop} [Decidable c] (hcode : code < 0) (hx : Checks (· < 0) x fun _ => True) :
    Checks (· < 0) (if c then .error code else x) fun _ => True := by
  split
  · exact .error hcode
  · exact hx

private theorem checks_forM {α : Type} {f : α → Except Int Unit} (hf : ∀ a, Checks (· < 0) (f a) fun _ => True) (l : List α) :
    Checks (· < 0) (l.forM f) fun _ => True := by
  induction l with
  | nil => exact .ok trivial
  | cons a l ih => exact .bind (hf a) fun _ _ => ih

private theorem checks_checkOff {ι κ σ : Type} {present : σ → κ → Bool} {take : σ → κ → σ} {missing : Int}
    {check : ι → κ → Except Int Unit} {entry : ι → Option κ} (hmiss : missing < 0)
    (hcheck : ∀ i k, Checks (· < 0) (check i k) fun _ => True) (is : List ι) (m : σ) :
    Checks (· < 0) (CheckOff.checkOff present take missing check entry is m) fun _ => True := by
  induction is generalizing m with
  | nil => exact .ok trivial
  | cons i is ih =>
    rw [CheckOff.checkOff]
    split
    · exact ih m
    · split
      · exact .bind (hcheck _ _) fun _ _ => ih _
      · exact .error hmiss

private theorem checkAll_negative : Checks (· < 0) (s.checkAll env) fun _ => True := by
  have hrej : ∀ c code, code < 0 → Checks (· < 0) (rejectCheck c code) fun _ => True := fun c code hcode =>
    checks_ite hcode (.ok trivial)
  refine .bind (hrej _ _ (by decide)) fun _ _ => .bind (checks_forM (fun e => ?_) _) fun _ _ =>
    .bind (hrej _ _ (by decide)) fun _ _ => .bind (hrej _ _ (by decide)) fun _ _ =>
    .bind (checks_checkOff (by decide) (fun i k => ?_) _ _) fun _ _ =>
    .bind (checks_checkOff (by decide) (fun i k => ?_) _ _) fun _ _ =>
    .bind (hrej _ _ (by decide)) fun _ _ => .bind (hrej _ _ (by decide)) fun _ _ => hrej _ _ (by decide)
  · unfold checkInfo
    repeat' refine checks_ite (by decide) ?_
    exact .ok trivial
  · exact checks_ite (by decide) (checks_ite (by decide) (.ok trivial))
  · exact checks_ite (by decide) (.ok trivial)

theorem check_eq_zero : s.check env = 0 ↔ Checked env s := by
  have hok : s.check env = 0 ↔ s.checkAll env = .ok () := by
    unfold check
    cases h : s.checkAll env with
    | ok u => exact ⟨fun _ => rfl, fun _ => rfl⟩
    | error code =>
      have hcode : code < 0 := checkAll_negative.2 code h
      exact ⟨fun hzero => absurd hzero (by dsimp only; omega), nofun⟩
  rw [hok, checkAll_ok]
  have htriedLength : s.triedIds.length = s.mapInfo.count fun info => info.fInTried := by
    rw [triedIds, length_map, length_filter_ascending fun info : CAddrInfo => info.fInTried]
  rw [htriedLength, length_newCounts, checkTried_ok]
  constructor
  · rintro ⟨hsize, hrec, htried, hnew, ⟨hmem, hslot⟩, hnewTable, hkey⟩
    obtain ⟨hmem', hrefs⟩ := (checkNew_ok fun id info hinfo h => ((hrec id info hinfo).new h).1).1 hnewTable
    refine ⟨hsize, hrec, htried, hnew, hmem, fun id info hinfo h => (hslot id info hinfo h).2, hmem',
      fun id info hinfo h => (hrefs id info hinfo h).2, fun id info hinfo => ?_, hkey⟩
    cases h : info.fInTried with
    | false => exact (hrefs id info hinfo h).1
    | true => exact (hslot id info hinfo h).1
  · intro h
    refine ⟨h.size, h.record, h.countTried, h.countNew, ⟨h.tried_mem, fun id info hinfo ht =>
      ⟨h.id_ne id info hinfo, h.tried_slot id info hinfo ht⟩⟩, ?_, h.key⟩
    exact (checkNew_ok fun id info hinfo hn => ((h.record id info hinfo).new hn).1).2 ⟨h.new_mem, fun id info hinfo hn =>
      ⟨h.id_ne id info hinfo, h.new_refs id info hinfo hn⟩⟩

end CAddrMan

end LitecoinZ
