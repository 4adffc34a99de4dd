import LitecoinZ.Primitives.PartialMerkleTree

/-!
# Rolling Bloom filters

`CBloomFilter` and `CRollingBloomFilter` of `bloom.cpp`.  The hash function and the sizes that the constructor computes
in floating point are arbitrary.  A rolling filter fills two filters and clears them in turn; whichever of the two it
asks has every key of the last `nElements` that were inserted (`contains_recent`).
-/

namespace LitecoinZ

open List

/-- `MurmurHash3`: the seed and the bytes. -/
abbrev Murmur := UInt32 → List UInt8 → UInt32

structure CBloomFilter where
  vData : List UInt8
  isFull : Bool
  isEmpty : Bool
  nHashFuncs : Nat
  nTweak : UInt32

namespace CBloomFilter

/-- `1 << (7 & nIndex)`. -/
def bit (nIndex : Nat) : UInt8 := 1 <<< UInt8.ofNat (7 &&& nIndex)

def setBit (vData : List UInt8) (nIndex : Nat) : List UInt8 := vData.modify (nIndex >>> 3) (· ||| bit nIndex)

def isSet (vData : List UInt8) (nIndex : Nat) : Bool := vData.getD (nIndex >>> 3) 0 &&& bit nIndex != 0

def hash (murmur : Murmur) (f : CBloomFilter) (vKey : List UInt8) (nHashNum : Nat) : Nat :=
  (murmur (UInt32.ofNat nHashNum * 0xFBA4C795 + f.nTweak) vKey).toNat % (f.vData.length * 8)

def insert (murmur : Murmur) (f : CBloomFilter) (vKey : List UInt8) : CBloomFilter :=
  if f.isFull then f
  else { f with vData := ((List.range f.nHashFuncs).map (f.hash murmur vKey)).foldl setBit f.vData, isEmpty := false }

def contains (murmur : Murmur) (f : CBloomFilter) (vKey : List UInt8) : Bool :=
  if f.isFull then true
  else if f.isEmpty then false
  else (List.range f.nHashFuncs).all fun i => isSet f.vData (f.hash murmur vKey i)

def clear (f : CBloomFilter) : CBloomFilter :=
  { f with vData := List.replicate f.vData.length 0, isFull := false, isEmpty := true }

def reset (nNewTweak : UInt32) (f : CBloomFilter) : CBloomFilter := { f.clear with nTweak := nNewTweak }

/-! ### One filter -/

private theorem bit_eq (n : Nat) : bit n = CPartialMerkleTree.bitMask n := by
  have hmod : 7 &&& n = n % 8 := (Nat.and_comm 7 n).trans (Nat.and_two_pow_sub_one_eq_mod n 3)
  rw [bit, hmod, CPartialMerkleTree.bitMask]

private theorem isSet_setBit {v : List UInt8} {n : Nat} (hn : n < v.length * 8) (m : Nat) :
    isSet (setBit v m) n = (isSet v n || decide (m = n)) := by
  have h := CPartialMerkleTree.bitAt_modify m true (show n / 8 < v.length by omega)
  rw [Bool.and_true] at h
  rw [isSet, isSet, setBit, bit_eq, bit_eq, Nat.shiftRight_eq_div_pow, Nat.shiftRight_eq_div_pow]
  exact h

/-- The bits of `l` are set, and no bit is cleared. -/
theorem isSet_foldl {l : List Nat} {v : List UInt8} {n : Nat} (hn : n < v.length * 8) (h : isSet v n = true ∨ n ∈ l) :
    isSet (l.foldl setBit v) n = true := by
  induction l generalizing v with
  | nil => exact h.resolve_right not_mem_nil
  | cons m l ih =>
    refine ih (by rwa [setBit, length_modify]) ?_
    rw [isSet_setBit hn]
    rcases h with h | h
    · exact .inl (by rw [h, Bool.true_or])
    · rcases mem_cons.1 h with rfl | h
      · exact .inl (by simp)
      · exact .inr h

theorem length_foldl_setBit (l : List Nat) (v : List UInt8) : (l.foldl setBit v).length = v.length := by
  induction l generalizing v with
  | nil => rfl
  | cons m l ih => exact (ih _).trans (length_modify ..)

variable {murmur : Murmur} {f : CBloomFilter} {vKey : List UInt8} {keys : List (List UInt8)} {c n : Nat}

/-- A filter of at least one byte has the first `c` of some keys. -/
structure Covers (murmur : Murmur) (keys : List (List UInt8)) (c : Nat) (f : CBloomFilter) : Prop where
  isFull : f.isFull = false
  size : 0 < f.vData.length
  has : ∀ vKey ∈ keys.take c, f.isEmpty = false ∧ ∀ i < f.nHashFuncs, isSet f.vData (f.hash murmur vKey i) = true

theorem Covers.contains (h : Covers murmur keys c f) (hkey : vKey ∈ keys.take c) : f.contains murmur vKey = true := by
  obtain ⟨hempty, hset⟩ := h.has vKey hkey
  rw [CBloomFilter.contains, h.isFull, hempty, if_neg Bool.false_ne_true, if_neg Bool.false_ne_true, all_eq_true]
  exact fun i hi => hset i (mem_range.1 hi)

theorem Covers.mono (h : Covers murmur keys c f) (hn : n ≤ c) : Covers murmur keys n f :=
  { h with has := fun vKey hkey => h.has vKey (take_subset_take_left keys hn hkey) }

theorem Covers.insert (h : Covers murmur keys c f) (vKey : List UInt8) :
    Covers murmur (vKey :: keys) (c + 1) (f.insert murmur vKey) := by
  have hlen := length_foldl_setBit ((range f.nHashFuncs).map (f.hash murmur vKey)) f.vData
  rw [CBloomFilter.insert, if_neg (Bool.eq_false_iff.1 h.isFull)]
  refine ⟨h.isFull, hlen ▸ h.size, fun k hk => ⟨rfl, fun i hi => ?_⟩⟩
  rw [hash, hlen]
  refine isSet_foldl (Nat.mod_lt _ (Nat.mul_pos h.size (by decide))) ?_
  rcases mem_cons.1 hk with rfl | hk
  · exact .inr (mem_map.2 ⟨i, mem_range.2 hi, rfl⟩)
  · exact .inl ((h.has k hk).2 i hi)

theorem Covers.clear (h : Covers murmur keys c f) (keys' : List (List UInt8)) : Covers murmur keys' 0 f.clear where
  isFull := rfl
  size := by simpa [CBloomFilter.clear] using h.size
  has _ hkey := by simp at hkey

end CBloomFilter

/-! ### Two filters in turn -/

open CBloomFilter

structure CRollingBloomFilter where
  nBloomSize : Nat
  nInsertions : Nat
  b1 : CBloomFilter
  b2 : CBloomFilter

namespace CRollingBloomFilter

/-- `reset`, with what `GetRand` returns. -/
def reset (nNewTweak : UInt32) (r : CRollingBloomFilter) : CRollingBloomFilter :=
  { r with b1 := r.b1.reset nNewTweak, b2 := r.b2.reset nNewTweak, nInsertions := 0 }

/-- The constructor, with the number of bytes and of hash functions that it computes. -/
def new (nElements size nHashFuncs : Nat) (nNewTweak : UInt32) : CRollingBloomFilter :=
  let b : CBloomFilter := ⟨List.replicate size 0, false, true, nHashFuncs, 0⟩
  reset nNewTweak ⟨nElements * 2 % 2 ^ 32, 0, b, b⟩

def insert (murmur : Murmur) (r : CRollingBloomFilter) (vKey : List UInt8) : CRollingBloomFilter :=
  let b1 := if r.nInsertions = 0 then r.b1.clear else r.b1
  let b2 := if r.nInsertions ≠ 0 ∧ r.nInsertions = r.nBloomSize / 2 then r.b2.clear else r.b2
  let nInsertions := (r.nInsertions + 1) % 2 ^ 32
  { r with
    b1 := b1.insert murmur vKey
    b2 := b2.insert murmur vKey
    nInsertions := if nInsertions = r.nBloomSize then 0 else nInsertions }

def contains (murmur : Murmur) (r : CRollingBloomFilter) (vKey : List UInt8) : Bool :=
  if r.nInsertions < r.nBloomSize / 2 then r.b2.contains murmur vKey else r.b1.contains murmur vKey

inductive Call where
  | insert (vKey : List UInt8)
  | reset (nNewTweak : UInt32)

def step (murmur : Murmur) (r : CRollingBloomFilter) : Call → CRollingBloomFilter
  | .insert vKey => r.insert murmur vKey
  | .reset nNewTweak => r.reset nNewTweak

/-- The keys that were inserted since the last reset, the last one first. -/
def recent (keys : List (List UInt8)) : Call → List (List UInt8)
  | .insert vKey => vKey :: keys
  | .reset _ => []

/-- The first filter has the keys since its last clearing, and the second one, which is cleared half a turn later, has
those of its own. -/
structure Rolls (murmur : Murmur) (nElements : Nat) (keys : List (List UInt8)) (r : CRollingBloomFilter) : Prop where
  nBloomSize : r.nBloomSize = 2 * nElements
  nInsertions : r.nInsertions < 2 * nElements
  b1 : Covers murmur keys r.nInsertions r.b1
  b2 : Covers murmur keys (if r.nInsertions ≤ nElements then nElements + r.nInsertions else r.nInsertions - nElements) r.b2

variable {murmur : Murmur} {nElements : Nat} {keys : List (List UInt8)} {r : CRollingBloomFilter}

theorem Rolls.reset (h1 : Covers murmur keys 0 r.b1) (h2 : Covers murmur keys 0 r.b2) (hpos : 1 ≤ nElements)
    (hsize : r.nBloomSize = 2 * nElements) (nNewTweak : UInt32) : Rolls murmur nElements [] (r.reset nNewTweak) := by
  have hempty : ∀ {f : CBloomFilter}, Covers murmur keys 0 f → ∀ c, Covers murmur [] c (f.reset nNewTweak) := by
    intro f h c
    obtain ⟨h1, h2, -⟩ := h.clear []
    exact ⟨h1, h2, by simp⟩
  exact ⟨hsize, by simp [CRollingBloomFilter.reset]; omega, hempty h1 _, hempty h2 _⟩

theorem Rolls.insert (h : Rolls murmur nElements keys r) (hlt : nElements < 2 ^ 31) (vKey : List UInt8) :
    Rolls murmur nElements (vKey :: keys) (r.insert murmur vKey) := by
  have hm := h.nInsertions
  have hsize := h.nBloomSize
  have hnext : (r.nInsertions + 1) % 2 ^ 32 = r.nInsertions + 1 := Nat.mod_eq_of_lt (by omega)
  have h1 : Covers murmur keys r.nInsertions (if r.nInsertions = 0 then r.b1.clear else r.b1) := by
    split
    · rename_i h0
      exact h0 ▸ h.b1.clear keys
    · exact h.b1
  have h2 : Covers murmur keys (if r.nInsertions < nElements then nElements + r.nInsertions else r.nInsertions - nElements)
      (if r.nInsertions ≠ 0 ∧ r.nInsertions = r.nBloomSize / 2 then r.b2.clear else r.b2) := by
    split_ifs with hlt' h0 h0
    · omega
    · exact h.b2.mono (by split <;> omega)
    · exact (h.b2.clear keys).mono (by omega)
    · exact h.b2.mono (by split <;> omega)
  refine ⟨hsize, ?_, (h1.insert vKey).mono ?_, (h2.insert vKey).mono ?_⟩
  · dsimp only [CRollingBloomFilter.insert]
    split <;> omega
  · dsimp only [CRollingBloomFilter.insert]
    split <;> omega
  · dsimp only [CRollingBloomFilter.insert]
    split_ifs <;> omega

theorem Rolls.contains (h : Rolls murmur nElements keys r) {vKey : List UInt8} (hkey : vKey ∈ keys.take nElements) :
    r.contains murmur vKey = true := by
  have hsize := h.nBloomSize
  rw [CRollingBloomFilter.contains]
  split
  · exact (h.b2.mono (by split <;> omega)).contains hkey
  · exact (h.b1.mono (by omega)).contains hkey

theorem Rolls.foldl (h : Rolls murmur nElements keys r) (hlt : nElements < 2 ^ 31) (calls : List Call) :
    Rolls murmur nElements (calls.foldl recent keys) (calls.foldl (step murmur) r) := by
  induction calls generalizing keys r with
  | nil => exact h
  | cons call calls ih =>
    cases call with
    | insert vKey => exact ih (h.insert hlt vKey)
    | reset nNewTweak =>
      exact ih (.reset (h.b1.mono (Nat.zero_le _)) (h.b2.mono (Nat.zero_le _)) (by have := h.nInsertions; omega)
        h.nBloomSize nNewTweak)

/-- At every moment the last `nElements` keys that were inserted since the last reset are found. -/
theorem contains_recent (murmur : Murmur) {nElements size : Nat} (hpos : 1 ≤ nElements) (hlt : nElements < 2 ^ 31)
    (hsize : 1 ≤ size) (nHashFuncs : Nat) (nTweak : UInt32) (calls : List Call) :
    ∀ vKey ∈ (calls.foldl recent []).take nElements,
      (calls.foldl (step murmur) (new nElements size nHashFuncs nTweak)).contains murmur vKey = true := by
  have hnew : Covers murmur [] 0 ⟨List.replicate size 0, false, true, nHashFuncs, 0⟩ := ⟨rfl, by simpa, by simp⟩
  have h : Rolls murmur nElements [] (new nElements size nHashFuncs nTweak) :=
    .reset hnew hnew hpos (by dsimp only; omega) nTweak
  exact fun vKey hkey => (h.foldl hlt calls).contains hkey

theorem contains_recent_one : (([.insert [7], .insert [8]] : List Call).foldl (step fun _ _ => 3) (new 1 1 1 5)).contains
    (fun _ _ => 3) [8] = true :=
  contains_recent (fun _ _ => 3) (by decide) (by decide) (by decide) 1 5 [.insert [7], .insert [8]] [8] (by decide)

end CRollingBloomFilter

end LitecoinZ
