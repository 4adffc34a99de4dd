import LitecoinZ.Pow.BasicSolve

/-!
# The rounds of the basic solver over rows

A round overwrites the table it reads.  Rows are only written where the runs have been merged already, so each run is
read as it was sorted, and what the round leaves are the merged rows of all pairs that collide (`solveRound_of`).
-/

namespace LitecoinZ

open Pairs StateExcept List

theorem SolverEnv.check_of {env : SolverEnv} (h : ∀ pos, env.cancelled pos = false) (pos : EhSolverCancelCheck) :
    env.check pos = .ok () := by
  rw [check, h]
  rfl

theorem checkInt_of {n : Nat} (h : n < 2 ^ 31) : checkInt n = .ok () := if_pos h

namespace Equihash

def Table.made (t : Table) : List Row := t.X.take t.posFree ++ t.Xc

/-- What storing rows below `limit` does to a table. -/
structure Stored (limit : Nat) (t t' : Table) : Prop where
  length : t'.X.length = t.X.length
  posFree_le : t'.posFree ≤ limit
  made : t'.made.Perm t.made
  drop : t'.X.drop limit = t.X.drop limit
  full : t'.Xc = [] ∨ t'.posFree = limit

variable {X rows : List Row} {t : Table} {i hashLen lenIndices : Nat} {ps ps' : List (Row × Row)} {env : SolverEnv}
  {offered offered' : List (List UInt8)}

theorem stored_storeFree {limit : Nat} {posFree : Nat} (Xc : List Row) (hlimit : limit ≤ X.length)
    (hfree : posFree ≤ limit) : Stored limit ⟨X, posFree, Xc⟩ (storeFree limit X posFree Xc) := by
  induction Xc generalizing X posFree with
  | nil => exact ⟨rfl, hfree, List.Perm.refl _, rfl, Or.inl rfl⟩
  | cons row Xc ih =>
    rw [storeFree]
    by_cases hlt : posFree < limit
    · rw [if_pos hlt]
      have hst : Stored limit ⟨X.set posFree row, posFree + 1, Xc⟩
          (storeFree limit (X.set posFree row) (posFree + 1) Xc) := ih (by rwa [length_set]) hlt
      obtain ⟨hlen, hle, hmade, hdrop, hfull⟩ := hst
      have hfirst : (X.set posFree row).take (posFree + 1) = X.take posFree ++ [row] := by
        rw [take_succ_eq_append_getElem (by rw [length_set]; omega), take_set_of_le le_rfl,
          getElem_set_self]
      refine ⟨by rw [hlen, length_set], hle, hmade.trans ?_, by rw [hdrop, drop_set_of_lt hlt], hfull⟩
      rw [Table.made, Table.made, hfirst, append_assoc]
      exact List.Perm.refl _
    · rw [if_neg hlt]
      exact ⟨rfl, hfree, List.Perm.refl _, rfl, Or.inr (le_antisymm hfree (Nat.not_lt.1 hlt))⟩

theorem perm_of_closeTable (hfree : t.posFree ≤ t.X.length) (h : closeTable t = .ok X) :
    X.Perm t.made := by
  obtain ⟨hlen, hle, hmade, -, hfull⟩ := stored_storeFree t.Xc (le_refl t.X.length) hfree
  unfold closeTable at h
  dsimp only at hlen h
  generalize storeFree t.X.length t.X t.posFree t.Xc = t' at *
  obtain ⟨_, -, h⟩ := except_bind_ok.1 h
  rcases hfull with hnil | hend
  · have hmade' : t'.made = t'.X.take t'.posFree := by rw [Table.made, hnil, append_nil]
    rw [hnil, if_neg (by simp)] at h
    split at h
    · cases h
      exact hmade' ▸ hmade
    · cases h
      rwa [hmade', take_of_length_le (by omega)] at hmade
  · have hmade' : t'.made = t'.X ++ t'.Xc := by rw [Table.made, take_of_length_le (by omega)]
    rw [hmade'] at hmade
    by_cases hpos : t'.Xc.length > 0
    · rw [if_pos hpos] at h
      cases h
      exact ((reverse_perm t'.Xc).append_left _).trans hmade
    · rw [if_neg hpos, if_neg (by omega)] at h
      rw [eq_nil_of_length_eq_zero (Nat.eq_zero_of_not_pos hpos), append_nil] at hmade
      cases h
      exact hmade

theorem closeTable_of (hfree : t.posFree ≤ t.X.length) (hsize : t.X.length < 2 ^ 31) :
    ∃ X, closeTable t = .ok X ∧ X.Perm t.made := by
  obtain ⟨-, hle, -, -, -⟩ := stored_storeFree t.Xc (le_refl t.X.length) hfree
  have hok : ∃ X, closeTable t = .ok X := by
    unfold closeTable
    dsimp only
    generalize storeFree t.X.length t.X t.posFree t.Xc = t' at hle ⊢
    rw [checkInt_of (hle.trans_lt hsize)]
    change ∃ X, (if t'.Xc.length > 0 then pure (t'.X ++ t'.Xc.reverse)
      else if t'.posFree < t'.X.length then pure (t'.X.take t'.posFree) else pure t'.X) = _
    split
    · exact ⟨_, rfl⟩
    · split
      · exact ⟨_, rfl⟩
      · exact ⟨_, rfl⟩
  obtain ⟨X, hX⟩ := hok
  exact ⟨X, hX, perm_of_closeTable hfree hX⟩

/-! ### Runs -/

def SortedRows (len : Nat) (X : List Row) : Prop := X.Pairwise fun a b => ¬ b.take len < a.take len

def collisions (len : Nat) (X : List Row) : List (Row × Row) := (pairs X).filter fun p => p.1.hasCollision p.2 len

theorem collisions_drop {len : Nat} (hsort : SortedRows len (X.drop i)) (hi : i < X.length) :
    collisions len (X.drop i) = pairs ((X.drop i).take (runLength X i len)) ++
      collisions len (X.drop (i + runLength X i len)) := by
  have htri : ∀ a b : Row, ¬ a < b → ¬ b < a → a = b := fun a b hab hba => List.le_antisymm hba hab
  obtain ⟨a, rest, hdrop⟩ : ∃ a rest, X.drop i = a :: rest := ⟨_, _, drop_eq_getElem_cons hi⟩
  rw [SortedRows, hdrop] at hsort
  have hrun := filter_pairs_run (fun b : Row => b.take len) htri hsort
  have hlen : runLength X i len = 1 + (rest.takeWhile fun b => a.hasCollision b len).length := by
    rw [runLength, hdrop]
  have htake : rest.take (rest.takeWhile fun b => a.hasCollision b len).length =
      rest.takeWhile fun b => a.hasCollision b len := (prefix_iff_eq_take.1 ( takeWhile_prefix _)).symm
  have hrest : rest.drop (rest.takeWhile fun b => a.hasCollision b len).length =
      rest.dropWhile fun b => a.hasCollision b len := by
    conv_lhs => rw [← takeWhile_append_dropWhile (p := fun b => a.hasCollision b len) (l := rest)]
    rw [drop_left' (by rw [takeWhile_append_dropWhile])]
  rw [← drop_drop, hdrop, hlen, Nat.add_comm 1, take_succ_cons, drop_succ_cons, htake, hrest]
  exact hrun

theorem runLength_le (len : Nat) (hi : i < X.length) : i + runLength X i len ≤ X.length := by
  obtain ⟨a, rest, hdrop⟩ : ∃ a rest, X.drop i = a :: rest := ⟨_, _, drop_eq_getElem_cons hi⟩
  have hlen := congrArg List.length hdrop
  rw [length_drop, length_cons] at hlen
  have hle := (takeWhile_sublist (l := rest) fun b => a.hasCollision b len).length_le
  rw [runLength, hdrop]
  dsimp only
  omega

theorem one_le_runLength (X : List Row) (i len : Nat) : 1 ≤ runLength X i len := by
  rw [runLength]
  split <;> omega

theorem collisions_short {len : Nat} (h : X.length ≤ i + 1) : collisions len (X.drop i) = [] := by
  have hlen : (X.drop i).length ≤ 1 := by
    rw [length_drop]
    omega
  match X.drop i, hlen with
  | [], _ => rfl
  | [_], _ => rfl

variable (eh : Equihash)

theorem mergePairs_append (h : eh.mergePairs hashLen lenIndices (ps ++ ps') = .ok rows) :
    ∃ rows1 rows2, eh.mergePairs hashLen lenIndices ps = .ok rows1 ∧
      eh.mergePairs hashLen lenIndices ps' = .ok rows2 ∧ rows = rows1 ++ rows2 := by
  induction ps generalizing rows with
  | nil => exact ⟨[], rows, rfl, h, rfl⟩
  | cons p ps ih =>
    obtain ⟨a, b⟩ := p
    rw [cons_append, mergePairs] at h
    rw [mergePairs]
    split at h
    · rename_i hdist
      rw [if_pos hdist]
      obtain ⟨row, hrow, h⟩ := except_bind_ok.1 h
      obtain ⟨rows', hrows', h⟩ := except_bind_ok.1 h
      obtain ⟨rows1, rows2, h1, h2, rfl⟩ := ih hrows'
      cases h
      exact ⟨row :: rows1, rows2, except_bind_ok.2 ⟨row, hrow, except_bind_ok.2 ⟨rows1, h1, rfl⟩⟩, h2, rfl⟩
    · rename_i hdist
      rw [if_neg hdist]
      exact ih h

theorem offerPairs_append (h : eh.offerPairs env hashLen lenIndices (ps ++ ps') offered = .ok (false, offered')) :
    ∃ offered1, eh.offerPairs env hashLen lenIndices ps offered = .ok (false, offered1) ∧
      eh.offerPairs env hashLen lenIndices ps' offered1 = .ok (false, offered') := by
  induction ps generalizing offered with
  | nil => exact ⟨offered, rfl, h⟩
  | cons p ps ih =>
    obtain ⟨a, b⟩ := p
    rw [cons_append, offerPairs] at h
    rw [offerPairs]
    obtain ⟨res, hres, h⟩ := except_bind_ok.1 h
    simp only [except_bind_ok, hres, Except.ok.injEq, exists_eq_left']
    split at h
    · rename_i hdist
      obtain ⟨soln, hsoln, h⟩ := except_bind_ok.1 h
      obtain ⟨_, hlen, h⟩ := except_bind_ok.1 h
      split at h
      · cases h
      · rename_i hvalid
        obtain ⟨offered1, h1, h2⟩ := ih h
        refine ⟨offered1, ?_, h2⟩
        rw [if_pos hdist]
        exact except_bind_ok.2 ⟨soln, hsoln, except_bind_ok.2 ⟨(), hlen, by rwa [if_neg hvalid]⟩⟩
    · rename_i hdist
      rw [if_neg hdist]
      exact ih h

section

variable (hcan : ∀ pos, env.cancelled pos = false)
include hcan

theorem collideRuns_of (hfree : t.posFree ≤ i) (hi : i ≤ t.X.length) (hsize : t.X.length < 2 ^ 31)
    (hsort : SortedRows eh.collisionByteLength (t.X.drop i))
    (hrows : eh.mergePairs hashLen lenIndices (collisions eh.collisionByteLength (t.X.drop i)) = .ok rows) :
    ∃ t', eh.collideRuns env hashLen lenIndices i t = .ok t' ∧ t'.X.length = t.X.length ∧
      t'.posFree ≤ t'.X.length ∧ t'.made.Perm (t.made ++ rows) := by
  -- The table is not written behind `i`, so the rows there are still sorted.
  generalize hm : t.X.length - i = m
  induction m using Nat.strongRecOn generalizing i t rows with
  | _ m ih =>
    rw [collideRuns]
    by_cases hlt : i + 1 < t.X.length
    · have hle := runLength_le eh.collisionByteLength (show i < t.X.length by omega)
      have hpos := one_le_runLength t.X i eh.collisionByteLength
      rw [collisions_drop hsort (by omega)] at hrows
      obtain ⟨rows1, rows2, h1, h2, rfl⟩ := eh.mergePairs_append hrows
      rw [dif_pos hlt]
      dsimp only
      generalize hj : runLength t.X i eh.collisionByteLength = j at *
      rw [checkInt_of (by omega), h1, SolverEnv.check_of hcan]
      change ∃ t', eh.collideRuns env hashLen lenIndices (i + j)
        (storeFree (i + j) t.X t.posFree (rows1.reverse ++ t.Xc)) = .ok t' ∧ _
      have hst := stored_storeFree (rows1.reverse ++ t.Xc) hle (show t.posFree ≤ i + j by omega)
      generalize storeFree (i + j) t.X t.posFree (rows1.reverse ++ t.Xc) = t1 at hst ⊢
      obtain ⟨hlen, hfree1, hmade, hdrop, -⟩ := hst
      dsimp only at hlen hdrop
      obtain ⟨t', ht', hlen', hfree', hmade'⟩ := ih (t.X.length - (i + j)) (by omega) hfree1 (by omega) (by omega)
        (by rw [hdrop, ← drop_drop]; exact hsort.drop) (by rw [hdrop]; exact h2) (by omega)
      refine ⟨t', ht', hlen'.trans hlen, hfree', hmade'.trans ?_⟩
      rw [← append_assoc]
      refine (hmade.trans ?_).append_right rows2
      rw [Table.made, Table.made, append_assoc]
      refine Perm.append_left _ ?_
      exact ((reverse_perm rows1).append_right _).trans perm_append_comm
    · rw [dif_neg hlt]
      rw [collisions_short (by omega)] at hrows
      cases hrows
      exact ⟨t, rfl, rfl, by omega, by rw [append_nil]⟩

theorem solveRound_of (hsize : X.length < 2 ^ 31)
    (hrows : eh.mergePairs hashLen lenIndices (collisions eh.collisionByteLength (env.stdSort.sort eh.collisionByteLength X)) = .ok rows) :
    ∃ X', eh.solveRound env X hashLen lenIndices = .ok X' ∧ X'.Perm rows := by
  have hlen := (env.stdSort.perm eh.collisionByteLength X).length_eq
  have hsort := env.stdSort.sorted eh.collisionByteLength X
  obtain ⟨t, ht, htlength, hfree, hmade⟩ := eh.collideRuns_of hcan (i := 0)
    (t := ⟨env.stdSort.sort eh.collisionByteLength X, 0, []⟩) le_rfl (Nat.zero_le _) (by rw [hlen]; exact hsize)
    hsort hrows
  obtain ⟨X', hX', hperm⟩ := closeTable_of hfree (by rw [htlength, hlen]; exact hsize)
  refine ⟨X', ?_, hperm.trans hmade⟩
  unfold solveRound
  dsimp only
  rw [SolverEnv.check_of hcan, ht]
  change (closeTable t >>= _) = _
  rw [hX', SolverEnv.check_of hcan]
  rfl

theorem solveRound_overflow (hashLen lenIndices : Nat) (hsize : 2 ^ 31 ≤ X.length)
    (hall : ∀ a ∈ X, ∀ b ∈ X, a.hasCollision b eh.collisionByteLength = true) :
    eh.solveRound env X hashLen lenIndices = .error (.undefined "int overflow") := by
  have hperm := env.stdSort.perm eh.collisionByteLength X
  unfold solveRound
  dsimp only
  rw [SolverEnv.check_of hcan]
  generalize env.stdSort.sort eh.collisionByteLength X = Y at hperm
  have hlen := hperm.length_eq
  have hrun : runLength Y 0 eh.collisionByteLength = Y.length := by
    match Y, hperm, hlen with
    | [], _, hlen =>
      rw [length_nil] at hlen
      omega
    | a :: rest, hperm, _ =>
      have htake : rest.takeWhile (fun b => a.hasCollision b eh.collisionByteLength) = rest := by
        rw [takeWhile_eq_self_iff]
        intro b hb
        exact hall a (hperm.mem_iff.1 mem_cons_self) b (hperm.mem_iff.1 (mem_cons_of_mem _ hb))
      change 1 + (rest.takeWhile fun b => a.hasCollision b eh.collisionByteLength).length = _
      rw [htake, length_cons, Nat.add_comm]
  have hcount : checkInt (0 + Y.length) = .error (.undefined "int overflow") := if_neg (by omega)
  change (eh.collideRuns env hashLen lenIndices 0 ⟨Y, 0, []⟩ >>= _) = _
  rw [collideRuns, dif_pos (show 0 + 1 < Y.length by omega)]
  dsimp only
  rw [hrun, hcount]
  rfl

theorem offerRuns_of (hi : i ≤ X.length) (hsize : X.length < 2 ^ 31) (hsort : SortedRows hashLen (X.drop i))
    (hoffer : eh.offerPairs env hashLen lenIndices (collisions hashLen (X.drop i)) offered = .ok (false, offered')) :
    eh.offerRuns env X hashLen lenIndices i offered = .ok (false, offered') := by
  generalize hm : X.length - i = m
  induction m using Nat.strongRecOn generalizing i offered with
  | _ m ih =>
    rw [offerRuns]
    by_cases hlt : i + 1 < X.length
    · have hle := runLength_le hashLen (show i < X.length by omega)
      have hpos := one_le_runLength X i hashLen
      rw [collisions_drop hsort (by omega)] at hoffer
      obtain ⟨offered1, h1, h2⟩ := eh.offerPairs_append hoffer
      rw [dif_pos hlt]
      dsimp only
      generalize hj : runLength X i hashLen = j at *
      rw [checkInt_of (by omega), h1, SolverEnv.check_of hcan]
      exact ih (X.length - (i + j)) (by omega) hle (by rw [← drop_drop]; exact hsort.drop) h2 rfl
    · rw [dif_neg hlt]
      rw [collisions_short (by omega)] at hoffer
      exact hoffer

end

end Equihash

end LitecoinZ
