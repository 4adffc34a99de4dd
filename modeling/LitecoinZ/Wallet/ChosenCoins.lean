import Mathlib.Algebra.Order.BigOperators.Group.List
import Mathlib.Data.List.Flatten
import LitecoinZ.Lib.Triple
import LitecoinZ.Wallet.CoinSelection

/-!
# What coin selection ensures

The coins that `SelectCoins` chooses are different outputs of the wallet, their value is the sum it reports, and it is at
least the target (`checks_selectCoins`).  If the value of all outputs of the wallet fits an amount no sum overflows.
`SelectCoinsMinConf` finds coins whenever those of enough confirmations are worth the target, and leaves no change below a
cent unless they are worth less than a cent more (`selectCoinsMinConf_exact`).
-/

namespace LitecoinZ

open Selection StateExcept List

/-- The faults that are not excluded by a condition for the sums to fit. -/
def OverflowUnless (P : Prop) (fault : Fault) : Prop := fault = .overflow → ¬ P

variable {P : Prop}

theorem checks_amount {E : Fault → Prop} (hE : ¬ P → E .overflow) {n : ℤ} (h : P → Int64Range n) :
    Checks E (checked n) fun m => m = n := by
  by_cases hn : Int64Range n
  · rw [checked_ok hn]
    exact .ok rfl
  · have herror : checked n = .error .overflow := if_neg hn
    rw [herror]
    exact .error (hE fun hP => hn (h hP))

theorem checks_checked {n : ℤ} (h : P → Int64Range n) : Checks (OverflowUnless P) (checked n) fun m => m = n :=
  checks_amount (fun hP _ => hP) h

def walletValue (coins : List WalletCoin) : CAmount := (coins.map WalletCoin.nValue).sum

/-- No output twice. -/
abbrev DistinctCoins (coins : List WalletCoin) : Prop := (coins.map WalletCoin.prevout).Nodup

/-! ### The coins of the wallet -/

namespace CWallet

variable {w : CWallet}

theorem mem_of_coin? {outpoint : COutPoint} {coin : WalletCoin} (h : w.coin? outpoint = some coin) :
    coin ∈ w.coins ∧ coin.prevout = outpoint := by
  unfold coin? at h
  split at h
  · rename_i wtx hwtx
    obtain ⟨txout, htxout, rfl⟩ := Option.map_eq_some_iff.1 h
    refine ⟨mem_flatMap.2 ⟨⟨outpoint.hash, wtx⟩, AList.mem_lookup_iff.1 hwtx, ?_⟩, rfl⟩
    exact mem_map.2 ⟨(txout, outpoint.n), mk_mem_zipIdx_iff_getElem?.2 htxout, rfl⟩
  · cases h

private theorem nodup_walletTx (hash : Uint256) (wtx : CWalletTx) : DistinctCoins (wtx.coins hash) := by
  have hmap : (wtx.coins hash).map WalletCoin.prevout = (List.range wtx.tx.vout.length).map fun n => ⟨hash, n⟩ := by
    rw [CWalletTx.coins, map_map, range_eq_range', ← zipIdx_map_snd, map_map]
    rfl
  rw [DistinctCoins, hmap]
  refine nodup_range.map fun m n hmn => ?_
  exact (COutPoint.mk.inj hmn).2

theorem nodup_coins (w : CWallet) : DistinctCoins w.coins := by
  rw [DistinctCoins, coins, map_flatMap, nodup_flatMap]
  refine ⟨fun p _ => nodup_walletTx p.1 p.2, ?_⟩
  have hkeys : w.mapWallet.entries.Pairwise fun p q => p.1 ≠ q.1 := nodupKeys_iff_pairwise.1 w.mapWallet.nodupKeys
  refine hkeys.imp fun {p q} hne outpoint hp hq => ?_
  obtain ⟨c, hc, rfl⟩ := mem_map.1 hp
  obtain ⟨c', hc', heq⟩ := mem_map.1 hq
  obtain ⟨o, -, rfl⟩ := mem_map.1 hc
  obtain ⟨o', -, rfl⟩ := mem_map.1 hc'
  exact hne (COutPoint.mk.inj heq).1.symm

/-- The value of all outputs of the wallet fits an amount. -/
structure Fits (w : CWallet) : Prop where
  nonneg : ∀ coin ∈ w.coins, 0 ≤ coin.nValue
  total : walletValue w.coins < 2 ^ 63

end CWallet

theorem int64Range_of {n : ℤ} (h : 0 ≤ n ∧ n < 2 ^ 63) : Int64Range n := ⟨by have := h.1; omega, h.2⟩

/-- Different outputs of the wallet. -/
structure Coins (w : CWallet) (coins : List WalletCoin) : Prop where
  nodup : (coins.map WalletCoin.prevout).Nodup
  sub : coins ⊆ w.coins

namespace Coins

variable {w : CWallet} {coins coins' : List WalletCoin}

theorem sublist (h : Coins w coins) (hsub : coins'.Sublist coins) : Coins w coins' :=
  ⟨(hsub.map _).nodup h.nodup, fun _ hc => h.sub (hsub.subset hc)⟩

theorem perm (h : Coins w coins) (hperm : coins'.Perm coins) : Coins w coins' :=
  ⟨(hperm.map _).nodup_iff.2 h.nodup, fun _ hc => h.sub (hperm.subset hc)⟩

theorem range (h : Coins w coins) (hfits : w.Fits) : 0 ≤ walletValue coins ∧ walletValue coins < 2 ^ 63 := by
  refine ⟨sum_nonneg fun n hn => ?_, lt_of_le_of_lt ?_ hfits.total⟩
  · obtain ⟨coin, hcoin, rfl⟩ := mem_map.1 hn
    exact hfits.nonneg coin (h.sub hcoin)
  · exact sum_le_of_subset _ (Nodup.of_map _ h.nodup) h.sub hfits.nonneg

end Coins

/-- If the condition holds, the value of any of the coins is an amount. -/
def Summable (P : Prop) (coins : List WalletCoin) : Prop := P → ∀ part : List WalletCoin, part <+~ coins →
  Int64Range (walletValue part)

theorem Summable.mono {coins coins' : List WalletCoin} (h : Summable P coins) (hsub : coins' <+~ coins) :
    Summable P coins' := fun hP part hpart => h hP part (hpart.trans hsub)

theorem Coins.summable {w : CWallet} {coins : List WalletCoin} (h : Coins w coins) (hfits : P → w.Fits) :
    Summable P coins := by
  intro hP part hpart
  obtain ⟨l, hperm, hsub⟩ := hpart
  have hrange := (h.sublist hsub).range (hfits hP)
  rw [walletValue, (hperm.map _).sum_eq] at hrange
  exact int64Range_of hrange

theorem walletValue_append (coins coins' : List WalletCoin) :
    walletValue (coins ++ coins') = walletValue coins + walletValue coins' := by
  rw [walletValue, map_append, sum_append, walletValue, walletValue]

theorem walletValue_snoc {coins : List WalletCoin} {n : CAmount} (h : n = walletValue coins) (coin : WalletCoin) :
    walletValue (coins ++ [coin]) = n + coin.nValue := by
  rw [walletValue_append, h]
  simp [walletValue]

variable {coins setCoins pool vValue rest : List WalletCoin} {coin : WalletCoin} {nTargetValue nTotalLower : CAmount}
  {takes : Nat → Bool → Bool} {s : Subset} {best : List Bool × CAmount} {vCoins : List COutput}

theorem walletValue_perm {coins' : List WalletCoin} (h : coins.Perm coins') : walletValue coins = walletValue coins' :=
  (h.map _).sum_eq

variable {w : CWallet}

/-! ### What has been chosen -/

/-- What has been chosen are different outputs of the wallet, from a list, and the sum is right. -/
structure Chosen.Sound (w : CWallet) (pool : List WalletCoin) (chosen : Chosen) : Prop where
  coins : Coins w chosen.setCoins
  sub : chosen.setCoins ⊆ pool
  value : chosen.nValue = walletValue chosen.setCoins

theorem insertCoin_new (h : DistinctCoins (setCoins ++ [coin])) :
    insertCoin coin setCoins = setCoins ++ [coin] := by
  refine if_neg ?_
  rw [any_eq_true]
  rintro ⟨c, hc, heq⟩
  rw [DistinctCoins, map_append, nodup_append] at h
  exact h.2.2 c.prevout (mem_map_of_mem hc) coin.prevout (by simp) (of_decide_eq_true heq)

/-- Flags for coins with a sum of at least the target. -/
structure Best (vValue : List WalletCoin) (nTargetValue : CAmount) (vfBest : List Bool) (nBest : CAmount) : Prop where
  total : nBest = walletValue (select vValue vfBest)
  reached : nTargetValue ≤ nBest

/-- The state of a pass at coin `i`.  The coins that will be taken have not been included. -/
structure Passing (vValue : List WalletCoin) (nTargetValue : CAmount) (takes : Nat → Bool → Bool) (i : Nat) (s : Subset) :
    Prop where
  length : s.vfIncluded.length = vValue.length
  total : s.nTotal = walletValue (select vValue s.vfIncluded)
  fresh : ∀ j, i ≤ j → j < vValue.length → takes j true = true → s.vfIncluded[j]? = some false
  best : Best vValue nTargetValue s.vfBest s.nBest

theorem Passing.next {i : Nat} (h : Passing vValue nTargetValue takes i s) : Passing vValue nTargetValue takes (i + 1) s :=
  ⟨h.length, h.total, fun j hj => h.fresh j (Nat.le_of_succ_le hj), h.best⟩

/-- The limit for the coins that count as small is an amount. -/
def TargetFits (nTargetValue : CAmount) : Prop := 0 ≤ nTargetValue ∧ nTargetValue + CENT < 2 ^ 63

theorem TargetFits.range (h : TargetFits nTargetValue) : Int64Range (nTargetValue + CENT) := by
  have hcent : (0 : ℤ) ≤ CENT := by decide
  exact int64Range_of ⟨add_nonneg h.1 hcent, h.2⟩

/-- The coins that can be spent and have enough confirmations. -/
def eligible (env : CoinEnv) (nConfMine nConfTheirs : Int) (vCoins : List COutput) : List WalletCoin :=
  (vCoins.filter (isCandidate env nConfMine nConfTheirs)).map COutput.coin

/-- What has been found among the coins `seen`: the small ones, and one of the others unless they all have the largest
value that an amount can have. -/
structure Scanned (nTargetValue : CAmount) (seen : List WalletCoin) (s : Scan) : Prop where
  small : s.vValue = seen.filter fun coin => coin.nValue < nTargetValue + CENT
  total : s.nTotalLower = walletValue s.vValue
  larger : ∀ coin, s.coinLowestLarger.2 = some coin →
    coin ∈ seen ∧ s.coinLowestLarger.1 = coin.nValue ∧ nTargetValue + CENT ≤ coin.nValue
  missed : s.coinLowestLarger.2 = none → s.coinLowestLarger.1 = 2 ^ 63 - 1 ∧
    ∀ coin ∈ seen, nTargetValue + CENT ≤ coin.nValue → 2 ^ 63 - 1 ≤ coin.nValue

variable {seen : List WalletCoin} {env : CoinEnv} {nConfMine nConfTheirs : Int}

section

variable {s : Scan} (h : Scanned nTargetValue seen s)
include h

theorem Scanned.skip (hlarge : nTargetValue + CENT ≤ coin.nValue) (hle : s.coinLowestLarger.1 ≤ coin.nValue) :
    Scanned nTargetValue (seen ++ [coin]) s := by
  refine ⟨?_, h.total, fun c hc => ?_, fun hnone => ?_⟩
  · rw [h.small, filter_append, filter_cons_of_neg (by simpa using hlarge), filter_nil, append_nil]
  · obtain ⟨hmem, hrest⟩ := h.larger c hc
    exact ⟨mem_append_left _ hmem, hrest⟩
  · obtain ⟨hmax, hseen⟩ := h.missed hnone
    refine ⟨hmax, fun c hc hge => ?_⟩
    rcases mem_append.1 hc with hc | hc
    · exact hseen c hc hge
    · rw [mem_singleton.1 hc, ← hmax]
      exact hle

theorem Scanned.lower (hlarge : nTargetValue + CENT ≤ coin.nValue) :
    Scanned nTargetValue (seen ++ [coin]) { s with coinLowestLarger := (coin.nValue, some coin) } := by
  refine ⟨?_, h.total, ?_, nofun⟩
  · rw [h.small, filter_append, filter_cons_of_neg (by simpa using hlarge), filter_nil, append_nil]
  · rintro _ ⟨⟩
    exact ⟨by simp, rfl, hlarge⟩

theorem Scanned.add (hsmall : coin.nValue < nTargetValue + CENT) :
    Scanned nTargetValue (seen ++ [coin])
      { s with vValue := s.vValue ++ [coin], nTotalLower := s.nTotalLower + coin.nValue } := by
  refine ⟨?_, ?_, fun c hc => ?_, fun hnone => ⟨(h.missed hnone).1, fun c hc hge => ?_⟩⟩
  · rw [h.small, filter_append, filter_cons_of_pos (by simpa using hsmall), filter_nil]
  · exact (walletValue_snoc h.total coin).symm
  · obtain ⟨hmem, hrest⟩ := h.larger c hc
    exact ⟨mem_append_left _ hmem, hrest⟩
  · rcases mem_append.1 hc with hc | hc
    · exact (h.missed hnone).2 c hc hge
    · rw [mem_singleton.1 hc] at hge
      exact absurd hsmall (not_lt.2 hge)

theorem Scanned.all (hnone : s.coinLowestLarger.2 = none) (hmax : ∀ coin ∈ seen, coin.nValue < 2 ^ 63 - 1) :
    s.nTotalLower = walletValue seen := by
  rw [h.total, h.small, filter_eq_self.2]
  intro coin hcoin
  refine decide_eq_true (not_le.1 fun hge => ?_)
  exact absurd (hmax coin hcoin) (not_lt.2 ((h.missed hnone).2 coin hcoin hge))

end

/-- Coins from a list whose sum is at least the target, and more than a little larger where the list allows it. -/
structure Chosen.Picked (pool : List WalletCoin) (nTargetValue : CAmount) (chosen : Chosen) : Prop where
  nodup : (chosen.setCoins.map WalletCoin.prevout).Nodup
  sub : chosen.setCoins ⊆ pool
  value : chosen.nValue = walletValue chosen.setCoins
  enough : nTargetValue ≤ chosen.nValue
  change : (∀ coin ∈ pool, coin.nValue < 2 ^ 63 - 1) → chosen.nValue ≠ nTargetValue →
    nTargetValue + CENT ≤ walletValue pool → nTargetValue + CENT ≤ chosen.nValue

/-- What `SelectCoinsMinConf` returns. -/
structure Chosen.Answer (pool : List WalletCoin) (nTargetValue : CAmount) (r : Option Chosen) : Prop where
  some : ∀ chosen, r = some chosen → Chosen.Picked pool nTargetValue chosen
  none : r = none → (∀ coin ∈ pool, coin.nValue < 2 ^ 63 - 1) → walletValue pool < nTargetValue

/-! ### Coins of enough confirmations -/

section

-- A sum that is not an amount is a failure that `E` allows, if the condition does not hold.
variable {E : Fault → Prop} (hE : ¬ P → E .overflow)
include hE

theorem checks_add {chosen : Chosen} (hvalue : chosen.nValue = walletValue chosen.setCoins)
    (hnodup : DistinctCoins (chosen.setCoins ++ coins)) (hsums : Summable P (chosen.setCoins ++ coins)) :
    Checks E (Chosen.add coins chosen) fun chosen' =>
      chosen'.setCoins = chosen.setCoins ++ coins ∧ chosen'.nValue = walletValue (chosen.setCoins ++ coins) := by
  induction coins generalizing chosen with
  | nil =>
    rw [append_nil]
    exact .ok ⟨rfl, hvalue⟩
  | cons coin coins ih =>
    have hsplit : chosen.setCoins ++ coin :: coins = (chosen.setCoins ++ [coin]) ++ coins := by simp
    rw [hsplit] at hnodup hsums ⊢
    have hone : (chosen.setCoins ++ [coin]).Sublist (chosen.setCoins ++ [coin] ++ coins) := sublist_append_left _ _
    have hsum := walletValue_snoc hvalue coin
    refine (checks_amount hE fun hP => ?_).bind fun n hn => ?_
    · rw [← hsum]
      exact hsums hP _ hone.subperm
    · subst hn
      let chosen' : Chosen := ⟨chosen.setCoins ++ [coin], chosen.nValue + coin.nValue⟩
      have hvalue' : chosen'.nValue = walletValue chosen'.setCoins := hsum.symm
      rw [insertCoin_new ((hone.map _).nodup hnodup)]
      exact ih hvalue' hnodup hsums

theorem checks_add_new (hnodup : DistinctCoins coins) (hsums : Summable P coins) :
    Checks E (Chosen.add coins {}) fun chosen =>
      chosen.setCoins = coins ∧ chosen.nValue = walletValue coins := by
  have hempty : ({} : Chosen).nValue = walletValue ({} : Chosen).setCoins := rfl
  exact checks_add hE hempty hnodup hsums

section

variable (hsums : Summable P vValue)
include hsums

theorem Passing.checks_add {i : Nat} (hcoin : vValue[i]? = some coin) (hfalse : s.vfIncluded[i]? = some false)
    (h : Passing vValue nTargetValue takes i s) :
    Checks E (s.add nTargetValue i coin.nValue) (Passing vValue nTargetValue takes (i + 1)) := by
  have hset := select_set hcoin hfalse
  have hsum : walletValue (select vValue (s.vfIncluded.set i true)) = s.nTotal + coin.nValue := by
    rw [walletValue_perm hset, h.total]
    simp [walletValue, add_comm]
  have hback : (s.vfIncluded.set i true).set i false = s.vfIncluded := by
    rw [set_set]
    refine ext_getElem? fun n => ?_
    by_cases hn : i = n
    · subst hn
      rw [getElem?_set_self (List.getElem?_eq_some_iff.1 hfalse).1, hfalse]
    · rw [getElem?_set_ne hn]
  refine (checks_amount hE fun hP => ?_).bind fun n hn => ?_
  · rw [← hsum]
    exact hsums hP _ (select_sublist _ _).subperm
  · subst hn
    dsimp only
    split
    · rename_i hge
      refine .ok ⟨?_, ?_, ?_, ?_⟩
      · rw [hback]
        exact h.length
      · rw [hback, add_sub_cancel_right, h.total]
      · rw [hback]
        exact h.next.fresh
      · -- The coins with this one are better, or what was best stays so.
        by_cases hlt : s.nTotal + coin.nValue < s.nBest
        · simp only [if_pos hlt]
          exact ⟨hsum.symm, hge⟩
        · simp only [if_neg hlt]
          exact h.best
    · refine .ok ⟨?_, hsum.symm, ?_, h.best⟩
      · rw [length_set]
        exact h.length
      · intro j hj hlen htakes
        rw [getElem?_set_ne (by omega)]
        exact h.fresh j (by omega) hlen htakes

theorem checks_subsetPass {i : Nat} (hrest : vValue.drop i = rest) (h : Passing vValue nTargetValue takes i s) :
    Checks E (subsetPass nTargetValue takes rest i s) fun s' =>
      s'.vfIncluded.length = vValue.length ∧ s'.nTotal = walletValue (select vValue s'.vfIncluded) ∧
        Best vValue nTargetValue s'.vfBest s'.nBest := by
  induction rest generalizing i s with
  | nil => exact .ok ⟨h.length, h.total, h.best⟩
  | cons coin rest ih =>
    have hcoin : vValue[i]? = some coin := by
      rw [← head?_drop, hrest]
      rfl
    have hlt : i < vValue.length := (List.getElem?_eq_some_iff.1 hcoin).1
    have hdrop : vValue.drop (i + 1) = rest := by rw [← tail_drop, hrest, tail_cons]
    rw [subsetPass]
    split
    · rename_i htakes
      have hget : s.vfIncluded[i]? = some (s.vfIncluded.getD i false) := by
        rw [getD_eq_getElem?_getD, getElem?_eq_getElem (h.length ▸ hlt)]
        rfl
      have hfalse : s.vfIncluded[i]? = some false := by
        cases hflag : s.vfIncluded.getD i false with
        | false => rw [hget, hflag]
        | true =>
          rw [hflag] at htakes
          exact h.fresh i le_rfl hlt htakes
      exact (h.checks_add hE hsums hcoin hfalse).bind fun s' hs' => ih hdrop hs'
    · exact ih hdrop h.next

theorem checks_subsetRep (insecureRand : Nat → Bool) (h : Best vValue nTargetValue best.1 best.2) :
    Checks E (subsetRep insecureRand vValue nTargetValue best) fun best' =>
      Best vValue nTargetValue best'.1 best'.2 := by
  have hstart : Passing vValue nTargetValue (fun i _ => insecureRand i) 0
      ⟨List.replicate vValue.length false, 0, false, best.1, best.2⟩ := by
    refine ⟨length_replicate, ?_, fun j _ hj _ => ?_, h⟩
    · rw [select_replicate_false]
      rfl
    · rw [getElem?_replicate, if_pos hj]
  refine (checks_subsetPass hE hsums drop_zero hstart).bind fun s hs => ?_
  obtain ⟨hlen, htotal, hbest⟩ := hs
  have hagain : Passing vValue nTargetValue (fun _ included => !included) 0 s :=
    ⟨hlen, htotal, fun j _ _ hfalse => (by cases hfalse), hbest⟩
  have hsnd : Checks E (secondPass nTargetValue vValue s) fun s' =>
      Best vValue nTargetValue s'.vfBest s'.nBest := by
    rw [secondPass]
    split
    · exact .ok hbest
    · exact (checks_subsetPass hE hsums drop_zero hagain).mono fun s' hs' => hs'.2.2
  refine hsnd.bind fun s' hs' => ?_
  exact .ok (show Best vValue nTargetValue (s'.vfBest, s'.nBest).1 (s'.vfBest, s'.nBest).2 from hs')

theorem checks_subsetReps (insecureRand : Nat → Nat → Bool) (count : Nat) {nRep : Nat}
    (h : Best vValue nTargetValue best.1 best.2) :
    Checks E (subsetReps insecureRand vValue nTargetValue count nRep best) fun best' =>
      Best vValue nTargetValue best'.1 best'.2 := by
  induction count generalizing nRep best with
  | zero => exact .ok h
  | succ count ih =>
    rw [subsetReps]
    split
    · exact (checks_subsetRep hE hsums _ h).bind fun best' hbest' => ih hbest'
    · exact .ok h

theorem checks_approximateBestSubset (htotal : nTotalLower = walletValue vValue) (hle : nTargetValue ≤ nTotalLower)
    (insecureRand : Nat → Nat → Bool) (iterations : Nat) :
    Checks E (approximateBestSubset insecureRand vValue nTotalLower nTargetValue iterations) fun best =>
      Best vValue nTargetValue best.1 best.2 := by
  refine checks_subsetReps hE hsums insecureRand iterations ⟨?_, hle⟩
  rw [select_replicate_true]
  exact htotal

end

theorem checks_scanCoins (htarget : P → TargetFits nTargetValue) {s : Scan}
    (hpool : seen ++ eligible env nConfMine nConfTheirs vCoins = pool) (hsums : Summable P pool)
    (h : Scanned nTargetValue seen s) :
    Checks E (scanCoins env nTargetValue nConfMine nConfTheirs vCoins s) fun r =>
      (∀ coin, r = .inl coin → coin ∈ pool ∧ coin.nValue = nTargetValue) ∧ ∀ s', r = .inr s' → Scanned nTargetValue pool s' := by
  induction vCoins generalizing s seen with
  | nil =>
    refine .ok ⟨nofun, ?_⟩
    rintro s' ⟨⟩
    simpa [← hpool, eligible] using h
  | cons output vCoins ih =>
    rw [scanCoins]
    split
    · rename_i hnot
      exact ih (by simpa [eligible, filter_cons_of_neg (by simpa using hnot)] using hpool) h
    · rename_i hcandidate
      have hnext : seen ++ [output.coin] ++ eligible env nConfMine nConfTheirs vCoins = pool := by
        simpa [eligible, filter_cons_of_pos (by simpa using hcandidate)] using hpool
      split
      · rename_i hexact
        refine .ok ⟨?_, nofun⟩
        rintro coin ⟨⟩
        exact ⟨by simp [← hnext], hexact⟩
      · refine (checks_amount hE fun hP => (htarget hP).range).bind fun limit hlimit => ?_
        subst hlimit
        split
        · rename_i hsmall
          have hadd := h.add hsmall
          refine (checks_amount hE fun hP => ?_).bind fun n hn => ?_
          · have hpart : s.vValue ++ [output.coin] <+ pool := by
              rw [h.small, ← hnext]
              exact (filter_sublist.append_right _).trans (sublist_append_left _ _)
            have hrange := hsums hP _ hpart.subperm
            rwa [← hadd.total] at hrange
          · subst hn
            exact ih hnext hadd
        · rename_i hlarge
          split
          · exact ih hnext (h.lower (not_lt.1 hlarge))
          · rename_i hle
            exact ih hnext (h.skip (not_lt.1 hlarge) (not_lt.1 hle))

theorem checks_bestSubset (htarget : P → TargetFits nTargetValue) (rand : CoinRandom) (hsums : Summable P vValue)
    (htotal : nTotalLower = walletValue vValue) (hle : nTargetValue ≤ nTotalLower) :
    Checks E (bestSubset rand vValue nTotalLower nTargetValue) fun best =>
      Best vValue nTargetValue best.1 best.2 ∧
        (best.2 ≠ nTargetValue → nTargetValue + CENT ≤ nTotalLower → nTargetValue + CENT ≤ best.2) := by
  refine (checks_approximateBestSubset hE hsums htotal hle _ _).bind fun best hbest => ?_
  split
  · refine (checks_amount hE fun hP => (htarget hP).range).bind fun limit hlimit => ?_
    subst hlimit
    split
    · rename_i hge
      have hcent : (0 : ℤ) ≤ CENT := by decide
      refine (checks_approximateBestSubset hE hsums htotal hge _ _).mono fun best' h => ?_
      have hrch := h.reached
      exact ⟨⟨h.total, by linarith⟩, fun _ _ => hrch⟩
    · rename_i hnot
      exact .ok ⟨hbest, fun _ hge => absurd hge hnot⟩
  · rename_i heq
    exact .ok ⟨hbest, fun hne => absurd hne heq⟩

theorem checks_takesLarger (htarget : P → TargetFits nTargetValue) (nBest nLarger : CAmount) :
    Checks E (takesLarger nTargetValue nBest nLarger) fun larger =>
      larger = false → nBest ≠ nTargetValue → nTargetValue + CENT ≤ nBest := by
  rw [takesLarger]
  split
  · refine (checks_amount hE fun hP => (htarget hP).range).bind fun limit hlimit => .ok fun hfalse _ => ?_
    simp only [Bool.or_eq_false_iff, decide_eq_false_iff_not, not_lt] at hfalse
    exact hlimit ▸ hfalse.1
  · rename_i heq
    exact .ok fun _ hne => absurd hne heq

theorem checks_pick (hnodup : DistinctCoins pool) (hsums : Summable P pool) (hsub : coins <+~ pool)
    (hle : nTargetValue ≤ walletValue coins)
    (hchg : (∀ coin ∈ pool, coin.nValue < 2 ^ 63 - 1) → walletValue coins ≠ nTargetValue →
      nTargetValue + CENT ≤ walletValue pool → nTargetValue + CENT ≤ walletValue coins) :
    Checks E (Chosen.add coins {}) (Chosen.Picked pool nTargetValue) := by
  have hnodup' : DistinctCoins coins := by
    obtain ⟨l, hperm, hsublist⟩ := hsub
    exact (hperm.map _).nodup_iff.1 ((hsublist.map _).nodup hnodup)
  refine (checks_add_new hE hnodup' (hsums.mono hsub)).mono fun chosen h => ?_
  obtain ⟨hset, hvalue⟩ := h
  exact ⟨hset ▸ hnodup', hset ▸ hsub.subset, hset ▸ hvalue, hvalue ▸ hle, hvalue ▸ hchg⟩

theorem checks_pick_single (hnodup : DistinctCoins pool) (hsums : Summable P pool) (hcoin : coin ∈ pool)
    (hvalue : coin.nValue = nTargetValue ∨ nTargetValue + CENT ≤ coin.nValue) :
    Checks E (Chosen.add [coin] {}) (Chosen.Picked pool nTargetValue) := by
  have hcent : (0 : ℤ) ≤ CENT := by decide
  have hsum : walletValue [coin] = coin.nValue := by simp [walletValue]
  refine checks_pick hE hnodup hsums (singleton_subperm_iff.2 hcoin) ?_ fun _ hne _ => ?_
  · rw [hsum]
    rcases hvalue with hvalue | hvalue <;> linarith
  · rw [hsum] at hne ⊢
    exact hvalue.resolve_left hne

theorem checks_chooseSubset (htarget : P → TargetFits nTargetValue) (rand : CoinRandom) {s : Scan}
    (hnodup : DistinctCoins seen) (hsums : Summable P seen) (h : Scanned nTargetValue seen s)
    (hle : nTargetValue ≤ s.nTotalLower) :
    Checks E (chooseSubset rand nTargetValue s) (Chosen.Picked seen nTargetValue) := by
  have hsub : rand.sort s.vValue <+~ seen := by
    refine (rand.sort_perm s.vValue).subperm.trans ?_
    rw [h.small]
    exact filter_sublist.subperm
  have htotal : s.nTotalLower = walletValue (rand.sort s.vValue) := by rw [h.total, walletValue_perm (rand.sort_perm _)]
  refine (checks_bestSubset hE htarget rand (hsums.mono hsub) htotal hle).bind fun best hbest => ?_
  have hselect : (best.2 ≠ nTargetValue → s.coinLowestLarger.2 = none ∨ nTargetValue + CENT ≤ best.2) →
      Checks E (Chosen.add (select (rand.sort s.vValue) best.1) {})
        (Chosen.Picked seen nTargetValue) := by
    intro hlarger
    refine checks_pick hE hnodup hsums ((select_sublist _ _).subperm.trans hsub) ?_ ?_
    · rw [← hbest.1.total]
      exact hbest.1.reached
    · rw [← hbest.1.total]
      intro hmax hne hpool
      rcases hlarger hne with hnone | hge
      · exact hbest.2 hne (h.all hnone hmax ▸ hpool)
      · exact hge
  split
  · rename_i coin hcoin
    obtain ⟨hmem, -, hge⟩ := h.larger coin hcoin
    refine (checks_takesLarger hE htarget _ _).bind fun larger hlarger => ?_
    cases larger with
    | true => exact checks_pick_single hE hnodup hsums hmem (.inr hge)
    | false => exact hselect fun hne => .inr (hlarger rfl hne)
  · rename_i hnone
    exact hselect fun _ => .inl hnone

omit hE in
theorem checks_some {x : Except Fault Chosen} (h : Checks E x (Chosen.Picked pool nTargetValue)) :
    Checks E (some <$> x) (Chosen.Answer pool nTargetValue) := by
  cases x with
  | error e => exact .error (h.2 e rfl)
  | ok chosen =>
    refine .ok ⟨?_, nofun⟩
    rintro _ ⟨⟩
    exact h.1 chosen rfl

theorem checks_selectCoinsMinConf (htarget : P → TargetFits nTargetValue) (rand : CoinRandom)
    (hpool : eligible env nConfMine nConfTheirs vCoins = pool) (hnodup : DistinctCoins pool) (hsums : Summable P pool) :
    Checks E (selectCoinsMinConf env rand nTargetValue nConfMine nConfTheirs vCoins) (Chosen.Answer pool nTargetValue) := by
  obtain ⟨shuffled, hshuffled⟩ : ∃ l, eligible env nConfMine nConfTheirs (rand.shuffle vCoins) = l := ⟨_, rfl⟩
  have hperm : shuffled ~ pool := by
    rw [← hshuffled, ← hpool]
    exact ((rand.shuffle_perm vCoins).filter _).map _
  have hpick : ∀ {r}, Chosen.Answer shuffled nTargetValue r → Chosen.Answer pool nTargetValue r := by
    intro r hr
    have hall : (∀ coin ∈ pool, coin.nValue < 2 ^ 63 - 1) → ∀ coin ∈ shuffled, coin.nValue < 2 ^ 63 - 1 :=
      fun h coin hcoin => h coin (hperm.subset hcoin)
    refine ⟨fun chosen hcho => ?_, fun hnone hmax => walletValue_perm hperm ▸ hr.none hnone (hall hmax)⟩
    obtain ⟨hnodup, hsub, hvalue, hle, hchg⟩ := hr.some chosen hcho
    rw [walletValue_perm hperm] at hchg
    exact ⟨hnodup, fun c hc => hperm.subset (hsub hc), hvalue, hle, fun hmax => hchg (hall hmax)⟩
  have hnodup' := ((hperm.map WalletCoin.prevout).nodup_iff).2 hnodup
  have hsums' := hsums.mono hperm.subperm
  have hstart : Scanned nTargetValue [] {} := ⟨rfl, rfl, nofun, fun _ => ⟨rfl, nofun⟩⟩
  refine (checks_scanCoins hE htarget hshuffled hsums' hstart).bind fun r hr => Checks.mono ?_ fun _ => hpick
  cases r with
  | inl coin =>
    obtain ⟨hmem, hvalue⟩ := hr.1 coin rfl
    exact checks_some (checks_pick_single hE hnodup' hsums' hmem (.inl hvalue))
  | inr s =>
    have hs := hr.2 s rfl
    dsimp only
    split
    · rename_i heq
      rw [hs.total] at heq
      have hsub : s.vValue <+~ shuffled := by
        rw [hs.small]
        exact filter_sublist.subperm
      exact checks_some (checks_pick hE hnodup' hsums' hsub heq.ge fun _ hne => absurd heq hne)
    · split
      · rename_i hlt
        split
        · rename_i coin hcoin
          obtain ⟨hmem, -, hge⟩ := hs.larger coin hcoin
          exact checks_some (checks_pick_single hE hnodup' hsums' hmem (.inr hge))
        · rename_i hnone
          exact .ok ⟨nofun, fun _ hmax => hs.all hnone hmax ▸ hlt⟩
      · rename_i hnot
        exact checks_some (checks_chooseSubset hE htarget rand hnodup' hsums' hs (not_lt.1 hnot))

end

/-- Coins from a list whose sum is at least the target. -/
def Chosen.Enough (w : CWallet) (pool : List WalletCoin) (nTargetValue : CAmount) (chosen : Chosen) : Prop :=
  Chosen.Sound w pool chosen ∧ nTargetValue ≤ chosen.nValue

/-- A choice that may fail. -/
def Chosen.EnoughIfAny (w : CWallet) (pool : List WalletCoin) (nTargetValue : CAmount) (r : Option Chosen) : Prop :=
  ∀ chosen, r = some chosen → Chosen.Enough w pool nTargetValue chosen

theorem checks_minConf_enough (hfits : P → w.Fits) (htarget : P → TargetFits nTargetValue) (env : CoinEnv)
    (rand : CoinRandom) (nConfMine nConfTheirs : Int) (hcoins : Coins w (vCoins.map COutput.coin)) :
    Checks (OverflowUnless P) (selectCoinsMinConf env rand nTargetValue nConfMine nConfTheirs vCoins)
      (Chosen.EnoughIfAny w (vCoins.map COutput.coin) nTargetValue) := by
  have hsub : eligible env nConfMine nConfTheirs vCoins <+ vCoins.map COutput.coin := filter_sublist.map _
  have heligible := hcoins.sublist hsub
  refine (checks_selectCoinsMinConf (fun hP _ => hP) htarget rand rfl heligible.nodup
    (heligible.summable hfits)).mono fun r hr chosen hc => ?_
  have hpick := hr.some chosen hc
  refine ⟨⟨⟨hpick.nodup, ?_⟩, ?_, hpick.value⟩, hpick.enough⟩
  · exact fun c hc => heligible.sub (hpick.sub hc)
  · exact fun c hc => hsub.subset (hpick.sub hc)

/-- For different outputs of positive value, with a sum that is an amount and none of the largest amount: coins are found
just when those that are eligible are worth the target; they are then eligible, with the sum that is reported, and the
change is nothing or at least a cent, if the eligible coins allow it. -/
theorem selectCoinsMinConf_exact (env : CoinEnv) (rand : CoinRandom) (nTargetValue nConfMine nConfTheirs : Int)
    (vCoins : List COutput) (hnodup : (vCoins.map fun output => output.coin.prevout).Nodup)
    (hpos : ∀ output ∈ vCoins, 0 < output.coin.nValue) (hsum : walletValue (vCoins.map COutput.coin) < 2 ^ 63)
    (htarget : 0 < nTargetValue ∧ nTargetValue + CENT < 2 ^ 63)
    (hmax : ∀ coin ∈ eligible env nConfMine nConfTheirs vCoins, coin.nValue ≠ 2 ^ 63 - 1) :
    ∃ r, selectCoinsMinConf env rand nTargetValue nConfMine nConfTheirs vCoins = .ok r ∧
      (r.isSome = true ↔ nTargetValue ≤ walletValue (eligible env nConfMine nConfTheirs vCoins)) ∧
      ∀ chosen, r = some chosen →
        (chosen.setCoins.map WalletCoin.prevout).Nodup ∧ chosen.setCoins ⊆ eligible env nConfMine nConfTheirs vCoins ∧
        chosen.nValue = walletValue chosen.setCoins ∧ nTargetValue ≤ chosen.nValue ∧
        (chosen.nValue ≠ nTargetValue → nTargetValue + CENT ≤ walletValue (eligible env nConfMine nConfTheirs vCoins) →
          nTargetValue + CENT ≤ chosen.nValue) := by
  have hsublist : eligible env nConfMine nConfTheirs vCoins <+ vCoins.map COutput.coin := filter_sublist.map _
  have hnn : ∀ coin ∈ vCoins.map COutput.coin, 0 ≤ coin.nValue := by
    intro coin hcoin
    obtain ⟨output, houtput, rfl⟩ := mem_map.1 hcoin
    exact (hpos output houtput).le
  have hnodup : DistinctCoins (vCoins.map COutput.coin) := by
    rw [DistinctCoins, map_map]
    exact hnodup
  have hle : ∀ {part : List WalletCoin}, DistinctCoins part → part ⊆ vCoins.map COutput.coin →
      Int64Range (walletValue part) := by
    intro part hpart hsub
    refine int64Range_of ⟨sum_nonneg fun n hn => ?_, (sum_le_of_subset _ (hpart.of_map _) hsub hnn).trans_lt hsum⟩
    obtain ⟨coin, hcoin, rfl⟩ := mem_map.1 hn
    exact hnn coin (hsub hcoin)
  have hsums : Summable True (eligible env nConfMine nConfTheirs vCoins) := by
    rintro - part hpart
    obtain ⟨l, hperm, hl⟩ := hpart.trans hsublist.subperm
    exact hle ((hperm.map _).nodup_iff.1 ((hl.map _).nodup hnodup)) fun c hc => hl.subset (hperm.symm.subset hc)
  have hmax : ∀ coin ∈ eligible env nConfMine nConfTheirs vCoins, coin.nValue < 2 ^ 63 - 1 := by
    intro coin hcoin
    have hone := (@hle [coin] (nodup_singleton _) (cons_subset.2 ⟨hsublist.subset hcoin, nil_subset _⟩)).2
    have hne := hmax coin hcoin
    simp only [walletValue, map_cons, map_nil, sum_singleton] at hone
    exact lt_of_le_of_ne (Int.le_sub_one_of_lt hone) hne
  obtain ⟨r, hr, hans⟩ := (checks_selectCoinsMinConf (E := fun _ => False) (fun h => h trivial)
    (fun _ => ⟨htarget.1.le, htarget.2⟩) rand rfl ((hsublist.map _).nodup hnodup) hsums).exists_ok
  refine ⟨r, hr, ⟨fun hsome => ?_, fun hge => ?_⟩, fun chosen hcho => ?_⟩
  · obtain ⟨chosen, rfl⟩ := Option.isSome_iff_exists.1 hsome
    obtain ⟨hset, hsub, hvalue, henough, -⟩ := hans.some chosen rfl
    rw [hvalue] at henough
    exact henough.trans (sum_le_of_subset _ (hset.of_map _) hsub fun c hc => hnn c (hsublist.subset hc))
  · cases r with
    | none => exact absurd (hans.none rfl hmax) (not_lt.2 hge)
    | some chosen => rfl
  · obtain ⟨hset, hsub, hvalue, henough, hchg⟩ := hans.some chosen hcho
    exact ⟨hset, hsub, hvalue, henough, hchg hmax⟩

/-! ### Preset and other coins -/

theorem checks_spendableValue (hfits : P → w.Fits) {value : CAmount} (hvalue : value = walletValue coins)
    (hcoins : Coins w (coins ++ vCoins.map COutput.coin)) :
    Checks (OverflowUnless P) (spendableValue vCoins value) fun _ => True := by
  induction vCoins generalizing coins value with
  | nil => exact .ok trivial
  | cons out vCoins ih =>
    rw [map_cons] at hcoins
    have hsplit : (coins ++ [out.coin]) ++ vCoins.map COutput.coin = coins ++ out.coin :: vCoins.map COutput.coin := by simp
    rw [spendableValue]
    split
    · have hsum := walletValue_snoc hvalue out.coin
      rw [← hsplit] at hcoins
      refine (checks_checked fun hP => int64Range_of ?_).bind fun n hn => ih (hn.trans hsum.symm) hcoins
      rw [← hsum]
      exact (hcoins.sublist (sublist_append_left _ _)).range (hfits hP)
    · exact ih hvalue (hcoins.sublist ((sublist_cons_self _ _).append_left _))

theorem checks_needsCoinbaseCoins (hfits : P → w.Fits) (env : CoinEnv) (nTargetValue : CAmount)
    {vCoinsNoCoinbase vCoinsWithCoinbase : List COutput} (hno : Coins w (vCoinsNoCoinbase.map COutput.coin))
    (hwith : Coins w (vCoinsWithCoinbase.map COutput.coin)) :
    Checks (OverflowUnless P) (needsCoinbaseCoins env nTargetValue vCoinsNoCoinbase vCoinsWithCoinbase) fun _ => True := by
  rw [needsCoinbaseCoins]
  split
  · have hempty : (0 : CAmount) = walletValue [] := rfl
    refine (checks_spendableValue hfits hempty hno).bind fun value _ => ?_
    split
    · exact (checks_spendableValue hfits hempty hwith).bind fun _ _ => .ok trivial
    · exact .ok trivial
  · exact .ok trivial

theorem coins_availableCoins (env : CoinEnv) (w : CWallet) (fOnlyConfirmed : Bool) (coinControl : Option CCoinControl)
    (fIncludeZeroValue fIncludeCoinBase : Bool) :
    Coins w ((availableCoins env w fOnlyConfirmed coinControl fIncludeZeroValue fIncludeCoinBase).map COutput.coin) := by
  refine Coins.sublist ⟨w.nodup_coins, fun _ h => h⟩ ?_
  rw [availableCoins, map_flatMap, CWallet.coins]
  refine List.Sublist.flatMap_right _ fun p _ => ?_
  split
  · rw [map_map]
    have hmap : (COutput.coin ∘ fun coin => (⟨coin, env.getDepthInMainChain p.2.tx, env.isMine coin.txout = .spendable⟩ :
        COutput)) = id := rfl
    rw [hmap, map_id]
    exact filter_sublist
  · exact nil_sublist _

theorem checks_chooseAll (hfits : P → w.Fits) (nTargetValue : CAmount) (hcoins : Coins w (vCoins.map COutput.coin)) :
    Checks (OverflowUnless P) (chooseAll nTargetValue vCoins) (Chosen.EnoughIfAny w (vCoins.map COutput.coin) nTargetValue) := by
  have hsub : ((vCoins.filter COutput.fSpendable).map COutput.coin).Sublist (vCoins.map COutput.coin) :=
    filter_sublist.map _
  have hall := hcoins.sublist hsub
  refine (checks_add_new (fun hP _ => hP) hall.nodup (hall.summable hfits)).bind fun chosen h => .ok ?_
  obtain ⟨hset, hvalue⟩ := h
  intro chosen' heq
  split at heq
  · rename_i hge
    cases heq
    exact ⟨⟨hset ▸ hall, hset ▸ hsub.subset, hset ▸ hvalue⟩, hge⟩
  · cases heq

theorem checks_presetCoins (hfits : P → w.Fits) (vPresetInputs : List COutPoint) {preset : Chosen}
    (hpre : Chosen.Sound w w.coins preset)
    (hnodup : (preset.setCoins.map WalletCoin.prevout ++ vPresetInputs).Nodup) :
    Checks (OverflowUnless P) (presetCoins w vPresetInputs preset) fun r => ∀ preset', r = some preset' →
      Chosen.Sound w w.coins preset' ∧
        preset'.setCoins.map WalletCoin.prevout = preset.setCoins.map WalletCoin.prevout ++ vPresetInputs := by
  induction vPresetInputs generalizing preset with
  | nil =>
    refine .ok ?_
    rintro _ ⟨⟩
    exact ⟨hpre, (append_nil _).symm⟩
  | cons outpoint vPresetInputs ih =>
    rw [presetCoins]
    split
    · rename_i coin hcoin
      obtain ⟨hmem, rfl⟩ := CWallet.mem_of_coin? hcoin
      have hsplit : preset.setCoins.map WalletCoin.prevout ++ coin.prevout :: vPresetInputs =
          (preset.setCoins ++ [coin]).map WalletCoin.prevout ++ vPresetInputs := by simp
      rw [hsplit] at hnodup
      have hcoins : Coins w (preset.setCoins ++ [coin]) := by
        refine ⟨(sublist_append_left _ _).nodup hnodup, append_subset.2 ⟨hpre.sub, ?_⟩⟩
        exact cons_subset.2 ⟨hmem, nil_subset _⟩
      refine (checks_add (fun hP _ => hP) hpre.value hcoins.nodup (hcoins.summable hfits)).bind fun preset' h => ?_
      obtain ⟨hset, hvalue⟩ := h
      have hpre' : Chosen.Sound w w.coins preset' := ⟨hset ▸ hcoins, hset ▸ hcoins.sub, hset ▸ hvalue⟩
      have hrest := ih hpre' (by rw [hset]; exact hnodup)
      rw [hset] at hrest
      rw [hsplit]
      exact hrest
    · exact .ok nofun

theorem foldl_insertCoin (h : DistinctCoins (setCoins ++ coins)) :
    coins.foldl (fun setCoins coin => insertCoin coin setCoins) setCoins = setCoins ++ coins := by
  induction coins generalizing setCoins with
  | nil => rw [foldl_nil, append_nil]
  | cons coin coins ih =>
    have hsplit : setCoins ++ coin :: coins = (setCoins ++ [coin]) ++ coins := by simp
    rw [hsplit] at h
    have hins : insertCoin coin setCoins = setCoins ++ [coin] :=
      insertCoin_new (((sublist_append_left _ _).map _).nodup h)
    rw [foldl_cons, hins, hsplit, ih h]

section

variable (hfits : P → w.Fits) (htarget : P → TargetFits nTargetValue)
include hfits htarget

theorem checks_chooseRest {nValueFromPresetInputs : CAmount} (hpre : P → 0 ≤ nValueFromPresetInputs) (env : CoinEnv)
    (rand : Nat → CoinRandom) (hcoins : Coins w (vCoins.map COutput.coin)) :
    Checks (OverflowUnless P) (chooseRest env rand nTargetValue nValueFromPresetInputs vCoins)
      (Chosen.EnoughIfAny w (vCoins.map COutput.coin) (nTargetValue - nValueFromPresetInputs)) := by
  rw [chooseRest]
  split
  · rename_i hle
    refine .ok ?_
    rintro _ ⟨⟩
    exact ⟨⟨⟨nodup_nil, nil_subset _⟩, nil_subset _, rfl⟩, sub_nonpos.2 hle⟩
  · rename_i hlt
    have hrest : P → TargetFits (nTargetValue - nValueFromPresetInputs) := by
      intro hP
      have h1 := hpre hP
      have h2 := (htarget hP).2
      exact ⟨by linarith, by linarith⟩
    have hcent : (0 : ℤ) ≤ CENT := by decide
    refine (checks_checked fun hP => int64Range_of ⟨(hrest hP).1, ?_⟩).bind fun n hn => ?_
    · have := (hrest hP).2
      linarith
    · subst hn
      refine (checks_minConf_enough hfits hrest env _ 1 6 hcoins).bind fun r hr => ?_
      cases r with
      | some chosen => exact .ok hr
      | none =>
        refine (checks_minConf_enough hfits hrest env _ 1 1 hcoins).bind fun r hr => ?_
        cases r with
        | some chosen => exact .ok hr
        | none =>
          dsimp only
          split
          · exact checks_minConf_enough hfits hrest env _ 0 1 hcoins
          · exact .ok nofun

theorem checks_chooseWithPreset (env : CoinEnv) (rand : Nat → CoinRandom) (coinControl : Option CCoinControl)
    (hcoins : Coins w (vCoins.map COutput.coin)) :
    Checks (OverflowUnless P) (chooseWithPreset env w rand nTargetValue coinControl vCoins)
      (Chosen.EnoughIfAny w w.coins nTargetValue) := by
  have hnodup : (CCoinControl.listSelected coinControl).Nodup := by
    cases coinControl with
    | none => exact nodup_nil
    | some coinControl => exact coinControl.nodup
  have hnone : Chosen.Sound w w.coins {} := ⟨⟨nodup_nil, nil_subset _⟩, nil_subset _, rfl⟩
  refine (checks_presetCoins hfits (CCoinControl.listSelected coinControl) hnone hnodup).bind fun r hr => ?_
  cases r with
  | none => exact .ok nofun
  | some preset =>
    obtain ⟨hpre, hprevouts⟩ := hr preset rfl
    dsimp only
    generalize hoth : (if CCoinControl.hasSelected coinControl then
      vCoins.filter fun out => !preset.setCoins.any (·.prevout = out.coin.prevout) else vCoins) = others
    have hsub : others.Sublist vCoins := by
      rw [← hoth]
      split
      · exact filter_sublist
      · exact Sublist.refl _
    have hcoins' : Coins w (others.map COutput.coin) := hcoins.sublist (hsub.map _)
    have hdisj : ∀ a ∈ others.map COutput.coin, ∀ b ∈ preset.setCoins, a.prevout ≠ b.prevout := by
      intro a ha b hb heq
      obtain ⟨out, hout, rfl⟩ := mem_map.1 ha
      rw [← hoth] at hout
      split at hout
      · have hnot := (mem_filter.1 hout).2
        simp only [Bool.not_eq_true', any_eq_false, decide_eq_true_eq] at hnot
        exact hnot b hb heq.symm
      · -- Without selected coins there are no preset ones.
        rename_i hselected
        have hnil : CCoinControl.listSelected coinControl = [] := by
          cases coinControl with
          | none => rfl
          | some coinControl => simpa [CCoinControl.hasSelected, CCoinControl.listSelected] using hselected
        have hmem := mem_map_of_mem (f := WalletCoin.prevout) hb
        rw [hprevouts, hnil] at hmem
        cases hmem
    refine (checks_chooseRest hfits htarget (fun hP => ?_) env rand hcoins').bind fun r hr => ?_
    · rw [hpre.value]
      exact (hpre.coins.range (hfits hP)).1
    · cases r with
      | none => exact .ok nofun
      | some chosen =>
        obtain ⟨hcho, hge⟩ := hr chosen rfl
        have hboth : Coins w (chosen.setCoins ++ preset.setCoins) := by
          refine ⟨?_, append_subset.2 ⟨hcho.coins.sub, hpre.coins.sub⟩⟩
          rw [map_append, nodup_append]
          refine ⟨hcho.coins.nodup, hpre.coins.nodup, fun a ha b hb heq => ?_⟩
          obtain ⟨c, hc, rfl⟩ := mem_map.1 ha
          obtain ⟨c', hc', rfl⟩ := mem_map.1 hb
          exact hdisj c (hcho.sub hc) c' hc' heq
        have hsum : walletValue (chosen.setCoins ++ preset.setCoins) = chosen.nValue + preset.nValue := by
          rw [walletValue_append, hcho.value, hpre.value]
        refine (checks_checked fun hP => int64Range_of ?_).bind fun n hn => .ok ?_
        · rw [← hsum]
          exact hboth.range (hfits hP)
        · rintro _ ⟨⟩
          have hset := foldl_insertCoin hboth.nodup
          refine ⟨⟨?_, ?_, ?_⟩, ?_⟩
          · rw [hset]
            exact hboth
          · rw [hset]
            exact hboth.sub
          · rw [hset, hsum, hn]
          · rw [hn]
            dsimp only
            linarith

theorem checks_selectCoins (env : CoinEnv) (rand : Nat → CoinRandom) (coinControl : Option CCoinControl) :
    Checks (OverflowUnless P) (selectCoins env w rand nTargetValue coinControl) fun selected =>
      Chosen.EnoughIfAny w w.coins nTargetValue selected.chosen := by
  have hno := coins_availableCoins env w true coinControl false false
  have hwith := coins_availableCoins env w true coinControl false true
  refine (checks_needsCoinbaseCoins hfits env nTargetValue hno hwith).bind fun fNeed _ => ?_
  generalize hvCoins : (if env.fCoinbaseMustBeProtected then availableCoins env w true coinControl false false
    else availableCoins env w true coinControl false true) = vCoins
  have hcoins : Coins w (vCoins.map COutput.coin) := by
    rw [← hvCoins]
    split
    · exact hno
    · exact hwith
  have hchoose : Checks (OverflowUnless P) (chooseCoins env w rand nTargetValue coinControl vCoins)
      (Chosen.EnoughIfAny w w.coins nTargetValue) := by
    rw [chooseCoins]
    split
    · refine (checks_chooseAll hfits nTargetValue hcoins).mono fun r hr chosen heq => ?_
      obtain ⟨hsound, hge⟩ := hr chosen heq
      exact ⟨⟨hsound.coins, hsound.coins.sub, hsound.value⟩, hge⟩
    · exact checks_chooseWithPreset hfits htarget env rand coinControl hcoins
  exact hchoose.bind fun r hr => .ok hr

end

end LitecoinZ
