import LitecoinZ.Coins.Coherence
import LitecoinZ.Validation.DisconnectBlock

/-!
# The ledger behind the caches

A `Ledger` is a table of answers in which fully spent coins are absent, with the operations of a view as updates of
the table.  A coherent stack of caches simulates the ledger of its answers: each operation fails or succeeds on both
alike and keeps the relation.
-/

namespace LitecoinZ

open Function StateExcept

abbrev Ledger := ViewAnswers

variable [MerkleHash Uint256]

namespace ViewAnswers

variable (a : ViewAnswers)

def setCoins (txid : Uint256) (coins : CCoins) : ViewAnswers :=
  { a with getCoins := update a.getCoins txid (unspent (some coins.cleanup)) }

omit [MerkleHash Uint256] in
theorem getCoins_setCoins_self (k : Uint256) (coins : CCoins) :
    (a.setCoins k coins).getCoins k = unspent (some coins.cleanup) := update_self _ _ _

omit [MerkleHash Uint256] in
theorem getCoins_setCoins_ne (a : ViewAnswers) {k k' : Uint256} (h : k' ≠ k) (coins : CCoins) :
    (a.setCoins k coins).getCoins k' = a.getCoins k' := update_of_ne h _ _

def pushAnchor (tree : ZCIncrementalMerkleTree) : ViewAnswers :=
  if a.getBestAnchor ≠ some tree.root then
    { a with
      getAnchorAt := update a.getAnchorAt tree.root (some tree)
      getBestAnchor := some tree.root }
  else a

def popAnchor (newrt : Option Uint256) : Except Fault ViewAnswers :=
  if a.getBestAnchor ≠ newrt then
    match a.getAnchorAt (a.getBestAnchor.getD 0) with
    | none => .error (.assertion "GetAnchorAt(currentRoot, tree)")
    | some _ => .ok { a with
        getAnchorAt := update a.getAnchorAt (a.getBestAnchor.getD 0) none
        getBestAnchor := newrt }
  else .ok a

def setNullifier (nullifier : Uint256) (spent : Bool) : ViewAnswers :=
  { a with getNullifier := update a.getNullifier nullifier spent }

end ViewAnswers

instance : CoinsViewOps Ledger where
  accessCoins txid a := (a.getCoins txid, a)
  modifyCoins txid modify a :=
    (modify ((a.getCoins txid).getD .clear)).map fun r => (r.1, a.setCoins txid r.2)
  getAnchorAt rt a := (a.getAnchorAt rt, a)
  pushAnchor tree a := a.pushAnchor tree
  popAnchor newrt a := a.popAnchor newrt
  getNullifier nullifier a := (a.getNullifier nullifier, a)
  setNullifier nullifier spent a := a.setNullifier nullifier spent
  getBestBlock a := (a.getBestBlock, a)
  getBestAnchor a := (a.getBestAnchor, a)
  setBestBlock hashBlock a := { a with getBestBlock := hashBlock }

omit [MerkleHash Uint256] in
theorem popAnchor_run_ok {σ : Type} [CoinsViewOps σ] {v v' : σ} {rt : Option Uint256} {u : Unit} :
    (ViewM.popAnchor rt).run v = .ok (u, v') ↔ CoinsViewOps.popAnchor rt v = .ok v' := by
  change (CoinsViewOps.popAnchor rt v).map _ = _ ↔ _
  cases CoinsViewOps.popAnchor rt v <;> simp [Except.map]

/-- The stack is coherent, its trees stand for their roots, and its answers are the ledger. -/
structure Simulates (P : Uint256 → ZCIncrementalMerkleTree → Prop) (c : CCoinsViewCache) (L : Ledger) : Prop where
  coherent : c.toView.Coherent
  anchored : c.toView.Anchored P
  answers : c.answers.norm = L

namespace Simulates

variable {P : Uint256 → ZCIncrementalMerkleTree → Prop} {c : CCoinsViewCache} {L : Ledger}

section

variable (h : Simulates P c L)
include h

theorem filled {c' : CCoinsViewCache} (hf : Filled c.toView c'.toView) :
    Simulates P c' L where
  coherent := hf.coherent h.coherent
  anchored := hf.anchored h.anchored
  answers := by
    rw [← h.answers]
    exact congrArg ViewAnswers.norm hf.answers

theorem getCoins (k : Uint256) :
    unspent (c.answers.getCoins k) = L.getCoins k := congrFun (congrArg ViewAnswers.getCoins h.answers) k

theorem getAnchorAt (rt : Uint256) :
    c.answers.getAnchorAt rt = L.getAnchorAt rt := congrFun (congrArg ViewAnswers.getAnchorAt h.answers) rt

theorem getNullifier (n : Uint256) :
    c.answers.getNullifier n = L.getNullifier n := congrFun (congrArg ViewAnswers.getNullifier h.answers) n

theorem getBestBlock : c.answers.getBestBlock = L.getBestBlock := by
  rw [← h.answers]
  rfl

theorem getBestAnchor : c.answers.getBestAnchor = L.getBestAnchor := by
  rw [← h.answers]
  rfl

end

end Simulates

section

variable {P : Uint256 → ZCIncrementalMerkleTree → Prop}

/-- The stack simulates the ledger `L`. -/
def At (P : Uint256 → ZCIncrementalMerkleTree → Prop) (L : Ledger) (c : CCoinsViewCache) (M : Ledger) : Prop :=
  M = L ∧ Simulates P c L

variable {L : Ledger}

theorem At.ledger {c : CCoinsViewCache} {M : Ledger} (h : At P L c M) : M = L := h.1

theorem sim_of_at {α β : Type} {m : ViewM CCoinsViewCache α} {n : ViewM Ledger β}
    {Q : α → CCoinsViewCache → β → Ledger → Prop} (h : ∀ L, Sim (At P L) m n Q) : Sim (Simulates P) m n Q :=
  fun c L hs => h L c L ⟨rfl, hs⟩

theorem sim_weaken {α : Type} {m : ViewM CCoinsViewCache α} {n : ViewM Ledger α}
    (h : Sim (Simulates P) m n (Same (Simulates P))) : Sim (At P L) m n (Same (Simulates P)) :=
  h.mono (fun _ _ hat => hat.1 ▸ hat.2) fun _ _ _ _ hq => hq

/-- The same program on the stack and on the ledger fails alike, or gives the same result. -/
abbrev Mirrors (R R' : CCoinsViewCache → Ledger → Prop) {α : Type} (m : ∀ {σ : Type} [CoinsViewOps σ], ViewM σ α) : Prop :=
  Sim R (m : ViewM CCoinsViewCache α) (m : ViewM Ledger α) (Same R')

/-! ### The operations -/

private theorem sim_read {α β : Type} {q : α → β → Prop} {read : CCoinsViewCache → α × CCoinsViewCache}
    {answer : Ledger → β} (h : ∀ c, Simulates P c L → q (read c).1 (answer L) ∧ Filled c.toView (read c).2.toView) :
    Sim (At P L) (fun c => .ok (read c) : ViewM CCoinsViewCache α) (fun L => .ok (answer L, L) : ViewM Ledger β)
      fun a c b M => (q a b ∧ b = answer L) ∧ At P L c M := by
  rintro c M ⟨rfl, hs⟩
  obtain ⟨hq, hf⟩ := h c hs
  exact .inr ⟨_, _, _, _, rfl, rfl, ⟨hq, rfl⟩, rfl, hs.filled hf⟩

theorem accessCoins_sim (L : Ledger) (k : Uint256) :
    Sim (At P L) (ViewM.accessCoins k : ViewM CCoinsViewCache _) (ViewM.accessCoins k : ViewM Ledger _)
      fun a c b M => (unspent a = b ∧ b = L.getCoins k) ∧ At P L c M :=
  sim_read fun c hs => ⟨(congrArg unspent (c.accessCoins_reads k).1).trans (hs.getCoins k), (c.accessCoins_reads k).2⟩

private theorem sim_read_same {α : Type} {read : CCoinsViewCache → α × CCoinsViewCache} {answer : Ledger → α}
    (h : ∀ c, Simulates P c L → (read c).1 = answer L ∧ Filled c.toView (read c).2.toView) :
    Sim (At P L) (fun c => .ok (read c) : ViewM CCoinsViewCache α) (fun L => .ok (answer L, L) : ViewM Ledger α)
      (Same (At P L)) :=
  (sim_read h).mono (fun _ _ h => h) fun _ _ _ _ h => ⟨h.1.1, h.2⟩

theorem getAnchorAt_sim (L : Ledger) (rt : Uint256) :
    Mirrors (At P L) (At P L) (ViewM.getAnchorAt rt) :=
  sim_read_same fun c hs => ⟨(c.getAnchorAt_reads rt).1.trans (hs.getAnchorAt rt), (c.getAnchorAt_reads rt).2⟩

theorem getNullifier_sim (L : Ledger) (n : Uint256) :
    Mirrors (At P L) (At P L) (ViewM.getNullifier n) :=
  sim_read_same fun c hs => ⟨(c.getNullifier_reads n).1.trans (hs.getNullifier n), (c.getNullifier_reads n).2⟩

theorem getBestBlock_sim (L : Ledger) :
    Mirrors (At P L) (At P L) (ViewM.getBestBlock) :=
  sim_read_same fun c hs => ⟨c.getBestBlock_reads.1.trans hs.getBestBlock, c.getBestBlock_reads.2⟩

theorem getBestAnchor_sim (L : Ledger) :
    Mirrors (At P L) (At P L) (ViewM.getBestAnchor) :=
  sim_read_same fun c hs => ⟨c.getBestAnchor_reads.1.trans hs.getBestAnchor, c.getBestAnchor_reads.2⟩

theorem setNullifier_sim (n : Uint256) (spent : Bool) :
    Mirrors (Simulates P) (Simulates P) (ViewM.setNullifier n spent) := by
  intro c L hs
  obtain ⟨h1, h2, h3⟩ := CCoinsViewCache.setNullifier_ok hs.coherent n spent
  refine .inr ⟨_, _, _, _, rfl, rfl, rfl, h1, h2 P hs.anchored, ?_⟩
  have hL := hs.answers
  subst hL
  exact congrArg ViewAnswers.norm h3

theorem setBestBlock_sim (h : Uint256) :
    Mirrors (Simulates P) (Simulates P) (ViewM.setBestBlock (some h)) := by
  intro c L hs
  obtain ⟨h1, h2, h3⟩ := CCoinsViewCache.setBestBlock_ok hs.coherent h
  refine .inr ⟨_, _, _, _, rfl, rfl, rfl, h1, h2 P hs.anchored, ?_⟩
  have hL := hs.answers
  subst hL
  exact congrArg ViewAnswers.norm h3

theorem pushAnchor_sim {tree : ZCIncrementalMerkleTree} (hP : P tree.root tree) :
    Mirrors (Simulates P) (Simulates P) (ViewM.pushAnchor tree) := by
  intro c L hs
  obtain ⟨h1, h2, h3⟩ := CCoinsViewCache.pushAnchor_ok hs.coherent tree
  refine .inr ⟨_, _, _, _, rfl, rfl, rfl, h1, h2 P hP hs.anchored, ?_⟩
  have hL := hs.answers
  subst hL
  refine (congrArg ViewAnswers.norm h3).trans ?_
  change _ = if c.answers.getBestAnchor ≠ some tree.root then _ else _
  split <;> rfl

theorem popAnchor_sim (rt : Uint256) :
    Mirrors (Simulates P) (Simulates P) (ViewM.popAnchor (some rt)) := by
  intro c L hs
  have hspec := CCoinsViewCache.popAnchor_spec hs.coherent (some rt)
  rw [hs.getBestAnchor, hs.getAnchorAt] at hspec
  simp only [ViewM.popAnchor, StateT.run, CoinsViewOps.popAnchor]
  by_cases hne : L.getBestAnchor ≠ some rt
  · rw [if_pos hne] at hspec
    rcases hspec with ⟨hnone, herr⟩ | ⟨hsome, c', best, hok, h1, h2, h3, hbest⟩
    · have hL : L.popAnchor (some rt) = .error (.assertion "GetAnchorAt(currentRoot, tree)") := by
        simp only [ViewAnswers.popAnchor, if_pos hne, hnone]
      rw [hL, herr]
      exact .inl ⟨_, rfl, rfl⟩
    · obtain ⟨t, ht⟩ := Option.ne_none_iff_exists'.1 hsome
      obtain rfl := hbest (by simp)
      have hL : L.popAnchor (some rt) = .ok { L with
          getAnchorAt := update L.getAnchorAt (L.getBestAnchor.getD 0) none
          getBestAnchor := some rt } := by
        simp only [ViewAnswers.popAnchor, if_pos hne, ht]
      rw [hL, hok]
      refine .inr ⟨_, _, _, _, rfl, rfl, rfl, h1, h2 P hs.anchored, ?_⟩
      rw [h3, ← hs.answers]
      rfl
  · rw [if_neg hne] at hspec
    obtain ⟨c', hok, hf⟩ := hspec
    have hL : L.popAnchor (some rt) = .ok L := by simp only [ViewAnswers.popAnchor, if_neg hne]
    rw [hL, hok]
    exact .inr ⟨_, _, _, _, rfl, rfl, rfl, hs.filled hf⟩

/-- A modification that does the same to all coins that are fully spent. -/
def PruneBlind {α : Type} (f : CCoins → Except Fault (α × CCoins)) : Prop :=
  ∀ coins, coins.isPruned = true →
    (f coins).map (fun r => (r.1, unspent (some r.2.cleanup))) =
      (f .clear).map (fun r => (r.1, unspent (some r.2.cleanup)))

theorem modifyCoins_sim {α : Type} {f : CCoins → Except Fault (α × CCoins)} {k : Uint256}
    (hf : L.getCoins k = none → PruneBlind f) :
    Mirrors (At P L) (Simulates P) (ViewM.modifyCoins k f) := by
  rintro c M ⟨rfl, hs⟩
  have hL := hs.answers
  subst hL
  -- on the stack the modification may see coins that are fully spent where the ledger has none
  have hsame : (f ((c.answers.getCoins k).getD .clear)).map (fun r => (r.1, unspent (some r.2.cleanup))) =
      (f ((c.answers.norm.getCoins k).getD .clear)).map (fun r => (r.1, unspent (some r.2.cleanup))) := by
    change _ = (f ((unspent (c.answers.getCoins k)).getD .clear)).map _
    cases hk : c.answers.getCoins k with
    | none => rfl
    | some coins =>
      by_cases hp : coins.isPruned = true
      · rw [unspent_some_of_pruned hp]
        exact hf ((congrArg unspent hk).trans (unspent_some_of_pruned hp)) coins hp
      · rw [unspent_some_of_not_pruned (by simpa using hp)]
  simp only [ViewM.modifyCoins, StateT.run, CoinsViewOps.modifyCoins]
  cases hm : c.modifyCoins k f with
  | error e =>
    rw [(CCoinsViewCache.modifyCoins_error hs.coherent).1 hm] at hsame
    cases hn : f ((c.answers.norm.getCoins k).getD .clear) with
    | error e' =>
      rw [hn] at hsame
      cases hsame
      exact .inl ⟨e, rfl, rfl⟩
    | ok r =>
      rw [hn] at hsame
      cases hsame
  | ok r =>
    obtain ⟨a, c'⟩ := r
    obtain ⟨coins, hcoins, h1, h2, h3⟩ := CCoinsViewCache.modifyCoins_ok hs.coherent hm
    rw [hcoins] at hsame
    cases hn : f ((c.answers.norm.getCoins k).getD .clear) with
    | error e' =>
      rw [hn] at hsame
      cases hsame
    | ok r =>
      rw [hn] at hsame
      simp only [Except.map, Except.ok.injEq, Prod.mk.injEq] at hsame
      refine .inr ⟨_, _, _, _, rfl, rfl, hsame.1, h1, h2 P hs.anchored, ?_⟩
      rw [h3, hsame.2]
      rfl

end

end LitecoinZ
