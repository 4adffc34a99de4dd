import LitecoinZ.Validation.ConnectBlock

/-!
# Trees of blocks

The blocks that grow from the genesis block, and the chains in them, which are lists with the last block first.  A
block has one chain of ancestors (`IsChain.unique`), and its height is their number (`IsChain.height`).
-/

namespace LitecoinZ

/-- The blocks known by their hash, with the index entries they get.  The genesis block is the only one without a
parent, and has no transaction but its coinbase. -/
structure BlockTree (env : Env) where
  find : Uint256 → Option (CBlock × BlockIndex)
  hash : ∀ {h block index}, find h = some (block, index) → index.hash = h ∧ env.blockHash block.header = h
  genesis : ∀ {h block index}, find h = some (block, index) → index.pprev = none →
    h = env.hashGenesisBlock ∧ index.nHeight = 0 ∧ block.vtx.tail = [] ∧ find block.header.hashPrevBlock = none
  parent : ∀ {h block index p}, find h = some (block, index) → index.pprev = some p →
    h ≠ env.hashGenesisBlock ∧ block.header.hashPrevBlock = p ∧
      ∃ block' index', find p = some (block', index') ∧ index.nHeight = index'.nHeight + 1
  height : ∀ {h block index}, find h = some (block, index) → index.nHeight < 2 ^ 31

/-- The hash of the last block of a chain, which stands first in the list. -/
def tipHash (chain : List (CBlock × BlockIndex)) : Option Uint256 := chain.head?.map fun p => p.2.hash

/-- The transactions of a chain, the oldest first. -/
def chainTransactions (chain : List (CBlock × BlockIndex)) : List CTransaction :=
  chain.reverse.flatMap fun p => p.1.vtx

theorem chainTransactions_cons (block : CBlock) (index : BlockIndex) (chain : List (CBlock × BlockIndex)) :
    chainTransactions ((block, index) :: chain) = chainTransactions chain ++ block.vtx := by
  simp [chainTransactions]

namespace BlockTree

variable {env : Env}

def IsChain (tree : BlockTree env) : List (CBlock × BlockIndex) → Prop
  | [] => True
  | (block, index) :: chain =>
    tree.find index.hash = some (block, index) ∧ index.pprev = tipHash chain ∧ tree.IsChain chain

def HasTx (tree : BlockTree env) (tx : CTransaction) : Prop :=
  ∃ h block index, tree.find h = some (block, index) ∧ tx ∈ block.vtx

def DistinctTxids (tree : BlockTree env) : Prop :=
  ∀ tx tx', tree.HasTx tx → tree.HasTx tx' → env.getHash tx = env.getHash tx' → tx = tx'

variable {tree : BlockTree env} {chain chain' : List (CBlock × BlockIndex)}

theorem IsChain.unique {p : CBlock × BlockIndex} (h : tree.IsChain (p :: chain)) (h' : tree.IsChain (p :: chain')) :
    chain = chain' := by
  induction chain generalizing p chain' with
  | nil =>
    obtain ⟨-, hl, -⟩ := h
    obtain ⟨-, hl', -⟩ := h'
    cases chain' with
    | nil => rfl
    | cons q' rest' =>
      rw [hl] at hl'
      cases hl'
  | cons q rest ih =>
    obtain ⟨-, hl, hr⟩ := h
    obtain ⟨-, hl', hr'⟩ := h'
    cases chain' with
    | nil =>
      rw [hl] at hl'
      cases hl'
    | cons q' rest' =>
      have hhash : q.2.hash = q'.2.hash := Option.some.inj (hl.symm.trans hl')
      obtain rfl : q = q' := by
        obtain ⟨hf, -, -⟩ := hr
        obtain ⟨hf', -, -⟩ := hr'
        rw [hhash] at hf
        exact Option.some.inj (hf.symm.trans hf')
      rw [ih hr hr']

theorem IsChain.height {block : CBlock} {index : BlockIndex} (h : tree.IsChain ((block, index) :: chain)) :
    index.nHeight = chain.length := by
  induction chain generalizing block index with
  | nil =>
    obtain ⟨hf, hl, -⟩ := h
    exact (tree.genesis hf hl).2.1
  | cons q rest ih =>
    obtain ⟨hf, hl, hr⟩ := h
    obtain ⟨-, -, block', index', hp, hht⟩ := tree.parent hf hl
    have hq := ih hr
    obtain ⟨hf', -, -⟩ := hr
    cases hf'.symm.trans hp
    rw [hht, hq, List.length_cons]
    rfl

theorem IsChain.hasTx (h : tree.IsChain chain) {tx : CTransaction} (htx : tx ∈ chainTransactions chain) : tree.HasTx tx := by
  induction chain with
  | nil => simp [chainTransactions] at htx
  | cons p chain ih =>
    obtain ⟨hfound, -, hrest⟩ := h
    rw [chainTransactions_cons, List.mem_append] at htx
    rcases htx with hold | hnew
    · exact ih hrest hold
    · exact ⟨_, _, _, hfound, hnew⟩

theorem IsChain.suffix (h : tree.IsChain chain) (hs : chain' <:+ chain) : tree.IsChain chain' := by
  induction chain with
  | nil =>
    rw [List.suffix_nil.1 hs]
    exact trivial
  | cons p chain ih =>
    rcases List.suffix_cons_iff.1 hs with rfl | hs
    · exact h
    · exact ih h.2.2 hs

end BlockTree

end LitecoinZ
