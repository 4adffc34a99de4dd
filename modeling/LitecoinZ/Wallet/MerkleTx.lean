import LitecoinZ.Chain.ActiveChain
import LitecoinZ.Primitives.PartialMerkleTree

/-!
# The depth of a transaction

`CMerkleTx::SetMerkleBranch` and `CMerkleTx::GetDepthInMainChainINTERNAL` of `wallet.cpp`: a transaction of the wallet keeps
its branch in the Merkle tree of its block, and has a depth if that branch leads to the root that the block index has.  The
branch, the partial tree and the block agree on the root, so the transactions of an active block have the depth of the block
(`merkleBranch_depth`), unless the block has the null hash (`merkleBranch_depth_null`).
-/

namespace LitecoinZ

open CPartialMerkleTree CChain LinkMap List

/-- What the wallet reads of the chain; a block is known by its hash. -/
structure MainChain where
  mapBlockIndex : LinkMap
  /-- The field of the entries. -/
  hashMerkleRoot : Uint256 → Uint256
  chainActive : CChain

namespace MainChain

/-- The entry of a block of the active chain. -/
def findActive (main : MainChain) (hashBlock : Uint256) : Except Fault (Option Uint256) :=
  if main.mapBlockIndex.lookup hashBlock = none then .ok none
  else do
    let active ← main.chainActive.contains main.mapBlockIndex (some hashBlock)
    pure (if active then some hashBlock else none)

/-- `chainActive.Height() - pindex->nHeight + 1`. -/
def depthOf (main : MainChain) (pindex : Uint256) : Except Fault Int := do
  let links ← main.mapBlockIndex.deref (some pindex)
  let below ← checkedInt (main.chainActive.height - links.nHeight)
  checkedInt (below + 1)

end MainChain

structure CMerkleTx where
  tx : CTransaction
  hashBlock : Uint256 := 0
  vMerkleBranch : List Uint256 := []
  nIndex : Int := -1
  fMerkleVerified : Bool := false

namespace CMerkleTx

variable (env : Env) (hash : Uint256 → Uint256 → Uint256) (main : MainChain)

/-- The loop that looks for the transaction; transactions are compared by their hashes. -/
def locate (block : CBlock) (wtx : CMerkleTx) : Nat := block.vtx.findIdx fun tx => env.getHash tx = env.getHash wtx.tx

/-- The result and the changed transaction; `vMerkleTree` is what the block has kept of its tree. -/
def setMerkleBranch (block : CBlock) (vMerkleTree : List Uint256) (wtx : CMerkleTx) : Except Fault (Int × CMerkleTx) :=
  let hashBlock := env.blockHash block.header
  let nIndex := locate env block wtx
  if nIndex = block.vtx.length then .ok (0, { wtx with hashBlock, vMerkleBranch := [], nIndex := -1 })
  else do
    let vMerkleBranch := getMerkleBranch hash 0 (block.vtx.map env.getHash) vMerkleTree nIndex
    let wtx := { wtx with hashBlock, vMerkleBranch, nIndex }
    match ← main.findActive hashBlock with
    | none => pure (0, wtx)
    | some pindex => do
      let depth ← main.depthOf pindex
      pure (depth, wtx)

/-- The result, `pindexRet` if it is set, and the changed transaction. -/
def getDepthInMainChainINTERNAL (wtx : CMerkleTx) : Except Fault (Int × Option Uint256 × CMerkleTx) :=
  if wtx.hashBlock = 0 ∨ wtx.nIndex = -1 then .ok (0, none, wtx)
  else do
    match ← main.findActive wtx.hashBlock with
    | none => pure (0, none, wtx)
    | some pindex =>
      if wtx.fMerkleVerified = false ∧
          checkMerkleBranch hash 0 (env.getHash wtx.tx) wtx.vMerkleBranch wtx.nIndex ≠ main.hashMerkleRoot pindex then
        pure (0, none, wtx)
      else do
        let depth ← main.depthOf pindex
        pure (depth, some pindex, { wtx with fMerkleVerified := true })

variable {index : LinkMap} {t h : Uint256}

/-- The chain whose tip is `t`. -/
def mainTo (index : LinkMap) (hashMerkleRoot : Uint256 → Uint256) (t : Uint256) : MainChain :=
  { mapBlockIndex := index, hashMerkleRoot, chainActive := chainTo index (some t) }

private theorem active_depth (hindex : index.Linked) (ht : Tip index (some t)) (roots : Uint256 → Uint256)
    (hh : index.Known h) (hact : some h ∈ (chainTo index (some t)).vChain) :
    (mainTo index roots t).findActive h = .ok (some h) ∧
      (mainTo index roots t).depthOf h = .ok (index.heightOf t - index.heightOf h + 1) := by
  obtain ⟨hknown, hrange⟩ := ht t rfl
  constructor
  · have hfound : ¬ index.lookup h = none := Option.isSome_iff_ne_none.1 hh
    rw [MainChain.findActive, mainTo, if_neg hfound, contains_chainTo hindex (fun t' ht' => (ht t' ht').1) hh,
      decide_eq_true hact]
    rfl
  · have hnn := hindex.graded.nonneg hh
    have hle := (hindex.graded.of_ancestor hknown ((mem_chainTo hindex hknown).1 hact)).2
    obtain ⟨links, hderef, hht, -⟩ := hh.deref
    rw [MainChain.depthOf, mainTo, hderef]
    simp only [bind, Except.bind]
    rw [height_chainTo hindex hknown, hht, checkedInt_ok (by omega) (by omega)]
    exact checkedInt_ok (by omega) (by omega)

variable {fuel : Nat} {chain : CChain} {tips : List (Option Uint256)} {block : CBlock} {wtx : CMerkleTx}

private theorem tip_of_setTip {tip : Option Uint256} {chain' : CChain}
    (hset : setTip index fuel tip chain = some (.ok chain')) : Tip index tip := by
  rintro a rfl
  by_cases hknown : index.Known a
  · refine ⟨hknown, ?_⟩
    by_contra hrange
    rw [setTip, tipLength_eq hknown, checkedInt, if_neg (fun h => hrange h.2)] at hset
    cases hset
  · have hnone : index.lookup a = none := Option.not_isSome_iff_eq_none.1 hknown
    rw [setTip, tipLength, LinkMap.deref, Option.bind_some, hnone] at hset
    cases hset

private theorem tip_of_setTips {chain' : CChain} (hset : setTips index fuel tips chain = some (.ok chain')) :
    ∀ tip ∈ tips, Tip index tip := by
  induction tips generalizing chain with
  | nil => exact fun _ h => absurd h not_mem_nil
  | cons tip tips ih =>
    rw [setTips] at hset
    cases hfirst : setTip index fuel tip chain with
    | none =>
      rw [hfirst] at hset
      cases hset
    | some r =>
      rw [hfirst] at hset
      cases r with
      | error fault => cases hset
      | ok chain1 => exact forall_mem_cons.2 ⟨tip_of_setTip hfirst, ih hset⟩

private theorem chain_eq (hindex : index.Linked) (htips : ∀ tip ∈ tips, Tip index tip)
     (hset : setTips index fuel tips {} = some (.ok chain)) :
    Tip index (tips.getLastD none) ∧ chain = chainTo index (tips.getLastD none) := by
  obtain ⟨hlast, fuel', hset'⟩ := setTips_eq hindex tip_none htips
  have h1 := setTips_of_le hset (Nat.le_max_left fuel fuel')
  have h2 := setTips_of_le hset' (Nat.le_max_right fuel fuel')
  have heq : some (Except.ok chain) = some (Except.ok (chainTo index (tips.getLastD none))) := h1.symm.trans h2
  injection heq with heq
  exact ⟨hlast, Except.ok.inj heq⟩

/-! ### The depth -/

private theorem locate_spec (h : env.getHash wtx.tx ∈ block.vtx.map env.getHash) :
    locate env block wtx < block.vtx.length ∧
      (block.vtx.map env.getHash)[locate env block wtx]? = some (env.getHash wtx.tx) := by
  obtain ⟨tx, hmem, heq⟩ := mem_map.1 h
  have hlt : locate env block wtx < block.vtx.length := findIdx_lt_length_of_exists ⟨tx, hmem, decide_eq_true heq⟩
  refine ⟨hlt, ?_⟩
  have hfound : decide (env.getHash block.vtx[locate env block wtx] = env.getHash wtx.tx) = true :=
    findIdx_getElem (w := hlt)
  rw [getElem?_map, getElem?_eq_getElem hlt, Option.map_some, of_decide_eq_true hfound]

variable {env hash}

private theorem setMerkleBranch_eq (hindex : index.Linked) (ht : Tip index (some t)) (roots : Uint256 → Uint256)
    (hh : index.Known (env.blockHash block.header)) (hact : some (env.blockHash block.header) ∈ (chainTo index (some t)).vChain)
    (vMerkleTree : List Uint256) (hmem : env.getHash wtx.tx ∈ block.vtx.map env.getHash) :
    setMerkleBranch env hash (mainTo index roots t) block vMerkleTree wtx =
      .ok (index.heightOf t - index.heightOf (env.blockHash block.header) + 1,
        { wtx with
          hashBlock := env.blockHash block.header
          vMerkleBranch := getMerkleBranch hash 0 (block.vtx.map env.getHash) vMerkleTree (locate env block wtx)
          nIndex := locate env block wtx }) := by
  obtain ⟨hlt, -⟩ := locate_spec env hmem
  obtain ⟨hfind, hdepth⟩ := active_depth hindex ht roots hh hact
  simp only [setMerkleBranch, if_neg (Nat.ne_of_lt hlt), hfind, bind, Except.bind, hdepth]
  rfl

private theorem getDepth_eq (hindex : index.Linked) (ht : Tip index (some t)) (roots : Uint256 → Uint256)
    (hnull : wtx.hashBlock ≠ 0) (hfound : wtx.nIndex ≠ -1) (hh : index.Known wtx.hashBlock)
    (hact : some wtx.hashBlock ∈ (chainTo index (some t)).vChain)
    (hroot : checkMerkleBranch hash 0 (env.getHash wtx.tx) wtx.vMerkleBranch wtx.nIndex = roots wtx.hashBlock) :
    getDepthInMainChainINTERNAL env hash (mainTo index roots t) wtx =
      .ok (index.heightOf t - index.heightOf wtx.hashBlock + 1, some wtx.hashBlock, { wtx with fMerkleVerified := true }) := by
  have hleads : ¬ (wtx.fMerkleVerified = false ∧ checkMerkleBranch hash 0 (env.getHash wtx.tx) wtx.vMerkleBranch wtx.nIndex ≠
      (mainTo index roots t).hashMerkleRoot wtx.hashBlock) := fun h => h.2 hroot
  obtain ⟨hfind, hdepth⟩ := active_depth hindex ht roots hh hact
  simp only [getDepthInMainChainINTERNAL, if_neg (not_or.2 ⟨hnull, hfound⟩), bind, Except.bind, hfind, if_neg hleads, hdepth]
  rfl

/-- The branch of a transaction and the partial tree have the root of the block, so the transactions of a checked block of
the active chain, whose hash is not null, have the depth of the block. -/
theorem merkleBranch_depth (env : Env) (hash : Uint256 → Uint256 → Uint256)
    (henv : ∀ vtx, env.buildMerkleTree vtx =
      ((buildMerkleTree hash 0 (vtx.map env.getHash)).root, (buildMerkleTree hash 0 (vtx.map env.getHash)).fMutated))
    (block : CBlock) {vMerkleTree : List Uint256}
    (hfresh : vMerkleTree = [] ∨ vMerkleTree = (buildMerkleTree hash 0 (block.vtx.map env.getHash)).vMerkleTree) :
    (∀ (i : Nat) txid, (block.vtx.map env.getHash)[i]? = some txid →
      checkMerkleBranch hash 0 txid (getMerkleBranch hash 0 (block.vtx.map env.getHash) vMerkleTree i) i =
        (buildMerkleTree hash 0 (block.vtx.map env.getHash)).root) ∧
    (block.vtx ≠ [] → calcHash hash 0 block.vtx.length (block.vtx.map env.getHash) (treeHeight block.vtx.length) 0 =
      (buildMerkleTree hash 0 (block.vtx.map env.getHash)).root) ∧
    ∀ (index : LinkMap) (roots : Uint256 → Uint256) (tips : List (Option Uint256)) (fuel : Nat) (chain : CChain) (t : Uint256)
      (fVerifyProofs fCheckPOW : Bool) (wtx : CMerkleTx),
      index.Built → setTips index fuel tips {} = some (.ok chain) →
      tips.getLastD none = some t →
      some (env.blockHash block.header) ∈ chain.vChain → env.blockHash block.header ≠ 0 →
      roots (env.blockHash block.header) = block.header.hashMerkleRoot →
      checkBlock env block fVerifyProofs fCheckPOW true = .ok () → env.getHash wtx.tx ∈ block.vtx.map env.getHash →
      ∃ wtx' wtx'', setMerkleBranch env hash ⟨index, roots, chain⟩ block vMerkleTree wtx =
          .ok (index.heightOf t - index.heightOf (env.blockHash block.header) + 1, wtx') ∧
        getDepthInMainChainINTERNAL env hash ⟨index, roots, chain⟩ wtx' =
          .ok (index.heightOf t - index.heightOf (env.blockHash block.header) + 1, some (env.blockHash block.header), wtx'') := by
  have hbranch (i : Nat) (txid : Uint256) (hi : (block.vtx.map env.getHash)[i]? = some txid) :=
    checkMerkleBranch_getMerkleBranch hi hfresh
  refine ⟨hbranch, ?_, ?_⟩
  · intro hne
    have htop := calcHash_top hash 0 (show block.vtx.map env.getHash ≠ [] by simpa using hne)
    rw [length_map] at htop
    rw [htop, buildMerkleTree_eq]
  · intro index roots tips fuel chain t fVerifyProofs fCheckPOW wtx hindex hset hlast hact hnull hentry hchk hmem
    obtain ⟨ht, rfl⟩ := chain_eq hindex.linked (tip_of_setTips hset) hset
    rw [hlast] at ht hact ⊢
    have hh := (hindex.linked.graded.of_ancestor (ht t rfl).1 ((mem_chainTo hindex.linked (ht t rfl).1).1 hact)).1
    have hroot : roots (env.blockHash block.header) = (buildMerkleTree hash 0 (block.vtx.map env.getHash)).root := by
      simp only [checkBlock, StateExcept.except_bind_ok, reject_ok] at hchk
      obtain ⟨_, -, _, hroot, -⟩ := hchk
      rw [henv] at hroot
      simpa [hentry] using hroot
    obtain ⟨-, hi⟩ := locate_spec env hmem
    have hfound : ((locate env block wtx : Nat) : Int) ≠ -1 := by omega
    exact ⟨_, _, setMerkleBranch_eq hindex.linked ht roots hh hact vMerkleTree hmem,
      getDepth_eq hindex.linked ht roots hnull hfound hh hact ((hbranch _ _ hi).trans hroot.symm)⟩

/-- Surroundings with a real Merkle tree, over a hash that is simple. -/
def treeEnv : Env :=
  { plainEnv with
    buildMerkleTree := fun vtx =>
      let built := buildMerkleTree (fun a b => 1000 * a + b) 0 (vtx.map plainEnv.getHash)
      (built.root, built.fMutated) }

/-- A block of one transaction, whose id is 9. -/
def coinbaseBlock (hash : Nat) : CBlock where
  header := ⟨4, 0, 9, 0, hash, 0, 0, []⟩
  vtx := [⟨1, [⟨⟨0, 2 ^ 32 - 1⟩, [1, 1], 0⟩], [⟨0, []⟩], [], 9, 0, nullSig⟩]

/-- The wallet's copy of that transaction. -/
def coinbaseTx : CMerkleTx where
  tx := ⟨1, [⟨⟨0, 2 ^ 32 - 1⟩, [1, 1], 0⟩], [⟨0, []⟩], [], 9, 0, nullSig⟩

theorem merkleBranch_depth_three : ∃ wtx' wtx'',
    setMerkleBranch treeEnv (fun a b => 1000 * a + b) ⟨line 5, fun _ => 9, chainTo (line 5) (some 5)⟩ (coinbaseBlock 3) []
      coinbaseTx = .ok (3, wtx') ∧
    getDepthInMainChainINTERNAL treeEnv (fun a b => 1000 * a + b) ⟨line 5, fun _ => 9, chainTo (line 5) (some 5)⟩ wtx' =
      .ok (3, some 3, wtx'') := by
  obtain ⟨-, -, hdepth⟩ := merkleBranch_depth treeEnv (fun a b => 1000 * a + b) (fun _ => rfl) (coinbaseBlock 3) (.inl rfl)
  exact hdepth (line 5) (fun _ => 9) [some 5] 10 _ 5 true true coinbaseTx (line_spec (by decide)).1 (by decide +kernel) rfl
    (by decide +kernel) (by decide) rfl (by decide +kernel) (by decide +kernel)

/-- A transaction of a block with the null hash has no depth. -/
theorem merkleBranch_depth_null : setTips (line 5) 10 [some 5] {} = some (.ok (chainTo (line 5) (some 5))) ∧
    some 0 ∈ (chainTo (line 5) (some 5)).vChain ∧ treeEnv.blockHash (coinbaseBlock 0).header = 0 ∧
    checkBlock treeEnv (coinbaseBlock 0) true true true = .ok () ∧
    treeEnv.getHash coinbaseTx.tx ∈ (coinbaseBlock 0).vtx.map treeEnv.getHash ∧
    ((setMerkleBranch treeEnv (fun a b => 1000 * a + b) ⟨line 5, fun _ => 9, chainTo (line 5) (some 5)⟩ (coinbaseBlock 0) []
      coinbaseTx).bind fun p =>
        (getDepthInMainChainINTERNAL treeEnv (fun a b => 1000 * a + b) ⟨line 5, fun _ => 9, chainTo (line 5) (some 5)⟩ p.2).map
          fun q => (p.1, q.1)) = .ok (6, 0) := by
  refine ⟨?_, ?_, ?_, ?_, ?_, ?_⟩
  · decide +kernel
  · decide +kernel
  · decide +kernel
  · decide +kernel
  · decide +kernel
  · decide +kernel

end CMerkleTx

end LitecoinZ
