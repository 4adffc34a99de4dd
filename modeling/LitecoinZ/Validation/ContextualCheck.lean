import LitecoinZ.Script.Script
import LitecoinZ.Validation.Checked

/-!
# Checks of a block at its height

`ContextualCheckBlock` of `main.cpp`: transactions are final, and the coinbase starts with the height of the block as
`CScript() << nHeight` writes it.  No script starts with two heights (`pushInt64_inj_of_prefix`), so coinbases at
different heights differ (`height_eq_of_coinBase`).
-/

namespace LitecoinZ

open StateExcept

def LOCKTIME_THRESHOLD : Nat := 500000000

def CTxIn.isFinal (txin : CTxIn) : Bool := txin.nSequence == 2 ^ 32 - 1

def isFinalTx (tx : CTransaction) (nBlockHeight nBlockTime : Int) : Bool :=
  tx.nLockTime == 0 ||
    tx.nLockTime < (if tx.nLockTime < LOCKTIME_THRESHOLD then nBlockHeight else nBlockTime) ||
    tx.vin.all CTxIn.isFinal

/-- `block.vtx[0].vin[0].scriptSig`. -/
def coinBaseScript (block : CBlock) : CScript :=
  ((block.vtx.head?.bind fun tx => tx.vin.head?).map CTxIn.scriptSig).getD []

def contextualCheckBlock (block : CBlock) (nHeight : Int) : Except Fault Unit := do
  reject (!block.vtx.all fun tx => isFinalTx tx nHeight block.header.nTime) (rejectInvalid 10 "bad-txns-nonfinal")
  if nHeight > 0 then
    reject (!(CScript.pushInt64 nHeight).isPrefixOf (coinBaseScript block)) (rejectInvalid 100 "bad-cb-height")

theorem contextualCheckBlock_startsWithHeight {block : CBlock} {nHeight : Int} {u : Unit}
    (h : contextualCheckBlock block nHeight = .ok u) (hh : 0 < nHeight) :
    CScript.pushInt64 nHeight <+: coinBaseScript block := by
  simp only [contextualCheckBlock, except_bind_ok, if_pos (show nHeight > 0 from hh), reject_ok,
    Bool.not_eq_false'] at h
  obtain ⟨_, -, h⟩ := h
  exact List.isPrefixOf_iff_prefix.1 h

theorem height_eq_of_coinBase {block block' : CBlock} {nHeight nHeight' : Int} {u u' : Unit}
    (h : contextualCheckBlock block nHeight = .ok u) (h' : contextualCheckBlock block' nHeight' = .ok u')
    (h1 : 0 < nHeight) (h2 : nHeight < 2 ^ 31) (h1' : 0 < nHeight') (h2' : nHeight' < 2 ^ 31)
    (heq : block.vtx.head? = block'.vtx.head?) : nHeight = nHeight' := by
  have hscr : coinBaseScript block = coinBaseScript block' := by rw [coinBaseScript, heq, ← coinBaseScript]
  exact pushInt64_inj_of_prefix h1 h2 h1' h2' (contextualCheckBlock_startsWithHeight h h1)
    (hscr ▸ contextualCheckBlock_startsWithHeight h' h1')

end LitecoinZ
