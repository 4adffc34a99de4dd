import LitecoinZ.Lib.BitField
import LitecoinZ.Lib.Simulation

/-!
# Equihash

The rows, the packing of bits and `Equihash<N,K>::IsValidSolution` of `crypto/equihash.cpp`.  A row is the list of the
bytes of a `FullStepRow` that are in use: the expanded hash, and behind it four bytes for each index.
-/

namespace LitecoinZ

open BitField StateExcept

/-- How a function of `equihash.cpp` stops without a result. -/
inductive EhFault where
  /-- It returns `false`, with a message in the log. -/
  | invalid (message : String)
  /-- An `assert` fails. -/
  | assertion (expression : String)
  /-- The behaviour is undefined, or the function does not end. -/
  | undefined (what : String)
  /-- `solver_cancelled` is thrown. -/
  | cancelled
  deriving DecidableEq, Repr

def ehAssert (condition : Bool) (expression : String) : Except EhFault Unit :=
  if condition then .ok () else .error (.assertion expression)

def ehReject (condition : Bool) (message : String) : Except EhFault Unit :=
  if condition then .error (.invalid message) else .ok ()

theorem ehAssert_of {condition : Bool} (h : condition = true) (expression : String) :
    ehAssert condition expression = .ok () := if_pos h

theorem ehReject_ok {condition : Bool} {message : String} {u : Unit} :
    ehReject condition message = .ok u ↔ condition = false := by
  cases condition <;> simp [ehReject]

/-! ### Packed bits -/

/-- The loop of `ExpandArray` over the input.  The accumulator is a `uint32_t`. -/
def expandLoop (bitLen outWidth bytePad : Nat) : List UInt8 → (accBits accValue : Nat) → List UInt8
  | [], _, _ => []
  | b :: inp, accBits, accValue =>
    let accValue := (accValue <<< 8) % 2 ^ 32 ||| b.toNat
    let accBits := accBits + 8
    if accBits ≥ bitLen then
      let accBits := accBits - bitLen
      List.replicate bytePad (0 : UInt8) ++
        (List.range' bytePad (outWidth - bytePad)).map (fun x => UInt8.ofNat
          ((accValue >>> (accBits + 8 * (outWidth - x - 1))) &&&
            (((2 ^ bitLen - 1) >>> (8 * (outWidth - x - 1))) &&& 0xFF))) ++
        expandLoop bitLen outWidth bytePad inp accBits accValue
    else expandLoop bitLen outWidth bytePad inp accBits accValue

def expandArray (inp : List UInt8) (outLen bitLen bytePad : Nat) : Except EhFault (List UInt8) := do
  ehAssert (bitLen ≥ 8) "bit_len >= 8"
  ehAssert (8 * 4 ≥ 7 + bitLen) "8*sizeof(uint32_t) >= 7+bit_len"
  let outWidth := (bitLen + 7) / 8 + bytePad
  ehAssert (outLen = 8 * outWidth * inp.length / bitLen) "out_len == 8*out_width*in_len/bit_len"
  pure (expandLoop bitLen outWidth bytePad inp 0 0)

abbrev EhIndex := Nat

def ehIndexToArray (i : EhIndex) : List UInt8 := beBytes 4 i

def arrayToEhIndex (array : List UInt8) : EhIndex := beValue array

def readIndices (array : List UInt8) (n : Nat) : List EhIndex :=
  (List.range n).map fun i => arrayToEhIndex ((array.drop (4 * i)).take 4)

def getIndicesFromMinimal (minimal : List UInt8) (cBitLen : Nat) : Except EhFault (List EhIndex) := do
  ehAssert ((cBitLen + 1 + 7) / 8 ≤ 4) "((cBitLen+1)+7)/8 <= sizeof(eh_index)"
  let lenIndices := 8 * 4 * minimal.length / (cBitLen + 1)
  let bytePad := 4 - (cBitLen + 1 + 7) / 8
  let array ← expandArray minimal lenIndices (cBitLen + 1) bytePad
  pure (readIndices array ((lenIndices + 3) / 4))

/-! ### Rows -/

abbrev Row := List UInt8

/-- The constructor of `FullStepRow<width>` from a hash. -/
def fullStepRow (width : Nat) (hashIn : List UInt8) (hLen cBitLen : Nat) (i : EhIndex) : Except EhFault Row := do
  ehAssert (hLen ≤ width) "hLen <= WIDTH"
  let hash ← expandArray hashIn hLen cBitLen 0
  pure (hash ++ ehIndexToArray i)

namespace Row

def indices (a : Row) (len lenIndices : Nat) : List UInt8 := (a.drop len).take lenIndices

/-- `memcmp` orders bytes from the first on. -/
def indicesBefore (a b : Row) (len lenIndices : Nat) : Bool := a.indices len lenIndices < b.indices len lenIndices

def isZero (a : Row) (len : Nat) : Bool := (a.take len).all (· == 0)

def hasCollision (a b : Row) (l : Nat) : Bool := a.take l == b.take l

/-- `DistinctIndices`: no index of one row is in the other. -/
def distinctIndices (a b : Row) (len lenIndices : Nat) : Bool :=
  (List.range ((lenIndices + 3) / 4)).all fun i => (List.range ((lenIndices + 3) / 4)).all fun j =>
    (a.drop (len + 4 * i)).take 4 != (b.drop (len + 4 * j)).take 4

/-- The constructor of `FullStepRow<width>` from two rows of width `w`. -/
def merge (w width : Nat) (a b : Row) (len lenIndices trim : Nat) : Except EhFault Row := do
  ehAssert (len + lenIndices ≤ w) "len+lenIndices <= W"
  ehAssert (len - trim + 2 * lenIndices ≤ width) "len-trim+(2*lenIndices) <= WIDTH"
  pure (List.zipWith (· ^^^ ·) ((a.take len).drop trim) ((b.take len).drop trim) ++
    if a.indicesBefore b len lenIndices then a.indices len lenIndices ++ b.indices len lenIndices
    else b.indices len lenIndices ++ a.indices len lenIndices)

end Row

/-! ### Instances -/

/-- The parameters of the class template, with its static assertions. -/
structure Equihash where
  N : Nat
  K : Nat
  K_lt_N : K < N
  N_mod : N % 8 = 0
  index_fits : N / (K + 1) + 1 < 8 * 4

namespace Equihash

variable (eh : Equihash)

def indicesPerHashOutput : Nat := 512 / eh.N
def hashOutput : Nat := eh.indicesPerHashOutput * eh.N / 8
def collisionBitLength : Nat := eh.N / (eh.K + 1)
def collisionByteLength : Nat := (eh.collisionBitLength + 7) / 8
def hashLength : Nat := (eh.K + 1) * eh.collisionByteLength
def finalFullWidth : Nat := 2 * eh.collisionByteLength + 4 * 2 ^ eh.K
def solutionWidth : Nat := 2 ^ eh.K * (eh.collisionBitLength + 1) / 8

/-- `GenerateHash` from a base state: bytes for each counter. -/
abbrev HashFn := Nat → Vector UInt8 eh.hashOutput

def hashBytes (generateHash : eh.HashFn) (i : EhIndex) : List UInt8 :=
  ((generateHash (i / eh.indicesPerHashOutput)).toList.drop (i % eh.indicesPerHashOutput * eh.N / 8)).take (eh.N / 8)

def rowFor (width : Nat) (generateHash : eh.HashFn) (i : EhIndex) : Except EhFault Row :=
  if eh.indicesPerHashOutput = 0 then .error (.undefined "i/IndicesPerHashOutput")
  else fullStepRow width (eh.hashBytes generateHash i) eh.hashLength eh.collisionBitLength i

/-- One round: the rows are merged in pairs, from left to right. -/
def verifyPairs (hashLen lenIndices : Nat) : List Row → Except EhFault (List Row)
  | [] => .ok []
  | [_] => .error (.undefined "X[i+1]")
  | a :: b :: X => do
    ehReject (!a.hasCollision b eh.collisionByteLength) "Invalid solution: invalid collision length between StepRows"
    ehReject (b.indicesBefore a hashLen lenIndices) "Invalid solution: Index tree incorrectly ordered"
    ehReject (!a.distinctIndices b hashLen lenIndices) "Invalid solution: duplicate indices"
    let row ← Row.merge eh.finalFullWidth eh.finalFullWidth a b hashLen lenIndices eh.collisionByteLength
    let Xc ← verifyPairs hashLen lenIndices X
    pure (row :: Xc)

theorem length_verifyPairs {hashLen lenIndices : Nat} {X Xc : List Row}
    (h : eh.verifyPairs hashLen lenIndices X = .ok Xc) : X.length = 2 * Xc.length := by
  induction X using verifyPairs.induct generalizing Xc with
  | case1 =>
    cases h
    rfl
  | case2 a => cases h
  | case3 a b X ih =>
    simp only [verifyPairs, except_bind_ok] at h
    obtain ⟨_, -, _, -, _, -, row, -, Xc', hXc', h⟩ := h
    cases h
    rw [List.length_cons, List.length_cons, List.length_cons, ih hXc']
    omega

/-- The rounds, until one row is left. -/
def verifyRounds (X : List Row) (hashLen lenIndices : Nat) : Except EhFault Bool :=
  match X with
  | [] => .error (.assertion "X.size() == 1")
  | [a] => .ok (a.isZero hashLen)
  | a :: b :: X' =>
    match _h : eh.verifyPairs hashLen lenIndices (a :: b :: X') with
    | .error e => .error e
    | .ok Xc => verifyRounds Xc (hashLen - eh.collisionByteLength) (lenIndices * 2)
termination_by X.length
decreasing_by
  have := eh.length_verifyPairs _h
  simp only [List.length_cons] at this ⊢
  omega

def isValidSolution (generateHash : eh.HashFn) (soln : List UInt8) : Except EhFault Bool := do
  ehReject (soln.length ≠ eh.solutionWidth) "Invalid solution length"
  let indices ← getIndicesFromMinimal soln eh.collisionBitLength
  let X ← indices.mapM (eh.rowFor eh.finalFullWidth generateHash)
  eh.verifyRounds X eh.hashLength 4

end Equihash

end LitecoinZ
