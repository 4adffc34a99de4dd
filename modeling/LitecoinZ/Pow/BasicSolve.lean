import LitecoinZ.Lib.Pairs
import LitecoinZ.Pow.Equihash

/-!
# The basic Equihash solver

`Equihash<N,K>::BasicSolve` of `crypto/equihash.cpp`.  The table of rows is sorted and each run of rows that collide is
merged in pairs; new rows are written over the part of the table that has been used, and wait in `Xc` while there is no
room.  `std::sort` is any function to sorted permutations.  The solver gives its answer and the solutions it has offered
to `validBlock`.
-/

namespace LitecoinZ

open BitField Pairs StateExcept

/-- The next element is moved into the accumulator. -/
def compressElement (bitLen inWidth bytePad : Nat) (inp : List UInt8) (accValue : Nat) : Nat :=
  (List.range' bytePad (inWidth - bytePad)).foldl
    (fun acc x => acc ||| ((inp.getD x 0).toNat &&& (((2 ^ bitLen - 1) >>> (8 * (inWidth - x - 1))) &&& 0xFF)) <<<
      (8 * (inWidth - x - 1)))
    ((accValue <<< bitLen) % 2 ^ 32)

def compressLoop (bitLen inWidth bytePad : Nat) : (outLen : Nat) → List UInt8 → (accBits accValue : Nat) → List UInt8
  | 0, _, _, _ => []
  | n + 1, inp, accBits, accValue =>
    if accBits < 8 then
      let accValue := compressElement bitLen inWidth bytePad inp accValue
      let accBits := accBits + bitLen - 8
      UInt8.ofNat ((accValue >>> accBits) &&& 0xFF) ::
        compressLoop bitLen inWidth bytePad n (inp.drop inWidth) accBits accValue
    else
      let accBits := accBits - 8
      UInt8.ofNat ((accValue >>> accBits) &&& 0xFF) :: compressLoop bitLen inWidth bytePad n inp accBits accValue

def compressArray (inp : List UInt8) (outLen bitLen bytePad : Nat) : Except EhFault (List UInt8) := do
  ehAssert (bitLen ≥ 8) "bit_len >= 8"
  ehAssert (8 * 4 ≥ 7 + bitLen) "8*sizeof(uint32_t) >= 7+bit_len"
  let inWidth := (bitLen + 7) / 8 + bytePad
  ehAssert (outLen = bitLen * inp.length / (8 * inWidth)) "out_len == bit_len*in_len/(8*in_width)"
  pure (compressLoop bitLen inWidth bytePad outLen inp 0 0)

def getMinimalFromIndices (indices : List EhIndex) (cBitLen : Nat) : Except EhFault (List UInt8) := do
  ehAssert ((cBitLen + 1 + 7) / 8 ≤ 4) "((cBitLen+1)+7)/8 <= sizeof(eh_index)"
  let lenIndices := indices.length * 4
  let minLen := (cBitLen + 1) * lenIndices / (8 * 4)
  let bytePad := 4 - (cBitLen + 1 + 7) / 8
  compressArray (indices.flatMap ehIndexToArray) minLen (cBitLen + 1) bytePad

def Row.getIndices (a : Row) (len lenIndices cBitLen : Nat) : Except EhFault (List UInt8) := do
  ehAssert ((cBitLen + 1 + 7) / 8 ≤ 4) "((cBitLen+1)+7)/8 <= sizeof(eh_index)"
  let minLen := (cBitLen + 1) * lenIndices / (8 * 4)
  let bytePad := 4 - (cBitLen + 1 + 7) / 8
  compressArray (a.indices len lenIndices) minLen (cBitLen + 1) bytePad

inductive EhSolverCancelCheck where
  | listGeneration | listSorting | listColliding | roundEnd | finalSorting | finalColliding
  | partialGeneration | partialSorting | partialSubtreeEnd | partialIndexEnd | partialEnd
  deriving DecidableEq, Repr

/-- `std::sort` with `CompareSR(len)`. -/
structure StdSort where
  sort : Nat → List Row → List Row
  perm : ∀ len X, (sort len X).Perm X
  sorted : ∀ len X, (sort len X).Pairwise fun a b => ¬ b.take len < a.take len

/-- What the solver is given besides the base state. -/
structure SolverEnv where
  stdSort : StdSort
  validBlock : List UInt8 → Bool
  cancelled : EhSolverCancelCheck → Bool

namespace SolverEnv

/-- `if (cancelled(pos)) throw solver_cancelled`. -/
def check (env : SolverEnv) (pos : EhSolverCancelCheck) : Except EhFault Unit :=
  if env.cancelled pos then .error .cancelled else .ok ()

end SolverEnv

/-- A sum of two numbers of type `int`. -/
def checkInt (n : Nat) : Except EhFault Unit :=
  if n < 2 ^ 31 then .ok () else .error (.undefined "int overflow")

namespace Equihash

variable (eh : Equihash)

def fullWidth : Nat := 2 * eh.collisionByteLength + 4 * 2 ^ (eh.K - 1)

def outputRows (generateHash : eh.HashFn) (g count : Nat) : Except EhFault (List Row) :=
  (List.range count).mapM fun i =>
    fullStepRow eh.fullWidth (((generateHash g).toList.drop (i * eh.N / 8)).take (eh.N / 8)) eh.hashLength
      eh.collisionBitLength (g * eh.indicesPerHashOutput + i)

def generateList (env : SolverEnv) (generateHash : eh.HashFn) (g missing : Nat) : Except EhFault (List Row) :=
  if _h : missing = 0 then .ok []
  else if _h' : eh.indicesPerHashOutput = 0 then .error (.undefined "X.size() < init_size")
  else do
    let rows ← eh.outputRows generateHash g (min eh.indicesPerHashOutput missing)
    env.check .listGeneration
    let X ← generateList env generateHash (g + 1) (missing - min eh.indicesPerHashOutput missing)
    pure (rows ++ X)
termination_by missing
decreasing_by omega

/-! ### Rounds -/

/-- The rows from position `i` on that collide with the row there, which counts itself. -/
def runLength (X : List Row) (i len : Nat) : Nat :=
  match X.drop i with
  | [] => 1
  | a :: rest => 1 + (rest.takeWhile fun b => a.hasCollision b len).length

def mergePairs (hashLen lenIndices : Nat) : List (Row × Row) → Except EhFault (List Row)
  | [] => .ok []
  | (a, b) :: rest =>
    if a.distinctIndices b hashLen lenIndices then do
      let row ← Row.merge eh.fullWidth eh.fullWidth a b hashLen lenIndices eh.collisionByteLength
      let rows ← mergePairs hashLen lenIndices rest
      pure (row :: rows)
    else mergePairs hashLen lenIndices rest

/-- The table during a round.  `Xc` has its last element in front. -/
structure Table where
  X : List Row
  posFree : Nat
  Xc : List Row

/-- `while (posFree < limit && Xc.size() > 0)`: rows are taken from the back of `Xc`. -/
def storeFree (limit : Nat) (X : List Row) (posFree : Nat) : List Row → Table
  | [] => ⟨X, posFree, []⟩
  | row :: Xc => if posFree < limit then storeFree limit (X.set posFree row) (posFree + 1) Xc else ⟨X, posFree, row :: Xc⟩

theorem length_storeFree (limit : Nat) (X : List Row) (posFree : Nat) (Xc : List Row) :
    (storeFree limit X posFree Xc).X.length = X.length := by
  induction Xc generalizing X posFree with
  | nil => rfl
  | cons row Xc ih =>
    rw [storeFree]
    split
    · rw [ih, List.length_set]
    · rfl

def collideRuns (env : SolverEnv) (hashLen lenIndices i : Nat) (t : Table) : Except EhFault Table :=
  if _h : i + 1 < t.X.length then do
    let j := runLength t.X i eh.collisionByteLength
    checkInt (i + j)
    let rows ← eh.mergePairs hashLen lenIndices (pairs ((t.X.drop i).take j))
    env.check .listColliding
    collideRuns env hashLen lenIndices (i + j) (storeFree (i + j) t.X t.posFree (rows.reverse ++ t.Xc))
  else .ok t
termination_by t.X.length - i
decreasing_by
  rw [length_storeFree]
  have : 1 ≤ runLength t.X i eh.collisionByteLength := by
    rw [runLength]
    split <;> omega
  omega

def closeTable (t : Table) : Except EhFault (List Row) := do
  let t := storeFree t.X.length t.X t.posFree t.Xc
  checkInt t.posFree
  if t.Xc.length > 0 then pure (t.X ++ t.Xc.reverse)
  else if t.posFree < t.X.length then pure (t.X.take t.posFree)
  else pure t.X

def solveRound (env : SolverEnv) (X : List Row) (hashLen lenIndices : Nat) : Except EhFault (List Row) := do
  let X := env.stdSort.sort eh.collisionByteLength X
  env.check .listSorting
  let t ← eh.collideRuns env hashLen lenIndices 0 ⟨X, 0, []⟩
  let X ← closeTable t
  env.check .roundEnd
  pure X

/-- The rounds while the list is not empty, with the lengths they leave. -/
def solveRounds (env : SolverEnv) : (rounds : Nat) → List Row → (hashLen lenIndices : Nat) →
    Except EhFault (List Row × Nat × Nat)
  | 0, X, hashLen, lenIndices => .ok (X, hashLen, lenIndices)
  | n + 1, X, hashLen, lenIndices =>
    if X.length > 0 then do
      let X ← eh.solveRound env X hashLen lenIndices
      solveRounds env n X (hashLen - eh.collisionByteLength) (lenIndices * 2)
    else .ok (X, hashLen, lenIndices)

/-- The pairs of a run are offered until one is taken.  Gives the answer and all that has been offered. -/
def offerPairs (env : SolverEnv) (hashLen lenIndices : Nat) : List (Row × Row) → List (List UInt8) →
    Except EhFault (Bool × List (List UInt8))
  | [], offered => .ok (false, offered)
  | (a, b) :: rest, offered => do
    let res ← Row.merge eh.fullWidth eh.finalFullWidth a b hashLen lenIndices 0
    if a.distinctIndices b hashLen lenIndices then do
      let soln ← res.getIndices hashLen (2 * lenIndices) eh.collisionBitLength
      ehAssert (soln.length = eh.solutionWidth) "soln.size() == equihash_solution_size(N, K)"
      if env.validBlock soln then pure (true, offered ++ [soln])
      else offerPairs env hashLen lenIndices rest (offered ++ [soln])
    else offerPairs env hashLen lenIndices rest offered

def offerRuns (env : SolverEnv) (X : List Row) (hashLen lenIndices i : Nat) (offered : List (List UInt8)) :
    Except EhFault (Bool × List (List UInt8)) :=
  if _h : i + 1 < X.length then do
    let j := runLength X i hashLen
    checkInt (i + j)
    let (found, offered) ← eh.offerPairs env hashLen lenIndices (pairs ((X.drop i).take j)) offered
    if found then pure (true, offered)
    else do
      env.check .finalColliding
      offerRuns env X hashLen lenIndices (i + j) offered
  else .ok (false, offered)
termination_by X.length - i
decreasing_by
  have : 1 ≤ runLength X i hashLen := by
    rw [runLength]
    split <;> omega
  omega

def basicSolve (env : SolverEnv) (generateHash : eh.HashFn) : Except EhFault (Bool × List (List UInt8)) := do
  let X ← eh.generateList env generateHash 0 (2 ^ (eh.collisionBitLength + 1))
  let (X, hashLen, lenIndices) ← eh.solveRounds env (eh.K - 1) X eh.hashLength 4
  if X.length > 1 then do
    let X := env.stdSort.sort hashLen X
    env.check .finalSorting
    eh.offerRuns env X hashLen lenIndices 0 []
  else pure (false, [])

end Equihash

end LitecoinZ
