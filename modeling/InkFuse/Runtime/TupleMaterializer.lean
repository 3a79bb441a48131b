import InkFuse.Bytes.Buffer
import InkFuse.Runtime.SlotTag
import Mathlib.Algebra.GroupWithZero.Nat

/-!
The thread-local buffers into which the build side of a join is materialized. Tuples of
a fixed size lie one after the other in chunks of sixteen kilobytes.
-/

namespace InkFuse.Runtime

/-- `REGION_SIZE` -/
def regionSize : ℕ := 32 * 512

structure TupleMaterializer where
  tupleSize : ℕ
  closed : List (List Bytes)
  current : List Bytes

namespace TupleMaterializer

def create (tupleSize : ℕ) : Except Fault TupleMaterializer :=
  if tupleSize > regionSize then
    .error .runtimeError
  else
    .ok ⟨tupleSize, [], []⟩

def chunks (m : TupleMaterializer) : List (List Bytes) := m.closed ++ [m.current]

/-- Hand out the memory of one more tuple, which the caller fills with `tuple`. -/
def materialize (m : TupleMaterializer) (tuple : Bytes) : TupleMaterializer :=
  if m.tupleSize * m.current.length + m.tupleSize ≥ regionSize then
    { m with closed := m.closed ++ [m.current], current := [tuple] }
  else
    { m with current := m.current ++ [tuple] }

/-- Every chunk divides its occupied bytes by the size of a tuple. -/
def getNumTuples (m : TupleMaterializer) : Except Fault ℕ :=
  if m.tupleSize = 0 then
    .error .divisionByZero
  else
    .ok (m.chunks.map fun chunk => m.tupleSize * chunk.length / m.tupleSize).sum

def tuples (m : TupleMaterializer) : List Bytes := m.chunks.flatten

theorem materialize_tuples (m : TupleMaterializer) (tuple : Bytes) :
    (m.materialize tuple).tupleSize = m.tupleSize ∧
      (m.materialize tuple).tuples = m.tuples ++ [tuple] := by
  unfold materialize
  split <;> simp [tuples, chunks]

theorem getNumTuples_eq (m : TupleMaterializer) (hpos : 0 < m.tupleSize) :
    m.getNumTuples = .ok m.tuples.length := by
  have hdiv : ∀ chunk : List Bytes, m.tupleSize * chunk.length / m.tupleSize = chunk.length :=
    fun chunk => Nat.mul_div_cancel_left _ hpos
  rw [getNumTuples, if_neg (by omega)]
  simp [hdiv, tuples, List.length_flatten]

end TupleMaterializer

end InkFuse.Runtime
