import InkFuse.Algebra.PkJoin
import InkFuse.Exec.HybridScan

/-!
The left outer join: the probe pipeline of the inner join, and a continuation that scans
the hash table for unmatched rows. The scan goes by the mark bit that `lookupOuter` sets,
but build and probe use `insert` and `lookup`, for which the bit belongs to the hash.
-/

namespace InkFuse.Algebra

open Bytes Codegen Probing
open InkFuse.Runtime
open InkFuse.Exec (defaultChunkSize)

namespace Join

variable (j : Join)

end Join

section Scan

variable {C : Comparator} {table : AtomicHashTable} {placed : List (Bytes × ℕ)}

end Scan

section Continuation

variable {j : Join} {C : Comparator} {hash : Bytes → UInt64} {table : AtomicHashTable}
  {left : List SideRow} {marker column : Bytes} {m : ℕ} {slots : List ℕ}
  {backend : ℕ → Backend}

end Continuation

section Join

variable {T : ℕ}

section Runs

variable {j : Join} {hash : Bytes → UInt64} {left : List SideRow} {table : AtomicHashTable}
  {backend : ℕ → Backend} {column : Bytes}

end Runs

end Join

end InkFuse.Algebra
