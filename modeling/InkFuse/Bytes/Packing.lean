import InkFuse.Bytes.Buffer

/-!
Rows of fields at running offsets. Packing writes the fields one after the other, and
unpacking reads the same widths at the same offsets.
-/

namespace InkFuse.Bytes

def packFields (b : Bytes) : ℕ → List Bytes → Bytes
  | _, [] => b
  | off, f :: fs => packFields (writeAt b off f) (off + f.length) fs

def unpackFields (b : Bytes) : ℕ → List ℕ → List Bytes
  | _, [] => []
  | off, w :: ws => readAt b off w :: unpackFields b (off + w) ws

theorem writeAt_writeAt_append {b x y : Bytes} {off : ℕ}
    (h : off + x.length + y.length ≤ b.length) :
    writeAt (writeAt b off x) (off + x.length) y = writeAt b off (x ++ y) := by
  have hfst : (b.take off ++ x).length = off + x.length := by
    simp
    omega
  simp only [writeAt]
  rw [List.take_left' hfst, List.drop_append, hfst, List.drop_eq_nil_of_le (by omega),
    List.nil_append, List.drop_drop, List.length_append, List.append_assoc (b.take off)]
  congr 2
  omega

theorem packFields_eq_writeAt {b : Bytes} {off : ℕ} {fs : List Bytes}
    (h : off + fs.flatten.length ≤ b.length) :
    packFields b off fs = writeAt b off fs.flatten := by
  induction fs generalizing b off with
  | nil => simp [packFields, writeAt]
  | cons f fs ih =>
    rw [List.flatten_cons, List.length_append] at h
    have hlen : (writeAt b off f).length = b.length := writeAt_length (by omega)
    rw [packFields, ih (by omega), List.flatten_cons, writeAt_writeAt_append (by omega)]

/-- Packing into a buffer of the exact size gives the fields and nothing else. -/
theorem packFields_full {b : Bytes} {fs : List Bytes} (h : fs.flatten.length = b.length) :
    packFields b 0 fs = fs.flatten := by
  rw [packFields_eq_writeAt (by omega)]
  simp [writeAt, h]

/-- Unpacking reads back what was packed. -/
theorem unpackFields_append (pre : Bytes) (fs : List Bytes) (post : Bytes) :
    unpackFields (pre ++ fs.flatten ++ post) pre.length (fs.map List.length) = fs := by
  induction fs generalizing pre with
  | nil => rfl
  | cons f fs ih =>
    have hread : readAt (pre ++ (f :: fs).flatten ++ post) pre.length f.length = f := by
      simp [readAt]
    have hrest := ih (pre ++ f)
    rw [List.length_append] at hrest
    simp only [List.map_cons, unpackFields, hread]
    congr 1
    simpa only [List.flatten_cons, List.append_assoc] using hrest

theorem unpackFields_flatten (fs : List Bytes) :
    unpackFields fs.flatten 0 (fs.map List.length) = fs := by
  simpa using unpackFields_append [] fs []

/-- Fields of the same widths are determined by their concatenation. -/
theorem flatten_injective {fs gs : List Bytes} (hlen : fs.map List.length = gs.map List.length)
    (h : fs.flatten = gs.flatten) : fs = gs := by
  rw [← unpackFields_flatten fs, ← unpackFields_flatten gs, hlen, h]

end InkFuse.Bytes
