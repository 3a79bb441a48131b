import Mathlib.Data.List.Basic
import Mathlib.Tactic.Common

/-!
Byte buffers and the two memory primitives on them: read a range, overwrite a
range. A write leaves every range it does not meet as it was.
-/

namespace InkFuse

abbrev Bytes := List UInt8

namespace Bytes

/-- The `n` bytes at `off`; fewer when the buffer ends before. -/
def readAt (b : Bytes) (off n : ℕ) : Bytes := (b.drop off).take n

def writeAt (b : Bytes) (off : ℕ) (bs : Bytes) : Bytes :=
  b.take off ++ bs ++ b.drop (off + bs.length)

theorem readAt_zero (b : Bytes) (n : ℕ) : readAt b 0 n = b.take n := by simp [readAt]

theorem readAt_length (b : Bytes) {off n : ℕ} (h : off + n ≤ b.length) :
    (readAt b off n).length = n := by
  simp [readAt]
  omega

theorem readAt_all (b : Bytes) : readAt b 0 b.length = b := by simp [readAt]

theorem readAt_readAt (b : Bytes) {off n i m : ℕ} (h : i + m ≤ n) :
    readAt (readAt b off n) i m = readAt b (off + i) m := by
  simp only [readAt]
  rw [List.drop_take, List.take_take, List.drop_drop, Nat.min_eq_left (by omega)]

theorem writeAt_length {b bs : Bytes} {off : ℕ} (h : off + bs.length ≤ b.length) :
    (writeAt b off bs).length = b.length := by
  simp [writeAt]
  omega

theorem writeAt_nil (b : Bytes) (off : ℕ) : writeAt b off [] = b := by
  simp [writeAt]

/-- What was written is read back. -/
theorem readAt_writeAt {b bs : Bytes} {off : ℕ} (h : off ≤ b.length) :
    readAt (writeAt b off bs) off bs.length = bs := by
  have htake : (b.take off).length = off := by simp [h]
  simp only [readAt, writeAt, List.append_assoc]
  rw [List.drop_append_of_le_length (by omega), List.drop_eq_nil_of_le (by omega),
    List.nil_append, List.take_left]

theorem readAt_writeAt_before {b bs : Bytes} {off i n : ℕ} (hoff : off ≤ b.length)
    (h : i + n ≤ off) : readAt (writeAt b off bs) i n = readAt b i n := by
  have htake : (b.take off).length = off := by simp [hoff]
  simp only [readAt, writeAt, List.append_assoc]
  rw [List.drop_append_of_le_length (by omega), List.take_append_of_le_length (by simp; omega),
    List.drop_take, List.take_take, Nat.min_eq_left (by omega)]

theorem readAt_writeAt_after {b bs : Bytes} {off i n : ℕ} (hoff : off ≤ b.length)
    (h : off + bs.length ≤ i) : readAt (writeAt b off bs) i n = readAt b i n := by
  have hlen : (b.take off ++ bs).length = off + bs.length := by simp [hoff]
  have hdrop : (b.drop (off + bs.length)).drop (i - (off + bs.length)) = b.drop i := by
    rw [List.drop_drop]
    congr 1
    omega
  simp only [readAt, writeAt]
  rw [List.drop_append, List.drop_eq_nil_of_le (by omega), List.nil_append, hlen, hdrop]

/-- A write does not touch a range it does not meet. -/
theorem readAt_writeAt_disjoint {b bs : Bytes} {off i n : ℕ} (hoff : off ≤ b.length)
    (h : i + n ≤ off ∨ off + bs.length ≤ i) :
    readAt (writeAt b off bs) i n = readAt b i n := by
  rcases h with hbefore | hafter
  · exact readAt_writeAt_before hoff hbefore
  · exact readAt_writeAt_after hoff hafter

/-- A write inside a range writes to what the range reads. -/
theorem readAt_writeAt_inside {b bs : Bytes} {i j n : ℕ} (hj : j + bs.length ≤ n)
    (hn : i + n ≤ b.length) :
    readAt (writeAt b (i + j) bs) i n = writeAt (readAt b i n) j bs := by
  have htake : (b.take (i + j)).drop i = (b.drop i).take j := by
    rw [List.drop_take]
    congr 1
    omega
  have hfst : ((b.drop i).take j).length = j := by
    simp only [List.length_take, List.length_drop]
    omega
  simp only [readAt, writeAt, List.append_assoc]
  rw [List.drop_append_of_le_length (by simp only [List.length_take]; omega), htake,
    List.take_take, Nat.min_eq_left (by omega), List.take_append, hfst, List.take_append,
    List.drop_take, List.drop_drop, List.take_of_length_le (l := (b.drop i).take j) (by omega),
    List.take_of_length_le (l := bs) (by omega), Nat.sub_sub, Nat.add_assoc]

/-- A write to the first bytes of a range, seen as one to the whole range. -/
theorem writeAt_readAt (b bs : Bytes) {off n : ℕ} (hn : off + n ≤ b.length)
    (hbs : bs.length ≤ n) :
    writeAt b off (writeAt (readAt b off n) 0 bs) = writeAt b off bs := by
  have hlen : (readAt b off n).length = n := readAt_length b hn
  have hrest : (readAt b off n).drop bs.length ++ b.drop (off + n) = b.drop (off + bs.length) := by
    have hsplit := List.take_append_drop (n - bs.length) (b.drop (off + bs.length))
    rw [List.drop_drop] at hsplit
    rw [readAt, List.drop_take, List.drop_drop, ← hsplit]
    congr 2
    omega
  rw [writeAt, writeAt_length (by omega), hlen]
  simp only [writeAt, List.take_zero, List.nil_append, Nat.zero_add, List.append_assoc, hrest]

/-- Writes of one length to the same place are equal if they write the same. -/
theorem writeAt_inj {b x y : Bytes} {off : ℕ} (hx : off ≤ b.length) (hlen : x.length = y.length) :
    writeAt b off x = writeAt b off y ↔ x = y := by
  constructor
  · intro h
    have hfst : readAt (writeAt b off x) off x.length = x := readAt_writeAt hx
    have hsnd : readAt (writeAt b off y) off y.length = y := readAt_writeAt hx
    rw [← hfst, ← hsnd, h, hlen]
  · intro h
    rw [h]

theorem readAt_replicate {off n m : ℕ} (x : UInt8) (h : off + n ≤ m) :
    readAt (List.replicate m x) off n = List.replicate n x := by
  simp only [readAt, List.drop_replicate, List.take_replicate]
  congr 1
  omega

end Bytes

end InkFuse
