import InkFuse.Bytes.Buffer
import Mathlib.Tactic.Ring

/-!
Fixed-width little-endian numbers. `encode w` drops what does not fit in `w`
bytes, so on `w` bytes the two directions are inverse to each other.
-/

namespace InkFuse.Bytes

def encode : ℕ → ℕ → Bytes
  | 0, _ => []
  | w + 1, v => UInt8.ofNat (v % 256) :: encode w (v / 256)

def decode : Bytes → ℕ
  | [] => 0
  | b :: bs => b.toNat + 256 * decode bs

@[simp] theorem encode_length (w v : ℕ) : (encode w v).length = w := by
  induction w generalizing v with
  | zero => rfl
  | succ w ih => simp [encode, ih]

theorem decode_lt (bs : Bytes) : decode bs < 256 ^ bs.length := by
  induction bs with
  | nil => simp [decode]
  | cons b bs ih =>
    have hb := b.toNat_lt
    simp only [decode, List.length_cons, pow_succ]
    omega

theorem decode_encode (w v : ℕ) : decode (encode w v) = v % 256 ^ w := by
  induction w generalizing v with
  | zero => simp [encode, decode, Nat.mod_one]
  | succ w ih =>
    have hlow : (UInt8.ofNat (v % 256)).toNat = v % 256 := by
      rw [UInt8.toNat_ofNat']
      omega
    simp only [encode, decode, hlow, ih]
    rw [pow_succ', Nat.mod_mul]

theorem decode_encode_of_lt {w v : ℕ} (h : v < 256 ^ w) : decode (encode w v) = v := by
  rw [decode_encode, Nat.mod_eq_of_lt h]

theorem encode_decode (bs : Bytes) : encode bs.length (decode bs) = bs := by
  induction bs with
  | nil => rfl
  | cons b bs ih =>
    have hb := b.toNat_lt
    have hmod : (b.toNat + 256 * decode bs) % 256 = b.toNat := by omega
    have hdiv : (b.toNat + 256 * decode bs) / 256 = decode bs := by omega
    simp [encode, decode, hmod, hdiv, ih]

theorem decode_injective {a b : Bytes} (hlen : a.length = b.length)
    (h : decode a = decode b) : a = b := by
  rw [← encode_decode a, ← encode_decode b, hlen, h]

theorem decode_replicate_zero (w : ℕ) : decode (List.replicate w 0) = 0 := by
  induction w with
  | zero => rfl
  | succ w ih => simp [List.replicate_succ, decode, ih]

theorem encode_zero (w : ℕ) : encode w 0 = List.replicate w 0 := by
  apply decode_injective
  · simp
  · rw [decode_encode, decode_replicate_zero, Nat.zero_mod]

/-- Bytes only keep a number up to their width. -/
theorem encode_eq_iff {w a b : ℕ} : encode w a = encode w b ↔ a % 256 ^ w = b % 256 ^ w := by
  constructor
  · intro h
    rw [← decode_encode, ← decode_encode, h]
  · intro h
    apply decode_injective
    · simp
    · rw [decode_encode, decode_encode, h]

theorem encode_mod (w v : ℕ) : encode w (v % 256 ^ w) = encode w v :=
  encode_eq_iff.mpr (Nat.mod_mod _ _)

theorem encode_add_decode (w a b : ℕ) : encode w (a + decode (encode w b)) = encode w (a + b) := by
  rw [decode_encode, ← encode_mod, Nat.add_mod_mod, encode_mod]

/-- The low bytes come first. -/
theorem encode_append (w n v : ℕ) : encode (w + n) v = encode w v ++ encode n (v / 256 ^ w) := by
  induction w generalizing v with
  | zero => simp [encode]
  | succ w ih =>
    rw [Nat.succ_add, encode, ih, encode, List.cons_append, Nat.div_div_eq_div_mul, pow_succ']

end InkFuse.Bytes
