import Mathlib.Tactic

/-!
# Little-endian integers of a fixed width
-/

namespace LittleEndian

/-- The low `width` bytes of `v`, least significant first. -/
def encode : ℕ → ℕ → List UInt8
  | 0, _ => []
  | width + 1, v => UInt8.ofNat v :: encode width (v / 256)

def decode : List UInt8 → ℕ
  | [] => 0
  | b :: bs => b.toNat + 256 * decode bs

@[simp] theorem length_encode (width v : ℕ) : (encode width v).length = width := by
  induction width generalizing v with
  | zero => rfl
  | succ width ih => simp [encode, ih]

theorem decode_lt (bs : List UInt8) : decode bs < 256 ^ bs.length := by
  induction bs with
  | nil => simp [decode]
  | cons b bs ih =>
    have hb := b.toNat_lt
    rw [decode, List.length_cons, pow_succ]
    omega

theorem decode_encode {width v : ℕ} (h : v < 256 ^ width) : decode (encode width v) = v := by
  induction width generalizing v with
  | zero =>
    obtain rfl : v = 0 := by simpa using h
    rfl
  | succ width ih =>
    rw [encode, decode, ih (by omega)]
    simp only [UInt8.toNat_ofNat']
    omega

theorem encode_decode (bs : List UInt8) : encode bs.length (decode bs) = bs := by
  induction bs with
  | nil => rfl
  | cons b bs ih =>
    have hb := b.toNat_lt
    have hdiv : (b.toNat + 256 * decode bs) / 256 = decode bs := by omega
    have hlow : UInt8.ofNat (b.toNat + 256 * decode bs) = b := by
      apply UInt8.toNat_inj.mp
      rw [UInt8.toNat_ofNat']
      omega
    rw [List.length_cons, decode, encode, hdiv, ih, hlow]

end LittleEndian
