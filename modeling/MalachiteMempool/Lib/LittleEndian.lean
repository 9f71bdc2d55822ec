import Mathlib.Algebra.Group.Nat.Defs

/-! # Fixed-width little-endian numbers

The lowest `width` bytes of a number, least significant first.  Encoding keeps
a number modulo `256 ^ width`, and every list of bytes is the encoding of the
number it stands for: at a fixed width both directions are injective.
-/

namespace LittleEndian

def encode (width value : Nat) : List UInt8 :=
  (List.range width).map (fun i => UInt8.ofNat (value / 256 ^ i))

def decode (bytes : List UInt8) : Nat :=
  bytes.foldr (fun byte value => byte.toNat + 256 * value) 0

@[simp] theorem encode_zero (value : Nat) : encode 0 value = [] := rfl

theorem encode_succ (width value : Nat) :
    encode (width + 1) value = UInt8.ofNat value :: encode width (value / 256) := by
  unfold encode
  rw [List.range_succ_eq_map, List.map_cons, List.map_map, pow_zero, Nat.div_one]
  congr 1
  apply List.map_congr_left
  intro i _
  rw [Function.comp_apply, Nat.pow_succ', Nat.div_div_eq_div_mul]

@[simp] theorem decode_nil : decode [] = 0 := rfl

@[simp] theorem decode_cons (byte : UInt8) (bytes : List UInt8) :
    decode (byte :: bytes) = byte.toNat + 256 * decode bytes := rfl

theorem decode_lt (bytes : List UInt8) : decode bytes < 256 ^ bytes.length := by
  induction bytes with
  | nil => simp
  | cons byte rest ih =>
      have small := byte.toNat_lt
      rw [decode_cons, List.length_cons, Nat.pow_succ']
      omega

/-- What is decoded again is the number modulo the width. -/
theorem decode_encode (width value : Nat) : decode (encode width value) = value % 256 ^ width := by
  induction width generalizing value with
  | zero => simp [Nat.mod_one]
  | succ width ih =>
      have lowest : (UInt8.ofNat value).toNat = value % 256 := by simp
      rw [encode_succ, decode_cons, ih, lowest, Nat.pow_succ', Nat.mod_mul]

/-- A list of bytes is the encoding of what it stands for. -/
theorem encode_decode (bytes : List UInt8) : encode bytes.length (decode bytes) = bytes := by
  induction bytes with
  | nil => rfl
  | cons byte rest ih =>
      have small := byte.toNat_lt
      have high : (byte.toNat + 256 * decode rest) / 256 = decode rest := by omega
      have low : UInt8.ofNat (byte.toNat + 256 * decode rest) = byte := by
        apply UInt8.toNat.inj
        rw [UInt8.toNat_ofNat']
        omega
      rw [List.length_cons, encode_succ, decode_cons, high, ih, low]

end LittleEndian
