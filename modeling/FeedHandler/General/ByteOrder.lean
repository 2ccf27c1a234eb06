import Mathlib.Tactic.Ring
import Mathlib.Data.Nat.ModEq

namespace ByteOrder

/-- The order in which a target stores the bytes of a machine word. -/
inductive Endian
  | little
  | big
  deriving DecidableEq, Repr

/-- The low `width` bytes of a number, least significant first. -/
def lowBytes : Nat → Nat → List UInt8
  | 0, _ => []
  | width + 1, value => UInt8.ofNat value :: lowBytes width (value / 256)

def ofLowBytes : List UInt8 → Nat
  | [] => 0
  | byte :: rest => byte.toNat + 256 * ofLowBytes rest

theorem length_lowBytes (width value : Nat) : (lowBytes width value).length = width := by
  induction width generalizing value with
  | zero => rfl
  | succ width ih => simp only [lowBytes, List.length_cons, ih]

theorem ofLowBytes_lt (bytes : List UInt8) : ofLowBytes bytes < 256 ^ bytes.length := by
  induction bytes with
  | nil => exact Nat.one_pos
  | cons byte rest ih =>
    have small := byte.toNat_lt
    rw [ofLowBytes, List.length_cons, Nat.pow_succ]
    omega

theorem ofLowBytes_lowBytes {width value : Nat} (fits : value < 256 ^ width) :
    ofLowBytes (lowBytes width value) = value := by
  induction width generalizing value with
  | zero =>
    rw [Nat.pow_zero] at fits
    exact (Nat.lt_one_iff.mp fits).symm
  | succ width ih =>
    rw [Nat.pow_succ] at fits
    have above := ih (Nat.div_lt_of_lt_mul (by omega : value < 256 * 256 ^ width))
    simp only [lowBytes, ofLowBytes, above, UInt8.toNat_ofNat']
    omega

theorem lowBytes_ofLowBytes (bytes : List UInt8) :
    lowBytes bytes.length (ofLowBytes bytes) = bytes := by
  induction bytes with
  | nil => rfl
  | cons byte rest ih =>
    have small := byte.toNat_lt
    have low : UInt8.ofNat (byte.toNat + 256 * ofLowBytes rest) = byte := by
      refine UInt8.toNat_inj.mp ?_
      rw [UInt8.toNat_ofNat']
      omega
    have high : (byte.toNat + 256 * ofLowBytes rest) / 256 = ofLowBytes rest := by omega
    simp only [List.length_cons, ofLowBytes, lowBytes, low, high, ih]

namespace Endian

variable {endian : Endian}

/-- The bytes of a word of the given width, in memory order. -/
def toBytes (endian : Endian) (width value : Nat) : List UInt8 :=
  match endian with
  | little => lowBytes width value
  | big => (lowBytes width value).reverse

def ofBytes (endian : Endian) (bytes : List UInt8) : Nat :=
  match endian with
  | little => ofLowBytes bytes
  | big => ofLowBytes bytes.reverse

@[simp] theorem length_toBytes (width value : Nat) :
    (endian.toBytes width value).length = width := by
  cases endian with
  | little => exact length_lowBytes width value
  | big => exact List.length_reverse.trans (length_lowBytes width value)

theorem ofBytes_toBytes {width value : Nat} (fits : value < 256 ^ width) :
    endian.ofBytes (endian.toBytes width value) = value := by
  cases endian with
  | little => exact ofLowBytes_lowBytes fits
  | big =>
    simp only [toBytes, ofBytes, List.reverse_reverse]
    exact ofLowBytes_lowBytes fits

theorem toBytes_ofBytes {width : Nat} {bytes : List UInt8} (length : bytes.length = width) :
    endian.toBytes width (endian.ofBytes bytes) = bytes := by
  subst length
  cases endian with
  | little => exact lowBytes_ofLowBytes bytes
  | big =>
    have back := lowBytes_ofLowBytes bytes.reverse
    rw [List.length_reverse] at back
    simp only [toBytes, ofBytes, back, List.reverse_reverse]

theorem ofBytes_lt {bytes : List UInt8} {width : Nat} (length : bytes.length = width) :
    endian.ofBytes bytes < 256 ^ width := by
  subst length
  cases endian with
  | little => exact ofLowBytes_lt bytes
  | big =>
    have bound := ofLowBytes_lt bytes.reverse
    rwa [List.length_reverse] at bound

theorem uint64_ofBytes_toBytes (word : UInt64) :
    UInt64.ofNat (endian.ofBytes (endian.toBytes 8 word.toNat)) = word := by
  rw [ofBytes_toBytes (show word.toNat < 256 ^ 8 from word.toNat_lt), UInt64.ofNat_toNat]

theorem uint32_ofBytes_toBytes (word : UInt32) :
    UInt32.ofNat (endian.ofBytes (endian.toBytes 4 word.toNat)) = word := by
  rw [ofBytes_toBytes (show word.toNat < 256 ^ 4 from word.toNat_lt), UInt32.ofNat_toNat]

theorem uint64_toBytes_ofBytes {bytes : List UInt8} (length : bytes.length = 8) :
    endian.toBytes 8 (UInt64.ofNat (endian.ofBytes bytes)).toNat = bytes := by
  have fits : endian.ofBytes bytes < 2 ^ 64 := ofBytes_lt length
  rw [UInt64.toNat_ofNat_of_lt' fits, toBytes_ofBytes length]

theorem uint32_toBytes_ofBytes {bytes : List UInt8} (length : bytes.length = 4) :
    endian.toBytes 4 (UInt32.ofNat (endian.ofBytes bytes)).toNat = bytes := by
  have fits : endian.ofBytes bytes < 2 ^ 32 := ofBytes_lt length
  rw [UInt32.toNat_ofNat_of_lt' fits, toBytes_ofBytes length]

end Endian

end ByteOrder
