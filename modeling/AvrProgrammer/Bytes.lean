import Mathlib.Data.FinEnum

/-!
# Bytes and word addresses

A 16-bit word address travels in two bytes, high byte first, both in the USB packets and in
the SPI instructions. `address` puts the two bytes together and `highByte` and `lowByte` take
an address apart, as `addr >> 8` and `addr & 0xFF` do in the C code; each is the inverse of
the other. The mask facts about one byte are checked over all 256 values.
-/

namespace AvrProgrammer

/-- The bytes of one USB packet. -/
abbrev Packet := List UInt8

/-- The word address sent in two bytes, high byte first. -/
def address (hi lo : UInt8) : UInt16 := (hi.toUInt16 <<< 8) ||| lo.toUInt16

/-- `address >> 8` as the byte the firmware sends. -/
def highByte (a : UInt16) : UInt8 := (a >>> 8).toUInt8

/-- `address & 0xFF` as the byte the firmware sends. -/
def lowByte (a : UInt16) : UInt8 := (a &&& 0xFF).toUInt8

theorem address_toNat (hi lo : UInt8) : (address hi lo).toNat = 256 * hi.toNat + lo.toNat := by
  have hhi := hi.toNat_lt
  have hlo := lo.toNat_lt
  have hshift : hi.toNat <<< 8 = 256 * hi.toNat := by rw [Nat.shiftLeft_eq]; omega
  have hor : hi.toNat <<< 8 ||| lo.toNat = hi.toNat <<< 8 + lo.toNat :=
    (Nat.shiftLeft_add_eq_or_of_lt hlo _).symm
  calc (address hi lo).toNat
      = hi.toNat <<< 8 % 65536 ||| lo.toNat := by
        simp [address, UInt16.toNat_or, UInt16.toNat_shiftLeft]
    _ = hi.toNat <<< 8 ||| lo.toNat := by rw [Nat.mod_eq_of_lt (by omega)]
    _ = 256 * hi.toNat + lo.toNat := by rw [hor, hshift]

theorem highByte_toNat (a : UInt16) : (highByte a).toNat = a.toNat / 256 := by
  have ha := a.toNat_lt
  simp [highByte, UInt16.toNat_shiftRight, Nat.shiftRight_eq_div_pow]
  omega

theorem lowByte_toNat (a : UInt16) : (lowByte a).toNat = a.toNat % 256 := by
  have hmask : a.toNat &&& 255 = a.toNat % 256 := Nat.and_two_pow_sub_one_eq_mod _ 8
  calc (lowByte a).toNat = (a.toNat &&& 255) % 256 := by
        rw [lowByte, UInt16.toNat_toUInt8, UInt16.toNat_and]; rfl
    _ = a.toNat % 256 := by rw [hmask, Nat.mod_mod]

/-- The two bytes of an address are read back as that address. -/
@[simp] theorem address_bytes (a : UInt16) : address (highByte a) (lowByte a) = a := by
  apply UInt16.toNat_inj.mp
  rw [address_toNat, highByte_toNat, lowByte_toNat]
  omega

@[simp] theorem highByte_address (hi lo : UInt8) : highByte (address hi lo) = hi := by
  have hlo := lo.toNat_lt
  apply UInt8.toNat_inj.mp
  rw [highByte_toNat, address_toNat]
  omega

@[simp] theorem lowByte_address (hi lo : UInt8) : lowByte (address hi lo) = lo := by
  have hlo := lo.toNat_lt
  apply UInt8.toNat_inj.mp
  rw [lowByte_toNat, address_toNat]
  omega

/-- The word address in the two bytes after the command byte of a packet. -/
def carriedAddress (p : Packet) : UInt16 := address (p.getD 1 0) (p.getD 2 0)

/-! ## Masks of one byte -/

theorem and_ones (b : UInt8) : b &&& 0xFF = b := by
  revert b; decide +kernel

end AvrProgrammer
