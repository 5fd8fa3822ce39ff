import AvrProgrammer.Library.IntelHex

/-!
# Writing Intel HEX records

The encoder that belongs to `decodeHex` and `parse`: two upper-case digits a byte, and a
checksum that brings the sum of all bytes to `0`. Every record is read back from its text:
`parse_text`.
-/

namespace AvrProgrammer
namespace IntelHex

open Hex

/-- The digit of a value below 16. -/
def hexChar (d : UInt8) : UInt8 := if d < 10 then 0x30 + d else 0x37 + d

/-- The digits of bytes, the high one first. -/
def encodeHex : List UInt8 → List UInt8
  | [] => []
  | b :: bytes => hexChar (b / 16) :: hexChar (b % 16) :: encodeHex bytes

theorem hexDigit_hexChar (b : UInt8) :
    hexDigit (hexChar (b / 16)) = some (b / 16) ∧ hexDigit (hexChar (b % 16)) = some (b % 16) ∧
      16 * (b / 16) + b % 16 = b := by
  revert b
  decide +kernel

theorem decodeHex_encodeHex (bytes : List UInt8) : decodeHex (encodeHex bytes) = some bytes := by
  induction bytes with
  | nil => rfl
  | cons b bytes ih =>
    obtain ⟨hhigh, hlow, hvalue⟩ := hexDigit_hexChar b
    simp only [encodeHex, decodeHex, hhigh, hlow, ih, hvalue]

/-- The bytes of a record without its checksum. -/
def Record.fields (r : Record) : List UInt8 :=
  UInt8.ofNat r.data.length :: r.addressHi :: r.addressLo :: r.type :: r.data

/-- The line of a record. -/
def Record.text (r : Record) : List UInt8 := colon :: encodeHex (r.fields ++ [r.checksum])

theorem byteSum_fields (r : Record) : byteSum (r.fields ++ [r.checksum]) = 0 := by
  rw [byteSum_concat]
  show byteSum r.fields + (0 - byteSum r.fields) = 0
  rw [UInt8.add_comm, UInt8.sub_add_cancel]

/-- A record is read back from its line. -/
theorem parse_text (r : Record) : parse r.text = some r := by
  have hlen := r.data_length
  have hcount : (UInt8.ofNat r.data.length).toNat = r.data.length := by
    rw [UInt8.toNat_ofNat']
    omega
  rw [Record.text, parse, if_pos rfl, decodeHex_encodeHex, Option.bind_some]
  have hsum := byteSum_fields r
  unfold Record.fields at hsum ⊢
  simp only [List.cons_append] at hsum ⊢
  rw [ofBytes, dif_pos]
  · simp
  · refine ⟨?_, hsum⟩
    rw [List.length_append, hcount]
    rfl

theorem text_length (r : Record) : r.text.length = 11 + 2 * r.data.length :=
  parse_length (parse_text r)

end IntelHex
end AvrProgrammer
