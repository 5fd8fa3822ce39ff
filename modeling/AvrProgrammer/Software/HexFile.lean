import AvrProgrammer.Software.Locality
import Mathlib.Data.List.GetD

/-!
# What `flash_write` sends for a `.hex` file

A `HexFile` is the text of a list of records with an end record. For such a file the header
and every word of a line convert inside the line, whatever the buffer holds, and the swap of
the two bytes puts the first byte of a word into the low byte: `linePackets_parse` lists the
packets sent for a record.
-/

namespace AvrProgrammer
namespace Software

open Stdio Hex IntelHex Runs

/-- The text of records of type 00, 03 and 05, a line each of at most 254 characters, and of an
end record of type 01. What follows the end record does not matter. -/
inductive HexFile : List Record → List UInt8 → Prop
  | record {r : Record} {line : List UInt8} {records : List Record} {file : List UInt8}
    (hparse : parse line = some r) (htype : r.type = 0x00 ∨ r.type = 0x03 ∨ r.type = 0x05)
    (hlen : line.length ≤ 254) (hrest : HexFile records file) :
    HexFile (r :: records) (line ++ newline :: file)
  | last {r : Record} {line tail : List UInt8} (hparse : parse line = some r)
    (htype : r.type = 0x01) (hlen : line.length ≤ 254)
    (htail : tail = [] ∨ tail.head? = some newline) : HexFile [] (line ++ tail)

/-- The write packets of a record: a word for two bytes. -/
def recordPackets (r : Record) : List Packet :=
  if r.type = 0x00 then
    (List.range (r.data.length / 2)).map fun k =>
      let a := UInt16.ofNat (r.address / 2 + k)
      [0x03, highByte a, lowByte a, r.data.getD (2 * k) 0, r.data.getD (2 * k + 1) 0]
  else []

/-! ## The header and the words of a line -/

/-- The header of a line of bytes. -/
theorem header_lineBytes {line bytes : List UInt8} {count hi lo type : UInt8}
    (h : lineBytes line = some (count :: hi :: lo :: type :: bytes)) (tail : List UInt8) :
    header (line ++ tail) =
      some ⟨count.toUInt32, 256 * hi.toUInt32 + lo.toUInt32, type.toUInt32⟩ := by
  have hnul : (0 : UInt8) ∉ line := notMem_of_lineBytes h (by decide) (by decide)
  have htake := takeWhile_append_of_notMem hnul tail
  obtain ⟨text, rfl, hdecode⟩ := lineBytes_eq_some h
  have hlength := scanHex_byte hdecode (tail.takeWhile (· ≠ 0))
  have haddr := scanHex_word (decodeHex_drop hdecode 1) (tail.takeWhile (· ≠ 0))
  have htype := scanHex_byte (decodeHex_drop hdecode 3) (tail.takeWhile (· ≠ 0))
  rw [List.drop_drop] at haddr
  unfold header
  rw [htake]
  simp only [List.cons_append, ne_eq, not_true_eq_false, if_false, hlength, Option.bind_some]
  rw [haddr, Option.bind_some, htype, Option.map_some]

/-- Word `k` of a line of bytes. -/
theorem lineWord_lineBytes {line bytes : List UInt8} {count hi lo type : UInt8}
    (h : lineBytes line = some (count :: hi :: lo :: type :: bytes)) {k : ℕ}
    (hk : 2 * k + 1 < bytes.length) {tail : List UInt8} :
    lineWord (line ++ tail) k =
      some (256 * (bytes.getD (2 * k) 0).toUInt32 + (bytes.getD (2 * k + 1) 0).toUInt32) := by
  have hnul : (0 : UInt8) ∉ line := notMem_of_lineBytes h (by decide) (by decide)
  obtain ⟨text, rfl, hdecode⟩ := lineBytes_eq_some h
  have hlen := decodeHex_length hdecode
  simp only [List.length_cons] at hlen
  have hdrop : (colon :: text ++ tail).drop (9 + 4 * k) = text.drop (2 * (4 + 2 * k)) ++ tail := by
    rw [show 9 + 4 * k = 2 * (4 + 2 * k) + 1 by omega, List.cons_append, List.drop_succ_cons,
      List.drop_append_of_le_length (by omega)]
  have hnul' : (0 : UInt8) ∉ text.drop (2 * (4 + 2 * k)) :=
    fun hmem => hnul (.tail _ (List.mem_of_mem_drop hmem))
  -- the bytes of the line from this word on
  have hword : decodeHex (text.drop (2 * (4 + 2 * k))) = some
      (bytes.getD (2 * k) 0 :: bytes.getD (2 * k + 1) 0 :: bytes.drop (2 * k + 2)) := by
    rw [decodeHex_drop hdecode, Nat.add_comm 4 (2 * k)]
    simp only [List.drop_succ_cons]
    rw [List.drop_eq_getElem_cons (by omega), List.drop_eq_getElem_cons hk,
      List.getD_eq_getElem _ _ (by omega), List.getD_eq_getElem _ _ hk]
  rw [lineWord, hdrop, takeWhile_append_of_notMem hnul', scanHex_word hword]
  rfl

section
variable {line : List UInt8} {r : Record} (hparse : parse line = some r) (tail : List UInt8)
include hparse

/-- The header of a line that holds a record. -/
theorem header_parse :
    header (line ++ tail) =
      some ⟨UInt32.ofNat r.data.length, UInt32.ofNat r.address, r.type.toUInt32⟩ := by
  have hlen := r.data_length
  have hcount : (UInt8.ofNat r.data.length).toUInt32 = UInt32.ofNat r.data.length := by
    apply UInt32.toNat_inj.mp
    rw [UInt8.toNat_toUInt32, UInt8.toNat_ofNat', UInt32.toNat_ofNat']
    omega
  have haddr : 256 * r.addressHi.toUInt32 + r.addressLo.toUInt32 = UInt32.ofNat r.address := by
    apply UInt32.toNat_inj.mp
    simp [Record.address]
  rw [header_lineBytes (lineBytes_record hparse), hcount, haddr]

end

/-- The first byte of a word is sent as its low byte. -/
theorem writePacket_bytes (a : UInt16) (b b' : UInt8) :
    writePacket a (256 * b.toUInt32 + b'.toUInt32) = [0x03, highByte a, lowByte a, b, b'] := by
  have hb := b.toNat_lt
  have hb' := b'.toNat_lt
  have hword : (256 * b.toUInt32 + b'.toUInt32).toNat = 256 * b.toNat + b'.toNat := by
    simp only [UInt32.toNat_add, UInt32.toNat_mul, UInt8.toNat_toUInt32, UInt32.reduceToNat]
    omega
  have hlow : (256 * b.toUInt32 + b'.toUInt32) &&& 0xFF = b'.toUInt32 := by
    apply UInt32.toNat_inj.mp
    rw [UInt32.toNat_and, hword, UInt8.toNat_toUInt32]
    have hmask : (256 * b.toNat + b'.toNat) &&& 255 = (256 * b.toNat + b'.toNat) % 256 :=
      Nat.and_two_pow_sub_one_eq_mod _ 8
    show (256 * b.toNat + b'.toNat) &&& 255 = b'.toNat
    omega
  have hhigh : (256 * b.toUInt32 + b'.toUInt32) >>> 8 = b.toUInt32 := by
    apply UInt32.toNat_inj.mp
    rw [UInt32.toNat_shiftRight, hword, UInt8.toNat_toUInt32]
    show (256 * b.toNat + b'.toNat) >>> 8 = b.toNat
    rw [Nat.shiftRight_eq_div_pow]
    omega
  have hdata : ((b'.toUInt32 <<< 8) ||| b.toUInt32).toUInt16 = address b' b := by
    rw [address, UInt32.toUInt16_or]
    congr 1
    apply UInt16.toNat_inj.mp
    simp [UInt16.toNat_shiftLeft]
    simp
  simp only [writePacket, hlow, hhigh, hdata, lowByte_address, highByte_address]

/-! ## The packets of a record -/

theorem type_eq_iff (t : UInt8) :
    (t.toUInt32.toUInt16 = 0x00 ↔ t = 0x00) ∧ (t.toUInt32.toUInt16 = 0x01 ↔ t = 0x01) := by
  revert t
  decide +kernel

theorem wordCount_parse (r : Record) (a t : UInt32) :
    Header.wordCount ⟨UInt32.ofNat r.data.length, a, t⟩ = (r.data.length + 1) / 2 := by
  have hlen := r.data_length
  rw [Header.wordCount, UInt32.toNat_ofNat']
  omega

theorem wordAddress_parse (r : Record) (k : ℕ) :
    (UInt32.ofNat r.address / 2).toUInt16 + UInt16.ofNat k = UInt16.ofNat (r.address / 2 + k) := by
  have haddr := r.address_lt
  apply UInt16.toNat_inj.mp
  simp [UInt16.toNat_add]
  omega

section
variable {line : List UInt8} {r : Record} (hparse : parse line = some r)
include hparse

/-- The packets of a line that holds a data record. If the number of data bytes is odd, the last
word ends with the checksum. -/
theorem linePackets_record (htype : r.type = 0x00) (v : Vars) (tail : List UInt8) :
    linePackets (v.readLine (line ++ tail)) =
      (List.range ((r.data.length + 1) / 2)).map fun k =>
        let a := UInt16.ofNat (r.address / 2 + k)
        [0x03, highByte a, lowByte a, (r.data ++ [r.checksum]).getD (2 * k) 0,
          (r.data ++ [r.checksum]).getD (2 * k + 1) 0] := by
  rw [linePackets_of_header (header_parse hparse tail) ((type_eq_iff _).1.mpr htype),
    wordCount_parse]
  apply List.map_congr_left
  intro k hk
  rw [List.mem_range] at hk
  have hlast : 2 * k + 1 < (r.data ++ [r.checksum]).length := by
    rw [List.length_append, List.length_singleton]
    omega
  rw [wordData_of_lineWord (lineWord_lineBytes (lineBytes_record hparse) hlast),
    wordAddress_parse, writePacket_bytes]

/-- The packets of a line that holds a record. -/
theorem linePackets_parse (heven : r.type = 0x00 → r.data.length % 2 = 0) (v : Vars)
    (tail : List UInt8) : linePackets (v.readLine (line ++ tail)) = recordPackets r := by
  by_cases htype : r.type = 0x00
  · have hlen := heven htype
    rw [linePackets_record hparse htype, recordPackets, if_pos htype,
      show (r.data.length + 1) / 2 = r.data.length / 2 by omega]
    apply List.map_congr_left
    intro k hk
    rw [List.mem_range] at hk
    simp only [List.getD_append r.data [r.checksum] 0 (2 * k) (by omega),
      List.getD_append r.data [r.checksum] 0 (2 * k + 1) (by omega)]
  · rw [linePackets, if_neg, recordPackets, if_neg htype]
    rw [type_of_header (header_parse hparse tail)]
    exact fun hzero => htype ((type_eq_iff _).1.mp hzero)

end

end Software
end AvrProgrammer
