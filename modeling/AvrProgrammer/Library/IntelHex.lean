import AvrProgrammer.Library.Hex

/-!
# Intel HEX records

A line is a colon and the hexadecimal text of bytes: the number of data bytes, a 16-bit address
(high byte first), the record type, the data, and a checksum that makes the sum of all bytes
`0` modulo 256. `parse` accepts exactly such lines.
-/

namespace AvrProgrammer
namespace IntelHex

open Hex

def colon : UInt8 := 0x3A

/-- A record. The number of data bytes is sent in one byte. -/
structure Record where
  addressHi : UInt8
  addressLo : UInt8
  type : UInt8
  data : List UInt8
  data_length : data.length ≤ 255

/-- The address of the first data byte. -/
def Record.address (r : Record) : ℕ := 256 * r.addressHi.toNat + r.addressLo.toNat

theorem Record.address_lt (r : Record) : r.address < 2 ^ 16 := by
  have hhi := r.addressHi.toNat_lt
  have hlo := r.addressLo.toNat_lt
  unfold Record.address
  omega

/-- The sum of bytes, modulo 256. -/
def byteSum (bytes : List UInt8) : UInt8 := bytes.foldl (· + ·) 0

/-- The data and the checksum that follow the header are counted in one byte. -/
theorem dropLast_length_le {count : UInt8} {rest : List UInt8}
    (h : rest.length = count.toNat + 1) : rest.dropLast.length ≤ 255 := by
  have hcount := count.toNat_lt
  rw [List.length_dropLast]
  omega

/-- The bytes of a line with count and checksum checked. -/
def ofBytes : List UInt8 → Option Record
  | count :: addressHi :: addressLo :: type :: rest =>
    if h : rest.length = count.toNat + 1 ∧
        byteSum (count :: addressHi :: addressLo :: type :: rest) = 0 then
      some { addressHi, addressLo, type, data := rest.dropLast,
             data_length := dropLast_length_le h.1 }
    else none
  | _ => none

/-- The record on a line, without the end of the line. -/
def parse : List UInt8 → Option Record
  | [] => none
  | c :: text => if c = colon then (decodeHex text).bind ofBytes else none

/-- The bytes on a line: a colon and hexadecimal text. -/
def lineBytes : List UInt8 → Option (List UInt8)
  | [] => none
  | c :: text => if c = colon then decodeHex text else none

theorem parse_eq_bind (line : List UInt8) : parse line = (lineBytes line).bind ofBytes := by
  cases line with
  | nil => rfl
  | cons c text =>
    rw [parse, lineBytes]
    split_ifs <;> rfl

theorem lineBytes_eq_some {line bytes : List UInt8} (h : lineBytes line = some bytes) :
    ∃ text, line = colon :: text ∧ decodeHex text = some bytes := by
  cases line with
  | nil => cases h
  | cons c text =>
    rw [lineBytes] at h
    split_ifs at h with hc
    exact ⟨text, by rw [hc], h⟩

/-- The bytes on the beginning of a line. -/
theorem lineBytes_take {line bytes : List UInt8} (h : lineBytes line = some bytes) (i : ℕ) :
    lineBytes (line.take (2 * i + 1)) = some (bytes.take i) := by
  obtain ⟨text, rfl, hdecode⟩ := lineBytes_eq_some h
  rw [List.take_succ_cons, lineBytes, if_pos rfl, decodeHex_take hdecode]

/-- After the colon a line of bytes has digits only. -/
theorem isSome_of_lineBytes {line bytes : List UInt8} (h : lineBytes line = some bytes) :
    ∀ c ∈ line.tail, (hexDigit c).isSome := by
  obtain ⟨text, rfl, hdecode⟩ := lineBytes_eq_some h
  exact isSome_of_decodeHex hdecode

/-- Neither an end of line nor a NUL stands in a line of bytes. -/
theorem notMem_of_lineBytes {line bytes : List UInt8} (h : lineBytes line = some bytes)
    {c : UInt8} (hc : c ≠ colon) (hdigit : hexDigit c = none) : c ∉ line := by
  obtain ⟨text, rfl, hdecode⟩ := lineBytes_eq_some h
  intro hmem
  rcases List.mem_cons.mp hmem with heq | hmem
  · exact hc heq
  · have hsome := isSome_of_decodeHex hdecode c hmem
    rw [hdigit] at hsome
    cases hsome

/-- The checksum of a record: the sum of all bytes is 0. -/
def Record.checksum (r : Record) : UInt8 :=
  0 - byteSum (UInt8.ofNat r.data.length :: r.addressHi :: r.addressLo :: r.type :: r.data)

theorem byteSum_concat (bytes : List UInt8) (c : UInt8) :
    byteSum (bytes ++ [c]) = byteSum bytes + c := by
  rw [byteSum, List.foldl_append]
  rfl

/-- The fields on the line of a record, checksum included. -/
theorem lineBytes_record {line : List UInt8} {r : Record} (h : parse line = some r) :
    lineBytes line = some (UInt8.ofNat r.data.length :: r.addressHi :: r.addressLo :: r.type ::
      (r.data ++ [r.checksum])) := by
  rw [parse_eq_bind] at h
  obtain ⟨bytes, hbytes, hr⟩ := Option.bind_eq_some_iff.mp h
  match bytes, hr with
  | count :: addressHi :: addressLo :: type :: rest, hr =>
    rw [ofBytes] at hr
    split_ifs at hr with hrest
    have hne : rest ≠ [] := by
      rintro rfl
      simp at hrest
    cases hr
    have hlen : rest.dropLast.length = count.toNat := by
      rw [List.length_dropLast, hrest.1, Nat.add_sub_cancel]
    have hcount : UInt8.ofNat rest.dropLast.length = count := by
      rw [hlen, UInt8.ofNat_toNat]
    have hsum := hrest.2
    rw [← List.dropLast_append_getLast hne, ← List.cons_append, ← List.cons_append,
      ← List.cons_append, ← List.cons_append, byteSum_concat] at hsum
    have hlast : rest.getLast hne
        = 0 - byteSum (count :: addressHi :: addressLo :: type :: rest.dropLast) := by
      symm
      rw [UInt8.sub_eq_iff_eq_add, UInt8.add_comm, hsum]
    rw [hbytes]
    simp only [Record.checksum, hcount, ← hlast, List.dropLast_append_getLast hne]

/-- A line of a record has `11 + 2 n` characters for `n` data bytes. -/
theorem parse_length {line : List UInt8} {r : Record} (h : parse line = some r) :
    line.length = 11 + 2 * r.data.length := by
  obtain ⟨text, rfl, hdecode⟩ := lineBytes_eq_some (lineBytes_record h)
  have hlen := decodeHex_length hdecode
  simp only [List.length_cons, List.length_append, List.length_nil] at hlen ⊢
  omega

/-- Neither an end of line nor a NUL stands in a record. -/
theorem notMem_of_parse {line : List UInt8} {r : Record} (h : parse line = some r) {c : UInt8}
    (hc : c ≠ colon) (hdigit : hexDigit c = none) : c ∉ line :=
  notMem_of_lineBytes (lineBytes_record h) hc hdigit

end IntelHex
end AvrProgrammer
