import AvrProgrammer.Software.Libusb
import AvrProgrammer.Library.Stdio
import AvrProgrammer.Library.IntelHex

/-!
# `software/flash_write.c`

`flash_write` erases the target and then sends one write packet for each word of the data
records of a `.hex` file. The packets do not depend on the results of the transfers, so they
are a list.

The variables `line`, `length`, `addr_in` and `type_in` live across the lines and start with
what the stack holds; the result of `sscanf` is not looked at. A conversion that fails leaves
its variable as it was. `word_data` lives in one turn of the inner loop only: where its
conversion fails, or starts behind the last NUL of the buffer, its value is unspecified.
-/

namespace AvrProgrammer
namespace Software

open Stdio IntelHex Runs

/-- The variables of `flash_write`, the number of lines read, and the unspecified values of
`word_data`, by line and word. -/
structure Vars where
  line : List UInt8
  length : UInt32
  addrIn : UInt32
  typeIn : UInt32
  lineNumber : ℕ
  unspecified : ℕ → ℕ → UInt32

namespace Vars

/-- `sscanf(line, ":%2x%4x%2x", &length, &addr_in, &type_in)` on the string `text`. -/
def scanHeader (v : Vars) (text : List UInt8) : Vars :=
  match text with
  | [] => v
  | c :: text =>
    if c ≠ colon then v
    else match scanHex 2 text with
      | none => v
      | some (length, text) =>
        match scanHex 4 text with
        | none => { v with length }
        | some (addrIn, text) =>
          match scanHex 2 text with
          | none => { v with length, addrIn }
          | some (typeIn, _) => { v with length, addrIn, typeIn }

/-- A line is stored by `fgets` and its header is scanned. -/
def readLine (v : Vars) (s : List UInt8) : Vars :=
  scanHeader { v with line := store s v.line, lineNumber := v.lineNumber + 1 }
    (s.takeWhile (· ≠ 0))

/-- `type`. -/
def type (v : Vars) : UInt16 := v.typeIn.toUInt16

/-- `word_data` after the conversion at `line + 9 + 4 * k`. -/
def wordData (v : Vars) (k : ℕ) : UInt32 :=
  match (stringAt v.line (9 + 4 * k)).bind (scanHex 4) with
  | some (wordData, _) => wordData
  | none => v.unspecified v.lineNumber k

/-- The number of turns of `for (i = 0; i < length; i += 2)`, for a `length` of two digits.

`%2x` also reads a minus sign and a digit, as 2^32 - 15 or more if the digit is not 0. With such a
`length` the source does not get past the line: `line + 9 + 2 * i` leaves the memory of the process, and for 2^32 - 1
the counter wraps and the loop has no end. What is said of processes that come to their end asks
for `LengthsFit`, which excludes these lines. -/
def wordCount (v : Vars) : ℕ := (v.length.toNat + 1) / 2

/-- The inner loop ends as `wordCount` says. -/
def LengthFits (v : Vars) : Prop := v.type = 0x00 → v.length ≤ 0xFF

instance (v : Vars) : Decidable v.LengthFits := inferInstanceAs (Decidable (_ → _))

end Vars

/-- The write packet for a word, with the two bytes of `word_data` swapped. -/
def writePacket (currentWordAddr : UInt16) (wordData : UInt32) : Packet :=
  let data : UInt16 := (((wordData &&& 0xFF) <<< 8) ||| (wordData >>> 8)).toUInt16
  [0x03, highByte currentWordAddr, lowByte currentWordAddr, lowByte data, highByte data]

/-- The packets sent for the line just read. -/
def linePackets (v : Vars) : List Packet :=
  if v.type = 0x00 then
    (List.range v.wordCount).map fun k =>
      writePacket ((v.addrIn / 2).toUInt16 + UInt16.ofNat k) (v.wordData k)
  else []

/-- The packets sent for the lines that are left, up to a line of type 01. -/
def writeLoop (v : Vars) : List (List UInt8) → List Packet
  | [] => []
  | s :: rest =>
    if (v.readLine s).type = 0x01 then []
    else linePackets (v.readLine s) ++ writeLoop (v.readLine s) rest

/-- The write packets of a file. -/
def writePackets (v : Vars) (file : List UInt8) : List Packet := writeLoop v (lines 256 file)

/-- On the lines that are left, up to a line of type 01, the inner loop ends. -/
def LoopsEnd (v : Vars) : List (List UInt8) → Prop
  | [] => True
  | s :: rest =>
    (v.readLine s).type ≠ 0x01 → (v.readLine s).LengthFits ∧ LoopsEnd (v.readLine s) rest

/-- `flash_write` gets to the end of the file. -/
def LengthsFit (v : Vars) (file : List UInt8) : Prop := LoopsEnd v (lines 256 file)

/-- The packets `flash_write` sends. -/
def flashWritePackets (v : Vars) (file : List UInt8) : List Packet :=
  [0x04] :: writePackets v file

/-- `flash_write` once the file is read: the packets left to send. -/
def flashWrite : Program (List Packet) where
  call packets := packets.head?.map .transferOut
  resume packets _ := (packets.tail, [])

theorem flashWrite_call {packets : List Packet} {call : Call}
    (h : flashWrite.call packets = some call) :
    ∃ p rest, packets = p :: rest ∧ call = .transferOut p := by
  cases packets with
  | nil => cases h
  | cons p rest => cases h; exact ⟨p, rest, rfl, rfl⟩

/-! ## What the packets are -/

@[simp] theorem carriedAddress_writePacket (a : UInt16) (w : UInt32) :
    carriedAddress (writePacket a w) = a := address_bytes a

/-- The loop of `flash_write` gets past these lines. -/
def Passes (v : Vars) (pre : List (List UInt8)) : Prop :=
  Along Vars.readLine (fun v s => (v.readLine s).type ≠ 0x01) v pre

theorem type_of_mem_linePackets {v : Vars} {p : Packet} (h : p ∈ linePackets v) :
    v.type = 0x00 := by
  by_contra htype
  rw [linePackets, if_neg htype] at h
  cases h

theorem mem_linePackets {v : Vars} {p : Packet} :
    p ∈ linePackets v ↔ v.type = 0x00 ∧ ∃ k < v.wordCount,
      p = writePacket ((v.addrIn / 2).toUInt16 + UInt16.ofNat k) (v.wordData k) := by
  by_cases htype : v.type = 0x00
  · simp only [linePackets, htype, if_true, List.mem_map, List.mem_range, true_and, eq_comm]
  · simp [linePackets, htype]

/-- Every packet is sent for a line the loop gets to. -/
theorem mem_writeLoop {v : Vars} {ls : List (List UInt8)} {p : Packet} :
    p ∈ writeLoop v ls ↔ ∃ pre s post, ls = pre ++ s :: post ∧ Passes v pre ∧
      p ∈ linePackets ((run Vars.readLine v pre).readLine s) := by
  induction ls generalizing v with
  | nil => simp [writeLoop]
  | cons s rest ih =>
    rw [writeLoop]
    constructor
    · intro h
      split_ifs at h with hend
      · cases h
      rcases List.mem_append.mp h with h | h
      · exact ⟨[], s, rest, rfl, trivial, h⟩
      · obtain ⟨pre, t, post, rfl, hpre, hp⟩ := ih.mp h
        exact ⟨s :: pre, t, post, rfl, ⟨hend, hpre⟩, hp⟩
    · rintro ⟨pre, t, post, hsplit, hpre, hp⟩
      cases pre with
      | nil =>
        cases hsplit
        rw [if_neg, List.mem_append]
        · exact .inl hp
        · rw [show (v.readLine s).type = 0x00 from type_of_mem_linePackets hp]
          decide
      | cons e pre =>
        cases hsplit
        rw [if_neg hpre.1, List.mem_append]
        exact .inr (ih.mpr ⟨pre, t, post, rfl, hpre.2, hp⟩)

/-- Every packet of `flash_write` is the erase command or a write command. -/
theorem head_of_mem_flashWritePackets {v : Vars} {file : List UInt8} {p : Packet}
    (h : p ∈ flashWritePackets v file) : p.head? = some 0x04 ∨ p.head? = some 0x03 := by
  rcases List.mem_cons.mp h with rfl | h
  · exact .inl rfl
  · obtain ⟨_, _, _, -, -, hp⟩ := mem_writeLoop.mp h
    obtain ⟨-, _, -, rfl⟩ := mem_linePackets.mp hp
    exact .inr rfl

end Software
end AvrProgrammer
