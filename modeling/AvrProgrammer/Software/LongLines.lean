import AvrProgrammer.Software.HexFile

/-!
# Lines that do not fit in the buffer

`fgets` stores at most 255 characters, so a longer line comes in parts, and `flash_write` takes
every part for a line. A later part does not start with a colon: its header is not converted,
and the header of the first part is used again, with the characters of the later part as data.

`recordLaw_iff` says for which files of records every record is parsed once and its own words
are sent: those whose lines all fit in the buffer.
-/

namespace AvrProgrammer
namespace Software

open Stdio Hex IntelHex Runs

def carriageReturn : UInt8 := 0x0D

/-- The end of a line. -/
def LineEnd (eol : List UInt8) : Prop := eol = [newline] ∨ eol = [carriageReturn, newline]

instance (eol : List UInt8) : Decidable (LineEnd eol) :=
  inferInstanceAs (Decidable (eol = [newline] ∨ eol = [carriageReturn, newline]))

/-- What the first call of `fgets` stores. -/
def firstPart (text : List UInt8) : List UInt8 := (takeLine 255 text).1

/-- What the next calls store. -/
def laterParts (text : List UInt8) : List (List UInt8) := lines 256 (takeLine 255 text).2

theorem lines_eq_parts {text : List UInt8} (h : text ≠ []) :
    lines 256 text = firstPart text :: laterParts text := by
  have hsize : 2 ≤ 256 := by decide
  exact lines_of_ne hsize h

theorem LineEnd.wholeLines {eol : List UInt8} (heol : LineEnd eol) (line : List UInt8) :
    WholeLines (line ++ eol) := by
  right
  rcases heol with rfl | rfl <;> simp

theorem LineEnd.ne_colon {eol : List UInt8} (heol : LineEnd eol) : ∀ c ∈ eol, c ≠ colon := by
  rcases heol with rfl | rfl <;> simp [newline, carriageReturn, colon]

/-! ## The parts of a line -/

section
variable {line bytes eol : List UInt8} {count hi lo type : UInt8}
  (hbytes : lineBytes line = some (count :: hi :: lo :: type :: bytes))
include hbytes

theorem newline_notMem_of_lineBytes : newline ∉ line :=
  notMem_of_lineBytes hbytes (by decide) (by decide)

theorem ne_nil_of_lineBytes : line ≠ [] := by
  rintro rfl
  cases hbytes

/-- The first part has the header of the line. -/
theorem header_firstPart (tail : List UInt8) :
    header (firstPart (line ++ tail)) =
      some ⟨count.toUInt32, 256 * hi.toUInt32 + lo.toUInt32, type.toUInt32⟩ := by
  -- 255 characters hold the colon and 127 bytes, four of them the header
  have hfirst : lineBytes (line.take 255) = some (count :: hi :: lo :: type :: bytes.take 123) :=
    lineBytes_take hbytes 127
  rw [firstPart, takeLine_append_of_notMem (newline_notMem_of_lineBytes hbytes)]
  exact header_lineBytes hfirst _

theorem lines_lineBytes (tail : List UInt8) :
    lines 256 (line ++ tail) = firstPart (line ++ tail) :: laterParts (line ++ tail) := by
  have hne := ne_nil_of_lineBytes hbytes
  exact lines_eq_parts fun hnil => hne (List.append_eq_nil_iff.mp hnil).1

/-- No later part starts with a colon. -/
theorem head_laterParts (heol : LineEnd eol) :
    ∀ s ∈ laterParts (line ++ eol), s.head? ≠ some colon := by
  -- the characters after the first part are digits and the end of the line
  have hrest : ∀ c ∈ (takeLine 255 (line ++ eol)).2, c ≠ colon := by
    intro c hc
    rw [takeLine_append_of_notMem (newline_notMem_of_lineBytes hbytes)] at hc
    rcases List.mem_append.mp hc with hc | hc
    · intro hcolon
      have htail : c ∈ line.tail := by
        rw [← List.drop_one]
        exact @List.mem_of_mem_drop _ _ 254 _ (by rwa [List.drop_drop])
      have hdigit := isSome_of_lineBytes hbytes c htail
      rw [hcolon] at hdigit
      exact absurd hdigit (by decide)
    · apply heol.ne_colon
      rw [← takeLine_append (255 - line.length) eol]
      exact List.mem_append_right _ hc
  intro s hs hhead
  apply hrest colon _ rfl
  rw [← @flatten_lines 256 (by decide) (takeLine 255 (line ++ eol)).2]
  exact List.mem_flatten.mpr ⟨s, hs, List.mem_of_head? hhead⟩

/-- A line that fits in the buffer is stored whole. -/
theorem takeLine_of_fits (heol : LineEnd eol) (hfits : line.length + eol.length ≤ 255) :
    takeLine 255 (line ++ eol) = (line ++ eol, []) := by
  have hnewline := newline_notMem_of_lineBytes hbytes
  rcases heol with rfl | rfl
  · exact takeLine_line hnewline (Nat.lt_of_succ_le hfits) []
  · have hcr : newline ∉ line ++ [carriageReturn] := by
      rw [List.mem_append, not_or]
      exact ⟨hnewline, by decide⟩
    have hlen : (line ++ [carriageReturn]).length < 255 := by
      rw [List.length_append]
      exact Nat.lt_of_succ_le hfits
    have htake := takeLine_line hcr hlen []
    rwa [List.append_assoc] at htake

/-- A line has later parts unless it fits in the buffer. -/
theorem laterParts_eq_nil_iff (heol : LineEnd eol) :
    laterParts (line ++ eol) = [] ↔ line.length + eol.length ≤ 255 := by
  constructor
  · intro hnil
    have hlen := congrArg List.length (takeLine_append 255 (line ++ eol))
    rw [List.length_append, List.length_append] at hlen
    have hle := takeLine_length 255 (line ++ eol)
    -- no later part is left, so the first one holds all characters
    have hflat := @flatten_lines 256 (by decide) (takeLine 255 (line ++ eol)).2
    rw [show lines 256 (takeLine 255 (line ++ eol)).2 = [] from hnil] at hflat
    rw [← hflat, List.flatten_nil, List.length_nil] at hlen
    omega
  · intro hfits
    rw [laterParts, takeLine_of_fits hbytes heol hfits]
    rfl

end

/-! ## Reading the later parts -/

/-- A line that does not start with a colon leaves the header. -/
theorem readLine_of_head {s : List UInt8} (h : s.head? ≠ some colon) (v : Vars) :
    v.readLine s = { v with line := store s v.line, lineNumber := v.lineNumber + 1 } := by
  cases s with
  | nil => rfl
  | cons c s =>
    have hc : c ≠ colon := fun hc => h (by rw [hc]; rfl)
    unfold Vars.readLine Vars.scanHeader
    rw [List.takeWhile_cons]
    split_ifs
    · simp only [ne_eq, hc, not_false_eq_true, if_true]
    · rfl

theorem passes_of_head {more : List (List UInt8)} (hmore : ∀ s ∈ more, s.head? ≠ some colon)
    {v : Vars} (hv : v.type ≠ 0x01) : Passes v more := by
  induction more generalizing v with
  | nil => trivial
  | cons s more ih =>
    have hs : (v.readLine s).type = v.type := by
      rw [readLine_of_head (hmore s List.mem_cons_self)]
      rfl
    have htype : (v.readLine s).type ≠ 0x01 := by rwa [hs]
    exact ⟨htype, ih (fun e he => hmore e (.tail _ he)) htype⟩

section
variable {line bytes eol : List UInt8} {count hi lo type : UInt8}

/-- The loop gets past a line of bytes unless its type field is 01. -/
theorem passes_lineBytes (hbytes : lineBytes line = some (count :: hi :: lo :: type :: bytes))
    (heol : LineEnd eol) (v : Vars) :
    Passes v (lines 256 (line ++ eol)) ↔ type ≠ 0x01 := by
  have htype : (v.readLine (firstPart (line ++ eol))).type = 0x01 ↔ type = 0x01 := by
    rw [type_of_header (header_firstPart hbytes eol)]
    exact (type_eq_iff _).2
  rw [lines_lineBytes hbytes]
  constructor
  · intro hpasses
    exact mt htype.mpr hpasses.1
  · intro hne
    exact ⟨mt htype.mp hne, passes_of_head (head_laterParts hbytes heol) (mt htype.mp hne)⟩

end

/-! ## Lines one after the other -/

/-- The packets of lines the loop gets past come first. -/
theorem writeLoop_append {v : Vars} {pre : List (List UInt8)} (h : Passes v pre)
    (rest : List (List UInt8)) :
    writeLoop v (pre ++ rest) = writeLoop v pre ++ writeLoop (run Vars.readLine v pre) rest := by
  induction pre generalizing v with
  | nil => rfl
  | cons s pre ih =>
    rw [List.cons_append, writeLoop, writeLoop, if_neg h.1, if_neg h.1, ih h.2,
      List.append_assoc, run_cons]

/-- Nothing is sent after a line that ends the loop. -/
theorem writeLoop_append_of_end {v : Vars} {pre : List (List UInt8)} (h : ¬ Passes v pre)
    (rest : List (List UInt8)) : writeLoop v (pre ++ rest) = writeLoop v pre := by
  induction pre generalizing v with
  | nil => exact absurd trivial h
  | cons s pre ih =>
    rw [List.cons_append, writeLoop, writeLoop]
    by_cases hend : (v.readLine s).type = 0x01
    · rw [if_pos hend, if_pos hend]
    · rw [if_neg hend, if_neg hend, ih fun hpre => h ⟨hend, hpre⟩]

section
variable {v : Vars} {text : List UInt8} (htext : WholeLines text) (rest : List UInt8)
include htext

/-- What whole lines send, and what follows them. -/
theorem writePackets_append (hpasses : Passes v (lines 256 text)) :
    writePackets v (text ++ rest) =
      writePackets v text ++ writePackets (run Vars.readLine v (lines 256 text)) rest := by
  rw [writePackets, lines_append (by decide) htext, writeLoop_append hpasses]
  rfl

theorem writePackets_append_of_end (hend : ¬ Passes v (lines 256 text)) :
    writePackets v (text ++ rest) = writePackets v text := by
  rw [writePackets, lines_append (by decide) htext, writeLoop_append_of_end hend]
  rfl

end

/-! ## The lines parsed -/

/-- The lines whose header is parsed: those up to the one that ends the loop. -/
def parsedLines (v : Vars) : List (List UInt8) → List (List UInt8)
  | [] => []
  | s :: rest =>
    s :: if (v.readLine s).type = 0x01 then [] else parsedLines (v.readLine s) rest

theorem parsedLines_append {v : Vars} {pre : List (List UInt8)} (h : Passes v pre)
    (rest : List (List UInt8)) :
    parsedLines v (pre ++ rest) = pre ++ parsedLines (run Vars.readLine v pre) rest := by
  induction pre generalizing v with
  | nil => rfl
  | cons s pre ih =>
    rw [List.cons_append, parsedLines, if_neg h.1, ih h.2]
    rfl

/-! ## Files of records -/

/-- The text of records of any type but 01, each on a line, and of an end record. What follows
the end record does not matter. -/
inductive RecordFile : List Record → List UInt8 → Prop
  | record {r : Record} {line eol : List UInt8} {records : List Record} {file : List UInt8}
    (hparse : parse line = some r) (htype : r.type ≠ 0x01) (heol : LineEnd eol)
    (hrest : RecordFile records file) : RecordFile (r :: records) (line ++ eol ++ file)
  | last {r : Record} {line tail : List UInt8} (hparse : parse line = some r)
    (htype : r.type = 0x01) : RecordFile [] (line ++ tail)

/-- Every record has its header parsed once, and the words of the data records are sent, each
with its own address and data. -/
structure RecordLaw (v : Vars) (records : List Record) (file : List UInt8) : Prop where
  headers : (parsedLines v (lines 256 file)).length = records.length + 1
  packets : writePackets v file = records.flatMap recordPackets

section
variable {r : Record} {line eol : List UInt8} (hparse : parse line = some r)
include hparse

theorem lines_parse (tail : List UInt8) :
    lines 256 (line ++ tail) = firstPart (line ++ tail) :: laterParts (line ++ tail) :=
  lines_lineBytes (lineBytes_record hparse) tail

/-- The loop ends at the first part of an end record. -/
theorem type_firstPart (htype : r.type = 0x01) (tail : List UInt8) (v : Vars) :
    (v.readLine (firstPart (line ++ tail))).type = 0x01 := by
  rw [type_of_header (header_firstPart (lineBytes_record hparse) tail)]
  exact (type_eq_iff _).2.mpr htype

/-- The loop gets past all parts of a record that is no end record. -/
theorem passes_record (htype : r.type ≠ 0x01) (heol : LineEnd eol) (v : Vars) :
    Passes v (lines 256 (line ++ eol)) :=
  (passes_lineBytes (lineBytes_record hparse) heol v).mpr htype

/-- A record that fits in the buffer with the end of its line has no later part. -/
theorem laterParts_record (heol : LineEnd eol) :
    laterParts (line ++ eol) = [] ↔ r.data.length ≤ 121 := by
  have hlen := parse_length hparse
  rw [laterParts_eq_nil_iff (lineBytes_record hparse) heol]
  rcases heol with rfl | rfl <;> simp only [List.length_cons, List.length_nil] <;> omega

theorem lines_record (heol : LineEnd eol) (hfits : r.data.length ≤ 121) :
    lines 256 (line ++ eol) = [line ++ eol] := by
  have hlater := (laterParts_record hparse heol).mpr hfits
  have hlen := (laterParts_eq_nil_iff (lineBytes_record hparse) heol).mp hlater
  rw [lines_parse hparse, hlater, firstPart,
    takeLine_of_fits (lineBytes_record hparse) heol hlen]

end

/-- At least one line is parsed for a record, and no more exactly if all records fit. -/
theorem length_parsedLines {records : List Record} {file : List UInt8}
    (hfile : RecordFile records file) (v : Vars) :
    records.length + 1 ≤ (parsedLines v (lines 256 file)).length ∧
      ((parsedLines v (lines 256 file)).length = records.length + 1 ↔
        ∀ r ∈ records, r.data.length ≤ 121) := by
  induction hfile generalizing v with
  | @record r line eol records file hparse htype heol hrest ih =>
    obtain ⟨hle, hiff⟩ := ih (run Vars.readLine v (lines 256 (line ++ eol)))
    have hlater := laterParts_record hparse heol
    have hlines := lines_parse hparse eol
    -- one line for the first part, one for each later part, then those of the other records
    rw [lines_append (by decide) (heol.wholeLines line),
      parsedLines_append (passes_record hparse htype heol v), List.length_append, hlines,
      List.length_cons, List.length_cons, List.forall_mem_cons, ← hiff, ← hlater,
      ← List.length_eq_zero_iff, ← hlines]
    omega
  | @last r line tail hparse htype =>
    rw [lines_parse hparse, parsedLines, if_pos (type_firstPart hparse htype tail v)]
    simp

/-- If all records fit, the words of the data records are sent. -/
theorem writePackets_recordFile {records : List Record} {file : List UInt8}
    (hfile : RecordFile records file) (hfits : ∀ r ∈ records, r.data.length ≤ 121)
    (heven : ∀ r ∈ records, r.type = 0x00 → r.data.length % 2 = 0) (v : Vars) :
    writePackets v file = records.flatMap recordPackets := by
  induction hfile generalizing v with
  | @record r line eol records file hparse htype heol hrest ih =>
    have hpasses := passes_record hparse htype heol v
    rw [List.forall_mem_cons] at hfits heven
    rw [writePackets, lines_append (by decide) (heol.wholeLines line), writeLoop_append hpasses,
      List.flatMap_cons]
    congr 1
    · -- the line is stored whole, so its header and all its words convert
      rw [lines_record hparse heol hfits.1] at hpasses ⊢
      rw [writeLoop, if_neg hpasses.1, linePackets_parse hparse heven.1, writeLoop,
        List.append_nil]
    · exact ih hfits.2 heven.2 _
  | @last r line tail hparse htype =>
    rw [writePackets, lines_parse hparse, writeLoop,
      if_pos (type_firstPart hparse htype tail v)]
    rfl

/-- The lines of a `HexFile` fit. -/
theorem recordFile_of_hexFile {records : List Record} {file : List UInt8}
    (hfile : HexFile records file) :
    RecordFile records file ∧ ∀ r ∈ records, r.data.length ≤ 121 := by
  induction hfile with
  | @record r line records file hparse htype hlen hrest ih =>
    have hend : r.type ≠ 0x01 := by
      intro hone
      rw [hone] at htype
      exact absurd htype (by decide)
    rw [parse_length hparse] at hlen
    refine ⟨?_, List.forall_mem_cons.mpr ⟨by omega, ih.2⟩⟩
    have hrecord := RecordFile.record hparse hend (.inl rfl) ih.1
    rwa [List.append_assoc] at hrecord
  | @last r line tail hparse htype hlen htail => exact ⟨.last hparse htype, by simp⟩

/-- `flash_write` sends the words of the records of a file, in order, whatever the stack
held. -/
theorem writePackets_hexFile {records : List Record} {file : List UInt8}
    (hfile : HexFile records file)
    (heven : ∀ r ∈ records, r.type = 0x00 → r.data.length % 2 = 0) (v : Vars) :
    writePackets v file = records.flatMap recordPackets := by
  obtain ⟨hrecords, hfits⟩ := recordFile_of_hexFile hfile
  exact writePackets_recordFile hrecords hfits heven v

/-! ## Main result -/

/-- For which files every record is parsed once and its own words are sent, exactly. -/
theorem recordLaw_iff {records : List Record} {file : List UInt8}
    (hfile : RecordFile records file)
    (heven : ∀ r ∈ records, r.type = 0x00 → r.address % 2 = 0 ∧ r.data.length % 2 = 0)
    (v : Vars) : RecordLaw v records file ↔ ∀ r ∈ records, r.data.length ≤ 121 := by
  constructor
  · intro hlaw
    exact (length_parsedLines hfile v).2.mp hlaw.headers
  · intro hfits
    refine ⟨(length_parsedLines hfile v).2.mpr hfits, ?_⟩
    exact writePackets_recordFile hfile hfits (fun r hr htype => (heven r hr htype).2) v

/-- A stack of zeros. -/
def zeroStack : Vars := ⟨List.replicate 256 0, 0, 0, 0, 0, fun _ _ => 0⟩

/-- The record of one word at address 0. -/
def wordRecord (b b' : UInt8) : Record := ⟨0x00, 0x00, 0x00, [b, b'], by simp⟩

/-- The line `:00000001FF`. -/
def endLine : List UInt8 :=
  [0x3A, 0x30, 0x30, 0x30, 0x30, 0x30, 0x30, 0x30, 0x31, 0x46, 0x46]

/-- The file of an end record. -/
theorem recordFile_endLine : RecordFile [] (endLine ++ []) :=
  .last (r := ⟨0x00, 0x00, 0x01, [], by decide⟩) rfl rfl

/-- `:02000000AABB99` with both kinds of line end before the end record. -/
theorem recordLaw_twoLines :
    RecordLaw zeroStack [wordRecord 0xAA 0xBB, wordRecord 0xAA 0xBB]
      ([0x3A, 0x30, 0x32, 0x30, 0x30, 0x30, 0x30, 0x30, 0x30, 0x41, 0x41, 0x42, 0x42, 0x39, 0x39]
        ++ [newline] ++
          ([0x3A, 0x30, 0x32, 0x30, 0x30, 0x30, 0x30, 0x30, 0x30, 0x41, 0x41, 0x42, 0x42, 0x39,
            0x39] ++ [carriageReturn, newline] ++ (endLine ++ []))) := by
  refine (recordLaw_iff ?_ (by decide) zeroStack).mpr (by decide)
  exact .record rfl (by decide) (.inl rfl) (.record rfl (by decide) (.inr rfl)
    recordFile_endLine)

/-- The record of 122 zeros at address 0. -/
def longRecord : Record := ⟨0x00, 0x00, 0x00, List.replicate 122 0x00, by decide⟩

/-- Its line has 255 characters: `:7A`, 250 times `0`, `86`. -/
def longLine : List UInt8 := [0x3A, 0x37, 0x41] ++ List.replicate 250 0x30 ++ [0x38, 0x36]

set_option maxRecDepth 4000 in
theorem parse_longLine : parse longLine = some longRecord := rfl

/-- Its end of line is parsed as a line of its own. -/
theorem longLine_parsed_twice :
    RecordFile [longRecord] (longLine ++ [newline] ++ (endLine ++ [])) ∧
      ¬ RecordLaw zeroStack [longRecord] (longLine ++ [newline] ++ (endLine ++ [])) := by
  refine ⟨.record parse_longLine (by decide) (.inl rfl) recordFile_endLine, fun hlaw => ?_⟩
  exact absurd hlaw.headers (by decide +kernel)

end Software
end AvrProgrammer
