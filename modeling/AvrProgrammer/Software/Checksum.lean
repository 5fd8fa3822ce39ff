import AvrProgrammer.Software.LongLines

/-!
# Altered records

`flash_write` never looks at the checksum of a record. A line with altered digits is read like
any other: its own count, address and type fields decide what is sent and whether the parse ends
(`altered_iff`).
-/

namespace AvrProgrammer
namespace Software

open Stdio Hex IntelHex Runs

/-- Digits of a line are changed into other digits, and the sum of the bytes is not 0. -/
structure Altered (line altered : List UInt8) : Prop where
  digits : List.Forall₂ (fun c c' => c' = c ∨ (hexDigit c).isSome ∧ (hexDigit c').isSome)
    line altered
  sum : ∀ bytes, lineBytes altered = some bytes → byteSum bytes ≠ 0

/-- Digits stay digits. -/
theorem isSome_of_changed {text text' : List UInt8}
    (h : List.Forall₂ (fun c c' => c' = c ∨ (hexDigit c).isSome ∧ (hexDigit c').isSome)
      text text') (hdigit : ∀ c ∈ text, (hexDigit c).isSome) :
    ∀ c ∈ text', (hexDigit c).isSome := by
  induction h with
  | nil => simp
  | cons hc _ ih =>
    rw [List.forall_mem_cons] at hdigit ⊢
    refine ⟨?_, ih hdigit.2⟩
    rcases hc with rfl | hc
    · exact hdigit.1
    · exact hc.2

/-- An altered record still has the fields of a record. -/
theorem Altered.exists_lineBytes {line altered : List UInt8} {r : Record}
    (h : Altered line altered) (hparse : parse line = some r) :
    ∃ count hi lo type bytes,
      lineBytes altered = some (count :: hi :: lo :: type :: bytes) := by
  obtain ⟨text, rfl, hdecode⟩ := lineBytes_eq_some (lineBytes_record hparse)
  obtain ⟨c, text', hc, htext, rfl⟩ := List.forall₂_cons_left_iff.mp h.digits
  -- the colon is no digit, so it stays
  have hcolon : c = colon := by
    rcases hc with hc | hc
    · exact hc
    · exact absurd hc.1 (by decide)
  have hlen := decodeHex_length hdecode
  rw [htext.length_eq] at hlen
  obtain ⟨bytes, hbytes⟩ :=
    exists_decodeHex hlen (isSome_of_changed htext (isSome_of_decodeHex hdecode))
  have hfour : 4 ≤ bytes.length := by
    rw [decodeHex_length hbytes] at hlen
    simp only [List.length_cons] at hlen
    omega
  match bytes, hfour with
  | count :: hi :: lo :: type :: bytes, _ =>
    exact ⟨count, hi, lo, type, bytes, by rw [lineBytes, if_pos hcolon, hbytes]⟩

/-! ## What a line of bytes sends -/

/-- Later parts send nothing if their first part did not. -/
theorem writeLoop_of_head {more : List (List UInt8)}
    (hmore : ∀ s ∈ more, s.head? ≠ some colon) {v : Vars}
    (hv : v.type = 0x00 → v.wordCount = 0) : writeLoop v more = [] := by
  induction more generalizing v with
  | nil => rfl
  | cons s more ih =>
    rw [List.forall_mem_cons] at hmore
    have hs := readLine_of_head hmore.1 v
    have hv' : (v.readLine s).type = 0x00 → (v.readLine s).wordCount = 0 := by
      rw [hs]
      exact hv
    have hnone : linePackets (v.readLine s) = [] := by
      by_cases htype : (v.readLine s).type = 0x00
      · rw [linePackets, if_pos htype, hv' htype]
        rfl
      · rw [linePackets, if_neg htype]
    rw [writeLoop, hnone, ih hmore.2 hv']
    split_ifs <;> rfl

section
variable {line bytes eol : List UInt8} {count hi lo type : UInt8}
  (hbytes : lineBytes line = some (count :: hi :: lo :: type :: bytes)) (heol : LineEnd eol)
include hbytes heol

/-- A line of bytes sends something exactly if its type field is 00 and its count field is not
0. -/
theorem writePackets_lineBytes (v : Vars) :
    writePackets v (line ++ eol) ≠ [] ↔ type = 0x00 ∧ count ≠ 0x00 := by
  have hheader := header_firstPart hbytes eol
  have htype : (v.readLine (firstPart (line ++ eol))).type = 0x00 ↔ type = 0x00 := by
    rw [type_of_header hheader]
    exact (type_eq_iff _).1
  have hcount : (v.readLine (firstPart (line ++ eol))).wordCount = 0 ↔ count = 0x00 := by
    rw [readLine_of_header hheader, ← UInt8.toNat_inj]
    show (count.toUInt32.toNat + 1) / 2 = 0 ↔ count.toNat = 0
    rw [UInt8.toNat_toUInt32]
    omega
  rw [writePackets, lines_lineBytes hbytes, writeLoop]
  constructor
  · intro hne
    by_contra hnone
    have hnone' : (v.readLine (firstPart (line ++ eol))).type = 0x00 →
        (v.readLine (firstPart (line ++ eol))).wordCount = 0 := by
      rw [htype, hcount]
      tauto
    -- the first part sends nothing, and the later ones use its header
    apply hne
    split_ifs
    · rfl
    · rw [writeLoop_of_head (head_laterParts hbytes heol) hnone', List.append_nil, linePackets]
      split_ifs with hzero
      · rw [hnone' hzero]
        rfl
      · rfl
  · rintro ⟨hzero, hne⟩
    have hend : (v.readLine (firstPart (line ++ eol))).type ≠ 0x01 := by
      rw [htype.mpr hzero]
      decide
    rw [if_neg hend, linePackets, if_pos (htype.mpr hzero)]
    intro hnil
    have hrange := (List.append_eq_nil_iff.mp hnil).1
    rw [List.map_eq_nil_iff, List.range_eq_nil, hcount] at hrange
    exact hne hrange

end

/-! ## Main result -/

/-- The write packets sent for `text` after the lines of `before`. -/
def sentAfter (v : Vars) (before text : List UInt8) : List Packet :=
  writePackets (run Vars.readLine v (lines 256 before)) text

/-- A line of `text` is taken for the end record, after the lines of `before`. -/
def EndsParse (v : Vars) (before text : List UInt8) : Prop :=
  ¬ Passes (run Vars.readLine v (lines 256 before)) (lines 256 text)

/-- What an altered record does, whatever its checksum and whatever comes before and after it:
its type and count fields decide. -/
theorem altered_iff {line altered eol before : List UInt8} {r : Record}
    (hparse : parse line = some r) (haltered : Altered line altered) (heol : LineEnd eol)
    (hbefore : WholeLines before) {v : Vars} (hpasses : Passes v (lines 256 before))
    (after : List UInt8) :
    ∃ count hi lo type bytes,
      lineBytes altered = some (count :: hi :: lo :: type :: bytes) ∧
      (sentAfter v before (altered ++ eol) ≠ [] ↔ type = 0x00 ∧ count ≠ 0x00) ∧
      (EndsParse v before (altered ++ eol) ↔ type = 0x01) ∧
      writePackets v (before ++ (altered ++ eol ++ after)) =
        writePackets v before ++ (sentAfter v before (altered ++ eol) ++
          if type = 0x01 then [] else sentAfter v (before ++ (altered ++ eol)) after) := by
  obtain ⟨count, hi, lo, type, bytes, hbytes⟩ := haltered.exists_lineBytes hparse
  have hwhole := heol.wholeLines altered
  have hline := passes_lineBytes hbytes heol (run Vars.readLine v (lines 256 before))
  refine ⟨count, hi, lo, type, bytes, hbytes, writePackets_lineBytes hbytes heol _, ?_, ?_⟩
  · rw [EndsParse, hline, not_not]
  · rw [writePackets_append hbefore _ hpasses]
    congr 1
    split_ifs with htype
    · rw [List.append_nil, sentAfter]
      exact writePackets_append_of_end hwhole _ fun h => hline.mp h htype
    · rw [writePackets_append hwhole _ (hline.mpr htype), sentAfter, sentAfter,
        lines_append (by decide) hbefore, run_append]

/-- `:02000000AABB99` and the same line with checksum 98. -/
def dataLine : List UInt8 :=
  [0x3A, 0x30, 0x32, 0x30, 0x30, 0x30, 0x30, 0x30, 0x30, 0x41, 0x41, 0x42, 0x42, 0x39, 0x39]

def badLine : List UInt8 :=
  [0x3A, 0x30, 0x32, 0x30, 0x30, 0x30, 0x30, 0x30, 0x30, 0x41, 0x41, 0x42, 0x42, 0x39, 0x38]

/-- `:00000001FE`, an end record with a wrong checksum. -/
def badEnd : List UInt8 :=
  [0x3A, 0x30, 0x30, 0x30, 0x30, 0x30, 0x30, 0x30, 0x31, 0x46, 0x45]

theorem altered_badLine : Altered dataLine badLine := by
  refine ⟨by decide, fun bytes hbytes => ?_⟩
  cases hbytes
  decide

theorem altered_badEnd : Altered endLine badEnd := by
  refine ⟨by decide, fun bytes hbytes => ?_⟩
  cases hbytes
  decide

/-- The word of the line with the wrong checksum is sent, after a good one. -/
theorem altered_iff_badLine :
    sentAfter zeroStack (dataLine ++ [newline]) (badLine ++ [newline]) ≠ [] := by
  obtain ⟨count, hi, lo, type, bytes, hbytes, hsent, -, -⟩ :=
    @altered_iff dataLine badLine [newline] (dataLine ++ [newline])
      (wordRecord 0xAA 0xBB) rfl altered_badLine (.inl rfl)
      (.inr rfl) zeroStack ⟨by decide +kernel, trivial⟩ []
  cases hbytes
  exact hsent.mpr ⟨rfl, by decide⟩

/-- A record with a wrong checksum is written, and an end record with a wrong checksum ends the
parse. -/
theorem wrong_checksum_accepted :
    Altered dataLine badLine ∧ Altered endLine badEnd ∧
      writePackets zeroStack (badLine ++ [newline]) = [[0x03, 0x00, 0x00, 0xAA, 0xBB]] ∧
      EndsParse zeroStack [] (badEnd ++ [newline]) := by
  refine ⟨altered_badLine, altered_badEnd, by decide +kernel, fun hpasses => ?_⟩
  exact absurd hpasses.1 (by decide +kernel)

end Software
end AvrProgrammer
