import AvrProgrammer.Software.LongLines

/-!
# Extended addresses

A record of type 02 or 04 gives the base address of the data records after it. `flash_write`
knows the types 00 and 01 only: it reports every other record with "Erreur de type" and goes on,
and a write command has a 16-bit word address. So the data of a record go to the record's own
address, whatever the base (`extended_ignored`).
-/

namespace AvrProgrammer
namespace Software

open Stdio IntelHex Runs

/-! ## The addresses a file assigns -/

/-- The base address after a record. -/
def nextBase (base : ℕ) (r : Record) : ℕ :=
  let value := 256 * (r.data.getD 0 0).toNat + (r.data.getD 1 0).toNat
  if r.type = 0x02 then 16 * value
  else if r.type = 0x04 then 65536 * value
  else base

/-- The words of a record as low and high byte, with their byte addresses. -/
def recordBytes (base : ℕ) (r : Record) : List (ℕ × UInt8 × UInt8) :=
  if r.type = 0x00 then
    (List.range (r.data.length / 2)).map fun k =>
      (base + r.address + 2 * k, r.data.getD (2 * k) 0, r.data.getD (2 * k + 1) 0)
  else []

/-- The words of a file, each at the address the file assigns to it. -/
def fileBytes : ℕ → List Record → List (ℕ × UInt8 × UInt8)
  | _, [] => []
  | base, r :: records => recordBytes base r ++ fileBytes (nextBase base r) records

/-- The byte address of the word that a write command programs, and its two bytes. -/
def commandTarget (p : Packet) : ℕ × UInt8 × UInt8 :=
  (2 * (carriedAddress p).toNat, p.getD 3 0, p.getD 4 0)

/-- The lines that `flash_write` reports with "Erreur de type". -/
def typeErrors (v : Vars) : List (List UInt8) → List (List UInt8)
  | [] => []
  | s :: rest =>
    if (v.readLine s).type = 0x01 then []
    else if (v.readLine s).type = 0x00 then typeErrors (v.readLine s) rest
    else s :: typeErrors (v.readLine s) rest

/-- Every data record that is not empty comes while the base address is 0. -/
def ZeroBase (records : List Record) : Prop :=
  ∀ pre r post, records = pre ++ r :: post → r.type = 0x00 → r.data ≠ [] →
    run nextBase 0 pre = 0

/-! ## The addresses of the commands -/

/-- The commands of a record go to its own address. -/
theorem map_recordPackets {r : Record} (heven : r.type = 0x00 → r.address % 2 = 0) :
    (recordPackets r).map commandTarget = recordBytes 0 r := by
  by_cases htype : r.type = 0x00
  · have haddr := r.address_lt
    have hlen := r.data_length
    have haddress := heven htype
    rw [recordPackets, recordBytes, if_pos htype, if_pos htype, List.map_map]
    apply List.map_congr_left
    intro k hk
    rw [List.mem_range] at hk
    have hcarried : ∀ b b', carriedAddress
        [0x03, highByte (UInt16.ofNat (r.address / 2 + k)),
          lowByte (UInt16.ofNat (r.address / 2 + k)), b, b'] = UInt16.ofNat (r.address / 2 + k) :=
      fun b b' => address_bytes _
    have hword : 2 * (UInt16.ofNat (r.address / 2 + k)).toNat = 0 + r.address + 2 * k := by
      rw [UInt16.toNat_ofNat']
      omega
    simp only [Function.comp_apply, commandTarget, hcarried, hword]
    rfl
  · rw [recordPackets, recordBytes, if_neg htype, if_neg htype, List.map_nil]

/-- The base address matters for a data record that is not empty. -/
theorem recordBytes_eq_iff {r : Record} (heven : r.type = 0x00 → r.data.length % 2 = 0)
    (base : ℕ) :
    recordBytes base r = recordBytes 0 r ↔ (r.type = 0x00 → r.data ≠ [] → base = 0) := by
  by_cases htype : r.type = 0x00
  · rw [recordBytes, recordBytes, if_pos htype, if_pos htype]
    constructor
    · intro heq _ hne
      have hpos := List.length_pos_iff.mpr hne
      have hparity := heven htype
      have hfirst := List.map_inj_left.mp heq 0 (List.mem_range.mpr (by omega))
      have haddr := congrArg Prod.fst hfirst
      simp only at haddr
      omega
    · intro hbase
      apply List.map_congr_left
      intro k hk
      rw [List.mem_range] at hk
      have hne : r.data ≠ [] := List.length_pos_iff.mp (by omega)
      rw [hbase htype hne]
  · simp [recordBytes, htype]

/-- The file assigns to every word the address of its record exactly if the base is 0 for all
of them. -/
theorem fileBytes_eq_iff {records : List Record}
    (heven : ∀ r ∈ records, r.type = 0x00 → r.data.length % 2 = 0) (base : ℕ) :
    fileBytes base records = records.flatMap (recordBytes 0) ↔
      Along nextBase (fun base r => r.type = 0x00 → r.data ≠ [] → base = 0) base records := by
  induction records generalizing base with
  | nil => simp [fileBytes]
  | cons r records ih =>
    rw [List.forall_mem_cons] at heven
    -- the base moves the words of a record but does not change their number
    have hlen : (recordBytes base r).length = (recordBytes 0 r).length := by
      unfold recordBytes
      split_ifs <;> simp
    rw [fileBytes, List.flatMap_cons, along_cons, ← recordBytes_eq_iff heven.1, ← ih heven.2]
    constructor
    · intro heq
      exact List.append_inj heq hlen
    · rintro ⟨hfirst, hrest⟩
      rw [hfirst, hrest]

/-! ## What is reported -/

/-- Every record of another type is reported once. -/
theorem length_typeErrors {records : List Record} {file : List UInt8}
    (hfile : RecordFile records file) (hfits : ∀ r ∈ records, r.data.length ≤ 121) (v : Vars) :
    (typeErrors v (lines 256 file)).length = records.countP (fun r => r.type ≠ 0x00) := by
  induction hfile generalizing v with
  | @record r line eol records file hparse htype heol hrest ih =>
    rw [List.forall_mem_cons] at hfits
    have hlines := lines_record hparse heol hfits.1
    have hpasses := passes_record hparse htype heol v
    have hrest := ih hfits.2 (v.readLine (line ++ eol))
    rw [hlines] at hpasses
    have hdata : (v.readLine (line ++ eol)).type = 0x00 ↔ r.type = 0x00 := by
      rw [type_of_header (header_parse hparse eol)]
      exact (type_eq_iff _).1
    rw [lines_append (by decide) (heol.wholeLines line), hlines, List.singleton_append, typeErrors,
      if_neg hpasses.1]
    by_cases hzero : r.type = 0x00
    · rw [if_pos (hdata.mpr hzero), hrest, List.countP_cons_of_neg (by simpa using hzero)]
    · rw [if_neg (mt hdata.mp hzero), List.length_cons, hrest,
        List.countP_cons_of_pos (by simpa using hzero)]
  | @last r line tail hparse htype =>
    rw [lines_parse hparse, typeErrors, if_pos (type_firstPart hparse htype tail v)]
    rfl

/-! ## Main result -/

/-- Records of other types are reported and have no effect: every word goes to the address of
its record. That is the address the file assigns exactly if the base address is 0 for all data. -/
theorem extended_ignored {records : List Record} {file : List UInt8}
    (hfile : RecordFile records file) (hfits : ∀ r ∈ records, r.data.length ≤ 121)
    (heven : ∀ r ∈ records, r.type = 0x00 → r.address % 2 = 0 ∧ r.data.length % 2 = 0)
    (v : Vars) :
    (writePackets v file).map commandTarget = records.flatMap (recordBytes 0) ∧
      (typeErrors v (lines 256 file)).length = records.countP (fun r => r.type ≠ 0x00) ∧
      ((writePackets v file).map commandTarget = fileBytes 0 records ↔ ZeroBase records) := by
  have hlength : ∀ r ∈ records, r.type = 0x00 → r.data.length % 2 = 0 :=
    fun r hr htype => (heven r hr htype).2
  have htargets : (writePackets v file).map commandTarget = records.flatMap (recordBytes 0) := by
    rw [writePackets_recordFile hfile hfits hlength, List.map_flatMap]
    apply List.flatMap_congr
    intro r hr
    exact map_recordPackets fun htype => (heven r hr htype).1
  refine ⟨htargets, length_typeErrors hfile hfits v, ?_⟩
  rw [htargets, eq_comm, fileBytes_eq_iff hlength, along_iff]
  rfl

/-- The records of `:02000000AABB99`, `:020000040001F9`, `:02000000CCDD55`: a word at address 0
and one at address 65536. -/
def highRecords : List Record :=
  [wordRecord 0xAA 0xBB, ⟨0x00, 0x00, 0x04, [0x00, 0x01], by decide⟩, wordRecord 0xCC 0xDD]

def highFile : List UInt8 :=
  [0x3A, 0x30, 0x32, 0x30, 0x30, 0x30, 0x30, 0x30, 0x30, 0x41, 0x41, 0x42, 0x42, 0x39, 0x39]
    ++ [newline] ++
    ([0x3A, 0x30, 0x32, 0x30, 0x30, 0x30, 0x30, 0x30, 0x34, 0x30, 0x30, 0x30, 0x31, 0x46, 0x39]
      ++ [newline] ++
      ([0x3A, 0x30, 0x32, 0x30, 0x30, 0x30, 0x30, 0x30, 0x30, 0x43, 0x43, 0x44, 0x44, 0x35, 0x35]
        ++ [newline] ++ (endLine ++ [])))

theorem recordFile_highFile : RecordFile highRecords highFile :=
  .record rfl (by decide) (.inl rfl) (.record rfl (by decide) (.inl rfl)
    (.record rfl (by decide) (.inl rfl) recordFile_endLine))

/-- Both words go to word 0, and the record of type 04 is reported. -/
theorem extended_ignored_highFile :
    (writePackets zeroStack highFile).map commandTarget = [(0, 0xAA, 0xBB), (0, 0xCC, 0xDD)] ∧
      (typeErrors zeroStack (lines 256 highFile)).length = 1 := by
  have hall := extended_ignored recordFile_highFile (by decide) (by decide) zeroStack
  exact ⟨hall.1, hall.2.1⟩

/-- A command goes to an address the file does not assign to its word, and two words of
different addresses go to the same location. -/
theorem high_word_sent_to_low_flash :
    RecordFile highRecords highFile ∧
      fileBytes 0 highRecords = [(0, 0xAA, 0xBB), (65536, 0xCC, 0xDD)] ∧
      ¬ (∀ p ∈ writePackets zeroStack highFile, commandTarget p ∈ fileBytes 0 highRecords) ∧
      (writePackets zeroStack highFile).map carriedAddress = [0, 0] :=
  ⟨recordFile_highFile, by decide, by decide +kernel, by decide +kernel⟩

end Software
end AvrProgrammer
