import AvrProgrammer.System.RoundTrip
import AvrProgrammer.Library.HexText

/-!
# Every content of the flash

For every content of a flash of at most 64 KiB there is a `.hex` file that programs it: a record
for every word and an end record. `content_round_trip` goes once around: the content is encoded,
the file is written by one process and the flash printed by another, and what is printed is the
content.
-/

namespace AvrProgrammer
namespace System

open PagedFlash Runs IntelHex Firmware Software Stdio
open Software.Prog (Input)

variable {chip : Chip}

/-! ## Files of records -/

/-- The end record, `:00000001FF`. -/
def endRecord : Record := ⟨0x00, 0x00, 0x01, [], Nat.zero_le _⟩

/-- The text of a list of records. -/
def fileText : List Record → List UInt8
  | [] => endRecord.text
  | r :: records => r.text ++ newline :: fileText records

/-- Short records make a `.hex` file. -/
theorem hexFile_fileText {records : List Record}
    (h : ∀ r ∈ records, r.type = 0x00 ∧ r.data.length ≤ 121) :
    HexFile records (fileText records) := by
  induction records with
  | nil =>
    have hlast : HexFile [] (endRecord.text ++ []) :=
      .last (parse_text endRecord) rfl (by rw [text_length]; decide) (.inl rfl)
    rwa [List.append_nil] at hlast
  | cons r records ih =>
    obtain ⟨htype, hlen⟩ := h r List.mem_cons_self
    refine .record (parse_text r) (.inl htype) ?_ (ih fun r' hr' => h r' (.tail _ hr'))
    rw [text_length]
    omega

/-! ## The file of a content -/

/-- The record of a word. -/
def wordRecord (a : ℕ) (w : Word) : Record where
  addressHi := UInt8.ofNat (2 * a / 256)
  addressLo := UInt8.ofNat (2 * a)
  type := 0x00
  data := [w.lo, w.hi]
  data_length := show 2 ≤ 255 by omega

theorem wordRecord_address {a : ℕ} (ha : a < 2 ^ 15) (w : Word) :
    (wordRecord a w).address = 2 * a := by
  unfold Record.address wordRecord
  dsimp only
  rw [UInt8.toNat_ofNat', UInt8.toNat_ofNat']
  omega

/-- The records of the words from 0 on. -/
def contentRecords (words : ℕ) (content : Memory Word) : List Record :=
  (List.range words).map fun a => wordRecord a (content a)

theorem mem_contentRecords {words : ℕ} {content : Memory Word} {r : Record} :
    r ∈ contentRecords words content ↔ ∃ a < words, r = wordRecord a (content a) := by
  simp only [contentRecords, List.mem_map, List.mem_range, eq_comm]

section
variable (hsmall : chip.flashWords ≤ 2 ^ 15) (content : Memory Word)

include hsmall in
theorem contentRecords_even : ∀ r ∈ contentRecords chip.flashWords content, HasData r →
    r.address % 2 = 0 ∧ r.data.length % 2 = 0 := by
  intro r hr _
  obtain ⟨a, ha, rfl⟩ := mem_contentRecords.mp hr
  rw [wordRecord_address (by omega)]
  exact ⟨Nat.mul_mod_right 2 a, by simp [wordRecord]⟩

include hsmall in
theorem contentRecords_inside : ∀ r ∈ contentRecords chip.flashWords content, HasData r →
    r.address + r.data.length ≤ 2 * chip.flashWords := by
  intro r hr _
  obtain ⟨a, ha, rfl⟩ := mem_contentRecords.mp hr
  rw [wordRecord_address (by omega)]
  show 2 * a + 2 ≤ 2 * chip.flashWords
  omega

include hsmall in
theorem contentRecords_disjoint : (contentRecords chip.flashWords content).Pairwise
    fun r r' => HasData r → HasData r' →
      r.address + r.data.length ≤ r'.address ∨ r'.address + r'.data.length ≤ r.address := by
  refine List.pairwise_map.mpr (List.pairwise_lt_range.imp_of_mem ?_)
  intro a b ha hb hab _ _
  rw [List.mem_range] at ha hb
  rw [wordRecord_address (by omega), wordRecord_address (by omega)]
  left
  show 2 * a + 2 ≤ 2 * b
  omega

end

/-- The image of a content. -/
def contentImage (hsmall : chip.flashWords ≤ 2 ^ 15) (content : Memory Word) : Image chip where
  records := contentRecords chip.flashWords content
  even := contentRecords_even hsmall content
  inside := contentRecords_inside hsmall content
  disjoint := contentRecords_disjoint hsmall content

/-- Programming the image leaves the content. -/
theorem programAll_contentImage (hsmall : chip.flashWords ≤ 2 ^ 15) (content : Memory Word)
    {a : ℕ} (ha : a < chip.flashWords) :
    programAll erase (contentImage hsmall content).words a = content a := by
  have hword : (a, content a) ∈ (contentImage hsmall content).words := by
    refine List.mem_flatMap.mpr ⟨_, mem_contentRecords.mpr ⟨a, ha, rfl⟩, ?_⟩
    refine mem_recordWords.mpr ⟨rfl, 0, by simp [wordRecord], ?_⟩
    rw [wordRecord_address (by omega), Nat.mul_div_cancel_left a (by omega)]
    rfl
  rw [programAll_of_mem (contentImage hsmall content).words_nodup hword, erase_apply,
    FlashWord.erased_and]

/-- What is printed depends on the words of the flash only. -/
theorem blocks_congr (hpos : 0 < chip.flashWords) {flash flash' : Memory Word}
    (h : ∀ a < chip.flashWords, flash a = flash' a) (size : UInt32) :
    blocks chip flash size = blocks chip flash' size := by
  apply List.map_congr_left
  intro i _
  have hword : ∀ a : UInt16, flash (chip.index a) = flash' (chip.index a) :=
    fun a => h _ (Nat.mod_lt _ hpos)
  simp only [blockMessage, hword]

/-! ## Main result -/

/-- **Every content.** For every content of a known target there is a file such that, whatever the
flash held before: a run of `prog -write` with this file that returns leaves the content in the
flash, and a run of `prog -read` after it that returns prints it. -/
theorem content_round_trip (hpos : 0 < chip.flashWords) (hsmall : chip.flashWords ≤ 2 ^ 15)
    {cible : CibleAVR} (hcible : rechercheCible (chipSignature chip) = some cible)
    (content : Memory Word) :
    ∃ file, ∀ d : Device chip, Quiet d → ∀ write read : Input, write.file = some file →
      read.Reads → ∀ as as', (∀ a ∈ as, FaultFree a) → (∀ a ∈ as', FaultFree a) →
        let t := run (step (prog write)) ⟨Program.start claimed, d⟩ as
        let t' := run (step (prog read)) ⟨Program.start claimed, t.device⟩ as'
        (prog write).call t.host.state = none → (prog read).call t'.host.state = none →
          (∀ a < chip.flashWords, meaning t.device a = content a) ∧
            t'.host.out = greeting chip ++ blocks chip content cible.tailleFlash := by
  have hhex : HexFile (contentImage hsmall content).records
      (fileText (contentRecords chip.flashWords content)) := by
    apply hexFile_fileText
    intro r hr
    obtain ⟨a, ha, rfl⟩ := mem_contentRecords.mp hr
    exact ⟨rfl, show 2 ≤ 121 by omega⟩
  refine ⟨fileText (contentRecords chip.flashWords content), ?_⟩
  intro d hd write read hfile hreads as as' has has' t t' hwritten hread
  obtain ⟨k, hwrite⟩ := @mainWrite_script chip _ _ hfile (meaning d)
  obtain ⟨-, -, hquiet, hflash⟩ := (script_correct hd hwrite rfl).returned as has hwritten
  rw [foldl_flashWritePackets _ hhex] at hflash
  have hcontent : ∀ a < chip.flashWords, meaning t.device a = content a := by
    intro a ha
    rw [hflash]
    exact programAll_contentImage hsmall content ha
  have hprint := mainRead_script hreads hcible (meaning t.device)
  obtain ⟨-, hout, -⟩ := (script_correct hquiet hprint rfl).returned as' has' hread
  exact ⟨hcontent, by rw [hout, blocks_congr hpos hcontent]⟩

/-- An ATmega328P full of 0x55AA, and both processes under a fair schedule. -/
theorem content_round_trip_atmega328p :
    ∃ file as as', (run (step (prog readInput)) ⟨Program.start claimed,
        (run (step (prog (writeInput file))) ⟨Program.start claimed, zeroed⟩ as).device⟩
        as').host.out
      = greeting atmega328p ++ blocks atmega328p (fun _ => ⟨0xAA, 0x55⟩) cible328p.tailleFlash := by
  obtain ⟨file, hfile⟩ := @content_round_trip atmega328p (by decide) (by decide)
    _ known_atmega328p fun _ => ⟨0xAA, 0x55⟩
  have hinput : (writeInput file).file = some file := rfl
  have hreads : readInput.Reads := rfl
  obtain ⟨k, hwrite⟩ := @mainWrite_script atmega328p _ _ hinput (meaning zeroed)
  have hwritten := script_correct quiet_zeroed hwrite rfl
  obtain ⟨as, has, hreturned⟩ := hwritten.exists_run
  obtain ⟨-, -, hquiet, -⟩ := hwritten.returned as has hreturned
  have hread := mainRead_script hreads known_atmega328p
    (meaning (run (step (prog (writeInput file))) ⟨Program.start claimed, zeroed⟩ as).device)
  obtain ⟨as', has', hreturned'⟩ := (script_correct hquiet hread rfl).exists_run
  obtain ⟨-, hout⟩ := hfile zeroed quiet_zeroed (writeInput file) readInput hinput hreads as as'
    has has' hreturned hreturned'
  exact ⟨file, as, as', hout⟩

end System
end AvrProgrammer
