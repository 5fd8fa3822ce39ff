import AvrProgrammer.System.Content

/-!
# Records that overlap

Nothing in `flash_write` keeps two records of a file apart. Since the words are programmed one
after the other into erased flash, a bit of a byte ends up set if every record that has this byte
sets it: `overlapping_records`. So neither the order of the records nor a record given twice
makes a difference.
-/

namespace AvrProgrammer
namespace System

open PagedFlash Runs IntelHex Firmware Software
open Software.Prog (Input)

variable {chip : Chip}

/-- Bit `i` of a byte is set. -/
def HasBit (i : ℕ) (b : UInt8) : Prop := b.toNat.testBit i = true

instance (i : ℕ) (b : UInt8) : Decidable (HasBit i b) := inferInstanceAs (Decidable (_ = _))

theorem hasBit_and (i : ℕ) (b c : UInt8) : HasBit i (b &&& c) ↔ HasBit i b ∧ HasBit i c := by
  rw [HasBit, UInt8.toNat_and, Nat.testBit_and, Bool.and_eq_true]
  rfl

theorem hasBit_ones {i : ℕ} (hi : i < 8) : HasBit i 0xFF := by
  have hall : ∀ i < 8, HasBit i 0xFF := by decide
  exact hall i hi

/-- Records of whole words at even addresses, inside the flash; they may overlap, and of an empty
record nothing is asked. -/
structure Placed (chip : Chip) (records : List Record) : Prop where
  even : ∀ r ∈ records, HasData r → r.address % 2 = 0 ∧ r.data.length % 2 = 0
  inside : ∀ r ∈ records, HasData r → r.address + r.data.length ≤ 2 * chip.flashWords

variable {records : List Record}

/-- The words of the records lie in the flash. -/
theorem Placed.words_lt (h : Placed chip records) {x : ℕ × Word}
    (hx : x ∈ records.flatMap recordWords) : x.1 < chip.flashWords ∧ x.1 < 2 ^ 16 := by
  obtain ⟨r, hr, hx⟩ := List.mem_flatMap.mp hx
  obtain ⟨htype, k, hk, rfl⟩ := mem_recordWords.mp hx
  have hdata : HasData r := ⟨htype, by omega⟩
  have heven := h.even r hr hdata
  have hinside := h.inside r hr hdata
  have haddr := r.address_lt
  have hlen := r.data_length
  constructor <;> dsimp only <;> omega

/-- What the packets of the file mean. -/
theorem Placed.foldl_packets (h : Placed chip records) {file : List UInt8}
    (hhex : HexFile records file) (v : Vars) (flash : Memory Word) :
    (flashWritePackets v file).foldl (effect chip) flash
      = programAll erase (records.flatMap recordWords) := by
  have hpackets : writePackets v file = (records.flatMap recordWords).map wordPacket := by
    rw [writePackets_hexFile hhex (fun r hr => even_length (h.even r hr)), List.map_flatMap,
      funext recordPackets_eq]
  rw [flashWritePackets, hpackets, List.foldl_cons, foldl_wordPackets fun x hx => h.words_lt hx]
  rfl

/-- The bytes of the words of a record are its data. -/
theorem hasBit_words (h : Placed chip records) (b i : ℕ) :
    (∀ x ∈ records.flatMap recordWords, x.1 = b / 2 →
        HasBit i (if b % 2 = 0 then x.2.lo else x.2.hi)) ↔
      ∀ r ∈ records, r.type = 0x00 → ∀ k (hk : k < r.data.length), b = r.address + k →
        HasBit i r.data[k] := by
  constructor
  · intro hwords r hr htype k hk hb
    obtain ⟨haddr, hlen⟩ := h.even r hr ⟨htype, Nat.zero_lt_of_lt hk⟩
    have hword := hwords _ (List.mem_flatMap.mpr
      ⟨r, hr, mem_recordWords.mpr ⟨htype, k / 2, by omega, rfl⟩⟩) (by dsimp only; omega)
    dsimp only at hword
    rw [← List.getD_eq_getElem r.data 0 hk]
    split_ifs at hword
    · rwa [show 2 * (k / 2) = k by omega] at hword
    · rwa [show 2 * (k / 2) + 1 = k by omega] at hword
  · intro hdata x hx hxb
    obtain ⟨r, hr, hxr⟩ := List.mem_flatMap.mp hx
    obtain ⟨htype, j, hj, rfl⟩ := mem_recordWords.mp hxr
    obtain ⟨haddr, hlen⟩ := h.even r hr ⟨htype, by omega⟩
    dsimp only at hxb ⊢
    have hbyte := hdata r hr htype (b - r.address) (by omega) (by omega)
    rw [← List.getD_eq_getElem r.data 0] at hbyte
    split_ifs
    · rwa [show 2 * j = b - r.address by omega]
    · rwa [show 2 * j + 1 = b - r.address by omega]

/-- The bits of a byte after the records have been programmed. -/
theorem Placed.hasBit (h : Placed chip records) (b : ℕ) {i : ℕ} (hi : i < 8) :
    HasBit i (flashByte (programAll erase (records.flatMap recordWords)) b) ↔
      ∀ r ∈ records, r.type = 0x00 → ∀ k (hk : k < r.data.length), b = r.address + k →
        HasBit i r.data[k] := by
  have hbit : ∀ v w : Word, HasBit i (if b % 2 = 0 then (v &&& w).lo else (v &&& w).hi) ↔
      HasBit i (if b % 2 = 0 then v.lo else v.hi) ∧ HasBit i (if b % 2 = 0 then w.lo else w.hi) := by
    intro v w
    split_ifs
    · exact hasBit_and i v.lo w.lo
    · exact hasBit_and i v.hi w.hi
  have herased : HasBit i (if b % 2 = 0 then (erase (b / 2) : Word).lo
      else (erase (b / 2) : Word).hi) := by
    split_ifs <;> exact hasBit_ones hi
  rw [← hasBit_words h, flashByte]
  have hall := bit_programAll (Q := fun w : Word => HasBit i (if b % 2 = 0 then w.lo else w.hi))
    hbit erase (records.flatMap recordWords) (b / 2)
  exact hall.trans (and_iff_right herased)

/-! ## Main result -/

/-- **Overlapping records.** A run of `prog -write` that returns, for a file of whole words inside
the flash that may overlap in any way: a bit of the flash is set exactly if every record that has
its byte sets it. -/
theorem overlapping_records {d : Device chip} (hd : Quiet d) (hplaced : Placed chip records)
    {input : Input} {file : List UInt8} (hfile : input.file = some file)
    (hhex : HexFile records file) {as : List Action} (has : ∀ a ∈ as, FaultFree a) :
    let t := run (step (prog input)) ⟨Program.start claimed, d⟩ as
    (prog input).call t.host.state = none → ∀ b, ∀ i < 8,
      (HasBit i (flashByte (meaning t.device) b) ↔
        ∀ r ∈ records, r.type = 0x00 → ∀ k (hk : k < r.data.length), b = r.address + k →
          HasBit i r.data[k]) := by
  intro t hreturned b i hi
  obtain ⟨k, hwrite⟩ := @mainWrite_script chip _ _ hfile (meaning d)
  obtain ⟨-, -, -, hflash⟩ := (script_correct hd hwrite rfl).returned as has hreturned
  rw [hflash, hplaced.foldl_packets hhex]
  exact hplaced.hasBit b hi

/-- Two records for the first word. -/
def twice : List Record := [wordRecord 0 ⟨0xF0, 0xFF⟩, wordRecord 0 ⟨0x3C, 0xFF⟩]

/-- Bit 4 of byte 0 is set in both records, bit 2 in one of them. -/
theorem overlapping_records_twice :
    ∃ as, HasBit 4 (flashByte (meaning (run (step (prog (writeInput (fileText twice))))
        ⟨Program.start claimed, zeroed⟩ as).device) 0) ∧
      ¬ HasBit 2 (flashByte (meaning (run (step (prog (writeInput (fileText twice))))
        ⟨Program.start claimed, zeroed⟩ as).device) 0) := by
  have hplaced : Placed atmega328p twice := by
    constructor <;> decide
  have hhex : HexFile twice (fileText twice) := hexFile_fileText (by decide)
  have hinput : (writeInput (fileText twice)).file = some (fileText twice) := rfl
  obtain ⟨k, hwrite⟩ := @mainWrite_script atmega328p _ _ hinput (meaning zeroed)
  obtain ⟨as, has, hreturned⟩ := (script_correct quiet_zeroed hwrite rfl).exists_run
  have hbits := overlapping_records quiet_zeroed hplaced hinput hhex has hreturned 0
  refine ⟨as, (hbits 4 (by decide)).mpr (by decide), fun hset => ?_⟩
  have hfirst := (hbits 2 (by decide)).mp hset _ List.mem_cons_self rfl 0 (by decide) rfl
  revert hfirst
  decide

end System
end AvrProgrammer
