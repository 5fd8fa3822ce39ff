import AvrProgrammer.System.Compose
import AvrProgrammer.Software.LongLines
import AvrProgrammer.Firmware.Integrity

/-!
# Writing a file

`flash_write` sends the erase command and the words of the file; the firmware executes one
packet after the other. The flash, with the packet that may still be in the OUT bank, is at
every time what the packets sent so far mean. At the end it holds the words of the file: each
is programmed once, into erased flash, and programming one word of a page leaves the others.
-/

namespace AvrProgrammer
namespace System

open PagedFlash Runs IntelHex Firmware Software

variable {chip : Chip}

/-! ## Images -/

/-- A data record that is not empty. -/
def HasData (r : Record) : Prop := r.type = 0x00 ∧ 0 < r.data.length

instance (r : Record) : Decidable (HasData r) := inferInstanceAs (Decidable (_ ∧ _))

/-- The number of data bytes is even, also in an empty record. -/
theorem even_length {r : Record} (heven : HasData r → r.address % 2 = 0 ∧ r.data.length % 2 = 0)
    (htype : r.type = 0x00) : r.data.length % 2 = 0 := by
  rcases Nat.eq_zero_or_pos r.data.length with hempty | hpos
  · rw [hempty]
  · exact (heven ⟨htype, hpos⟩).2

/-- Records whose data lie in the flash of the target: whole words at even addresses, at most
one value for a byte. Of an empty record nothing is asked. -/
structure Image (chip : Chip) where
  records : List Record
  even : ∀ r ∈ records, HasData r → r.address % 2 = 0 ∧ r.data.length % 2 = 0
  inside : ∀ r ∈ records, HasData r → r.address + r.data.length ≤ 2 * chip.flashWords
  disjoint : records.Pairwise fun r r' => HasData r → HasData r' →
    r.address + r.data.length ≤ r'.address ∨ r'.address + r'.data.length ≤ r.address

/-- The byte at a byte address. -/
def flashByte (flash : Memory Word) (b : ℕ) : UInt8 :=
  if b % 2 = 0 then (flash (b / 2)).lo else (flash (b / 2)).hi

/-- The words of a record, with their addresses. -/
def recordWords (r : Record) : List (ℕ × Word) :=
  if r.type = 0x00 then
    (List.range (r.data.length / 2)).map fun k =>
      (r.address / 2 + k, ⟨r.data.getD (2 * k) 0, r.data.getD (2 * k + 1) 0⟩)
  else []

/-- The words of an image. -/
def Image.words (image : Image chip) : List (ℕ × Word) := image.records.flatMap recordWords

theorem mem_recordWords {r : Record} {x : ℕ × Word} :
    x ∈ recordWords r ↔ r.type = 0x00 ∧ ∃ k < r.data.length / 2,
      x = (r.address / 2 + k, ⟨r.data.getD (2 * k) 0, r.data.getD (2 * k + 1) 0⟩) := by
  by_cases htype : r.type = 0x00
  · simp only [recordWords, htype, if_true, List.mem_map, List.mem_range, true_and, eq_comm]
  · simp [recordWords, htype]

theorem mem_addresses {r : Record} {a : ℕ} :
    a ∈ (recordWords r).map Prod.fst ↔
      r.type = 0x00 ∧ ∃ k < r.data.length / 2, a = r.address / 2 + k := by
  constructor
  · intro ha
    obtain ⟨x, hx, rfl⟩ := List.mem_map.mp ha
    obtain ⟨htype, k, hk, rfl⟩ := mem_recordWords.mp hx
    exact ⟨htype, k, hk, rfl⟩
  · rintro ⟨htype, k, hk, rfl⟩
    exact List.mem_map.mpr ⟨_, mem_recordWords.mpr ⟨htype, k, hk, rfl⟩, rfl⟩

theorem nodup_addresses (r : Record) : ((recordWords r).map Prod.fst).Nodup := by
  unfold recordWords
  split_ifs
  · rw [List.map_map]
    exact List.nodup_range.map fun k k' h => Nat.add_left_cancel h
  · exact List.nodup_nil

namespace Image

variable (image : Image chip)

/-- The words of an image lie in the flash. -/
theorem words_lt {x : ℕ × Word} (hx : x ∈ image.words) :
    x.1 < chip.flashWords ∧ x.1 < 2 ^ 16 := by
  obtain ⟨r, hr, hx⟩ := List.mem_flatMap.mp hx
  obtain ⟨htype, k, hk, rfl⟩ := mem_recordWords.mp hx
  have hdata : HasData r := ⟨htype, by omega⟩
  have heven := image.even r hr hdata
  have hinside := image.inside r hr hdata
  have haddr := r.address_lt
  have hlen := r.data_length
  constructor <;> dsimp only <;> omega

/-- Every word of an image is programmed once. -/
theorem words_nodup : (image.words.map Prod.fst).Nodup := by
  rw [words, List.map_flatMap, List.nodup_flatMap]
  refine ⟨fun r _ => nodup_addresses r, image.disjoint.imp_of_mem ?_⟩
  intro r r' hr hr' hdisjoint a ha ha'
  obtain ⟨htype, k, hk, rfl⟩ := mem_addresses.mp ha
  obtain ⟨htype', k', hk', heq⟩ := mem_addresses.mp ha'
  have hdata : HasData r := ⟨htype, by omega⟩
  have hdata' : HasData r' := ⟨htype', by omega⟩
  have heven := image.even r hr hdata
  have heven' := image.even r' hr' hdata'
  have hranges := hdisjoint hdata hdata'
  omega

/-- Programming the words of an image into erased flash leaves each byte of the image at its
address. -/
theorem flashByte_of_mem {r : Record} (hr : r ∈ image.records) (htype : r.type = 0x00) {k : ℕ}
    (hk : k < r.data.length) :
    flashByte (programAll erase image.words) (r.address + k) = r.data[k] := by
  obtain ⟨haddr, hlen⟩ := image.even r hr ⟨htype, Nat.zero_lt_of_lt hk⟩
  have hword : (r.address / 2 + k / 2,
      (⟨r.data.getD (2 * (k / 2)) 0, r.data.getD (2 * (k / 2) + 1) 0⟩ : Word)) ∈ image.words :=
    List.mem_flatMap.mpr ⟨r, hr, mem_recordWords.mpr ⟨htype, k / 2, by omega, rfl⟩⟩
  have hread := programAll_of_mem image.words_nodup hword erase
  rw [erase_apply, FlashWord.erased_and] at hread
  rw [flashByte, show (r.address + k) / 2 = r.address / 2 + k / 2 by omega, hread,
    ← List.getD_eq_getElem _ 0 hk]
  split_ifs
  · rw [show 2 * (k / 2) = k by omega]
  · rw [show 2 * (k / 2) + 1 = k by omega]

/-- Every other byte stays erased. -/
theorem flashByte_of_notMem {b : ℕ}
    (hb : ∀ r ∈ image.records, r.type = 0x00 → b < r.address ∨ r.address + r.data.length ≤ b) :
    flashByte (programAll erase image.words) b = 0xFF := by
  have hword : b / 2 ∉ image.words.map Prod.fst := by
    rw [words, List.map_flatMap]
    intro hmem
    obtain ⟨r, hr, ha⟩ := List.mem_flatMap.mp hmem
    obtain ⟨htype, k, hk, heq⟩ := mem_addresses.mp ha
    have heven := image.even r hr ⟨htype, by omega⟩
    have hrange := hb r hr htype
    omega
  rw [flashByte, programAll_of_notMem hword, erase_apply]
  split_ifs <;> rfl

end Image

/-! ## What the packets mean -/

/-- The write packet of a word. -/
def wordPacket (x : ℕ × Word) : Packet :=
  [0x03, highByte (UInt16.ofNat x.1), lowByte (UInt16.ofNat x.1), x.2.lo, x.2.hi]

theorem recordPackets_eq (r : Record) : recordPackets r = (recordWords r).map wordPacket := by
  unfold recordPackets recordWords
  split_ifs
  · rw [List.map_map]
    rfl
  · rfl

/-- Words in the flash are programmed in order. -/
theorem foldl_wordPackets {l : List (ℕ × Word)}
    (hl : ∀ x ∈ l, x.1 < chip.flashWords ∧ x.1 < 2 ^ 16) (flash : Memory Word) :
    (l.map wordPacket).foldl (effect chip) flash = programAll flash l := by
  induction l generalizing flash with
  | nil => rfl
  | cons x l ih =>
    obtain ⟨hflash, hword⟩ := hl x List.mem_cons_self
    have haddr : (UInt16.ofNat x.1).toNat = x.1 := by
      rw [UInt16.toNat_ofNat']
      omega
    have hindex : chip.index (UInt16.ofNat x.1) = x.1 := by
      rw [Chip.index_of_lt (by rwa [haddr]), haddr]
    have hx : effect chip flash (wordPacket x) = program flash x.1 x.2 := by
      show program flash (chip.index (address _ _)) x.2 = _
      rw [address_bytes, hindex]
    rw [List.map_cons, List.foldl_cons, hx, ih fun y hy => hl y (.tail _ hy), programAll_cons]

/-- The packets of a file for the image mean to erase the flash and program its words. -/
theorem foldl_flashWritePackets (image : Image chip) {file : List UInt8}
    (hfile : HexFile image.records file) (v : Vars) (flash : Memory Word) :
    (flashWritePackets v file).foldl (effect chip) flash = programAll erase image.words := by
  have hpackets : writePackets v file = image.words.map wordPacket := by
    rw [writePackets_hexFile hfile (fun r hr => even_length (image.even r hr)), Image.words,
      List.map_flatMap, funext recordPackets_eq]
  rw [flashWritePackets, hpackets, List.foldl_cons, foldl_wordPackets fun x => image.words_lt]
  rfl

/-! ## The device -/

/-- The flash once the packet in the OUT bank is processed. -/
def meaning (d : Device chip) : Memory Word :=
  d.pending.foldl (effect chip) d.mcu.target.flash

/-- Every packet in the OUT bank is well sized. -/
def PendingSized (d : Device chip) : Prop := ∀ p ∈ d.pending, WellSized p

/-- Neither the main loop nor a poll changes what the packets mean. -/
theorem meaning_step {d : Device chip} (hd : Settled d.mcu) (hsized : PendingSized d)
    {a : Firmware.Action} (ha : ∀ p, a ≠ .arrive p) :
    meaning (Firmware.step d a) = meaning d ∧ PendingSized (Firmware.step d a) := by
  have heffect := Firmware.step_effect hd a
  generalize Firmware.step d a = d' at heffect ⊢
  cases heffect with
  | idleOUT | busyIN | poll => exact ⟨rfl, hsized⟩
  | serve pinC p hnext hbank =>
    have hpending : d.pending = [p] := by simp [Device.pending, hbank]
    have hp : WellSized p := hsized p (by simp [hpending])
    have hflash := Mcu.flash_processed { d.mcu with pinC := pinC } hp
    refine ⟨?_, by simp [PendingSized, Device.pending]⟩
    simp only [meaning, hpending, List.foldl_cons, List.foldl_nil]
    simpa [Device.pending] using hflash
  | answer pinC hnext hbank =>
    have hflash := Mcu.flash_answered { d.mcu with pinC := pinC }
    have hout := Mcu.outBank_answered { d.mcu with pinC := pinC }
    refine ⟨?_, ?_⟩
    · simp only [meaning, Device.pending, hflash, hout]
    · simpa only [PendingSized, Device.pending, hout] using hsized
  | accept p => exact absurd rfl (ha p)
  | refuse p => exact absurd rfl (ha p)

/-- A packet the OUT bank accepts. -/
theorem meaning_arrive {d : Device chip} (hbank : d.mcu.outBank = none) (p : Packet) :
    meaning (Firmware.step d (.arrive p)) = effect chip d.mcu.target.flash p ∧
      (Firmware.step d (.arrive p)).pending = [p] := by
  rw [arrive_eq hbank]
  exact ⟨rfl, rfl⟩

theorem meaning_of_none {d : Device chip} (hbank : d.mcu.outBank = none) :
    meaning d = d.mcu.target.flash ∧ PendingSized d := by
  have hpending : d.pending = [] := by simp [Device.pending, hbank]
  rw [meaning, PendingSized, hpending]
  exact ⟨rfl, by simp⟩

/-! ## The invariant -/

/-- Every transfer so far returned 0. -/
def Accepted {σ : Type} (h : Host σ) : Prop := ∀ x ∈ h.calls, x.2.r = 0

instance {σ : Type} (h : Host σ) : Decidable (Accepted h) :=
  inferInstanceAs (Decidable (∀ x ∈ h.calls, x.2.r = 0))

/-- The packets are sent in order, and from the first one on the flash is what they mean. -/
structure WriteInv (flash : Memory Word) (packets : List Packet)
    (s : Composed (List Packet) chip) : Prop where
  settled : Settled s.device.mcu
  progress : Accepted s.host → ∃ sent, sent ++ s.host.state = packets ∧
    (sent ≠ [] → PendingSized s.device ∧ meaning s.device = sent.foldl (effect chip) flash)

section
variable {flash : Memory Word} {packets : List Packet} {s : Composed (List Packet) chip}

/-- A step of the device alone. -/
theorem WriteInv.device (hs : WriteInv flash packets s) {a : Firmware.Action}
    (ha : ∀ p, a ≠ .arrive p) :
    WriteInv flash packets ⟨s.host, Firmware.step s.device a⟩ := by
  refine ⟨hs.settled.step a, fun hok => ?_⟩
  obtain ⟨sent, hsent, hmeaning⟩ := hs.progress hok
  refine ⟨sent, hsent, fun hne => ?_⟩
  obtain ⟨hsized, hflash⟩ := hmeaning hne
  obtain ⟨hsame, hsized'⟩ := meaning_step hs.settled hsized ha
  exact ⟨hsized', hsame.trans hflash⟩

theorem WriteInv.step (hpackets : ∀ p ∈ packets, WellSized p)
    (hfirst : packets.head? = some [0x04]) (hs : WriteInv flash packets s) (a : Action) :
    WriteInv flash packets (step flashWrite s a) := by
  have heffect := step_effect flashWrite s a
  generalize System.step flashWrite s a = s' at heffect ⊢
  cases heffect with
  | firmware pinC => exact hs.device (by simp)
  | poll => exact hs.device (by simp)
  | sent p hcall hbank =>
    obtain ⟨p', rest, hstate, ⟨⟩⟩ := flashWrite_call hcall
    obtain ⟨hmeaning, hpending⟩ := meaning_arrive hbank p
    obtain ⟨hflash, -⟩ := meaning_of_none hbank
    rw [Program.step_of_call _ hcall]
    refine ⟨hs.settled.step _, fun hok => ?_⟩
    obtain ⟨sent, hsent, hbefore⟩ :=
      hs.progress fun x hx => hok x (List.mem_append_left _ hx)
    rw [hstate] at hsent
    have hp : WellSized p := hpackets p (by simp [← hsent])
    refine ⟨sent ++ [p], ?_, fun _ => ⟨by simpa [PendingSized, hpending] using hp, ?_⟩⟩
    · rw [hstate, List.append_assoc]
      exact hsent
    · rw [hmeaning, List.foldl_append]
      cases sent with
      | nil =>
        -- the first packet erases whatever the flash held
        rw [← hsent] at hfirst
        cases hfirst
        rfl
      | cons q sent =>
        rw [← hflash, (hbefore (List.cons_ne_nil _ _)).2]
        rfl
  | timeoutOUT p hcall =>
    rw [Program.step_of_call _ hcall]
    refine ⟨hs.settled, fun hok => ?_⟩
    have hfailed : (-7 : ℤ) = 0 := hok (.transferOut p, timedOut) (by simp)
    exact absurd hfailed (by decide)
  | received size q hcall | timeoutIN size hcall =>
    obtain ⟨_, _, -, ⟨⟩⟩ := flashWrite_call hcall
  | called call hcall hcontrol =>
    obtain ⟨_, _, -, rfl⟩ := flashWrite_call hcall
    exact absurd hcontrol not_false
  | blockedOUT | blockedIN | returned | noTransfer => exact hs

end

/-! ## Main result -/

theorem wellSized_flashWritePackets (image : Image chip) {file : List UInt8}
    (hfile : HexFile image.records file) (v : Vars) :
    ∀ p ∈ flashWritePackets v file, WellSized p := by
  intro p hp
  rcases List.mem_cons.mp hp with rfl | hp
  · decide
  · rw [writePackets_hexFile hfile (fun r hr => even_length (image.even r hr))] at hp
    obtain ⟨r, -, hp⟩ := List.mem_flatMap.mp hp
    rw [recordPackets_eq] at hp
    obtain ⟨x, -, rfl⟩ := List.mem_map.mp hp
    simp [WellSized, wordPacket]

/-- `flash_write` at its start and a device in any settled state. -/
def writeStart (v : Vars) (file : List UInt8) (d : Device chip) :
    Composed (List Packet) chip :=
  ⟨Program.start (flashWritePackets v file), d⟩

/-- If all transfers of `flash_write` return 0, then once the firmware has consumed all packets
the flash holds the bytes of the file, and 0xFF everywhere else. -/
theorem write_correct (image : Image chip) {file : List UInt8}
    (hfile : HexFile image.records file) (v : Vars) {d : Device chip} (hd : Settled d.mcu)
    (as : List Action) :
    let s := run (step flashWrite) (writeStart v file d) as
    Accepted s.host → s.host.state = [] → s.device.mcu.outBank = none →
      (∀ r ∈ image.records, r.type = 0x00 → ∀ k (hk : k < r.data.length),
        flashByte s.device.mcu.target.flash (r.address + k) = r.data[k]) ∧
      ∀ b, (∀ r ∈ image.records, r.type = 0x00 →
          b < r.address ∨ r.address + r.data.length ≤ b) →
        flashByte s.device.mcu.target.flash b = 0xFF := by
  intro s hok hsent hconsumed
  have hstart : WriteInv d.mcu.target.flash (flashWritePackets v file) (writeStart v file d) :=
    ⟨hd, fun _ => ⟨[], rfl, fun hne => absurd rfl hne⟩⟩
  have hinv : WriteInv d.mcu.target.flash (flashWritePackets v file) s :=
    run_invariant (fun _ a hinv => hinv.step (wellSized_flashWritePackets image hfile v) rfl a)
      hstart as
  obtain ⟨sent, hpackets, hmeaning⟩ := hinv.progress hok
  rw [hsent, List.append_nil] at hpackets
  have hflash : s.device.mcu.target.flash = programAll erase image.words := by
    rw [← (meaning_of_none hconsumed).1,
      (hmeaning (by rw [hpackets]; exact List.cons_ne_nil _ _)).2, hpackets,
      foldl_flashWritePackets image hfile]
  rw [hflash]
  exact ⟨fun r hr htype k hk => image.flashByte_of_mem hr htype hk,
    fun b hb => image.flashByte_of_notMem hb⟩

/-- The image of the file `:02000200CCDD53`, `:02000000AABB99`, `:00000001FF`. -/
def twoWords : Image atmega328p where
  records :=
    [⟨0x00, 0x02, 0x00, [0xCC, 0xDD], by decide⟩, ⟨0x00, 0x00, 0x00, [0xAA, 0xBB], by decide⟩]
  even := by decide
  inside := by decide
  disjoint := by decide

def twoWordsFile : List UInt8 :=
  [0x3A, 0x30, 0x32, 0x30, 0x30, 0x30, 0x32, 0x30, 0x30, 0x43, 0x43, 0x44, 0x44, 0x35, 0x33]
    ++ 0x0A ::
      ([0x3A, 0x30, 0x32, 0x30, 0x30, 0x30, 0x30, 0x30, 0x30, 0x41, 0x41, 0x42, 0x42, 0x39, 0x39]
        ++ 0x0A :: ([0x3A, 0x30, 0x30, 0x30, 0x30, 0x30, 0x30, 0x30, 0x31, 0x46, 0x46] ++ []))

theorem hexFile_twoWords : HexFile twoWords.records twoWordsFile :=
  .record rfl (.inl rfl) (by decide)
    (.record rfl (.inl rfl) (by decide)
      (.last (r := ⟨0x00, 0x00, 0x01, [], by decide⟩) rfl rfl (by decide) (.inl rfl)))

/-- Two words of one page, the second before the first, are written into a flash of zeros. -/
theorem write_correct_twoWords :
    let s := run (step flashWrite)
      (writeStart ⟨[], 0, 0, 0, 0, fun _ _ => 0⟩ twoWordsFile
        (powerOn (fun _ => 0) (fun _ => ⟨0, 0⟩) : Device atmega328p))
      [.transfer, .firmware 0, .firmware 0, .poll, .transfer, .firmware 0, .firmware 0, .transfer,
        .firmware 0]
    flashByte s.device.mcu.target.flash 1 = 0xBB ∧
      flashByte s.device.mcu.target.flash 2 = 0xCC ∧
        flashByte s.device.mcu.target.flash 4 = 0xFF := by
  intro s
  have hall := write_correct twoWords hexFile_twoWords ⟨[], 0, 0, 0, 0, fun _ _ => 0⟩
    (settled_powerOn (fun _ => 0) (fun _ => ⟨0, 0⟩) : Settled (powerOn _ _ : Device _).mcu)
    [.transfer, .firmware 0, .firmware 0, .poll, .transfer, .firmware 0, .firmware 0, .transfer,
      .firmware 0]
    (by decide +kernel) (by decide +kernel) (by decide +kernel)
  have hfour : ∀ r ∈ twoWords.records, r.type = 0x00 →
      4 < r.address ∨ r.address + r.data.length ≤ 4 := by decide
  exact ⟨hall.1 _ (.tail _ List.mem_cons_self) rfl 1 (by decide),
    hall.1 _ List.mem_cons_self rfl 0 (by decide), hall.2 4 hfour⟩

end System
end AvrProgrammer
