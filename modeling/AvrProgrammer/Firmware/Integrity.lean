import AvrProgrammer.Firmware.MainLoop

/-!
# The flash as a function of the packets

`effect` says what a packet means for the flash: 0x04 erases it, a 0x03 packet with its four
bytes of payload programs one word, anything else does nothing. The firmware meets it as long
as every 0x02 and 0x03 packet carries its payload; a shorter one makes `ProcessOUT` read past
the end of the packet.
-/

namespace AvrProgrammer
namespace Firmware

open PagedFlash Runs

variable {chip : Chip}

/-- The meaning of a packet for the flash. -/
def effect (chip : Chip) (flash : Memory Word) : Packet → Memory Word
  | [] => flash
  | command :: payload =>
    if command = 0x04 then erase
    else match payload with
      | hi :: lo :: low :: high :: _ =>
        if command = 0x03 then program flash (chip.index (address hi lo)) ⟨low, high⟩ else flash
      | _ => flash

/-- A 0x02 packet with two address bytes, a 0x03 packet with four bytes of payload, or another
packet. -/
def WellSized (p : Packet) : Prop :=
  (p.head? = some 0x02 → 3 ≤ p.length) ∧ (p.head? = some 0x03 → 5 ≤ p.length)

instance (p : Packet) : Decidable (WellSized p) := inferInstanceAs (Decidable (_ ∧ _))

theorem wellSized_read {rest : Packet} :
    WellSized (0x02 :: rest) ↔ 3 ≤ (0x02 :: rest : Packet).length := by
  simp [WellSized]

theorem wellSized_write {rest : Packet} :
    WellSized (0x03 :: rest) ↔ 5 ≤ (0x03 :: rest : Packet).length := by
  simp [WellSized]

/-- A write packet with its payload means to program the word the firmware reads from it. -/
theorem effect_write (m : Mcu chip) (flash : Memory Word) {p : Packet}
    (hhead : p.head? = some 0x03) (hlen : 5 ≤ p.length) :
    effect chip flash p
      = program flash (chip.index (m.packetAddress p)) ⟨m.byte p 3, m.byte p 4⟩ := by
  match p, hhead, hlen with
  | _ :: hi :: lo :: low :: high :: _, rfl, _ => rfl

theorem effect_other (flash : Memory Word) {p : Packet} (h3 : p.head? ≠ some 0x03)
    (h4 : p.head? ≠ some 0x04) : effect chip flash p = flash := by
  match p, h3, h4 with
  | [], _, _ => rfl
  | command :: payload, h3, h4 =>
    have h3 : command ≠ 0x03 := by simpa using h3
    have h4 : command ≠ 0x04 := by simpa using h4
    simp only [effect, if_neg h4, if_neg h3]
    split <;> rfl

/-! ## What the handlers do to the flash -/

namespace Mcu

/-- `ProcessOUT` reads no byte past the end of a well-sized packet, and of no other. -/
theorem overruns_processed (m : Mcu chip) (p : Packet) :
    (m.processed p).overruns = 0 ↔ m.overruns = 0 ∧ WellSized p := by
  cases kind p with
  | empty => simp [processed_empty, WellSized]
  | signature rest => simp [processed_signature, WellSized]
  | read rest => rw [processed_read rfl, wellSized_read]; dsimp only; omega
  | write rest => rw [processed_write rfl, wellSized_write]; dsimp only; omega
  | erase rest => simp [processed_erase, WellSized]
  | leds command rest h1 h2 h3 h4 =>
    simp [processed_leds h1 h2 h3 h4, WellSized, h2, h3]

theorem flash_processed (m : Mcu chip) {p : Packet} (hp : WellSized p) :
    (m.processed p).target.flash = effect chip m.target.flash p := by
  cases kind p with
  | empty => rfl
  | signature rest =>
    rw [processed_signature]
    exact (effect_other _ (by simp) (by simp)).symm
  | read rest =>
    rw [processed_read rfl]
    exact (effect_other _ (by simp) (by simp)).symm
  | write rest =>
    rw [processed_write rfl]
    exact (effect_write m _ rfl (wellSized_write.mp hp)).symm
  | erase rest => rw [processed_erase]; rfl
  | leds command rest h1 h2 h3 h4 =>
    rw [processed_leds h1 h2 h3 h4, effect_other _ (by simpa using h3) (by simpa using h4)]
    exact Target.drive_flash ..

theorem overruns_answered (m : Mcu chip) : m.answered.overruns = m.overruns := by
  unfold answered; split_ifs <;> rfl

theorem flash_answered (m : Mcu chip) : m.answered.target.flash = m.target.flash := by
  unfold answered; split_ifs <;> rfl

end Mcu

/-! ## The invariant -/

/-- No byte is read past the end of a packet exactly if the packets are well sized, and then
the flash is what they mean. -/
structure FlashInv (flash : Memory Word) (m : Mcu chip) : Prop where
  overruns : m.overruns = 0 ↔ ∀ p ∈ received m.trace, WellSized p
  flash : (∀ p ∈ received m.trace, WellSized p) →
    m.target.flash = (received m.trace).foldl (effect chip) flash

theorem FlashInv.processed {flash : Memory Word} {m : Mcu chip} (h : FlashInv flash m)
    (p : Packet) : FlashInv flash (m.processed p) := by
  constructor
  · rw [Mcu.overruns_processed, h.overruns, Mcu.received_processed, List.forall_mem_append,
      List.forall_mem_singleton]
  · rw [Mcu.received_processed, List.forall_mem_append, List.forall_mem_singleton]
    rintro ⟨hpast, hp⟩
    rw [Mcu.flash_processed m hp, h.flash hpast, List.foldl_append]
    rfl

theorem FlashInv.answered {flash : Memory Word} {m : Mcu chip} (h : FlashInv flash m) :
    FlashInv flash m.answered := by
  constructor
  · rw [Mcu.overruns_answered, Mcu.received_answered]
    exact h.overruns
  · rw [Mcu.flash_answered, Mcu.received_answered]
    exact h.flash

theorem FlashInv.step {flash : Memory Word} {d : Device chip} (hd : Settled d.mcu)
    (h : FlashInv flash d.mcu) (a : Action) : FlashInv flash (step d a).mcu := by
  have heffect := step_effect hd a
  generalize Firmware.step d a = d' at heffect ⊢
  cases heffect with
  | idleOUT | busyIN | accept | refuse | poll => exact ⟨h.overruns, h.flash⟩
  | serve pinC p => exact FlashInv.processed (m := { d.mcu with pinC }) ⟨h.overruns, h.flash⟩ p
  | answer pinC => exact FlashInv.answered (m := { d.mcu with pinC }) ⟨h.overruns, h.flash⟩

theorem flashInv_run (unspecified : ℕ → UInt8) (flash : Memory Word) (as : List Action) :
    FlashInv flash (run step (powerOn unspecified flash : Device chip) as).mcu := by
  have hstart : FlashInv flash (powerOn unspecified flash : Device chip).mcu := by
    rw [powerOn_mcu]
    exact ⟨by simp [reset], fun _ => rfl⟩
  exact (run_invariant (I := fun d : Device chip => Settled d.mcu ∧ FlashInv flash d.mcu)
    (fun _ a h => ⟨h.1.step a, h.2.step h.1 a⟩)
    ⟨settled_powerOn unspecified flash, hstart⟩ as).2

/-! ## Main result -/

/-- In every run from power-on, the packets processed are the packets accepted, in order, less
the one still in the bank; and the flash is what they mean, with no byte read past the end of a
packet, exactly if all of them are well sized. -/
theorem flash_integrity_iff (unspecified : ℕ → UInt8) (flash : Memory Word)
    (as : List Action) :
    let d : Device chip := run step (powerOn unspecified flash) as
    d.accepted = received d.mcu.trace ++ d.pending ∧
    ((d.mcu.target.flash = (received d.mcu.trace).foldl (effect chip) flash ∧
        d.mcu.overruns = 0) ↔
      ∀ p ∈ received d.mcu.trace, WellSized p) := by
  have hinv := @flashInv_run chip unspecified flash as
  exact ⟨accounted_run (settled_powerOn unspecified flash) (by rfl) as,
    fun h => hinv.overruns.mp h.2, fun h => ⟨hinv.flash h, hinv.overruns.mpr h⟩⟩

/-- A packet that is only the byte 0x03 makes the firmware write a word it was never sent. -/
theorem truncated_write_corrupts_flash :
    let d : Device atmega328p :=
      run step (powerOn (fun _ => 0x00) erase) [.arrive [0x03], .firmware 0]
    ¬ (d.mcu.target.flash = (received d.mcu.trace).foldl (effect atmega328p) erase ∧
      d.mcu.overruns = 0) := by
  intro d h
  have hword : d.mcu.target.flash 0 = ⟨0x00, 0x00⟩ := by decide +kernel
  have hspec : (received d.mcu.trace).foldl (effect atmega328p) erase 0 = ⟨0xFF, 0xFF⟩ := by
    decide +kernel
  rw [h.1, hspec] at hword
  exact absurd hword (by decide)

end Firmware
end AvrProgrammer
