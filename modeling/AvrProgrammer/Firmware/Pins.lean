import AvrProgrammer.Firmware.MainLoop

/-!
# The pins of port B

PB0 is the target's RESET line, PB1 to PB4 belong to SPI and PB5 to PB7 are the LEDs.
`spi_ON` and `spi_OFF` mask PB0; the LED branch of `ProcessOUT` stores the byte of the host in
the whole port. After power-on PB0 is high and PB1 to PB4 are low, and this lasts exactly as
long as the LED packets themselves carry these five bits.
-/

namespace AvrProgrammer
namespace Firmware

open PagedFlash Runs

variable {chip : Chip}

/-- What each write to port B should respect: `spi_ON` finds PB0 high and so makes a falling
edge, `spi_OFF` finds it low, and a LED command keeps PB0 to PB4. -/
def PinRule : Event → Prop
  | .spiON portB _ _ => ssHigh portB = true
  | .spiOFF portB => ssHigh portB = false
  | .leds portB command => command &&& 0x1F = portB &&& 0x1F
  | _ => True

/-- The LED commands of a trace. -/
def ledCommands (trace : List Event) : List UInt8 :=
  trace.filterMap fun e => match e with
    | .leds _ command => some command
    | _ => none

/-- The use of port B along a run: RESET is high whenever the main loop starts a turn, every
write respects its rule, and an action without LED command keeps PB5 to PB7. -/
structure PinDiscipline (d : Device chip) (as : List Action) : Prop where
  boundary : ∀ pre post, as = pre ++ post → (run step d pre).next = .dataOut →
    ssHigh (run step d pre).mcu.portB = true
  writes : ∀ e ∈ (run step d as).mcu.trace, PinRule e
  leds : Along step (fun d a => ledCommands (step d a).mcu.trace = ledCommands d.mcu.trace →
    (step d a).mcu.portB &&& 0xE0 = d.mcu.portB &&& 0xE0) d as

/-- A LED packet that carries PB0 to PB4 as `spi_init` left them. -/
def KeepsSpiPins (p : Packet) : Prop :=
  ∀ command rest, p = command :: rest → command ∉ [0x01, 0x02, 0x03, 0x04] →
    command &&& 0x1F = 0x01

/-! ## Masks -/

theorem ssHigh_of_pins {portB : UInt8} (h : portB &&& 0x1F = 0x01) : ssHigh portB = true := by
  revert portB; decide +kernel

theorem pins_off {portB : UInt8} (h : portB &&& 0x1F = 0x01) :
    (portB ||| SPI_SS) &&& 0x1F = 0x01 := by
  revert portB; decide +kernel

theorem leds_off (portB : UInt8) : (portB ||| SPI_SS) &&& 0xE0 = portB &&& 0xE0 := by
  revert portB; decide +kernel

/-! ## The rules for the entries of one action -/

theorem pinRule_append {l l' : List Event} :
    (∀ e ∈ l ++ l', PinRule e) ↔ (∀ e ∈ l, PinRule e) ∧ ∀ e ∈ l', PinRule e := by
  simp only [List.mem_append, or_imp, forall_and]

theorem pinRule_session {portB command : UInt8} {a : UInt16} {before : List ℕ}
    {bytes : List UInt8} {after : List ℕ} :
    (∀ e ∈ session portB command a before bytes after, PinRule e) ↔ ssHigh portB = true := by
  simp [session, or_imp, forall_and, PinRule, ssHigh_on]

theorem pinRule_overruns (n : ℕ) : ∀ e ∈ List.replicate n Event.overrun, PinRule e := by
  intro e he
  rw [List.eq_of_mem_replicate he]
  trivial

theorem pinRule_received (p : Packet) : ∀ e ∈ [Event.received p], PinRule e := by
  simp [PinRule]

theorem pinRule_sent (q : Packet) : ∀ e ∈ [Event.sent q], PinRule e := by
  simp [PinRule]

theorem keepsSpiPins_nil : KeepsSpiPins [] := nofun

theorem keepsSpiPins_of_command {command : UInt8} {rest : Packet}
    (h : command ∈ [0x01, 0x02, 0x03, 0x04]) : KeepsSpiPins (command :: rest) := by
  rintro _ _ ⟨rfl, rfl⟩ hother
  exact absurd h hother

theorem keepsSpiPins_leds {command : UInt8} {rest : Packet} (h1 : command ≠ 0x01)
    (h2 : command ≠ 0x02) (h3 : command ≠ 0x03) (h4 : command ≠ 0x04) :
    KeepsSpiPins (command :: rest) ↔ command &&& 0x1F = 0x01 := by
  constructor
  · exact fun h => h command rest rfl (by simp [h1, h2, h3, h4])
  · rintro h _ _ ⟨rfl, rfl⟩ -
    exact h

/-! ## The invariant -/

/-- The writes respect their rules as long as the LED packets keep PB0 to PB4, and then these
pins are as `spi_init` left them. -/
structure PinsInv (m : Mcu chip) : Prop where
  writes : (∀ e ∈ m.trace, PinRule e) ↔ ∀ p ∈ received m.trace, KeepsSpiPins p
  port : (∀ p ∈ received m.trace, KeepsSpiPins p) → m.portB &&& 0x1F = 0x01

/-- A handler keeps the invariant if its own entries and packets do. -/
theorem PinsInv.extend {m m' : Mcu chip} (h : PinsInv m) {events : List Event}
    (htrace : m'.trace = m.trace ++ events)
    (hevents : m.portB &&& 0x1F = 0x01 →
      ((∀ e ∈ events, PinRule e) ↔ ∀ p ∈ received events, KeepsSpiPins p) ∧
      ((∀ p ∈ received events, KeepsSpiPins p) → m'.portB &&& 0x1F = 0x01)) : PinsInv m' := by
  have hpackets : (∀ p ∈ received m'.trace, KeepsSpiPins p)
      ↔ (∀ p ∈ received m.trace, KeepsSpiPins p) ∧ ∀ p ∈ received events, KeepsSpiPins p := by
    simp only [htrace, received_append, List.mem_append, or_imp, forall_and]
  constructor
  · rw [htrace, pinRule_append, ← htrace, hpackets, h.writes]
    exact and_congr_right fun hpast => (hevents (h.port hpast)).1
  · rw [hpackets]
    exact fun hall => (hevents (h.port hall.1)).2 hall.2

/-- Entries that respect their rules, for a packet that keeps the SPI pins. -/
theorem PinsInv.extend_received {m m' : Mcu chip} (h : PinsInv m) {events : List Event}
    {p : Packet} (htrace : m'.trace = m.trace ++ (events ++ [.received p]))
    (hreceived : received events = []) (hp : KeepsSpiPins p)
    (hevents : ssHigh m.portB = true → ∀ e ∈ events, PinRule e)
    (hport : m.portB &&& 0x1F = 0x01 → m'.portB &&& 0x1F = 0x01) : PinsInv m' := by
  refine h.extend htrace fun hpins => ⟨?_, fun _ => hport hpins⟩
  rw [received_append, hreceived, pinRule_append]
  have hrules := hevents (ssHigh_of_pins hpins)
  simpa [hp, pinRule_received] using hrules

theorem PinsInv.processed {m : Mcu chip} (h : PinsInv m) (p : Packet) :
    PinsInv (m.processed p) := by
  cases kind p with
  | empty =>
    rw [Mcu.processed_empty]
    have hnone : ssHigh m.portB = true → ∀ e ∈ [], PinRule e := by simp
    exact h.extend_received rfl rfl keepsSpiPins_nil hnone id
  | signature rest =>
    rw [Mcu.processed_signature]
    have hnone : ssHigh m.portB = true → ∀ e ∈ [], PinRule e := by simp
    exact h.extend_received rfl rfl (keepsSpiPins_of_command (by decide)) hnone id
  | read rest =>
    rw [Mcu.processed_read rfl]
    exact h.extend_received rfl (received_overruns _) (keepsSpiPins_of_command (by decide))
      (fun _ => pinRule_overruns _) id
  | write rest =>
    simp only [Mcu.processed_write rfl, ← List.append_assoc (List.replicate _ _)]
    refine h.extend_received rfl (by simp) (keepsSpiPins_of_command (by decide))
      (fun hss => ?_) pins_off
    exact pinRule_append.mpr ⟨pinRule_overruns _, pinRule_session.mpr hss⟩
  | erase rest =>
    rw [Mcu.processed_erase]
    exact h.extend_received rfl (received_session ..) (keepsSpiPins_of_command (by decide))
      pinRule_session.mpr pins_off
  | leds command rest h1 h2 h3 h4 =>
    rw [Mcu.processed_leds h1 h2 h3 h4]
    refine h.extend rfl fun hpins => ?_
    simp [PinRule, hpins, keepsSpiPins_leds h1 h2 h3 h4]

theorem PinsInv.answered {m : Mcu chip} (h : PinsInv m) : PinsInv m.answered := by
  by_cases h2 : m.commandePC = 0x02
  · rw [Mcu.answered_read h2]
    refine h.extend rfl fun hpins => ⟨?_, fun _ => pins_off hpins⟩
    rw [pinRule_append, pinRule_session]
    simp [pinRule_sent, ssHigh_of_pins hpins]
  by_cases h1 : m.commandePC = 0x01
  · rw [Mcu.answered_signature h1]
    refine h.extend rfl fun hpins => ⟨?_, fun _ => pins_off hpins⟩
    rw [pinRule_append, pinRule_session]
    simp [pinRule_sent, ssHigh_of_pins hpins]
  rw [Mcu.answered_buttons h1 h2]
  exact h.extend rfl fun hpins => ⟨by simp [pinRule_sent], fun _ => hpins⟩

theorem PinsInv.step {d : Device chip} (hd : Settled d.mcu) (h : PinsInv d.mcu) (a : Action) :
    PinsInv (step d a).mcu := by
  have heffect := step_effect hd a
  generalize Firmware.step d a = d' at heffect ⊢
  cases heffect with
  | idleOUT | busyIN | accept | refuse | poll => exact ⟨h.writes, h.port⟩
  | serve pinC p => exact PinsInv.processed (m := { d.mcu with pinC }) ⟨h.writes, h.port⟩ p
  | answer pinC => exact PinsInv.answered (m := { d.mcu with pinC }) ⟨h.writes, h.port⟩

theorem pinsInv_powerOn (unspecified : ℕ → UInt8) (flash : Memory Word) :
    PinsInv (powerOn unspecified flash : Device chip).mcu := by
  have hpins : (0x01 : UInt8) &&& 0x1F = 0x01 := by decide
  rw [powerOn_mcu]
  exact ⟨by simp [reset], fun _ => hpins⟩

/-! ## The LEDs -/

/-- Only the LED branch changes PB5 to PB7. -/
theorem Mcu.processed_leds_kept (m : Mcu chip) (p : Packet)
    (hleds : ledCommands (m.processed p).trace = ledCommands m.trace) :
    (m.processed p).portB &&& 0xE0 = m.portB &&& 0xE0 := by
  cases kind p with
  | empty | signature rest => rfl
  | read rest => rw [processed_read rfl]
  | write rest => rw [processed_write rfl]; exact leds_off _
  | erase rest => rw [processed_erase]; exact leds_off _
  | leds command rest h1 h2 h3 h4 =>
    rw [processed_leds h1 h2 h3 h4] at hleds
    simp [ledCommands] at hleds

theorem Mcu.answered_leds_kept (m : Mcu chip) :
    m.answered.portB &&& 0xE0 = m.portB &&& 0xE0 := by
  by_cases h2 : m.commandePC = 0x02
  · rw [answered_read h2]; exact leds_off _
  by_cases h1 : m.commandePC = 0x01
  · rw [answered_signature h1]; exact leds_off _
  rw [answered_buttons h1 h2]

theorem step_leds_kept {d : Device chip} (hd : Settled d.mcu) (a : Action)
    (hleds : ledCommands (step d a).mcu.trace = ledCommands d.mcu.trace) :
    (step d a).mcu.portB &&& 0xE0 = d.mcu.portB &&& 0xE0 := by
  have heffect := step_effect hd a
  generalize step d a = d' at heffect hleds ⊢
  cases heffect with
  | idleOUT | busyIN | accept | refuse | poll => rfl
  | serve pinC p => exact Mcu.processed_leds_kept { d.mcu with pinC } p hleds
  | answer pinC => exact Mcu.answered_leds_kept { d.mcu with pinC }

/-! ## Main result -/

theorem pinsInv_run (unspecified : ℕ → UInt8) (flash : Memory Word) (as : List Action) :
    PinsInv (run step (powerOn unspecified flash : Device chip) as).mcu :=
  (run_invariant (I := fun d : Device chip => Settled d.mcu ∧ PinsInv d.mcu)
    (fun _ a h => ⟨h.1.step a, h.2.step h.1 a⟩)
    ⟨settled_powerOn unspecified flash, pinsInv_powerOn unspecified flash⟩ as).2

/-- From power-on, port B is used as it should be exactly in the runs in which every LED packet
processed carries PB0 high and PB1 to PB4 low. -/
theorem pinDiscipline_iff (unspecified : ℕ → UInt8) (flash : Memory Word) (as : List Action) :
    PinDiscipline (powerOn unspecified flash : Device chip) as ↔
      ∀ p ∈ received (run step (powerOn unspecified flash : Device chip) as).mcu.trace,
        KeepsSpiPins p := by
  have hinv (as : List Action) := @pinsInv_run chip unspecified flash as
  have hsettled := @settled_powerOn chip unspecified flash
  constructor
  · exact fun h => (hinv as).writes.mp h.writes
  intro hpackets
  refine ⟨?_, (hinv as).writes.mpr hpackets, ?_⟩
  · -- the packets of a part of the run are among those of the run
    rintro pre post rfl -
    have hprefix := trace_prefix_run (settled_run hsettled pre) post
    rw [← run_append] at hprefix
    have hpre : ∀ p ∈ received (run step (powerOn unspecified flash) pre).mcu.trace,
        KeepsSpiPins p := fun p hp => hpackets p (received_subset hprefix hp)
    exact ssHigh_of_pins ((hinv pre).port hpre)
  · exact along_of_invariant (I := fun d : Device chip => Settled d.mcu)
      (fun _ a h => h.step a) (fun _ a h => step_leds_kept h a) hsettled as

/-- The first packet `main_pc.c` sends, LED 1 on, resets the target. -/
theorem led_packet_resets_target :
    ¬ PinDiscipline (powerOn (fun _ => 0) erase : Device atmega328p)
      [.arrive [0x20], .firmware 0, .firmware 0] := by
  intro h
  have hhigh := h.boundary [.arrive [0x20], .firmware 0, .firmware 0] [] rfl (by decide)
  revert hhigh
  decide +kernel

end Firmware
end AvrProgrammer
