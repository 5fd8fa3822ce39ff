import AvrProgrammer.Firmware.Handlers
import AvrProgrammer.Library.Runs

/-!
# The main loop and the USB device

The main loop calls `ProcessOUT` and `ProcessIN` in turn. Between two calls the host may place
a packet in the OUT bank, if that is free, and take the packet of the IN bank. A handler looks
at the banks once, at its start, and gives its own bank back in its last statement, so nothing
is lost by running a handler as one action.

`step_effect` says once what an action can do; every invariant of the following files is
derived from it.
-/

namespace AvrProgrammer
namespace Firmware

open PagedFlash Runs

variable {chip : Chip}

/-- The device: the microcontroller, the handler the main loop calls next, and the packets the
OUT bank has accepted so far. -/
structure Device (chip : Chip) where
  mcu : Mcu chip
  next : Endpoint
  accepted : List Packet

/-- What can happen: the main loop calls its next handler while PINC reads `pinC`; a packet
arrives for the OUT endpoint; the host takes the packet of the IN bank. -/
inductive Action where
  | firmware (pinC : UInt8)
  | arrive (packet : Packet)
  | poll
deriving DecidableEq

/-- One action. A packet that finds the OUT bank full is refused, and a poll that finds the IN
bank empty takes nothing. -/
def step (d : Device chip) : Action → Device chip
  | .firmware pinC =>
    match d.next with
    | .dataOut =>
      { d with mcu := (processOUT.run { d.mcu with pinC := pinC }).2, next := .dataIn }
    | .dataIn =>
      { d with mcu := (processIN.run { d.mcu with pinC := pinC }).2, next := .dataOut }
  | .arrive packet =>
    if d.mcu.outBank.isNone then
      { d with mcu := { d.mcu with outBank := some ⟨packet, packet⟩ },
               accepted := d.accepted ++ [packet] }
    else d
  | .poll => { d with mcu := { d.mcu with inBank := none } }

/-- The device at the start of the main loop. -/
def powerOn (unspecified : ℕ → UInt8) (flash : Memory Word) : Device chip where
  mcu := (mainInit.run (reset unspecified flash)).2
  next := .dataOut
  accepted := []

/-! ## What an action does -/

/-- The effect of each action on a settled device, case by case. -/
inductive Effect (d : Device chip) : Action → Device chip → Prop
  | idleOUT (pinC : UInt8) (hnext : d.next = .dataOut) (hbank : d.mcu.outBank = none) :
    Effect d (.firmware pinC)
      { d with mcu := { d.mcu with pinC := pinC, endpoint := .dataOut }, next := .dataIn }
  | serve (pinC : UInt8) (p : Packet) (hnext : d.next = .dataOut)
      (hbank : d.mcu.outBank = some ⟨p, p⟩) :
    Effect d (.firmware pinC)
      { d with mcu := Mcu.processed { d.mcu with pinC := pinC } p, next := .dataIn }
  | busyIN (pinC : UInt8) (hnext : d.next = .dataIn) (hbank : d.mcu.inBank.isSome) :
    Effect d (.firmware pinC)
      { d with mcu := { d.mcu with pinC := pinC, endpoint := .dataIn }, next := .dataOut }
  | answer (pinC : UInt8) (hnext : d.next = .dataIn) (hbank : d.mcu.inBank = none) :
    Effect d (.firmware pinC)
      { d with mcu := Mcu.answered { d.mcu with pinC := pinC }, next := .dataOut }
  | accept (p : Packet) (hbank : d.mcu.outBank = none) :
    Effect d (.arrive p)
      { d with mcu := { d.mcu with outBank := some ⟨p, p⟩ }, accepted := d.accepted ++ [p] }
  | refuse (p : Packet) (hbank : d.mcu.outBank.isSome) : Effect d (.arrive p) d
  | poll : Effect d .poll { d with mcu := { d.mcu with inBank := none } }

theorem Settled.withPinC {m : Mcu chip} (hm : Settled m) (pinC : UInt8) :
    Settled { m with pinC := pinC } := ⟨hm.line, hm.inst, hm.buffer, hm.inBytes, hm.unread⟩

theorem step_effect {d : Device chip} (hd : Settled d.mcu) (a : Action) :
    Effect d a (step d a) := by
  cases a with
  | firmware pinC =>
    cases hnext : d.next with
    | dataOut =>
      simp only [step, hnext]
      obtain hbank | ⟨⟨p, unread⟩, hbank⟩ := Option.eq_none_or_eq_some d.mcu.outBank
      · rw [(processOUT_executes_none (m := { d.mcu with pinC := pinC }) hbank).final]
        exact .idleOUT pinC hnext hbank
      · rw [(processOUT_executes_some (hd.withPinC pinC) hbank).final]
        obtain rfl : unread = p := hd.unread _ hbank
        exact .serve pinC unread hnext hbank
    | dataIn =>
      simp only [step, hnext]
      obtain hbank | ⟨q, hbank⟩ := Option.eq_none_or_eq_some d.mcu.inBank
      · rw [(processIN_executes_free (hd.withPinC pinC) hbank).final]
        exact .answer pinC hnext hbank
      · have hbusy : d.mcu.inBank.isSome := by rw [hbank]; rfl
        rw [(processIN_executes_busy (m := { d.mcu with pinC := pinC }) hbusy).final]
        exact .busyIN pinC hnext hbusy
  | arrive p =>
    simp only [step]
    split
    next hbank => exact .accept p (by simpa using hbank)
    next hbank => exact .refuse p (by simpa [Option.isSome_iff_ne_none] using hbank)
  | poll => exact .poll

theorem Settled.step {d : Device chip} (hd : Settled d.mcu) (a : Action) :
    Settled (step d a).mcu := by
  have heffect := step_effect hd a
  generalize Firmware.step d a = d' at heffect ⊢
  cases heffect with
  | idleOUT | busyIN | poll => exact ⟨hd.line, hd.inst, hd.buffer, hd.inBytes, hd.unread⟩
  | serve pinC p hnext hbank => exact (hd.withPinC pinC).processed p
  | answer pinC hnext hbank => exact (hd.withPinC pinC).answered
  | accept p hbank =>
    refine ⟨hd.line, hd.inst, hd.buffer, hd.inBytes, ?_⟩
    rintro bank ⟨rfl⟩
    rfl
  | refuse => exact hd

theorem Mcu.trace_prefix_processed (m : Mcu chip) (p : Packet) :
    m.trace <+: (m.processed p).trace := by
  cases kind p with
  | empty => rw [processed_empty]; exact List.prefix_append ..
  | signature rest => rw [processed_signature]; exact List.prefix_append ..
  | read rest => rw [processed_read rfl]; exact List.prefix_append ..
  | write rest => rw [processed_write rfl]; exact List.prefix_append ..
  | erase rest => rw [processed_erase]; exact List.prefix_append ..
  | leds command rest h1 h2 h3 h4 =>
    rw [processed_leds h1 h2 h3 h4]; exact List.prefix_append ..

theorem Mcu.trace_prefix_answered (m : Mcu chip) : m.trace <+: m.answered.trace := by
  by_cases h2 : m.commandePC = 0x02
  · rw [answered_read h2]; exact List.prefix_append ..
  by_cases h1 : m.commandePC = 0x01
  · rw [answered_signature h1]; exact List.prefix_append ..
  rw [answered_buttons h1 h2]; exact List.prefix_append ..

/-- The trace only grows. -/
theorem trace_prefix_step {d : Device chip} (hd : Settled d.mcu) (a : Action) :
    d.mcu.trace <+: (step d a).mcu.trace := by
  have heffect := step_effect hd a
  generalize step d a = d' at heffect ⊢
  cases heffect with
  | idleOUT | busyIN | accept | refuse | poll => exact List.prefix_refl _
  | serve pinC p => exact Mcu.trace_prefix_processed { d.mcu with pinC } p
  | answer pinC => exact Mcu.trace_prefix_answered { d.mcu with pinC }

theorem trace_prefix_run {d : Device chip} (hd : Settled d.mcu) (as : List Action) :
    d.mcu.trace <+: (run step d as).mcu.trace := by
  induction as generalizing d with
  | nil => exact List.prefix_refl _
  | cons a as ih => exact (trace_prefix_step hd a).trans (ih (hd.step a))

/-! ## Power-on -/

theorem mainInit_executes (m : Mcu chip) :
    Executes mainInit m () { m with
      portB := (m.portB &&& 0x1F) ||| SPI_SS,
      target := (m.target.drive (ssHigh (m.portB &&& 0x1F))).drive
        (ssHigh ((m.portB &&& 0x1F) ||| SPI_SS)) } := by
  have hmask : ~~~((1 : UInt8) <<< 5 ||| (1 : UInt8) <<< 6 ||| (1 : UInt8) <<< 7) = 0x1F := by
    decide
  rw [← hmask]
  rfl

theorem powerOn_mcu (unspecified : ℕ → UInt8) (flash : Memory Word) :
    (powerOn unspecified flash : Device chip).mcu
      = { (reset unspecified flash : Mcu chip) with portB := 0x01 } := by
  have hfinal := (mainInit_executes (reset unspecified flash : Mcu chip)).final
  have hleds : ((0 : UInt8) &&& 0x1F) = 0 := by decide
  have hspi : ((0 : UInt8) ||| SPI_SS) = 0x01 := by decide
  have hlow : ssHigh 0 = false := by decide
  have hhigh : ssHigh 0x01 = true := by decide
  refine hfinal.trans ?_
  simp [reset, hleds, hspi, hlow, hhigh, Target.drive]

theorem settled_powerOn (unspecified : ℕ → UInt8) (flash : Memory Word) :
    Settled (powerOn unspecified flash : Device chip).mcu := by
  have hhigh : ssHigh 0x01 = true := by decide
  rw [powerOn_mcu]
  exact ⟨hhigh.symm, rfl, rfl, rfl, by rintro bank ⟨⟩⟩

theorem settled_run {d : Device chip} (hd : Settled d.mcu) (as : List Action) :
    Settled (run step d as).mcu :=
  run_invariant (I := fun d : Device chip => Settled d.mcu) (fun _ a h => h.step a) hd as

/-! ## Reading the trace -/

/-- The packets taken from the OUT bank, oldest first. -/
def received (trace : List Event) : List Packet :=
  trace.filterMap fun e => match e with
    | .received p => some p
    | _ => none

/-- The packets handed to the IN bank, oldest first. -/
def sent (trace : List Event) : List Packet :=
  trace.filterMap fun e => match e with
    | .sent q => some q
    | _ => none

section
variable (l l' : List Event) (p : Packet)

@[simp] theorem received_append : received (l ++ l') = received l ++ received l' :=
  List.filterMap_append

@[simp] theorem received_nil : received [] = [] := rfl

@[simp] theorem received_received : received (.received p :: l) = p :: received l := rfl

@[simp] theorem received_sent : received (.sent p :: l) = received l := rfl

@[simp] theorem received_leds (portB command : UInt8) :
    received (.leds portB command :: l) = received l := rfl

@[simp] theorem sent_append : sent (l ++ l') = sent l ++ sent l' := List.filterMap_append

@[simp] theorem sent_nil : sent [] = [] := rfl

@[simp] theorem sent_sent : sent (.sent p :: l) = p :: sent l := rfl

@[simp] theorem sent_received : sent (.received p :: l) = sent l := rfl

@[simp] theorem received_overruns (n : ℕ) :
    received (List.replicate n .overrun) = [] := by
  induction n with
  | zero => rfl
  | succ n ih => exact ih

end

theorem received_subset {l l' : List Event} (h : l <+: l') : received l ⊆ received l' :=
  (h.filterMap _).subset

/-- A session has no entry other than SPI and delay entries. -/
theorem filterMap_session {β : Type*} {f : Event → Option β} (portB command : UInt8)
    (a : UInt16) (before : List ℕ) (bytes : List UInt8) (after : List ℕ)
    (hon : ∀ portB command a, f (.spiON portB command a) = none)
    (hoff : ∀ portB, f (.spiOFF portB) = none) (hdelay : ∀ ms, f (.delayMs ms) = none)
    (htransfer : ∀ b, f (.spiTransfer b) = none) :
    (session portB command a before bytes after).filterMap f = [] := by
  simp [session, List.filterMap_map, hon, hoff, hdelay, htransfer]

@[simp] theorem received_session (portB command : UInt8) (a : UInt16) (before : List ℕ)
    (bytes : List UInt8) (after : List ℕ) :
    received (session portB command a before bytes after) = [] :=
  filterMap_session _ _ _ _ _ _ (fun _ _ _ => rfl) (fun _ => rfl) (fun _ => rfl) (fun _ => rfl)

@[simp] theorem sent_session (portB command : UInt8) (a : UInt16) (before : List ℕ)
    (bytes : List UInt8) (after : List ℕ) :
    sent (session portB command a before bytes after) = [] :=
  filterMap_session _ _ _ _ _ _ (fun _ _ _ => rfl) (fun _ => rfl) (fun _ => rfl) (fun _ => rfl)

/-! ## Packets accepted and packets processed -/

/-- The packet in the OUT bank. -/
def Device.pending (d : Device chip) : List Packet := (d.mcu.outBank.map OutBank.packet).toList

@[simp] theorem Mcu.received_processed (m : Mcu chip) (p : Packet) :
    received (m.processed p).trace = received m.trace ++ [p] := by
  cases kind p with
  | empty => simp [processed_empty]
  | signature rest => simp [processed_signature]
  | read rest => simp [processed_read]
  | write rest => simp [processed_write]
  | erase rest => simp [processed_erase]
  | leds command rest h1 h2 h3 h4 => simp [processed_leds h1 h2 h3 h4]

@[simp] theorem Mcu.outBank_processed (m : Mcu chip) (p : Packet) :
    (m.processed p).outBank = none := by
  cases kind p with
  | empty => simp [processed_empty]
  | signature rest => simp [processed_signature]
  | read rest => simp [processed_read]
  | write rest => simp [processed_write]
  | erase rest => simp [processed_erase]
  | leds command rest h1 h2 h3 h4 => simp [processed_leds h1 h2 h3 h4]

@[simp] theorem Mcu.received_answered (m : Mcu chip) :
    received m.answered.trace = received m.trace := by
  unfold answered; split_ifs <;> simp

@[simp] theorem Mcu.outBank_answered (m : Mcu chip) : m.answered.outBank = m.outBank := by
  unfold answered; split_ifs <;> rfl

/-- The packets processed and the one in the bank are the packets accepted, in order. -/
def Accounted (d : Device chip) : Prop := d.accepted = received d.mcu.trace ++ d.pending

theorem Accounted.step {d : Device chip} (hd : Settled d.mcu) (h : Accounted d) (a : Action) :
    Accounted (step d a) := by
  have heffect := step_effect hd a
  generalize Firmware.step d a = d' at heffect ⊢
  cases heffect with
  | idleOUT | busyIN | refuse | poll => exact h
  | serve pinC p hnext hbank => simpa [Accounted, Device.pending, hbank] using h
  | answer pinC => simpa [Accounted, Device.pending] using h
  | accept p hbank => simpa [Accounted, Device.pending, hbank] using h

theorem accounted_run {d : Device chip} (hd : Settled d.mcu) (h : Accounted d)
    (as : List Action) : Accounted (run step d as) :=
  (run_invariant (I := fun d : Device chip => Settled d.mcu ∧ Accounted d)
    (fun _ a h => ⟨h.1.step a, h.2.step h.1 a⟩) ⟨hd, h⟩ as).2

end Firmware
end AvrProgrammer
