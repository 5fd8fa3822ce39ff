import AvrProgrammer.Firmware.Pins

/-!
# How long the host waits

Neither handler waits for the host, and the main loop calls them in turn. So a packet the OUT
bank has accepted is executed at the latest by the second handler called after it, whatever the
host does meanwhile, and an IN bank that nobody empties is full by then. The LEDs show the last
LED command executed: the sessions of the other commands keep them.
-/

namespace AvrProgrammer
namespace Firmware

open PagedFlash Runs

variable {chip : Chip} {d : Device chip}

/-! ## The banks -/

/-- The main loop calls a handler. -/
def isHandler : Action → Bool
  | .firmware _ => true
  | _ => false

/-- The handlers to be called until the packet in the OUT bank is executed. -/
def dueOUT (d : Device chip) : ℕ :=
  if d.mcu.outBank.isSome then (if d.next = .dataOut then 1 else 2) else 0

/-- The handlers to be called until the IN bank is full. -/
def dueIN (d : Device chip) : ℕ :=
  if d.mcu.inBank.isNone then (if d.next = .dataIn then 1 else 2) else 0

/-- The packets `accepted` are executed, or will be when `n` handlers have been called. -/
def ExecutedIn (accepted : List Packet) (n : ℕ) (d : Device chip) : Prop :=
  accepted <+: received d.mcu.trace ∨
    accepted = received d.mcu.trace ++ d.pending ∧ dueOUT d ≤ n

/-- The IN bank is full, or will be when `n` handlers have been called. -/
def FullIn (n : ℕ) (d : Device chip) : Prop := dueIN d ≤ n

theorem Accounted.executedIn {n : ℕ} (h : Accounted d) (hn : 2 ≤ n) :
    ExecutedIn d.accepted n d := by
  refine .inr ⟨h, ?_⟩
  unfold dueOUT
  split_ifs <;> omega

theorem fullIn_of_two {n : ℕ} (d : Device chip) (hn : 2 ≤ n) : FullIn n d := by
  unfold FullIn dueIN
  split_ifs <;> omega

theorem dueOUT_eq_zero : dueOUT d = 0 ↔ d.mcu.outBank = none := by
  unfold dueOUT
  split_ifs with hbank hnext
  · simp [Option.isSome_iff_ne_none.mp hbank]
  · simp [Option.isSome_iff_ne_none.mp hbank]
  · simpa [Option.isSome_iff_ne_none] using hbank

theorem dueOUT_of_none (hbank : d.mcu.outBank = none) : dueOUT d = 0 := dueOUT_eq_zero.mpr hbank

/-- Every handler counts. -/
theorem dueOUT_firmware (hd : Settled d.mcu) (pinC : UInt8) :
    dueOUT (step d (.firmware pinC)) = dueOUT d - 1 := by
  have heffect := step_effect hd (.firmware pinC)
  generalize Firmware.step d (.firmware pinC) = d' at heffect ⊢
  cases heffect with
  | idleOUT _ hnext hbank =>
    rw [dueOUT_of_none (d := d) hbank]
    exact dueOUT_of_none hbank
  | serve _ p hnext hbank =>
    rw [dueOUT_of_none (Mcu.outBank_processed ..), dueOUT, if_pos hnext]
    split_ifs <;> rfl
  | busyIN _ hnext =>
    unfold dueOUT
    rw [hnext]
    split_ifs <;> first | rfl | contradiction
  | answer _ hnext =>
    unfold dueOUT
    rw [hnext, Mcu.outBank_answered]
    split_ifs <;> first | rfl | contradiction

/-- Whatever happens, a handler call brings the packets nearer to their execution. -/
theorem ExecutedIn.step {accepted : List Packet} {n : ℕ} (hd : Settled d.mcu) {a : Action}
    (h : ExecutedIn accepted (n + if isHandler a then 1 else 0) d) :
    ExecutedIn accepted n (step d a) := by
  have heffect := step_effect hd a
  have hgrows := trace_prefix_step hd a
  rcases h with hdone | ⟨haccepted, hdue⟩
  · exact .inl (hdone.trans (hgrows.filterMap _))
  cases a with
  | firmware pinC =>
    have hcounts := dueOUT_firmware hd pinC
    have hturn : dueOUT d ≤ n + 1 := hdue
    have hlater : dueOUT (Firmware.step d (.firmware pinC)) ≤ n := by omega
    generalize Firmware.step d (.firmware pinC) = d' at heffect hlater ⊢
    cases heffect with
    | idleOUT | busyIN => exact .inr ⟨haccepted, hlater⟩
    | answer =>
      refine .inr ⟨?_, hlater⟩
      rw [haccepted, Mcu.received_answered]
      simp [Device.pending]
    | serve _ p hnext hbank =>
      -- the packet that was accepted last is executed
      left
      rw [haccepted, Mcu.received_processed, Device.pending, hbank]
      exact List.prefix_refl _
  | arrive p =>
    generalize Firmware.step d (.arrive p) = d' at heffect ⊢
    cases heffect with
    | accept _ hbank =>
      left
      simp [haccepted, Device.pending, hbank]
    | refuse => exact .inr ⟨haccepted, hdue⟩
  | poll => exact .inr ⟨haccepted, hdue⟩

/-- A handler call brings the packet of the IN bank nearer, unless the host takes it. -/
theorem FullIn.step {n : ℕ} (hd : Settled d.mcu) {a : Action} (ha : a ≠ .poll)
    (h : FullIn (n + if isHandler a then 1 else 0) d) : FullIn n (step d a) := by
  have heffect := step_effect hd a
  generalize Firmware.step d a = d' at heffect ⊢
  unfold FullIn dueIN at h ⊢
  cases heffect with
  | idleOUT _ hnext =>
    rw [hnext] at h
    split_ifs at h ⊢ with hbank <;> simp_all [isHandler]
  | serve pinC p hnext =>
    rw [hnext] at h
    rw [Mcu.inBank_processed]
    split_ifs at h ⊢ with hbank <;> simp_all [isHandler]
  | busyIN _ _ hbank =>
    rw [if_neg (by simpa [Option.isSome_iff_ne_none] using hbank)]
    exact Nat.zero_le n
  | answer =>
    rw [if_neg (by unfold Mcu.answered; split_ifs <;> simp)]
    exact Nat.zero_le n
  | accept | refuse => exact h
  | poll => exact absurd rfl ha

/-- A run with enough handler calls. -/
theorem executed_run {accepted : List Packet} (hd : Settled d.mcu) {as : List Action}
    (h : ExecutedIn accepted (as.countP isHandler) d) :
    accepted <+: received (run step d as).mcu.trace := by
  induction as generalizing d with
  | nil =>
    rcases h with hdone | ⟨haccepted, hdue⟩
    · exact hdone
    · have hbank : d.mcu.outBank = none := dueOUT_eq_zero.mp (Nat.le_zero.mp hdue)
      simp [haccepted, Device.pending, hbank]
  | cons a as ih =>
    rw [List.countP_cons] at h
    exact ih (hd.step a) (h.step hd)

theorem full_run (hd : Settled d.mcu) {as : List Action} (has : ∀ a ∈ as, a ≠ .poll)
    (h : FullIn (as.countP isHandler) d) : (run step d as).mcu.inBank.isSome := by
  induction as generalizing d with
  | nil =>
    cases hbank : d.mcu.inBank with
    | some q => rw [run_nil, hbank]; rfl
    | none =>
      rw [FullIn, dueIN, hbank] at h
      simp at h
      split_ifs at h
  | cons a as ih =>
    rw [List.countP_cons] at h
    exact ih (hd.step a) (fun b hb => has b (.tail _ hb)) (h.step hd (has a List.mem_cons_self))

/-! ## The LEDs -/

/-- The byte a packet stores in port B. -/
def ledCommand : Packet → Option UInt8
  | [] => none
  | command :: _ => if command ∈ [0x01, 0x02, 0x03, 0x04] then none else some command

/-- What executing a packet does to port B. -/
def portAfter (portB : UInt8) (p : Packet) : UInt8 :=
  if p.head? = some 0x03 ∨ p.head? = some 0x04 then portB ||| SPI_SS
  else (ledCommand p).getD portB

theorem Mcu.portB_processed (m : Mcu chip) (p : Packet) :
    (m.processed p).portB = portAfter m.portB p := by
  cases kind p with
  | empty | signature rest => rfl
  | read rest => rw [processed_read rfl]; rfl
  | write rest => rw [processed_write rfl]; rfl
  | erase rest => rw [processed_erase]; rfl
  | leds command rest h1 h2 h3 h4 =>
    rw [processed_leds h1 h2 h3 h4]
    simp [portAfter, ledCommand, h1, h2, h3, h4]

/-- A session leaves the pins other than RESET as they were. -/
theorem pins_or_ss (portB : UInt8) : (portB ||| SPI_SS) &&& 0xFE = portB &&& 0xFE := by
  revert portB; decide +kernel

theorem pins_portAfter (portB : UInt8) (p : Packet) :
    portAfter portB p &&& 0xFE = (ledCommand p).getD portB &&& 0xFE := by
  unfold portAfter
  split_ifs with hsession
  · have hnone : ledCommand p = none := by
      cases p with
      | nil => rfl
      | cons command rest =>
        have hcommand : command = 0x03 ∨ command = 0x04 := by simpa using hsession
        rw [ledCommand, if_pos]
        rcases hcommand with rfl | rfl <;> decide
    rw [hnone, pins_or_ss]
    rfl
  · rfl

theorem Mcu.pins_answered (m : Mcu chip) : m.answered.portB &&& 0xFE = m.portB &&& 0xFE := by
  unfold answered
  split_ifs
  · exact pins_or_ss _
  · exact pins_or_ss _
  · rfl

/-- PB1 to PB7 are those of the LED command executed last. -/
def ShowsLast (portB : UInt8) (packets : List Packet) : Prop :=
  portB &&& 0xFE = (latest ledCommand packets).getD 0 &&& 0xFE

theorem latest_append_singleton (packets : List Packet) (p : Packet) :
    latest ledCommand (packets ++ [p]) = (ledCommand p).or (latest ledCommand packets) := by
  unfold latest
  cases hp : ledCommand p with
  | none => simp [List.filterMap_append, hp]
  | some command => simp [List.filterMap_append, hp]

theorem showsLast_step (hd : Settled d.mcu) (h : ShowsLast d.mcu.portB (received d.mcu.trace))
    (a : Action) : ShowsLast (step d a).mcu.portB (received (step d a).mcu.trace) := by
  have heffect := step_effect hd a
  generalize Firmware.step d a = d' at heffect ⊢
  cases heffect with
  | idleOUT | busyIN | accept | refuse | poll => exact h
  | serve pinC p =>
    unfold ShowsLast at h ⊢
    rw [Mcu.received_processed, latest_append_singleton, Mcu.portB_processed, pins_portAfter]
    cases ledCommand p with
    | none => exact h
    | some command => rfl
  | answer pinC =>
    unfold ShowsLast at h ⊢
    rw [Mcu.received_answered, Mcu.pins_answered]
    exact h

/-! ## Main results -/

/-- From power-on, every packet accepted is executed, in order, at the latest by the second
handler called afterwards, whatever the host does; and if the host does not poll, the IN bank is
full by then. -/
theorem served_within_two (unspecified : ℕ → UInt8) (flash : Memory Word) (pre post : List Action)
    (hpost : 2 ≤ post.countP isHandler) :
    let d : Device chip := run step (powerOn unspecified flash) pre
    d.accepted <+: received (run step d post).mcu.trace ∧
      ((∀ a ∈ post, a ≠ .poll) → (run step d post).mcu.inBank.isSome) := by
  intro d
  have hsettled : Settled d.mcu := settled_run (settled_powerOn unspecified flash) pre
  have haccounted : Accounted d := accounted_run (settled_powerOn unspecified flash) rfl pre
  exact ⟨executed_run hsettled (haccounted.executedIn hpost),
    fun has => full_run hsettled has (fullIn_of_two d hpost)⟩

/-- From power-on, PB1 to PB7 are always those of the LED command executed last, however many
SPI sessions came after it. -/
theorem leds_show_last (unspecified : ℕ → UInt8) (flash : Memory Word) (as : List Action) :
    let d : Device chip := run step (powerOn unspecified flash) as
    ShowsLast d.mcu.portB (received d.mcu.trace) := by
  have hstart : ShowsLast (powerOn unspecified flash : Device chip).mcu.portB
      (received (powerOn unspecified flash : Device chip).mcu.trace) := by
    rw [powerOn_mcu]
    show (0x01 : UInt8) &&& 0xFE = 0 &&& 0xFE
    decide
  exact (run_invariant (I := fun d : Device chip =>
      Settled d.mcu ∧ ShowsLast d.mcu.portB (received d.mcu.trace))
    (fun _ a h => ⟨h.1.step a, showsLast_step h.1 h.2 a⟩)
    ⟨settled_powerOn unspecified flash, hstart⟩ as).2

/-- The erase command is executed in the first turn. -/
theorem served_within_two_erase :
    let d : Device atmega328p := run step (powerOn (fun _ => 0) fun _ => ⟨0, 0⟩) [.arrive [0x04]]
    d.accepted <+: received (run step d [.firmware 0, .firmware 0]).mcu.trace ∧
      (run step d [.firmware 0, .firmware 0]).mcu.inBank.isSome := by
  obtain ⟨hexecuted, hfull⟩ := @served_within_two atmega328p (fun _ => 0) (fun _ => ⟨0, 0⟩)
    [.arrive [0x04]] [.firmware 0, .firmware 0] (by decide)
  exact ⟨hexecuted, hfull (by decide)⟩

end Firmware
end AvrProgrammer
