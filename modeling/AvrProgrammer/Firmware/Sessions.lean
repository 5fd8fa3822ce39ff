import AvrProgrammer.Firmware.MainLoop
import Mathlib.Data.List.Chain

/-!
# The grammar of the SPI traffic

The trace, restricted to its SPI and delay entries, is a sequence of sessions: `spi_ON`, a
wake-up delay, programming enable, whole instructions whose addresses are those of the command
being served, a delay if one of them programs the flash, and `spi_OFF`. `ProcessOUT` keeps to
this grammar. The two sessions of `ProcessIN` keep to it except that they send their first byte
without the wake-up delay, so a run keeps to it exactly if `ProcessIN` never opens a session.
-/

namespace AvrProgrammer
namespace Firmware

open PagedFlash Runs

variable {chip : Chip}

/-! ## The grammar -/

/-- An instruction of four bytes. -/
structure Instruction where
  opcode : UInt8
  hi : UInt8
  lo : UInt8
  data : UInt8

def Instruction.bytes (i : Instruction) : List UInt8 := [i.opcode, i.hi, i.lo, i.data]

/-- Page write and chip erase change the flash and need time. -/
def Instruction.Programs (i : Instruction) : Prop := i.opcode = 0x4C ∨ i.opcode = 0xAC

/-- The instructions allowed while the command at the word address `a` is served: signature
read, flash read, page load, page write and chip erase. The `n`-th read of a low byte, and the
`n`-th of a high byte, is at `a + n`. -/
def InstructionRule (a : UInt16) (past : List Instruction) (i : Instruction) : Prop :=
  i.opcode = 0x30 ∨
  i.opcode ∈ [0x20, 0x28] ∧
    address i.hi i.lo = a + UInt16.ofNat (past.countP fun j => j.opcode = i.opcode) ∨
  i.opcode ∈ [0x40, 0x48, 0x4C] ∧ address i.hi i.lo = a ∨
  i.opcode = 0xAC ∧ i.hi = 0x80

/-- A session, read from the trace. -/
structure Session where
  portB : UInt8
  command : UInt8
  flashAddress : UInt16
  wake : List ℕ
  instructions : List Instruction
  after : List ℕ

def Session.events (s : Session) : List Event :=
  session s.portB s.command s.flashAddress s.wake
    (enable ++ s.instructions.flatMap Instruction.bytes) s.after

/-- The instructions follow the rule, and a session that programs waits before `spi_OFF`. -/
structure Session.Valid (s : Session) : Prop where
  instructions : History (InstructionRule s.flashAddress) s.instructions
  after : (∃ i ∈ s.instructions, i.Programs) → s.after ≠ []

def isSpi : Event → Bool
  | .spiON .. | .spiOFF _ | .delayMs _ | .spiTransfer _ => true
  | _ => false

/-- The SPI traffic of a trace is a sequence of valid sessions whose delays before the first
byte satisfy `W`. -/
def Grammar (W : List ℕ → Prop) (trace : List Event) : Prop :=
  ∃ sessions : List Session, trace.filter isSpi = sessions.flatMap Session.events ∧
    ∀ s ∈ sessions, s.Valid ∧ W s.wake

/-- One wake-up delay of at least the 5 ms of the write path. -/
def WakeUp (wake : List ℕ) : Prop := ∃ ms, wake = [ms] ∧ 5 ≤ ms

/-- The grammar with the wake-up delay. -/
def SessionGrammar (trace : List Event) : Prop := Grammar WakeUp trace

section
variable {W : List ℕ → Prop} {l l' : List Event}

theorem Grammar.append_other (h : Grammar W l) (hl' : l'.filter isSpi = []) :
    Grammar W (l ++ l') := by
  obtain ⟨sessions, hevents, hvalid⟩ := h
  exact ⟨sessions, by rw [List.filter_append, hl', List.append_nil, hevents], hvalid⟩

theorem Grammar.append_session (h : Grammar W l) {s : Session} (hs : s.Valid) (hW : W s.wake)
    (hl' : l'.filter isSpi = s.events) : Grammar W (l ++ l') := by
  obtain ⟨sessions, hevents, hvalid⟩ := h
  refine ⟨sessions ++ [s], ?_, ?_⟩
  · rw [List.filter_append, hl', hevents, List.flatMap_append, List.flatMap_singleton]
  · rw [List.forall_mem_append, List.forall_mem_singleton]
    exact ⟨hvalid, hs, hW⟩

end

@[simp] theorem filter_isSpi_session (portB command : UInt8) (a : UInt16) (before : List ℕ)
    (bytes : List UInt8) (after : List ℕ) :
    (session portB command a before bytes after).filter isSpi
      = session portB command a before bytes after := by
  rw [List.filter_eq_self]
  simp [session, isSpi, or_imp, forall_and]

@[simp] theorem filter_isSpi_overruns (n : ℕ) :
    (List.replicate n Event.overrun).filter isSpi = [] := by
  simp [isSpi]

/-! ## The sessions of the firmware -/

/-- The word write. -/
def writeInstructions (a : UInt16) (lo hi : UInt8) : List Instruction :=
  [⟨0x40, highByte a, lowByte a, lo⟩, ⟨0x48, highByte a, lowByte a, hi⟩,
    ⟨0x4C, highByte a, lowByte a, 0x00⟩]

/-- The chip erase. -/
def eraseInstructions : List Instruction := [⟨0xAC, 0x80, 0x00, 0x00⟩]

/-- The block read. -/
def readInstructions (a : UInt16) : List Instruction :=
  [0, 1, 2, 3].flatMap fun i =>
    [⟨0x20, highByte (a + i), lowByte (a + i), 0x00⟩,
      ⟨0x28, highByte (a + i), lowByte (a + i), 0x00⟩]

/-- The signature read. -/
def signatureInstructions : List Instruction :=
  [⟨0x30, 0x00, 0x00, 0x00⟩, ⟨0x30, 0x00, 0x01, 0x00⟩, ⟨0x30, 0x00, 0x02, 0x00⟩]

theorem valid_write (portB : UInt8) (a : UInt16) (lo hi : UInt8) :
    Session.Valid ⟨portB, 0x03, a, [5], writeInstructions a lo hi, [5]⟩ := by
  refine ⟨?_, fun _ => by simp⟩
  simp [writeInstructions, History, InstructionRule]

theorem valid_erase (portB : UInt8) (a : UInt16) :
    Session.Valid ⟨portB, 0x04, a, [5], eraseInstructions, [5]⟩ := by
  refine ⟨?_, fun _ => by simp⟩
  simp [eraseInstructions, History, InstructionRule]

theorem valid_read (portB : UInt8) (a : UInt16) :
    Session.Valid ⟨portB, 0x02, a, [], readInstructions a, []⟩ := by
  constructor
  · simp [readInstructions, History, InstructionRule]
  · simp [readInstructions, Instruction.Programs]

theorem valid_signature (portB : UInt8) (a : UInt16) :
    Session.Valid ⟨portB, 0x01, a, [], signatureInstructions, []⟩ := by
  constructor
  · simp [signatureInstructions, History, InstructionRule]
  · simp [signatureInstructions, Instruction.Programs]

theorem events_write (portB : UInt8) (a : UInt16) (lo hi : UInt8) :
    Session.events ⟨portB, 0x03, a, [5], writeInstructions a lo hi, [5]⟩
      = writeSession portB a lo hi := rfl

theorem events_erase (portB : UInt8) (a : UInt16) :
    Session.events ⟨portB, 0x04, a, [5], eraseInstructions, [5]⟩ = eraseSession portB a := rfl

theorem events_read (portB : UInt8) (a : UInt16) :
    Session.events ⟨portB, 0x02, a, [], readInstructions a, []⟩ = readSession portB a := rfl

theorem events_signature (portB : UInt8) (a : UInt16) :
    Session.events ⟨portB, 0x01, a, [], signatureInstructions, []⟩
      = signatureSession portB a := rfl

/-! ## The handlers -/

theorem Grammar.processed {W : List ℕ → Prop} {m : Mcu chip} (hW : W [5])
    (h : Grammar W m.trace) (p : Packet) : Grammar W (m.processed p).trace := by
  cases kind p with
  | empty => rw [Mcu.processed_empty]; exact h.append_other rfl
  | signature rest => rw [Mcu.processed_signature]; exact h.append_other rfl
  | read rest => rw [Mcu.processed_read rfl]; exact h.append_other (by simp [isSpi])
  | write rest =>
    rw [Mcu.processed_write rfl]
    refine h.append_session (valid_write m.portB (m.packetAddress (0x03 :: rest))
      (m.byte (0x03 :: rest) 3) (m.byte (0x03 :: rest) 4)) hW ?_
    rw [events_write]
    simp [isSpi]
  | erase rest =>
    rw [Mcu.processed_erase]
    refine h.append_session (valid_erase m.portB m.flashAddress) hW ?_
    rw [events_erase]
    simp [isSpi]
  | leds command rest h1 h2 h3 h4 =>
    rw [Mcu.processed_leds h1 h2 h3 h4]; exact h.append_other rfl

theorem Grammar.answered {W : List ℕ → Prop} {m : Mcu chip}
    (hW : m.commandePC ∈ [0x01, 0x02] → W []) (h : Grammar W m.trace) :
    Grammar W m.answered.trace := by
  by_cases h2 : m.commandePC = 0x02
  · rw [Mcu.answered_read h2]
    refine h.append_session (valid_read m.portB m.flashAddress) (hW (by simp [h2])) ?_
    rw [events_read]
    simp [isSpi]
  by_cases h1 : m.commandePC = 0x01
  · rw [Mcu.answered_signature h1]
    refine h.append_session (valid_signature m.portB m.flashAddress) (hW (by simp [h1])) ?_
    rw [events_signature]
    simp [isSpi]
  rw [Mcu.answered_buttons h1 h2]
  exact h.append_other rfl

/-- `ProcessIN` is called while the IN bank is free and a read or signature request is
pending. -/
def OpensReadSession (d : Device chip) : Action → Prop
  | .firmware _ => d.next = .dataIn ∧ d.mcu.inBank = none ∧ d.mcu.commandePC ∈ [0x01, 0x02]
  | _ => False

theorem Grammar.step {W : List ℕ → Prop} (hW : W [5]) {d : Device chip}
    (hd : Settled d.mcu) (h : Grammar W d.mcu.trace) {a : Action}
    (ha : OpensReadSession d a → W []) : Grammar W (step d a).mcu.trace := by
  have heffect := step_effect hd a
  generalize Firmware.step d a = d' at heffect ⊢
  cases heffect with
  | idleOUT | busyIN | accept | refuse | poll => exact h
  | serve pinC p => exact Grammar.processed (m := { d.mcu with pinC }) hW h p
  | answer pinC hnext hbank =>
    exact Grammar.answered (m := { d.mcu with pinC }) (fun hc => ha ⟨hnext, hbank, hc⟩) h

/-- A run keeps to the grammar for every `W` that its sessions satisfy. -/
theorem Along.grammar {W : List ℕ → Prop} (hW : W [5]) {unspecified : ℕ → UInt8}
    {flash : Memory Word} {as : List Action}
    (h : Along step (fun d a => OpensReadSession d a → W [])
      (powerOn unspecified flash : Device chip) as) :
    Grammar W (run step (powerOn unspecified flash : Device chip) as).mcu.trace := by
  have hstart : Grammar W (powerOn unspecified flash : Device chip).mcu.trace := by
    rw [powerOn_mcu]
    exact ⟨[], rfl, by simp⟩
  exact (h.invariant (I := fun d : Device chip => Settled d.mcu ∧ Grammar W d.mcu.trace)
    (fun _ a hd ha => ⟨hd.1.step a, hd.2.step hW hd.1 ha⟩)
    ⟨settled_powerOn unspecified flash, hstart⟩).2

/-! ## Sessions without wake-up delay -/

/-- `spi_ON` is followed by a delay. -/
def Wakes (e e' : Event) : Prop :=
  ∀ portB command a, e = .spiON portB command a → ∃ ms, e' = .delayMs ms

theorem isChain_wakes_of_forall {l : List Event}
    (h : ∀ e ∈ l, ∀ portB command a, e ≠ .spiON portB command a) : l.IsChain Wakes :=
  (List.pairwise_of_forall_mem_list fun e he _ _ portB command a heq =>
    absurd heq (h e he portB command a)).isChain

/-- In a session with wake-up delay, `spi_ON` is followed by it. -/
theorem isChain_session {s : Session} (h : WakeUp s.wake) : s.events.IsChain Wakes := by
  obtain ⟨ms, hwake, -⟩ := h
  simp only [Session.events, session, hwake, List.map_cons, List.map_nil, List.cons_append,
    List.nil_append, List.isChain_cons_cons]
  refine ⟨fun _ _ _ _ => ⟨ms, rfl⟩, isChain_wakes_of_forall ?_⟩
  simp only [List.mem_cons, List.mem_append, List.mem_map, List.not_mem_nil, or_false]
  rintro e (rfl | ((⟨b, _, rfl⟩ | ⟨ms, _, rfl⟩) | rfl)) <;> simp

theorem SessionGrammar.isChain {trace : List Event} (h : SessionGrammar trace) :
    (trace.filter isSpi).IsChain Wakes := by
  obtain ⟨sessions, hevents, hvalid⟩ := h
  have hne : [] ∉ sessions.map Session.events := by simp [Session.events, session]
  rw [hevents, List.flatMap_def, List.isChain_flatten hne]
  constructor
  · simpa using fun s hs => isChain_session (hvalid s hs).2
  · -- a session ends with `spi_OFF`
    refine (List.pairwise_of_forall_mem_list ?_).isChain
    simp only [List.mem_map, forall_exists_index, and_imp, forall_apply_eq_imp_iff₂]
    intro s _ t _ e he e' _ portB command a heq
    rw [Session.events, session, List.getLast?_concat, heq] at he
    cases he

/-- A session of `ProcessIN` sends its first byte right after `spi_ON`. -/
theorem spiON_infix_answered {m : Mcu chip} (h : m.commandePC ∈ [0x01, 0x02]) :
    [.spiON m.portB m.commandePC m.flashAddress, .spiTransfer 0xAC]
      <:+: m.answered.trace.filter isSpi := by
  have hsession (bytes : List UInt8) (l : List Event) :
      [.spiON m.portB m.commandePC m.flashAddress, .spiTransfer 0xAC]
        <:+: (m.trace ++ (session m.portB m.commandePC m.flashAddress [] (enable ++ bytes) []
          ++ l)).filter isSpi := by
    refine ⟨m.trace.filter isSpi, (session m.portB m.commandePC m.flashAddress []
      (enable ++ bytes) []).drop 2 ++ l.filter isSpi, ?_⟩
    rw [List.filter_append, List.filter_append, filter_isSpi_session]
    simp [session, enable]
  have h : m.commandePC = 0x01 ∨ m.commandePC = 0x02 := by simpa using h
  rcases h with h1 | h2
  · rw [Mcu.answered_signature h1, signatureSession, ← h1]
    exact hsession ..
  · rw [Mcu.answered_read h2, readSession, ← h2]
    exact hsession ..

/-- A run in which `ProcessIN` opens a session does not keep to the grammar. -/
theorem not_sessionGrammar {d : Device chip} (hd : Settled d.mcu) {a : Action}
    (ha : OpensReadSession d a) {trace : List Event}
    (htrace : (step d a).mcu.trace <+: trace) : ¬ SessionGrammar trace := by
  intro hgrammar
  have hinfix : [.spiON d.mcu.portB d.mcu.commandePC d.mcu.flashAddress, .spiTransfer 0xAC]
      <:+: trace.filter isSpi := by
    refine List.IsInfix.trans ?_ (htrace.filter isSpi).isInfix
    have heffect := step_effect hd a
    generalize Firmware.step d a = d' at heffect ⊢
    cases heffect with
    | answer pinC hnext hbank =>
      exact spiON_infix_answered (m := { d.mcu with pinC }) ha.2.2
    | idleOUT | serve | busyIN | accept | refuse | poll =>
      simp_all [OpensReadSession]
  have hchain := List.IsChain.infix hgrammar.isChain hinfix
  obtain ⟨hwakes, -⟩ := List.isChain_cons_cons.mp hchain
  obtain ⟨ms, hms⟩ := hwakes _ _ _ rfl
  cases hms

/-! ## Main result -/

/-- From power-on, the SPI traffic keeps to the grammar exactly in the runs in which
`ProcessIN` is never called with its bank free while a read or signature request is pending. -/
theorem sessionGrammar_iff (unspecified : ℕ → UInt8) (flash : Memory Word)
    (as : List Action) :
    SessionGrammar (run step (powerOn unspecified flash : Device chip) as).mcu.trace ↔
      Along step (fun d a => ¬ OpensReadSession d a)
        (powerOn unspecified flash : Device chip) as := by
  constructor
  · intro hgrammar
    by_contra hviolated
    obtain ⟨pre, a, post, rfl, -, ha⟩ := exists_first_violation hviolated
    have hpre := settled_run (@settled_powerOn chip unspecified flash) pre
    refine not_sessionGrammar hpre (not_not.mp ha) ?_ hgrammar
    rw [run_append, run_cons]
    exact trace_prefix_run (hpre.step a) post
  · exact fun h => Along.grammar ⟨5, rfl, Nat.le_refl 5⟩
      (h.mono fun _ _ hno hopens => absurd hopens hno)

/-- A read request and the turn of the main loop that answers it. -/
theorem read_session_lacks_wakeUp :
    ¬ SessionGrammar (run step (powerOn (fun _ => 0) erase : Device atmega328p)
      [.arrive [0x02, 0x00, 0x00], .firmware 0, .firmware 0]).mcu.trace := by
  intro hgrammar
  have hfirst : ((run step (powerOn (fun _ => 0) erase : Device atmega328p)
      [.arrive [0x02, 0x00, 0x00], .firmware 0, .firmware 0]).mcu.trace.filter isSpi).take 2
      = [.spiON 0x01 0x02 0x0000, .spiTransfer 0xAC] := by decide +kernel
  have hchain := List.IsChain.infix hgrammar.isChain (List.take_prefix 2 _).isInfix
  rw [hfirst] at hchain
  obtain ⟨ms, hms⟩ := (List.isChain_cons_cons.mp hchain).1 _ _ _ rfl
  cases hms

end Firmware
end AvrProgrammer
