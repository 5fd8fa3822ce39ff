import AvrProgrammer.Firmware.Integrity
import AvrProgrammer.Firmware.Sessions

/-!
# Requests and replies

A 0x01 or 0x02 packet is a request. It is open from the moment `ProcessOUT` has processed it
until `ProcessIN` sends the next packet, or another command comes first. The trace determines
the open request; the invariant says that `commande_PC` and `flash_address` always describe it,
and that every IN packet answers it, or is a button packet when none is open. What the
requests of a whole run get as answers is then read off the trace.

The sessions that program the flash are read off the trace as well: they are those of the
write and erase packets, in order.
-/

namespace AvrProgrammer
namespace Firmware

open PagedFlash Runs

variable {chip : Chip}

/-! ## Reading requests, replies and sessions off the trace -/

/-- A packet that asks for the signature or for a block. -/
def IsRequest (p : Packet) : Prop := p.head? = some 0x01 ∨ p.head? = some 0x02

instance (p : Packet) : Decidable (IsRequest p) := inferInstanceAs (Decidable (_ ∨ _))

/-- The length of the answer to a request: three bytes of signature or eight of flash. -/
def IsReply (p q : Packet) : Prop :=
  p.head? = some 0x01 ∧ q.length = 3 ∨ p.head? = some 0x02 ∧ q.length = 8

/-- The most recent non-empty packet processed. -/
def lastCommand (trace : List Event) : Option Packet :=
  ((received trace).filter (· ≠ [])).getLast?

/-- The entry of a non-empty packet. -/
def isCommand : Event → Bool
  | .received p => p ≠ []
  | _ => false

/-- The request that is open after one more entry. -/
def openStep (request : Option Packet) : Event → Option Packet
  | .received p => if p = [] then request else if IsRequest p then some p else none
  | .sent _ => none
  | _ => request

/-- The request that is open after a trace. -/
def openRequest (trace : List Event) : Option Packet := trace.foldl openStep none

/-- The bytes of the session being read and of the sessions before it. -/
def scan (s : List UInt8 × List (List UInt8)) : Event → List UInt8 × List (List UInt8)
  | .spiON .. => ([], s.2)
  | .spiTransfer b => (s.1 ++ [b], s.2)
  | .spiOFF _ => ([], s.2 ++ [s.1])
  | _ => s

/-- The bytes sent in each session of a trace. -/
def sessionBytes (trace : List Event) : List (List UInt8) := (trace.foldl scan ([], [])).2

/-- The four-byte instructions of a session. -/
def instructions : List UInt8 → List Instruction
  | opcode :: hi :: lo :: data :: rest => ⟨opcode, hi, lo, data⟩ :: instructions rest
  | _ => []

/-- A session with a page write or a chip erase. -/
def programs (bytes : List UInt8) : Bool :=
  (instructions bytes).any fun i => i.opcode = 0x4C ∨ i.opcode = 0xAC ∧ i.hi = 0x80

/-- The session a packet asks for, if it asks for the flash to be changed. -/
def programBytes (p : Packet) : Option (List UInt8) :=
  if p.head? = some 0x04 then some eraseBytes
  else if p.head? = some 0x03 then
    some (writeBytes (carriedAddress p) (p.getD 3 0) (p.getD 4 0))
  else none

/-! ## Entries of one handler -/

section
variable (l l' : List Event) (p q : Packet)

theorem openRequest_append : openRequest (l ++ l') = l'.foldl openStep (openRequest l) :=
  List.foldl_append

/-- A session or an overrun is no request and no reply. -/
theorem foldl_openStep_of_forall {l : List Event}
    (h : ∀ e ∈ l, ∀ request, openStep request e = request) (request : Option Packet) :
    l.foldl openStep request = request := by
  induction l with
  | nil => rfl
  | cons e l ih =>
    rw [List.foldl_cons, h e List.mem_cons_self, ih fun e he => h e (.tail _ he)]

@[simp] theorem foldl_openStep_session (portB command : UInt8) (a : UInt16) (before : List ℕ)
    (bytes : List UInt8) (after : List ℕ) (request : Option Packet) :
    (session portB command a before bytes after).foldl openStep request = request := by
  refine foldl_openStep_of_forall ?_ request
  simp [session, or_imp, forall_and, openStep]

@[simp] theorem foldl_openStep_overruns (n : ℕ) (request : Option Packet) :
    (List.replicate n Event.overrun).foldl openStep request = request :=
  foldl_openStep_of_forall (fun e he _ => by rw [List.eq_of_mem_replicate he]; rfl) request

/-- The open request is the last command. -/
theorem openRequest_eq_some {l : List Event} {p : Packet} (h : openRequest l = some p) :
    IsRequest p ∧ lastCommand l = some p := by
  induction l using List.reverseRecOn with
  | nil => cases h
  | append_singleton l e ih =>
    rw [openRequest_append, List.foldl_cons, List.foldl_nil] at h
    cases e with
    | received p' =>
      simp only [openStep] at h
      split_ifs at h with hempty hrequest
      · subst hempty
        simpa [lastCommand] using ih h
      · obtain rfl : p' = p := by simpa using h
        exact ⟨hrequest, by simp [lastCommand, hempty]⟩
    | sent q => cases h
    | spiON | spiOFF | delayMs | spiTransfer | leds | overrun =>
      simpa [lastCommand, received] using ih h

theorem foldl_scan_transfers (bytes : List UInt8) (s : List UInt8 × List (List UInt8)) :
    (bytes.map Event.spiTransfer).foldl scan s = (s.1 ++ bytes, s.2) := by
  induction bytes generalizing s with
  | nil => simp
  | cons b bytes ih => simp [scan, ih]

theorem foldl_scan_delays (delays : List ℕ) (s : List UInt8 × List (List UInt8)) :
    (delays.map Event.delayMs).foldl scan s = s := by
  induction delays with
  | nil => rfl
  | cons ms delays ih => exact ih

@[simp] theorem foldl_scan_session (portB command : UInt8) (a : UInt16) (before : List ℕ)
    (bytes : List UInt8) (after : List ℕ) (s : List UInt8 × List (List UInt8)) :
    (session portB command a before bytes after).foldl scan s = ([], s.2 ++ [bytes]) := by
  simp [session, List.foldl_append, foldl_scan_transfers, foldl_scan_delays, scan]

@[simp] theorem foldl_scan_overruns (n : ℕ) (s : List UInt8 × List (List UInt8)) :
    (List.replicate n Event.overrun).foldl scan s = s := by
  induction n with
  | zero => rfl
  | succ n ih => exact ih

end

theorem programs_erase : programs eraseBytes = true := by decide

theorem programs_write (a : UInt16) (lo hi : UInt8) : programs (writeBytes a lo hi) = true := by
  simp [programs, writeBytes, enable, instructions]

theorem programs_read (a : UInt16) : programs (readBytes a) = false := by
  simp [programs, readBytes, readWordBytes, enable, instructions]

theorem programs_signature : programs signatureBytes = false := by decide

/-! ## The invariant -/

/-- The packet that answers the request `p` after the packets `ps`, on a flash that was
`flash` at the start. -/
def replyTo (chip : Chip) (flash : Memory Word) (ps : List Packet) (p : Packet) : Packet :=
  let target : Target chip := .idle (ps.foldl (effect chip) flash)
  if p.head? = some 0x02 then target.block (carriedAddress p) else target.signature

/-- An IN packet answers the open request, or is a button packet when none is open. -/
def AnswerRule (chip : Chip) (flash : Memory Word) (past : List Event) : Event → Prop
  | .sent q => match openRequest past with
    | some p => q = replyTo chip flash (received past) p
    | none => q.length = 1
  | _ => True

/-- What `commande_PC`, `flash_address` and the trace have to do with each other. -/
structure RequestInv (flash : Memory Word) (m : Mcu chip) : Prop where
  idle : openRequest m.trace = none → m.commandePC ∉ [0x01, 0x02]
  pending : ∀ p, openRequest m.trace = some p →
    p.head? = some m.commandePC ∧ (m.commandePC = 0x02 → m.flashAddress = carriedAddress p)
  answers : History (AnswerRule chip flash) m.trace
  sessions : (sessionBytes m.trace).filter programs = (received m.trace).filterMap programBytes

/-- Entries that are no IN packets. -/
theorem answerRule_of_forall {flash : Memory Word} {l : List Event}
    (h : ∀ e ∈ l, ∀ q, e ≠ .sent q) (past : List Event) :
    Following (AnswerRule chip flash) past l := by
  refine following_of_forall (fun past e he => ?_) past
  cases e with
  | sent q => exact absurd rfl (h _ he q)
  | _ => trivial

section
variable {flash : Memory Word} {m : Mcu chip}

theorem carriedAddress_eq (m : Mcu chip) {p : Packet} (h : 3 ≤ p.length) :
    m.packetAddress p = carriedAddress p := by
  match p, h with
  | _ :: _ :: _ :: _, _ => rfl

theorem Mcu.byte_eq_getD (m : Mcu chip) {p : Packet} {k : ℕ} (h : k < p.length) :
    m.byte p k = p.getD k 0 := by
  rw [Mcu.byte, List.getD_eq_getElem p _ h, List.getD_eq_getElem p _ h]

theorem openRequest_processed (m : Mcu chip) (p : Packet) :
    openRequest (m.processed p).trace
      = if p = [] then openRequest m.trace else if IsRequest p then some p else none := by
  cases kind p with
  | empty => simp [Mcu.processed_empty, openRequest_append, openStep]
  | signature rest => simp [Mcu.processed_signature, openRequest_append, openStep]
  | read rest => simp [Mcu.processed_read, openRequest_append, openStep]
  | write rest => simp [Mcu.processed_write, openRequest_append, openStep]
  | erase rest => simp [Mcu.processed_erase, openRequest_append, openStep]
  | leds command rest h1 h2 h3 h4 =>
    simp [Mcu.processed_leds h1 h2 h3 h4, openRequest_append, openStep]

theorem commandePC_processed (m : Mcu chip) {p : Packet} (hp : p ≠ []) :
    p.head? = some (m.processed p).commandePC := by
  cases kind p with
  | empty => exact absurd rfl hp
  | signature rest => rw [Mcu.processed_signature]; rfl
  | read rest => rw [Mcu.processed_read rfl]; rfl
  | write rest => rw [Mcu.processed_write rfl]; rfl
  | erase rest => rw [Mcu.processed_erase]; rfl
  | leds command rest h1 h2 h3 h4 => rw [Mcu.processed_leds h1 h2 h3 h4]; rfl

theorem flashAddress_processed_read (m : Mcu chip) {rest : Packet}
    (hp : WellSized (0x02 :: rest)) :
    (m.processed (0x02 :: rest)).flashAddress = carriedAddress (0x02 :: rest) := by
  rw [Mcu.processed_read rfl]
  exact carriedAddress_eq m (wellSized_read.mp hp)

/-- `ProcessOUT` writes nothing to the IN bank. -/
theorem answers_processed (m : Mcu chip) (p : Packet)
    (h : History (AnswerRule chip flash) m.trace) :
    History (AnswerRule chip flash) (m.processed p).trace := by
  have hother {l : List Event} (hl : ∀ e ∈ l, ∀ q, e ≠ .sent q) :
      History (AnswerRule chip flash) (m.trace ++ l) :=
    history_append.mpr ⟨h, answerRule_of_forall hl _⟩
  cases kind p with
  | empty => rw [Mcu.processed_empty]; exact hother (by simp)
  | signature rest => rw [Mcu.processed_signature]; exact hother (by simp)
  | read rest => rw [Mcu.processed_read rfl]; exact hother (by simp [or_imp, forall_and])
  | write rest =>
    rw [Mcu.processed_write rfl]
    exact hother (by simp [session, or_imp, forall_and])
  | erase rest =>
    rw [Mcu.processed_erase]
    exact hother (by simp [session, or_imp, forall_and])
  | leds command rest h1 h2 h3 h4 =>
    rw [Mcu.processed_leds h1 h2 h3 h4]; exact hother (by simp)

/-- `ProcessOUT` opens the session the packet asks for. -/
theorem sessionBytes_processed (m : Mcu chip) {p : Packet} (hp : WellSized p) :
    sessionBytes (m.processed p).trace = sessionBytes m.trace ++ (programBytes p).toList := by
  cases kind p with
  | empty => simp [Mcu.processed_empty, sessionBytes, scan, programBytes]
  | signature rest => simp [Mcu.processed_signature, sessionBytes, scan, programBytes]
  | read rest => simp [Mcu.processed_read, sessionBytes, scan, programBytes]
  | write rest =>
    have hlen := wellSized_write.mp hp
    have hlow : m.byte (0x03 :: rest) 3 = (0x03 :: rest).getD 3 0 := m.byte_eq_getD (by omega)
    have hhigh : m.byte (0x03 :: rest) 4 = (0x03 :: rest).getD 4 0 := m.byte_eq_getD (by omega)
    have haddress := carriedAddress_eq m (p := 0x03 :: rest) (by omega)
    have hbytes : programBytes (0x03 :: rest) = some (writeBytes (m.packetAddress (0x03 :: rest))
        (m.byte (0x03 :: rest) 3) (m.byte (0x03 :: rest) 4)) := by
      rw [hlow, hhigh, haddress]; rfl
    rw [hbytes, Mcu.processed_write rfl]
    simp [sessionBytes, scan]
  | erase rest => simp [Mcu.processed_erase, sessionBytes, scan, programBytes]
  | leds command rest h1 h2 h3 h4 =>
    simp [Mcu.processed_leds h1 h2 h3 h4, sessionBytes, scan, programBytes, h3, h4]

theorem programs_programBytes {p : Packet} {bytes : List UInt8}
    (h : bytes ∈ programBytes p) : programs bytes = true := by
  unfold programBytes at h
  split_ifs at h
  · cases h; exact programs_erase
  · cases h; exact programs_write ..
  · cases h

theorem RequestInv.processed (h : RequestInv flash m) {p : Packet} (hp : WellSized p) :
    RequestInv flash (m.processed p) := by
  by_cases hempty : p = []
  · subst hempty
    refine ⟨?_, ?_, answers_processed m [] h.answers, ?_⟩
    · rw [openRequest_processed]
      exact h.idle
    · rw [openRequest_processed]
      exact h.pending
    · rw [sessionBytes_processed m hp, Mcu.received_processed, List.filter_append, h.sessions]
      simp [programBytes]
  have hcommand := commandePC_processed m hempty
  have hopen := openRequest_processed m p
  rw [if_neg hempty] at hopen
  refine ⟨?_, ?_, answers_processed m p h.answers, ?_⟩
  · intro hnone hmem
    have hrequest : IsRequest p := by simpa [IsRequest, hcommand] using hmem
    rw [hopen, if_pos hrequest] at hnone
    cases hnone
  · intro p' hp'
    rw [hopen] at hp'
    split_ifs at hp' with hrequest
    obtain rfl : p = p' := by simpa using hp'
    refine ⟨hcommand, fun hread => ?_⟩
    rw [hread] at hcommand
    obtain ⟨rest, rfl⟩ : ∃ rest, p = 0x02 :: rest := by
      cases p with
      | nil => cases hcommand
      | cons command rest => cases hcommand; exact ⟨rest, rfl⟩
    exact flashAddress_processed_read m hp
  · rw [sessionBytes_processed m hp, Mcu.received_processed, List.filter_append, h.sessions,
      List.filterMap_append]
    congr 1
    rw [List.filter_eq_self.mpr fun bytes hbytes =>
      programs_programBytes (Option.mem_toList.mp hbytes)]
    cases hprogram : programBytes p <;> simp [hprogram]

theorem openRequest_answered (m : Mcu chip) : openRequest m.answered.trace = none := by
  by_cases h2 : m.commandePC = 0x02
  · simp [Mcu.answered_read h2, openRequest_append, openStep]
  by_cases h1 : m.commandePC = 0x01
  · simp [Mcu.answered_signature h1, openRequest_append, openStep]
  simp [Mcu.answered_buttons h1 h2, openRequest_append, openStep]

theorem commandePC_answered (m : Mcu chip) : m.answered.commandePC ∉ [0x01, 0x02] := by
  by_cases h2 : m.commandePC = 0x02
  · simp [Mcu.answered_read h2]
  by_cases h1 : m.commandePC = 0x01
  · simp [Mcu.answered_signature h1]
  simp [Mcu.answered_buttons h1 h2, h1, h2]

/-- `ProcessIN` opens no session that changes the flash. -/
theorem sessionBytes_answered (m : Mcu chip) :
    (sessionBytes m.answered.trace).filter programs
      = (sessionBytes m.trace).filter programs := by
  by_cases h2 : m.commandePC = 0x02
  · simp [Mcu.answered_read h2, sessionBytes, scan, programs_read]
  by_cases h1 : m.commandePC = 0x01
  · simp [Mcu.answered_signature h1, sessionBytes, scan, programs_signature]
  simp [Mcu.answered_buttons h1 h2, sessionBytes, scan]

/-- `ProcessIN` answers the open request. -/
theorem answers_answered (h : RequestInv flash m)
    (hflash : m.target.flash = (received m.trace).foldl (effect chip) flash) :
    History (AnswerRule chip flash) m.answered.trace := by
  have hsession {portB command : UInt8} {a : UInt16} {bytes : List UInt8} {q : Packet}
      {p : Packet} (hopen : openRequest m.trace = some p)
      (hq : q = replyTo chip flash (received m.trace) p) :
      History (AnswerRule chip flash)
        (m.trace ++ (session portB command a [] bytes [] ++ [.sent q])) := by
    rw [history_append, following_append]
    refine ⟨h.answers, answerRule_of_forall (by simp [session, or_imp, forall_and]) _, ?_,
      trivial⟩
    simp only [AnswerRule, openRequest_append, foldl_openStep_session, hopen,
      received_append, received_session, List.append_nil, hq]
  by_cases h2 : m.commandePC = 0x02
  · obtain ⟨p, hopen⟩ : ∃ p, openRequest m.trace = some p :=
      Option.ne_none_iff_exists'.mp fun hnone => h.idle hnone (by simp [h2])
    obtain ⟨hhead, haddress⟩ := h.pending p hopen
    rw [Mcu.answered_read h2]
    refine hsession hopen ?_
    rw [replyTo, if_pos (by rw [hhead, h2]), ← hflash, haddress h2]
    rfl
  by_cases h1 : m.commandePC = 0x01
  · obtain ⟨p, hopen⟩ : ∃ p, openRequest m.trace = some p :=
      Option.ne_none_iff_exists'.mp fun hnone => h.idle hnone (by simp [h1])
    obtain ⟨hhead, -⟩ := h.pending p hopen
    rw [Mcu.answered_signature h1]
    refine hsession hopen ?_
    rw [replyTo, if_neg (by rw [hhead, h1]; decide)]
    rfl
  have hopen : openRequest m.trace = none := by
    by_contra hsome
    obtain ⟨p, hp⟩ := Option.ne_none_iff_exists'.mp hsome
    have hrequest := (openRequest_eq_some hp).1
    simp [IsRequest, (h.pending p hp).1, h1, h2] at hrequest
  rw [Mcu.answered_buttons h1 h2, history_append]
  refine ⟨h.answers, ?_, trivial⟩
  simp [AnswerRule, hopen]

theorem RequestInv.answered (h : RequestInv flash m)
    (hflash : m.target.flash = (received m.trace).foldl (effect chip) flash) :
    RequestInv flash m.answered := by
  refine ⟨fun _ => commandePC_answered m, ?_, answers_answered h hflash, ?_⟩
  · rw [openRequest_answered]
    exact nofun
  · rw [sessionBytes_answered, Mcu.received_answered]
    exact h.sessions

theorem RequestInv.step {d : Device chip} (hd : Settled d.mcu) (h : RequestInv flash d.mcu)
    (hflash : d.mcu.target.flash = (received d.mcu.trace).foldl (effect chip) flash)
    (hpending : ∀ p ∈ d.pending, WellSized p) (a : Action) :
    RequestInv flash (step d a).mcu := by
  have heffect := step_effect hd a
  generalize Firmware.step d a = d' at heffect ⊢
  cases heffect with
  | idleOUT | busyIN | accept | refuse | poll => exact ⟨h.idle, h.pending, h.answers, h.sessions⟩
  | serve pinC p hnext hbank =>
    exact RequestInv.processed (m := { d.mcu with pinC })
      ⟨h.idle, h.pending, h.answers, h.sessions⟩ (hpending p (by simp [Device.pending, hbank]))
  | answer pinC =>
    exact RequestInv.answered (m := { d.mcu with pinC })
      ⟨h.idle, h.pending, h.answers, h.sessions⟩ hflash

end

/-- All invariants of a run whose packets are well sized. -/
structure RunInv (flash : Memory Word) (d : Device chip) : Prop where
  settled : Settled d.mcu
  accounted : Accounted d
  wellSized : ∀ p ∈ d.accepted, WellSized p
  flashInv : FlashInv flash d.mcu
  requestInv : RequestInv flash d.mcu

theorem RunInv.step {flash : Memory Word} {d : Device chip} (h : RunInv flash d) {a : Action}
    (ha : ∀ p, a = .arrive p → WellSized p) : RunInv flash (step d a) := by
  have hpackets : (∀ p ∈ received d.mcu.trace, WellSized p) ∧ ∀ p ∈ d.pending, WellSized p := by
    rw [← List.forall_mem_append, ← h.accounted]
    exact h.wellSized
  refine ⟨h.settled.step a, h.accounted.step h.settled a, ?_, h.flashInv.step h.settled a,
    h.requestInv.step h.settled (h.flashInv.flash hpackets.1) hpackets.2 a⟩
  have heffect := step_effect h.settled a
  generalize Firmware.step d a = d' at heffect ⊢
  cases heffect with
  | idleOUT | serve | busyIN | answer | refuse | poll => exact h.wellSized
  | accept p =>
    rw [List.forall_mem_append, List.forall_mem_singleton]
    exact ⟨h.wellSized, ha p rfl⟩

theorem runInv_run (unspecified : ℕ → UInt8) (flash : Memory Word) {as : List Action}
    (has : ∀ p, .arrive p ∈ as → WellSized p) :
    RunInv flash (run Firmware.step (powerOn unspecified flash : Device chip) as) := by
  have hstart : RunInv flash (powerOn unspecified flash : Device chip) := by
    refine ⟨settled_powerOn .., rfl, by simp [powerOn], ?_, ?_⟩ <;> rw [powerOn_mcu]
    · exact ⟨by simp [reset], fun _ => rfl⟩
    · exact ⟨by simp [reset], fun p hopen => (by cases hopen), trivial, rfl⟩
  have halong : Along Firmware.step (fun _ a => ∀ p, a = .arrive p → WellSized p)
      (powerOn unspecified flash : Device chip) as := by
    refine along_of_forall ?_
    rintro _ ha p rfl
    exact has p ha
  exact halong.invariant (fun _ _ h ha => h.step ha) hstart

end Firmware
end AvrProgrammer
