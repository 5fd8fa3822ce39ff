import AvrProgrammer.System.Write
import AvrProgrammer.System.Discard
import AvrProgrammer.Firmware.Requests
import AvrProgrammer.Library.Simulation

/-!
# The programmer as a sequential server

What the programmer is for, without banks, main loop and buttons: a `Server` executes one
packet after the other and owes at most one reply, which is computed from the flash at the time
of the request. A host program that does not send while it is owed a reply cannot tell the
device from the server: `refines_server`. It holds for any program, so that the behaviour of
each program with the device follows from its behaviour with the server.

A transfer may have to wait for the main loop. `weight` says how long, and `Refines.step` that
every action shortens the wait or leaves it to the other party.
-/

namespace AvrProgrammer
namespace System

open PagedFlash Runs Firmware Software

variable {σ : Type} {chip : Chip}

/-! ## The server -/

/-- The flash, and the reply that is owed to the host. -/
@[ext] structure Server where
  flash : Memory Word
  owed : Option Packet

/-- The reply to a request. -/
def reply (chip : Chip) (flash : Memory Word) (p : Packet) : Packet := replyTo chip flash [] p

/-- The server executes a packet. -/
def Server.accept (chip : Chip) (v : Server) (p : Packet) : Server where
  flash := effect chip v.flash p
  owed := if IsRequest p then some (reply chip v.flash p) else v.owed

/-- A host program and the server it talks to. -/
structure Served (σ : Type) where
  host : Host σ
  server : Server

/-- How a call of the host ends: the server accepts its packet, it receives a button packet or
the reply, or it is no transfer. -/
inductive Exchange where
  | accept
  | button (b : UInt8)
  | reply
  | control
deriving DecidableEq

/-- One exchange; one that does not fit the call of the host changes nothing. -/
def serve (chip : Chip) (P : Program σ) (t : Served σ) : Exchange → Served σ
  | .accept =>
    match P.call t.host.state with
    | some (.transferOut p) => ⟨P.step t.host ⟨0, []⟩, t.server.accept chip p⟩
    | _ => t
  | .button b =>
    match P.call t.host.state with
    | some (.transferIn size) => ⟨P.step t.host (taken size [b]), t.server⟩
    | _ => t
  | .reply =>
    match P.call t.host.state, t.server.owed with
    | some (.transferIn size), some q =>
      ⟨P.step t.host (taken size q), { t.server with owed := none }⟩
    | _, _ => t
  | .control =>
    match P.call t.host.state with
    | none | some (.transferOut _) | some (.transferIn _) => t
    | some _ => ⟨P.step t.host ⟨0, []⟩, t.server⟩

/-- The host sends well-sized packets, and none while it is owed a reply. -/
def Polite (P : Program σ) (t : Served σ) : Prop :=
  ∀ p, P.call t.host.state = some (.transferOut p) → t.server.owed = none ∧ WellSized p

section
variable {P : Program σ} {t : Served σ}

theorem serve_accept {p : Packet} (hcall : P.call t.host.state = some (.transferOut p)) :
    serve chip P t .accept = ⟨P.step t.host ⟨0, []⟩, t.server.accept chip p⟩ := by
  rw [serve, hcall]

theorem serve_button {size : ℕ} (hcall : P.call t.host.state = some (.transferIn size))
    (b : UInt8) :
    serve chip P t (.button b) = ⟨P.step t.host (taken size [b]), t.server⟩ := by
  rw [serve, hcall]

theorem serve_reply {size : ℕ} {q : Packet}
    (hcall : P.call t.host.state = some (.transferIn size)) (hq : t.server.owed = some q) :
    serve chip P t .reply = ⟨P.step t.host (taken size q), { t.server with owed := none }⟩ := by
  rw [serve, hcall, hq]

theorem serve_control {call : Call} (hcall : P.call t.host.state = some call)
    (hcontrol : IsControl call) :
    serve chip P t .control = ⟨P.step t.host ⟨0, []⟩, t.server⟩ := by
  rw [serve, hcall]
  cases call with
  | transferOut | transferIn => exact absurd hcontrol not_false
  | _ => rfl

end

/-! ## Requests and replies -/

theorem reply_length {flash : Memory Word} {p : Packet} : (reply chip flash p).length ≠ 1 := by
  unfold reply replyTo
  dsimp only
  split_ifs
  · rw [block_length]
    decide
  · show 3 ≠ 1
    decide

/-- A request means nothing for the flash. -/
theorem effect_request (flash : Memory Word) {p : Packet} (hp : IsRequest p) :
    effect chip flash p = flash := by
  apply effect_other
  all_goals
    rcases hp with hp | hp
    all_goals
      rw [hp]
      decide

/-- The command of a request. -/
theorem command_of_isRequest {p : Packet} (hp : IsRequest p) {command : UInt8}
    (hcommand : p.head? = some command) : command = 0x01 ∨ command = 0x02 := by
  rw [IsRequest, hcommand] at hp
  simpa using hp

/-- Only a request leaves a command that `ProcessIN` answers. -/
theorem idle_of_not_request {command : UInt8} {p : Packet} (hp : ¬ IsRequest p)
    (hcommand : command ≠ 0x01 ∧ command ≠ 0x02) :
    p.headD command ≠ 0x01 ∧ p.headD command ≠ 0x02 := by
  cases p with
  | nil => exact hcommand
  | cons c rest => simpa [IsRequest, not_or] using hp

/-! ## What the device owes -/

/-- The device has executed all packets, up to the one that may be in its OUT bank, and its
flash, with that packet executed, is `flash`; it owes the host the given reply, if any. -/
inductive Conversation (flash : Memory Word) (d : Device chip) : Option Packet → Prop
  | quiet (hidle : Idle d) (hin : ButtonsOnly d)
    (hpending : ∀ p ∈ d.pending, ¬ IsRequest p ∧ WellSized p) (hflash : meaning d = flash) :
    Conversation flash d none
  | requested (p : Packet) (hp : IsRequest p) (hsized : WellSized p)
    (hout : d.mcu.outBank = some ⟨p, p⟩) (hidle : Idle d) (hin : ButtonsOnly d)
    (hflash : d.mcu.target.flash = flash) : Conversation flash d (some (reply chip flash p))
  | noted (p : Packet) (hp : IsRequest p) (hout : d.mcu.outBank = none)
    (hcommand : p.head? = some d.mcu.commandePC)
    (haddr : d.mcu.commandePC = 0x02 → d.mcu.flashAddress = carriedAddress p)
    (hin : ButtonsOnly d) (hflash : d.mcu.target.flash = flash) :
    Conversation flash d (some (reply chip flash p))
  | replied (q : Packet) (hout : d.mcu.outBank = none) (hidle : Idle d)
    (hq : d.mcu.inBank = some q) (hlen : q.length ≠ 1) (hflash : d.mcu.target.flash = flash) :
    Conversation flash d (some q)

/-- What the next call of the host waits for. -/
inductive Need where
  | space
  | packet
  | nothing
deriving DecidableEq

/-- A transfer waits for a free OUT bank or for a packet in the IN bank. -/
def need : Option Call → Need
  | some (.transferOut _) => .space
  | some (.transferIn _) => .packet
  | _ => .nothing

/-- Who has to act next. -/
def helper (d : Device chip) : Need → Party
  | .space => if d.mcu.outBank.isSome then .device else .host
  | .packet =>
    if d.mcu.outBank.isSome then .device
    else if (d.mcu.commandePC = 0x01 ∨ d.mcu.commandePC = 0x02) ∧ d.mcu.inBank.isNone then
      .device
    else .host
  | .nothing => .host

/-- How many actions of the helpful parties the host waits for. -/
def wait (d : Device chip) : Need → ℕ
  | .space => if d.mcu.outBank.isSome then (if d.next = .dataIn then 2 else 1) else 0
  -- the request is executed, a button packet is taken, the request is answered, the reply is taken
  | .packet =>
    if d.mcu.outBank.isSome then (if d.next = .dataIn then 8 else 7)
    else if d.mcu.commandePC = 0x01 ∨ d.mcu.commandePC = 0x02 then
      (if d.mcu.inBank.isSome then 5 else if d.next = .dataOut then 4 else 3)
    else 2
  | .nothing => 0

theorem wait_le (d : Device chip) (n : Need) : wait d n ≤ 8 := by
  cases n with
  | nothing => exact Nat.zero_le 8
  | space | packet =>
    unfold wait
    dsimp only
    split_ifs <;> omega

/-- An action of the main loop moves the transfer on, or it is the turn of the host and stays
so. -/
def Moves (n : Need) (d d' : Device chip) : Prop :=
  wait d' n < wait d n ∨
    wait d' n = wait d n ∧ helper d' n = helper d n ∧ helper d n = .host

section
variable {flash : Memory Word} {d : Device chip} {owed : Option Packet}

/-- The main loop executes a packet that is no request. -/
theorem idle_processed (m : Mcu chip) {p : Packet} (hp : ¬ IsRequest p)
    (hidle : m.commandePC ≠ 0x01 ∧ m.commandePC ≠ 0x02) :
    (m.processed p).commandePC ≠ 0x01 ∧ (m.processed p).commandePC ≠ 0x02 := by
  rw [Mcu.commandePC_processed_headD]
  exact idle_of_not_request hp hidle

/-- The main loop notes a request. -/
theorem Conversation.of_request {pinC : UInt8} {p : Packet} (hp : IsRequest p)
    (hsized : WellSized p) (hin : ButtonsOnly d) (hflash : d.mcu.target.flash = flash) :
    Conversation flash
      { d with mcu := Mcu.processed { d.mcu with pinC := pinC } p, next := .dataIn }
      (some (reply chip flash p)) := by
  have hne : p ≠ [] := by
    rintro rfl
    simp [IsRequest] at hp
  apply Conversation.noted p hp (Mcu.outBank_processed ..)
  · exact commandePC_processed _ hne
  · -- the address that is noted is the one in the packet
    intro hread
    have hhead := commandePC_processed { d.mcu with pinC := pinC } hne
    rw [show (Mcu.processed { d.mcu with pinC := pinC } p).commandePC = 0x02 from hread] at hhead
    obtain ⟨rest, rfl⟩ := List.head?_eq_some_iff.mp hhead
    exact flashAddress_processed_read _ hsized
  · intro q hq
    rw [Mcu.inBank_processed] at hq
    exact hin q hq
  · show (Mcu.processed { d.mcu with pinC := pinC } p).target.flash = flash
    rw [Mcu.flash_processed _ hsized, effect_request _ hp]
    exact hflash

/-- The main loop answers the request it has noted. -/
theorem Conversation.of_noted {pinC : UInt8} {p : Packet} (hp : IsRequest p)
    (hout : d.mcu.outBank = none) (hcommand : p.head? = some d.mcu.commandePC)
    (haddr : d.mcu.commandePC = 0x02 → d.mcu.flashAddress = carriedAddress p)
    (hflash : d.mcu.target.flash = flash) :
    Conversation flash { d with mcu := Mcu.answered { d.mcu with pinC := pinC }, next := .dataOut }
      (some (reply chip flash p)) := by
  by_cases hread : d.mcu.commandePC = 0x02
  · rw [Mcu.answered_read (m := { d.mcu with pinC := pinC }) hread]
    refine .replied _ hout (idle_zero rfl) ?_ reply_length hflash
    rw [hread] at hcommand
    show some (d.mcu.target.block d.mcu.flashAddress) = _
    rw [reply, replyTo, if_pos hcommand, haddr hread, ← hflash]
    rfl
  · have hsignature : d.mcu.commandePC = 0x01 :=
      (command_of_isRequest hp hcommand).resolve_right hread
    rw [Mcu.answered_signature (m := { d.mcu with pinC := pinC }) hsignature]
    refine .replied _ hout (idle_zero rfl) ?_ reply_length hflash
    rw [reply, replyTo, if_neg]
    · rfl
    · rw [hcommand]
      simpa using hread

/-- The main loop keeps what the device owes. -/
theorem Conversation.firmware (hd : Settled d.mcu) (h : Conversation flash d owed)
    (pinC : UInt8) : Conversation flash (Firmware.step d (.firmware pinC)) owed := by
  have heffect := Firmware.step_effect hd (.firmware pinC)
  cases h with
  | quiet hidle hin hpending hflash =>
    -- a packet means the same before and after it is executed
    obtain ⟨hmeaning, -⟩ :=
      meaning_step hd (fun p hp => (hpending p hp).2) (a := .firmware pinC) (by simp)
    generalize Firmware.step d (.firmware pinC) = d' at heffect hmeaning ⊢
    have hflash' : meaning d' = flash := hmeaning.trans hflash
    cases heffect with
    | idleOUT | busyIN => exact .quiet hidle hin hpending hflash'
    | serve _ p hnext hbank =>
      have hp := (hpending p (by simp [Device.pending, hbank])).1
      refine .quiet (idle_processed { d.mcu with pinC := pinC } hp hidle) ?_ ?_ hflash'
      · intro q hq
        rw [Mcu.inBank_processed] at hq
        exact hin q hq
      · simp [Device.pending]
    | answer _ hnext hbank =>
      have hbuttons := Mcu.answered_buttons (m := { d.mcu with pinC := pinC }) hidle.1 hidle.2
      refine .quiet ?_ ?_ ?_ hflash'
      · rw [Idle, hbuttons]
        exact hidle
      · intro q hq
        rw [hbuttons] at hq
        cases hq
        rfl
      · rwa [Device.pending, hbuttons]
  | requested p hp hsized hout hidle hin hflash =>
    generalize Firmware.step d (.firmware pinC) = d' at heffect ⊢
    cases heffect with
    | idleOUT _ hnext hbank => rw [hout] at hbank; cases hbank
    | serve _ p' hnext hbank =>
      rw [hout] at hbank
      cases hbank
      exact .of_request hp hsized hin hflash
    | busyIN => exact .requested p hp hsized hout hidle hin hflash
    | answer _ hnext hbank =>
      -- a button packet, before `ProcessOUT` has seen the request
      rw [Mcu.answered_buttons (m := { d.mcu with pinC := pinC }) hidle.1 hidle.2]
      refine .requested p hp hsized hout hidle ?_ hflash
      intro q hq
      cases hq
      rfl
  | noted p hp hout hcommand haddr hin hflash =>
    generalize Firmware.step d (.firmware pinC) = d' at heffect ⊢
    cases heffect with
    | serve _ p' hnext hbank => rw [hout] at hbank; cases hbank
    | idleOUT | busyIN => exact .noted p hp hout hcommand haddr hin hflash
    | answer _ hnext hbank => exact .of_noted hp hout hcommand haddr hflash
  | replied q hout hidle hq hlen hflash =>
    generalize Firmware.step d (.firmware pinC) = d' at heffect ⊢
    cases heffect with
    | serve _ p hnext hbank => rw [hout] at hbank; cases hbank
    | answer _ hnext hbank => rw [hq] at hbank; cases hbank
    | idleOUT | busyIN => exact .replied q hout hidle hq hlen hflash

/-- The server executes the packet a free OUT bank accepts. -/
theorem Conversation.arrive (h : Conversation flash d none) (hbank : d.mcu.outBank = none)
    {p : Packet} (hsized : WellSized p) :
    Conversation (effect chip flash p) (Firmware.step d (.arrive p))
      (if IsRequest p then some (reply chip flash p) else none) := by
  obtain ⟨hmeaning, hpending⟩ := meaning_arrive hbank p
  obtain ⟨hnow, -⟩ := meaning_of_none hbank
  cases h with
  | quiet hidle hin _ hflash =>
    rw [← hnow, hflash] at hmeaning
    by_cases hp : IsRequest p
    · rw [if_pos hp, effect_request flash hp, arrive_eq hbank]
      exact .requested p hp hsized rfl hidle hin (hnow.symm.trans hflash)
    · rw [if_neg hp]
      refine .quiet ?_ ?_ ?_ hmeaning
      · rw [arrive_eq hbank]
        exact hidle
      · rw [arrive_eq hbank]
        exact hin
      · intro p' hp'
        rw [hpending, List.mem_singleton] at hp'
        exact hp' ▸ ⟨hp, hsized⟩

/-- The packet of the IN bank is a button packet, or the reply that is owed. -/
theorem Conversation.taken (h : Conversation flash d owed) {q : Packet}
    (hq : d.mcu.inBank = some q) :
    (∃ b, q = [b]) ∧ Conversation flash (emptied d) owed ∨
      owed = some q ∧ Conversation flash (emptied d) none := by
  have hempty : ButtonsOnly (emptied d) := by
    rintro q' ⟨⟩
  cases h with
  | quiet hidle hin hpending hflash =>
    exact .inl ⟨List.length_eq_one_iff.mp (hin q hq), .quiet hidle hempty hpending hflash⟩
  | requested p hp hsized hout hidle hin hflash =>
    exact .inl ⟨List.length_eq_one_iff.mp (hin q hq),
      .requested p hp hsized hout hidle hempty hflash⟩
  | noted p hp hout hcommand haddr hin hflash =>
    exact .inl ⟨List.length_eq_one_iff.mp (hin q hq),
      .noted p hp hout hcommand haddr hempty hflash⟩
  | replied q' hout hidle hq' hlen hflash =>
    rw [hq'] at hq
    cases hq
    refine .inr ⟨rfl, .quiet hidle hempty ?_ ?_⟩
    · simp [Device.pending, emptied, Firmware.step, hout]
    · rw [← hflash]
      exact (meaning_of_none hout).1

/-! ## Progress -/

/-- A packet in the OUT bank is executed when it is the turn of `ProcessOUT`. -/
theorem moves_space {pinC : UInt8} {d' : Device chip}
    (heffect : Firmware.Effect d (.firmware pinC) d') : Moves .space d d' := by
  cases heffect with
  | idleOUT _ hnext hbank => exact .inr (by simp [wait, helper, hbank])
  | serve _ p hnext hbank => exact .inl (by simp [wait, hbank, hnext])
  | busyIN _ hnext hbank =>
    cases hout : d.mcu.outBank with
    | none => exact .inr (by simp [wait, helper, hout])
    | some bank => exact .inl (by simp [wait, hout, hnext])
  | answer _ hnext hbank =>
    cases hout : d.mcu.outBank with
    | none => exact .inr (by simp [wait, helper, hout])
    | some bank => exact .inl (by simp [wait, hout, hnext])

/-- The reply that is owed gets on its way. -/
theorem Conversation.moves_packet (h : Conversation flash d owed) (howed : owed.isSome)
    {pinC : UInt8} {d' : Device chip} (heffect : Firmware.Effect d (.firmware pinC) d') :
    Moves .packet d d' := by
  cases h with
  | quiet => cases howed
  | requested p hp hsized hout hidle hin hflash =>
    left
    cases heffect with
    | idleOUT _ hnext hbank => rw [hout] at hbank; cases hbank
    | serve _ p' hnext hbank =>
      simp only [wait, hout, hnext, Mcu.outBank_processed, Option.isSome_some, Option.isSome_none,
        if_true, Bool.false_eq_true, if_false, reduceCtorEq]
      split_ifs <;> omega
    | busyIN _ hnext hbank => simp [wait, hout, hnext]
    | answer _ hnext hbank => simp [wait, hout, hnext]
  | noted p hp hout hcommand haddr hin hflash =>
    have hnoted := command_of_isRequest hp hcommand
    cases heffect with
    | serve _ p' hnext hbank => rw [hout] at hbank; cases hbank
    | idleOUT _ hnext hbank =>
      cases hin' : d.mcu.inBank with
      | none => exact .inl (by simp [wait, hout, hnoted, hin', hnext])
      | some q => exact .inr (by simp [wait, helper, hout, hnoted, hin'])
    | busyIN _ hnext hbank =>
      have hfull : d.mcu.inBank.isNone = false := by simpa using hbank
      exact .inr (by simp [wait, helper, hout, hnoted, hbank, hfull])
    | answer _ hnext hbank =>
      left
      -- both replies clear the command
      rcases hnoted with h1 | h2
      · rw [Mcu.answered_signature (m := { d.mcu with pinC := pinC }) h1]
        simp [wait, hout, h1, hbank, hnext]
      · rw [Mcu.answered_read (m := { d.mcu with pinC := pinC }) h2]
        simp [wait, hout, h2, hbank, hnext]
  | replied q hout hidle hq hlen hflash =>
    have hnot : ¬ (d.mcu.commandePC = 0x01 ∨ d.mcu.commandePC = 0x02) := not_or.mpr hidle
    cases heffect with
    | serve _ p hnext hbank => rw [hout] at hbank; cases hbank
    | answer _ hnext hbank => rw [hq] at hbank; cases hbank
    | idleOUT | busyIN => exact .inr (by simp [wait, helper, hout, hnot])

/-- Taking a button packet makes room for the reply, or it is the turn of the main loop. -/
theorem Conversation.taken_button (h : Conversation flash d owed) (howed : owed.isSome)
    {b : UInt8} (hq : d.mcu.inBank = some [b]) :
    wait (emptied d) .packet < wait d .packet ∨
      wait (emptied d) .packet = wait d .packet ∧ helper (emptied d) .packet = helper d .packet ∧
        helper d .packet = .device := by
  cases h with
  | quiet => cases howed
  | requested p hp hsized hout =>
    exact .inr (by simp [wait, helper, emptied, Firmware.step, hout])
  | noted p hp hout hcommand =>
    -- the button packet was in the way of the reply
    have hnoted := command_of_isRequest hp hcommand
    left
    simp only [wait, emptied, Firmware.step, hout, hnoted, hq, Option.isSome_none,
      Option.isSome_some, Bool.false_eq_true, if_true, if_false]
    split_ifs <;> omega
  | replied q hout hidle hq' hlen =>
    rw [hq'] at hq
    cases hq
    exact absurd rfl hlen

/-- While the IN bank is empty, the reply is up to the main loop. -/
theorem Conversation.helper_of_none (h : Conversation flash d owed) (howed : owed.isSome)
    (hempty : d.mcu.inBank = none) : helper d .packet = .device := by
  cases h with
  | quiet => cases howed
  | requested p hp hsized hout => simp [helper, hout]
  | noted p hp hout hcommand => simp [helper, hout, command_of_isRequest hp hcommand, hempty]
  | replied q hout hidle hq =>
    rw [hq] at hempty
    cases hempty

end

/-! ## Refinement -/

/-- An exchange that fits the call of the host. -/
inductive Serves (chip : Chip) (P : Program σ) (t : Served σ) : Exchange → Served σ → Prop
  | accept (p : Packet) (hcall : P.call t.host.state = some (.transferOut p)) :
    Serves chip P t .accept ⟨P.step t.host ⟨0, []⟩, t.server.accept chip p⟩
  | button (size : ℕ) (b : UInt8) (hcall : P.call t.host.state = some (.transferIn size)) :
    Serves chip P t (.button b) ⟨P.step t.host (System.taken size [b]), t.server⟩
  | reply (size : ℕ) (q : Packet) (hcall : P.call t.host.state = some (.transferIn size))
    (hq : t.server.owed = some q) :
    Serves chip P t .reply ⟨P.step t.host (System.taken size q), { t.server with owed := none }⟩
  | control (call : Call) (hcall : P.call t.host.state = some call) (hcontrol : IsControl call) :
    Serves chip P t .control ⟨P.step t.host ⟨0, []⟩, t.server⟩

theorem Serves.eq {P : Program σ} {t t' : Served σ} {b : Exchange} (h : Serves chip P t b t') :
    serve chip P t b = t' := by
  cases h with
  | accept p hcall => exact serve_accept hcall
  | button size b hcall => exact serve_button hcall b
  | reply size q hcall hq => exact serve_reply hcall hq
  | control call hcall hcontrol => exact serve_control hcall hcontrol

/-- The host is the same, and the device owes what the server owes. -/
structure Refines (s : Composed σ chip) (t : Served σ) : Prop where
  settled : Settled s.device.mcu
  host : s.host = t.host
  conversation : Conversation t.server.flash s.device t.server.owed

/-- An action that does not end the wait shortens it, or it is up to the other party. -/
def Waits (n : Need) (a : Action) (d d' : Device chip) : Prop :=
  wait d' n < wait d n ∨
    wait d' n = wait d n ∧ helper d' n = helper d n ∧ party a ≠ helper d n

/-- What an action of the composed system is for the server. -/
inductive Matched (P : Program σ) (t : Served σ) (a : Action) (d : Device chip)
    (s' : Composed σ chip) : Prop
  | stutter (href : Refines s' t)
    (hwait : P.call t.host.state ≠ none →
      (need (P.call t.host.state) = .packet → t.server.owed.isSome) →
        Waits (need (P.call t.host.state)) a d s'.device) : Matched P t a d s'
  | button (b : UInt8) (t' : Served σ) (hserves : Serves chip P t (.button b) t')
    (href : Refines s' t') (hwait : t.server.owed.isSome → Waits .packet a d s'.device) :
    Matched P t a d s'
  | exchange (b : Exchange) (hb : ∀ x, b ≠ .button x) (t' : Served σ)
    (hserves : Serves chip P t b t') (href : Refines s' t') : Matched P t a d s'

section
variable {P : Program σ} {s : Composed σ chip} {t : Served σ}

/-- An action of the main loop is none for the server. -/
theorem Refines.firmware (h : Refines s t) (pinC : UInt8) :
    Matched P t (.firmware pinC) s.device
      ⟨s.host, Firmware.step s.device (.firmware pinC)⟩ := by
  have heffect := Firmware.step_effect h.settled (.firmware pinC)
  apply Matched.stutter
  · exact ⟨h.settled.step _, h.host, h.conversation.firmware h.settled pinC⟩
  · intro _ howed
    have hmoves : Moves (need (P.call t.host.state)) s.device
        (Firmware.step s.device (.firmware pinC)) := by
      cases hneed : need (P.call t.host.state) with
      | space => exact moves_space heffect
      | packet => exact h.conversation.moves_packet (howed hneed) heffect
      | nothing => exact .inr ⟨rfl, rfl, rfl⟩
    rcases hmoves with hlt | ⟨hsame, hstay, hhost⟩
    · exact .inl hlt
    · exact .inr ⟨hsame, hstay, by rw [hhost]; exact Party.noConfusion⟩

/-- The packet of an OUT transfer is the server's. -/
theorem Refines.sent (h : Refines s t) (hpolite : Polite P t) {p : Packet}
    (hcall : P.call t.host.state = some (.transferOut p)) (hbank : s.device.mcu.outBank = none) :
    Refines ⟨P.step s.host ⟨0, []⟩, Firmware.step s.device (.arrive p)⟩
      ⟨P.step t.host ⟨0, []⟩, t.server.accept chip p⟩ := by
  obtain ⟨howed, hsized⟩ := hpolite p hcall
  have harrive := h.conversation
  rw [howed] at harrive
  refine ⟨h.settled.step _, by rw [h.host], ?_⟩
  rw [Server.accept, howed]
  exact harrive.arrive hbank hsized

/-- An IN transfer takes a button packet, or the reply of the server. -/
theorem Refines.received (h : Refines s t) {q : Packet} (hq : s.device.mcu.inBank = some q)
    (result : Result) :
    (∃ b, q = [b]) ∧ Refines ⟨P.step s.host result, emptied s.device⟩
        ⟨P.step t.host result, t.server⟩ ∨
      t.server.owed = some q ∧ Refines ⟨P.step s.host result, emptied s.device⟩
        ⟨P.step t.host result, { t.server with owed := none }⟩ := by
  have hhost : P.step s.host result = P.step t.host result := by rw [h.host]
  rcases h.conversation.taken hq with ⟨hb, hkept⟩ | ⟨howed, hquiet⟩
  · exact .inl ⟨hb, h.settled.step _, hhost, hkept⟩
  · exact .inr ⟨howed, h.settled.step _, hhost, hquiet⟩

/-- A call that is no transfer does not reach the device. -/
theorem Refines.called (h : Refines s t) :
    Refines ⟨P.step s.host ⟨0, []⟩, s.device⟩ ⟨P.step t.host ⟨0, []⟩, t.server⟩ :=
  ⟨h.settled, by rw [h.host], h.conversation⟩

/-- A transfer of the host that completes is an exchange with the server. -/
theorem Refines.transfer (h : Refines s t) (hpolite : Polite P t) {s' : Composed σ chip}
    (heffect : Effect P s .transfer s') : Matched P t .transfer s.device s' := by
  have hhost := h.host
  cases heffect with
  | sent p hcall hbank =>
    rw [hhost] at hcall
    exact .exchange .accept nofun _ (.accept p hcall) (h.sent hpolite hcall hbank)
  | blockedOUT p hcall hfull =>
    rw [hhost] at hcall
    refine .stutter h fun _ _ => .inr ⟨rfl, rfl, ?_⟩
    rw [hcall]
    show Party.host ≠ helper s.device .space
    rw [helper, if_pos hfull]
    exact Party.noConfusion
  | received size q hcall hq =>
    rw [hhost] at hcall
    rcases h.received hq (taken size q) with ⟨⟨b, rfl⟩, href⟩ | ⟨howed, href⟩
    · refine .button b _ (.button size b hcall) href fun howed => ?_
      rcases h.conversation.taken_button howed hq with hlt | ⟨hsame, hstay, hdevice⟩
      · exact .inl hlt
      · exact .inr ⟨hsame, hstay, by rw [hdevice]; exact Party.noConfusion⟩
    · exact .exchange .reply nofun _ (.reply size q hcall howed) href
  | blockedIN size hcall hempty =>
    rw [hhost] at hcall
    refine .stutter h fun _ howed => .inr ⟨rfl, rfl, ?_⟩
    rw [hcall] at howed ⊢
    show Party.host ≠ helper s.device .packet
    rw [h.conversation.helper_of_none (howed rfl) hempty]
    exact Party.noConfusion
  | called call hcall hcontrol =>
    rw [hhost] at hcall
    exact .exchange .control nofun _ (.control call hcall hcontrol) h.called
  | returned hcall =>
    rw [hhost] at hcall
    exact .stutter h fun hrunning => absurd hcall hrunning

/-- The server makes one step or none. -/
theorem Matched.refines {a : Action} {d : Device chip} {s' : Composed σ chip}
    (h : Matched P t a d s') : Refines s' t ∨ ∃ b, Refines s' (serve chip P t b) := by
  cases h with
  | stutter href => exact .inl href
  | button b t' hserves href => exact .inr ⟨.button b, hserves.eq ▸ href⟩
  | exchange b hb t' hserves href => exact .inr ⟨b, hserves.eq ▸ href⟩

/-- Every action without failure is matched by the server. -/
theorem Refines.step (h : Refines s t) (hpolite : Polite P t) {a : Action} (ha : FaultFree a) :
    Matched P t a s.device (step P s a) := by
  cases a with
  | firmware pinC => exact h.firmware pinC
  | transfer => exact h.transfer hpolite (step_effect P s .transfer)
  | timeout => exact absurd rfl ha.1
  | poll => exact absurd rfl ha.2

end

/-! ## Main result -/

/-- A device at which a host program may start: every packet in the OUT bank is one that is
executed without a reply, no request is noted, and the IN bank holds at most a button packet. -/
structure Quiet (d : Device chip) : Prop where
  settled : Settled d.mcu
  idle : Idle d
  inBank : ButtonsOnly d
  pending : ∀ p ∈ d.pending, ¬ IsRequest p ∧ WellSized p

/-- A device that owes nothing is one of these. -/
theorem Conversation.to_quiet {flash : Memory Word} {d : Device chip} (hd : Settled d.mcu)
    (h : Conversation flash d none) : Quiet d ∧ meaning d = flash := by
  cases h with
  | quiet hidle hin hpending hflash => exact ⟨⟨hd, hidle, hin, hpending⟩, hflash⟩

/-- The server at the start: it has executed the packet of the OUT bank. -/
def serverOf (d : Device chip) : Server := ⟨meaning d, none⟩

theorem Quiet.refines {d : Device chip} (hd : Quiet d) (h : Host σ) :
    Refines (⟨h, d⟩ : Composed σ chip) ⟨h, serverOf d⟩ :=
  ⟨hd.settled, rfl, .quiet hd.idle hd.inBank hd.pending rfl⟩

theorem ReadReady.quiet {d : Device chip} (hd : ReadReady d) : Quiet d :=
  ⟨hd.settled, hd.idle, hd.inBank, by simp [Device.pending, hd.outBank]⟩

/-- Once the OUT bank is empty the flash is that of the server. -/
theorem Conversation.flash_eq {flash : Memory Word} {d : Device chip} {owed : Option Packet}
    (h : Conversation flash d owed) (hout : d.mcu.outBank = none) :
    d.mcu.target.flash = flash := by
  cases h with
  | quiet hidle hin hpending hflash => rw [← hflash, (meaning_of_none hout).1]
  | requested p hp hsized hsome => rw [hout] at hsome; cases hsome
  | noted p hp _ hcommand haddr hin hflash => exact hflash
  | replied q _ hidle hq hlen hflash => exact hflash

/-- Every run of a polite program is a run with the server. -/
theorem run_refines {P : Program σ} {s : Composed σ chip} {t : Served σ} (hst : Refines s t)
    (hpolite : ∀ bs, Polite P (run (serve chip P) t bs)) {as : List Action}
    (has : ∀ a ∈ as, FaultFree a) :
    ∃ bs, Refines (run (step P) s as) (run (serve chip P) t bs) := by
  have hsim : Simulation (step P) (serve chip P) (fun _ a => FaultFree a)
      (fun (s : Composed σ chip) t' => Refines s t' ∧ ∃ bs, t' = run (serve chip P) t bs) := by
    constructor
    rintro s _ a ⟨href, bs, rfl⟩ ha
    rcases (href.step (hpolite bs) ha).refines with hstutter | ⟨b, hb⟩
    · exact .inl ⟨hstutter, bs, rfl⟩
    · exact .inr ⟨b, hb, bs ++ [b], by rw [run_append, run_cons, run_nil]⟩
  obtain ⟨bs, href, hreached⟩ := hsim.run ⟨hst, [], rfl⟩ (along_of_forall has)
  obtain ⟨bs', hbs'⟩ := hreached
  exact ⟨bs', hbs' ▸ href⟩

/-- **The device is a sequential server.** A host program that with the server sends nothing
while it is owed a reply makes, in every run with the device in which no transfer fails, the
same calls with the same results and prints the same as in a run with the server; and whenever
the OUT bank is empty the flash is the one of the server. -/
theorem refines_server (P : Program σ) (h : Host σ) {d : Device chip} (hd : Quiet d)
    (hpolite : ∀ bs, Polite P (run (serve chip P) ⟨h, serverOf d⟩ bs)) (as : List Action)
    (has : ∀ a ∈ as, FaultFree a) :
    ∃ bs, (run (step P) ⟨h, d⟩ as).host = (run (serve chip P) ⟨h, serverOf d⟩ bs).host ∧
      ((run (step P) ⟨h, d⟩ as).device.mcu.outBank = none →
        (run (step P) ⟨h, d⟩ as).device.mcu.target.flash
          = (run (serve chip P) ⟨h, serverOf d⟩ bs).server.flash) := by
  obtain ⟨bs, href⟩ := run_refines (hd.refines h) hpolite has
  exact ⟨bs, href.host, href.conversation.flash_eq⟩

/-! ## No call waits for ever -/

/-- How long it takes until the bank is as the call needs it. -/
def unready (d : Device chip) : Need → ℕ
  | .packet => if d.mcu.inBank.isNone then (if d.next = .dataOut then 2 else 1) else 0
  | n => wait d n

/-- Who makes it so. -/
def readier (d : Device chip) : Need → Party
  | .packet => if d.mcu.inBank.isNone then .device else .host
  | n => helper d n

/-- `ProcessIN` leaves a packet in the IN bank. -/
theorem isNone_answered (m : Mcu chip) : m.answered.inBank.isNone = false := by
  unfold Mcu.answered
  split_ifs <;> rfl

/-- The main loop makes the bank ready, or it is and stays so. -/
theorem unready_firmware {n : Need} {d d' : Device chip} {pinC : UInt8}
    (heffect : Firmware.Effect d (.firmware pinC) d') :
    unready d' n < unready d n ∨
      unready d' n = unready d n ∧ readier d' n = readier d n ∧ readier d n = .host := by
  cases n with
  | space => exact moves_space heffect
  | nothing => exact .inr ⟨rfl, rfl, rfl⟩
  | packet =>
    cases heffect with
    | idleOUT _ hnext hbank =>
      cases hin : d.mcu.inBank with
      | none => exact .inl (by simp [unready, hin, hnext])
      | some q => exact .inr (by simp [unready, readier, hin])
    | serve _ p hnext hbank =>
      cases hin : d.mcu.inBank with
      | none => exact .inl (by simp [unready, hin, hnext])
      | some q => exact .inr (by simp [unready, readier, hin])
    | busyIN _ hnext hbank =>
      obtain ⟨q, hq⟩ := Option.isSome_iff_exists.mp hbank
      exact .inr (by simp [unready, readier, hq])
    | answer _ hnext hbank =>
      left
      rw [unready, if_neg (by rw [isNone_answered]; decide), unready,
        if_pos (by rw [hbank]; rfl), if_neg (by rw [hnext]; decide)]
      exact Nat.zero_lt_one

/-- The host still waits in the same call, or it has gone on. -/
structure StillWaiting (h : Host σ) (s : Composed σ chip) : Prop where
  settled : Settled s.device.mcu
  host : s.host = h ∨ h.calls.length < s.host.calls.length

/-- What is missing for the call to complete. -/
def missing (P : Program σ) (h : Host σ) (s : Composed σ chip) : ℕ :=
  if s.host.calls.length = h.calls.length then 1 + unready s.device (need (P.call h.state)) else 0

section
variable {P : Program σ} {h : Host σ} {s : Composed σ chip}

/-- A call that completes is in the list of calls. -/
theorem length_calls_step {call : Call} (hcall : P.call h.state = some call) (result : Result) :
    h.calls.length < (P.step h result).calls.length := by
  rw [Program.step_of_call _ hcall]
  simp

/-- No action takes a call back. -/
theorem length_calls_le (P : Program σ) (s : Composed σ chip) (a : Action) :
    s.host.calls.length ≤ (System.step P s a).host.calls.length := by
  have heffect := step_effect P s a
  generalize System.step P s a = s' at heffect ⊢
  cases heffect with
  | sent p hp | received size q hp | called call hp | timeoutOUT p hp | timeoutIN size hp =>
    exact Nat.le_of_lt (length_calls_step hp _)
  | _ => exact Nat.le_refl _

theorem missing_waiting (P : Program σ) (s : Composed σ chip) :
    missing P s.host s = 1 + unready s.device (need (P.call s.host.state)) := if_pos rfl

theorem missing_later (hlater : h.calls.length < s.host.calls.length) : missing P h s = 0 :=
  if_neg (by omega)

/-- An action while the host waits is one of the main loop, or it completes the call, or cannot. -/
theorem step_waiting (hs : Settled s.device.mcu) (hcall : P.call s.host.state ≠ none)
    {a : Action} (ha : FaultFree a) :
    StillWaiting s.host (step P s a) ∧
      (missing P s.host (step P s a) < missing P s.host s ∨
        missing P s.host (step P s a) = missing P s.host s ∧
          party a ≠ readier s.device (need (P.call s.host.state)) ∧
            readier (step P s a).device (need (P.call s.host.state))
              = readier s.device (need (P.call s.host.state))) := by
  have hsettled := settled_step P hs a
  have heffect := step_effect P s a
  have hdone : ∀ s' : Composed σ chip, s.host.calls.length < s'.host.calls.length →
      missing P s.host s' < missing P s.host s := by
    intro s' hlt
    rw [missing_later hlt, missing_waiting]
    omega
  generalize System.step P s a = s' at heffect hsettled ⊢
  cases heffect with
  | firmware pinC =>
    refine ⟨⟨hsettled, .inl rfl⟩, ?_⟩
    have hstays : missing P s.host ⟨s.host, Firmware.step s.device (.firmware pinC)⟩
        = 1 + unready (Firmware.step s.device (.firmware pinC))
          (need (P.call s.host.state)) := if_pos rfl
    rw [hstays, missing_waiting]
    rcases unready_firmware (n := need (P.call s.host.state))
      (Firmware.step_effect hs (.firmware pinC)) with hlt | ⟨hsame, hstay, hhost⟩
    · left
      omega
    · right
      rw [hsame]
      exact ⟨rfl, by rw [hhost]; exact Party.noConfusion, hstay⟩
  | sent p hp | received size q hp | called call hp =>
    exact ⟨⟨hsettled, .inr (length_calls_step hp _)⟩, .inl (hdone _ (length_calls_step hp _))⟩
  | blockedOUT p hp hfull =>
    refine ⟨⟨hs, .inl rfl⟩, .inr ⟨rfl, ?_, rfl⟩⟩
    rw [hp]
    show Party.host ≠ helper s.device .space
    rw [helper, if_pos hfull]
    exact Party.noConfusion
  | blockedIN size hp hempty =>
    refine ⟨⟨hs, .inl rfl⟩, .inr ⟨rfl, ?_, rfl⟩⟩
    rw [hp]
    show Party.host ≠ readier s.device .packet
    rw [readier, if_pos (by rw [hempty]; rfl)]
    exact Party.noConfusion
  | returned hp => exact absurd hp hcall
  | timeoutOUT | timeoutIN | noTransfer => exact absurd rfl ha.1
  | poll => exact absurd rfl ha.2

theorem StillWaiting.step (hs : StillWaiting h s) (hcall : P.call h.state ≠ none) {a : Action}
    (ha : FaultFree a) :
    StillWaiting h (step P s a) ∧
      (missing P h (step P s a) < missing P h s ∨
        missing P h (step P s a) = missing P h s ∧ (0 < missing P h s →
          party a ≠ readier s.device (need (P.call h.state)) ∧
            readier (step P s a).device (need (P.call h.state))
              = readier s.device (need (P.call h.state)))) := by
  rcases hs.host with rfl | hlater
  · obtain ⟨hwaiting, hprogress⟩ := step_waiting hs.settled hcall ha
    exact ⟨hwaiting, hprogress.imp_right fun ⟨hsame, hrest⟩ => ⟨hsame, fun _ => hrest⟩⟩
  · -- the call is over, and no action takes it back
    have hstill : h.calls.length < (System.step P s a).host.calls.length :=
      hlater.trans_le (length_calls_le P s a)
    refine ⟨⟨settled_step P hs.settled a, .inr hstill⟩, .inr ⟨?_, fun hpos => ?_⟩⟩
    · rw [missing_later hstill, missing_later hlater]
    · rw [missing_later hlater] at hpos
      exact absurd hpos (Nat.lt_irrefl 0)

/-- The call the host waits in completes. -/
theorem call_completes (P : Program σ) {s : Composed σ chip} (hs : Settled s.device.mcu)
    (hcall : P.call s.host.state ≠ none) {sched : ℕ → Action} (hsched : ∀ n, FaultFree (sched n))
    (hfair : Fair sched) :
    ∃ n, s.host.calls.length < (runTo (System.step P) s sched n).host.calls.length := by
  obtain ⟨n, hn⟩ := @eventually_measure_zero _ _ (System.step P) (fun _ a => FaultFree a) s Party
    party (fun s' => readier s'.device (need (P.call s.host.state))) (missing P s.host)
    (StillWaiting s.host) sched (fun s' a hs' ha => hs'.step hcall ha) hsched hfair
    ⟨hs, .inl rfl⟩
  have hwaiting : StillWaiting s.host (runTo (System.step P) s sched n) :=
    runTo_allowed (fun _ a hs' ha => (hs'.step hcall ha).1) hsched ⟨hs, .inl rfl⟩ n
  refine ⟨n, ?_⟩
  rcases hwaiting.host with hsame | hlater
  · rw [missing, if_pos (by rw [hsame])] at hn
    omega
  · exact hlater

theorem Fair.shift {sched : ℕ → Action} (h : Fair sched) (n : ℕ) :
    Fair fun i => sched (n + i) := by
  intro p k
  obtain ⟨m, hm, hparty⟩ := h p (n + k)
  refine ⟨m - n, by omega, ?_⟩
  show party (sched (n + (m - n))) = p
  rwa [Nat.add_sub_cancel' (by omega)]

/-- A program that does not return makes any number of calls. -/
theorem exists_calls (P : Program σ) {s : Composed σ chip} (hs : Settled s.device.mcu)
    {sched : ℕ → Action} (hsched : ∀ n, FaultFree (sched n)) (hfair : Fair sched)
    (hrunning : ∀ n, P.call (runTo (System.step P) s sched n).host.state ≠ none) (K : ℕ) :
    ∃ n, K ≤ (runTo (System.step P) s sched n).host.calls.length := by
  induction K with
  | zero => exact ⟨0, Nat.zero_le _⟩
  | succ K ih =>
    obtain ⟨n, hn⟩ := ih
    have hsettled : Settled (runTo (System.step P) s sched n).device.mcu :=
      runTo_invariant (I := fun s : Composed σ chip => Settled s.device.mcu)
        (fun s a h => settled_step P h a) hs n
    obtain ⟨k, hk⟩ := call_completes P hsettled (hrunning n) (fun i => hsched (n + i))
      (hfair.shift n)
    rw [← runTo_shift] at hk
    exact ⟨n + k, by omega⟩

/-- **No call waits for ever.** Whatever the host program is and whatever state it and the device
are in: if the main loop and the host act again and again and no transfer fails, the program
returns or makes any number of calls. -/
theorem goes_on (P : Program σ) {s : Composed σ chip} (hs : Settled s.device.mcu)
    {sched : ℕ → Action} (hsched : ∀ n, FaultFree (sched n)) (hfair : Fair sched) :
    (∃ n, P.call (runTo (System.step P) s sched n).host.state = none) ∨
      ∀ K, ∃ n, K ≤ (runTo (System.step P) s sched n).host.calls.length := by
  by_cases hreturns : ∃ n, P.call (runTo (System.step P) s sched n).host.state = none
  · exact .inl hreturns
  · right
    exact exists_calls P hs hsched hfair fun n hn => hreturns ⟨n, hn⟩

end

theorem faultFree_alternating (n : ℕ) : FaultFree (alternating n) := by
  unfold alternating
  split_ifs <;> decide

/-- `isp_ids` returns or goes on. -/
theorem goes_on_ispIds :
    (∃ n, ispIds.call (runTo (System.step ispIds)
        (identifyStart (powerOn (fun _ => 0) erase : Device atmega328p)) alternating
        n).host.state = none) ∨
      ∀ K, ∃ n, K ≤ (runTo (System.step ispIds)
        (identifyStart (powerOn (fun _ => 0) erase : Device atmega328p)) alternating
        n).host.calls.length := by
  have hsettled : Settled
      (identifyStart (powerOn (fun _ => 0) erase : Device atmega328p)).device.mcu :=
    settled_powerOn (fun _ => 0) erase
  exact goes_on ispIds hsettled faultFree_alternating fair_alternating

end System
end AvrProgrammer
