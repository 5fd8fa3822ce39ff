import AvrProgrammer.System.Discard

/-!
# Identifying the target from any state

A new host process finds the device as the last one left it: packets in either bank, and a
request the firmware has noted. `isp_ids` recognises a packet of an earlier request by its
length of one byte only, so it takes a signature that was left for its own, and fails on a block
of eight bytes. `identifies_iff` says from which states it identifies the target in every run.
-/

namespace AvrProgrammer
namespace System

open PagedFlash Runs Firmware Software
open Software.IspIds (State overwrite)

variable {chip : Chip}

/-! ## States of the device -/

/-- `commande_PC` once the packet in the OUT bank is processed. -/
def commandToServe (d : Device chip) : UInt8 :=
  match d.mcu.outBank with
  | some bank => bank.packet.headD d.mcu.commandePC
  | none => d.mcu.commandePC

/-- A command that `ProcessIN` answers. -/
def IsAnswered (command : UInt8) : Prop := command = 0x01 ∨ command = 0x02

instance (command : UInt8) : Decidable (IsAnswered command) := inferInstanceAs (Decidable (_ ∨ _))

/-- Nothing of an earlier request is left that the host could take for a reply: the IN bank
holds at most buttons, and no request is noted, neither now, if `ProcessIN` is about to find its
bank free, nor once the packet in the OUT bank is processed. -/
structure NothingStale (d : Device chip) : Prop where
  inBank : ButtonsOnly d
  command : ¬ IsAnswered (commandToServe d)
  now : d.next = .dataIn → d.mcu.inBank = none → ¬ IsAnswered d.mcu.commandePC

/-- All packets of earlier requests are gone, and so is the reply to the own request. -/
structure Purged (d : Device chip) : Prop where
  outBank : d.mcu.outBank = none
  idle : Idle d
  inBank : ButtonsOnly d

/-- In every run without failures, once `isp_ids` has returned, its buffer holds the signature of
the target and nothing is left in the device; and it returns under every fair schedule. -/
structure Identifies (d : Device chip) : Prop where
  correct : ∀ as, (∀ a ∈ as, FaultFree a) → ∀ sig,
    (run (step ispIds) (identifyStart d) as).host.state = .returned sig →
      sig = d.mcu.target.signature ∧ Purged (run (step ispIds) (identifyStart d) as).device
  returns : ∀ sched, (∀ n, FaultFree (sched n)) → Fair sched →
    ∃ n sig, (identifyTo d sched n).host.state = .returned sig

theorem not_isAnswered_iff {d : Device chip} : ¬ IsAnswered d.mcu.commandePC ↔ Idle d := by
  simp [IsAnswered, Idle]

theorem commandToServe_of_none {d : Device chip} (hout : d.mcu.outBank = none) :
    commandToServe d = d.mcu.commandePC := by
  rw [commandToServe, hout]

/-! ## Runs from a state where nothing is stale -/

/-- The phases of the identification. -/
inductive SignaturePhase (d : Device chip) : State → Prop
  | request {dataIn : List UInt8} (hlen : dataIn.length = 3) (hstale : NothingStale d) :
    SignaturePhase d (.request dataIn)
  | pending {dataIn : List UInt8} (hlen : dataIn.length = 3) (hout : d.mcu.outBank = some ⟨[0x01], [0x01]⟩)
    (hidle : Idle d) (hin : ButtonsOnly d) : SignaturePhase d (.receive dataIn)
  | commanded {dataIn : List UInt8} (hlen : dataIn.length = 3) (hout : d.mcu.outBank = none)
    (hcommand : d.mcu.commandePC = 0x01) (hin : ButtonsOnly d) :
    SignaturePhase d (.receive dataIn)
  | replied {dataIn : List UInt8} (hlen : dataIn.length = 3) (hout : d.mcu.outBank = none)
    (hidle : Idle d) (hreply : d.mcu.inBank = some d.mcu.target.signature) :
    SignaturePhase d (.receive dataIn)
  | done (hpurged : Purged d) : SignaturePhase d (.returned d.mcu.target.signature)

/-- A button packet answers, and nothing becomes stale. -/
theorem buttonsOnly_answered {d : Device chip} {pinC : UInt8} (hidle : Idle d) {q : Packet}
    (hq : (Mcu.answered { d.mcu with pinC := pinC }).inBank = some q) : q.length = 1 := by
  rw [Mcu.answered_buttons (m := { d.mcu with pinC := pinC }) hidle.1 hidle.2] at hq
  cases hq
  rfl

theorem idle_answered {d : Device chip} {pinC : UInt8} (hidle : Idle d) :
    (Mcu.answered { d.mcu with pinC := pinC }).commandePC = d.mcu.commandePC := by
  rw [Mcu.answered_buttons (m := { d.mcu with pinC := pinC }) hidle.1 hidle.2]

theorem NothingStale.firmware {d d' : Device chip} (hstale : NothingStale d) {pinC : UInt8}
    (heffect : Firmware.Effect d (.firmware pinC) d') : NothingStale d' := by
  cases heffect with
  | idleOUT _ hnext hbank =>
    have hcommand := hstale.command
    rw [commandToServe_of_none hbank] at hcommand
    exact ⟨hstale.inBank, hstale.command, fun _ _ => hcommand⟩
  | serve _ p hnext hbank =>
    have hcommand : ¬ IsAnswered (Mcu.processed { d.mcu with pinC := pinC } p).commandePC := by
      have hserved := hstale.command
      rw [commandToServe, hbank] at hserved
      rwa [Mcu.commandePC_processed_headD]
    refine ⟨?_, ?_, fun _ _ => hcommand⟩
    · intro q hq
      rw [Mcu.inBank_processed] at hq
      exact hstale.inBank q hq
    · rwa [commandToServe_of_none (Mcu.outBank_processed ..)]
  | busyIN _ hnext hbank =>
    exact ⟨hstale.inBank, hstale.command, fun hthen => by cases hthen⟩
  | answer _ hnext hbank =>
    have hidle : Idle d := not_isAnswered_iff.mp (hstale.now hnext hbank)
    refine ⟨fun q hq => buttonsOnly_answered hidle hq, ?_, fun hthen => by cases hthen⟩
    have hserved := hstale.command
    rwa [commandToServe, Mcu.outBank_answered, idle_answered hidle]

theorem SignaturePhase.firmware {d d' : Device chip} {st : State} (hphase : SignaturePhase d st)
    {pinC : UInt8} (heffect : Firmware.Effect d (.firmware pinC) d') : SignaturePhase d' st := by
  cases hphase with
  | request hlen hstale => exact .request hlen (hstale.firmware heffect)
  | pending hlen hout hidle hin =>
    cases heffect with
    | idleOUT _ hnext hbank => rw [hout] at hbank; cases hbank
    | serve _ p hnext hbank =>
      rw [hout] at hbank
      cases hbank
      rw [Mcu.processed_signature]
      exact .commanded hlen rfl rfl hin
    | busyIN => exact .pending hlen hout hidle hin
    | answer =>
      refine .pending hlen ((Mcu.outBank_answered _).trans hout) ?_
        fun q hq => buttonsOnly_answered hidle hq
      rwa [Idle, idle_answered hidle]
  | commanded hlen hout hcommand hin =>
    cases heffect with
    | serve _ p hnext hbank => rw [hout] at hbank; cases hbank
    | idleOUT | busyIN => exact .commanded hlen hout hcommand hin
    | answer =>
      rw [Mcu.answered_signature (m := { d.mcu with pinC := pinC }) hcommand]
      exact .replied hlen hout (idle_zero rfl) rfl
  | replied hlen hout hidle hreply =>
    cases heffect with
    | serve _ p hnext hbank => rw [hout] at hbank; cases hbank
    | answer _ hnext hbank => rw [hreply] at hbank; cases hbank
    | idleOUT | busyIN => exact .replied hlen hout hidle hreply
  | done hpurged =>
    cases heffect with
    | serve _ p hnext hbank => rw [hpurged.outBank] at hbank; cases hbank
    | idleOUT | busyIN => exact .done ⟨hpurged.outBank, hpurged.idle, hpurged.inBank⟩
    | answer =>
      have hidle := hpurged.idle
      refine .done ⟨(Mcu.outBank_answered _).trans hpurged.outBank, ?_,
        fun q hq => buttonsOnly_answered hidle hq⟩
      rwa [Idle, idle_answered hidle]

/-- A discarded packet fits in the buffer. -/
theorem overwrite_length {dataIn : List UInt8} (hlen : dataIn.length = 3) {q : Packet}
    (hq : q.length = 1) : (overwrite dataIn (taken 3 q).data).length = 3 := by
  rw [taken_of_le (by omega), overwrite, List.length_append, List.length_drop]
  dsimp only
  omega

/-- The signature fills the buffer. -/
theorem overwrite_signature {dataIn : List UInt8} (hlen : dataIn.length = 3) (t : Target chip) :
    overwrite dataIn (taken 3 t.signature).data = t.signature := by
  have hthree : t.signature.length = 3 := rfl
  rw [taken_of_le (Nat.le_of_eq hthree), overwrite]
  dsimp only
  rw [hthree, List.drop_of_length_le (Nat.le_of_eq hlen), List.append_nil]

/-- The identification is in one of its phases. -/
structure IdentifyInv (s : Composed State chip) : Prop where
  settled : Settled s.device.mcu
  phase : SignaturePhase s.device s.host.state

theorem IdentifyInv.step {s : Composed State chip} (hs : IdentifyInv s) {a : Action}
    (ha : FaultFree a) : IdentifyInv (step ispIds s a) := by
  refine ⟨settled_step ispIds hs.settled a, ?_⟩
  have hphase := hs.phase
  have heffect := step_effect ispIds s a
  generalize System.step ispIds s a = s' at heffect ⊢
  cases heffect with
  | firmware pinC => exact hphase.firmware (Firmware.step_effect hs.settled (.firmware pinC))
  | sent p hcall hbank =>
    obtain ⟨dataIn, hstate, rfl⟩ := ispIds_call_transferOut hcall
    rw [hstate] at hphase
    rw [(step_asked hstate ⟨0, []⟩).1, arrive_eq hbank]
    cases hphase with
    | request hlen hstale =>
      have hidle := hstale.command
      rw [commandToServe_of_none hbank, not_isAnswered_iff] at hidle
      exact .pending hlen rfl hidle hstale.inBank
  | received size q hcall hq =>
    obtain ⟨dataIn, hstate, rfl⟩ := ispIds_call_transferIn hcall
    rw [hstate] at hphase
    have hempty : ButtonsOnly (emptied s.device) := by
      rintro q' ⟨⟩
    cases hphase with
    | pending hlen hout hidle hin =>
      rw [(step_discard hstate (discarded_taken (hin q hq))).1]
      exact .pending (overwrite_length hlen (hin q hq)) hout hidle hempty
    | commanded hlen hout hcommand hin =>
      rw [(step_discard hstate (discarded_taken (hin q hq))).1]
      exact .commanded (overwrite_length hlen (hin q hq)) hout hcommand hempty
    | replied hlen hout hidle hreply =>
      rw [hreply] at hq
      cases hq
      have hthree : s.device.mcu.target.signature.length ≠ 1 := show (3 : ℕ) ≠ 1 by decide
      rw [(step_end hstate (not_discarded_taken hthree)).1, overwrite_signature hlen]
      exact .done (d := emptied s.device) ⟨hout, hidle, hempty⟩
  | called call hcall hcontrol => exact absurd hcontrol (not_control hcall)
  | timeoutOUT | timeoutIN => exact absurd rfl ha.1
  | poll => exact absurd rfl ha.2
  | blockedOUT | blockedIN | returned | noTransfer => exact hphase

/-- A schedule without failures. -/
theorem accepts_of_faultFree {s : Composed State chip} {a : Action} (ha : FaultFree a) :
    Accepts s a := ⟨ha.2, fun htimeout => absurd htimeout ha.1⟩

theorem identifies_of_nothingStale {d : Device chip} (hd : Settled d.mcu)
    (hstale : NothingStale d) : Identifies d := by
  refine ⟨fun as has sig hreturned => ?_, fun sched hsched hfair => ?_⟩
  · have hstart : IdentifyInv (identifyStart d) := ⟨hd, .request rfl hstale⟩
    have hinv := (along_of_forall has).invariant (fun _ _ hs ha => hs.step ha) hstart
    have hphase := hinv.phase
    rw [hreturned] at hphase
    cases hphase with
    | done hpurged => exact ⟨rfl, hpurged⟩
  · exact exists_returned hd (fun n => accepts_of_faultFree (hsched n)) hfair

/-! ## Runs from a state where something is stale -/

/-- Some run without failures returns and leaves something in the device. -/
def Misled (s : Composed State chip) : Prop :=
  ∃ as, (∀ a ∈ as, FaultFree a) ∧ (∃ sig, (run (step ispIds) s as).host.state = .returned sig) ∧
    ¬ Purged (run (step ispIds) s as).device

section
variable {s : Composed State chip} {dataIn : List UInt8} {q : Packet}

theorem Misled.of_step {a : Action} (ha : FaultFree a) (h : Misled (step ispIds s a)) :
    Misled s := by
  obtain ⟨as, has, hreturned, hleft⟩ := h
  refine ⟨a :: as, ?_, hreturned, hleft⟩
  intro b hb
  rcases List.mem_cons.mp hb with rfl | hb
  · exact ha
  · exact has b hb

theorem faultFree_firmware (pinC : UInt8) : FaultFree (.firmware pinC) :=
  ⟨Action.noConfusion, Action.noConfusion⟩

theorem faultFree_transfer : FaultFree .transfer := ⟨Action.noConfusion, Action.noConfusion⟩

theorem step_send (hstate : s.host.state = .request dataIn) (hout : s.device.mcu.outBank = none) :
    step ispIds s .transfer =
      ⟨ispIds.step s.host ⟨0, []⟩, Firmware.step s.device (.arrive [0x01])⟩ := by
  have hcall : ispIds.call s.host.state = some (.transferOut [0x01]) := by
    rw [hstate]
    rfl
  simp only [step, hcall, hout, Option.isNone_none, if_true]

theorem step_take (hstate : s.host.state = .receive dataIn) (hq : s.device.mcu.inBank = some q) :
    step ispIds s .transfer = ⟨ispIds.step s.host (taken 3 q), Firmware.step s.device .poll⟩ := by
  have hcall : ispIds.call s.host.state = some (.transferIn 3) := by
    rw [hstate]
    rfl
  simp only [step, hcall, hq]

/-- A stale packet ends the loop while the own request waits in the OUT bank. -/
theorem misled_of_receive (hstate : s.host.state = .receive dataIn)
    (hout : s.device.mcu.outBank.isSome) (hq : s.device.mcu.inBank = some q)
    (hlen : q.length ≠ 1) : Misled s := by
  refine ⟨[.transfer], ?_, ?_, ?_⟩
  · simpa using faultFree_transfer
  · rw [run_cons, step_take hstate hq]
    exact ⟨_, (step_end hstate (not_discarded_taken hlen)).1⟩
  · rw [run_cons, step_take hstate hq]
    intro hpurged
    have hnone : s.device.mcu.outBank = none := hpurged.outBank
    rw [hnone] at hout
    cases hout

/-- A stale packet in the IN bank, and the OUT bank free. -/
theorem misled_of_free (hstate : s.host.state = .request dataIn)
    (hout : s.device.mcu.outBank = none) (hq : s.device.mcu.inBank = some q)
    (hlen : q.length ≠ 1) : Misled s := by
  apply Misled.of_step faultFree_transfer
  rw [step_send hstate hout, arrive_eq hout]
  exact misled_of_receive (step_asked hstate ⟨0, []⟩).1 rfl hq hlen

/-- A stale packet in the IN bank stays there until the request is sent. -/
theorem misled_of_inBank (hs : Settled s.device.mcu) (hstate : s.host.state = .request dataIn)
    (hq : s.device.mcu.inBank = some q) (hlen : q.length ≠ 1) : Misled s := by
  have hdataOut : ∀ d : Device chip, Settled d.mcu → d.next = .dataOut →
      d.mcu.inBank = some q → Misled ⟨s.host, d⟩ := by
    intro d hd hnext hq
    apply Misled.of_step (faultFree_firmware 0)
    have heffect := Firmware.step_effect hd (.firmware 0)
    show Misled ⟨s.host, Firmware.step d (.firmware 0)⟩
    generalize Firmware.step d (.firmware 0) = d' at heffect ⊢
    cases heffect with
    | idleOUT _ _ hbank => exact misled_of_free hstate hbank hq hlen
    | serve _ p _ hbank =>
      exact misled_of_free hstate (Mcu.outBank_processed ..)
        ((Mcu.inBank_processed ..).trans hq) hlen
    | busyIN _ hthen | answer _ hthen =>
      rw [hnext] at hthen
      cases hthen
  cases hnext : s.device.next with
  | dataOut => exact hdataOut s.device hs hnext hq
  | dataIn =>
    apply Misled.of_step (faultFree_firmware 0)
    have heffect := Firmware.step_effect hs (.firmware 0)
    have hsettled := hs.step (.firmware 0)
    show Misled ⟨s.host, Firmware.step s.device (.firmware 0)⟩
    generalize Firmware.step s.device (.firmware 0) = d' at heffect hsettled ⊢
    cases heffect with
    | busyIN => exact hdataOut _ hsettled rfl hq
    | idleOUT _ hthen | serve _ _ hthen =>
      rw [hnext] at hthen
      cases hthen
    | answer _ _ hbank =>
      rw [hq] at hbank
      cases hbank

/-- The answer to a request is no button packet. -/
theorem exists_answer {d : Device chip} (hcommand : IsAnswered d.mcu.commandePC) (pinC : UInt8) :
    ∃ q, (Mcu.answered { d.mcu with pinC := pinC }).inBank = some q ∧ q.length ≠ 1 := by
  rcases hcommand with h1 | h2
  · rw [Mcu.answered_signature (m := { d.mcu with pinC := pinC }) h1]
    exact ⟨_, rfl, show (3 : ℕ) ≠ 1 by decide⟩
  · rw [Mcu.answered_read (m := { d.mcu with pinC := pinC }) h2]
    exact ⟨_, rfl, show (8 : ℕ) ≠ 1 by decide⟩

/-- `ProcessIN` answers the request noted. -/
theorem firmware_answer {d : Device chip} (hd : Settled d.mcu) (hnext : d.next = .dataIn)
    (hempty : d.mcu.inBank = none) :
    Firmware.step d (.firmware 0)
      = { d with mcu := Mcu.answered { d.mcu with pinC := 0 }, next := .dataOut } := by
  have heffect := Firmware.step_effect hd (.firmware 0)
  generalize Firmware.step d (.firmware 0) = d' at heffect ⊢
  cases heffect with
  | answer => rfl
  | busyIN _ _ hbank =>
    rw [hempty] at hbank
    cases hbank
  | idleOUT _ hthen | serve _ _ hthen =>
    rw [hnext] at hthen
    cases hthen

/-- A request is noted, and `ProcessIN` is about to answer it. -/
theorem misled_of_now (hs : Settled s.device.mcu) (hstate : s.host.state = .request dataIn)
    (hnext : s.device.next = .dataIn) (hempty : s.device.mcu.inBank = none)
    (hcommand : IsAnswered s.device.mcu.commandePC) : Misled s := by
  obtain ⟨q, hq, hlen⟩ := exists_answer hcommand 0
  apply Misled.of_step (faultFree_firmware 0)
  have hsettled := hs.step (.firmware 0)
  show Misled ⟨s.host, Firmware.step s.device (.firmware 0)⟩
  rw [firmware_answer hs hnext hempty] at hsettled ⊢
  exact misled_of_inBank hsettled hstate hq hlen

/-- The request noted is answered while the own request waits in the OUT bank. -/
theorem misled_of_empty (hs : Settled s.device.mcu) (hstate : s.host.state = .receive dataIn)
    (hout : s.device.mcu.outBank.isSome) (hnext : s.device.next = .dataIn)
    (hempty : s.device.mcu.inBank = none) (hcommand : IsAnswered s.device.mcu.commandePC) :
    Misled s := by
  obtain ⟨q, hq, hlen⟩ := exists_answer hcommand 0
  apply Misled.of_step (faultFree_firmware 0)
  show Misled ⟨s.host, Firmware.step s.device (.firmware 0)⟩
  rw [firmware_answer hs hnext hempty]
  refine misled_of_receive hstate ?_ hq hlen
  rwa [Mcu.outBank_answered]

/-- So it is after a packet of buttons has been discarded. -/
theorem misled_of_waiting (hs : Settled s.device.mcu) (hstate : s.host.state = .receive dataIn)
    (hout : s.device.mcu.outBank.isSome) (hnext : s.device.next = .dataIn)
    (hin : ButtonsOnly s.device) (hcommand : IsAnswered s.device.mcu.commandePC) : Misled s := by
  cases hbank : s.device.mcu.inBank with
  | none => exact misled_of_empty hs hstate hout hnext hbank hcommand
  | some button =>
    apply Misled.of_step faultFree_transfer
    rw [step_take hstate hbank]
    exact misled_of_empty (hs.step .poll)
      (step_discard hstate (discarded_taken (hin button hbank))).1 hout hnext rfl hcommand

/-- A request is noted, and the own request is sent before it is answered. -/
theorem misled_of_noted (hs : Settled s.device.mcu) (hstate : s.host.state = .request dataIn)
    (hnext : s.device.next = .dataIn) (hout : s.device.mcu.outBank = none)
    (hin : ButtonsOnly s.device) (hcommand : IsAnswered s.device.mcu.commandePC) : Misled s := by
  have harrived := hs.step (.arrive [0x01])
  apply Misled.of_step faultFree_transfer
  rw [step_send hstate hout]
  rw [arrive_eq hout] at harrived ⊢
  exact misled_of_waiting harrived (step_asked hstate ⟨0, []⟩).1 rfl hnext hin hcommand

/-- `ProcessOUT` notes the request in the OUT bank, or leaves the one it has noted. -/
theorem misled_of_dataOut (hs : Settled s.device.mcu) (hstate : s.host.state = .request dataIn)
    (hnext : s.device.next = .dataOut) (hin : ButtonsOnly s.device)
    (hcommand : IsAnswered (commandToServe s.device)) : Misled s := by
  apply Misled.of_step (faultFree_firmware 0)
  have heffect := Firmware.step_effect hs (.firmware 0)
  have hsettled := hs.step (.firmware 0)
  show Misled ⟨s.host, Firmware.step s.device (.firmware 0)⟩
  generalize Firmware.step s.device (.firmware 0) = d' at heffect hsettled ⊢
  cases heffect with
  | idleOUT _ _ hbank =>
    rw [commandToServe_of_none hbank] at hcommand
    exact misled_of_noted hsettled hstate rfl hbank hin hcommand
  | serve _ p _ hbank =>
    rw [commandToServe, hbank] at hcommand
    refine misled_of_noted hsettled hstate rfl (Mcu.outBank_processed ..) ?_ ?_
    · intro q hq
      rw [Mcu.inBank_processed] at hq
      exact hin q hq
    · rwa [Mcu.commandePC_processed_headD]
  | busyIN _ hthen | answer _ hthen =>
    rw [hnext] at hthen
    cases hthen

/-- So it is one call of `ProcessIN` earlier. -/
theorem misled_of_command (hs : Settled s.device.mcu) (hstate : s.host.state = .request dataIn)
    (hin : ButtonsOnly s.device) (hcommand : IsAnswered (commandToServe s.device)) :
    Misled s := by
  cases hnext : s.device.next with
  | dataOut => exact misled_of_dataOut hs hstate hnext hin hcommand
  | dataIn =>
    by_cases hnow : s.device.mcu.inBank = none ∧ IsAnswered s.device.mcu.commandePC
    · exact misled_of_now hs hstate hnext hnow.1 hnow.2
    apply Misled.of_step (faultFree_firmware 0)
    have heffect := Firmware.step_effect hs (.firmware 0)
    have hsettled := hs.step (.firmware 0)
    show Misled ⟨s.host, Firmware.step s.device (.firmware 0)⟩
    generalize Firmware.step s.device (.firmware 0) = d' at heffect hsettled ⊢
    cases heffect with
    | busyIN => exact misled_of_dataOut hsettled hstate rfl hin hcommand
    | answer _ _ hbank =>
      have hidle : Idle s.device := not_isAnswered_iff.mp fun h => hnow ⟨hbank, h⟩
      refine misled_of_dataOut hsettled hstate rfl (fun q hq => buttonsOnly_answered hidle hq) ?_
      rwa [commandToServe, Mcu.outBank_answered, idle_answered hidle]
    | idleOUT _ hthen | serve _ _ hthen =>
      rw [hnext] at hthen
      cases hthen

/-- Whatever is stale can mislead the host. -/
theorem misled_of_stale {d : Device chip} (hd : Settled d.mcu) (hstale : ¬ NothingStale d) :
    Misled (identifyStart d) := by
  by_contra hnot
  have hin : ButtonsOnly d := by
    intro q hq
    by_contra hlen
    exact hnot (misled_of_inBank (s := identifyStart d) hd rfl hq hlen)
  refine hstale ⟨hin, fun hcommand => ?_, fun hnext hempty hcommand => ?_⟩
  · exact hnot (misled_of_command (s := identifyStart d) hd rfl hin hcommand)
  · exact hnot (misled_of_now (s := identifyStart d) hd rfl hnext hempty hcommand)

end

/-! ## Main result -/

/-- From which states the firmware can be in `isp_ids` identifies the target, whatever comes
between its transfers. -/
theorem identifies_iff (unspecified : ℕ → UInt8) (flash : Memory Word)
    (as : List Firmware.Action) :
    let d := run Firmware.step (powerOn unspecified flash : Device chip) as
    Identifies d ↔ NothingStale d := by
  intro d
  have hd : Settled d.mcu := settled_run (settled_powerOn unspecified flash) as
  constructor
  · intro hidentifies
    by_contra hstale
    obtain ⟨bs, hbs, ⟨sig, hreturned⟩, hleft⟩ := misled_of_stale hd hstale
    exact hleft (hidentifies.correct bs hbs sig hreturned).2
  · exact identifies_of_nothingStale hd

/-- A host that stopped after its request for the block at 0 leaves the block to the next one:
the buffer of `isp_ids` holds its first bytes. -/
theorem abandoned_read_misleads :
    ¬ Identifies (run Firmware.step (powerOn (fun _ => 0) erase : Device atmega328p)
      [.arrive [0x02, 0x00, 0x00], .firmware 0, .firmware 0]) := by
  intro hidentifies
  have hcorrect := (hidentifies.correct [.firmware 0, .firmware 0, .transfer, .transfer]
    (by decide) [0xFF, 0xFF, 0xFF] (by decide +kernel)).1
  exact absurd hcorrect (by decide +kernel)

end System
end AvrProgrammer
