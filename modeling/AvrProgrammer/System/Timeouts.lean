import AvrProgrammer.System.Dump
import AvrProgrammer.Firmware.Integrity

/-!
# Reading with transfers that time out

A reply carries no address, and `flash_read` goes on to the next address when a transfer times
out. So a reply that comes later, or stays in the IN bank, is printed under a later address.
`blocks_attributed` gives the condition on the steps under which every block is printed under
its own address, and `blocks_attributed_of_replies` a simple case of it: no IN transfer times
out.
-/

namespace AvrProgrammer
namespace System

open PagedFlash Runs Firmware Software
open Software.FlashRead (State loop blockWords)

variable {chip : Chip}

/-- A block printed under an address is the block at that address. -/
def Attributed (chip : Chip) (flash : Memory Word) (m : Message) : Prop :=
  ∀ a words, m = .block a words → m = blockMessage chip flash a

/-- `flash_read` is at this address. -/
def At (st : State) (a : UInt16) : Prop := st = .request a ∨ st = .receive a

/-- A transfer times out while a reply waits in the IN bank only at the last block, and the
firmware reads a block only while `flash_read` is at its address, or closes the device. -/
def InTurn (size : UInt32) (s : Composed State chip) : Action → Prop
  | .timeout => ∀ q, s.device.mcu.inBank = some q → q.length = 8 →
    ∀ a, At s.host.state a → loop size (a + 4) = .release
  | .firmware _ => s.device.next = .dataIn → s.device.mcu.inBank = none →
    s.device.mcu.commandePC = 0x02 →
      At s.host.state s.device.mcu.flashAddress ∨ Closing s.host.state
  | .transfer | .poll => True

/-- A reply in the IN bank is the one `flash_read` waits for or will ask for, or it is not read
any more. -/
def ReplyFits (flash : Memory Word) (st : State) (d : Device chip) : Prop :=
  ∀ q, d.mcu.inBank = some q → q.length = 8 →
    Closing st ∨ ∃ a, At st a ∧ q = (Target.idle flash : Target chip).block a

/-- The packet in the OUT bank does not change the flash. -/
def NoWrite (d : Device chip) : Prop :=
  ∀ bank, d.mcu.outBank = some bank →
    bank.packet.head? ≠ some 0x03 ∧ bank.packet.head? ≠ some 0x04

structure TimeoutInv (flash : Memory Word) (s : Composed State chip) : Prop where
  settled : Settled s.device.mcu
  flash_eq : s.device.mcu.target.flash = flash
  noWrite : NoWrite s.device
  replyFits : ReplyFits flash s.host.state s.device
  attributed : ∀ m ∈ s.host.out, Attributed chip flash m

/-! ## The firmware -/

/-- A packet that is no write and no erase leaves the flash, and every packet the IN bank. -/
theorem processed_other (m : Mcu chip) {p : Packet} (hwrite : p.head? ≠ some 0x03)
    (herase : p.head? ≠ some 0x04) :
    (m.processed p).target.flash = m.target.flash ∧ (m.processed p).inBank = m.inBank := by
  cases kind p with
  | empty => rw [Mcu.processed_empty]; exact ⟨rfl, rfl⟩
  | signature rest => rw [Mcu.processed_signature]; exact ⟨rfl, rfl⟩
  | read rest => rw [Mcu.processed_read rfl]; exact ⟨rfl, rfl⟩
  | write rest => exact absurd rfl hwrite
  | erase rest => exact absurd rfl herase
  | leds command rest h1 h2 h3 h4 =>
    rw [Mcu.processed_leds h1 h2 h3 h4]
    exact ⟨Target.drive_flash .., rfl⟩

section
variable {flash : Memory Word} {size : UInt32} {s : Composed State chip}

/-- The main loop acts; a block it reads is the one `flash_read` is at. -/
theorem TimeoutInv.firmware (hs : TimeoutInv flash s) {pinC : UInt8}
    (hturn : InTurn size s (.firmware pinC)) :
    TimeoutInv flash ⟨s.host, Firmware.step s.device (.firmware pinC)⟩ := by
  have heffect := Firmware.step_effect hs.settled (.firmware pinC)
  have hsettled := hs.settled.step (.firmware pinC)
  generalize Firmware.step s.device (.firmware pinC) = d' at heffect hsettled ⊢
  cases heffect with
  | idleOUT | busyIN =>
    exact ⟨hsettled, hs.flash_eq, hs.noWrite, hs.replyFits, hs.attributed⟩
  | serve _ p hnext hbank =>
    obtain ⟨hwrite, herase⟩ := hs.noWrite _ hbank
    obtain ⟨hflash, hin⟩ := processed_other { s.device.mcu with pinC := pinC } hwrite herase
    refine ⟨hsettled, hflash.trans hs.flash_eq, ?_, ?_, hs.attributed⟩
    · rintro bank hout
      rw [Mcu.outBank_processed] at hout
      cases hout
    · intro q hq
      exact hs.replyFits q (hin.symm.trans hq)
  | answer _ hnext hbank =>
    have hflash := Mcu.flash_answered { s.device.mcu with pinC := pinC }
    have hout := Mcu.outBank_answered { s.device.mcu with pinC := pinC }
    refine ⟨hsettled, hflash.trans hs.flash_eq, ?_, ?_, hs.attributed⟩
    · intro bank hbank'
      exact hs.noWrite bank (hout.symm.trans hbank')
    · intro q hq hlen
      by_cases h2 : s.device.mcu.commandePC = 0x02
      · rw [Mcu.answered_read (m := { s.device.mcu with pinC := pinC }) h2] at hq
        cases hq
        rcases hturn hnext hbank h2 with hat | hclosing
        · exact .inr ⟨_, hat, by rw [← hs.flash_eq]; rfl⟩
        · exact .inl hclosing
      by_cases h1 : s.device.mcu.commandePC = 0x01
      · rw [Mcu.answered_signature (m := { s.device.mcu with pinC := pinC }) h1] at hq
        cases hq
        cases hlen
      · rw [Mcu.answered_buttons (m := { s.device.mcu with pinC := pinC }) h1 h2] at hq
        cases hq
        cases hlen

/-! ## The host -/

/-- The IN bank is empty after it has been read. -/
theorem replyFits_emptied (flash : Memory Word) (st : State) (d : Device chip) :
    ReplyFits flash st (emptied d) := by
  rintro q ⟨⟩

/-- A message that is no block. -/
theorem attributed_concat {out : List Message} {m : Message}
    (hout : ∀ m ∈ out, Attributed chip flash m) (hm : Attributed chip flash m) :
    ∀ m' ∈ out ++ [m], Attributed chip flash m' := by
  intro m' hmem
  rcases List.mem_append.mp hmem with hmem | hmem
  · exact hout m' hmem
  · rwa [List.mem_singleton.mp hmem]

theorem attributed_readError (a : UInt16) : Attributed chip flash (.readError a) := by
  rintro a words ⟨⟩

theorem attributed_requestError (a : UInt16) : Attributed chip flash (.requestError a) := by
  rintro a words ⟨⟩

/-- A reply that fits at an address is the block at that address. -/
theorem ReplyFits.block_of_at {st : State} {d : Device chip} (h : ReplyFits flash st d)
    {a : UInt16} (hat : At st a) {q : Packet} (hq : d.mcu.inBank = some q) (hlen : q.length = 8) :
    q = (Target.idle flash : Target chip).block a := by
  rcases h q hq hlen with hclosing | ⟨a', hat', hblock⟩
  · rcases hat with rfl | rfl <;> cases hclosing
  · have hsame : a' = a := by
      rcases hat with rfl | rfl <;> rcases hat' with hstate | hstate <;> cases hstate <;> rfl
    rwa [← hsame]

/-- A call the host waits in completes. -/
theorem TimeoutInv.transfer (hs : TimeoutInv flash s) {s' : Composed State chip}
    (heffect : Effect (flashRead size) s .transfer s') : TimeoutInv flash s' := by
  cases heffect with
  | sent p hcall hbank =>
    obtain ⟨a, hstate, rfl⟩ := flashRead_call_transferOut hcall
    have hsettled := hs.settled.step (.arrive (readRequest a))
    rw [← readRequest, step_request size hstate]
    rw [arrive_eq hbank] at hsettled ⊢
    refine ⟨hsettled, hs.flash_eq, ?_, ?_, hs.attributed⟩
    · rintro bank ⟨rfl⟩
      exact ⟨by simp [readRequest], by simp [readRequest]⟩
    · intro q hq hlen
      exact .inr ⟨a, .inr rfl, hs.replyFits.block_of_at (.inl hstate) hq hlen⟩
  | received n q hcall hq =>
    obtain ⟨a, hstate, rfl⟩ := flashRead_call_transferIn hcall
    have hsettled := hs.settled.step .poll
    by_cases h1 : q.length = 1
    · rw [step_button size hstate h1]
      exact ⟨hsettled, hs.flash_eq, hs.noWrite, replyFits_emptied flash _ _, hs.attributed⟩
    by_cases h8 : q.length = 8
    · have hblock := hs.replyFits.block_of_at (.inr hstate) hq h8
      rw [step_block size hstate h8]
      refine ⟨hsettled, hs.flash_eq, hs.noWrite, replyFits_emptied flash _ _,
        attributed_concat hs.attributed ?_⟩
      rintro a' words ⟨⟩
      rw [hblock]
      exact blockWords_block (Target.idle flash : Target chip) a
    · rw [step_readError size hstate (taken_other h1) (taken_other h8)]
      exact ⟨hsettled, hs.flash_eq, hs.noWrite, replyFits_emptied flash _ _,
        attributed_concat hs.attributed (attributed_readError a)⟩
  | called call hcall hcontrol =>
    obtain ⟨hclosing, hout⟩ := step_control size hcall hcontrol ⟨0, []⟩
    exact ⟨hs.settled, hs.flash_eq, hs.noWrite, fun _ _ _ => .inl hclosing, hout ▸ hs.attributed⟩
  | blockedOUT | blockedIN | returned => exact hs

/-- A transfer times out; a reply that waits is not read any more. -/
theorem TimeoutInv.timeout (hs : TimeoutInv flash s) (hturn : InTurn size s .timeout)
    {s' : Composed State chip} (heffect : Effect (flashRead size) s .timeout s') :
    TimeoutInv flash s' := by
  have hnext : ∀ a, At s.host.state a → ReplyFits flash (loop size (a + 4)) s.device := by
    intro a hat q hq hlen
    rw [hturn q hq hlen a hat]
    exact .inl .release
  cases heffect with
  | timeoutOUT p hcall =>
    obtain ⟨a, hstate, rfl⟩ := flashRead_call_transferOut hcall
    rw [step_requestError size hstate (show timedOut.r ≠ 0 by decide)]
    exact ⟨hs.settled, hs.flash_eq, hs.noWrite, hnext a (.inl hstate),
      attributed_concat hs.attributed (attributed_requestError a)⟩
  | timeoutIN n hcall =>
    obtain ⟨a, hstate, rfl⟩ := flashRead_call_transferIn hcall
    rw [step_readError size hstate (by decide) (by decide)]
    exact ⟨hs.settled, hs.flash_eq, hs.noWrite, hnext a (.inr hstate),
      attributed_concat hs.attributed (attributed_readError a)⟩
  | noTransfer => exact hs

theorem TimeoutInv.step (hs : TimeoutInv flash s) {a : Action} (hturn : InTurn size s a) :
    TimeoutInv flash (step (flashRead size) s a) := by
  cases a with
  | firmware pinC => exact hs.firmware hturn
  | transfer => exact hs.transfer (step_effect (flashRead size) s .transfer)
  | timeout => exact hs.timeout hturn (step_effect (flashRead size) s .timeout)
  | poll =>
    exact ⟨hs.settled.step .poll, hs.flash_eq, hs.noWrite, replyFits_emptied flash _ _,
      hs.attributed⟩

end

/-! ## Main results -/

/-- A device at which `flash_read` may start, with a command of any kind under way that does not
change the flash, such as the signature request, and no block in the IN bank. -/
structure NoBlockWaiting (d : Device chip) : Prop where
  settled : Settled d.mcu
  noWrite : NoWrite d
  inBank : ∀ q, d.mcu.inBank = some q → q.length ≠ 8

/-- In every run whose steps are in turn, every block is printed under its own address. -/
theorem blocks_attributed {d : Device chip} (hd : NoBlockWaiting d) (size : UInt32)
    (as : List Action)
    (has : Along (step (flashRead size)) (InTurn size) (dumpStart size d) as) :
    ∀ m ∈ (run (step (flashRead size)) (dumpStart size d) as).host.out,
      Attributed chip d.mcu.target.flash m := by
  have hstart : TimeoutInv d.mcu.target.flash (dumpStart size d) :=
    ⟨hd.settled, rfl, hd.noWrite, fun q hq hlen => absurd hlen (hd.inBank q hq),
      fun _ hm => absurd hm List.not_mem_nil⟩
  have hinv : TimeoutInv d.mcu.target.flash
      (run (step (flashRead size)) (dumpStart size d) as) :=
    has.invariant (fun _ _ hs hturn => hs.step hturn) hstart
  exact hinv.attributed

/-- The first request times out after the firmware has noted it; its reply is printed as the
block at 4. -/
theorem late_reply_misattributed :
    ¬ ∀ m ∈ (run (step (flashRead 16))
        (dumpStart 16 (powerOn (fun _ => 0) (fun a => if a = 0 then ⟨0x01, 0x00⟩ else ⟨0xFF, 0xFF⟩) :
          Device atmega328p))
        [.transfer, .firmware 0, .timeout, .transfer, .firmware 0, .transfer]).host.out,
      Attributed atmega328p (fun a => if a = 0 then ⟨0x01, 0x00⟩ else ⟨0xFF, 0xFF⟩) m := by
  intro hall
  have hblock := hall (.block 4 [0x0001, 0xFFFF, 0xFFFF, 0xFFFF]) (by decide +kernel) 4 _ rfl
  exact absurd hblock (by decide)

/-! ## Without IN timeouts -/

/-- No IN transfer times out, and nobody else polls. -/
def AwaitsReplies (s : Composed State chip) (a : Action) : Prop :=
  a ≠ .poll ∧ (a = .timeout → ∀ addr, s.host.state ≠ .receive addr)

/-- The request under way is in one of its phases, or `flash_read` closes the device. -/
structure InPhase (s : Composed State chip) : Prop where
  settled : Settled s.device.mcu
  phase : Closing s.host.state ∨ ∃ a, Phase a s.device s.host.state

theorem loop_cases (size : UInt32) (a : UInt16) :
    loop size a = .request a ∨ loop size a = .release := by
  unfold loop
  split_ifs
  · exact .inl rfl
  · exact .inr rfl

/-- Between two requests `flash_read` may go to any address. -/
theorem phase_loop {size : UInt32} {d : Device chip} (h : ∀ a, Phase a d (.request a))
    (a : UInt16) : Closing (loop size a) ∨ ∃ a', Phase a' d (loop size a) := by
  rcases loop_cases size a with hloop | hloop
  · rw [hloop]
    exact .inr ⟨a, h a⟩
  · rw [hloop]
    exact .inl .release

/-- The address of the phase is the one `flash_read` is at. -/
theorem InPhase.at {s : Composed State chip} (hs : InPhase s) {a : UInt16}
    (hat : At s.host.state a) : Phase a s.device s.host.state := by
  rcases hs.phase with hclosing | ⟨a', hphase⟩
  · rcases hat with hstate | hstate
    all_goals
      rw [hstate] at hclosing
      cases hclosing
  · have hsame : a' = a := by
      rcases hat with hstate | hstate
      all_goals
        rw [hstate] at hphase
        cases hphase <;> rfl
    rwa [← hsame]

theorem Phase.request_any {a : UInt16} {d : Device chip} (h : Phase a d (.request a)) :
    ∀ a', Phase a' d (.request a') := by
  cases h with
  | request hout hidle hin => exact fun a' => .request hout hidle hin

theorem InPhase.step {size : UInt32} {s : Composed State chip} (hs : InPhase s) {a : Action}
    (ha : AwaitsReplies s a) : InPhase (step (flashRead size) s a) := by
  refine ⟨settled_step (flashRead size) hs.settled a, ?_⟩
  have heffect := step_effect (flashRead size) s a
  generalize System.step (flashRead size) s a = s' at heffect ⊢
  cases heffect with
  | firmware pinC =>
    have hdevice := Firmware.step_effect hs.settled (.firmware pinC)
    rcases hs.phase with hclosing | ⟨addr, hphase⟩
    · exact .inl hclosing
    · exact .inr ⟨addr, (hphase.firmware hdevice).1⟩
  | sent p hcall hbank =>
    obtain ⟨addr, hstate, rfl⟩ := flashRead_call_transferOut hcall
    have hphase := hs.at (.inl hstate)
    rw [hstate] at hphase
    rw [step_request size hstate]
    exact .inr ⟨addr, hphase.sent.1⟩
  | received n q hcall hq =>
    obtain ⟨addr, hstate, rfl⟩ := flashRead_call_transferIn hcall
    have hphase := hs.at (.inr hstate)
    rw [hstate] at hphase
    rcases hphase.taken hq with ⟨hlen, hphase', -⟩ | ⟨rfl, hnext⟩
    · rw [step_button size hstate hlen]
      exact .inr ⟨addr, hphase'⟩
    · rw [step_block size hstate (block_length _ _)]
      exact phase_loop hnext _
  | called call hcall hcontrol => exact .inl (step_control size hcall hcontrol _).1
  | timeoutOUT p hcall =>
    obtain ⟨addr, hstate, rfl⟩ := flashRead_call_transferOut hcall
    have hphase := hs.at (.inl hstate)
    rw [hstate] at hphase
    rw [step_requestError size hstate (show timedOut.r ≠ 0 by decide)]
    exact phase_loop hphase.request_any _
  | timeoutIN n hcall =>
    obtain ⟨addr, hstate, rfl⟩ := flashRead_call_transferIn hcall
    exact absurd hstate (ha.2 rfl addr)
  | poll => exact absurd rfl ha.1
  | blockedOUT | blockedIN | returned | noTransfer => exact hs.phase

/-- In a phase no reply waits for a transfer that may time out, and the firmware reads the block
`flash_read` waits for. -/
theorem InPhase.inTurn {size : UInt32} {s : Composed State chip} (hs : InPhase s) {a : Action}
    (ha : AwaitsReplies s a) : InTurn size s a := by
  cases a with
  | transfer | poll => trivial
  | timeout =>
    intro q hq hlen addr hat
    have hphase := hs.at hat
    rcases hat with hstate | hstate
    · rw [hstate] at hphase
      cases hphase with
      | request hout hidle hin =>
        rw [hin q hq] at hlen
        cases hlen
    · exact absurd hstate (ha.2 rfl addr)
  | firmware pinC =>
    intro hnext hbank hcommand
    rcases hs.phase with hclosing | ⟨addr, hphase⟩
    · exact .inr hclosing
    · generalize hstate : s.host.state = st at hphase ⊢
      cases hphase with
      | commanded hout _ haddr => exact .inl (.inr (by rw [haddr]))
      | request _ hidle | pending _ hidle | replied _ hidle => exact absurd hcommand hidle.2

theorem inTurn_of_awaitsReplies {d : Device chip} (hd : ReadReady d) {size : UInt32}
    {as : List Action}
    (has : Along (step (flashRead size)) AwaitsReplies (dumpStart size d) as) :
    Along (step (flashRead size)) (InTurn size) (dumpStart size d) as := by
  have hstart : InPhase (dumpStart size d) :=
    ⟨hd.settled, phase_loop (fun a => .request hd.outBank hd.idle hd.inBank) 0⟩
  exact has.of_invariant (fun _ _ hs ha => hs.step ha) (fun _ _ hs ha => hs.inTurn ha) hstart

theorem ReadReady.noBlockWaiting {d : Device chip} (hd : ReadReady d) : NoBlockWaiting d := by
  refine ⟨hd.settled, ?_, ?_⟩
  · intro bank hbank
    rw [hd.outBank] at hbank
    cases hbank
  · intro q hq hlen
    rw [hd.inBank q hq] at hlen
    cases hlen

/-- From a device at which `flash_read` may start, every block is printed under its own address
if no IN transfer times out, however many requests do. -/
theorem blocks_attributed_of_replies {d : Device chip} (hd : ReadReady d) (size : UInt32)
    (as : List Action)
    (has : Along (step (flashRead size)) AwaitsReplies (dumpStart size d) as) :
    ∀ m ∈ (run (step (flashRead size)) (dumpStart size d) as).host.out,
      Attributed chip d.mcu.target.flash m := by
  have hwaiting := hd.noBlockWaiting
  have hstart : TimeoutInv d.mcu.target.flash (dumpStart size d) :=
    ⟨hwaiting.settled, rfl, hwaiting.noWrite, fun q hq hlen => absurd hlen (hwaiting.inBank q hq),
      fun _ hm => absurd hm List.not_mem_nil⟩
  have hinv : TimeoutInv d.mcu.target.flash (run (step (flashRead size)) (dumpStart size d) as) :=
    (inTurn_of_awaitsReplies hd has).invariant (fun _ _ hs hturn => hs.step hturn) hstart
  exact hinv.attributed

/-- The first request times out, the second is answered. -/
theorem blocks_attributed_second :
    .block 4 [0xFFFF, 0xFFFF, 0xFFFF, 0xFFFF] ∈ (run (step (flashRead 16))
        (dumpStart 16 (powerOn (fun _ => 0) erase : Device atmega328p))
        [.timeout, .transfer, .firmware 0, .firmware 0, .transfer]).host.out ∧
      Attributed atmega328p erase (.block 4 [0xFFFF, 0xFFFF, 0xFFFF, 0xFFFF]) := by
  have hready : ReadReady (powerOn (fun _ => 0) erase : Device atmega328p) :=
    readReady_powerOn (fun _ => 0) erase
  have hprinted : .block 4 [0xFFFF, 0xFFFF, 0xFFFF, 0xFFFF] ∈ (run (step (flashRead 16))
      (dumpStart 16 (powerOn (fun _ => 0) erase : Device atmega328p))
      [.timeout, .transfer, .firmware 0, .firmware 0, .transfer]).host.out := by decide +kernel
  have hloop : loop 16 0 = .request 0 := by decide
  have hawaits : Along (step (flashRead 16)) AwaitsReplies
      (dumpStart 16 (powerOn (fun _ => 0) erase : Device atmega328p))
      [.timeout, .transfer, .firmware 0, .firmware 0, .transfer] := by
    refine ⟨⟨by decide, fun _ addr h => ?_⟩, ⟨by decide, nofun⟩, ⟨by decide, nofun⟩,
      ⟨by decide, nofun⟩, ⟨by decide, nofun⟩, trivial⟩
    change loop 16 0 = .receive addr at h
    rw [hloop] at h
    cases h
  exact ⟨hprinted, blocks_attributed hready.noBlockWaiting 16 _
    (inTurn_of_awaitsReplies hready hawaits) _ hprinted⟩

end System
end AvrProgrammer
