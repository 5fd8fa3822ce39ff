import AvrProgrammer.System.RoundTrip
import AvrProgrammer.Software.MainPc
import AvrProgrammer.Firmware.Latency

/-!
# `main_pc.c` with the device

The live mode is a distributed copy of two small states: port B of the board follows `data_out`
of the host, and the screen follows the buttons. Transfers may fail, and the packets under way
are at most one in each bank.

* `live_safe`: in every run the flash of the target is kept, port B is the last order that
  arrived, whatever became of those before it, and what is on the screen was read from the pins by
  `ProcessIN`, in this order.
* `live_settles`: once nobody touches the keyboard and the buttons, port B and the screen become
  right and stay so, under every fair schedule without failures.

Each order drives PB0 low, so that the target is in reset as long as the live mode is used.
-/

namespace AvrProgrammer
namespace System

open PagedFlash Runs Changes Firmware Software
open Software.MainPc (State received orders displayed ordersBefore leds mask StateInv
  lectureClavier initial)

variable {chip : Chip} {keys : ℕ → Option Char}

/-! ## What is under way -/

/-- The orders that arrived. -/
def delivered (calls : List (Call × Result)) : List UInt8 :=
  calls.filterMap fun call => match call with
    | (.transferOut [dataOut], ⟨0, _⟩) => some dataOut
    | _ => none

/-- Port B once the packet in the OUT bank is executed. -/
def port (d : Device chip) : UInt8 := d.pending.foldl portAfter d.mcu.portB

/-- The packet in the IN bank. -/
def waiting (d : Device chip) : List UInt8 := d.mcu.inBank.getD []

/-- The buttons as `ProcessIN` reads them, when it finds the IN bank free. -/
def sample (d : Device chip) : Action → Option UInt8
  | .firmware pinC =>
    if d.next = .dataIn ∧ d.mcu.inBank.isNone then some (pinC &&& 0xC0) else none
  | _ => none

/-- What `ProcessIN` reads in a run. -/
def sampled {σ : Type} (P : Program σ) (s : Composed σ chip) : List Action → List UInt8
  | [] => []
  | a :: as => (sample s.device a).toList ++ sampled P (step P s a) as

theorem delivered_append (calls calls' : List (Call × Result)) :
    delivered (calls ++ calls') = delivered calls ++ delivered calls' := List.filterMap_append

/-- An order has PB0 to PB4 low. -/
theorem leds_low (keys : ℕ → Option Char) (n : ℕ) : leds keys n &&& 0x1F = 0 := by
  unfold leds
  -- each LED is its own bit, above the bits of the commands
  rcases MainPc.lit_cases keys n 'e' with he | he <;>
    rcases MainPc.lit_cases keys n 'z' with hz | hz <;>
    rcases MainPc.lit_cases keys n 'a' with ha | ha <;> rw [he, hz, ha] <;> decide

theorem ne_command_of_low {b : UInt8} (hb : b &&& 0x1F = 0) : b ∉ [0x01, 0x02, 0x03, 0x04] := by
  intro hmem
  simp only [List.mem_cons, List.not_mem_nil, or_false] at hmem
  rcases hmem with rfl | rfl | rfl | rfl <;> revert hb <;> decide

/-- An order is no request, means nothing for the flash and goes to port B. -/
theorem order_spec {b : UInt8} (hb : b &&& 0x1F = 0) :
    ¬ IsRequest [b] ∧ WellSized [b] ∧ (∀ flash, effect chip flash [b] = flash) ∧
      ∀ portB, portAfter portB [b] = b := by
  have hcommand := ne_command_of_low hb
  simp only [List.mem_cons, List.not_mem_nil, or_false, not_or] at hcommand
  obtain ⟨h1, h2, h3, h4⟩ := hcommand
  refine ⟨by simp [IsRequest, h1, h2], by simp [WellSized, h2, h3], fun flash => ?_, fun portB => ?_⟩
  · exact effect_other flash (by simp [h3]) (by simp [h4])
  · simp [portAfter, ledCommand, h1, h2, h3, h4]

/-! ## The invariant -/

/-- The board and the screen lag behind by the packets in the banks. -/
structure LiveInv (keys : ℕ → Option Char) (d : Device chip) (samples : List UInt8)
    (s : Composed State chip) : Prop where
  settled : Settled s.device.mcu
  host : StateInv keys s.host.state s.host.calls
  conversation : Conversation (meaning d) s.device none
  port : port s.device = current (port d) (delivered s.host.calls)
  shown : (received s.host.calls ++ waiting s.device).Sublist (waiting d ++ samples)

variable {d : Device chip} {samples : List UInt8} {s : Composed State chip}

/-- The orders are executed without a reply, and mean nothing for the flash. -/
theorem LiveInv.quiet (h : LiveInv keys d samples s) :
    Quiet s.device ∧ meaning s.device = meaning d :=
  h.conversation.to_quiet h.settled

/-- The main loop executes the packet of the OUT bank. -/
theorem port_serve {d : Device chip} {p : Packet} (hbank : d.mcu.outBank = some ⟨p, p⟩)
    (pinC : UInt8) :
    port { d with mcu := Mcu.processed { d.mcu with pinC := pinC } p, next := .dataIn } = port d := by
  have hpending : d.pending = [p] := by simp [Device.pending, hbank]
  rw [port, port, hpending]
  simp [Device.pending, Mcu.portB_processed]

/-- A handler keeps the invariant. -/
theorem LiveInv.firmware (h : LiveInv keys d samples s) (pinC : UInt8) :
    LiveInv keys d (samples ++ (sample s.device (.firmware pinC)).toList)
      ⟨s.host, Firmware.step s.device (.firmware pinC)⟩ := by
  have heffect := Firmware.step_effect h.settled (.firmware pinC)
  have hidle : Idle s.device := h.quiet.1.idle
  have hmore : (received s.host.calls ++ waiting s.device).Sublist
      (waiting d ++ (samples ++ (sample s.device (.firmware pinC)).toList)) := by
    rw [← List.append_assoc]
    exact h.shown.trans (List.sublist_append_left _ _)
  refine ⟨h.settled.step _, h.host, h.conversation.firmware h.settled pinC, ?_, ?_⟩
  · rw [← h.port]
    generalize Firmware.step s.device (.firmware pinC) = d' at heffect ⊢
    cases heffect with
    | idleOUT | busyIN => rfl
    | serve _ p hnext hbank => exact port_serve hbank pinC
    | answer =>
      rw [Mcu.answered_buttons (m := { s.device.mcu with pinC := pinC }) hidle.1 hidle.2]
      rfl
  · generalize Firmware.step s.device (.firmware pinC) = d' at heffect ⊢
    cases heffect with
    | idleOUT | busyIN => exact hmore
    | serve =>
      show (received s.host.calls ++ (Mcu.processed _ _).inBank.getD []).Sublist _
      rw [Mcu.inBank_processed]
      exact hmore
    | answer _ hnext hbank =>
      rw [Mcu.answered_buttons (m := { s.device.mcu with pinC := pinC }) hidle.1 hidle.2]
      -- the bank was empty, and now holds the sample of this handler
      have hnow := h.shown
      rw [waiting, hbank, Option.getD_none, List.append_nil] at hnow
      rw [sample, if_pos ⟨hnext, by rw [hbank]; rfl⟩, ← List.append_assoc]
      exact hnow.append (List.Sublist.refl _)

/-- The host waits to send an order. -/
theorem order_of_transferOut (h : LiveInv keys d samples s) {p : Packet}
    (hcall : (mainPc keys).call s.host.state = some (.transferOut p)) :
    ∃ b, p = [b] ∧ b &&& 0x1F = 0 := by
  have hhost := h.host
  generalize s.host.state = state at hhost hcall
  cases hhost with
  | send hvars =>
    cases hcall
    exact ⟨_, rfl, by rw [hvars.dataOut]; exact leds_low keys _⟩
  | receive | quit => cases hcall

/-- The host waits for a packet of one byte. -/
theorem size_of_transferIn {size : ℕ}
    (hcall : (mainPc keys).call s.host.state = some (.transferIn size)) : size = 1 := by
  generalize s.host.state = state at hcall
  cases state with
  | receive => cases hcall; rfl
  | send | quit => cases hcall

/-- The loop makes transfers only. -/
theorem not_isControl {call : Call} (hcall : (mainPc keys).call s.host.state = some call) :
    ¬ IsControl call := by
  generalize s.host.state = state at hcall
  cases state with
  | send | receive => cases hcall; exact not_false
  | quit => cases hcall

/-- Every action keeps the invariant. -/
theorem LiveInv.step (h : LiveInv keys d samples s) (a : Action) :
    LiveInv keys d (samples ++ (sample s.device a).toList) (step (mainPc keys) s a) := by
  have heffect := step_effect (mainPc keys) s a
  have hsettled := settled_step (mainPc keys) h.settled a
  have hmore : (waiting d ++ samples).Sublist
      (waiting d ++ (samples ++ (sample s.device a).toList)) := by
    rw [← List.append_assoc]
    exact List.sublist_append_left _ _
  have hkept := h.shown.trans hmore
  generalize System.step (mainPc keys) s a = s' at heffect hsettled ⊢
  cases heffect with
  | firmware pinC => exact h.firmware pinC
  | sent p hcall hbank =>
    obtain ⟨b, rfl, hb⟩ := order_of_transferOut h hcall
    obtain ⟨hother, hsized, hflash, hport⟩ := @order_spec chip b hb
    have harrive := h.conversation.arrive hbank hsized
    rw [if_neg hother, hflash] at harrive
    refine ⟨hsettled, h.host.step _, harrive, ?_, ?_⟩
    · rw [Program.step_of_call _ hcall, delivered_append, current_append, arrive_eq hbank]
      exact hport _
    · rw [Program.step_of_call _ hcall, arrive_eq hbank, MainPc.received_append,
        MainPc.received_transferOut, List.append_nil]
      exact hkept
  | received size q hcall hbank =>
    rcases h.conversation.taken hbank with ⟨⟨b, rfl⟩, hkept'⟩ | ⟨howed, -⟩
    · have hsize : size = 1 := size_of_transferIn hcall
      subst hsize
      refine ⟨hsettled, h.host.step _, hkept', ?_, ?_⟩
      · rw [Program.step_of_call _ hcall, delivered_append, current_append]
        exact h.port
      · have hnow := h.shown
        rw [waiting, hbank] at hnow
        rw [Program.step_of_call _ hcall, MainPc.received_append, List.append_assoc]
        exact hnow.trans hmore
    · cases howed
  | timeoutOUT p hcall =>
    obtain ⟨b, rfl, -⟩ := order_of_transferOut h hcall
    refine ⟨hsettled, h.host.step _, h.conversation, ?_, ?_⟩
    · rw [Program.step_of_call _ hcall, delivered_append, current_append]
      exact h.port
    · rw [Program.step_of_call _ hcall, MainPc.received_append, MainPc.received_transferOut,
        List.append_nil]
      exact hkept
  | timeoutIN size hcall =>
    refine ⟨hsettled, h.host.step _, h.conversation, ?_, ?_⟩
    · rw [Program.step_of_call _ hcall, delivered_append, current_append]
      exact h.port
    · rw [Program.step_of_call _ hcall, MainPc.received_append]
      rw [show received [(Call.transferIn size, timedOut)] = [] from rfl, List.append_nil]
      exact hkept
  | called call hcall hcontrol => exact absurd hcontrol (not_isControl hcall)
  | poll =>
    refine ⟨hsettled, h.host, ?_, h.port, ?_⟩
    · obtain ⟨hquiet, hflash⟩ := h.quiet
      refine .quiet hquiet.idle ?_ hquiet.pending hflash
      rintro q ⟨⟩
    · show (received s.host.calls ++ []).Sublist _
      rw [List.append_nil]
      exact (List.sublist_append_left _ _).trans hkept
  | blockedOUT | blockedIN | returned | noTransfer =>
    exact ⟨hsettled, h.host, h.conversation, h.port, hkept⟩

/-! ## Safety -/

/-- The live mode from the claimed interface on. -/
def liveStart (keys : ℕ → Option Char) (d : Device chip) : Composed State chip :=
  ⟨Program.start (lectureClavier (keys 0) initial), d⟩

theorem liveInv_start (keys : ℕ → Option Char) (hd : Quiet d) :
    LiveInv keys d [] (liveStart keys d) := by
  have hstart := MainPc.stateInv_run keys []
  refine ⟨hd.settled, hstart, .quiet hd.idle hd.inBank hd.pending rfl, rfl, ?_⟩
  rw [List.append_nil]
  exact List.Sublist.refl _

theorem LiveInv.run (h : LiveInv keys d samples s) (as : List Action) :
    LiveInv keys d (samples ++ sampled (mainPc keys) s as)
      (run (System.step (mainPc keys)) s as) := by
  induction as generalizing samples s with
  | nil =>
    rw [sampled, List.append_nil]
    exact h
  | cons a as ih =>
    have hrest := ih (h.step a)
    rwa [List.append_assoc] at hrest

/-- An order that arrived was sent. -/
theorem delivered_sublist (calls : List (Call × Result)) :
    (delivered calls).Sublist (orders calls) := by
  induction calls with
  | nil => exact List.Sublist.refl _
  | cons call calls ih =>
    have hone : (delivered [call]).Sublist (orders [call]) := by
      unfold delivered orders
      rw [List.filterMap_cons, List.filterMap_cons]
      split
      · exact List.nil_sublist _
      next hsome =>
        split at hsome
        · cases hsome
          exact List.Sublist.refl _
        · cases hsome
    have hboth := hone.append ih
    rwa [← delivered_append, ← MainPc.orders_append] at hboth

theorem ssHigh_of_low {portB : UInt8} (h : portB &&& 0x1F = 0) : ssHigh portB = false := by
  revert portB; decide +kernel

/-- Every order that was sent has PB0 low. -/
theorem low_of_mem_orders {state : State} {calls : List (Call × Result)}
    (h : StateInv keys state calls) {b : UInt8} (hb : b ∈ orders calls) : b &&& 0x1F = 0 := by
  have hbefore : ∃ n, orders calls = ordersBefore keys n := by
    cases h with
    | send hvars hkey hsent | receive hvars hsent | quit hvars hsent => exact ⟨_, hsent⟩
  obtain ⟨n, hn⟩ := hbefore
  rw [hn] at hb
  obtain ⟨i, -, rfl⟩ := List.mem_map.mp hb
  exact leds_low keys (i + 1)

/-- A run of the live mode, in which `read` was read from the pins. -/
structure LiveSafe (d : Device chip) (read : List UInt8) (s : Composed State chip) : Prop where
  /-- The flash is kept, and a host program may start afterwards. -/
  flash : meaning s.device = meaning d
  quiet : Quiet s.device
  /-- Port B is the order that arrived last, -/
  leds : port s.device = current (port d) (delivered s.host.calls)
  /-- which holds the target in reset. -/
  reset : delivered s.host.calls ≠ [] → ssHigh (port s.device) = false
  /-- The screen shows what was in the IN bank or was read from the pins. -/
  shown : (displayed s.host.state.vars.printed).Sublist (waiting d ++ read)

/-- **Safety of the live mode.** It holds in every run, whatever keys are pressed, whichever
transfers fail, and even if somebody else polls the buttons. -/
theorem live_safe (keys : ℕ → Option Char) (hd : Quiet d) (as : List Action) :
    LiveSafe d (sampled (mainPc keys) (liveStart keys d) as)
      (run (step (mainPc keys)) (liveStart keys d) as) := by
  have hinv := (liveInv_start keys hd).run as
  rw [List.nil_append] at hinv
  generalize run (step (mainPc keys)) (liveStart keys d) as = s at hinv ⊢
  obtain ⟨hquiet, hflash⟩ := hinv.quiet
  refine ⟨hflash, hquiet, hinv.port, fun hsome => ?_, ?_⟩
  · rw [hinv.port]
    apply ssHigh_of_low
    exact low_of_mem_orders hinv.host ((delivered_sublist _).subset (current_mem hsome))
  · rw [hinv.host.vars.displayed]
    exact changes_sublist.trans ((List.sublist_append_left _ _).trans hinv.shown)

/-! ## Convergence -/

/-- From turn `N` on nobody presses a key, from the action `M` on nobody touches the buttons, and
the host and the main loop act again and again without failures. -/
structure Calm (keys : ℕ → Option Char) (sched : ℕ → Action) (N M : ℕ) (pinC : UInt8) : Prop where
  faultFree : ∀ n, FaultFree (sched n)
  fair : Fair sched
  hands : ∀ i, N ≤ i → keys i = none
  running : ∀ i, keys i ≠ some 'q'
  pins : ∀ n, M ≤ n → ∀ p, sched n = .firmware p → p = pinC

/-- Port B when the keys are no longer pressed. -/
def finalPort (keys : ℕ → Option Char) (d : Device chip) (N : ℕ) : UInt8 :=
  if ordersBefore keys N = [] then port d else leds keys N

/-- The last order shows all LEDs. -/
theorem current_ordersBefore (keys : ℕ → Option Char) (portB : UInt8) (N : ℕ) :
    current portB (ordersBefore keys N)
      = if ordersBefore keys N = [] then portB else leds keys N := by
  induction N with
  | zero => rfl
  | succ N ih =>
    rw [MainPc.ordersBefore_succ]
    by_cases hkey : mask (keys N) ≠ 0
    · rw [if_pos hkey, current_append, if_neg (by simp)]
      rfl
    · rw [if_neg hkey, List.append_nil, ih, MainPc.leds_succ, not_not.mp hkey, UInt8.xor_zero]

/-- Without keys no orders are made. -/
theorem ordersBefore_of_le {N n : ℕ} (hkeys : ∀ i, N ≤ i → keys i = none) (hn : N ≤ n) :
    ordersBefore keys n = ordersBefore keys N := by
  induction n, hn using Nat.le_induction with
  | base => rfl
  | succ n hn ih =>
    rw [MainPc.ordersBefore_succ, hkeys n hn, if_neg (by decide), List.append_nil, ih]

/-- Without failures every order arrives. -/
theorem delivered_step (h : LiveInv keys d samples s)
    (heq : delivered s.host.calls = orders s.host.calls) {a : Action} (ha : FaultFree a) :
    delivered (step (mainPc keys) s a).host.calls = orders (step (mainPc keys) s a).host.calls := by
  have heffect := step_effect (mainPc keys) s a
  generalize System.step (mainPc keys) s a = s' at heffect ⊢
  cases heffect with
  | sent p hcall =>
    obtain ⟨b, rfl, -⟩ := order_of_transferOut h hcall
    rw [Program.step_of_call _ hcall, delivered_append, MainPc.orders_append, heq]
    rfl
  | received size q hcall =>
    rw [Program.step_of_call _ hcall, delivered_append, MainPc.orders_append, heq]
    rfl
  | called call hcall hcontrol => exact absurd hcontrol (not_isControl hcall)
  | timeoutOUT | timeoutIN | noTransfer => exact absurd rfl ha.1
  | firmware | blockedOUT | blockedIN | returned | poll => exact heq

/-- The buttons have been `pinC` since turn `base`: one packet of before may have been in the IN
bank. -/
structure Shows (base : ℕ) (pinC : UInt8) (s : Composed State chip) : Prop where
  fresh : base < s.host.state.vars.turn →
    ∀ q, s.device.mcu.inBank = some q → q = [pinC &&& 0xC0]
  shown : base + 1 < s.host.state.vars.turn → s.host.state.vars.lastDataIn = pinC &&& 0xC0

/-- An action while nobody touches the buttons. -/
theorem Shows.step {base : ℕ} {pinC : UInt8} (hinv : LiveInv keys d samples s)
    (h : Shows base pinC s) {a : Action} (ha : FaultFree a)
    (hpins : ∀ p, a = .firmware p → p = pinC) :
    Shows base pinC (step (mainPc keys) s a) := by
  have heffect := step_effect (mainPc keys) s a
  generalize System.step (mainPc keys) s a = s' at heffect ⊢
  cases heffect with
  | firmware p =>
    obtain rfl : p = pinC := hpins p rfl
    have hidle : Idle s.device := hinv.quiet.1.idle
    refine ⟨fun hbase => ?_, h.shown⟩
    have hfresh := h.fresh hbase
    have heffect := Firmware.step_effect hinv.settled (.firmware p)
    show ∀ q, (Firmware.step s.device (.firmware p)).mcu.inBank = some q → _
    generalize Firmware.step s.device (.firmware p) = d' at heffect ⊢
    cases heffect with
    | idleOUT | busyIN => exact hfresh
    | serve =>
      rw [Mcu.inBank_processed]
      exact hfresh
    | answer =>
      rw [Mcu.answered_buttons (m := { s.device.mcu with pinC := p }) hidle.1 hidle.2]
      rintro q ⟨rfl⟩
      rfl
  | sent p hcall hbank =>
    obtain ⟨hfresh, hshown⟩ := h
    rw [Program.step_of_call _ hcall, arrive_eq hbank]
    generalize s.host.state = state at hcall hfresh hshown ⊢
    cases state with
    | receive | quit => cases hcall
    | send v => exact ⟨hfresh, hshown⟩
  | received size q hcall hbank =>
    obtain ⟨hfresh, hshown⟩ := h
    obtain rfl : size = 1 := size_of_transferIn hcall
    rcases hinv.conversation.taken hbank with ⟨⟨b, rfl⟩, -⟩ | ⟨howed, -⟩
    · rw [Program.step_of_call _ hcall, taken_of_le (show [b].length ≤ 1 from Nat.le_refl 1)]
      generalize s.host.state = state at hcall hfresh hshown ⊢
      cases state with
      | send | quit => cases hcall
      | receive v =>
        obtain ⟨hlast, hlt⟩ := MainPc.resume_button keys v b
        refine ⟨fun _ q hq => ?_, fun hbase => ?_⟩
        · cases hq
        · -- the packet was put into the bank after turn `base`
          have hlater : base + 1 < ((mainPc keys).resume (.receive v) ⟨0, [b]⟩).1.vars.turn := hbase
          have hb := hfresh (show base < v.turn by omega) [b] hbank
          injection hb with hb
          exact hlast.trans hb
    · cases howed
  | called call hcall hcontrol => exact absurd hcontrol (not_isControl hcall)
  | timeoutOUT | timeoutIN | noTransfer => exact absurd rfl ha.1
  | poll => exact absurd rfl ha.2
  | blockedOUT | blockedIN | returned => exact h

/-- When nobody presses a key any more, the main loop empties the OUT bank. -/
theorem dueOUT_step {N : ℕ} (hkeys : ∀ i, N ≤ i → keys i = none) (hinv : LiveInv keys d samples s)
    (hN : N ≤ s.host.state.vars.turn) {a : Action} (ha : FaultFree a) :
    dueOUT (step (mainPc keys) s a).device < dueOUT s.device ∨
      dueOUT (step (mainPc keys) s a).device = dueOUT s.device ∧
        (0 < dueOUT s.device → party a ≠ .device) := by
  have heffect := step_effect (mainPc keys) s a
  generalize System.step (mainPc keys) s a = s' at heffect ⊢
  cases heffect with
  | firmware p =>
    rw [dueOUT_firmware hinv.settled p]
    by_cases hpos : 0 < dueOUT s.device
    · left
      omega
    · right
      exact ⟨by omega, fun h => absurd h hpos⟩
  | sent p hcall hbank =>
    -- a turn without a key has no order
    have hhost := hinv.host
    generalize s.host.state = state at hhost hcall hN
    cases hhost with
    | @send v _ hvars hkey =>
      have hnone : keys v.turn = none := hkeys v.turn hN
      exact absurd (by rw [hnone]; rfl) hkey
    | receive | quit => cases hcall
  | received size q hcall hbank => exact .inr ⟨rfl, fun _ => Party.noConfusion⟩
  | called call hcall hcontrol => exact absurd hcontrol (not_isControl hcall)
  | timeoutOUT | timeoutIN | noTransfer => exact absurd rfl ha.1
  | poll => exact absurd rfl ha.2
  | blockedOUT | blockedIN | returned => exact .inr ⟨rfl, fun _ => Party.noConfusion⟩

/-- No action takes a turn back. -/
theorem turn_step (keys : ℕ → Option Char) (s : Composed State chip) (a : Action) :
    s.host.state.vars.turn ≤ (step (mainPc keys) s a).host.state.vars.turn := by
  have hcall : ∀ call, (mainPc keys).call s.host.state = some call → ∀ result,
      s.host.state.vars.turn ≤ ((mainPc keys).step s.host result).state.vars.turn := by
    intro call hcall result
    rw [Program.step_of_call _ hcall]
    exact MainPc.turn_le_resume keys s.host.state result
  have heffect := step_effect (mainPc keys) s a
  generalize System.step (mainPc keys) s a = s' at heffect ⊢
  cases heffect with
  | sent p hp | received size q hp | called call hp | timeoutOUT p hp | timeoutIN size hp =>
    exact hcall _ hp _
  | _ => exact Nat.le_refl _

namespace Calm

variable {sched : ℕ → Action} {N M : ℕ} {pinC : UInt8} (h : Calm keys sched N M pinC)
  (hd : Quiet d)
include h hd

theorem inv (n : ℕ) : ∃ samples, LiveInv keys d samples
      (runTo (step (mainPc keys)) (liveStart keys d) sched n) ∧
    delivered (runTo (step (mainPc keys)) (liveStart keys d) sched n).host.calls
      = orders (runTo (step (mainPc keys)) (liveStart keys d) sched n).host.calls := by
  induction n with
  | zero => exact ⟨[], liveInv_start keys hd, rfl⟩
  | succ n ih =>
    obtain ⟨samples, hinv, heq⟩ := ih
    exact ⟨_, hinv.step _, delivered_step hinv heq (h.faultFree n)⟩

/-- The turns go on. -/
theorem turns (K : ℕ) :
    Settles (step (mainPc keys)) (liveStart keys d) sched fun s => K ≤ s.host.state.vars.turn := by
  apply settles_of_stable 0
  · intro n _ hK
    exact hK.trans (turn_step keys _ _)
  · have hrunning : ∀ n, (mainPc keys).call
        (runTo (step (mainPc keys)) (liveStart keys d) sched n).host.state ≠ none := by
      intro n
      obtain ⟨samples, hinv, -⟩ := h.inv hd n
      exact (hinv.host.running h.running).1
    obtain ⟨n, hn⟩ := exists_calls (mainPc keys) (s := liveStart keys d) hd.settled h.faultFree
      h.fair hrunning (2 * K)
    obtain ⟨samples, hinv, -⟩ := h.inv hd n
    have hbound := (hinv.host.running h.running).2
    exact ⟨n, Nat.zero_le n, by omega⟩

/-- The screen becomes right. -/
theorem screen : Settles (step (mainPc keys)) (liveStart keys d) sched fun s =>
    s.host.state.vars.lastDataIn = pinC &&& 0xC0 := by
  -- `base` is the turn from which on the buttons stay as they are
  obtain ⟨base, hbase⟩ : ∃ base, base =
    (runTo (step (mainPc keys)) (liveStart keys d) sched M).host.state.vars.turn := ⟨_, rfl⟩
  have hshows : ∀ n, M ≤ n →
      Shows base pinC (runTo (step (mainPc keys)) (liveStart keys d) sched n) := by
    intro n hn
    induction n, hn using Nat.le_induction with
    | base => exact ⟨fun hlt => by omega, fun hlt => by omega⟩
    | succ n hn ih =>
      obtain ⟨samples, hinv, -⟩ := h.inv hd n
      exact ih.step hinv (h.faultFree n) (h.pins n hn)
  obtain ⟨n, hn⟩ := h.turns hd (base + 2)
  refine ⟨max n M, fun m hm => ?_⟩
  exact (hshows m (by omega)).shown (hn m (by omega))

/-- The OUT bank becomes empty for ever. -/
theorem drained : Settles (step (mainPc keys)) (liveStart keys d) sched fun s =>
    dueOUT s.device = 0 := by
  obtain ⟨n, hn⟩ := h.turns hd N
  apply settles_of_stable n
  · intro m hm hzero
    obtain ⟨samples, hinv, -⟩ := h.inv hd m
    rcases dueOUT_step h.hands hinv (hn m hm) (h.faultFree m) with hlt | ⟨hsame, -⟩
    · omega
    · exact hsame.trans hzero
  · obtain ⟨k, hk⟩ := @eventually_measure_zero _ _ (step (mainPc keys)) (fun _ a => FaultFree a)
      (runTo (step (mainPc keys)) (liveStart keys d) sched n) Party party (fun _ => .device)
      (fun s => dueOUT s.device)
      (fun s => (∃ samples, LiveInv keys d samples s) ∧ N ≤ s.host.state.vars.turn)
      (fun i => sched (n + i))
      (fun s a hs ha => by
        obtain ⟨⟨samples, hinv⟩, hN⟩ := hs
        refine ⟨⟨⟨_, hinv.step a⟩, hN.trans (turn_step keys s a)⟩, ?_⟩
        rcases dueOUT_step h.hands hinv hN ha with hlt | ⟨hsame, hparty⟩
        · exact .inl hlt
        · exact .inr ⟨hsame, fun hpos => ⟨hparty hpos, rfl⟩⟩)
      (fun i => h.faultFree (n + i)) (h.fair.shift n)
      ⟨(h.inv hd n).imp fun _ hinv => hinv.1, hn n (Nat.le_refl n)⟩
    rw [← runTo_shift] at hk
    exact ⟨n + k, Nat.le_add_right n k, hk⟩

end Calm

/-- **Convergence of the live mode.** Once nobody touches the keyboard and the buttons any more,
port B shows the keys that were pressed an odd number of times and the screen shows the buttons,
from some time on and for ever. -/
theorem live_settles (hd : Quiet d) {sched : ℕ → Action} {N M : ℕ} {pinC : UInt8}
    (hcalm : Calm keys sched N M pinC) :
    Settles (step (mainPc keys)) (liveStart keys d) sched fun s =>
      s.device.mcu.portB = finalPort keys d N ∧
        current 0xFF (displayed s.host.state.vars.printed) = pinC &&& 0xC0 := by
  obtain ⟨n, hn⟩ := ((hcalm.turns hd N).and (hcalm.drained hd)).and (hcalm.screen hd)
  refine ⟨n, fun m hm => ?_⟩
  obtain ⟨⟨hturn, hdrained⟩, hlast⟩ := hn m hm
  obtain ⟨samples, hinv, hdelivered⟩ := hcalm.inv hd m
  generalize runTo (step (mainPc keys)) (liveStart keys d) sched m = s at *
  constructor
  · -- the last order has been executed
    have hport : port s.device = s.device.mcu.portB := by
      rw [port, Device.pending, dueOUT_eq_zero.mp hdrained]
      rfl
    have horders : orders s.host.calls = ordersBefore keys N := by
      have hhost := hinv.host
      generalize s.host.state = state at hhost hturn
      cases hhost with
      | send hvars hkey hsent => exact hsent.trans (ordersBefore_of_le hcalm.hands hturn)
      | receive hvars hsent | quit hvars hsent =>
        exact hsent.trans (ordersBefore_of_le hcalm.hands (Nat.le_succ_of_le hturn))
    rw [← hport, hinv.port, hdelivered, horders]
    exact current_ordersBefore keys (port d) N
  · rw [hinv.host.vars.displayed, current_changes, ← hinv.host.vars.last, hlast]

/-- The key of LED 1, pressed once. -/
def pressOnce (n : ℕ) : Option Char := if n = 0 then some 'e' else none

/-- An order that is lost, and a poll of somebody else: the first reading does not reach the
screen. -/
theorem live_safe_pressOnce :
    LiveSafe zeroed [0xC0, 0x40]
      (run (step (mainPc pressOnce)) (liveStart pressOnce zeroed) [.timeout, .firmware 0xFF,
        .firmware 0xFF, .poll, .firmware 0, .firmware 0x7F, .transfer]) := by
  have hread : sampled (mainPc pressOnce) (liveStart pressOnce zeroed)
      [.timeout, .firmware 0xFF, .firmware 0xFF, .poll, .firmware 0, .firmware 0x7F, .transfer]
      = [0xC0, 0x40] := by decide +kernel
  rw [← hread]
  exact live_safe pressOnce quiet_zeroed _

theorem calm_pressOnce : Calm pressOnce alternating 1 0 0 := by
  refine ⟨faultFree_alternating, fair_alternating, ?_, ?_, ?_⟩
  · intro i hi
    exact if_neg (by omega)
  · intro i
    unfold pressOnce
    split_ifs <;> decide
  · intro n _ p hp
    unfold alternating at hp
    split_ifs at hp
    injection hp with hp
    exact hp.symm

/-- LED 1 is lit and the screen shows both buttons pressed. -/
theorem live_settles_pressOnce :
    Settles (step (mainPc pressOnce)) (liveStart pressOnce zeroed) alternating fun s =>
      s.device.mcu.portB = 0x20 ∧ current 0xFF (displayed s.host.state.vars.printed) = 0 := by
  have hport : finalPort pressOnce zeroed 1 = 0x20 := by decide
  have hsettles := live_settles quiet_zeroed calm_pressOnce
  rw [hport] at hsettles
  exact hsettles

end System
end AvrProgrammer
