import AvrProgrammer.System.Dump
import AvrProgrammer.Software.IspIds

/-!
# The discard loop of `isp_ids`

`isp_ids` sends its request and then discards packets of one byte until another packet or a
failure comes. Once the request is accepted the loop ends, whatever was under way in the device:
the packet 0x01 is in the OUT bank, then in `commande_PC`, then its reply is in the IN bank, and
only the buttons answered before it is processed are discarded on the way. If the request has
failed, `isp_ids` enters the loop all the same and waits for a reply that nobody sends.
-/

namespace AvrProgrammer
namespace System

open PagedFlash Runs Firmware Software
open Software.IspIds (State overwrite)

variable {chip : Chip}

/-- `isp_ids` at its start, with the buffer of `main`. -/
def identifyStart (d : Device chip) : Composed State chip := ⟨Program.start (.request [0, 0, 0]), d⟩

/-! ## Steps of `isp_ids` -/

section
variable {h : Host State} {dataIn : List UInt8} {result : Result}

/-- The request has been sent or has failed; `isp_ids` enters its loop. -/
theorem step_asked (hstate : h.state = .request dataIn) (result : Result) :
    (ispIds.step h result).state = .receive dataIn ∧
      (ispIds.step h result).calls = h.calls ++ [(.transferOut [0x01], result)] := by
  have hcall : ispIds.call h.state = some (.transferOut [0x01]) := by
    rw [hstate]
    rfl
  rw [Program.step_of_call _ hcall, hstate]
  exact ⟨rfl, rfl⟩

/-- `isp_ids` discards a packet of one byte. -/
theorem step_discard (hstate : h.state = .receive dataIn) (hbutton : Discarded result) :
    (ispIds.step h result).state = .receive (overwrite dataIn result.data) ∧
      (ispIds.step h result).calls = h.calls ++ [(.transferIn 3, result)] := by
  have hcall : ispIds.call h.state = some (.transferIn 3) := by
    rw [hstate]
    rfl
  rw [Program.step_of_call _ hcall, hstate, ispIds_discard hbutton]
  exact ⟨rfl, rfl⟩

/-- Any other result ends the loop. -/
theorem step_end (hstate : h.state = .receive dataIn) (hends : ¬ Discarded result) :
    (ispIds.step h result).state = .returned (overwrite dataIn result.data) ∧
      (ispIds.step h result).calls = h.calls ++ [(.transferIn 3, result)] := by
  have hcall : ispIds.call h.state = some (.transferIn 3) := by
    rw [hstate]
    rfl
  rw [Program.step_of_call _ hcall, hstate]
  exact ⟨ispIds_end hends, rfl⟩

theorem discarded_taken {q : Packet} (hlen : q.length = 1) : Discarded (taken 3 q) := by
  rw [taken_of_le (by omega)]
  exact ⟨rfl, hlen⟩

theorem not_discarded_taken {q : Packet} (hlen : q.length ≠ 1) : ¬ Discarded (taken 3 q) :=
  taken_other hlen

theorem not_discarded_timedOut : ¬ Discarded timedOut := by
  decide

/-- `isp_ids` makes no other calls. -/
theorem not_control {s : State} {call : Call} (hcall : ispIds.call s = some call) :
    ¬ IsControl call := by
  cases s <;> cases hcall <;> exact not_false

end

/-! ## The reply on its way -/

/-- The request of `isp_ids` is in the OUT bank, or noted by the firmware, or a packet that ends
the loop is in the IN bank. -/
inductive Coming (d : Device chip) : Prop
  | pending (hout : d.mcu.outBank = some ⟨[0x01], [0x01]⟩) : Coming d
  | commanded (hout : d.mcu.outBank = none) (hcommand : d.mcu.commandePC = 0x01) : Coming d
  | replied (hout : d.mcu.outBank = none) (hcommand : d.mcu.commandePC ≠ 0x01) (q : Packet)
    (hreply : d.mcu.inBank = some q) (hlen : q.length ≠ 1) : Coming d

/-- Who moves the identification on. -/
def mover (d : Device chip) : State → Party
  | .request _ => if d.mcu.outBank.isSome then .device else .host
  | .receive _ =>
    if d.mcu.outBank.isSome then .device
    else if d.mcu.commandePC = 0x01 ∧ d.mcu.inBank.isNone then .device
    else .host
  | .returned _ => .host

/-- What is left to do for the identification. -/
def distance (d : Device chip) : State → ℕ
  | .request _ => if d.mcu.outBank.isSome then (if d.next = .dataIn then 12 else 11) else 10
  | .receive _ =>
    if d.mcu.outBank.isSome then (if d.next = .dataIn then 8 else 7)
    else if d.mcu.commandePC = 0x01 then
      (if d.mcu.inBank.isSome then 5 else if d.next = .dataOut then 4 else 3)
    else 2
  | .returned _ => 0

theorem distance_receive (d : Device chip) (dataIn : List UInt8) :
    0 < distance d (.receive dataIn) ∧ distance d (.receive dataIn) ≤ 8 := by
  simp only [distance]
  split_ifs <;> decide

/-- The main loop keeps the reply coming. It moves the request on, or it is the turn of the host
and stays so. -/
theorem Coming.firmware {d : Device chip} (hcoming : Coming d) (dataIn : List UInt8)
    {pinC : UInt8} {d' : Device chip} (heffect : Firmware.Effect d (.firmware pinC) d') :
    Coming d' ∧ (distance d' (.receive dataIn) < distance d (.receive dataIn) ∨
      distance d' (.receive dataIn) = distance d (.receive dataIn) ∧
        mover d' (.receive dataIn) = mover d (.receive dataIn) ∧
        mover d (.receive dataIn) = .host) := by
  cases hcoming with
  | pending hout =>
    cases heffect with
    | idleOUT _ hnext hbank => rw [hout] at hbank; cases hbank
    | serve _ p hnext hbank =>
      rw [hout] at hbank
      cases hbank
      rw [Mcu.processed_signature]
      refine ⟨.commanded rfl rfl, .inl ?_⟩
      simp only [distance, hout, hnext, Option.isSome_some, Option.isSome_none, if_true,
        Bool.false_eq_true, if_false, reduceCtorEq]
      split_ifs <;> decide
    | busyIN _ hnext hbank =>
      refine ⟨.pending hout, .inl ?_⟩
      simp [distance, hout, hnext]
    | answer _ hnext hbank =>
      have hkept : (Mcu.answered { d.mcu with pinC := pinC }).outBank
          = some ⟨[0x01], [0x01]⟩ := (Mcu.outBank_answered _).trans hout
      refine ⟨.pending hkept, .inl ?_⟩
      simp [distance, hout, hnext]
  | commanded hout hcommand =>
    cases heffect with
    | serve _ p hnext hbank => rw [hout] at hbank; cases hbank
    | idleOUT _ hnext hbank =>
      refine ⟨.commanded hout hcommand, ?_⟩
      cases hin : d.mcu.inBank with
      | none => exact .inl (by simp [distance, hout, hcommand, hin, hnext])
      | some q => exact .inr (by simp [distance, mover, hout, hcommand, hin])
    | busyIN _ hnext hbank =>
      refine ⟨.commanded hout hcommand, .inr ?_⟩
      have hfull : d.mcu.inBank.isNone = false := by simpa using hbank
      simp [distance, mover, hout, hcommand, hbank, hfull]
    | answer _ hnext hbank =>
      rw [Mcu.answered_signature (m := { d.mcu with pinC := pinC }) hcommand]
      refine ⟨.replied hout (show (0 : UInt8) ≠ 0x01 by decide) _ rfl
        (show (3 : ℕ) ≠ 1 by decide), .inl ?_⟩
      simp [distance, hout, hcommand, hbank, hnext]
  | replied hout hcommand q hreply hlen =>
    cases heffect with
    | serve _ p hnext hbank => rw [hout] at hbank; cases hbank
    | answer _ hnext hbank => rw [hreply] at hbank; cases hbank
    | idleOUT | busyIN =>
      refine ⟨.replied hout hcommand q hreply hlen, .inr ?_⟩
      simp [distance, mover, hout, hcommand]

/-- Taking a packet of one byte keeps the reply coming. -/
theorem Coming.discard {d : Device chip} (hcoming : Coming d) (dataIn dataIn' : List UInt8)
    {q : Packet} (hq : d.mcu.inBank = some q) (hlen : q.length = 1) :
    Coming (emptied d) ∧ (distance (emptied d) (.receive dataIn') < distance d (.receive dataIn) ∨
      distance (emptied d) (.receive dataIn') = distance d (.receive dataIn) ∧
        mover (emptied d) (.receive dataIn') = .device ∧ mover d (.receive dataIn) = .device) := by
  cases hcoming with
  | pending hout =>
    refine ⟨.pending hout, .inr ?_⟩
    simp [distance, mover, emptied, Firmware.step, hout]
  | commanded hout hcommand =>
    refine ⟨.commanded hout hcommand, .inl ?_⟩
    simp only [distance, emptied, Firmware.step, hout, hcommand, hq, Option.isSome_none,
      Option.isSome_some, Bool.false_eq_true, if_true, if_false]
    split_ifs <;> decide
  | replied hout hcommand q' hreply hother =>
    rw [hreply] at hq
    cases hq
    exact absurd hlen hother

/-- While the IN bank is empty it is the turn of the main loop. -/
theorem Coming.mover_of_none {d : Device chip} (hcoming : Coming d) (dataIn : List UInt8)
    (hempty : d.mcu.inBank = none) : mover d (.receive dataIn) = .device := by
  cases hcoming with
  | pending hout => simp [mover, hout]
  | commanded hout hcommand => simp [mover, hout, hcommand, hempty]
  | replied hout hcommand q hreply =>
    rw [hreply] at hempty
    cases hempty

/-! ## The invariant -/

/-- Once the request is sent, the reply is coming. -/
structure DiscardInv (s : Composed State chip) : Prop where
  settled : Settled s.device.mcu
  coming : ∀ dataIn, s.host.state = .receive dataIn → Coming s.device

/-- The request does not time out, and nobody else polls. -/
def Accepts (s : Composed State chip) (a : Action) : Prop :=
  a ≠ .poll ∧ (a = .timeout → ∀ dataIn, s.host.state ≠ .request dataIn)

/-- What is left to do. -/
def remaining (s : Composed State chip) : ℕ := distance s.device s.host.state

/-- An action moves the identification on, or it is the turn of the other party and stays so, or
`isp_ids` has returned. -/
def Progresses (s : Composed State chip) (a : Action) (s' : Composed State chip) : Prop :=
  remaining s' < remaining s ∨
    remaining s' = remaining s ∧ (0 < remaining s →
      party a ≠ mover s.device s.host.state ∧
        mover s'.device s'.host.state = mover s.device s.host.state)

section
variable {s : Composed State chip}

/-- Before the request is sent, the main loop frees the OUT bank. -/
theorem distance_request_firmware {d d' : Device chip} {pinC : UInt8}
    (heffect : Firmware.Effect d (.firmware pinC) d') (dataIn : List UInt8) :
    distance d' (.request dataIn) < distance d (.request dataIn) ∨
      distance d' (.request dataIn) = distance d (.request dataIn) ∧
        mover d' (.request dataIn) = mover d (.request dataIn) ∧
        mover d (.request dataIn) = .host := by
  cases heffect with
  | idleOUT _ hnext hbank => exact .inr (by simp [distance, mover, hbank])
  | serve _ p hnext hbank => exact .inl (by simp [distance, hbank, hnext])
  | busyIN _ hnext | answer _ hnext =>
    by_cases hfull : d.mcu.outBank.isSome
    · exact .inl (by simp [distance, hfull, hnext])
    · exact .inr (by simp [distance, mover, hfull])

theorem DiscardInv.firmware (hs : DiscardInv s) (pinC : UInt8) :
    DiscardInv ⟨s.host, Firmware.step s.device (.firmware pinC)⟩ ∧
      Progresses s (.firmware pinC) ⟨s.host, Firmware.step s.device (.firmware pinC)⟩ := by
  have heffect := Firmware.step_effect hs.settled (.firmware pinC)
  have hsettled := hs.settled.step (.firmware pinC)
  generalize Firmware.step s.device (.firmware pinC) = d' at heffect hsettled ⊢
  have hmoves : ∀ st, s.host.state = st → (distance d' st < distance s.device st ∨
      distance d' st = distance s.device st ∧ mover d' st = mover s.device st ∧
        mover s.device st = .host) → Progresses s (.firmware pinC) ⟨s.host, d'⟩ := by
    rintro st rfl (hlt | ⟨hsame, hstay, hhost⟩)
    · exact .inl hlt
    · refine .inr ⟨hsame, fun _ => ⟨?_, hstay⟩⟩
      rw [hhost]
      exact Party.noConfusion
  cases hstate : s.host.state with
  | request dataIn =>
    refine ⟨⟨hsettled, fun _ hreceive => ?_⟩,
      hmoves _ hstate (distance_request_firmware heffect dataIn)⟩
    rw [hstate] at hreceive
    cases hreceive
  | receive dataIn =>
    obtain ⟨hcoming, hmove⟩ := (hs.coming dataIn hstate).firmware dataIn heffect
    exact ⟨⟨hsettled, fun _ _ => hcoming⟩, hmoves _ hstate hmove⟩
  | returned sig =>
    refine ⟨⟨hsettled, fun _ hreceive => ?_⟩, hmoves _ hstate (.inr ⟨rfl, rfl, rfl⟩)⟩
    rw [hstate] at hreceive
    cases hreceive

/-- The host returns. -/
theorem progresses_returned {s' : Composed State chip} {dataIn sig : List UInt8} (a : Action)
    (hstate : s.host.state = .receive dataIn) (hreturned : s'.host.state = .returned sig) :
    Progresses s a s' := by
  refine .inl ?_
  rw [remaining, remaining, hstate, hreturned]
  exact (distance_receive s.device dataIn).1

theorem remaining_eq_zero
    (hcall : ∀ call, ispIds.call s.host.state = some call → IsControl call) :
    remaining s = 0 := by
  rw [remaining]
  generalize s.host.state = st at hcall ⊢
  cases st with
  | returned sig => rfl
  | request dataIn => exact absurd (hcall _ rfl) not_false
  | receive dataIn => exact absurd (hcall _ rfl) not_false

theorem DiscardInv.step (hs : DiscardInv s) {a : Action} (ha : Accepts s a) :
    DiscardInv (step ispIds s a) ∧ Progresses s a (step ispIds s a) := by
  have heffect := step_effect ispIds s a
  generalize System.step ispIds s a = s' at heffect ⊢
  cases heffect with
  | firmware pinC => exact hs.firmware pinC
  | sent p hcall hbank =>
    obtain ⟨dataIn, hstate, rfl⟩ := ispIds_call_transferOut hcall
    obtain ⟨hnext, -⟩ := step_asked hstate ⟨0, []⟩
    rw [arrive_eq hbank]
    refine ⟨⟨?_, fun _ _ => .pending rfl⟩, .inl ?_⟩
    · have hsettled := hs.settled.step (.arrive [0x01])
      rwa [arrive_eq hbank] at hsettled
    · rw [remaining, remaining, hnext, hstate]
      refine Nat.lt_of_le_of_lt (distance_receive _ dataIn).2 ?_
      simp [distance, hbank]
  | blockedOUT p hcall hfull =>
    obtain ⟨dataIn, hstate, rfl⟩ := ispIds_call_transferOut hcall
    refine ⟨hs, .inr ⟨rfl, fun _ => ⟨?_, rfl⟩⟩⟩
    rw [hstate, mover, if_pos hfull]
    exact Party.noConfusion
  | received size q hcall hq =>
    obtain ⟨dataIn, hstate, rfl⟩ := ispIds_call_transferIn hcall
    have hsettled := hs.settled.step .poll
    by_cases hlen : q.length = 1
    · obtain ⟨hnext, -⟩ := step_discard hstate (discarded_taken hlen)
      obtain ⟨hcoming, hmove⟩ := (hs.coming dataIn hstate).discard dataIn
        (overwrite dataIn (taken 3 q).data) hq hlen
      refine ⟨⟨hsettled, fun _ _ => hcoming⟩, ?_⟩
      simp only [Progresses, remaining, hnext, hstate]
      rcases hmove with hlt | ⟨hsame, hthen, hnow⟩
      · exact .inl hlt
      · refine .inr ⟨hsame, fun _ => ⟨?_, hthen.trans hnow.symm⟩⟩
        rw [hnow]
        exact Party.noConfusion
    · obtain ⟨hnext, -⟩ := step_end hstate (not_discarded_taken hlen)
      refine ⟨⟨hsettled, fun _ hreceive => ?_⟩, progresses_returned _ hstate hnext⟩
      rw [hnext] at hreceive
      cases hreceive
  | blockedIN size hcall hempty =>
    obtain ⟨dataIn, hstate, rfl⟩ := ispIds_call_transferIn hcall
    refine ⟨hs, .inr ⟨rfl, fun _ => ⟨?_, rfl⟩⟩⟩
    rw [hstate, (hs.coming dataIn hstate).mover_of_none dataIn hempty]
    exact Party.noConfusion
  | called call hcall hcontrol => exact absurd hcontrol (not_control hcall)
  | timeoutOUT p hcall =>
    obtain ⟨dataIn, hstate, rfl⟩ := ispIds_call_transferOut hcall
    exact absurd hstate (ha.2 rfl dataIn)
  | timeoutIN size hcall =>
    obtain ⟨dataIn, hstate, rfl⟩ := ispIds_call_transferIn hcall
    obtain ⟨hnext, -⟩ := step_end hstate not_discarded_timedOut
    refine ⟨⟨hs.settled, fun _ hreceive => ?_⟩, progresses_returned _ hstate hnext⟩
    rw [hnext] at hreceive
    cases hreceive
  | returned hcall =>
    have hdone : remaining s = 0 := remaining_eq_zero fun call h => by
      rw [hcall] at h
      cases h
    exact ⟨hs, .inr ⟨rfl, fun hpos => absurd hdone (Nat.ne_of_gt hpos)⟩⟩
  | noTransfer hcall =>
    have hdone := remaining_eq_zero hcall
    exact ⟨hs, .inr ⟨rfl, fun hpos => absurd hdone (Nat.ne_of_gt hpos)⟩⟩
  | poll => exact absurd rfl ha.1

end

/-! ## Termination -/

/-- `isp_ids` under a schedule. -/
def identifyTo (d : Device chip) (sched : ℕ → Action) (n : ℕ) : Composed State chip :=
  runTo (step ispIds) (identifyStart d) sched n

theorem discardInv_start {d : Device chip} (hd : Settled d.mcu) : DiscardInv (identifyStart d) := by
  refine ⟨hd, fun dataIn hreceive => ?_⟩
  change State.request [0, 0, 0] = .receive dataIn at hreceive
  cases hreceive

theorem returned_of_remaining {s : Composed State chip} (h : remaining s = 0) :
    ∃ sig, s.host.state = .returned sig := by
  rw [remaining] at h
  generalize s.host.state = st at h ⊢
  cases st with
  | returned sig => exact ⟨sig, rfl⟩
  | receive dataIn => exact absurd h (Nat.ne_of_gt (distance_receive _ dataIn).1)
  | request dataIn =>
    simp only [distance] at h
    split_ifs at h

/-- If the request is accepted, `isp_ids` returns under every fair schedule. -/
theorem exists_returned {d : Device chip} (hd : Settled d.mcu) {sched : ℕ → Action}
    (hsched : ∀ n, Accepts (identifyTo d sched n) (sched n)) (hfair : Fair sched) :
    ∃ n sig, (identifyTo d sched n).host.state = .returned sig := by
  obtain ⟨n, hn⟩ := @eventually_measure_zero _ _ (step ispIds) Accepts (identifyStart d) Party party
    (fun s => mover s.device s.host.state) remaining DiscardInv sched
    (fun s a hs ha => hs.step ha) hsched hfair (discardInv_start hd)
  exact ⟨n, returned_of_remaining hn⟩

/-! ## The packets discarded -/

/-- The number of packets `isp_ids` has discarded. -/
def discards (calls : List (Call × Result)) : ℕ :=
  calls.countP fun x => x.1 = .transferIn 3 ∧ Discarded x.2

/-- The request of `isp_ids` has not been processed by the firmware. -/
def unprocessed (s : Composed State chip) : Bool :=
  match s.host.state with
  | .request _ => true
  | _ => s.device.mcu.outBank.isSome

/-- The main loop ends an iteration, with its call of `ProcessIN`, before the request of
`isp_ids` is processed. -/
def isTurn (s : Composed State chip) : Action → Bool
  | .firmware _ => s.device.next = .dataIn && unprocessed s
  | _ => false

/-- The number of iterations of the main loop before the request is processed. -/
def turnsTo (d : Device chip) (sched : ℕ → Action) : ℕ → ℕ
  | 0 => 0
  | n + 1 => turnsTo d sched n + if isTurn (identifyTo d sched n) (sched n) then 1 else 0

/-- The packets of one byte in the IN bank. -/
def buttons (d : Device chip) : ℕ :=
  match d.mcu.inBank with
  | some q => if q.length = 1 then 1 else 0
  | none => 0

/-- The packets discarded, with the one that may be discarded next. -/
def discardable (s : Composed State chip) : ℕ :=
  discards s.host.calls + match s.host.state with
    | .returned _ => 0
    | _ => buttons s.device

theorem discards_concat (calls : List (Call × Result)) (x : Call × Result) :
    discards (calls ++ [x])
      = discards calls + if x.1 = .transferIn 3 ∧ Discarded x.2 then 1 else 0 := by
  simp [discards, List.countP_append, List.countP_singleton]

theorem buttons_le (d : Device chip) : buttons d ≤ 1 := by
  unfold buttons
  split
  · split_ifs <;> decide
  · decide

section
variable {s : Composed State chip}

theorem discards_le_discardable (s : Composed State chip) :
    discards s.host.calls ≤ discardable s := Nat.le_add_right ..

/-- A step of the device adds what it adds to the IN bank. -/
theorem discardable_device (h : Host State) {d d' : Device chip} {k : ℕ}
    (hle : buttons d' ≤ buttons d + k) :
    discardable ⟨h, d'⟩ ≤ discardable ⟨h, d⟩ + k := by
  cases hstate : h.state with
  | returned sig => simp [discardable, hstate]
  | request dataIn | receive dataIn =>
    simp only [discardable, hstate]
    omega

/-- The main loop adds a packet of one byte only while the request is not processed. -/
theorem buttons_answer (hs : DiscardInv s) (hwaiting : ∀ sig, s.host.state ≠ .returned sig)
    {pinC : UInt8} (hnext : s.device.next = .dataIn) (hbank : s.device.mcu.inBank = none)
    (d' : Device chip) (hd' : d'.mcu = Mcu.answered { s.device.mcu with pinC := pinC }) :
    buttons d' ≤ buttons s.device + if isTurn s (.firmware pinC) then 1 else 0 := by
  have hone := buttons_le d'
  cases hstate : s.host.state with
  | returned sig => exact absurd hstate (hwaiting sig)
  | request dataIn =>
    have hturn : isTurn s (.firmware pinC) = true := by
      simp [isTurn, hnext, unprocessed, hstate]
    rw [hturn, if_pos rfl]
    omega
  | receive dataIn =>
    cases hs.coming dataIn hstate with
    | pending hout =>
      have hturn : isTurn s (.firmware pinC) = true := by
        simp [isTurn, hnext, unprocessed, hstate, hout]
      rw [hturn, if_pos rfl]
      omega
    | commanded hout hcommand =>
      -- this is the reply
      have hnone : buttons d' = 0 := by
        rw [buttons, hd', Mcu.answered_signature (m := { s.device.mcu with pinC := pinC }) hcommand]
        rfl
      omega
    | replied hout hcommand q hreply =>
      rw [hreply] at hbank
      cases hbank

theorem discardable_firmware (hs : DiscardInv s) (pinC : UInt8) :
    discardable ⟨s.host, Firmware.step s.device (.firmware pinC)⟩
      ≤ discardable s + if isTurn s (.firmware pinC) then 1 else 0 := by
  have heffect := Firmware.step_effect hs.settled (.firmware pinC)
  generalize Firmware.step s.device (.firmware pinC) = d' at heffect ⊢
  by_cases hreturned : ∃ sig, s.host.state = .returned sig
  · obtain ⟨sig, hstate⟩ := hreturned
    apply Nat.le_add_right_of_le
    simp [discardable, hstate]
  apply discardable_device
  cases heffect with
  | idleOUT | busyIN => exact Nat.le_add_right ..
  | serve _ p hnext hbank =>
    apply Nat.le_add_right_of_le
    simp [buttons]
  | answer _ hnext hbank =>
    exact buttons_answer hs (fun sig h => hreturned ⟨sig, h⟩) hnext hbank _ rfl

theorem discardable_step (hs : DiscardInv s) {a : Action} (ha : Accepts s a) :
    discardable (step ispIds s a) ≤ discardable s + if isTurn s a then 1 else 0 := by
  have heffect := step_effect ispIds s a
  generalize System.step ispIds s a = s' at heffect ⊢
  cases heffect with
  | firmware pinC => exact discardable_firmware hs pinC
  | blockedOUT | blockedIN | returned | noTransfer => exact Nat.le_add_right ..
  | sent p hcall hbank =>
    obtain ⟨dataIn, hstate, rfl⟩ := ispIds_call_transferOut hcall
    obtain ⟨hnext, hcalls⟩ := step_asked hstate ⟨0, []⟩
    rw [arrive_eq hbank]
    apply Nat.le_add_right_of_le
    simp only [discardable, hnext, hcalls, hstate, discards_concat]
    exact Nat.le_refl _
  | received size q hcall hq =>
    obtain ⟨dataIn, hstate, rfl⟩ := ispIds_call_transferIn hcall
    apply Nat.le_add_right_of_le
    by_cases hlen : q.length = 1
    · obtain ⟨hnext, hcalls⟩ := step_discard hstate (discarded_taken hlen)
      have hbefore : buttons s.device = 1 := by simp [buttons, hq, hlen]
      simp only [discardable, hnext, hcalls, hstate, discards_concat, discarded_taken hlen, hbefore]
      exact Nat.le_refl _
    · obtain ⟨hnext, hcalls⟩ := step_end hstate (not_discarded_taken hlen)
      simp only [discardable, hnext, hcalls, hstate, discards_concat, not_discarded_taken hlen,
        and_false, if_false]
      exact Nat.le_add_right ..
  | called call hcall hcontrol => exact absurd hcontrol (not_control hcall)
  | timeoutOUT p hcall =>
    obtain ⟨dataIn, hstate, rfl⟩ := ispIds_call_transferOut hcall
    exact absurd hstate (ha.2 rfl dataIn)
  | timeoutIN size hcall =>
    obtain ⟨dataIn, hstate, rfl⟩ := ispIds_call_transferIn hcall
    obtain ⟨hnext, hcalls⟩ := step_end hstate not_discarded_timedOut
    apply Nat.le_add_right_of_le
    simp only [discardable, hnext, hcalls, hstate, discards_concat, not_discarded_timedOut,
      and_false, if_false]
    exact Nat.le_add_right ..
  | poll => exact absurd rfl ha.1

end

/-! ## Failed requests -/

/-- A request has failed. -/
def RequestFailed (calls : List (Call × Result)) : Prop :=
  ∃ x ∈ calls, (∃ p, x.1 = .transferOut p) ∧ x.2.r ≠ 0

theorem requestFailed_concat (calls : List (Call × Result)) (x : Call × Result) :
    RequestFailed (calls ++ [x]) ↔
      RequestFailed calls ∨ (∃ p, x.1 = .transferOut p) ∧ x.2.r ≠ 0 := by
  simp [RequestFailed, or_and_right, exists_or]

section
variable {s : Composed State chip}

theorem not_requestFailed_step (hok : ¬ RequestFailed s.host.calls) {a : Action}
    (ha : Accepts s a) : ¬ RequestFailed (step ispIds s a).host.calls := by
  have hreceive : ∀ {dataIn}, s.host.state = .receive dataIn → ∀ result,
      ¬ RequestFailed (ispIds.step s.host result).calls := by
    intro dataIn hstate result
    have hcalls : (ispIds.step s.host result).calls = s.host.calls ++ [(.transferIn 3, result)] := by
      by_cases hbutton : Discarded result
      · exact (step_discard hstate hbutton).2
      · exact (step_end hstate hbutton).2
    rw [hcalls, requestFailed_concat]
    simpa using hok
  have heffect := step_effect ispIds s a
  generalize System.step ispIds s a = s' at heffect ⊢
  cases heffect with
  | firmware | blockedOUT | blockedIN | returned | noTransfer => exact hok
  | sent p hcall hbank =>
    obtain ⟨dataIn, hstate, rfl⟩ := ispIds_call_transferOut hcall
    rw [(step_asked hstate ⟨0, []⟩).2, requestFailed_concat]
    simpa using hok
  | received size q hcall hq =>
    obtain ⟨dataIn, hstate, rfl⟩ := ispIds_call_transferIn hcall
    exact hreceive hstate (taken 3 q)
  | called call hcall hcontrol => exact absurd hcontrol (not_control hcall)
  | timeoutOUT p hcall =>
    obtain ⟨dataIn, hstate, rfl⟩ := ispIds_call_transferOut hcall
    exact absurd hstate (ha.2 rfl dataIn)
  | timeoutIN size hcall =>
    obtain ⟨dataIn, hstate, rfl⟩ := ispIds_call_transferIn hcall
    exact hreceive hstate timedOut
  | poll => exact absurd rfl ha.1

end

/-! ## Main result -/

/-- The discard loop ends, it discards no more packets than the one in the IN bank and those
answered before the request is processed, and after a failed request it is not entered. -/
structure LoopEnds (d : Device chip) (sched : ℕ → Action) : Prop where
  ends : ∃ n sig, (identifyTo d sched n).host.state = .returned sig
  bound : ∀ n, discards (identifyTo d sched n).host.calls ≤ 1 + turnsTo d sched n
  noWait : ∀ n, RequestFailed (identifyTo d sched n).host.calls →
    ispIds.call (identifyTo d sched n).host.state = none

section
variable {d : Device chip} {sched : ℕ → Action}

/-- Everything that is kept while the request does not time out. -/
theorem loopInv (hd : Settled d.mcu) (hsched : ∀ n, Accepts (identifyTo d sched n) (sched n))
    (n : ℕ) :
    DiscardInv (identifyTo d sched n) ∧ discardable (identifyTo d sched n) ≤ 1 + turnsTo d sched n ∧
      ¬ RequestFailed (identifyTo d sched n).host.calls := by
  induction n with
  | zero =>
    refine ⟨discardInv_start hd, ?_, by simp [identifyTo, runTo, identifyStart, Program.start,
      RequestFailed]⟩
    have hone := buttons_le d
    simp only [identifyTo, runTo, identifyStart, Program.start, discardable, discards, turnsTo,
      List.countP_nil]
    omega
  | succ n ih =>
    obtain ⟨hinv, hbound, hok⟩ := ih
    have hstep := discardable_step hinv (hsched n)
    refine ⟨(hinv.step (hsched n)).1, ?_, not_requestFailed_step hok (hsched n)⟩
    show discardable (step ispIds (identifyTo d sched n) (sched n)) ≤ _
    rw [turnsTo]
    omega

/-- If the request does not time out. -/
theorem loopEnds_of_accepts (hd : Settled d.mcu)
    (hsched : ∀ n, Accepts (identifyTo d sched n) (sched n)) (hfair : Fair sched) :
    LoopEnds d sched := by
  refine ⟨exists_returned hd hsched hfair, fun n => ?_, fun n hfailed => ?_⟩
  · exact (discards_le_discardable _).trans (loopInv hd hsched n).2.1
  · exact absurd hfailed (loopInv hd hsched n).2.2

/-- A request that times out is followed by the loop. -/
theorem not_loopEnds_of_timeout {n : ℕ} {dataIn : List UInt8}
    (hstate : (identifyTo d sched n).host.state = .request dataIn) (htimeout : sched n = .timeout) :
    ¬ LoopEnds d sched := by
  intro hends
  have hstep : identifyTo d sched (n + 1) = ⟨ispIds.step (identifyTo d sched n).host timedOut,
      (identifyTo d sched n).device⟩ := by
    show step ispIds (identifyTo d sched n) (sched n) = _
    have hcall : ispIds.call (identifyTo d sched n).host.state = some (.transferOut [0x01]) := by
      rw [hstate]
      rfl
    rw [htimeout, step, hcall]
  obtain ⟨hnext, hcalls⟩ := step_asked hstate timedOut
  have hwaits := hends.noWait (n + 1)
  rw [hstep, hnext, hcalls, requestFailed_concat] at hwaits
  have hnone := hwaits (.inr ⟨⟨_, rfl⟩, by decide⟩)
  cases hnone

/-- From every state the firmware can be in, and under every fair schedule, the discard loop of
`isp_ids` ends as it should exactly if its request does not time out. -/
theorem discard_loop_iff (unspecified : ℕ → UInt8) (flash : Memory Word)
    (as : List Firmware.Action) (sched : ℕ → Action) (hpoll : ∀ n, sched n ≠ .poll)
    (hfair : Fair sched) :
    let d := run Firmware.step (powerOn unspecified flash : Device chip) as
    LoopEnds d sched ↔
      ∀ n dataIn, (identifyTo d sched n).host.state = .request dataIn → sched n ≠ .timeout := by
  intro d
  have hd : Settled d.mcu := settled_run (settled_powerOn unspecified flash) as
  constructor
  · intro hends n dataIn hstate htimeout
    exact not_loopEnds_of_timeout hstate htimeout hends
  · intro hsched
    refine loopEnds_of_accepts hd (fun n => ⟨hpoll n, fun htimeout dataIn hstate => ?_⟩) hfair
    exact hsched n dataIn hstate htimeout

end

/-- Two turns of the main loop, then the host. -/
def alternating (n : ℕ) : Action := if n % 3 = 2 then .transfer else .firmware 0

theorem fair_alternating : Fair alternating := by
  intro p n
  cases p with
  | host => exact ⟨3 * n + 2, by omega, by simp [alternating, party]⟩
  | device => exact ⟨3 * n, by omega, by simp [alternating, party]⟩

/-- An identification after power-on. -/
theorem discard_loop_powerOn :
    ∃ n sig, (identifyTo (powerOn (fun _ => 0) erase : Device atmega328p) alternating n).host.state
      = .returned sig := by
  have hnever : ∀ n, alternating n ≠ .poll ∧ alternating n ≠ .timeout := by
    intro n
    unfold alternating
    split_ifs <;> decide
  have hiff := @discard_loop_iff atmega328p (fun _ => 0) erase [] alternating
    (fun n => (hnever n).1) fair_alternating
  exact (hiff.mpr fun n _ _ => (hnever n).2).ends

/-! ## After a failed request -/

/-- `isp_ids` is in its loop and nothing will ever answer but the buttons. -/
structure Starved (s : Composed State chip) : Prop where
  settled : Settled s.device.mcu
  waits : ∃ dataIn, s.host.state = .receive dataIn
  outBank : s.device.mcu.outBank = none
  idle : Idle s.device
  inBank : ButtonsOnly s.device

/-- Without a failure the loop goes on. -/
theorem Starved.step {s : Composed State chip} (hs : Starved s) {a : Action} (ha : FaultFree a) :
    Starved (step ispIds s a) := by
  obtain ⟨dataIn, hstate⟩ := hs.waits
  have heffect := step_effect ispIds s a
  generalize System.step ispIds s a = s' at heffect ⊢
  cases heffect with
  | firmware pinC =>
    have hdevice := Firmware.step_effect hs.settled (.firmware pinC)
    have hsettled := hs.settled.step (.firmware pinC)
    generalize Firmware.step s.device (.firmware pinC) = d' at hdevice hsettled ⊢
    cases hdevice with
    | idleOUT | busyIN => exact ⟨hsettled, hs.waits, hs.outBank, hs.idle, hs.inBank⟩
    | serve _ p hnext hbank =>
      rw [hs.outBank] at hbank
      cases hbank
    | answer _ hnext hbank =>
      rw [Mcu.answered_buttons (m := { s.device.mcu with pinC := pinC }) hs.idle.1 hs.idle.2]
        at hsettled ⊢
      refine ⟨hsettled, hs.waits, hs.outBank, hs.idle, ?_⟩
      rintro q ⟨⟩
      rfl
  | received size q hcall hq =>
    obtain ⟨_, -, rfl⟩ := ispIds_call_transferIn hcall
    obtain ⟨hnext, -⟩ := step_discard hstate (discarded_taken (hs.inBank q hq))
    refine ⟨hs.settled.step .poll, ⟨_, hnext⟩, hs.outBank, hs.idle, ?_⟩
    rintro q' ⟨⟩
  | sent p hcall =>
    obtain ⟨_, hrequest, -⟩ := ispIds_call_transferOut hcall
    rw [hstate] at hrequest
    cases hrequest
  | called call hcall hcontrol => exact absurd hcontrol (not_control hcall)
  | timeoutOUT | timeoutIN => exact absurd rfl ha.1
  | poll => exact absurd rfl ha.2
  | blockedOUT | blockedIN | returned | noTransfer => exact hs

/-- The request times out; then host and main loop take turns. -/
def afterTimeout (n : ℕ) : Action := if n = 0 then .timeout else alternating n

/-- `isp_ids` never returns, although nothing fails after its request. -/
theorem failed_request_never_ends :
    Fair afterTimeout ∧ (∀ n, afterTimeout n ≠ .poll) ∧
      ∀ n sig, (identifyTo (powerOn (fun _ => 0) erase : Device atmega328p) afterTimeout n).host.state
        ≠ .returned sig := by
  have hready : ReadReady (powerOn (fun _ => 0) erase : Device atmega328p) :=
    readReady_powerOn (fun _ => 0) erase
  have hlater : ∀ n, FaultFree (afterTimeout (n + 1)) := by
    intro n
    rw [afterTimeout, if_neg (Nat.succ_ne_zero n), alternating]
    split_ifs <;> decide
  have hstarved : ∀ n, Starved (identifyTo (powerOn (fun _ => 0) erase : Device atmega328p)
      afterTimeout (n + 1)) := by
    intro n
    induction n with
    | zero => exact ⟨hready.settled, ⟨_, rfl⟩, hready.outBank, hready.idle, hready.inBank⟩
    | succ n ih => exact ih.step (hlater n)
  refine ⟨fun p n => ?_, fun n => ?_, fun n sig hreturned => ?_⟩
  · obtain ⟨m, hm, hparty⟩ := fair_alternating p (n + 1)
    refine ⟨m, by omega, ?_⟩
    rwa [afterTimeout, if_neg (by omega)]
  · cases n with
    | zero => decide
    | succ n => exact (hlater n).2
  · cases n with
    | zero => cases hreturned
    | succ n =>
      obtain ⟨dataIn, hstate⟩ := (hstarved n).waits
      rw [hstate] at hreturned
      cases hreturned

end System
end AvrProgrammer
