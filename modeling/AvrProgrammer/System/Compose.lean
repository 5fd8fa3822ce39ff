import AvrProgrammer.Firmware.MainLoop
import AvrProgrammer.Software.Libusb

/-!
# Host and device

The host program waits in one library call at a time. An OUT transfer completes when the OUT
bank is free, which then holds the packet; an IN transfer completes when the IN bank holds a
packet, and takes it. A packet longer than the buffer of the host is lost
(`LIBUSB_ERROR_OVERFLOW`). A transfer may also time out, as long as it has not completed: then
no packet moves. Between two actions of the host the main loop of the firmware runs as often as
it likes.

`step_effect` says what an action can do.
-/

namespace AvrProgrammer
namespace System

open Firmware Software

variable {σ : Type} {chip : Chip}

/-- The host program and the device it talks to. -/
structure Composed (σ : Type) (chip : Chip) where
  host : Host σ
  device : Device chip

/-- What can happen: the main loop calls its next handler, the call the host waits in
completes, it times out, or somebody else polls the IN endpoint. -/
inductive Action where
  | firmware (pinC : UInt8)
  | transfer
  | timeout
  | poll
deriving DecidableEq

/-- The result of an IN transfer that takes the packet `q`. -/
def taken (size : ℕ) (q : Packet) : Result :=
  if q.length ≤ size then ⟨0, q⟩ else ⟨-8, q.take size⟩

/-- The result of a transfer that times out. -/
def timedOut : Result := ⟨-7, []⟩

/-- One action; a transfer that cannot complete yet waits. A call that is no transfer returns. This
is an assumption where the handle is closed already: after a `-read`, `main` makes the three calls
once more that `flash_read` has made. -/
def step (P : Program σ) (s : Composed σ chip) : Action → Composed σ chip
  | .firmware pinC => { s with device := Firmware.step s.device (.firmware pinC) }
  | .transfer =>
    match P.call s.host.state with
    | none => s
    | some (.transferOut p) =>
      if s.device.mcu.outBank.isNone then
        { host := P.step s.host ⟨0, []⟩, device := Firmware.step s.device (.arrive p) }
      else s
    | some (.transferIn size) =>
      match s.device.mcu.inBank with
      | none => s
      | some q => { host := P.step s.host (taken size q), device := Firmware.step s.device .poll }
    | some _ => { s with host := P.step s.host ⟨0, []⟩ }
  | .timeout =>
    match P.call s.host.state with
    | some (.transferOut _) | some (.transferIn _) => { s with host := P.step s.host timedOut }
    | _ => s
  | .poll => { s with device := Firmware.step s.device .poll }

/-- A call that is no transfer. -/
def IsControl : Call → Prop
  | .transferOut _ | .transferIn _ => False
  | _ => True

/-- The effect of each action, case by case. -/
inductive Effect (P : Program σ) (s : Composed σ chip) : Action → Composed σ chip → Prop
  | firmware (pinC : UInt8) :
    Effect P s (.firmware pinC) ⟨s.host, Firmware.step s.device (.firmware pinC)⟩
  | sent (p : Packet) (hcall : P.call s.host.state = some (.transferOut p))
    (hbank : s.device.mcu.outBank = none) :
    Effect P s .transfer ⟨P.step s.host ⟨0, []⟩, Firmware.step s.device (.arrive p)⟩
  | blockedOUT (p : Packet) (hcall : P.call s.host.state = some (.transferOut p))
    (hbank : s.device.mcu.outBank.isSome) : Effect P s .transfer s
  | received (size : ℕ) (q : Packet) (hcall : P.call s.host.state = some (.transferIn size))
    (hbank : s.device.mcu.inBank = some q) :
    Effect P s .transfer ⟨P.step s.host (taken size q), Firmware.step s.device .poll⟩
  | blockedIN (size : ℕ) (hcall : P.call s.host.state = some (.transferIn size))
    (hbank : s.device.mcu.inBank = none) : Effect P s .transfer s
  | called (call : Call) (hcall : P.call s.host.state = some call) (hcontrol : IsControl call) :
    Effect P s .transfer ⟨P.step s.host ⟨0, []⟩, s.device⟩
  | returned (hcall : P.call s.host.state = none) : Effect P s .transfer s
  | timeoutOUT (p : Packet) (hcall : P.call s.host.state = some (.transferOut p)) :
    Effect P s .timeout ⟨P.step s.host timedOut, s.device⟩
  | timeoutIN (size : ℕ) (hcall : P.call s.host.state = some (.transferIn size)) :
    Effect P s .timeout ⟨P.step s.host timedOut, s.device⟩
  | noTransfer (hcall : ∀ call, P.call s.host.state = some call → IsControl call) :
    Effect P s .timeout s
  | poll : Effect P s .poll ⟨s.host, Firmware.step s.device .poll⟩

theorem step_effect (P : Program σ) (s : Composed σ chip) (a : Action) :
    Effect P s a (step P s a) := by
  cases a with
  | firmware pinC => exact .firmware pinC
  | poll => exact .poll
  | transfer =>
    unfold step
    cases hcall : P.call s.host.state with
    | none => exact .returned hcall
    | some call =>
      cases call with
      | transferOut p =>
        dsimp only
        split_ifs with hbank
        · exact .sent p hcall (by simpa using hbank)
        · exact .blockedOUT p hcall (by simpa [Option.isSome_iff_ne_none] using hbank)
      | transferIn size =>
        dsimp only
        cases hbank : s.device.mcu.inBank with
        | none => exact .blockedIN size hcall hbank
        | some q => exact .received size q hcall hbank
      | _ => exact .called _ hcall trivial
  | timeout =>
    unfold step
    cases hcall : P.call s.host.state with
    | none => exact .noTransfer (by simp [hcall])
    | some call =>
      cases call with
      | transferOut p => exact .timeoutOUT p hcall
      | transferIn size => exact .timeoutIN size hcall
      | _ => exact .noTransfer (by simp [hcall, IsControl])

/-- A free OUT bank accepts the packet. -/
theorem arrive_eq {d : Device chip} (hbank : d.mcu.outBank = none) (p : Packet) :
    Firmware.step d (.arrive p) =
      { d with mcu := { d.mcu with outBank := some ⟨p, p⟩ }, accepted := d.accepted ++ [p] } := by
  rw [Firmware.step, hbank]
  rfl

theorem taken_of_le {size : ℕ} {q : Packet} (h : q.length ≤ size) : taken size q = ⟨0, q⟩ :=
  if_pos h

/-- A packet of another length is not taken for one of `k` bytes. -/
theorem taken_other {size k : ℕ} {q : Packet} (hlen : q.length ≠ k) :
    ¬ ((taken size q).r = 0 ∧ (taken size q).data.length = k) := by
  unfold taken
  split_ifs with hle
  · exact fun h => hlen h.2
  · exact fun h => absurd h.1 (show (-8 : ℤ) ≠ 0 by decide)

/-- Between two handlers the firmware is settled, whatever the host does. -/
theorem settled_step (P : Program σ) {s : Composed σ chip} (hs : Settled s.device.mcu)
    (a : Action) : Settled (step P s a).device.mcu := by
  have heffect := step_effect P s a
  generalize step P s a = s' at heffect ⊢
  cases heffect with
  | firmware | sent | received | poll => exact hs.step _
  | _ => exact hs

end System
end AvrProgrammer
