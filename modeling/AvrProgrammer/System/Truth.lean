import AvrProgrammer.System.RoundTrip
import AvrProgrammer.Software.Signature

/-!
# What `main` says about the target

`isp_ids` takes whatever packet ends its loop for the signature, and `main` goes on even if
there was an error. Still, what it says about the target is true, in every run from a quiet
device, whichever transfers fail and whoever else polls: a signature that is reported as
received is the one of the target, and a target that is named is the entry of the data base for
it. So a `-read` never reads with the size of another target.

Until the identification ends, the device has heard of no read request; so the IN bank never
holds a packet that could be taken for a signature (`NoBlock`), and a buffer in which no
signature was put names no target.
-/

namespace AvrProgrammer
namespace System

open PagedFlash Runs Firmware Software
open Software.Prog (Input identified command resume)

variable {chip : Chip}

/-! ## The messages -/

/-- What a message says about the target. -/
def Truthful (chip : Chip) : Message → Prop
  | .signatureReceived sig => sig = chipSignature chip
  | .target cible => rechercheCible (chipSignature chip) = some cible
  | _ => True

section
variable (chip) (input : Input)

theorem truthful_command (cible : Option CibleAVR) :
    ∀ m ∈ (command input cible).2, Truthful chip m := by
  unfold command
  intro m hm
  split at hm
  next => rw [List.mem_singleton.mp hm]; trivial
  next action args hargs =>
    split_ifs at hm
    · cases cible <;> cases hm
    · split at hm
      next => rw [List.mem_singleton.mp hm]; trivial
      next name args =>
        split at hm
        next => rw [List.mem_singleton.mp hm]; trivial
        next => cases hm
    · cases hm

/-- The target is named, or said to be unknown. -/
theorem truthful_identified {sig : List UInt8}
    (hsig : ∀ cible, rechercheCible sig = some cible →
      rechercheCible (chipSignature chip) = some cible) :
    ∀ m ∈ (identified input sig).2, Truthful chip m := by
  intro m hm
  rcases List.mem_cons.mp hm with rfl | hm
  · cases hcible : rechercheCible sig with
    | none => trivial
    | some cible => exact hsig cible hcible
  · exact truthful_command chip input _ m hm

/-- After the identification nothing more is said about the target. -/
theorem late_resume {s : Prog.State} (hlate : ¬ Identifying s) (result : Result) :
    ¬ Identifying (resume input s result).1 ∧
      ∀ m ∈ (resume input s result).2, Truthful chip m := by
  cases s with
  | init | openDevice | kernelDriver | detach | claim | ispIds => exact absurd trivial hlate
  | flashRead size s =>
    refine ⟨not_identifying_afterFlashRead size _, ?_⟩
    cases s with
    | request | receive =>
      dsimp only [resume, flashRead]
      split_ifs <;> simp [Truthful]
    | _ => exact fun m hm => absurd hm List.not_mem_nil
  | flashWrite packets =>
    refine ⟨not_identifying_afterFlashWrite _, fun m hm => ?_⟩
    dsimp only [resume, flashWrite] at hm
    cases htail : packets.tail with
    | nil =>
      rw [htail] at hm
      rw [List.mem_singleton.mp hm]
      trivial
    | cons p rest =>
      rw [htail] at hm
      cases hm
  | cleanUp calls code => exact ⟨not_false, fun m hm => by cases hm⟩
  | nullDereference => exact ⟨not_false, fun m hm => by cases hm⟩

end

/-! ## The device until the identification ends -/

/-- No read request is under way or noted, and the IN bank holds a button packet or the
signature. -/
structure NoBlock (d : Device chip) : Prop where
  settled : Settled d.mcu
  pending : ∀ p ∈ d.pending, p.head? ≠ some 0x02
  command : d.mcu.commandePC ≠ 0x02
  inBank : ∀ q, d.mcu.inBank = some q → q.length = 1 ∨ q = chipSignature chip

section
variable {d : Device chip}

theorem Quiet.noBlock (hd : Quiet d) : NoBlock d := by
  refine ⟨hd.settled, fun p hp hhead => ?_, hd.idle.2, fun q hq => .inl (hd.inBank q hq)⟩
  exact (hd.pending p hp).1 (.inr hhead)

theorem NoBlock.emptied (h : NoBlock d) : NoBlock (emptied d) :=
  ⟨h.settled.step _, h.pending, h.command, nofun⟩

/-- The main loop. -/
theorem NoBlock.firmware (h : NoBlock d) (pinC : UInt8) :
    NoBlock (Firmware.step d (.firmware pinC)) := by
  have heffect := Firmware.step_effect h.settled (.firmware pinC)
  have hsettled := h.settled.step (.firmware pinC)
  generalize Firmware.step d (.firmware pinC) = d' at heffect hsettled ⊢
  cases heffect with
  | idleOUT | busyIN => exact ⟨hsettled, h.pending, h.command, h.inBank⟩
  | serve _ p hnext hbank =>
    have hp : p.head? ≠ some 0x02 := h.pending p (by simp [Device.pending, hbank])
    refine ⟨hsettled, by simp [Device.pending], ?_, fun q hq => ?_⟩
    · show (Mcu.processed { d.mcu with pinC := pinC } p).commandePC ≠ 0x02
      rw [Mcu.commandePC_processed_headD]
      cases p with
      | nil => exact h.command
      | cons command rest =>
        intro hread
        rw [List.headD_cons] at hread
        exact hp (by rw [hread]; rfl)
    · rw [Mcu.inBank_processed] at hq
      exact h.inBank q hq
  | answer _ hnext hbank =>
    by_cases h1 : d.mcu.commandePC = 0x01
    · rw [Mcu.answered_signature (m := { d.mcu with pinC := pinC }) h1] at hsettled ⊢
      refine ⟨hsettled, h.pending, show (0 : UInt8) ≠ 0x02 by decide, fun q hq => ?_⟩
      cases hq
      exact .inr rfl
    · rw [Mcu.answered_buttons (m := { d.mcu with pinC := pinC }) h1 h.command] at hsettled ⊢
      refine ⟨hsettled, h.pending, h.command, fun q hq => ?_⟩
      cases hq
      exact .inl rfl

/-- The request of `isp_ids` is sent. -/
theorem NoBlock.arrive (h : NoBlock d) (hbank : d.mcu.outBank = none) :
    NoBlock (Firmware.step d (.arrive [0x01])) := by
  have hsettled := h.settled.step (.arrive [0x01])
  rw [arrive_eq hbank] at hsettled ⊢
  refine ⟨hsettled, fun p hp => ?_, h.command, h.inBank⟩
  have hone : p = [0x01] := by simpa [Device.pending] using hp
  rw [hone]
  decide

end

/-! ## The invariant -/

/-- The states of `isp_ids`. Only the first byte of the buffer has been overwritten. -/
inductive Asking : IspIds.State → Prop
  | request (b : UInt8) : Asking (.request [b, 0, 0])
  | receive (b : UInt8) : Asking (.receive [b, 0, 0])

/-- All messages are true, and the identification is under way with a device that has heard of
no read request, or it has ended. -/
structure TruthInv (s : Composed Prog.State chip) : Prop where
  out : ∀ m ∈ s.host.out, Truthful chip m
  state : (∃ x, s.host.state = .ispIds x ∧ Asking x ∧ NoBlock s.device) ∨ ¬ Identifying s.host.state

section
variable {input : Input} {s : Composed Prog.State chip}

/-- A buffer in which no signature was put names no target. -/
theorem rechercheCible_asking (b : UInt8) : rechercheCible [b, 0, 0] = none := by
  rw [rechercheCible_eq_none]
  intro cible hcible hsig
  obtain ⟨x, y, z, hxyz, hy, -⟩ := signature_nonzero hcible
  rw [hxyz] at hsig
  injection hsig with _ hsig
  injection hsig with hzero _
  exact hy hzero

/-- A call after the identification. -/
theorem TruthInv.late (h : TruthInv s) (hlate : ¬ Identifying s.host.state) {call : Call}
    (hcall : (prog input).call s.host.state = some call) (result : Result) (d : Device chip) :
    TruthInv ⟨(prog input).step s.host result, d⟩ := by
  obtain ⟨hnext, hmessages⟩ := late_resume chip input hlate result
  rw [Program.step_of_call _ hcall]
  refine ⟨fun m hm => ?_, .inr hnext⟩
  rcases List.mem_append.mp hm with hm | hm
  · exact h.out m hm
  · exact hmessages m hm

/-- The request of `isp_ids`, which arrives or not. -/
theorem TruthInv.request (h : TruthInv s) {b : UInt8}
    (hstate : s.host.state = .ispIds (.request [b, 0, 0])) (result : Result) {d : Device chip}
    (hd : NoBlock d) : TruthInv ⟨(prog input).step s.host result, d⟩ := by
  have hcall : (prog input).call s.host.state = some (.transferOut [0x01]) := by rw [hstate]; rfl
  rw [Program.step_of_call _ hcall, hstate]
  refine ⟨fun m hm => ?_, .inl ⟨_, rfl, .receive b, hd⟩⟩
  rcases List.mem_append.mp hm with hm | hm
  · exact h.out m hm
  · have hmessage : m = if result.r = 0 then .signatureSent else .signatureRequestError :=
      List.mem_singleton.mp hm
    rw [hmessage]
    split_ifs <;> trivial

/-- The identification ends with the buffer `sig`. -/
theorem TruthInv.ends (h : TruthInv s) {dataIn : List UInt8}
    (hstate : s.host.state = .ispIds (.receive dataIn)) {result : Result} {sig : List UInt8}
    {message : Message}
    (hend : ispIds.resume (.receive dataIn) result = (.returned sig, [message]))
    (hmessage : Truthful chip message)
    (hsig : ∀ cible, rechercheCible sig = some cible →
      rechercheCible (chipSignature chip) = some cible) (d : Device chip) :
    TruthInv ⟨(prog input).step s.host result, d⟩ := by
  have hcall : (prog input).call s.host.state = some (.transferIn 3) := by rw [hstate]; rfl
  have hresume : (prog input).resume (.ispIds (.receive dataIn)) result
      = ((identified input sig).1, message :: (identified input sig).2) := by
    simp only [prog, resume, hend]
    rfl
  rw [Program.step_of_call _ hcall, hstate, hresume]
  refine ⟨fun m hm => ?_, .inr (not_identifying_identified sig)⟩
  rcases List.mem_append.mp hm with hm | hm
  · exact h.out m hm
  · rcases List.mem_cons.mp hm with rfl | hm
    · exact hmessage
    · exact truthful_identified chip input hsig m hm

/-- `isp_ids` takes a packet. -/
theorem TruthInv.received (h : TruthInv s) {b : UInt8}
    (hstate : s.host.state = .ispIds (.receive [b, 0, 0])) (hd : NoBlock s.device) {q : Packet}
    (hq : s.device.mcu.inBank = some q) :
    TruthInv ⟨(prog input).step s.host (taken 3 q), emptied s.device⟩ := by
  rcases hd.inBank q hq with hlen | rfl
  · -- a button packet overwrites the first byte
    obtain ⟨c, rfl⟩ := List.length_eq_one_iff.mp hlen
    have hcall : (prog input).call s.host.state = some (.transferIn 3) := by rw [hstate]; rfl
    have hresume : (prog input).resume (.ispIds (.receive [b, 0, 0])) (taken 3 [c])
        = (.ispIds (.receive [c, 0, 0]), []) := rfl
    rw [Program.step_of_call _ hcall, hstate, hresume]
    refine ⟨fun m hm => h.out m ?_, .inl ⟨_, rfl, .receive c, hd.emptied⟩⟩
    rwa [List.append_nil] at hm
  · exact h.ends hstate (ispIds_reply rfl) rfl (fun _ hcible => hcible) _

/-- The transfer of `isp_ids` fails. -/
theorem TruthInv.timeout (h : TruthInv s) {b : UInt8}
    (hstate : s.host.state = .ispIds (.receive [b, 0, 0])) (d : Device chip) :
    TruthInv ⟨(prog input).step s.host timedOut, d⟩ := by
  have hend : ispIds.resume (.receive [b, 0, 0]) timedOut
      = (.returned [b, 0, 0], [.signatureError]) := rfl
  apply h.ends hstate hend trivial
  intro cible hcible
  rw [rechercheCible_asking] at hcible
  cases hcible

/-- Every action keeps the invariant. -/
theorem TruthInv.step (h : TruthInv s) (a : Action) : TruthInv (System.step (prog input) s a) := by
  have heffect := step_effect (prog input) s a
  generalize System.step (prog input) s a = s' at heffect ⊢
  rcases h.state with ⟨x, hstate, hasking, hd⟩ | hlate
  · cases heffect with
    | firmware pinC => exact ⟨h.out, .inl ⟨x, hstate, hasking, hd.firmware pinC⟩⟩
    | poll => exact ⟨h.out, .inl ⟨x, hstate, hasking, hd.emptied⟩⟩
    | sent p hcall hbank =>
      rw [hstate] at hcall
      cases hasking with
      | request b =>
        cases hcall
        exact h.request hstate _ (hd.arrive hbank)
      | receive b => cases hcall
    | received size q hcall hq =>
      rw [hstate] at hcall
      cases hasking with
      | request b => cases hcall
      | receive b =>
        cases hcall
        exact h.received hstate hd hq
    | called call hcall hcontrol =>
      rw [hstate] at hcall
      cases hasking <;> cases hcall <;> exact absurd hcontrol not_false
    | timeoutOUT p hcall =>
      rw [hstate] at hcall
      cases hasking with
      | request b => exact h.request hstate _ hd
      | receive b => cases hcall
    | timeoutIN size hcall =>
      rw [hstate] at hcall
      cases hasking with
      | request b => cases hcall
      | receive b => exact h.timeout hstate _
    | blockedOUT | blockedIN | returned | noTransfer => exact h
  · cases heffect with
    | firmware | poll => exact ⟨h.out, .inr hlate⟩
    | sent p hcall => exact h.late hlate hcall _ _
    | received size q hcall => exact h.late hlate hcall _ _
    | called call hcall => exact h.late hlate hcall _ _
    | timeoutOUT p hcall => exact h.late hlate hcall _ _
    | timeoutIN size hcall => exact h.late hlate hcall _ _
    | blockedOUT | blockedIN | returned | noTransfer => exact h

end

/-! ## Main result -/

/-- **What is said about the target is true**, in every run of `prog`, whatever its arguments are,
whichever transfers fail and whoever polls the buttons. -/
theorem identification_true {d : Device chip} (hd : Quiet d) (input : Input) (as : List Action) :
    let out := (run (step (prog input)) ⟨Program.start claimed, d⟩ as).host.out
    (∀ sig, .signatureReceived sig ∈ out → sig = chipSignature chip) ∧
      ∀ cible, .target cible ∈ out → rechercheCible (chipSignature chip) = some cible := by
  have hstart : TruthInv (⟨Program.start claimed, d⟩ : Composed Prog.State chip) :=
    ⟨fun m hm => absurd hm List.not_mem_nil, .inl ⟨_, rfl, .request 0, hd.noBlock⟩⟩
  have hinv : TruthInv (run (step (prog input)) ⟨Program.start claimed, d⟩ as) := by
    apply run_invariant (I := fun s : Composed Prog.State chip => TruthInv s)
    · intro s a hs
      exact hs.step a
    · exact hstart
  exact ⟨fun sig hsig => hinv.out _ hsig, fun cible hcible => hinv.out _ hcible⟩

/-- Two lost transfers and a button packet. -/
theorem identification_true_zeroed :
    let out := (run (step (prog readInput)) ⟨Program.start claimed, zeroed⟩
      [.timeout, .firmware 0, .firmware 0, .transfer, .timeout]).host.out
    (∀ sig, .signatureReceived sig ∈ out → sig = chipSignature atmega328p) ∧
      ∀ cible, .target cible ∈ out →
        rechercheCible (chipSignature atmega328p) = some cible :=
  identification_true quiet_zeroed readInput [.timeout, .firmware 0, .firmware 0, .transfer, .timeout]

end System
end AvrProgrammer
