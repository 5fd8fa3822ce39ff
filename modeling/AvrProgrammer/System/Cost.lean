import AvrProgrammer.System.RoundTrip

/-!
# What the buttons cost

A host that waits for a reply discards the button packets that come before it. Nothing in the
protocol says how many they are: the main loop fills the IN bank whenever it is free.

They are at most two for each reply. One may be in the IN bank when the request is accepted, and
one may be put there in the same turn of the main loop, before `ProcessOUT` has seen the request:
`budget`. From then on the IN bank is only filled with the reply. With the calls made and the
exchanges left this gives a potential that no action raises (`Spent`), so that a program makes
at most twice as many calls as its script has exchanges: `calls_of_script`, `read_calls`.
-/

namespace AvrProgrammer
namespace System

open PagedFlash Runs Firmware Software
open Software.Prog (Input)

variable {σ : Type} {chip : Chip}

/-! ## The button packets before a reply -/

/-- The button packets the host may still take before the reply. -/
def budget (d : Device chip) : ℕ :=
  buttons d + if d.mcu.outBank.isSome ∧ d.next = .dataIn then 1 else 0

section
variable {flash : Memory Word} {d : Device chip} {owed : Option Packet}

theorem budget_le_two (d : Device chip) : budget d ≤ 2 := by
  have hle := buttons_le d
  unfold budget
  split_ifs <;> omega

/-- A full IN bank stays as it is. -/
theorem buttons_congr {d d' : Device chip} (h : d'.mcu.inBank = d.mcu.inBank) :
    buttons d' = buttons d := by
  unfold buttons
  rw [h]

theorem buttons_none (h : d.mcu.inBank = none) : buttons d = 0 := by
  unfold buttons
  rw [h]

/-- When it is the turn of `ProcessOUT`, no other button packet comes before the request. -/
theorem budget_dataOut (h : d.next = .dataOut) : budget d = buttons d := by
  rw [budget, if_neg]
  · rfl
  · rintro ⟨-, hnext⟩
    rw [h] at hnext
    cases hnext

theorem budget_of_none (hout : d.mcu.outBank = none) : budget d = buttons d := by
  rw [budget, if_neg]
  · rfl
  · rintro ⟨hsome, -⟩
    rw [hout] at hsome
    cases hsome

/-- The main loop does not raise the budget. -/
theorem Conversation.budget_firmware (h : Conversation flash d owed) (howed : owed.isSome)
    {pinC : UInt8} {d' : Device chip} (heffect : Firmware.Effect d (.firmware pinC) d') :
    budget d' ≤ budget d := by
  cases heffect with
  | idleOUT _ hnext hbank =>
    rw [budget_of_none hbank, budget_of_none (d := { d with
      mcu := { d.mcu with pinC := pinC, endpoint := .dataOut }, next := .dataIn }) hbank]
    exact Nat.le_of_eq (buttons_congr rfl)
  | serve _ p hnext hbank =>
    rw [budget_of_none (Mcu.outBank_processed ..), budget_dataOut hnext]
    exact Nat.le_of_eq (buttons_congr (Mcu.inBank_processed ..))
  | busyIN _ hnext hbank =>
    rw [budget_dataOut rfl, buttons_congr rfl]
    exact Nat.le_add_right ..
  | answer _ hnext hbank =>
    rw [budget_dataOut rfl]
    cases h with
    | quiet => cases howed
    | requested p hp hsized hout hidle =>
      -- the request is still in the OUT bank, and a button packet is put into the IN bank
      have hone : budget d = buttons d + 1 := by
        rw [budget, if_pos ⟨by rw [hout]; rfl, hnext⟩]
      rw [hone]
      exact (buttons_le _).trans (Nat.le_add_left ..)
    | noted p hp hout hcommand =>
      -- the IN bank is filled with the reply, which is longer
      rcases command_of_isRequest hp hcommand with h1 | h2
      · rw [Mcu.answered_signature (m := { d.mcu with pinC := pinC }) h1]
        exact Nat.zero_le _
      · rw [Mcu.answered_read (m := { d.mcu with pinC := pinC }) h2]
        exact Nat.zero_le _
    | replied q hout hidle hq =>
      rw [hq] at hbank
      cases hbank

/-- A button packet that is taken is one of the budget. -/
theorem budget_taken {b : UInt8} (hq : d.mcu.inBank = some [b]) :
    budget (emptied d) + 1 = budget d := by
  have hbefore : buttons d = 1 := by
    unfold buttons
    rw [hq]
    rfl
  have hafter : buttons (emptied d) = 0 := buttons_none rfl
  have hsame : (emptied d).mcu.outBank = d.mcu.outBank ∧ (emptied d).next = d.next := ⟨rfl, rfl⟩
  rw [budget, budget, hbefore, hafter, hsame.1, hsame.2]
  omega

end

/-! ## The calls of a run -/

/-- A host that follows a script of `K` exchanges has made at most two calls for each exchange,
the button packets it may still take included. -/
def Spent (chip : Chip) (P : Program σ) (s' : σ) (v' : Server) (out : List Message) (K : ℕ)
    (s : Composed σ chip) : Prop :=
  ∃ k t, Refines s t ∧ Follows chip P s' v' out k t ∧ K ≤ s.host.calls.length + k ∧
    match t.server.owed with
    | none => s.host.calls.length + 2 * k ≤ 2 * K
    | some _ => s.host.calls.length + 2 * k + budget s.device ≤ 2 * K + 1

section
variable {P : Program σ} {s' : σ} {v' : Server} {out : List Message} {K : ℕ}
  {s : Composed σ chip}

theorem length_calls_call {h : Host σ} {call : Call} (hcall : P.call h.state = some call)
    (result : Result) : (P.step h result).calls.length = h.calls.length + 1 := by
  rw [Program.step_of_call _ hcall, List.length_append, List.length_singleton]

/-- An action of the main loop. -/
theorem Spent.firmware (h : Spent chip P s' v' out K s) (pinC : UInt8) :
    Spent chip P s' v' out K ⟨s.host, Firmware.step s.device (.firmware pinC)⟩ := by
  obtain ⟨k, t, href, hfollows, hlower, hupper⟩ := h
  refine ⟨k, t, ⟨href.settled.step _, href.host, href.conversation.firmware href.settled pinC⟩,
    hfollows, hlower, ?_⟩
  cases howed : t.server.owed with
  | none =>
    rw [howed] at hupper
    exact hupper
  | some q =>
    rw [howed] at hupper
    have hle := href.conversation.budget_firmware (by rw [howed]; rfl)
      (Firmware.step_effect href.settled (.firmware pinC))
    exact (Nat.add_le_add_left hle _).trans hupper

/-- A transfer of the host. -/
theorem Spent.transfer (h : Spent chip P s' v' out K s) (hend : P.call s' = none)
    {s₁ : Composed σ chip} (heffect : Effect P s .transfer s₁) : Spent chip P s' v' out K s₁ := by
  have hspent := h
  obtain ⟨k, t, href, hfollows, hlower, hupper⟩ := h
  have hpolite := hfollows.polite hend
  cases heffect with
  | sent p hcall hbank =>
    have hcount := length_calls_call hcall ⟨0, []⟩
    rw [href.host] at hcall
    obtain ⟨howed, -⟩ := hpolite p hcall
    obtain ⟨k', rfl, hfollows'⟩ := hfollows.exchange hend (b := .accept) nofun (.accept p hcall)
    refine ⟨k', _, href.sent hpolite hcall hbank, hfollows', ?_, ?_⟩
    · dsimp only
      omega
    · have htwo := budget_le_two (Firmware.step s.device (.arrive p))
      rw [howed] at hupper
      dsimp only at hupper ⊢
      split <;> omega
  | received size q hcall hq =>
    have hcount := length_calls_call hcall (taken size q)
    rw [href.host] at hcall
    have hsome := hfollows.owed hend (by rw [hcall]; rfl)
    obtain ⟨q', howed⟩ := Option.isSome_iff_exists.mp hsome
    rw [howed] at hupper
    dsimp only at hupper
    rcases href.received hq (taken size q) with ⟨⟨b, rfl⟩, href'⟩ | ⟨hreply, href'⟩
    · obtain ⟨hfollows', -⟩ := hfollows.button hend (.button size b hcall)
      have htaken := budget_taken hq
      refine ⟨k, _, href', hfollows', ?_, ?_⟩
      · dsimp only
        omega
      · rw [howed]
        show _ + budget (emptied s.device) ≤ _
        dsimp only
        omega
    · obtain ⟨k', rfl, hfollows'⟩ :=
        hfollows.exchange hend (b := .reply) nofun (.reply size q hcall hreply)
      refine ⟨k', _, href', hfollows', ?_, ?_⟩
      · dsimp only
        omega
      · dsimp only
        omega
  | called call hcall hcontrol =>
    have hcount := length_calls_call hcall ⟨0, []⟩
    rw [href.host] at hcall
    obtain ⟨k', rfl, hfollows'⟩ :=
      hfollows.exchange hend (b := .control) nofun (.control call hcall hcontrol)
    refine ⟨k', _, href.called, hfollows', ?_, ?_⟩
    · dsimp only
      omega
    · cases howed : t.server.owed with
      | none =>
        rw [howed] at hupper
        dsimp only at hupper ⊢
        omega
      | some q =>
        rw [howed] at hupper
        dsimp only at hupper ⊢
        omega
  | blockedOUT | blockedIN | returned => exact hspent

/-- In every run without failures the host makes at most two calls for each exchange, and when
it returns at least one. -/
theorem calls_of_script {k : ℕ} {state : σ} {d : Device chip} (hd : Quiet d)
    {flash : Memory Word} (h : Script chip P s' ⟨flash, none⟩ k state (serverOf d) out)
    (hend : P.call s' = none) {as : List Action} (has : ∀ a ∈ as, FaultFree a) :
    let t := run (System.step P) ⟨Program.start state, d⟩ as
    t.host.calls.length ≤ 2 * k ∧ (P.call t.host.state = none → k ≤ t.host.calls.length) := by
  intro t
  have hstart : Spent chip P s' ⟨flash, none⟩ out k ⟨Program.start state, d⟩ :=
    ⟨k, _, hd.refines _, ⟨out, rfl, h⟩, Nat.le_add_left .., Nat.le_of_eq (Nat.zero_add _)⟩
  have halong : Along (System.step P) (fun _ a => FaultFree a) ⟨Program.start state, d⟩ as :=
    along_of_forall has
  obtain ⟨k', t', href, hfollows, hlower, hupper⟩ :
      Spent chip P s' ⟨flash, none⟩ out k t := by
    apply halong.invariant (I := Spent chip P s' ⟨flash, none⟩ out k) _ hstart
    intro s a hs ha
    cases a with
    | firmware pinC => exact hs.firmware pinC
    | transfer => exact hs.transfer hend (step_effect P s .transfer)
    | timeout => exact absurd rfl ha.1
    | poll => exact absurd rfl ha.2
  have hreturned := hfollows.returned hend
  rw [← href.host] at hreturned
  constructor
  · by_cases hk : k' = 0
    · -- nothing is owed at the end
      obtain ⟨-, -, hserver⟩ := hfollows.done hk
      rw [hserver] at hupper
      dsimp only at hupper
      omega
    · split at hupper <;> omega
  · intro hcall
    have hk := hreturned.mp hcall
    omega

end

/-! ## Main result -/

/-- **The calls of a dump.** `prog -read` of a known target makes at most twice as many calls as
are needed without buttons, in every run without failures, however the main loop and the host
take turns: between `n / 4 + 8` and `n / 2 + 16` calls for `n` bytes. -/
theorem read_calls {d : Device chip} (hd : Quiet d) {input : Input} (hreads : input.Reads)
    {cible : CibleAVR} (hcible : rechercheCible (chipSignature chip) = some cible)
    {as : List Action} (has : ∀ a ∈ as, FaultFree a) :
    let t := run (step (prog input)) ⟨Program.start claimed, d⟩ as
    t.host.calls.length ≤ 4 * (cible.tailleFlash.toNat / 8) + 16 ∧
      ((prog input).call t.host.state = none →
        2 * (cible.tailleFlash.toNat / 8) + 8 ≤ t.host.calls.length) := by
  intro t
  obtain ⟨hupper, hlower⟩ := calls_of_script hd (mainRead_script hreads hcible (meaning d)) rfl has
  refine ⟨hupper.trans ?_, hlower⟩
  omega

/-- A dump of an ATmega328P. -/
theorem read_calls_atmega328p :
    (run (step (prog readInput)) ⟨Program.start claimed, zeroed⟩
      [.firmware 0, .firmware 0, .transfer, .transfer, .firmware 0, .firmware 0, .transfer,
        .transfer]).host.calls.length ≤ 16400 :=
  (read_calls quiet_zeroed (show readInput.Reads from rfl) known_atmega328p (by decide)).1

end System
end AvrProgrammer
