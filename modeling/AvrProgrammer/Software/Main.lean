import AvrProgrammer.Software.Prog
import Mathlib.Tactic.SplitIfs

/-!
# Runs of `main`

What every run of `main` keeps, whatever libusb returns: `isp_ids` sends signature requests
only, the command runs with the target that `recherche_cible` finds for the bytes received, and
every other packet is a read request of `flash_read` below its size or one of the packets of
`flash_write` for the file.
-/

namespace AvrProgrammer
namespace Software

open Runs

/-! ## What a run has sent and received -/

/-- The packets sent, with the results of the transfers. -/
def transfers (calls : List (Call × Result)) : List (Packet × Result) :=
  calls.filterMap fun
    | (.transferOut packet, result) => some (packet, result)
    | _ => none

/-- The bytes an IN transfer of `isp_ids` has left in the buffer `sig`. -/
def received (sig : List UInt8) : Call × Result → List UInt8
  | (.transferIn 3, result) => IspIds.overwrite sig result.data
  | _ => sig

/-- The buffer `sig` of `main` after these calls. -/
def receivedSignature (calls : List (Call × Result)) : List UInt8 :=
  calls.foldl received [0, 0, 0]

@[simp] theorem receivedSignature_concat (calls : List (Call × Result)) (x : Call × Result) :
    receivedSignature (calls ++ [x]) = received (receivedSignature calls) x := by
  simp [receivedSignature]

@[simp] theorem transfers_append (calls calls' : List (Call × Result)) :
    transfers (calls ++ calls') = transfers calls ++ transfers calls' := List.filterMap_append

theorem rechercheCible_eq_some {sig : List UInt8} {cible : CibleAVR} :
    rechercheCible sig = some cible ↔ cible ∈ baseDeDonnees ∧ cible.signature = sig := by
  constructor
  · intro h
    refine ⟨List.mem_of_find?_eq_some h, ?_⟩
    simpa [eq_comm] using List.find?_some h
  · rintro ⟨hmem, rfl⟩
    have hall : ∀ cible ∈ baseDeDonnees, rechercheCible cible.signature = some cible := by decide
    exact hall cible hmem

theorem rechercheCible_eq_none {sig : List UInt8} :
    rechercheCible sig = none ↔ ∀ cible ∈ baseDeDonnees, cible.signature ≠ sig := by
  rw [Option.eq_none_iff_forall_ne_some]
  simp only [ne_eq, rechercheCible_eq_some, not_and]

/-! ## The command -/

namespace Prog
namespace Input

/-- The command is `-read`. -/
def Reads (input : Input) : Prop := input.args.head? = some "-read"

/-- The file of a `-write` command, if it can be opened. -/
def file (input : Input) : Option (List UInt8) :=
  match input.args with
  | action :: name :: _ => if action = "-write" then input.fopen name else none
  | _ => none

end Input
end Prog

open Prog

/-- What `command` does, by the arguments. -/
inductive CommandSpec (input : Input) (cible : Option CibleAVR) : State × List Message → Prop
  | closes (hreads : ¬ input.Reads) (hfile : input.file = none) (out : List Message)
    (hout : .writeSuccess ∉ out) : CommandSpec input cible (fermeture, out)
  | faults (hreads : input.Reads) (hfile : input.file = none) (hcible : cible = none) :
    CommandSpec input cible (.nullDereference, [])
  | reads (hreads : input.Reads) (hfile : input.file = none) (c : CibleAVR)
    (hcible : cible = some c) :
    CommandSpec input cible (.flashRead c.tailleFlash (FlashRead.loop c.tailleFlash 0), [])
  | writes (hreads : ¬ input.Reads) (file : List UInt8) (hfile : input.file = some file) :
    CommandSpec input cible (.flashWrite (flashWritePackets input.vars file), [])

theorem command_spec (input : Input) (cible : Option CibleAVR) :
    CommandSpec input cible (command input cible) := by
  unfold command
  split
  next hargs => exact .closes (by simp [Input.Reads, hargs]) (by simp [Input.file, hargs]) _ (by simp)
  next action args hargs =>
    split_ifs with hread hwrite
    · have hreads : input.Reads := by rw [Input.Reads, hargs, hread]; rfl
      have hfile : input.file = none := by
        cases args with
        | nil => simp [Input.file, hargs]
        | cons name args =>
          rw [Input.file, hargs]
          exact if_neg (by rw [hread]; decide)
      cases cible with
      | none => exact .faults hreads hfile rfl
      | some c => exact .reads hreads hfile c rfl
    · have hreads : ¬ input.Reads := by
        rw [Input.Reads, hargs, hwrite]
        simp
      cases args with
      | nil => exact .closes hreads (by simp [Input.file, hargs]) _ (by simp)
      | cons name args =>
        have hfile : input.file = input.fopen name := by
          rw [Input.file, hargs]
          exact if_pos hwrite
        dsimp only
        cases hopen : input.fopen name with
        | none => exact .closes hreads (hfile.trans hopen) _ (by simp)
        | some file => exact .writes hreads file (hfile.trans hopen)
    · have hreads : ¬ input.Reads := by
        rw [Input.Reads, hargs]
        simpa using hread
      have hfile : input.file = none := by
        cases args with
        | nil => simp [Input.file, hargs]
        | cons name args =>
          rw [Input.file, hargs]
          exact if_neg hwrite
      exact .closes hreads hfile _ (by simp)

theorem command_of_file {input : Input} {file : List UInt8} (hfile : input.file = some file)
    (cible : Option CibleAVR) :
    command input cible = (.flashWrite (flashWritePackets input.vars file), []) := by
  have hspec := command_spec input cible
  generalize command input cible = c at hspec ⊢
  cases hspec with
  | writes _ file' hfile' =>
    rw [hfile] at hfile'
    cases hfile'
    rfl
  | closes _ hnone | faults _ hnone | reads _ hnone =>
    rw [hfile] at hnone
    cases hnone

theorem command_of_reads {input : Input} (hreads : input.Reads) :
    command input none = (.nullDereference, []) := by
  have hspec := command_spec input none
  generalize command input none = c at hspec ⊢
  cases hspec with
  | faults => rfl
  | closes hnot | writes hnot => exact absurd hreads hnot
  | reads _ _ _ hcible => cases hcible

/-! ## The invariant -/

/-- The calls of `fermeture`. -/
def closing : List Call := [.releaseInterface, .close, .exit]

/-- The states up to the end of `isp_ids`. -/
def Identifying : State → Prop
  | .init | .openDevice | .kernelDriver | .detach | .claim | .ispIds _ => True
  | _ => False

/-- What the state of `main` says about the buffer `sig` and the packets to come. -/
def StateInv (input : Input) (sig : List UInt8) : State → Prop
  | .init | .openDevice | .kernelDriver | .detach | .claim => sig = [0, 0, 0]
  | .ispIds (.request dataIn) | .ispIds (.receive dataIn) => dataIn = sig
  | .ispIds (.returned _) => False
  | .flashRead size s => ∃ cible, rechercheCible sig = some cible ∧ size = cible.tailleFlash ∧
      ∀ addr, s = .request addr → addr.toUInt32 < size / 2
  | .flashWrite packets => ∃ file, input.file = some file ∧
      ∀ p ∈ packets, p ∈ flashWritePackets input.vars file
  | .cleanUp calls _ => ∀ call ∈ calls, call ∈ closing
  | .nullDereference => input.Reads ∧ rechercheCible sig = none

/-- The packets sent after the identification. -/
inductive Issued (input : Input) (sig : List UInt8) : Packet → Prop
  | read (cible : CibleAVR) (hcible : rechercheCible sig = some cible) (addr : UInt16)
    (haddr : addr.toUInt32 < cible.tailleFlash / 2) :
    Issued input sig [0x02, highByte addr, lowByte addr]
  | write (file : List UInt8) (hfile : input.file = some file) (p : Packet)
    (hp : p ∈ flashWritePackets input.vars file) : Issued input sig p

structure MainInv (input : Input) (h : Host State) : Prop where
  state : StateInv input (receivedSignature h.calls) h.state
  identifying : Identifying h.state → ∀ x ∈ transfers h.calls, x.1 = [0x01]
  issued : ∀ x ∈ transfers h.calls, x.1 = [0x01] ∨
    Issued input (receivedSignature h.calls) x.1

section
variable {input : Input} {h : Host State}

/-- A call that is no transfer of `isp_ids` and leads to a state past the identification. -/
theorem MainInv.concat (hinv : MainInv input h) {call : Call} {result : Result} {s : State}
    {out : List Message} (hcall : ∀ r, received (receivedSignature h.calls) (call, r)
      = receivedSignature h.calls)
    (hstate : StateInv input (receivedSignature h.calls) s) (hlate : ¬ Identifying s)
    (hissued : ∀ p, call = .transferOut p → Issued input (receivedSignature h.calls) p) :
    MainInv input ⟨s, h.calls ++ [(call, result)], out⟩ := by
  refine ⟨?_, fun hs => absurd hs hlate, fun x hx => ?_⟩
  · dsimp only
    rwa [receivedSignature_concat, hcall]
  · dsimp only at hx ⊢
    rw [receivedSignature_concat, hcall]
    rw [transfers_append] at hx
    rcases List.mem_append.mp hx with hx | hx
    · exact hinv.issued x hx
    · cases call with
      | transferOut p =>
        rw [show x = (p, result) by simpa [transfers] using hx]
        exact .inr (hissued p rfl)
      | _ => simp [transfers] at hx

/-- A call of the identification. -/
theorem MainInv.concat_identifying (hinv : MainInv input h) (hs : Identifying h.state)
    {call : Call} {result : Result} {s : State} {out : List Message}
    (hcall : ∀ p, call = .transferOut p → p = [0x01])
    (hstate : StateInv input (received (receivedSignature h.calls) (call, result)) s) :
    MainInv input ⟨s, h.calls ++ [(call, result)], out⟩ := by
  have hsent : ∀ x ∈ transfers (h.calls ++ [(call, result)]), x.1 = [0x01] := by
    intro x hx
    rw [transfers_append] at hx
    rcases List.mem_append.mp hx with hx | hx
    · exact hinv.identifying hs x hx
    · cases call with
      | transferOut p =>
        rw [show x = (p, result) by simpa [transfers] using hx]
        exact hcall p rfl
      | _ => simp [transfers] at hx
  refine ⟨?_, fun _ => hsent, fun x hx => .inl (hsent x hx)⟩
  dsimp only
  rwa [receivedSignature_concat]

theorem stateInv_fermeture (sig : List UInt8) : StateInv input sig fermeture :=
  fun _ hcall => hcall

theorem loop_request {size : UInt32} {addr addr' : UInt16}
    (hloop : FlashRead.loop size addr = .request addr') : addr'.toUInt32 < size / 2 := by
  unfold FlashRead.loop at hloop
  split_ifs at hloop with haddr
  cases hloop
  exact haddr

theorem flashRead_resume_request {size : UInt32} {s : FlashRead.State} {result : Result}
    {addr : UInt16} (h : ((flashRead size).resume s result).1 = .request addr) :
    addr.toUInt32 < size / 2 := by
  cases s with
  | request | receive =>
    dsimp only [flashRead] at h
    split_ifs at h <;> exact loop_request h
  | _ => cases h

theorem flashRead_call_received {size : UInt32} {s : FlashRead.State} {call : Call}
    (h : (flashRead size).call s = some call) {sig : List UInt8} (result : Result) :
    received sig (call, result) = sig := by
  cases s <;> cases h <;> rfl

/-- The command runs with the target found for the bytes in `sig`. -/
theorem stateInv_identified (sig : List UInt8) :
    StateInv input sig (identified input sig).1 := by
  have hspec := command_spec input (rechercheCible sig)
  show StateInv input sig (command input (rechercheCible sig)).1
  generalize command input (rechercheCible sig) = c at hspec ⊢
  cases hspec with
  | closes => exact stateInv_fermeture sig
  | faults hreads hfile hcible => exact ⟨hreads, hcible⟩
  | reads hreads hfile cible hcible => exact ⟨cible, hcible, rfl, fun _ => loop_request⟩
  | writes hreads file hfile => exact ⟨file, hfile, fun _ hp => hp⟩

theorem stateInv_afterFlashRead {sig : List UInt8} {cible : CibleAVR}
    (hcible : rechercheCible sig = some cible) {s : FlashRead.State}
    (hs : ∀ addr, s = .request addr → addr.toUInt32 < cible.tailleFlash / 2) :
    StateInv input sig (afterFlashRead cible.tailleFlash s) ∧
      ¬ Identifying (afterFlashRead cible.tailleFlash s) := by
  cases s with
  | returned => exact ⟨stateInv_fermeture sig, not_false⟩
  | _ => exact ⟨⟨cible, hcible, rfl, hs⟩, not_false⟩

theorem mainInv_start (input : Input) : MainInv input (Program.start .init) :=
  ⟨rfl, fun _ _ hx => absurd hx List.not_mem_nil, fun _ hx => absurd hx List.not_mem_nil⟩

theorem MainInv.step (hinv : MainInv input h) (result : Result) :
    MainInv input ((prog input).step h result) := by
  obtain ⟨state, calls, out⟩ := h
  have hstate := hinv.state
  cases state with
  | init =>
    refine hinv.concat_identifying trivial (by simp) ?_
    dsimp only [prog, resume]
    split_ifs
    · simp [StateInv]
    · exact hstate
  | openDevice =>
    refine hinv.concat_identifying trivial (by simp) ?_
    dsimp only [prog, resume]
    split_ifs
    · simp [StateInv, closing]
    · exact hstate
  | kernelDriver =>
    refine hinv.concat_identifying trivial (by simp) ?_
    dsimp only [prog, resume]
    split_ifs <;> exact hstate
  | detach => exact hinv.concat_identifying trivial (by simp) hstate
  | claim =>
    refine hinv.concat_identifying trivial (by simp) ?_
    dsimp only [prog, resume]
    split_ifs
    · simp [StateInv, closing]
    · exact hstate.symm
  | ispIds s =>
    cases s with
    | request dataIn => exact hinv.concat_identifying trivial (by simp) hstate
    | receive dataIn =>
      refine hinv.concat_identifying trivial (by simp) ?_
      have hdata : dataIn = receivedSignature calls := hstate
      dsimp only [prog, resume, ispIds, received]
      rw [hdata]
      split_ifs
      · exact rfl
      · exact stateInv_identified _
      · exact stateInv_identified _
    | returned dataIn => exact absurd hstate not_false
  | flashRead size s =>
    obtain ⟨cible, hcible, rfl, hrequest⟩ := hstate
    cases hcall : (flashRead cible.tailleFlash).call s with
    | none => rwa [Program.step_returned _ hcall]
    | some call =>
      rw [Program.step_of_call _ hcall]
      obtain ⟨hnext, hlate⟩ := stateInv_afterFlashRead hcible fun addr =>
        @flashRead_resume_request cible.tailleFlash s result addr
      refine hinv.concat (flashRead_call_received hcall) hnext hlate fun p hp => ?_
      obtain ⟨addr, rfl, rfl⟩ := flashRead_call_transferOut (hp ▸ hcall)
      exact .read cible hcible addr (hrequest addr rfl)
  | flashWrite packets =>
    obtain ⟨file, hfile, hpackets⟩ := hstate
    cases packets with
    | nil => exact hinv
    | cons packet packets =>
      have hrest : ∀ p ∈ packets, p ∈ flashWritePackets input.vars file :=
        fun p hp => hpackets p (.tail _ hp)
      refine hinv.concat (fun _ => rfl) ?_ ?_ ?_
      · cases packets with
        | nil => exact stateInv_fermeture _
        | cons p packets => exact ⟨file, hfile, hrest⟩
      · cases packets <;> exact not_false
      · rintro p ⟨rfl⟩
        exact .write file hfile packet (hpackets packet List.mem_cons_self)
  | cleanUp calls' code =>
    cases calls' with
    | nil => exact hinv
    | cons call calls' =>
      have hclosing : call ∈ closing := hstate call List.mem_cons_self
      refine hinv.concat (fun _ => ?_) (fun c hc => hstate c (.tail _ hc)) not_false ?_
      · cases call <;> first | rfl | exact absurd hclosing (by simp [closing])
      · rintro p ⟨rfl⟩
        exact absurd hclosing (by simp [closing])
  | nullDereference => exact hinv

/-- The invariant holds in every run. -/
theorem mainInv_run (input : Input) (results : List Result) :
    MainInv input (run (prog input).step (Program.start .init) results) :=
  run_invariant (fun _ result hinv => hinv.step result) (mainInv_start input) results

/-! ## After the identification -/

theorem not_identifying_afterFlashRead (size : UInt32) (s : FlashRead.State) :
    ¬ Identifying (afterFlashRead size s) := by
  cases s <;> exact not_false

theorem not_identifying_afterFlashWrite (packets : List Packet) :
    ¬ Identifying (afterFlashWrite packets).1 := by
  cases packets <;> exact not_false

theorem not_identifying_identified (sig : List UInt8) :
    ¬ Identifying (identified input sig).1 := by
  have hspec := command_spec input (rechercheCible sig)
  show ¬ Identifying (command input (rechercheCible sig)).1
  generalize command input (rechercheCible sig) = c at hspec ⊢
  cases hspec <;> exact not_false

/-- `main` does not go back to the identification, and the signature stays. -/
theorem late_step (hinv : MainInv input h) (hlate : ¬ Identifying h.state) (result : Result) :
    ¬ Identifying ((prog input).step h result).state ∧
      receivedSignature ((prog input).step h result).calls = receivedSignature h.calls := by
  obtain ⟨state, calls, out⟩ := h
  have hstate := hinv.state
  cases state with
  | init | openDevice | kernelDriver | detach | claim | ispIds => exact absurd trivial hlate
  | flashRead size s =>
    cases hcall : (flashRead size).call s with
    | none =>
      rw [Program.step_returned _ hcall]
      exact ⟨hlate, rfl⟩
    | some call =>
      rw [Program.step_of_call _ hcall]
      refine ⟨not_identifying_afterFlashRead size _, ?_⟩
      rw [receivedSignature_concat]
      exact flashRead_call_received hcall result
  | flashWrite packets =>
    cases packets with
    | nil => exact ⟨hlate, rfl⟩
    | cons packet packets =>
      exact ⟨not_identifying_afterFlashWrite packets, receivedSignature_concat ..⟩
  | cleanUp calls' code =>
    cases calls' with
    | nil => exact ⟨hlate, rfl⟩
    | cons call calls' =>
      have hclosing : call ∈ closing := hstate call List.mem_cons_self
      refine ⟨not_false, (receivedSignature_concat ..).trans ?_⟩
      cases call <;> first | rfl | exact absurd hclosing (by simp [closing])
  | nullDereference => exact ⟨hlate, rfl⟩

theorem late_run (hinv : MainInv input h) (hlate : ¬ Identifying h.state)
    (results : List Result) :
    receivedSignature (run (prog input).step h results).calls = receivedSignature h.calls := by
  induction results generalizing h with
  | nil => rfl
  | cons result results ih =>
    obtain ⟨hnext, hsame⟩ := late_step hinv hlate result
    exact (ih (hinv.step result) hnext).trans hsame

/-! ## The packets of `flash_write` -/

variable (input) in
/-- As many results as packets, or fewer, send that many packets. -/
theorem run_flashWrite {packets : List Packet} (hne : packets ≠ [])
    {results : List Result} (hlen : results.length ≤ packets.length)
    (hstate : h.state = .flashWrite packets) :
    run (prog input).step h results =
      { state := (afterFlashWrite (packets.drop results.length)).1,
        calls := h.calls ++ (packets.map .transferOut).zip results,
        out := h.out ++ (afterFlashWrite (packets.drop results.length)).2 } := by
  induction results generalizing h packets with
  | nil =>
    obtain ⟨packet, packets, rfl⟩ := List.exists_cons_of_ne_nil hne
    simp [afterFlashWrite, ← hstate]
  | cons result results ih =>
    obtain ⟨packet, packets, rfl⟩ := List.exists_cons_of_ne_nil hne
    obtain ⟨state, calls, out⟩ := h
    subst hstate
    cases packets with
    | nil =>
      have hempty : results = [] := List.length_eq_zero_iff.mp (by simpa using hlen)
      rw [hempty]
      rfl
    | cons packet' packets =>
      have hnext : (prog input).step ⟨.flashWrite (packet :: packet' :: packets), calls, out⟩ result
          = ⟨.flashWrite (packet' :: packets), calls ++ [(.transferOut packet, result)],
            out ++ []⟩ := rfl
      rw [run_cons, hnext, ih (List.cons_ne_nil _ _) (Nat.le_of_succ_le_succ hlen) rfl]
      simp

@[simp] theorem transfers_zip (packets : List Packet) (results : List Result) :
    transfers ((packets.map .transferOut).zip results) = packets.zip results := by
  induction packets generalizing results with
  | nil => rfl
  | cons packet packets ih =>
    cases results with
    | nil => rfl
    | cons result results =>
      have hrest := ih results
      simp only [transfers] at hrest
      simp [transfers, hrest]

theorem receivedSignature_zip (calls : List (Call × Result)) (packets : List Packet)
    (results : List Result) :
    receivedSignature (calls ++ (packets.map .transferOut).zip results)
      = receivedSignature calls := by
  induction packets generalizing results calls with
  | nil => simp
  | cons packet packets ih =>
    cases results with
    | nil => simp
    | cons result results =>
      rw [List.map_cons, List.zip_cons_cons, List.append_cons, ih, receivedSignature_concat]
      rfl

end

end Software
end AvrProgrammer
