import AvrProgrammer.Software.Coverage
import AvrProgrammer.Software.Gating
import AvrProgrammer.Software.Signature
import AvrProgrammer.Library.Resources

/-!
# The life cycle of the device handle

`libusb_init`, `libusb_open_device_with_vid_pid` and `libusb_claim_interface` each hand out
something that `libusb_exit`, `libusb_close` and `libusb_release_interface` give back. The
clean-up is spread over `init_usb`, `reclamer_interface`, `flash_read` and `main`, and it is
made twice after a `-read`: `lifecycle_iff`.
-/

namespace AvrProgrammer
namespace Software

open Runs Prog Resources

/-- What libusb hands out. -/
inductive Resource where
  | context
  | device
  | interface
deriving DecidableEq

/-- What a call uses, acquires and releases. A call that fails acquires nothing. -/
def uses : Call × Result → List (Use Resource)
  | (.init, result) => if result.r < 0 then [] else [.acquire .context]
  | (.openDeviceWithVidPid, result) =>
    if result.r = 0 then [.use .context] else [.use .context, .acquire .device]
  | (.claimInterface, result) =>
    if result.r < 0 then [.use .device] else [.use .device, .acquire .interface]
  | (.releaseInterface, _) => [.use .device, .release .interface]
  | (.close, _) => [.release .device]
  | (.exit, _) => [.release .context]
  | _ => [.use .device]

/-- What the calls of a run do, in order. -/
def handleUses (calls : List (Call × Result)) : List (Use Resource) := calls.flatMap uses

/-- `main` has returned. -/
def Returned (h : Host State) : Prop := ∃ code, h.state = .cleanUp [] code

/-- Every call finds what it needs, the interface is released only while it is claimed, the
device is closed before the context is given up, and when `main` returns everything has been
given back once. -/
structure Lifecycle (h : Host State) : Prop where
  disciplined : Disciplined (handleUses h.calls)
  undone : Returned h → heldAfter (handleUses h.calls) = []
  once : Returned h → ∀ x, (handleUses h.calls).count (.release x) =
    (handleUses h.calls).count (.acquire x)

/-! ## What is held in each state -/

/-- All resources, the one acquired last first, in the order in which `closing` releases
them. -/
def resources : List Resource := [.interface, .device, .context]

/-- The states of `main` and what it holds in them. -/
inductive Holds : State → List Resource → Prop
  | init : Holds .init []
  | openDevice : Holds .openDevice [.context]
  | kernelDriver : Holds .kernelDriver [.device, .context]
  | detach : Holds .detach [.device, .context]
  | claim : Holds .claim [.device, .context]
  | ispIds (s : IspIds.State) : Holds (.ispIds s) resources
  | flashWrite (packets : List Packet) : Holds (.flashWrite packets) resources
  | nullDereference : Holds .nullDereference resources
  | cleanUp (k : ℕ) (code : ℤ) : Holds (.cleanUp (closing.drop k) code) (resources.drop k)

/-- A run keeps the discipline, or it has read the flash of a known target. -/
inductive LifeInv (input : Input) (h : Host State) : Prop
  | holds (hdisciplined : Disciplined (handleUses h.calls))
    (hholds : Holds h.state (heldAfter (handleUses h.calls))) : LifeInv input h
  | reads (hlate : ¬ Identifying h.state) (hreads : input.Reads) (cible : CibleAVR)
    (hcible : rechercheCible (receivedSignature h.calls) = some cible) : LifeInv input h

section
variable {input : Input}

@[simp] theorem handleUses_append (calls calls' : List (Call × Result)) :
    handleUses (calls ++ calls') = handleUses calls ++ handleUses calls' := List.flatMap_append

theorem handleUses_singleton (x : Call × Result) : handleUses [x] = uses x :=
  List.flatMap_singleton ..

theorem holds_fermeture : Holds fermeture resources := .cleanUp 0 0

/-- A call that finds what it needs. -/
theorem LifeInv.concat {calls : List (Call × Result)} {held : List Resource}
    (hdisciplined : Disciplined (handleUses calls)) (hheld : heldAfter (handleUses calls) = held)
    {call : Call} {result : Result} {s : State} {out : List Message}
    (hpermitted : Along hold Permitted held (uses (call, result)))
    (hnext : Holds s (run hold held (uses (call, result)))) :
    LifeInv input ⟨s, calls ++ [(call, result)], out⟩ := by
  subst hheld
  apply LifeInv.holds
  · rw [handleUses_append, handleUses_singleton, disciplined_append]
    exact ⟨hdisciplined, hpermitted⟩
  · rwa [handleUses_append, handleUses_singleton, heldAfter_append]

/-- A transfer needs the device. -/
theorem LifeInv.transfer {calls : List (Call × Result)}
    (hdisciplined : Disciplined (handleUses calls))
    (hheld : heldAfter (handleUses calls) = resources) {call : Call} {result : Result}
    (hcall : uses (call, result) = [.use .device]) {s : State} {out : List Message}
    (hnext : Holds s resources) : LifeInv input ⟨s, calls ++ [(call, result)], out⟩ := by
  apply LifeInv.concat hdisciplined hheld
  · rw [hcall]
    exact ⟨show Resource.device ∈ resources by decide, trivial⟩
  · rwa [hcall]

end

/-! ## Every call -/

section
variable {input : Input} {calls : List (Call × Result)} {out : List Message}

/-- The command keeps everything, or reads the flash of a known target. -/
theorem lifeInv_identified {dataIn : List UInt8} {result : Result}
    (hdisciplined : Disciplined (handleUses calls))
    (hheld : heldAfter (handleUses calls) = resources)
    (hdata : receivedSignature (calls ++ [(.transferIn 3, result)]) = dataIn) :
    LifeInv input ⟨(identified input dataIn).1, calls ++ [(.transferIn 3, result)], out⟩ := by
  have hspec := command_spec input (rechercheCible dataIn)
  show LifeInv input ⟨(command input (rechercheCible dataIn)).1, _, out⟩
  generalize hcommand : command input (rechercheCible dataIn) = c at hspec ⊢
  cases hspec with
  | closes => exact .transfer hdisciplined hheld rfl holds_fermeture
  | faults => exact .transfer hdisciplined hheld rfl .nullDereference
  | writes => exact .transfer hdisciplined hheld rfl (.flashWrite _)
  | reads hreads _ cible hcible => exact .reads not_false hreads cible (by rw [hdata, hcible])

/-- A call of `isp_ids`. -/
theorem lifeInv_ispIds {s : IspIds.State} (hinv : MainInv input ⟨.ispIds s, calls, out⟩)
    (hdisciplined : Disciplined (handleUses calls))
    (hheld : heldAfter (handleUses calls) = resources) (result : Result) :
    LifeInv input ((prog input).step ⟨.ispIds s, calls, out⟩ result) := by
  have hstate := hinv.state
  cases s with
  | request dataIn => exact .transfer hdisciplined hheld rfl (.ispIds _)
  | returned dataIn => exact absurd hstate not_false
  | receive dataIn =>
    have hdata : dataIn = receivedSignature calls := hstate
    have hstep : (prog input).step ⟨.ispIds (.receive dataIn), calls, out⟩ result
        = ⟨(resume input (.ispIds (.receive dataIn)) result).1,
          calls ++ [(.transferIn 3, result)],
          out ++ (resume input (.ispIds (.receive dataIn)) result).2⟩ := rfl
    rw [hstep, resume_receive]
    split_ifs with hbutton
    · exact .transfer hdisciplined hheld rfl (.ispIds _)
    · apply lifeInv_identified hdisciplined hheld
      rw [receivedSignature_concat, ← hdata]
      rfl

/-- A call of the clean-up gives back what was acquired last. -/
theorem lifeInv_cleanUp {k : ℕ} {code : ℤ} (hdisciplined : Disciplined (handleUses calls))
    (hheld : heldAfter (handleUses calls) = resources.drop k) (result : Result) :
    LifeInv input ((prog input).step ⟨.cleanUp (closing.drop k) code, calls, out⟩ result) := by
  match k with
  | 0 =>
    exact .concat hdisciplined hheld ⟨by simp [Permitted, resources], rfl, trivial⟩
      (.cleanUp 1 code)
  | 1 => exact .concat hdisciplined hheld ⟨rfl, trivial⟩ (.cleanUp 2 code)
  | 2 => exact .concat hdisciplined hheld ⟨rfl, trivial⟩ (.cleanUp 3 code)
  | k + 3 =>
    have hholds : Holds (.cleanUp (closing.drop (k + 3)) code) (heldAfter (handleUses calls)) :=
      hheld ▸ .cleanUp (k + 3) code
    have hnil : closing.drop (k + 3) = [] := List.drop_eq_nil_of_le (Nat.le_add_left 3 k)
    rw [hnil] at hholds ⊢
    exact .holds hdisciplined hholds

theorem LifeInv.step {h : Host State} (hmain : MainInv input h) (hlife : LifeInv input h)
    (result : Result) : LifeInv input ((prog input).step h result) := by
  cases hlife with
  | reads hlate hreads cible hcible =>
    obtain ⟨hlate', hsame⟩ := late_step hmain hlate result
    exact .reads hlate' hreads cible (by rw [hsame, hcible])
  | holds hdisciplined hholds =>
    obtain ⟨state, calls, out⟩ := h
    dsimp only at hdisciplined hholds
    generalize hheld : heldAfter (handleUses calls) = held at hholds
    cases hholds with
    | init =>
      apply LifeInv.concat hdisciplined hheld
      all_goals
        dsimp only [uses, resume, prog]
        split_ifs
      · trivial
      · exact ⟨List.not_mem_nil, trivial⟩
      · exact .cleanUp 3 1
      · exact .openDevice
    | openDevice =>
      apply LifeInv.concat hdisciplined hheld
      all_goals
        dsimp only [uses, resume, prog]
        split_ifs
      · exact ⟨by simp [Permitted], trivial⟩
      · exact ⟨by simp [Permitted], by simp [Permitted, hold], trivial⟩
      · exact .cleanUp 2 1
      · exact .kernelDriver
    | kernelDriver =>
      apply LifeInv.concat hdisciplined hheld
      · exact ⟨by simp [Permitted], trivial⟩
      · dsimp only [uses, resume, prog]
        split_ifs
        · exact .detach
        · exact .claim
    | detach => exact .concat hdisciplined hheld ⟨by simp [Permitted], trivial⟩ .claim
    | claim =>
      apply LifeInv.concat hdisciplined hheld
      all_goals
        dsimp only [uses, resume, prog]
        split_ifs
      · exact ⟨by simp [Permitted], trivial⟩
      · exact ⟨by simp [Permitted], by simp [Permitted, hold], trivial⟩
      · exact .cleanUp 1 1
      · exact .ispIds _
    | ispIds s => exact lifeInv_ispIds hmain hdisciplined hheld result
    | flashWrite packets =>
      cases packets with
      | nil => exact .holds hdisciplined (hheld ▸ .flashWrite [])
      | cons packet packets =>
        apply LifeInv.transfer hdisciplined hheld rfl
        cases packets with
        | nil => exact holds_fermeture
        | cons packet packets => exact .flashWrite _
    | nullDereference => exact .holds hdisciplined (hheld ▸ .nullDereference)
    | cleanUp k code => exact lifeInv_cleanUp hdisciplined hheld result

theorem lifeInv_run (input : Input) (results : List Result) :
    LifeInv input (run (prog input).step (Program.start .init) results) := by
  have hinv : MainInv input (run (prog input).step (Program.start .init) results) ∧
      LifeInv input (run (prog input).step (Program.start .init) results) :=
    run_invariant (I := fun h => MainInv input h ∧ LifeInv input h)
      (fun _ result hh => ⟨hh.1.step result, hh.2.step hh.1 result⟩)
      ⟨mainInv_start input, .holds trivial .init⟩ results
  exact hinv.2

/-- Nothing is held when `main` returns. -/
theorem holds_returned {code : ℤ} {held : List Resource} (h : Holds (.cleanUp [] code) held) :
    held = [] := by
  generalize hstate : State.cleanUp [] code = s at h
  cases h with
  | cleanUp k code' =>
    have hdrop : closing.drop k = [] := by
      injection hstate with hcalls
      exact hcalls.symm
    have hlen : closing.length ≤ k := List.drop_eq_nil_iff.mp hdrop
    exact List.drop_eq_nil_of_le hlen
  | _ => cases hstate

/-- A run that keeps the discipline. -/
theorem lifecycle_of_holds {h : Host State} (hdisciplined : Disciplined (handleUses h.calls))
    (hholds : Holds h.state (heldAfter (handleUses h.calls))) : Lifecycle h := by
  have hundone : Returned h → heldAfter (handleUses h.calls) = [] := by
    rintro ⟨code, hstate⟩
    rw [hstate] at hholds
    exact holds_returned hholds
  exact ⟨hdisciplined, hundone, fun hreturned => hdisciplined.count_eq (hundone hreturned)⟩

/-! ## Reading the flash of a known target -/

variable {h : Host State} {size : UInt32}

variable (input) in
/-- `main` makes the calls of `flash_read` until it returns. -/
theorem run_flashRead_state {s : Host FlashRead.State} (hstate : h.state = .flashRead size s.state)
    (results : List Result) (hrunning : (run (flashRead size).step s results).state ≠ .returned) :
    (run (prog input).step h results).state
      = .flashRead size (run (flashRead size).step s results).state := by
  induction results generalizing s h with
  | nil => exact hstate
  | cons result results ih =>
    rw [run_cons] at hrunning ⊢
    rw [run_cons]
    have hstays : ∀ t : Host FlashRead.State, t.state = .returned →
        (run (flashRead size).step t results).state = .returned := by
      intro t ht
      refine run_invariant (I := fun t : Host FlashRead.State => t.state = .returned) ?_ ht results
      intro t result ht
      rw [Program.step_returned _ (by rw [ht]; rfl), ht]
    cases hcall : (flashRead size).call s.state with
    | none =>
      have hreturned : s.state = .returned := by
        generalize s.state = st at hcall ⊢
        cases st <;> first | rfl | cases hcall
      rw [Program.step_returned _ hcall] at hrunning
      exact absurd (hstays s hreturned) hrunning
    | some call =>
      have hmain : (prog input).call h.state = some call := by
        rw [hstate]
        exact hcall
      apply ih _ hrunning
      rw [Program.step_of_call _ hmain, Program.step_of_call _ hcall, hstate]
      show afterFlashRead size ((flashRead size).resume s.state result).1 = _
      cases hnext : ((flashRead size).resume s.state result).1 with
      | returned =>
        refine absurd (hstays _ ?_) hrunning
        rw [Program.step_of_call _ hcall, hnext]
      | _ => rfl

theorem tailleFlash_le {cible : CibleAVR} (h : cible ∈ baseDeDonnees) :
    cible.tailleFlash.toNat / 2 ≤ 65532 := by
  have hall : ∀ cible ∈ baseDeDonnees, cible.tailleFlash.toNat / 2 ≤ 65532 := by decide
  exact hall cible h

/-- A run that reads the flash of a known target gets to the clean-up of `flash_read`. -/
theorem exists_run_release {a b c : UInt8} (hreads : input.Reads) {cible : CibleAVR}
    (hcible : rechercheCible [a, b, c] = some cible) :
    ∃ results, (run (prog input).step (Program.start .init) results).state
        = .flashRead cible.tailleFlash .release ∧
      receivedSignature (run (prog input).step (Program.start .init) results).calls
        = [a, b, c] := by
  have hstate : (atCommand input a b c).state
      = .flashRead cible.tailleFlash (FlashRead.loop cible.tailleFlash 0) := by
    show (command input (rechercheCible [a, b, c])).1 = _
    rw [hcible]
    have hspec := command_spec input (some cible)
    generalize command input (some cible) = d at hspec ⊢
    cases hspec with
    | reads _ _ c' hc' => cases hc'; rfl
    | closes hnot | writes hnot => exact absurd hreads hnot
    | faults _ _ hnone => cases hnone
  have hlimit := tailleFlash_le (rechercheCible_eq_some.mp hcible).1
  obtain ⟨n, hrelease, -⟩ := @exists_release cible.tailleFlash failing hlimit
    fun n _ _ => ⟨0, fun hbutton => absurd hbutton.1 (show (-1 : ℤ) ≠ 0 by decide)⟩
  rw [readTo, runTo_eq_run] at hrelease
  have hlift := run_flashRead_state input
    (s := Program.start (FlashRead.loop cible.tailleFlash 0)) hstate
    ((List.range n).map failing) (by rw [hrelease]; exact FlashRead.State.noConfusion)
  have hlate : ¬ Identifying (atCommand input a b c).state := by
    rw [hstate]
    exact not_false
  refine ⟨identification [a, b, c] ++ (List.range n).map failing, ?_, ?_⟩
  · rw [run_append, ← atCommand, hlift, hrelease]
  · have hmain : MainInv input (atCommand input a b c) := mainInv_run input _
    rw [run_append, ← atCommand, late_run hmain hlate, atCommand_signature]

/-- The device is used again after `flash_read` has closed it. -/
theorem not_disciplined_of_release (hstate : h.state = .flashRead size .release)
    (result : Result) :
    ¬ Disciplined (handleUses (run (prog input).step h (List.replicate 4 result)).calls) := by
  obtain ⟨state, calls, out⟩ := h
  cases hstate
  have hstep : (run (prog input).step ⟨.flashRead size .release, calls, out⟩
      (List.replicate 4 result)).calls = calls ++ [(.releaseInterface, result)]
        ++ [(.close, result)] ++ [(.exit, result)] ++ [(.releaseInterface, result)] := rfl
  have hearlier : handleUses calls ++ uses (.releaseInterface, result) ++ uses (.close, result)
      ++ uses (.exit, result) ++ uses (.releaseInterface, result)
        = (handleUses calls ++ uses (.releaseInterface, result)) ++ Use.release Resource.device ::
          (uses (.exit, result) ++ Use.use Resource.device :: [Use.release Resource.interface]) := by
    simp only [List.append_assoc, uses, List.cons_append, List.nil_append]
  rw [hstep, handleUses_append, handleUses_append, handleUses_append, handleUses_append,
    handleUses_singleton, handleUses_singleton, handleUses_singleton, hearlier]
  exact not_disciplined_of_use (by simp [uses])

/-! ## Main result -/

/-- Every run that receives a signature keeps the life cycle of the device handle, exactly if it
does not read the flash of a known target. -/
theorem lifecycle_iff (input : Input) (a b c : UInt8) :
    (∀ results,
      receivedSignature (run (prog input).step (Program.start .init) results).calls = [a, b, c] →
        Lifecycle (run (prog input).step (Program.start .init) results)) ↔
      ¬ (input.Reads ∧ ∃ cible, rechercheCible [a, b, c] = some cible) := by
  constructor
  · rintro hall ⟨hreads, cible, hcible⟩
    obtain ⟨results, hrelease, hsig⟩ := exists_run_release hreads hcible
    have hlate : ¬ Identifying (run (prog input).step (Program.start .init) results).state := by
      rw [hrelease]
      exact not_false
    have hlife := hall (results ++ List.replicate 4 ⟨0, []⟩) (by
      rw [run_append, late_run (mainInv_run input results) hlate, hsig])
    rw [run_append] at hlife
    exact not_disciplined_of_release hrelease ⟨0, []⟩ hlife.disciplined
  · intro hnot results hsig
    cases lifeInv_run input results with
    | holds hdisciplined hholds => exact lifecycle_of_holds hdisciplined hholds
    | reads hlate hreads cible hcible =>
      rw [hsig] at hcible
      exact absurd ⟨hreads, cible, hcible⟩ hnot

/-- `-read` with an ATtiny85 releases the interface of a closed device. -/
theorem read_closes_twice :
    ¬ ∀ results, Lifecycle (run (prog ⟨["-read"], fun _ => none, ⟨[], 0, 0, 0, 0, fun _ _ => 0⟩⟩).step
      (Program.start .init) results) := by
  intro hall
  have hreads : Input.Reads ⟨["-read"], fun _ => none, ⟨[], 0, 0, 0, 0, fun _ _ => 0⟩⟩ := rfl
  obtain ⟨results, hrelease, -⟩ := @exists_run_release _ 0x1E 0x93 0x0B hreads
    ⟨[0x1E, 0x93, 0x0B], "ATtiny85", 8192, 64⟩ (by decide)
  have hlife := hall (results ++ List.replicate 4 ⟨0, []⟩)
  rw [run_append] at hlife
  exact not_disciplined_of_release hrelease ⟨0, []⟩ hlife.disciplined

end

end Software
end AvrProgrammer
