import AvrProgrammer.Software.Main

/-!
# What identifies a target

`isp_ids` returns nothing and leaves its packets in the buffer that `recherche_cible` then
compares, those it discards included. `cible_iff` shows that this is sound: a target is found
exactly when the packet that ended the loop is its signature. The discarded packets overwrite
the first byte only, so the zeros of `main` stand in the second and third byte, and no
signature of the data base has a zero there.
-/

namespace AvrProgrammer
namespace Software

open Runs Prog

/-- An IN transfer into the three bytes of the signature: a packet that fits, or a failure that
leaves the buffer as it was. -/
structure SignatureResult (result : Result) : Prop where
  fits : result.r = 0 → result.data.length ≤ 3
  failed : result.r ≠ 0 → result.data = []

/-- Only the first byte of the buffer can have been overwritten. -/
def FirstByteOnly (sig : List UInt8) : Prop := ∃ b, sig = [b, 0, 0]

theorem firstByteOnly_zeros : FirstByteOnly [0, 0, 0] := ⟨0, rfl⟩

/-- A discarded packet overwrites the first byte. -/
theorem FirstByteOnly.overwrite {sig : List UInt8} (h : FirstByteOnly sig) {data : List UInt8}
    (hlen : data.length = 1) : FirstByteOnly (IspIds.overwrite sig data) := by
  obtain ⟨b, rfl⟩ := h
  obtain ⟨c, rfl⟩ := List.length_eq_one_iff.mp hlen
  exact ⟨c, rfl⟩

/-! ## The buffer during the identification -/

/-- The calls of `main` before a state of the identification have changed the first byte only. -/
def Purging (h : Host State) : Prop :=
  Identifying h.state → FirstByteOnly (receivedSignature h.calls)

section
variable {input : Input} {h : Host State}

/-- What ends the loop of `isp_ids` leaves the identification. -/
theorem resume_receive (input : Input) (dataIn : List UInt8) (result : Result) :
    (resume input (.ispIds (.receive dataIn)) result).1 =
      if Discarded result then .ispIds (.receive (IspIds.overwrite dataIn result.data))
      else (identified input (IspIds.overwrite dataIn result.data)).1 := by
  show (afterIspIds input (ispIds.resume (.receive dataIn) result).1).1 = _
  by_cases hbutton : Discarded result
  · rw [if_pos hbutton, ispIds_discard hbutton]
    rfl
  · rw [if_neg hbutton, ispIds_end hbutton]
    rfl

theorem Purging.step (hinv : MainInv input h) (hpurging : Purging h) (result : Result) :
    Purging ((prog input).step h result) := by
  by_cases hid : Identifying h.state
  swap
  · intro hnext
    exact absurd hnext (late_step hinv hid result).1
  obtain ⟨state, calls, out⟩ := h
  have hstate := hinv.state
  cases state with
  | init | openDevice | kernelDriver | detach | claim =>
    intro _
    show FirstByteOnly (receivedSignature (calls ++ [_]))
    rw [receivedSignature_concat]
    exact hpurging trivial
  | ispIds s =>
    cases s with
    | request dataIn =>
      intro _
      show FirstByteOnly (receivedSignature (calls ++ [_]))
      rw [receivedSignature_concat]
      exact hpurging trivial
    | receive dataIn =>
      intro hnext
      have hresume : Identifying (resume input (.ispIds (.receive dataIn)) result).1 := hnext
      rw [resume_receive] at hresume
      split_ifs at hresume with hbutton
      · show FirstByteOnly (receivedSignature (calls ++ [_]))
        rw [receivedSignature_concat]
        exact (hpurging trivial).overwrite hbutton.2
      · exact absurd hresume (not_identifying_identified _)
    | returned dataIn => exact absurd hstate not_false
  | _ => exact absurd hid not_false

theorem purging_run (input : Input) (results : List Result) :
    Purging (run (prog input).step (Program.start .init) results) := by
  have hinv : MainInv input (run (prog input).step (Program.start .init) results) ∧
      Purging (run (prog input).step (Program.start .init) results) :=
    run_invariant (I := fun h => MainInv input h ∧ Purging h)
      (fun _ result hh => ⟨hh.1.step result, hh.2.step hh.1 result⟩)
      ⟨mainInv_start input, fun _ => firstByteOnly_zeros⟩ results
  exact hinv.2

end

/-! ## The packet that ends the loop -/

/-- No signature of the data base has a zero in its second or third byte. -/
theorem signature_nonzero {cible : CibleAVR} (h : cible ∈ baseDeDonnees) :
    ∃ a b c, cible.signature = [a, b, c] ∧ b ≠ 0 ∧ c ≠ 0 := by
  have hall : ∀ cible ∈ baseDeDonnees, cible.signature.length = 3 ∧
      cible.signature.getD 1 0 ≠ 0 ∧ cible.signature.getD 2 0 ≠ 0 := by decide
  obtain ⟨hlen, hb, hc⟩ := hall cible h
  obtain ⟨a, b, c, habc⟩ := List.length_eq_three.mp hlen
  rw [habc] at hb hc
  exact ⟨a, b, c, habc, hb, hc⟩

/-- Only a packet of three bytes completes a signature. -/
theorem overwrite_eq_signature {sig data : List UInt8} (hsig : FirstByteOnly sig)
    (hlen : data.length ≤ 3) {cible : CibleAVR} (hcible : cible ∈ baseDeDonnees) :
    IspIds.overwrite sig data = cible.signature ↔
      data.length = 3 ∧ data = cible.signature := by
  obtain ⟨b, rfl⟩ := hsig
  obtain ⟨a', b', c', hsignature, hb', hc'⟩ := signature_nonzero hcible
  rw [hsignature]
  match data, hlen with
  | [], _ => simp [IspIds.overwrite, hb'.symm]
  | [x], _ => simp [IspIds.overwrite, hb'.symm]
  | [x, y], _ => simp [IspIds.overwrite, hc'.symm]
  | [x, y, z], _ => simp [IspIds.overwrite]

/-- `main` finds a target exactly when the packet that ended the loop of `isp_ids` is the
signature of that target. -/
theorem cible_iff (input : Input) (results : List Result) {dataIn : List UInt8}
    (hstate : (run (prog input).step (Program.start .init) results).state
      = .ispIds (.receive dataIn))
    (last : Result) (hlast : SignatureResult last) (hends : ¬ Discarded last) :
    let h := run (prog input).step (Program.start .init) (results ++ [last])
    h.state = (identified input (receivedSignature h.calls)).1 ∧
      ∀ cible, rechercheCible (receivedSignature h.calls) = some cible ↔
        last.r = 0 ∧ last.data.length = 3 ∧ cible ∈ baseDeDonnees ∧
          last.data = cible.signature := by
  intro h
  have hinv := mainInv_run input results
  have hpurging := purging_run input results
  have hh : h = (prog input).step (run (prog input).step (Program.start .init) results) last :=
    run_append ..
  generalize run (prog input).step (Program.start .init) results = h₀ at hstate hinv hpurging hh
  have hbuffer : dataIn = receivedSignature h₀.calls := by
    have hdata := hinv.state
    rwa [hstate] at hdata
  have hfirst : FirstByteOnly dataIn := by
    rw [hbuffer]
    exact hpurging (by rw [hstate]; trivial)
  have hcall : (prog input).call h₀.state = some (.transferIn 3) := by
    rw [hstate]
    rfl
  rw [Program.step_of_call _ hcall, hstate] at hh
  have hsig : receivedSignature h.calls = IspIds.overwrite dataIn last.data := by
    rw [hh, receivedSignature_concat, ← hbuffer]
    rfl
  rw [hsig]
  constructor
  · rw [hh]
    exact (resume_receive input dataIn last).trans (if_neg hends)
  intro cible
  rw [rechercheCible_eq_some, eq_comm (a := cible.signature)]
  by_cases hr : last.r = 0
  · have hfits := hlast.fits hr
    constructor
    · rintro ⟨hmem, heq⟩
      obtain ⟨hlen, hdata⟩ := (overwrite_eq_signature hfirst hfits hmem).mp heq
      exact ⟨hr, hlen, hmem, hdata⟩
    · rintro ⟨-, hlen, hmem, hdata⟩
      exact ⟨hmem, (overwrite_eq_signature hfirst hfits hmem).mpr ⟨hlen, hdata⟩⟩
  · rw [hlast.failed hr]
    constructor
    · rintro ⟨hmem, heq⟩
      have hthree := ((overwrite_eq_signature hfirst (by simp) hmem).mp heq).1
      exact absurd hthree (by simp)
    · rintro ⟨hzero, -⟩
      exact absurd hzero hr

/-- A packet of buttons, then the signature of an ATtiny85. -/
theorem cible_attiny85 :
    rechercheCible (receivedSignature
      (run (prog ⟨[], fun _ => none, ⟨[], 0, 0, 0, 0, fun _ _ => 0⟩⟩).step (Program.start .init)
        ([⟨0, []⟩, ⟨1, []⟩, ⟨0, []⟩, ⟨0, []⟩, ⟨0, []⟩, ⟨0, [0xC0]⟩]
          ++ [⟨0, [0x1E, 0x93, 0x0B]⟩])).calls)
      = some ⟨[0x1E, 0x93, 0x0B], "ATtiny85", 8192, 64⟩ := by
  have hall := @cible_iff ⟨[], fun _ => none, ⟨[], 0, 0, 0, 0, fun _ _ => 0⟩⟩
    [⟨0, []⟩, ⟨1, []⟩, ⟨0, []⟩, ⟨0, []⟩, ⟨0, []⟩, ⟨0, [0xC0]⟩] [0xC0, 0, 0] rfl
    ⟨0, [0x1E, 0x93, 0x0B]⟩ ⟨by decide, by decide⟩ (by decide)
  exact (hall.2 _).mpr ⟨rfl, rfl, by decide, rfl⟩

end Software
end AvrProgrammer
