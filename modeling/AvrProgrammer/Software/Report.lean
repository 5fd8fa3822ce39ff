import AvrProgrammer.Software.Main
import AvrProgrammer.Software.LongLines

/-!
# The success report

`flash_write` returns nothing, so `main` reports success whatever happened in it.
`writeReport_iff` says for which files and results the report is deserved in every state of the
run: whenever `flash_write` is called, all its transfers succeed and the file is a complete
Intel HEX file.
-/

namespace AvrProgrammer
namespace Software

open Runs Prog Stdio IntelHex

/-! ## Complete files -/

/-- The lines of a file without their ends, LF or CR LF. -/
def textLines (file : List UInt8) : List (List UInt8) :=
  (file.splitOn newline).map fun line =>
    if line.getLast? = some carriageReturn then line.dropLast else line

/-- Every line up to an end record is a record, and there is an end record. -/
def completeLines : List (List UInt8) → Bool
  | [] => false
  | line :: rest =>
    match parse line with
    | none => false
    | some r => r.type = 0x01 || completeLines rest

def Complete (file : List UInt8) : Prop := completeLines (textLines file)

/-! ## The property -/

/-- Success is reported only if the erase and every write succeeded and the file was complete,
and no write follows a failed erase. -/
structure WriteReport (input : Input) (h : Host State) : Prop where
  report : .writeSuccess ∈ h.out →
    (∀ x ∈ transfers h.calls, x.1.head? = some 0x04 ∨ x.1.head? = some 0x03 → x.2.r = 0) ∧
      ∃ file, input.file = some file ∧ Complete file
  erased : (transfers h.calls).Pairwise fun x y =>
    x.1.head? = some 0x04 → x.2.r ≠ 0 → y.1.head? ≠ some 0x03

/-- `main` after `k` library calls, the results of the calls given. -/
def hostAfter (input : Input) (results : ℕ → Result) (k : ℕ) : Host State :=
  runTo (prog input).step (Program.start .init) results k

/-- Call number `n` of the run is the first transfer of `flash_write`, for this file. -/
def FlashWriteStarts (input : Input) (results : ℕ → Result) (n : ℕ) (file : List UInt8) : Prop :=
  input.file = some file ∧
    (hostAfter input results n).state = .flashWrite (flashWritePackets input.vars file)

/-! ## Before `flash_write` -/

/-- Nothing is written or reported yet. -/
structure Quiet (h : Host State) : Prop where
  packets : ∀ x ∈ transfers h.calls, x.1.head? ≠ some 0x04 ∧ x.1.head? ≠ some 0x03
  out : .writeSuccess ∉ h.out

theorem Quiet.writeReport {input : Input} {h : Host State} (hquiet : Quiet h) :
    WriteReport input h :=
  ⟨fun hout => absurd hout hquiet.out,
    List.pairwise_of_forall_mem_list fun _ _ y hy _ _ => (hquiet.packets y hy).2⟩

section
variable {input : Input} {h : Host State} {s : State} {result : Result}

/-- Outside `flash_write` only signature and read requests are sent. -/
theorem head_of_call {sig : List UInt8} (hinv : StateInv input sig s)
    (hs : ∀ packets, s ≠ .flashWrite packets) {p : Packet}
    (hcall : call s = some (.transferOut p)) :
    p.head? ≠ some 0x04 ∧ p.head? ≠ some 0x03 := by
  cases s with
  | ispIds s =>
    cases s with
    | request => cases hcall; decide
    | receive | returned => cases hcall
  | flashRead size s =>
    obtain ⟨addr, rfl, rfl⟩ := flashRead_call_transferOut hcall
    exact ⟨by simp, by simp⟩
  | flashWrite packets => exact absurd rfl (hs packets)
  | cleanUp calls code =>
    have hclosing := hinv _ (List.mem_of_head? hcall)
    exact absurd hclosing (by simp [closing])
  | _ => cases hcall

variable (input) in
theorem command_out (cible : Option CibleAVR) : .writeSuccess ∉ (command input cible).2 := by
  have hspec := command_spec input cible
  generalize command input cible = c at hspec ⊢
  cases hspec with
  | closes _ _ out hout => exact hout
  | _ => simp

variable (input) in
theorem identified_out (sig : List UInt8) : .writeSuccess ∉ (identified input sig).2 := by
  have hcommand := command_out input (rechercheCible sig)
  unfold identified
  cases hcible : rechercheCible sig <;> rw [hcible] at hcommand <;> simpa using hcommand

/-- Outside `flash_write` success is not reported. -/
theorem resume_out (hs : ∀ packets, s ≠ .flashWrite packets) :
    .writeSuccess ∉ (resume input s result).2 := by
  cases s with
  | ispIds s =>
    have hout := fun sig => identified_out input sig
    cases s with
    | request =>
      dsimp only [resume, ispIds]
      split_ifs <;> simp [afterIspIds]
    | receive dataIn =>
      dsimp only [resume, ispIds]
      split_ifs <;> simp [afterIspIds, hout]
    | returned => simp [resume, ispIds, afterIspIds, hout]
  | flashRead size s =>
    cases s with
    | request | receive =>
      dsimp only [resume, flashRead]
      split_ifs <;> simp
    | _ => simp [resume, flashRead]
  | flashWrite packets => exact absurd rfl (hs packets)
  | detach | cleanUp | nullDereference => simp [resume]
  | _ =>
    dsimp only [resume]
    split_ifs <;> simp

theorem identified_flashWrite {sig : List UInt8} {packets : List Packet}
    (h : (identified input sig).1 = .flashWrite packets) :
    ∃ file, input.file = some file ∧ packets = flashWritePackets input.vars file := by
  have hspec := command_spec input (rechercheCible sig)
  change (command input (rechercheCible sig)).1 = .flashWrite packets at h
  generalize command input (rechercheCible sig) = c at hspec h
  cases hspec with
  | writes _ file hfile => cases h; exact ⟨file, hfile, rfl⟩
  | _ => cases h

/-- `flash_write` starts with the erase command and all packets of the file. -/
theorem resume_flashWrite (hs : ∀ packets, s ≠ .flashWrite packets) {packets : List Packet}
    (h : (resume input s result).1 = .flashWrite packets) :
    ∃ file, input.file = some file ∧ packets = flashWritePackets input.vars file := by
  cases s with
  | ispIds s =>
    cases s with
    | request => cases h
    | receive dataIn =>
      dsimp only [resume, ispIds] at h
      split_ifs at h
      · cases h
      · exact identified_flashWrite h
      · exact identified_flashWrite h
    | returned dataIn => exact identified_flashWrite h
  | flashRead size s =>
    dsimp only [resume] at h
    generalize ((flashRead size).resume s result).1 = s' at h
    cases s' <;> cases h
  | flashWrite packets' => exact absurd rfl (hs packets')
  | detach | cleanUp | nullDereference => cases h
  | _ =>
    dsimp only [resume] at h
    split_ifs at h

/-- A step outside `flash_write` writes and reports nothing. -/
theorem Quiet.step (hquiet : Quiet h) (hinv : MainInv input h)
    (hs : ∀ packets, h.state ≠ .flashWrite packets) (result : Result) :
    Quiet ((prog input).step h result) := by
  cases hcall : call h.state with
  | none => rwa [Program.step_returned (prog input) hcall]
  | some c =>
    rw [Program.step_of_call (prog input) hcall]
    refine ⟨fun x hx => ?_, fun hout => ?_⟩
    · dsimp only at hx
      rw [transfers_append] at hx
      rcases List.mem_append.mp hx with hx | hx
      · exact hquiet.packets x hx
      · cases c with
        | transferOut p =>
          rw [show x = (p, result) by simpa [transfers] using hx]
          exact head_of_call hinv.state hs hcall
        | _ => simp [transfers] at hx
    · rcases List.mem_append.mp hout with hout | hout
      · exact hquiet.out hout
      · exact resume_out hs hout

end

section
variable {input : Input} {results : ℕ → Result} {n : ℕ} {file : List UInt8}

theorem mainInv_hostAfter (input : Input) (results : ℕ → Result) (k : ℕ) :
    MainInv input (hostAfter input results k) :=
  runTo_invariant (fun _ result hinv => hinv.step result) (mainInv_start input) k

/-- Until `flash_write` starts, a run writes and reports nothing. -/
theorem quiet_hostAfter {k : ℕ}
    (hstarts : ∀ n < k, ∀ file, ¬ FlashWriteStarts input results n file) :
    Quiet (hostAfter input results k) ∧
      ∀ packets, (hostAfter input results k).state = .flashWrite packets →
        ∃ file, FlashWriteStarts input results k file := by
  induction k with
  | zero =>
    refine ⟨⟨fun _ hx => absurd hx List.not_mem_nil, List.not_mem_nil⟩, ?_⟩
    rintro packets ⟨⟩
  | succ k ih =>
    obtain ⟨hquiet, hstart⟩ := ih fun n hn => hstarts n (Nat.lt_succ_of_lt hn)
    have hs : ∀ packets, (hostAfter input results k).state ≠ .flashWrite packets := by
      intro packets hstate
      obtain ⟨file, hfile⟩ := hstart packets hstate
      exact hstarts k (Nat.lt_succ_self k) file hfile
    refine ⟨hquiet.step (mainInv_hostAfter input results k) hs _, fun packets hstate => ?_⟩
    have hresume : (resume input (hostAfter input results k).state (results k)).1
        = .flashWrite packets := by
      change ((prog input).step (hostAfter input results k) (results k)).state = _ at hstate
      cases hcall : call (hostAfter input results k).state with
      | none =>
        rw [Program.step_returned (prog input) hcall] at hstate
        exact absurd hstate (hs packets)
      | some c => rwa [Program.step_of_call (prog input) hcall] at hstate
    obtain ⟨file, hfile, rfl⟩ := resume_flashWrite hs hresume
    exact ⟨file, hfile, hstate⟩

/-! ## From the start of `flash_write` on -/

/-- The results of the first `i` transfers of `flash_write`. -/
def transferResults (results : ℕ → Result) (n i : ℕ) : List Result :=
  (List.range i).map fun j => results (n + j)

@[simp] theorem transferResults_length (n i : ℕ) :
    (transferResults results n i).length = i := by
  simp [transferResults]

/-- The host while `flash_write` runs. -/
theorem hostAfter_flashWrite (hstart : FlashWriteStarts input results n file) {i : ℕ}
    (hi : i ≤ (flashWritePackets input.vars file).length) :
    hostAfter input results (n + i) =
      { state := (afterFlashWrite ((flashWritePackets input.vars file).drop i)).1,
        calls := (hostAfter input results n).calls ++
          ((flashWritePackets input.vars file).map .transferOut).zip (transferResults results n i),
        out := (hostAfter input results n).out ++
          (afterFlashWrite ((flashWritePackets input.vars file).drop i)).2 } := by
  have hlen : (transferResults results n i).length ≤
      (flashWritePackets input.vars file).length := by rwa [transferResults_length]
  have hrun := run_flashWrite input (List.cons_ne_nil _ _) hlen hstart.2
  rw [hostAfter, runTo_add]
  rwa [transferResults_length] at hrun

/-- Closing the device sends and reports nothing. -/
theorem hostAfter_closing {k : ℕ} {calls : List Call} {code : ℤ}
    (hstate : (hostAfter input results k).state = .cleanUp calls code) (i : ℕ) :
    (∃ calls code, (hostAfter input results (k + i)).state = .cleanUp calls code) ∧
      transfers (hostAfter input results (k + i)).calls
        = transfers (hostAfter input results k).calls ∧
      (hostAfter input results (k + i)).out = (hostAfter input results k).out := by
  induction i with
  | zero => exact ⟨⟨calls, code, hstate⟩, rfl, rfl⟩
  | succ i ih =>
    obtain ⟨⟨calls', code', hstate'⟩, hcalls, hout⟩ := ih
    have hinv := (mainInv_hostAfter input results (k + i)).state
    have hnext : hostAfter input results (k + (i + 1))
      = (prog input).step (hostAfter input results (k + i)) (results (k + i)) := rfl
    rw [hstate'] at hinv
    rw [hnext]
    generalize hostAfter input results (k + i) = h at *
    obtain ⟨state, calls'', out⟩ := h
    subst hstate'
    cases calls' with
    | nil => exact ⟨⟨[], code', rfl⟩, hcalls, hout⟩
    | cons c calls' =>
      have hclosing : c ∈ closing := hinv c List.mem_cons_self
      refine ⟨⟨calls', code', rfl⟩, ?_, ?_⟩
      · rw [← hcalls]
        show transfers (calls'' ++ [(c, _)]) = _
        rw [transfers_append]
        cases c <;> first | exact List.append_nil _ | exact absurd hclosing (by simp [closing])
      · rw [← hout]
        exact List.append_nil _

/-! ## Main result -/

/-- Every erase and write so far has succeeded. -/
def Succeeded (h : Host State) : Prop :=
  ∀ x ∈ transfers h.calls, x.1.head? = some 0x04 ∨ x.1.head? = some 0x03 → x.2.r = 0

theorem Succeeded.writeReport {h : Host State} (hok : Succeeded h)
    (hfile : input.file = some file) (hcomplete : Complete file) : WriteReport input h :=
  ⟨fun _ => ⟨hok, file, hfile, hcomplete⟩,
    List.pairwise_of_forall_mem_list fun x hx _ _ herase hfail =>
      absurd (hok x hx (.inl herase)) hfail⟩

/-- With successful results every state from the start of `flash_write` on has succeeded. -/
theorem succeeded_hostAfter (hquiet : Quiet (hostAfter input results n))
    (hstart : FlashWriteStarts input results n file)
    (hresults : ∀ i < (flashWritePackets input.vars file).length, (results (n + i)).r = 0)
    (i : ℕ) : Succeeded (hostAfter input results (n + i)) := by
  have hduring : ∀ i ≤ (flashWritePackets input.vars file).length,
      Succeeded (hostAfter input results (n + i)) := by
    intro i hi x hx hhead
    rw [hostAfter_flashWrite hstart hi] at hx
    rw [transfers_append, transfers_zip] at hx
    rcases List.mem_append.mp hx with hx | hx
    · have hnone := hquiet.packets x hx
      exact absurd hhead (not_or.mpr hnone)
    · obtain ⟨j, hj, hresult⟩ := List.mem_map.mp (List.of_mem_zip hx).2
      rw [← hresult]
      exact hresults j (Nat.lt_of_lt_of_le (List.mem_range.mp hj) hi)
  rcases Nat.le_total i (flashWritePackets input.vars file).length with hi | hi
  · exact hduring i hi
  · obtain ⟨k, rfl⟩ := Nat.exists_eq_add_of_le hi
    have hend := hostAfter_flashWrite hstart (Nat.le_refl _)
    have hclosed : (hostAfter input results
        (n + (flashWritePackets input.vars file).length)).state = fermeture := by
      rw [hend, List.drop_length]
      rfl
    have hsent := (hostAfter_closing hclosed k).2.1
    have hok := hduring _ (Nat.le_refl _)
    unfold Succeeded at hok ⊢
    rwa [← Nat.add_assoc, hsent]

/-- Whether success is reported only for a complete write, exactly. -/
theorem writeReport_iff (input : Input) (results : ℕ → Result) :
    (∀ k, WriteReport input (hostAfter input results k)) ↔
      ∀ n file, FlashWriteStarts input results n file →
        (∀ i < (flashWritePackets input.vars file).length, (results (n + i)).r = 0) ∧
          Complete file := by
  constructor
  · intro hreport n file hstart
    -- after the last packet, success is reported
    have hend := hostAfter_flashWrite hstart (Nat.le_refl _)
    obtain ⟨hok, file', hfile', hcomplete⟩ :=
      (hreport (n + (flashWritePackets input.vars file).length)).report (by
        rw [hend, List.drop_length]
        exact List.mem_append_right _ (List.mem_singleton_self _))
    rw [hstart.1] at hfile'
    cases hfile'
    refine ⟨fun i hi => ?_, hcomplete⟩
    have hx : ((flashWritePackets input.vars file)[i], results (n + i)) ∈
        transfers (hostAfter input results
          (n + (flashWritePackets input.vars file).length)).calls := by
      rw [hend, transfers_append, transfers_zip]
      refine List.mem_append_right _ (List.mem_iff_getElem.mpr ⟨i, by simpa using hi, ?_⟩)
      simp [transferResults]
    exact hok _ hx (head_of_mem_flashWritePackets (List.getElem_mem hi))
  · intro hcond k
    classical
    by_cases hstarts : ∃ n ≤ k, ∃ file, FlashWriteStarts input results n file
    · have hex : ∃ n, ∃ file, FlashWriteStarts input results n file := by
        obtain ⟨n, -, hn⟩ := hstarts
        exact ⟨n, hn⟩
      obtain ⟨file, hstart⟩ := Nat.find_spec hex
      have hfirst : Nat.find hex ≤ k := by
        obtain ⟨n, hnk, hn⟩ := hstarts
        exact Nat.le_trans (Nat.find_min' hex hn) hnk
      have hquiet := (@quiet_hostAfter input results (Nat.find hex)
        fun n hn file hfile => Nat.find_min hex hn ⟨file, hfile⟩).1
      obtain ⟨i, hi⟩ := Nat.exists_eq_add_of_le hfirst
      obtain ⟨hresults, hcomplete⟩ := hcond _ file hstart
      rw [hi]
      exact (succeeded_hostAfter hquiet hstart hresults i).writeReport hstart.1 hcomplete
    · have hquiet := (@quiet_hostAfter input results k
        fun n hn file hfile => hstarts ⟨n, Nat.le_of_lt hn, file, hfile⟩).1
      exact hquiet.writeReport

end

/-- `-write` with the file `:02000000AABB99`, `:00000001FF`. -/
def writeOneWord : Input where
  args := ["-write", "a.hex"]
  fopen := fun _ => some [0x3A, 0x30, 0x32, 0x30, 0x30, 0x30, 0x30, 0x30, 0x30, 0x41, 0x41, 0x42,
    0x42, 0x39, 0x39, 0x0A, 0x3A, 0x30, 0x30, 0x30, 0x30, 0x30, 0x30, 0x30, 0x31, 0x46, 0x46,
    0x0A]
  vars := ⟨[], 0, 0, 0, 0, fun _ _ => 0⟩

/-- An ATmega328P whose erase transfer times out. -/
def eraseFails (i : ℕ) : Result :=
  if i = 1 then ⟨1, []⟩ else if i = 5 then ⟨0, [0x1E, 0x95, 0x0F]⟩
  else if i = 6 then ⟨-7, []⟩ else ⟨0, []⟩

/-- After a failed erase the word is sent all the same, and success is reported. -/
theorem failed_erase_reports_success :
    ¬ WriteReport writeOneWord (hostAfter writeOneWord eraseFails 8) := by
  intro hreport
  have hsuccess := hreport.report (by decide +kernel)
  exact absurd (hsuccess.1 ([0x04], ⟨-7, []⟩) (by decide +kernel) (.inl rfl)) (by decide)

end Software
end AvrProgrammer
