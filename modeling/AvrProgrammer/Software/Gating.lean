import AvrProgrammer.Software.Main

/-!
# Memory limits and unknown targets

`recherche_cible` finds the target of a signature, and `main` passes its flash size to
`flash_read` only. `gated_iff` says when the packets of a run stay inside the flash of the
target and no packet is sent to an unknown one: the target must be unknown to no command that
uses it, and every data record of a file to write must fit.
-/

namespace AvrProgrammer
namespace Software

open Runs Prog Stdio

/-- An entry of the data base matches the bytes received. -/
def Matches (sig : List UInt8) (cible : CibleAVR) : Prop :=
  cible ∈ baseDeDonnees ∧ cible.signature = sig

/-- Read and write commands stay below the flash size of the target, and an unknown target
gets no command and its missing entry is not used. -/
structure Gated (h : Host State) : Prop where
  limit : ∀ x ∈ transfers h.calls, x.1.head? = some 0x02 ∨ x.1.head? = some 0x03 →
    ∃ cible, Matches (receivedSignature h.calls) cible ∧
      (carriedAddress x.1).toNat < cible.tailleFlash.toNat / 2
  silent : (∀ cible, ¬ Matches (receivedSignature h.calls) cible) →
    ∀ x ∈ transfers h.calls, x.1.head? ≠ some 0x02 ∧ x.1.head? ≠ some 0x03 ∧
      x.1.head? ≠ some 0x04
  defined : h.state ≠ .nullDereference

/-- Every data record in force at a line of the file, with the address and the length that the
lines up to it have set, ends below `n` words. -/
def RecordsFit (v : Vars) (file : List UInt8) (n : ℕ) : Prop :=
  ∀ pre s post, lines 256 file = pre ++ s :: post → Passes v pre →
    let w := (run Vars.readLine v pre).readLine s
    w.type = 0x00 → w.wordCount = 0 ∨ (w.addrIn / 2).toUInt16.toNat + w.wordCount ≤ n

/-- The condition on the command and the file, for the bytes received. -/
def FitsTarget (input : Input) (sig : List UInt8) : Prop :=
  match rechercheCible sig with
  | none => ¬ input.Reads ∧ input.file = none
  | some cible => ∀ file, input.file = some file →
    RecordsFit input.vars file (cible.tailleFlash.toNat / 2)

/-! ## Addresses -/

/-- Consecutive addresses, computed modulo 2^16, stay below a limit. -/
theorem addresses_lt_iff (a : UInt16) (count n : ℕ) (hn : n < 2 ^ 16) :
    (∀ k < count, (a + UInt16.ofNat k).toNat < n) ↔ count = 0 ∨ a.toNat + count ≤ n := by
  have hadd : ∀ k, a.toNat + k < 2 ^ 16 → (a + UInt16.ofNat k).toNat = a.toNat + k := by
    intro k hk
    rw [UInt16.toNat_add, UInt16.toNat_ofNat']
    omega
  constructor
  · intro h
    by_contra hlong
    have hcount : 0 < count := by omega
    have ha := h 0 hcount
    rw [hadd 0 (by have := a.toNat_lt; omega)] at ha
    -- the first address past the limit is one of them
    have hlast := h (n - a.toNat) (by omega)
    rw [hadd _ (by omega)] at hlast
    omega
  · rintro (rfl | h) k hk
    · exact absurd hk (Nat.not_lt_zero k)
    · rw [hadd k (by omega)]
      omega

theorem tailleFlash_lt {sig : List UInt8} {cible : CibleAVR}
    (h : rechercheCible sig = some cible) : cible.tailleFlash.toNat / 2 < 2 ^ 16 := by
  have hall : ∀ cible ∈ baseDeDonnees, cible.tailleFlash.toNat / 2 < 2 ^ 16 := by decide
  exact hall cible (rechercheCible_eq_some.mp h).1

/-- The write packets of a file stay below a limit if its records do. -/
theorem recordsFit_iff {v : Vars} {file : List UInt8} {n : ℕ} (hn : n < 2 ^ 16) :
    RecordsFit v file n ↔ ∀ p ∈ writePackets v file, (carriedAddress p).toNat < n := by
  constructor
  · intro hfit p hp
    obtain ⟨pre, s, post, hsplit, hpre, hp⟩ := mem_writeLoop.mp hp
    obtain ⟨htype, k, hk, rfl⟩ := mem_linePackets.mp hp
    rw [carriedAddress_writePacket]
    exact (addresses_lt_iff _ _ n hn).mpr (hfit pre s post hsplit hpre htype) k hk
  · intro hlt pre s post hsplit hpre w htype
    refine (addresses_lt_iff _ _ n hn).mp fun k hk => ?_
    have hpacket := hlt _ (mem_writeLoop.mpr
      ⟨pre, s, post, hsplit, hpre, mem_linePackets.mpr ⟨htype, k, hk, rfl⟩⟩)
    rwa [carriedAddress_writePacket] at hpacket

/-! ## Runs that break the rule -/

/-- Results with which `main` opens the device and receives the signature. -/
def identification (sig : List UInt8) : List Result :=
  [⟨0, []⟩, ⟨1, []⟩, ⟨0, []⟩, ⟨0, []⟩, ⟨0, []⟩, ⟨0, sig⟩]

section
variable (input : Input) (a b c : UInt8)

/-- `main` at its command, after a run that received the signature. -/
def atCommand : Host State :=
  run (prog input).step (Program.start .init) (identification [a, b, c])

theorem atCommand_signature : receivedSignature (atCommand input a b c).calls = [a, b, c] := rfl

variable {input a b c}

/-- The packets of a file that can be opened are all sent, whatever the target. -/
theorem exists_run_sends {file : List UInt8} (hfile : input.file = some file) {p : Packet}
    (hp : p ∈ flashWritePackets input.vars file) :
    ∃ results, receivedSignature
        (run (prog input).step (Program.start .init) results).calls = [a, b, c] ∧
      ∃ x ∈ transfers (run (prog input).step (Program.start .init) results).calls, x.1 = p := by
  have hstate : (atCommand input a b c).state
      = .flashWrite (flashWritePackets input.vars file) := by
    show (command input (rechercheCible [a, b, c])).1 = _
    rw [command_of_file hfile]
  obtain ⟨results, hlen⟩ : ∃ results : List Result,
      results.length = (flashWritePackets input.vars file).length :=
    ⟨List.replicate _ ⟨0, []⟩, List.length_replicate⟩
  have hrun := run_flashWrite input (List.cons_ne_nil _ _) (Nat.le_of_eq hlen) hstate
  refine ⟨identification [a, b, c] ++ results, ?_⟩
  rw [run_append, ← atCommand, hrun]
  dsimp only
  rw [receivedSignature_zip, transfers_append, transfers_zip]
  refine ⟨atCommand_signature input a b c, ?_⟩
  rw [← List.map_fst_zip (Nat.le_of_eq hlen.symm)] at hp
  obtain ⟨x, hx, rfl⟩ := List.mem_map.mp hp
  exact ⟨x, List.mem_append_right _ hx, rfl⟩

end

/-! ## Main result -/

theorem no_match_iff {sig : List UInt8} :
    (∀ cible, ¬ Matches sig cible) ↔ rechercheCible sig = none := by
  rw [Option.eq_none_iff_forall_ne_some]
  exact forall_congr' fun cible => not_congr rechercheCible_eq_some.symm

theorem matches_iff {sig : List UInt8} {cible : CibleAVR} :
    Matches sig cible ↔ rechercheCible sig = some cible := rechercheCible_eq_some.symm

theorem carriedAddress_read (addr : UInt16) :
    carriedAddress [0x02, highByte addr, lowByte addr] = addr := address_bytes addr

/-- Without a command for an unknown target only signature requests are sent. -/
theorem gated_of_unknown {input : Input} {h : Host State} (hinv : MainInv input h)
    (hcible : rechercheCible (receivedSignature h.calls) = none) (hreads : ¬ input.Reads)
    (hfile : input.file = none) : Gated h := by
  have hsent : ∀ x ∈ transfers h.calls, x.1 = [0x01] := by
    intro x hx
    rcases hinv.issued x hx with hsig | hissued
    · exact hsig
    · generalize x.1 = p at hissued
      cases hissued with
      | read cible hsome => rw [hcible] at hsome; cases hsome
      | write file hsome => rw [hfile] at hsome; cases hsome
  refine ⟨fun x hx hhead => ?_, fun _ x hx => ?_, fun hnull => ?_⟩
  · rw [hsent x hx] at hhead
    exact absurd hhead (by decide)
  · rw [hsent x hx]
    decide
  · have hstate := hinv.state
    rw [hnull] at hstate
    exact hreads hstate.1

/-- The packets for a known target stay inside its flash if the records of the file do. -/
theorem gated_of_known {input : Input} {h : Host State} (hinv : MainInv input h)
    {cible : CibleAVR} (hcible : rechercheCible (receivedSignature h.calls) = some cible)
    (hfit : ∀ file, input.file = some file →
      RecordsFit input.vars file (cible.tailleFlash.toNat / 2)) : Gated h := by
  refine ⟨fun x hx hhead => ⟨cible, matches_iff.mpr hcible, ?_⟩,
    fun hnone => absurd (matches_iff.mpr hcible) (hnone cible), fun hnull => ?_⟩
  · rcases hinv.issued x hx with hsig | hissued
    · rw [hsig] at hhead
      exact absurd hhead (by decide)
    generalize x.1 = p at hhead hissued ⊢
    cases hissued with
    | read cible' hsome addr haddr =>
      rw [hcible] at hsome
      cases hsome
      rw [carriedAddress_read]
      simpa [UInt32.lt_iff_toNat_lt] using haddr
    | write file hfile p hp =>
      rcases List.mem_cons.mp hp with rfl | hp
      · exact absurd hhead (by decide)
      · exact (recordsFit_iff (tailleFlash_lt hcible)).mp (hfit file hfile) _ hp
  · have hstate := hinv.state
    rw [hnull] at hstate
    have hnone : rechercheCible (receivedSignature h.calls) = none := hstate.2
    rw [hcible] at hnone
    cases hnone

/-- When the packets of every run that receives a signature stay inside the flash of its
target, and none is sent to an unknown target. -/
theorem gated_iff (input : Input) (a b c : UInt8) :
    (∀ results,
      receivedSignature (run (prog input).step (Program.start .init) results).calls = [a, b, c] →
        Gated (run (prog input).step (Program.start .init) results)) ↔
      FitsTarget input [a, b, c] := by
  unfold FitsTarget
  cases hcible : rechercheCible [a, b, c] with
  | none =>
    constructor
    · intro hgated
      constructor
      · intro hreads
        have hdefined := (hgated (identification [a, b, c]) rfl).defined
        apply hdefined
        show (command input (rechercheCible [a, b, c])).1 = _
        rw [hcible, command_of_reads hreads]
      · cases hfile : input.file with
        | none => rfl
        | some file =>
          -- the erase command is sent to the unknown target
          obtain ⟨results, hsig, x, hx, herase⟩ :=
            exists_run_sends (a := a) (b := b) (c := c) hfile List.mem_cons_self
          have hsilent := (hgated results hsig).silent (by rwa [hsig, no_match_iff]) x hx
          rw [herase] at hsilent
          exact absurd rfl hsilent.2.2
    · rintro ⟨hreads, hfile⟩ results hsig
      exact gated_of_unknown (mainInv_run input results) (by rwa [hsig]) hreads hfile
  | some cible =>
    constructor
    · intro hgated file hfile
      refine (recordsFit_iff (tailleFlash_lt hcible)).mpr fun p hp => ?_
      obtain ⟨results, hsig, x, hx, rfl⟩ :=
        exists_run_sends (a := a) (b := b) (c := c) hfile (List.mem_cons_of_mem _ hp)
      obtain ⟨_, _, _, -, -, hline⟩ := mem_writeLoop.mp hp
      obtain ⟨-, _, -, hword⟩ := mem_linePackets.mp hline
      obtain ⟨cible', hmatch, hlt⟩ := (hgated results hsig).limit x hx (.inr (by rw [hword]; rfl))
      rw [hsig, matches_iff, hcible] at hmatch
      cases hmatch
      exact hlt
    · intro hfit results hsig
      exact gated_of_known (mainInv_run input results) (by rwa [hsig]) hfit

/-- `-read` with an unknown target reads the missing entry. -/
theorem read_unknown_target_faults :
    ¬ Gated (run (prog ⟨["-read"], fun _ => none, ⟨[], 0, 0, 0, 0, fun _ _ => 0⟩⟩).step
      (Program.start .init) (identification [0xFF, 0xFF, 0xFF])) :=
  fun hgated => hgated.defined rfl

end Software
end AvrProgrammer
