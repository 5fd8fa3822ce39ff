import AvrProgrammer.System.Scripts
import AvrProgrammer.System.Identify
import AvrProgrammer.Software.Main
import AvrProgrammer.Software.Lengths

/-!
# `main` with the device

The scripts of `isp_ids`, `flash_read` and `flash_write`, and of `main`, which calls them. The
results are about whole processes, from the claimed interface on: `prog -read` prints the flash
of a known target, and `prog -write` leaves in the flash what the packets of its file mean,
although the last of them may still be in the OUT bank when the process ends.

That these processes return 0 is said of a library whose calls return, also those of the second
closing of a device after `-read`, and of files with `LengthsFit`, whose lines all come to their
end.
-/

namespace AvrProgrammer
namespace System

open PagedFlash Runs IntelHex Firmware Software
open Software.Prog (Input identified command fermeture afterFlashRead afterFlashWrite)

variable {chip : Chip}

/-! ## The server and its packets -/

theorem Server.accept_request (flash : Memory Word) {p : Packet} (hp : IsRequest p) :
    Server.accept chip ⟨flash, none⟩ p = ⟨flash, some (reply chip flash p)⟩ := by
  rw [Server.accept, if_pos hp, effect_request flash hp]

theorem Server.accept_other (flash : Memory Word) {p : Packet} (hp : ¬ IsRequest p) :
    Server.accept chip ⟨flash, none⟩ p = ⟨effect chip flash p, none⟩ := by
  rw [Server.accept, if_neg hp]

theorem isRequest_readRequest (a : UInt16) : IsRequest (readRequest a) := .inr rfl

theorem wellSized_readRequest (a : UInt16) : WellSized (readRequest a) := by
  simp [WellSized, readRequest]

/-- The reply to a request for a block. -/
theorem reply_readRequest (flash : Memory Word) (a : UInt16) :
    reply chip flash (readRequest a) = (Target.idle flash : Target chip).block a := by
  have hcarried : carriedAddress (readRequest a) = a := address_bytes a
  show Target.block _ (carriedAddress (readRequest a)) = _
  rw [hcarried]
  rfl

/-! ## `flash_read` -/

section
variable {size : UInt32} {flash : Memory Word}

/-- The device is closed. -/
theorem flashRead_script_release (v : Server) :
    Script chip (flashRead size) .returned v 3 .release v [] :=
  .control .releaseInterface rfl trivial
    (.control .close rfl trivial (.control .exit rfl trivial .done))

/-- A block is asked for, received and printed. -/
theorem flashRead_script_block (a : UInt16) :
    Script chip (flashRead size) (FlashRead.loop size (a + 4)) ⟨flash, none⟩ 2 (.request a)
      ⟨flash, none⟩ [blockMessage chip flash a] := by
  have hlen : ((Target.idle flash : Target chip).block a).length = 8 := block_length ..
  have hreceive : Script chip (flashRead size) (FlashRead.loop size (a + 4)) ⟨flash, none⟩ 1
      (.receive a) ⟨flash, some ((Target.idle flash : Target chip).block a)⟩
      ([blockMessage chip flash a] ++ []) := by
    refine .receive 8 _ (fun s => s = FlashRead.State.receive a) rfl rfl ?_ ?_ ?_ .done
    · rintro _ rfl
      rfl
    · rintro _ rfl b
      rw [taken_of_le (show [b].length ≤ 8 by simp), flashRead_button size a rfl]
      exact ⟨rfl, rfl⟩
    · rintro _ rfl
      rw [taken_of_le (Nat.le_of_eq hlen), flashRead_block size a hlen, blockWords_block]
      rfl
  rw [← reply_readRequest, ← Server.accept_request flash (isRequest_readRequest a)] at hreceive
  exact .send (readRequest a) rfl rfl (wellSized_readRequest a) hreceive

/-- `flash_read` prints the blocks that are left. -/
theorem flashRead_script_from (hsize : WholeBlocks size) {i j : ℕ} (hij : i + j = size.toNat / 8) :
    Script chip (flashRead size) .returned ⟨flash, none⟩ (3 + 2 * j)
      (FlashRead.loop size (UInt16.ofNat (4 * i))) ⟨flash, none⟩
      ((blocks chip flash size).drop i) := by
  induction j generalizing i with
  | zero =>
    rw [hsize.loop_eq (by omega), if_neg (by omega), List.drop_of_length_le (by simp [blocks]; omega)]
    exact flashRead_script_release _
  | succ j ih =>
    have hi : i < (blocks chip flash size).length := by
      simp only [blocks, List.length_map, List.length_range]
      omega
    have hrest := ih (i := i + 1) (by omega)
    rw [← next_address] at hrest
    have hfirst : (blocks chip flash size)[i] = blockMessage chip flash (UInt16.ofNat (4 * i)) := by
      simp [blocks]
    rw [hsize.loop_eq (by omega), if_pos (by omega), List.drop_eq_getElem_cons hi, hfirst]
    exact (flashRead_script_block (UInt16.ofNat (4 * i))).trans hrest

end

/-! ## `main` -/

/-- The signature of the target, as `isp_ids` receives it. -/
def chipSignature (chip : Chip) : List UInt8 := List.ofFn chip.signature

section
variable (input : Input) {flash : Memory Word} {v v' : Server} {s' : Prog.State} {k : ℕ}
  {out : List Message}

/-- The reply of the device ends the loop of `isp_ids`. -/
theorem ispIds_reply {dataIn : List UInt8} (hlen : dataIn.length = 3) :
    ispIds.resume (.receive dataIn) (taken 3 (chipSignature chip)) =
      (.returned (chipSignature chip), [.signatureReceived (chipSignature chip)]) := by
  have hthree : (chipSignature chip).length = 3 := rfl
  have hdata : IspIds.overwrite dataIn (taken 3 (chipSignature chip)).data = chipSignature chip :=
    overwrite_signature hlen (Target.idle (fun _ => ⟨0, 0⟩) : Target chip)
  rw [taken_of_le (Nat.le_of_eq hthree)] at hdata ⊢
  simp [ispIds, hthree, hdata]

/-- `isp_ids` receives the signature, and `main` goes on with it. -/
theorem main_script_identify
    (h : Script chip (prog input) s' v' k (identified input (chipSignature chip)).1
      ⟨flash, none⟩ out) :
    Script chip (prog input) s' v' (k + 2) (.ispIds (.request [0, 0, 0])) ⟨flash, none⟩
      (.signatureSent :: .signatureReceived (chipSignature chip) ::
        ((identified input (chipSignature chip)).2 ++ out)) := by
  have hrequest : IsRequest [0x01] := .inl rfl
  have hsignature : reply chip flash [0x01] = chipSignature chip := rfl
  have hreceive : Script chip (prog input) s' v' (k + 1) (.ispIds (.receive [0, 0, 0]))
      ⟨flash, some (chipSignature chip)⟩
      ((.signatureReceived (chipSignature chip) :: (identified input (chipSignature chip)).2)
        ++ out) := by
    refine .receive 3 _ (fun s => ∃ dataIn : List UInt8, dataIn.length = 3 ∧
      s = Prog.State.ispIds (.receive dataIn)) rfl ⟨_, rfl, rfl⟩ ?_ ?_ ?_ h
    · rintro _ ⟨dataIn, hlen, rfl⟩
      rfl
    · rintro _ ⟨dataIn, hlen, rfl⟩ b
      have hdiscard : Discarded (taken 3 [b]) := ⟨rfl, rfl⟩
      show (∃ _, _) ∧ _
      simp only [prog, Prog.resume, ispIds_discard hdiscard]
      exact ⟨⟨_, overwrite_length hlen rfl, rfl⟩, rfl⟩
    · rintro _ ⟨dataIn, hlen, rfl⟩
      simp only [prog, Prog.resume, ispIds_reply hlen]
      rfl
  rw [← hsignature, ← Server.accept_request flash hrequest] at hreceive
  exact .send [0x01] rfl rfl (by decide) hreceive

theorem isControl_of_mem_closing {call : Call} (hcall : call ∈ closing) : IsControl call := by
  simp only [closing, List.mem_cons, List.not_mem_nil, or_false] at hcall
  rcases hcall with rfl | rfl | rfl <;> trivial

/-- The device is closed. -/
theorem main_script_fermeture :
    Script chip (prog input) (.cleanUp [] 0) v 3 fermeture v [] :=
  .control .releaseInterface rfl trivial
    (.control .close rfl trivial (.control .exit rfl trivial .done))

/-- `main` makes the calls of `flash_read` and closes the device once more. -/
theorem main_script_read {size : UInt32} (hsize : WholeBlocks size) :
    Script chip (prog input) (.cleanUp [] 0) ⟨flash, none⟩ (2 * (size.toNat / 8) + 6)
      (.flashRead size (FlashRead.loop size 0)) ⟨flash, none⟩ (blocks chip flash size) := by
  have hdump := @flashRead_script_from chip size flash hsize 0 (size.toNat / 8) (Nat.zero_add _)
  have hembedded := hdump.embed (P := flashRead size) (Q := prog input) (afterFlashRead size)
    (fun s call hcall => by
      cases s with
      | returned => cases hcall
      | _ => exact hcall)
    (fun s call hcall result => by
      cases s with
      | returned => cases hcall
      | _ => rfl)
  have hstart : afterFlashRead size (FlashRead.loop size 0)
      = .flashRead size (FlashRead.loop size 0) := by
    unfold FlashRead.loop
    split_ifs <;> rfl
  rw [List.drop_zero, show UInt16.ofNat (4 * 0) = 0 from rfl, hstart] at hembedded
  have hall := hembedded.trans (main_script_fermeture input (v := ⟨flash, none⟩))
  rw [List.append_nil] at hall
  -- three calls of `flash_read` and three of `main`
  rw [show 2 * (size.toNat / 8) + 6 = 3 + (3 + 2 * (size.toNat / 8)) by omega]
  exact hall

/-- `main` sends the packets of `flash_write`, reports its success and closes the device. -/
theorem main_script_write {packets : List Packet} (hne : packets ≠ [])
    (hpackets : ∀ p ∈ packets, ¬ IsRequest p ∧ WellSized p) (flash : Memory Word) :
    Script chip (prog input) (.cleanUp [] 0) ⟨packets.foldl (effect chip) flash, none⟩
      (packets.length + 3) (.flashWrite packets) ⟨flash, none⟩ [.writeSuccess] := by
  induction packets generalizing flash with
  | nil => exact absurd rfl hne
  | cons p packets ih =>
    obtain ⟨hp, hsized⟩ := hpackets p List.mem_cons_self
    have haccept := @Server.accept_other chip flash _ hp
    rw [List.length_cons, Nat.add_right_comm, List.foldl_cons]
    cases packets with
    | nil =>
      have hclose : Script chip (prog input) (.cleanUp [] 0) ⟨effect chip flash p, none⟩ 3
          fermeture (Server.accept chip ⟨flash, none⟩ p) [] := by
        rw [haccept]
        exact main_script_fermeture input
      exact .send p rfl rfl hsized hclose
    | cons p' packets =>
      have hrest := ih (List.cons_ne_nil _ _) (fun q hq => hpackets q (.tail _ hq))
        (effect chip flash p)
      rw [← haccept] at hrest
      exact .send p rfl rfl hsized hrest

end

/-! ## Main results -/

/-- What `main` prints about the target. -/
def targetMessage (chip : Chip) : Message :=
  match rechercheCible (chipSignature chip) with
  | none => .unknownTarget
  | some cible => .target cible

/-- What `main` prints first. -/
def greeting (chip : Chip) : List Message :=
  [.signatureSent, .signatureReceived (chipSignature chip), targetMessage chip]

theorem wholeBlocks_of_mem {cible : CibleAVR} (h : cible ∈ baseDeDonnees) :
    WholeBlocks cible.tailleFlash := by
  have hall : ∀ cible ∈ baseDeDonnees,
      cible.tailleFlash.toNat % 8 = 0 ∧ cible.tailleFlash.toNat / 2 ≤ 65532 := by decide
  exact ⟨(hall cible h).1, (hall cible h).2⟩

/-- The whole script of a `-read` of a known target. -/
theorem mainRead_script {input : Input} (hreads : input.Reads) {cible : CibleAVR}
    (hcible : rechercheCible (chipSignature chip) = some cible) (flash : Memory Word) :
    Script chip (prog input) (.cleanUp [] 0) ⟨flash, none⟩
      (2 * (cible.tailleFlash.toNat / 8) + 8) (.ispIds (.request [0, 0, 0])) ⟨flash, none⟩
      (greeting chip ++ blocks chip flash cible.tailleFlash) := by
  have hsize : WholeBlocks cible.tailleFlash :=
    wholeBlocks_of_mem (rechercheCible_eq_some.mp hcible).1
  have hstart := @main_script_read chip input flash _ hsize
  have hspec := command_spec input (some cible)
  have hidentified : identified input (chipSignature chip) =
      (.flashRead cible.tailleFlash (FlashRead.loop cible.tailleFlash 0), [.target cible]) := by
    rw [identified, hcible]
    generalize command input (some cible) = c at hspec ⊢
    cases hspec with
    | reads _ _ c' hc' => cases hc'; rfl
    | closes hnot | writes hnot => exact absurd hreads hnot
    | faults _ _ hnone => cases hnone
  rw [show Prog.State.flashRead _ _ = (identified input (chipSignature chip)).1 by
    rw [hidentified]] at hstart
  have hmain := main_script_identify input hstart
  have htarget : targetMessage chip = .target cible := by rw [targetMessage, hcible]
  rw [hidentified] at hmain
  rw [greeting, htarget]
  exact hmain

/-- Every packet of `flash_write` is executed without a reply. -/
theorem command_of_mem_flashWritePackets {v : Vars} {file : List UInt8} {p : Packet}
    (h : p ∈ flashWritePackets v file) : ¬ IsRequest p ∧ WellSized p := by
  rcases List.mem_cons.mp h with rfl | h
  · decide
  · obtain ⟨_, _, _, -, -, hp⟩ := mem_writeLoop.mp h
    obtain ⟨-, k, -, rfl⟩ := mem_linePackets.mp hp
    simp [IsRequest, WellSized, writePacket]

/-- The whole script of a `-write`; of a file without `LengthsFit` the source makes only its
beginning. -/
theorem mainWrite_script {input : Input} {file : List UInt8} (hfile : input.file = some file)
    (flash : Memory Word) :
    ∃ k, Script chip (prog input) (.cleanUp [] 0)
      ⟨(flashWritePackets input.vars file).foldl (effect chip) flash, none⟩ k
      (.ispIds (.request [0, 0, 0])) ⟨flash, none⟩ (greeting chip ++ [.writeSuccess]) := by
  have hwrite := @main_script_write chip input (flashWritePackets input.vars file)
    (List.cons_ne_nil _ _) (fun p hp => command_of_mem_flashWritePackets hp) flash
  have hidentified : identified input (chipSignature chip) =
      (.flashWrite (flashWritePackets input.vars file), [targetMessage chip]) := by
    rw [identified, command_of_file hfile]
    rfl
  rw [show Prog.State.flashWrite _ = (identified input (chipSignature chip)).1 by
    rw [hidentified]] at hwrite
  have hmain := main_script_identify input hwrite
  rw [hidentified] at hmain
  exact ⟨_, hmain⟩

/-- `main` once the interface is claimed. -/
abbrev claimed : Prog.State := .ispIds (.request [0, 0, 0])

/-- `main` has returned 0. -/
abbrev finished : Prog.State := .cleanUp [] 0

variable {d : Device chip}

/-- `prog -read` prints the flash of a known target, whatever the buttons and the main loop do,
and leaves it as it was. It returns if the calls that are no transfers return: `flash_read` closes
the device, and `main` makes the same three calls once more on the closed handle. -/
theorem read_prints_flash (hd : Quiet d) {input : Input} (hreads : input.Reads) {cible : CibleAVR}
    (hcible : rechercheCible (chipSignature chip) = some cible) :
    ScriptCorrect (prog input) claimed d finished (meaning d)
      (greeting chip ++ blocks chip (meaning d) cible.tailleFlash) := by
  exact script_correct hd (mainRead_script hreads hcible (meaning d)) rfl

/-- The arguments `-read`. -/
def readInput : Input := ⟨["-read"], fun _ => none, zeroStack⟩

/-- The arguments `-write` and a file that can be opened. -/
def writeInput (file : List UInt8) : Input := ⟨["-write", "a.hex"], fun _ => some file, zeroStack⟩

/-- A device after power-on, with zeros in its flash. -/
def zeroed : Device atmega328p := powerOn (fun _ => 0) fun _ => ⟨0, 0⟩

theorem quiet_zeroed : Quiet zeroed := (readReady_powerOn (fun _ => 0) fun _ => ⟨0, 0⟩).quiet

/-- The entry of the ATmega328P. -/
def cible328p : CibleAVR := ⟨[0x1E, 0x95, 0x0F], "ATmega328P", 32768, 128⟩

theorem known_atmega328p : rechercheCible (chipSignature atmega328p) = some cible328p := rfl

/-- An ATmega328P full of zeros is printed. -/
theorem read_prints_flash_zeroed :
    ScriptCorrect (prog readInput) claimed zeroed finished (meaning zeroed)
      (greeting atmega328p ++ blocks atmega328p (meaning zeroed) cible328p.tailleFlash) :=
  read_prints_flash quiet_zeroed (show readInput.Reads from rfl) known_atmega328p

/-- A `-read` and the server. -/
theorem refines_server_zeroed :
    ∃ bs, (run (step (prog readInput)) ⟨Program.start claimed, zeroed⟩
        [.transfer, .firmware 0, .firmware 0, .transfer]).host
      = (run (serve atmega328p (prog readInput)) ⟨Program.start claimed, serverOf zeroed⟩ bs).host := by
  have hscript := mainRead_script (show readInput.Reads from rfl) known_atmega328p (meaning zeroed)
  obtain ⟨bs, hhost, -⟩ := refines_server (prog readInput) (Program.start claimed) quiet_zeroed
    (hscript.polite rfl) [.transfer, .firmware 0, .firmware 0, .transfer] (by decide)
  exact ⟨bs, hhost⟩

/-- `prog -write` leaves in the flash what the packets of its file mean, for any file whose lines
all come to their end; they send at most 128 packets each. -/
theorem write_leaves_meaning (hd : Quiet d) {input : Input} {file : List UInt8}
    (hfile : input.file = some file) (hlengths : LengthsFit input.vars file) :
    ScriptCorrect (prog input) claimed d finished
        ((flashWritePackets input.vars file).foldl (effect chip) (meaning d))
        (greeting chip ++ [.writeSuccess]) ∧
      (flashWritePackets input.vars file).length ≤ 128 * (Stdio.lines 256 file).length + 1 := by
  obtain ⟨k, hscript⟩ := mainWrite_script hfile (meaning d)
  exact ⟨script_correct hd hscript rfl, length_flashWritePackets_le hlengths⟩

/-- `:02000000AABB99` and a blank line, which sends the word again. -/
def blankLineFile : List UInt8 :=
  [0x3A, 0x30, 0x32, 0x30, 0x30, 0x30, 0x30, 0x30, 0x30, 0x41, 0x41, 0x42, 0x42, 0x39, 0x39, 0x0A,
    0x0A]

/-- A file without a minus sign. -/
theorem write_leaves_meaning_blankLine :
    ScriptCorrect (prog (writeInput blankLineFile)) claimed zeroed finished
        ((flashWritePackets zeroStack blankLineFile).foldl (effect atmega328p) (meaning zeroed))
        (greeting atmega328p ++ [.writeSuccess]) ∧
      (flashWritePackets zeroStack blankLineFile).length ≤ 128 * 2 + 1 :=
  write_leaves_meaning quiet_zeroed
    (show (writeInput blankLineFile).file = some blankLineFile from rfl)
    (lengthsFit_of_notMem (by decide) (by decide))

/-- Some run without failures returns. -/
theorem ScriptCorrect.exists_run {σ : Type} {P : Program σ} {s s' : σ} {flash : Memory Word}
    {out : List Message} (h : ScriptCorrect P s d s' flash out) :
    ∃ as, (∀ a ∈ as, FaultFree a) ∧ P.call (run (step P) ⟨Program.start s, d⟩ as).host.state = none := by
  obtain ⟨n, hn⟩ := h.returns alternating faultFree_alternating fair_alternating
  rw [runTo_eq_run] at hn
  refine ⟨_, ?_, hn⟩
  intro a ha
  obtain ⟨i, -, rfl⟩ := List.mem_map.mp ha
  exact faultFree_alternating i

end System
end AvrProgrammer
