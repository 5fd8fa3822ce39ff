import AvrProgrammer.System.TestPrograms
import AvrProgrammer.System.Live

/-!
# The programmer as a store

What the programmer is for: a store of one content, the flash of the target, on which one
command works after the other. `Command.store` and `Command.output` are that store, and a
`Session` is what happens: processes of this repository, started one after the other on the
same device, each with its own run.

`session_correct` says that there are sessions of any commands that end, that every session of
them without failures is one of the store, and that a command that is started next comes to its
end. `last_write_read` is what a user relies on: what is read is what was written last.

A `-write` ends if the lines of its file do (`LengthsFit`). The calls that are no transfers return,
also those that close the device a second time after a `-read`.
-/

namespace AvrProgrammer
namespace System

open PagedFlash Runs Firmware Software IntelHex
open Software.Prog (Input identified fermeture)
open Software.MainPc (lectureClavier initial)

variable {chip : Chip}

/-! ## The commands -/

/-- The programs that can be started: `prog` with any arguments, and the test programs. -/
inductive Command where
  | prog (input : Input)
  | testIspIds
  | testFlashRead
  | testFlashRw
  | testMainPc (keys : ℕ → Option Char)

/-- A program and the state in which it has claimed the interface. -/
structure Executable where
  State : Type
  program : Program State
  start : State

/-- What is executed for a command; of `main_pc.c` this is the loop. -/
def Command.executable : Command → Executable
  | .prog input => ⟨Prog.State, Software.prog input, claimed⟩
  | .testIspIds => ⟨_, Software.testIspIds, .body (.request [0, 0, 0])⟩
  | .testFlashRead => ⟨_, Software.testFlashRead, .body (FlashRead.loop 64 0)⟩
  | .testFlashRw => ⟨_, Software.testFlashRw, .body .erase⟩
  | .testMainPc keys => ⟨_, mainPc keys, lectureClavier (keys 0) initial⟩

/-- A command that ends: the lines of a file that is written all come to their end, and in
`main_pc.c` `q` is pressed. -/
def Command.Ends : Command → Prop
  | .prog input => ∀ file, input.file = some file → LengthsFit input.vars file
  | .testMainPc keys => ∃ n, keys n = some 'q'
  | _ => True

/-! ## The store -/

instance (input : Input) : Decidable input.Reads :=
  inferInstanceAs (Decidable (input.args.head? = some "-read"))

section
variable (chip)

/-- The content after a command. -/
def Command.store : Command → Memory Word → Memory Word
  | .prog input, flash =>
    match input.file with
    | none => flash
    | some file => (flashWritePackets input.vars file).foldl (effect chip) flash
  | .testFlashRw, _ => fakeFlash
  | _, flash => flash

variable (cible : CibleAVR)

/-- What a command prints; `main_pc.c` prints the buttons only. -/
def Command.output : Command → Memory Word → List Message
  | .prog input, flash =>
    greeting chip ++
      match input.file with
      | some _ => [.writeSuccess]
      | none =>
        if input.Reads then blocks chip flash cible.tailleFlash
        else (Prog.command input (some cible)).2
  | .testIspIds, _ => [.signatureSent, .signatureReceived (chipSignature chip)]
  | .testFlashRead, flash => blocks chip flash 64
  | .testFlashRw, _ => (List.range 8).map fakeBlock
  | .testMainPc _, _ => []

/-- The outputs of commands one after the other. -/
def outputs : List Command → Memory Word → List (List Message)
  | [], _ => []
  | c :: cs, flash => c.output chip cible flash :: outputs cs (c.store chip flash)

end

/-- The content after commands one after the other. -/
def contentAfter (chip : Chip) (cs : List Command) (flash : Memory Word) : Memory Word :=
  run (fun flash c => Command.store chip c flash) flash cs

/-! ## Sessions -/

/-- The device with a command that has just been started. -/
def Command.started (c : Command) (d : Device chip) : Composed c.executable.State chip :=
  ⟨Program.start c.executable.start, d⟩

/-- The command has returned. -/
def Command.Returned {c : Command} (s : Composed c.executable.State chip) : Prop :=
  c.executable.program.call s.host.state = none

/-- A run of a command without failures, to its end: `d'` is the device it leaves behind. Of a
command that does not end the source has no such run. -/
def Process (c : Command) (d : Device chip) (out : List Message) (d' : Device chip) : Prop :=
  ∃ as, (∀ a ∈ as, FaultFree a) ∧
    let s := run (step c.executable.program) (c.started d) as
    Command.Returned s ∧ s.host.out = out ∧ s.device = d'

/-- Processes one after the other, with what they print. -/
inductive Session : Device chip → List Command → List (List Message) → Device chip → Prop
  | nil (d : Device chip) : Session d [] [] d
  | cons {d d' d'' : Device chip} {c : Command} {cs : List Command} {out : List Message}
    {outs : List (List Message)} (hprocess : Process c d out d') (hrest : Session d' cs outs d'') :
    Session d (c :: cs) (out :: outs) d''

/-! ## One process -/

/-- A command on a device with the content `flash`. -/
structure Command.Correct (cible : CibleAVR) (c : Command) (d : Device chip) : Prop where
  /-- When it returns it has done what the store does, -/
  returned : ∀ as, (∀ a ∈ as, FaultFree a) →
    let s := run (step c.executable.program) (c.started d) as
    Command.Returned s → s.host.out = c.output chip cible (meaning d) ∧
      meaning s.device = c.store chip (meaning d) ∧ Quiet s.device
  /-- and under every fair schedule without failures it returns. -/
  returns : c.Ends → ∀ sched, (∀ n, FaultFree (sched n)) → Fair sched →
    ∃ n, Command.Returned (runTo (step c.executable.program) (c.started d) sched n)

section
variable {cible : CibleAVR} {d : Device chip} {c : Command}

/-- A command that has a script. -/
theorem Command.Correct.of_script (hd : Quiet d) {k : ℕ} {s' : c.executable.State}
    (hend : c.executable.program.call s' = none)
    (h : Script chip c.executable.program s' ⟨c.store chip (meaning d), none⟩ k
      c.executable.start (serverOf d) (c.output chip cible (meaning d))) :
    Command.Correct cible c d := by
  have hcorrect := script_correct hd h hend
  constructor
  · intro as has s hreturned
    obtain ⟨-, hout, hquiet, hflash⟩ := hcorrect.returned as has hreturned
    exact ⟨hout, hflash, hquiet⟩
  · intro _ sched hsched hfair
    exact hcorrect.returns sched hsched hfair

/-- `prog` with any arguments. -/
theorem prog_script (hcible : rechercheCible (chipSignature chip) = some cible) (input : Input)
    (flash : Memory Word) :
    ∃ k, Script chip (Software.prog input) (.cleanUp [] 0)
      ⟨(Command.prog input).store chip flash, none⟩ k claimed ⟨flash, none⟩
      ((Command.prog input).output chip cible flash) := by
  have hspec := command_spec input (some cible)
  generalize hcommand : Prog.command input (some cible) = result at hspec ⊢
  cases hspec with
  | writes hreads file hfile =>
    simp only [Command.store, Command.output, hfile]
    exact mainWrite_script hfile flash
  | reads hreads hfile =>
    simp only [Command.store, Command.output, hfile, if_pos hreads]
    exact ⟨_, mainRead_script hreads hcible flash⟩
  | closes hreads hfile out =>
    simp only [Command.store, Command.output, hfile, if_neg hreads, hcommand]
    have hidentified : identified input (chipSignature chip) = (fermeture, .target cible :: out) := by
      rw [identified, hcible, hcommand]
    have hclose : Script chip (Software.prog input) (.cleanUp [] 0) ⟨flash, none⟩ 3 fermeture
        ⟨flash, none⟩ [] :=
      main_script_fermeture input
    rw [show fermeture = (identified input (chipSignature chip)).1 by rw [hidentified]] at hclose
    have hmain := main_script_identify input hclose
    rw [hidentified, List.append_nil] at hmain
    have htarget : targetMessage chip = .target cible := by rw [targetMessage, hcible]
    rw [greeting, htarget]
    exact ⟨_, hmain⟩
  | faults hreads hfile hnone => cases hnone

/-- `isp_ids.c` alone. -/
theorem ispIds_script (flash : Memory Word) :
    Script chip ispIds (.returned (chipSignature chip)) ⟨flash, none⟩ 2 (.request [0, 0, 0])
      ⟨flash, none⟩ [.signatureSent, .signatureReceived (chipSignature chip)] := by
  have hrequest : IsRequest [0x01] := .inl rfl
  have hsignature : reply chip flash [0x01] = chipSignature chip := rfl
  have hreceive : Script chip ispIds (.returned (chipSignature chip)) ⟨flash, none⟩ 1
      (.receive [0, 0, 0]) ⟨flash, some (chipSignature chip)⟩
      ([.signatureReceived (chipSignature chip)] ++ []) := by
    refine .receive 3 _ (fun s => ∃ dataIn : List UInt8, dataIn.length = 3 ∧
      s = IspIds.State.receive dataIn) rfl ⟨_, rfl, rfl⟩ ?_ ?_ ?_ .done
    · rintro _ ⟨dataIn, hlen, rfl⟩
      rfl
    · rintro _ ⟨dataIn, hlen, rfl⟩ b
      have hdiscard : Discarded (taken 3 [b]) := ⟨rfl, rfl⟩
      rw [ispIds_discard hdiscard]
      exact ⟨⟨_, overwrite_length hlen rfl, rfl⟩, rfl⟩
    · rintro _ ⟨dataIn, hlen, rfl⟩
      exact ispIds_reply hlen
  rw [← hsignature, ← Server.accept_request flash hrequest] at hreceive
  exact .send [0x01] rfl rfl (by decide) hreceive

/-- `main_pc.c` prints nothing but the buttons. -/
theorem mainPc_prints_nothing (keys : ℕ → Option Char) (d : Device chip) (as : List Action) :
    (run (step (mainPc keys)) (liveStart keys d) as).host.out = [] := by
  have hcall : ∀ (h : Host MainPc.State) (result : Result),
      ((mainPc keys).step h result).out = h.out := by
    intro h result
    unfold Program.step
    split
    · rfl
    · cases h.state <;> exact List.append_nil _
  apply run_invariant (I := fun s : Composed MainPc.State chip => s.host.out = [])
  · intro s a hs
    have heffect := step_effect (mainPc keys) s a
    generalize System.step (mainPc keys) s a = s' at heffect ⊢
    cases heffect with
    | sent | received | called | timeoutOUT | timeoutIN => rw [hcall, hs]
    | _ => exact hs
  · rfl

/-- `main_pc.c` stops when `q` is pressed. -/
theorem mainPc_returns {keys : ℕ → Option Char} (hd : Quiet d) {n : ℕ} (hq : keys n = some 'q')
    {sched : ℕ → Action} (hsched : ∀ n, FaultFree (sched n)) (hfair : Fair sched) :
    ∃ n, (mainPc keys).call
      (runTo (step (mainPc keys)) (liveStart keys d) sched n).host.state = none := by
  by_contra hrunning
  -- it would make more calls than fit into the turns up to `n`
  obtain ⟨m, hm⟩ := exists_calls (mainPc keys) (s := liveStart keys d) hd.settled hsched hfair
    (fun i hi => hrunning ⟨i, hi⟩) (2 * n + 2)
  have hinv := (liveInv_start keys hd).run ((List.range m).map sched)
  rw [← runTo_eq_run] at hinv
  exact hrunning ⟨m, hinv.host.stopped hq hm⟩

/-- Every command does what the store does. -/
theorem Command.correct (hcible : rechercheCible (chipSignature chip) = some cible)
    (hwords : 32 ≤ chip.flashWords) (hd : Quiet d) (c : Command) : Command.Correct cible c d := by
  cases c with
  | prog input =>
    obtain ⟨k, hscript⟩ := prog_script hcible input (meaning d)
    exact .of_script hd rfl hscript
  | testIspIds =>
    exact .of_script hd rfl (withDevice_script (fun _ => isControl_of_mem_closing) rfl
      (ispIds_script (meaning d)))
  | testFlashRead =>
    have hread := @flashRead_script_from chip 64 (meaning d) ⟨rfl, by decide⟩ 0 8 rfl
    rw [List.drop_zero] at hread
    exact .of_script hd rfl (withDevice_script noCalls rfl hread)
  | testFlashRw =>
    obtain ⟨k, hscript⟩ := flashRw_script hwords (meaning d)
    exact .of_script hd rfl (withDevice_script noCalls rfl hscript)
  | testMainPc keys =>
    constructor
    · intro as has s _
      obtain ⟨hquiet, hflash⟩ := ((liveInv_start keys hd).run as).quiet
      exact ⟨mainPc_prints_nothing keys d as, hflash, hquiet⟩
    · rintro ⟨n, hq⟩ sched hsched hfair
      exact mainPc_returns hd hq hsched hfair

end

/-! ## Main results -/

section
variable {cible : CibleAVR} {d d' : Device chip} {cs cs' : List Command}
  {outs : List (List Message)}

/-- What a session from the device `d` to the device `d'` shows. -/
structure Session.Correct (cible : CibleAVR) (d : Device chip) (cs : List Command)
    (outs : List (List Message)) (d' : Device chip) : Prop where
  /-- Every process prints what the store says, -/
  outs : outs = outputs chip cible cs (meaning d)
  /-- the flash holds what the store holds, -/
  content : meaning d' = contentAfter chip cs (meaning d)
  quiet : Quiet d'
  /-- and the session goes on: the command started next comes to its end. -/
  continues : ∀ c : Command, c.Ends → ∀ sched, (∀ n, FaultFree (sched n)) → Fair sched →
    ∃ n, Command.Returned (runTo (step c.executable.program) (c.started d') sched n)

/-- A session is one of the store. -/
theorem Session.store (hcible : rechercheCible (chipSignature chip) = some cible)
    (hwords : 32 ≤ chip.flashWords) (hd : Quiet d) (h : Session d cs outs d') :
    outs = outputs chip cible cs (meaning d) ∧ meaning d' = contentAfter chip cs (meaning d) ∧
      Quiet d' := by
  induction h with
  | nil d => exact ⟨rfl, rfl, hd⟩
  | cons hprocess hrest ih =>
    obtain ⟨as, has, hreturned, rfl, rfl⟩ := hprocess
    obtain ⟨hout, hcontent, hquiet⟩ := (Command.correct hcible hwords hd _).returned as has hreturned
    obtain ⟨houts, hcontent', hquiet'⟩ := ih hquiet
    refine ⟨?_, ?_, hquiet'⟩
    · rw [hout, houts, hcontent]
      rfl
    · rw [hcontent', hcontent]
      rfl

/-- There are sessions of any commands that end. -/
theorem exists_session (hcible : rechercheCible (chipSignature chip) = some cible)
    (hwords : 32 ≤ chip.flashWords) (hd : Quiet d) (hends : ∀ c ∈ cs, c.Ends) :
    ∃ outs d', Session d cs outs d' := by
  induction cs generalizing d with
  | nil => exact ⟨[], d, .nil d⟩
  | cons c cs ih =>
    have hcorrect := Command.correct hcible hwords hd c
    obtain ⟨n, hn⟩ := hcorrect.returns (hends c List.mem_cons_self) alternating
      faultFree_alternating fair_alternating
    rw [runTo_eq_run] at hn
    have has : ∀ a ∈ (List.range n).map alternating, FaultFree a := by
      intro a ha
      obtain ⟨i, -, rfl⟩ := List.mem_map.mp ha
      exact faultFree_alternating i
    obtain ⟨-, -, hquiet⟩ := hcorrect.returned _ has hn
    obtain ⟨outs, d', hrest⟩ := ih hquiet fun c hc => hends c (.tail _ hc)
    exact ⟨_, d', .cons ⟨_, has, hn, rfl, rfl⟩ hrest⟩

/-- **The programmer is a store.** For a known target of at least 32 words and any commands that
end there are sessions without failures from a quiet device, and every one of them is one of the
store. -/
theorem session_correct (hcible : rechercheCible (chipSignature chip) = some cible)
    (hwords : 32 ≤ chip.flashWords) (hd : Quiet d) (hends : ∀ c ∈ cs, c.Ends) :
    (∃ outs d', Session d cs outs d') ∧
      ∀ outs d', Session d cs outs d' → Session.Correct cible d cs outs d' := by
  refine ⟨exists_session hcible hwords hd hends, fun outs d' h => ?_⟩
  obtain ⟨houts, hcontent, hquiet⟩ := h.store hcible hwords hd
  exact ⟨houts, hcontent, hquiet, fun c => (Command.correct hcible hwords hquiet c).returns⟩

/-- The buttons and the LEDs, a write and a read. -/
def fourCommands : List Command :=
  [.testMainPc fun _ => some 'q'] ++ [.prog (writeInput twoWordsFile)] ++ [.testIspIds] ++
    [.prog readInput]

theorem ends_of_mem_fourCommands : ∀ c ∈ fourCommands, c.Ends := by
  intro c hc
  simp only [fourCommands, List.mem_append, List.mem_singleton, or_assoc] at hc
  rcases hc with rfl | rfl | rfl | rfl
  · exact ⟨0, rfl⟩
  · intro file hfile
    cases hfile
    exact lengthsFit_hexFile hexFile_twoWords zeroStack
  · trivial
  · intro file hfile
    cases hfile

/-- They find the device as the store says. -/
theorem session_correct_fourCommands :
    ∃ outs d', Session.Correct cible328p (zeroed : Device atmega328p) fourCommands outs d' := by
  obtain ⟨⟨outs, d', hsession⟩, hcorrect⟩ := session_correct known_atmega328p (by decide)
    quiet_zeroed ends_of_mem_fourCommands
  exact ⟨outs, d', hcorrect outs d' hsession⟩

theorem contentAfter_append (flash : Memory Word) :
    contentAfter chip (cs ++ cs') flash = contentAfter chip cs' (contentAfter chip cs flash) :=
  run_append ..

theorem outputs_append (flash : Memory Word) :
    outputs chip cible (cs ++ cs') flash =
      outputs chip cible cs flash ++ outputs chip cible cs' (contentAfter chip cs flash) := by
  induction cs generalizing flash with
  | nil => rfl
  | cons c cs ih =>
    rw [List.cons_append, outputs, ih]
    rfl

/-- A command that keeps the content. -/
def Command.Keeps : Command → Prop
  | .prog input => input.file = none
  | .testFlashRw => False
  | _ => True

theorem contentAfter_keeps (hcs : ∀ c ∈ cs, c.Keeps) (flash : Memory Word) :
    contentAfter chip cs flash = flash := by
  induction cs with
  | nil => rfl
  | cons c cs ih =>
    have hc : c.store chip flash = flash := by
      have hkeeps := hcs c List.mem_cons_self
      cases c with
      | prog input => simp only [Command.store, show input.file = none from hkeeps]
      | testFlashRw => exact hkeeps.elim
      | _ => rfl
    rw [contentAfter, run_cons, hc]
    exact ih fun c hc => hcs c (.tail _ hc)

/-- A `-read` has no file. -/
theorem file_of_reads {input : Input} (hreads : input.Reads) : input.file = none := by
  unfold Input.Reads at hreads
  unfold Input.file
  split
  next action name args hargs =>
    rw [hargs] at hreads
    injection hreads with hreads
    exact if_neg (by rw [hreads]; decide)
  next => rfl

/-- **What is read is what was written last.** In every session without failures in which a file
is written, commands that keep the content follow and the last command is a `-read`: it prints
a flash that holds the bytes of the file, and 0xFF everywhere else. -/
theorem last_write_read (hcible : rechercheCible (chipSignature chip) = some cible)
    (hwords : 32 ≤ chip.flashWords) (hd : Quiet d) (image : Image chip) {write read : Input}
    {file : List UInt8} (hfile : write.file = some file) (hhex : HexFile image.records file)
    (hreads : read.Reads) {between : List Command} (hkeeps : ∀ c ∈ between, c.Keeps)
    (h : Session d (cs ++ [.prog write] ++ between ++ [.prog read]) outs d') :
    ∃ flash, outs.getLast? = some (greeting chip ++ blocks chip flash cible.tailleFlash) ∧
      (∀ r ∈ image.records, r.type = 0x00 → ∀ k (hk : k < r.data.length),
        flashByte flash (r.address + k) = r.data[k]) ∧
      ∀ b, (∀ r ∈ image.records, r.type = 0x00 →
          b < r.address ∨ r.address + r.data.length ≤ b) → flashByte flash b = 0xFF := by
  obtain ⟨houts, -⟩ := h.store hcible hwords hd
  -- the content when the last command starts
  let flash := contentAfter chip (cs ++ [.prog write] ++ between) (meaning d)
  have hflash : flash = programAll erase image.words := by
    show contentAfter chip (cs ++ [.prog write] ++ between) (meaning d) = _
    rw [contentAfter_append, contentAfter_keeps hkeeps, contentAfter_append]
    show Command.store chip (.prog write) _ = _
    simp only [Command.store, hfile]
    exact foldl_flashWritePackets image hhex _ _
  have hlast : (Command.prog read).output chip cible flash
      = greeting chip ++ blocks chip flash cible.tailleFlash := by
    simp only [Command.output, file_of_reads hreads, if_pos hreads]
  refine ⟨flash, ?_, ?_, ?_⟩
  · rw [houts, outputs_append]
    show (_ ++ [(Command.prog read).output chip cible flash]).getLast? = _
    rw [List.getLast?_concat, hlast]
  · intro r hr htype k hk
    rw [hflash]
    exact image.flashByte_of_mem hr htype hk
  · intro b hb
    rw [hflash]
    exact image.flashByte_of_notMem hb

/-- Two words, read after an identification. -/
theorem last_write_read_twoWords :
    ∃ outs, ∃ d' : Device atmega328p, Session zeroed fourCommands outs d' ∧ ∃ flash,
      outs.getLast? = some (greeting atmega328p ++ blocks atmega328p flash cible328p.tailleFlash) ∧
        flashByte flash 1 = 0xBB := by
  obtain ⟨outs, d', hsession⟩ :=
    exists_session known_atmega328p (by decide) quiet_zeroed ends_of_mem_fourCommands
  have hkeeps : ∀ c ∈ [Command.testIspIds], c.Keeps := by
    intro c hc
    rw [List.mem_singleton.mp hc]
    trivial
  have hfile : (writeInput twoWordsFile).file = some twoWordsFile := rfl
  have hreads : readInput.Reads := rfl
  obtain ⟨flash, hout, hbytes, -⟩ := last_write_read known_atmega328p (by decide) quiet_zeroed
    twoWords hfile hexFile_twoWords hreads hkeeps hsession
  exact ⟨outs, d', hsession, flash, hout, hbytes _ (.tail _ List.mem_cons_self) rfl 1 (by decide)⟩

end

end System
end AvrProgrammer
