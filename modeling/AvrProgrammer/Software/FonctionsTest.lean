import AvrProgrammer.Software.Lifecycle

/-!
# `software/fonctions_test`

The test programs share the frame `withDevice`: `init_usb`, `reclamer_interface`, a body, and
the calls that close the device. Their copies of the two functions print the messages of
`dev_handle.c` without the colours.

* `flash_read.c` and `isp_ids.c` run the loops of the functions of those names on a fixed size
  and on a buffer of their own.
* `flash_rw.c` erases the target, writes five words and reads 64 bytes. As for `flash_write`,
  what it prints about the erasing and the writing is left out.
* `main_pc.c` switches the LEDs by the keys of the keyboard and prints the buttons.

`prog` closes the device twice after a `-read`; `testPrograms_clean` says that no test program
does.
-/

namespace AvrProgrammer
namespace Software

open Runs Resources

/-! ## The frame -/

namespace WithDevice

/-- The states of a program with the body `β`. -/
inductive State (β : Type) where
  | init
  | openDevice
  | kernelDriver
  | detach
  | claim
  | body (s : β)
  | cleanUp (calls : List Call) (code : ℤ)

variable {β : Type}

/-- The body goes on, or `Fermeture propre` makes the calls `after` and returns 0. -/
def afterBody (body : Program β) (after : List Call) (s : β) : State β :=
  match body.call s with
  | none => .cleanUp after 0
  | some _ => .body s

end WithDevice

open WithDevice in
/-- `init_usb`, `reclamer_interface`, the body from `start` on and the calls `after`. -/
def withDevice {β : Type} (body : Program β) (start : β) (after : List Call) :
    Program (State β) where
  call
    | .init => some .init
    | .openDevice => some .openDeviceWithVidPid
    | .kernelDriver => some .kernelDriverActive
    | .detach => some .detachKernelDriver
    | .claim => some .claimInterface
    | .body s => body.call s
    | .cleanUp calls _ => calls.head?
  resume
    | .init, result =>
      if result.r < 0 then (.cleanUp [] 1, [.initError]) else (.openDevice, [])
    | .openDevice, result =>
      if result.r = 0 then (.cleanUp [.exit] 1, [.deviceNotFound]) else (.kernelDriver, [])
    | .kernelDriver, result => if result.r = 1 then (.detach, []) else (.claim, [])
    | .detach, _ => (.claim, [])
    | .claim, result =>
      if result.r < 0 then (.cleanUp [.close, .exit] 1, [.claimError])
      else (afterBody body after start, [])
    | .body s, result => (afterBody body after (body.resume s result).1, (body.resume s result).2)
    | .cleanUp calls code, _ => (.cleanUp calls.tail code, [])

/-! ## The programs -/

/-- `fonctions_test/flash_read.c`: 32 words, from `addr = 0` to `addr < 32` in steps of 4. The
loop and the calls after it are those of `flash_read`. -/
def testFlashRead : Program (WithDevice.State FlashRead.State) :=
  withDevice (flashRead 64) (FlashRead.loop 64 0) []

/-- `fonctions_test/isp_ids.c`. -/
def testIspIds : Program (WithDevice.State IspIds.State) :=
  withDevice ispIds (.request [0, 0, 0]) closing

namespace FlashRw

/-- The calls of `flash_rw.c`. -/
inductive State where
  | erase
  | write (addr : UInt16)
  | read (s : FlashRead.State)
deriving DecidableEq

/-- The head of the loop that writes: `addr < 5`, although the title says four words. -/
def loop (addr : UInt16) : State :=
  if addr < 5 then .write addr else .read (FlashRead.loop 64 0)

/-- `fake_data`. -/
def fakeData (addr : UInt16) : UInt16 := 0xA000 + addr

/-- `data_write`. -/
def dataWrite (addr : UInt16) : Packet :=
  [0x03, highByte addr, lowByte addr, lowByte (fakeData addr), highByte (fakeData addr)]

end FlashRw

open FlashRw in
/-- The body of `fonctions_test/flash_rw.c`. -/
def flashRw : Program FlashRw.State where
  call
    | .erase => some (.transferOut [0x04])
    | .write addr => some (.transferOut (dataWrite addr))
    | .read s => (flashRead 64).call s
  resume
    | .erase, _ => (loop 0, [])
    | .write addr, _ => (loop (addr + 1), [])
    | .read s, result => (.read ((flashRead 64).resume s result).1, ((flashRead 64).resume s result).2)

/-- `fonctions_test/flash_rw.c`. -/
def testFlashRw : Program (WithDevice.State FlashRw.State) := withDevice flashRw .erase []

namespace MainPc

/-- What is printed about the buttons of a packet. -/
inductive Part where
  | b6Presse
  | b7Presse
  | relaches
deriving DecidableEq

/-- What `main_pc.c` prints, titles left out. -/
inductive Line where
  | ordreEnvoye (dataOut : UInt8)
  | erreurOut (r : ℤ)
  | etat (dataIn : UInt8) (parts : List Part)
deriving DecidableEq

/-- The variables of `main_pc.c`, the number of turns made and the lines printed. -/
structure Vars where
  dataOut : UInt8
  lastDataIn : UInt8
  running : Bool
  turn : ℕ
  printed : List Line
deriving DecidableEq

/-- The calls of the loop: the OUT transfer after a key, and the IN transfer. -/
inductive State where
  | send (v : Vars)
  | receive (v : Vars)
  | quit (v : Vars)
deriving DecidableEq

/-- The buttons of a packet; a pressed button is 0. -/
def parts (dataIn : UInt8) : List Part :=
  (if dataIn &&& (1 : UInt8) <<< 6 = 0 then [.b6Presse] else []) ++
  (if dataIn &&& (1 : UInt8) <<< 7 = 0 then [.b7Presse] else []) ++
  (if dataIn &&& (1 : UInt8) <<< 6 ≠ 0 ∧ dataIn &&& (1 : UInt8) <<< 7 ≠ 0 then [.relaches] else [])

/-- `switch (c)`, if `kbhit` has found a key. -/
def lectureClavier (key : Option Char) (v : Vars) : State :=
  match key with
  | none => .receive v
  | some c =>
    if c = 'e' then .send { v with dataOut := v.dataOut ^^^ (1 : UInt8) <<< 5 }
    else if c = 'z' then .send { v with dataOut := v.dataOut ^^^ (1 : UInt8) <<< 6 }
    else if c = 'a' then .send { v with dataOut := v.dataOut ^^^ (1 : UInt8) <<< 7 }
    else if c = 'q' then .receive { v with running := false }
    else .receive v

/-- After the OUT transfer. -/
def afterSend (v : Vars) (result : Result) : Vars :=
  { v with printed := v.printed ++
      [if result.r = 0 then .ordreEnvoye v.dataOut else .erreurOut result.r] }

/-- After the IN transfer: the buttons are printed if they have changed. -/
def afterReceive (v : Vars) (result : Result) : Vars :=
  match result with
  | ⟨0, [dataIn]⟩ =>
    if dataIn ≠ v.lastDataIn then
      { v with lastDataIn := dataIn, printed := v.printed ++ [.etat dataIn (parts dataIn)] }
    else v
  | _ => v

/-- The end of a turn and the head of the loop, `while (running)`. -/
def endTurn (keys : ℕ → Option Char) (v : Vars) : State :=
  if v.running then lectureClavier (keys (v.turn + 1)) { v with turn := v.turn + 1 } else .quit v

/-- The variables at the start. -/
def initial : Vars := ⟨0x00, 0xFF, true, 0, []⟩

end MainPc

open MainPc in
/-- The loop of `fonctions_test/main_pc.c`; `keys n` is the key `kbhit` finds in turn `n`. -/
def mainPc (keys : ℕ → Option Char) : Program MainPc.State where
  call
    | .send v => some (.transferOut [v.dataOut])
    | .receive _ => some (.transferIn 1)
    | .quit _ => none
  resume
    | .send v, result => (.receive (afterSend v result), [])
    | .receive v, result => (endTurn keys (afterReceive v result), [])
    | .quit v, _ => (.quit v, [])

/-- `fonctions_test/main_pc.c`. -/
def testMainPc (keys : ℕ → Option Char) : Program (WithDevice.State MainPc.State) :=
  withDevice (mainPc keys) (MainPc.lectureClavier (keys 0) MainPc.initial) closing

/-! ## What is held -/

/-- What the frame holds in its states; `held` says what the body holds in its own. -/
inductive FrameHolds {β : Type} (body : Program β) (held : β → List Resource) :
    WithDevice.State β → List Resource → Prop
  | init : FrameHolds body held .init []
  | openDevice : FrameHolds body held .openDevice [.context]
  | kernelDriver : FrameHolds body held .kernelDriver [.device, .context]
  | detach : FrameHolds body held .detach [.device, .context]
  | claim : FrameHolds body held .claim [.device, .context]
  | body (s : β) (hrunning : body.call s ≠ none) : FrameHolds body held (.body s) (held s)
  | cleanUp (k : ℕ) (code : ℤ) :
    FrameHolds body held (.cleanUp (closing.drop k) code) (resources.drop k)

/-- A body that starts with the interface claimed, uses only what it holds, and returns with what
the calls `after` give back. -/
structure Tidy {β : Type} (body : Program β) (start : β) (after : List Call)
    (held : β → List Resource) : Prop where
  start : held start = resources
  call : ∀ s call result, body.call s = some call →
    Along hold Permitted (held s) (uses (call, result)) ∧
      held (body.resume s result).1 = run hold (held s) (uses (call, result))
  returned : ∀ s, body.call s = none →
    ∃ k, after = closing.drop k ∧ held s = resources.drop k

/-- What a call uses is there, every resource is held in the order it was acquired, and when the
program returns everything has been given back once. -/
structure Clean {σ : Type} (P : Program σ) (h : Host σ) : Prop where
  disciplined : Disciplined (handleUses h.calls)
  undone : P.call h.state = none → heldAfter (handleUses h.calls) = []
  once : P.call h.state = none → ∀ x,
    (handleUses h.calls).count (.release x) = (handleUses h.calls).count (.acquire x)

section
variable {β : Type} {body : Program β} {start : β} {after : List Call} {held : β → List Resource}

theorem frameHolds_afterBody (h : Tidy body start after held) (s : β) :
    FrameHolds body held (WithDevice.afterBody body after s) (held s) := by
  unfold WithDevice.afterBody
  split
  next hcall =>
    obtain ⟨k, rfl, hheld⟩ := h.returned s hcall
    rw [hheld]
    exact .cleanUp k 0
  next call hcall => exact .body s (by rw [hcall]; exact Option.some_ne_none call)

/-- A call of the frame or of the body finds what it needs. -/
theorem frameHolds_call (h : Tidy body start after held) {s : WithDevice.State β}
    {now : List Resource} (hnow : FrameHolds body held s now) {call : Call}
    (hcall : (withDevice body start after).call s = some call) (result : Result) :
    Along hold Permitted now (uses (call, result)) ∧
      FrameHolds body held ((withDevice body start after).resume s result).1
        (run hold now (uses (call, result))) := by
  cases hnow with
  | init =>
    cases hcall
    dsimp only [uses, withDevice]
    split_ifs
    · exact ⟨trivial, .cleanUp 3 1⟩
    · exact ⟨⟨List.not_mem_nil, trivial⟩, .openDevice⟩
  | openDevice =>
    cases hcall
    dsimp only [uses, withDevice]
    split_ifs
    · exact ⟨⟨by simp [Permitted], trivial⟩, .cleanUp 2 1⟩
    · exact ⟨⟨by simp [Permitted], by simp [Permitted, hold], trivial⟩, .kernelDriver⟩
  | kernelDriver =>
    cases hcall
    refine ⟨⟨by simp [Permitted], trivial⟩, ?_⟩
    dsimp only [uses, withDevice]
    split_ifs
    · exact .detach
    · exact .claim
  | detach =>
    cases hcall
    exact ⟨⟨by simp [Permitted], trivial⟩, .claim⟩
  | claim =>
    cases hcall
    dsimp only [uses, withDevice]
    split_ifs
    · exact ⟨⟨by simp [Permitted], trivial⟩, .cleanUp 1 1⟩
    · refine ⟨⟨by simp [Permitted], by simp [Permitted, hold], trivial⟩, ?_⟩
      have hstart := frameHolds_afterBody h start
      rw [h.start] at hstart
      exact hstart
  | body s hrunning =>
    obtain ⟨hpermitted, hheld⟩ := h.call s call result hcall
    refine ⟨hpermitted, ?_⟩
    rw [← hheld]
    exact frameHolds_afterBody h _
  | cleanUp k code =>
    -- the three calls of `closing`, and nothing after them
    rcases k with _ | _ | _ | k
    · cases hcall
      exact ⟨⟨by simp [Permitted, resources], rfl, trivial⟩, .cleanUp 1 code⟩
    · cases hcall
      exact ⟨⟨rfl, trivial⟩, .cleanUp 2 code⟩
    · cases hcall
      exact ⟨⟨rfl, trivial⟩, .cleanUp 3 code⟩
    · have hnil : closing.drop (k + 3) = [] := List.drop_eq_nil_of_le (Nat.le_add_left 3 k)
      have hnone : (closing.drop (k + 3)).head? = some call := hcall
      rw [hnil] at hnone
      cases hnone

/-- What the program holds along a run. -/
structure FrameInv (body : Program β) (held : β → List Resource) (h : Host (WithDevice.State β)) : Prop where
  disciplined : Disciplined (handleUses h.calls)
  holds : FrameHolds body held h.state (heldAfter (handleUses h.calls))

theorem FrameInv.step (hbody : Tidy body start after held) {h : Host (WithDevice.State β)}
    (hinv : FrameInv body held h) (result : Result) :
    FrameInv body held ((withDevice body start after).step h result) := by
  cases hcall : (withDevice body start after).call h.state with
  | none => rwa [Program.step_returned _ hcall]
  | some call =>
    obtain ⟨hpermitted, hholds⟩ := frameHolds_call hbody hinv.holds hcall result
    rw [Program.step_of_call _ hcall]
    constructor
    · rw [handleUses_append, handleUses_singleton, disciplined_append]
      exact ⟨hinv.disciplined, hpermitted⟩
    · rw [handleUses_append, handleUses_singleton, heldAfter_append]
      exact hholds

/-- Nothing is held when the program has returned. -/
theorem frameHolds_returned {s : WithDevice.State β} {now : List Resource}
    (hnow : FrameHolds body held s now) (hcall : (withDevice body start after).call s = none) :
    now = [] := by
  cases hnow with
  | body s hrunning => exact absurd hcall hrunning
  | cleanUp k code =>
    have hdrop : closing.drop k = [] := List.head?_eq_none_iff.mp hcall
    exact List.drop_eq_nil_of_le (show closing.length ≤ k from List.drop_eq_nil_iff.mp hdrop)
  | _ => cases hcall

/-- A program whose body is tidy is clean in every run. -/
theorem Tidy.clean (hbody : Tidy body start after held) (results : List Result) :
    Clean (withDevice body start after)
      (run (withDevice body start after).step (Program.start .init) results) := by
  have hinv : FrameInv body held
      (run (withDevice body start after).step (Program.start .init) results) :=
    run_invariant (fun _ result hh => hh.step hbody result) ⟨trivial, .init⟩ results
  have hundone : (withDevice body start after).call
      (run (withDevice body start after).step (Program.start .init) results).state = none →
        heldAfter (handleUses
          (run (withDevice body start after).step (Program.start .init) results).calls) = [] :=
    frameHolds_returned hinv.holds
  exact ⟨hinv.disciplined, hundone, fun hcall => hinv.disciplined.count_eq (hundone hcall)⟩

end

/-! ## The test programs -/

/-- A body that makes transfers only. -/
theorem tidy_transfers {β : Type} {body : Program β} (start : β)
    (h : ∀ s call, body.call s = some call → ∀ result, uses (call, result) = [.use .device]) :
    Tidy body start closing fun _ => resources := by
  refine ⟨rfl, fun s call result hcall => ?_, fun s _ => ⟨0, rfl, rfl⟩⟩
  rw [h s call hcall result]
  exact ⟨⟨show Resource.device ∈ resources by decide, trivial⟩, rfl⟩

/-- What `flash_read` holds. -/
def heldRead : FlashRead.State → List Resource
  | .close => resources.drop 1
  | .exit => resources.drop 2
  | .returned => resources.drop 3
  | _ => resources

theorem heldRead_loop (size : UInt32) (addr : UInt16) :
    heldRead (FlashRead.loop size addr) = resources := by
  unfold FlashRead.loop
  split_ifs <;> rfl

/-- `flash_read` closes the device in the right order. -/
theorem tidy_flashRead (size : UInt32) :
    Tidy (flashRead size) (FlashRead.loop size 0) [] heldRead := by
  refine ⟨heldRead_loop size 0, fun s call result hcall => ?_, fun s hcall => ?_⟩
  · cases s with
    | request addr =>
      cases hcall
      refine ⟨⟨show Resource.device ∈ resources by decide, trivial⟩, ?_⟩
      show heldRead ((flashRead size).resume (.request addr) result).1 = resources
      dsimp only [flashRead]
      split_ifs
      · exact heldRead_loop ..
      · rfl
    | receive addr =>
      cases hcall
      refine ⟨⟨show Resource.device ∈ resources by decide, trivial⟩, ?_⟩
      show heldRead ((flashRead size).resume (.receive addr) result).1 = resources
      dsimp only [flashRead]
      split_ifs
      · rfl
      · exact heldRead_loop ..
      · exact heldRead_loop ..
    | release =>
      cases hcall
      exact ⟨⟨by simp [Permitted, heldRead, resources], rfl, trivial⟩, rfl⟩
    | close | exit =>
      cases hcall
      exact ⟨⟨rfl, trivial⟩, rfl⟩
    | returned => cases hcall
  · cases s with
    | returned => exact ⟨3, rfl, rfl⟩
    | _ => cases hcall

/-- What `flash_rw.c` holds. -/
def heldRw : FlashRw.State → List Resource
  | .read s => heldRead s
  | _ => resources

theorem heldRw_loop (addr : UInt16) : heldRw (FlashRw.loop addr) = resources := by
  unfold FlashRw.loop
  split_ifs
  · rfl
  · exact heldRead_loop 64 0

theorem tidy_flashRw : Tidy flashRw .erase [] heldRw := by
  refine ⟨rfl, fun s call result hcall => ?_, fun s hcall => ?_⟩
  · cases s with
    | erase =>
      cases hcall
      exact ⟨⟨show Resource.device ∈ resources by decide, trivial⟩, heldRw_loop 0⟩
    | write addr =>
      cases hcall
      exact ⟨⟨show Resource.device ∈ resources by decide, trivial⟩, heldRw_loop (addr + 1)⟩
    | read s => exact (tidy_flashRead 64).call s call result hcall
  · cases s with
    | read s => exact (tidy_flashRead 64).returned s hcall
    | _ => cases hcall

/-- In every run, whatever libusb returns and whatever keys are pressed, the test programs use
the device only while it is open, release it in the order interface, device, context, and give
back once what they have acquired. -/
theorem testPrograms_clean (keys : ℕ → Option Char) (results : List Result) :
    Clean testFlashRead (run testFlashRead.step (Program.start .init) results) ∧
    Clean testIspIds (run testIspIds.step (Program.start .init) results) ∧
    Clean testFlashRw (run testFlashRw.step (Program.start .init) results) ∧
    Clean (testMainPc keys) (run (testMainPc keys).step (Program.start .init) results) := by
  have hids : Tidy ispIds (.request [0, 0, 0]) closing fun _ => resources := by
    apply tidy_transfers
    intro s call hcall result
    cases s <;> cases hcall <;> rfl
  have hpc : Tidy (mainPc keys) (MainPc.lectureClavier (keys 0) MainPc.initial) closing
      fun _ => resources := by
    apply tidy_transfers
    intro s call hcall result
    cases s <;> cases hcall <;> rfl
  exact ⟨(tidy_flashRead 64).clean results, hids.clean results, tidy_flashRw.clean results,
    hpc.clean results⟩

end Software
end AvrProgrammer
