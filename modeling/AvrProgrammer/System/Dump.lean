import AvrProgrammer.System.Compose
import AvrProgrammer.Software.FlashRead
import Mathlib.Tactic.NormNum

/-!
# Reading the flash

`flash_read` asks for a block, waits for its eight bytes and discards packets of one byte, the
buttons. A request goes through three phases: it is in the OUT bank, the firmware has noted its
address, its reply is in the IN bank. Without failures nothing else can happen: the IN bank
holds a button packet or the reply to the request `flash_read` waits for.

Every phase has a party that moves it on, the host or the main loop, so that a schedule in
which both act again and again reads the whole flash.
-/

namespace AvrProgrammer
namespace System

open PagedFlash Runs Firmware Software
open Software.FlashRead (State loop blockWords)

variable {chip : Chip}

/-! ## Blocks -/

/-- The message for the block at `a`: the flash words `a` to `a + 3`. -/
def blockMessage (chip : Chip) (flash : Memory Word) (a : UInt16) : Message :=
  .block a ([0, 1, 2, 3].map fun i =>
    address (flash (chip.index (a + i))).hi (flash (chip.index (a + i))).lo)

/-- The blocks of a flash of `size` bytes: 0, 4, 8 and so on. -/
def blocks (chip : Chip) (flash : Memory Word) (size : UInt32) : List Message :=
  (List.range (size.toNat / 8)).map fun i => blockMessage chip flash (UInt16.ofNat (4 * i))

/-- The eight bytes of a block are printed as its words. -/
theorem blockWords_block (t : Target chip) (a : UInt16) :
    Message.block a (blockWords (t.block a)) = blockMessage chip t.flash a := rfl

theorem block_length (t : Target chip) (a : UInt16) : (t.block a).length = 8 := rfl

/-! ## Phases -/

/-- The request for the block at `a`. -/
def readRequest (a : UInt16) : Packet := [0x02, highByte a, lowByte a]

/-- No request is pending in the firmware. -/
def Idle (d : Device chip) : Prop := d.mcu.commandePC ≠ 0x01 ∧ d.mcu.commandePC ≠ 0x02

theorem idle_zero {d : Device chip} (h : d.mcu.commandePC = 0) : Idle d := by
  rw [Idle, h]
  decide

/-- The IN bank holds at most a button packet. -/
def ButtonsOnly (d : Device chip) : Prop := ∀ q, d.mcu.inBank = some q → q.length = 1

/-- The phases of the request for the block at `a`. -/
inductive Phase (a : UInt16) (d : Device chip) : State → Prop
  | request (hout : d.mcu.outBank = none) (hidle : Idle d) (hin : ButtonsOnly d) :
    Phase a d (.request a)
  | pending (hout : d.mcu.outBank = some ⟨readRequest a, readRequest a⟩) (hidle : Idle d)
    (hin : ButtonsOnly d) : Phase a d (.receive a)
  | commanded (hout : d.mcu.outBank = none) (hcommand : d.mcu.commandePC = 0x02)
    (haddr : d.mcu.flashAddress = a) (hin : ButtonsOnly d) : Phase a d (.receive a)
  | replied (hout : d.mcu.outBank = none) (hidle : Idle d)
    (hreply : d.mcu.inBank = some (d.mcu.target.block a)) : Phase a d (.receive a)

/-! ## Progress -/

/-- The two parties. -/
inductive Party where
  | host
  | device
deriving DecidableEq

/-- Who acts. -/
def party : Action → Party
  | .firmware _ => .device
  | _ => .host

/-- Who moves the request on. -/
def helpful (d : Device chip) : State → Party
  | .receive _ =>
    if d.mcu.outBank.isSome then .device
    else if d.mcu.commandePC = 0x02 ∧ d.mcu.inBank.isNone then .device
    else .host
  | _ => .host

/-- What is left to do for the request, or to close the device. -/
def weight (d : Device chip) : State → ℕ
  | .request _ => 9
  | .receive _ =>
    if d.mcu.outBank.isSome then (if d.next = .dataIn then 8 else 7)
    else if d.mcu.commandePC = 0x02 then
      (if d.mcu.inBank.isSome then 5 else if d.next = .dataOut then 4 else 3)
    else 2
  | .release => 3
  | .close => 2
  | .exit => 1
  | .returned => 0

theorem weight_receive_le (d : Device chip) (a : UInt16) : weight d (.receive a) ≤ 8 := by
  simp only [weight]
  split_ifs <;> decide

/-- The main loop keeps the phase and the flash. It moves the request on, or it is the turn of
the host and stays so. -/
theorem Phase.firmware {a : UInt16} {d : Device chip} {st : State} (h : Phase a d st)
    {pinC : UInt8} {d' : Device chip} (heffect : Firmware.Effect d (.firmware pinC) d') :
    Phase a d' st ∧ d'.mcu.target.flash = d.mcu.target.flash ∧
      (weight d' st < weight d st ∨
        weight d' st = weight d st ∧ helpful d' st = helpful d st ∧ helpful d st = .host) := by
  cases h with
  | request hout hidle hin =>
    cases heffect with
    | serve _ p hnext hbank => rw [hout] at hbank; cases hbank
    | idleOUT | busyIN => exact ⟨.request hout hidle hin, rfl, .inr ⟨rfl, rfl, rfl⟩⟩
    | answer _ hnext hbank =>
      rw [Mcu.answered_buttons (m := { d.mcu with pinC := pinC }) hidle.1 hidle.2]
      refine ⟨.request hout hidle ?_, rfl, .inr ⟨rfl, rfl, rfl⟩⟩
      rintro q ⟨⟩
      rfl
  | pending hout hidle hin =>
    cases heffect with
    | idleOUT _ hnext hbank => rw [hout] at hbank; cases hbank
    | serve _ p hnext hbank =>
      rw [hout] at hbank
      cases hbank
      rw [Mcu.processed_read (m := { d.mcu with pinC := pinC }) (p := readRequest a) rfl]
      refine ⟨.commanded rfl rfl (address_bytes a) hin, rfl, .inl ?_⟩
      simp only [weight, hout, hnext, Option.isSome_some, Option.isSome_none, if_true,
        Bool.false_eq_true, if_false, reduceCtorEq]
      split_ifs <;> decide
    | busyIN _ hnext hbank =>
      refine ⟨.pending hout hidle hin, rfl, .inl ?_⟩
      simp [weight, hout, hnext]
    | answer _ hnext hbank =>
      rw [Mcu.answered_buttons (m := { d.mcu with pinC := pinC }) hidle.1 hidle.2]
      refine ⟨.pending hout hidle ?_, rfl, .inl ?_⟩
      · rintro q ⟨⟩
        rfl
      · simp [weight, hout, hnext]
  | commanded hout hcommand haddr hin =>
    cases heffect with
    | serve _ p hnext hbank => rw [hout] at hbank; cases hbank
    | idleOUT _ hnext hbank =>
      refine ⟨.commanded hout hcommand haddr hin, rfl, ?_⟩
      cases hin' : d.mcu.inBank with
      | none => exact .inl (by simp [weight, hout, hcommand, hin', hnext])
      | some q => exact .inr (by simp [weight, helpful, hout, hcommand, hin'])
    | busyIN _ hnext hbank =>
      refine ⟨.commanded hout hcommand haddr hin, rfl, .inr ?_⟩
      have hfull : d.mcu.inBank.isNone = false := by simpa using hbank
      simp [weight, helpful, hout, hcommand, hbank, hfull]
    | answer _ hnext hbank =>
      rw [Mcu.answered_read (m := { d.mcu with pinC := pinC }) hcommand]
      refine ⟨.replied hout (idle_zero rfl) ?_, rfl, .inl ?_⟩
      · exact congrArg (fun a => some (d.mcu.target.block a)) haddr
      · simp [weight, hout, hcommand, hbank, hnext]
  | replied hout hidle hreply =>
    cases heffect with
    | serve _ p hnext hbank => rw [hout] at hbank; cases hbank
    | answer _ hnext hbank => rw [hreply] at hbank; cases hbank
    | idleOUT | busyIN =>
      refine ⟨.replied hout hidle hreply, rfl, .inr ⟨?_, ?_, ?_⟩⟩
      all_goals simp [weight, helpful, hout, hidle.2]

/-- The device after the host has taken the packet of the IN bank. -/
def emptied (d : Device chip) : Device chip := Firmware.step d .poll

/-- The request is sent. -/
theorem Phase.sent {a : UInt16} {d : Device chip} (h : Phase a d (.request a)) :
    Phase a (Firmware.step d (.arrive (readRequest a))) (.receive a) ∧
      (Firmware.step d (.arrive (readRequest a))).mcu.target.flash = d.mcu.target.flash := by
  cases h with
  | request hout hidle hin =>
    rw [arrive_eq hout]
    exact ⟨.pending rfl hidle hin, rfl⟩

/-- The IN bank holds a button packet, and taking it keeps the phase; or it holds the reply,
and taking it ends the phase. -/
theorem Phase.taken {a : UInt16} {d : Device chip} (h : Phase a d (.receive a)) {q : Packet}
    (hq : d.mcu.inBank = some q) :
    (q.length = 1 ∧ Phase a (emptied d) (.receive a) ∧
      (weight (emptied d) (.receive a) < weight d (.receive a) ∨
        weight (emptied d) (.receive a) = weight d (.receive a) ∧
        helpful (emptied d) (.receive a) = .device ∧ helpful d (.receive a) = .device)) ∨
    q = d.mcu.target.block a ∧ ∀ a', Phase a' (emptied d) (.request a') := by
  have hempty : ButtonsOnly (emptied d) := by
    rintro q' ⟨⟩
  cases h with
  | pending hout hidle hin =>
    refine .inl ⟨hin q hq, .pending hout hidle hempty, .inr ?_⟩
    simp [weight, helpful, emptied, Firmware.step, hout]
  | commanded hout hcommand haddr hin =>
    refine .inl ⟨hin q hq, .commanded hout hcommand haddr hempty, .inl ?_⟩
    simp only [weight, emptied, Firmware.step, hout, hcommand, hq, Option.isSome_none,
      Option.isSome_some, Bool.false_eq_true, if_true, if_false]
    split_ifs <;> decide
  | replied hout hidle hreply =>
    rw [hreply] at hq
    cases hq
    exact .inr ⟨rfl, fun a' => .request hout hidle hempty⟩

/-- While the IN bank is empty it is the turn of the main loop. -/
theorem Phase.helpful_of_none {a : UInt16} {d : Device chip} (h : Phase a d (.receive a))
    (hempty : d.mcu.inBank = none) : helpful d (.receive a) = .device := by
  cases h with
  | pending hout => simp [helpful, hout]
  | commanded hout hcommand => simp [helpful, hout, hcommand, hempty]
  | replied hout hidle hreply =>
    rw [hreply] at hempty
    cases hempty

/-! ## The loop of `flash_read` -/

section
variable (size : UInt32) {h : Host State} {a : UInt16} {q : Packet}

/-- `flash_read` waits for the answer to a request it has sent. -/
theorem step_request (hstate : h.state = .request a) :
    (flashRead size).step h ⟨0, []⟩ =
      ⟨.receive a, h.calls ++ [(.transferOut (readRequest a), ⟨0, []⟩)], h.out⟩ := by
  have hcall : (flashRead size).call h.state = some (.transferOut (readRequest a)) := by
    rw [hstate]
    rfl
  have hresume : (flashRead size).resume (.request a) ⟨0, []⟩ = (.receive a, []) := rfl
  rw [Program.step_of_call _ hcall, hstate, hresume, List.append_nil]

/-- `flash_read` discards a packet of one byte. -/
theorem step_button (hstate : h.state = .receive a) (hlen : q.length = 1) :
    (flashRead size).step h (taken 8 q) =
      ⟨.receive a, h.calls ++ [(.transferIn 8, ⟨0, q⟩)], h.out⟩ := by
  have hcall : (flashRead size).call h.state = some (.transferIn 8) := by rw [hstate]; rfl
  have hresume := flashRead_button size a hlen
  rw [Program.step_of_call _ hcall, taken_of_le (by omega), hstate, hresume, List.append_nil]

/-- `flash_read` prints a packet of eight bytes and goes on. -/
theorem step_block (hstate : h.state = .receive a) (hlen : q.length = 8) :
    (flashRead size).step h (taken 8 q) =
      ⟨loop size (a + 4), h.calls ++ [(.transferIn 8, ⟨0, q⟩)],
        h.out ++ [.block a (blockWords q)]⟩ := by
  have hcall : (flashRead size).call h.state = some (.transferIn 8) := by rw [hstate]; rfl
  have hresume := flashRead_block size a hlen
  rw [Program.step_of_call _ hcall, taken_of_le (by omega), hstate, hresume]

/-- A request that fails is reported, and `flash_read` goes on. -/
theorem step_requestError {result : Result} (hstate : h.state = .request a)
    (hr : result.r ≠ 0) :
    (flashRead size).step h result =
      ⟨loop size (a + 4), h.calls ++ [(.transferOut (readRequest a), result)],
        h.out ++ [.requestError a]⟩ := by
  have hcall : (flashRead size).call h.state = some (.transferOut (readRequest a)) := by
    rw [hstate]
    rfl
  have hresume : (flashRead size).resume (.request a) result
      = (loop size (a + 4), [.requestError a]) := if_pos hr
  rw [Program.step_of_call _ hcall, hstate, hresume]

/-- So is a reception that fails or brings another number of bytes. -/
theorem step_readError {result : Result} (hstate : h.state = .receive a)
    (h1 : ¬ (result.r = 0 ∧ result.data.length = 1))
    (h8 : ¬ (result.r = 0 ∧ result.data.length = 8)) :
    (flashRead size).step h result =
      ⟨loop size (a + 4), h.calls ++ [(.transferIn 8, result)], h.out ++ [.readError a]⟩ := by
  have hcall : (flashRead size).call h.state = some (.transferIn 8) := by rw [hstate]; rfl
  have hresume := flashRead_error size a h1 h8
  rw [Program.step_of_call _ hcall, hstate, hresume]

end

/-- A flash of whole blocks whose addresses, and the one after the last, have 16 bits. -/
structure WholeBlocks (size : UInt32) : Prop where
  blocks : size.toNat % 8 = 0
  limit : size.toNat / 2 ≤ 65532

section
variable {size : UInt32}

theorem WholeBlocks.loop_eq (hsize : WholeBlocks size) {i : ℕ} (hi : i ≤ size.toNat / 8) :
    loop size (UInt16.ofNat (4 * i)) =
      if i < size.toNat / 8 then .request (UInt16.ofNat (4 * i)) else .release := by
  have hblocks := hsize.blocks
  have hlimit := hsize.limit
  have haddr : (UInt16.ofNat (4 * i)).toUInt32 < size / 2 ↔ i < size.toNat / 8 := by
    rw [UInt32.lt_iff_toNat_lt]
    simp only [UInt16.toNat_toUInt32, UInt16.toNat_ofNat', UInt32.toNat_div, UInt32.reduceToNat]
    omega
  simp only [loop, haddr]

theorem next_address (i : ℕ) : UInt16.ofNat (4 * i) + 4 = UInt16.ofNat (4 * (i + 1)) := by
  apply UInt16.toNat_inj.mp
  simp only [UInt16.toNat_add, UInt16.toNat_ofNat', UInt16.reduceToNat]
  omega

/-- The blocks still to print, the one under way included. -/
def left (size : UInt32) : State → ℕ
  | .request a | .receive a => size.toNat / 8 - a.toNat / 4
  | _ => 0

theorem WholeBlocks.block_number (hsize : WholeBlocks size) {i : ℕ}
    (hi : i ≤ size.toNat / 8) : (UInt16.ofNat (4 * i)).toNat / 4 = i := by
  have hlimit := hsize.limit
  rw [UInt16.toNat_ofNat']
  omega

theorem blocks_take_succ (chip : Chip) (flash : Memory Word) {i : ℕ}
    (hi : i < size.toNat / 8) :
    (blocks chip flash size).take (i + 1) =
      (blocks chip flash size).take i ++ [blockMessage chip flash (UInt16.ofNat (4 * i))] := by
  have hlen : i < (blocks chip flash size).length := by simpa [blocks] using hi
  rw [List.take_succ_eq_append_getElem hlen]
  simp [blocks]

end

/-! ## The invariant -/

/-- Closing the device. -/
inductive Closing : State → Prop
  | release : Closing .release
  | close : Closing .close
  | exit : Closing .exit
  | returned : Closing .returned

/-- A call that is no transfer closes the device. -/
theorem step_control (size : UInt32) {h : Host State} {call : Call}
    (hcall : (flashRead size).call h.state = some call) (hcontrol : IsControl call)
    (result : Result) :
    Closing ((flashRead size).step h result).state ∧
      ((flashRead size).step h result).out = h.out := by
  obtain ⟨state, calls, out⟩ := h
  cases state with
  | request | receive =>
    cases hcall
    exact absurd hcontrol not_false
  | release => exact ⟨.close, List.append_nil out⟩
  | close => exact ⟨.exit, List.append_nil out⟩
  | exit => exact ⟨.returned, List.append_nil out⟩
  | returned => cases hcall

/-- Block `i` is under way and the ones before it are printed, or all are. -/
inductive Progress (flash : Memory Word) (size : UInt32) (h : Host State) (d : Device chip) :
    Prop
  | reading (i : ℕ) (hi : i < size.toNat / 8) (hphase : Phase (UInt16.ofNat (4 * i)) d h.state)
    (hflash : d.mcu.target.flash = flash) (hout : h.out = (blocks chip flash size).take i) :
    Progress flash size h d
  | closing (hstate : Closing h.state) (hout : h.out = blocks chip flash size) :
    Progress flash size h d

/-- The block `flash_read` is at. -/
theorem Progress.active {flash : Memory Word} {size : UInt32} {h : Host State}
    {d : Device chip} (hprogress : Progress flash size h d) {a : UInt16}
    (hstate : h.state = .request a ∨ h.state = .receive a) :
    ∃ i < size.toNat / 8, a = UInt16.ofNat (4 * i) ∧ Phase a d h.state ∧
      d.mcu.target.flash = flash ∧ h.out = (blocks chip flash size).take i := by
  cases hprogress with
  | reading i hi hphase hflash hout =>
    have ha : a = UInt16.ofNat (4 * i) := by
      rcases hstate with hstate | hstate
      all_goals
        rw [hstate] at hphase
        cases hphase <;> rfl
    exact ⟨i, hi, ha, ha ▸ hphase, hflash, hout⟩
  | closing hclosing hout =>
    generalize h.state = st at hstate hclosing
    cases hclosing <;> simp at hstate

/-- A call other than a transfer is made at the end. -/
theorem Progress.closing_of_call {flash : Memory Word} {size : UInt32} {h : Host State}
    {d : Device chip} (hprogress : Progress flash size h d) {call : Call}
    (hcall : (flashRead size).call h.state = some call) (hcontrol : IsControl call) :
    Closing h.state ∧ h.out = blocks chip flash size := by
  cases hprogress with
  | reading i hi hphase hflash hout =>
    generalize h.state = st at hcall hphase
    cases hphase <;> cases hcall <;> exact absurd hcontrol not_false
  | closing hclosing hout => exact ⟨hclosing, hout⟩

/-- The blocks are printed in order, and all of them at the end. -/
theorem Progress.out {flash : Memory Word} {size : UInt32} {h : Host State} {d : Device chip}
    (hprogress : Progress flash size h d) :
    h.out <+: blocks chip flash size ∧ (h.state = .returned → h.out = blocks chip flash size) := by
  cases hprogress with
  | reading i hi hphase hflash hout =>
    rw [hout]
    refine ⟨List.take_prefix .., fun hstate => ?_⟩
    rw [hstate] at hphase
    cases hphase
  | closing hclosing hout => exact ⟨hout ▸ List.prefix_refl _, fun _ => hout⟩

structure DumpInv (flash : Memory Word) (size : UInt32) (s : Composed State chip) : Prop where
  settled : Settled s.device.mcu
  progress : Progress flash size s.host s.device

/-- What is left to do. -/
def measure (size : UInt32) (s : Composed State chip) : ℕ :=
  10 * left size s.host.state + weight s.device s.host.state

/-- An action moves the run on, or it is the turn of the other party and stays so, or all is
done. -/
def Advances (size : UInt32) (s : Composed State chip) (a : Action) (s' : Composed State chip) :
    Prop :=
  measure size s' < measure size s ∨
    measure size s' = measure size s ∧
      (0 < measure size s → party a ≠ helpful s.device s.host.state ∧
        helpful s'.device s'.host.state = helpful s.device s.host.state)

section
variable {flash : Memory Word} {size : UInt32} {s : Composed State chip}

/-- The main loop acts. -/
theorem DumpInv.firmware (hs : DumpInv flash size s) (pinC : UInt8) :
    DumpInv flash size ⟨s.host, Firmware.step s.device (.firmware pinC)⟩ ∧
      Advances size s (.firmware pinC) ⟨s.host, Firmware.step s.device (.firmware pinC)⟩ := by
  have heffect := Firmware.step_effect hs.settled (.firmware pinC)
  have hsettled := hs.settled.step (.firmware pinC)
  generalize Firmware.step s.device (.firmware pinC) = d' at heffect hsettled ⊢
  cases hs.progress with
  | reading i hi hphase hflash hout =>
    obtain ⟨hphase', hflash', hweight⟩ := hphase.firmware heffect
    refine ⟨⟨hsettled, .reading i hi hphase' (hflash'.trans hflash) hout⟩, ?_⟩
    simp only [Advances, measure]
    rcases hweight with hlt | ⟨hsame, hstay, hhost⟩
    · exact .inl (Nat.add_lt_add_left hlt _)
    · refine .inr ⟨by rw [hsame], fun _ => ⟨?_, hstay⟩⟩
      rw [hhost]
      exact Party.noConfusion
  | closing hstate hout =>
    refine ⟨⟨hsettled, .closing hstate hout⟩, .inr ?_⟩
    simp only [measure]
    generalize s.host.state = st at hstate ⊢
    cases hstate <;> exact ⟨rfl, fun _ => ⟨Party.noConfusion, rfl⟩⟩

/-- The call the host waits in completes, or it waits on. -/
theorem DumpInv.transfer (hsize : WholeBlocks size) (hs : DumpInv flash size s)
    {s' : Composed State chip} (heffect : Effect (flashRead size) s .transfer s') :
    DumpInv flash size s' ∧ Advances size s .transfer s' := by
  cases heffect with
  | sent p hcall hbank =>
    obtain ⟨a, hstate, rfl⟩ := flashRead_call_transferOut hcall
    obtain ⟨i, hi, rfl, hphase, hflash, hout⟩ := hs.progress.active (.inl hstate)
    rw [hstate] at hphase
    obtain ⟨hphase', hflash'⟩ := hphase.sent
    have hstep := step_request size hstate
    refine ⟨⟨hs.settled.step _, .reading i hi ?_ (hflash'.trans hflash) ?_⟩, .inl ?_⟩
    · rw [hstep]
      exact hphase'
    · rw [hstep]
      exact hout
    · simp only [measure, hstep, hstate]
      exact Nat.add_lt_add_left (Nat.lt_succ_of_le (weight_receive_le _ _)) _
  | blockedOUT p hcall hfull =>
    obtain ⟨a, hstate, rfl⟩ := flashRead_call_transferOut hcall
    obtain ⟨i, hi, rfl, hphase, -, -⟩ := hs.progress.active (.inl hstate)
    rw [hstate] at hphase
    cases hphase with
    | request hout => simp [hout] at hfull
  | received size' q hcall hq =>
    obtain ⟨a, hstate, rfl⟩ := flashRead_call_transferIn hcall
    obtain ⟨i, hi, rfl, hphase, hflash, hout⟩ := hs.progress.active (.inr hstate)
    rw [hstate] at hphase
    rcases hphase.taken hq with ⟨hlen, hphase', hweight⟩ | ⟨rfl, hnext⟩
    · have hstep := step_button size hstate hlen
      refine ⟨⟨hs.settled.step _, .reading i hi ?_ hflash ?_⟩, ?_⟩
      · rw [hstep]
        exact hphase'
      · rw [hstep]
        exact hout
      · simp only [Advances, measure, hstep, hstate]
        rcases hweight with hlt | ⟨hsame, hnext, hnow⟩
        · exact .inl (Nat.add_lt_add_left hlt _)
        · refine .inr ⟨congrArg _ hsame, fun _ => ⟨?_, hnext.trans hnow.symm⟩⟩
          rw [hnow]
          exact Party.noConfusion
    · have hstep := step_block size hstate
        (block_length s.device.mcu.target (UInt16.ofNat (4 * i)))
      have hprinted : ((flashRead size).step s.host (System.taken 8
          (s.device.mcu.target.block (UInt16.ofNat (4 * i))))).out
            = (blocks chip flash size).take (i + 1) := by
        rw [hstep, blocks_take_succ chip flash hi, hout, blockWords_block, hflash]
      rw [next_address, hsize.loop_eq hi] at hstep
      by_cases hlast : i + 1 < size.toNat / 8
      · rw [if_pos hlast] at hstep
        refine ⟨⟨hs.settled.step _, .reading (i + 1) hlast ?_ hflash hprinted⟩, .inl ?_⟩
        · rw [hstep]
          exact hnext _
        · have hnow := hsize.block_number (Nat.le_of_lt hi)
          have hthen := hsize.block_number hi
          simp only [measure, hstep, hstate, left, weight, hnow, hthen]
          omega
      · rw [if_neg hlast] at hstep
        refine ⟨⟨hs.settled.step _, .closing ?_ ?_⟩, .inl ?_⟩
        · rw [hstep]
          exact .release
        · rw [hprinted, List.take_of_length_le]
          simpa [blocks] using Nat.le_of_not_lt hlast
        · have hnow := hsize.block_number (Nat.le_of_lt hi)
          simp only [measure, hstep, hstate, left, weight, hnow]
          omega
  | blockedIN size' hcall hempty =>
    obtain ⟨a, hstate, rfl⟩ := flashRead_call_transferIn hcall
    obtain ⟨i, hi, rfl, hphase, -, -⟩ := hs.progress.active (.inr hstate)
    rw [hstate] at hphase
    refine ⟨hs, .inr ⟨rfl, fun _ => ⟨?_, rfl⟩⟩⟩
    rw [hstate, hphase.helpful_of_none hempty]
    exact Party.noConfusion
  | called call hcall hcontrol =>
    obtain ⟨hclosing, hout⟩ := hs.progress.closing_of_call hcall hcontrol
    obtain ⟨⟨state, calls, out⟩, d⟩ := s
    simp only at hclosing hout
    cases hclosing with
    | returned => cases hcall
    | release | close | exit =>
      refine ⟨⟨hs.settled, .closing (by constructor) ?_⟩, .inl (Nat.lt_succ_self _)⟩
      exact (List.append_nil out).trans hout
  | returned hcall =>
    have hreturned : s.host.state = .returned := by
      generalize s.host.state = st at hcall ⊢
      cases st <;> first | rfl | cases hcall
    have hdone : measure size s = 0 := by simp [measure, left, weight, hreturned]
    exact ⟨hs, .inr ⟨rfl, fun hpos => absurd hdone (Nat.ne_of_gt hpos)⟩⟩

/-- No transfer fails and nobody else polls. -/
def FaultFree (a : Action) : Prop := a ≠ .timeout ∧ a ≠ .poll

instance (a : Action) : Decidable (FaultFree a) := inferInstanceAs (Decidable (_ ∧ _))

theorem DumpInv.step (hsize : WholeBlocks size) (hs : DumpInv flash size s) {a : Action}
    (ha : FaultFree a) :
    DumpInv flash size (step (flashRead size) s a) ∧
      Advances size s a (step (flashRead size) s a) := by
  cases a with
  | firmware pinC => exact hs.firmware pinC
  | transfer => exact hs.transfer hsize (step_effect (flashRead size) s .transfer)
  | timeout => exact absurd rfl ha.1
  | poll => exact absurd rfl ha.2

end

/-! ## Main result -/

/-- A device at which `flash_read` may start: no request is pending, the OUT bank is free and
the IN bank holds at most a button packet. -/
structure ReadReady (d : Device chip) : Prop where
  settled : Settled d.mcu
  idle : Idle d
  outBank : d.mcu.outBank = none
  inBank : ButtonsOnly d

/-- `flash_read` at its start. -/
def dumpStart (size : UInt32) (d : Device chip) : Composed State chip :=
  ⟨Program.start (loop size 0), d⟩

/-- Both parties act again and again. -/
def Fair (sched : ℕ → Action) : Prop := ∀ p n, ∃ m, n ≤ m ∧ party (sched m) = p

section
variable {size : UInt32} {d : Device chip}

theorem dumpInv_start (hsize : WholeBlocks size) (hd : ReadReady d) :
    DumpInv d.mcu.target.flash size (dumpStart size d) := by
  have hloop : loop size 0 = if 0 < size.toNat / 8 then .request 0 else .release :=
    @WholeBlocks.loop_eq size hsize 0 (Nat.zero_le _)
  refine ⟨hd.settled, ?_⟩
  by_cases hpos : 0 < size.toNat / 8
  · rw [if_pos hpos] at hloop
    refine .reading 0 hpos ?_ rfl rfl
    show Phase 0 d (loop size 0)
    rw [hloop]
    exact .request hd.outBank hd.idle hd.inBank
  · rw [if_neg hpos] at hloop
    refine .closing ?_ ?_
    · show Closing (loop size 0)
      rw [hloop]
      exact .release
    · rw [blocks, show size.toNat / 8 = 0 by omega]
      rfl

theorem dumpInv_run (hsize : WholeBlocks size) (hd : ReadReady d) {as : List Action}
    (has : ∀ a ∈ as, FaultFree a) :
    DumpInv d.mcu.target.flash size (run (step (flashRead size)) (dumpStart size d) as) :=
  (along_of_forall has).invariant (fun _ _ hs ha => (hs.step hsize ha).1)
    (dumpInv_start hsize hd)

theorem returned_of_measure {s : Composed State chip} (h : measure size s = 0) :
    s.host.state = .returned := by
  have hweight : weight s.device s.host.state = 0 := Nat.eq_zero_of_add_eq_zero_left h
  generalize s.host.state = st at hweight ⊢
  cases st with
  | returned => rfl
  | receive a =>
    simp only [weight] at hweight
    split_ifs at hweight
  | _ => cases hweight

/-- A fair schedule without failures brings `flash_read` to its end. -/
theorem dump_returns (hsize : WholeBlocks size) (hd : ReadReady d) {sched : ℕ → Action}
    (hsched : ∀ n, FaultFree (sched n)) (hfair : Fair sched) :
    ∃ n, (runTo (step (flashRead size)) (dumpStart size d) sched n).host.state = .returned := by
  obtain ⟨n, hn⟩ := @eventually_measure_zero _ _ (step (flashRead size))
    (fun _ a => FaultFree a) (dumpStart size d) Party party
    (fun s => helpful s.device s.host.state) (measure size) (DumpInv d.mcu.target.flash size) sched
    (fun s a hs ha => hs.step hsize ha) hsched hfair (dumpInv_start hsize hd)
  exact ⟨n, returned_of_measure hn⟩

/-- In every run without failures `flash_read` prints the blocks of the flash from the first on,
all of them when it returns, and under a fair schedule it returns. -/
theorem dump_correct (hsize : WholeBlocks size) (hd : ReadReady d) :
    (∀ as, (∀ a ∈ as, FaultFree a) →
      let h := (run (step (flashRead size)) (dumpStart size d) as).host
      h.out <+: blocks chip d.mcu.target.flash size ∧
        (h.state = .returned → h.out = blocks chip d.mcu.target.flash size)) ∧
    ∀ sched, (∀ n, FaultFree (sched n)) → Fair sched →
      ∃ n, (runTo (step (flashRead size)) (dumpStart size d) sched n).host.state = .returned := by
  exact ⟨fun as has => (dumpInv_run hsize hd has).progress.out,
    fun sched hsched hfair => dump_returns hsize hd hsched hfair⟩

theorem readReady_powerOn (unspecified : ℕ → UInt8) (flash : Memory Word) :
    ReadReady (powerOn unspecified flash : Device chip) := by
  have hmcu : (powerOn unspecified flash : Device chip).mcu = _ := powerOn_mcu unspecified flash
  refine ⟨settled_powerOn unspecified flash, idle_zero ?_, ?_, ?_⟩
  · rw [hmcu]
    rfl
  · rw [hmcu]
    rfl
  · rintro q hq
    rw [hmcu] at hq
    cases hq

end

/-- A flash whose words are their own addresses. -/
def counting : Memory Word := fun a => ⟨UInt8.ofNat a, UInt8.ofNat (a / 256)⟩

/-- Two blocks, read by a host that first receives a button packet. -/
theorem dump_correct_two_blocks :
    (run (step (flashRead 16)) (dumpStart 16 (powerOn (fun _ => 0) counting : Device atmega328p))
        [.firmware 0xC0, .firmware 0xC0, .transfer, .transfer, .firmware 0, .firmware 0, .transfer,
          .transfer, .firmware 0, .firmware 0, .transfer, .transfer, .transfer, .transfer]).host.out
        = blocks atmega328p counting 16 ∧
      ∃ n, (runTo (step (flashRead 16))
        (dumpStart 16 (powerOn (fun _ => 0) counting : Device atmega328p))
        (fun n => if n % 3 = 2 then .transfer else .firmware 0) n).host.state = .returned := by
  have hsize : WholeBlocks 16 := ⟨by decide, by decide⟩
  have hready : ReadReady (powerOn (fun _ => 0) counting : Device atmega328p) :=
    readReady_powerOn (fun _ => 0) counting
  have hall := dump_correct hsize hready
  refine ⟨(hall.1 _ (by decide)).2 (by decide +kernel), hall.2 _ (fun n => ?_) fun p n => ?_⟩
  · split_ifs <;> decide
  · cases p with
    | host => exact ⟨3 * n + 2, by omega, by simp [party]⟩
    | device => exact ⟨3 * n, by omega, by simp [party]⟩

end System
end AvrProgrammer
