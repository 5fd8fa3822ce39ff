import AvrProgrammer.Firmware.InOut
import Mathlib.Data.List.GetD

/-!
# What the branches of the handlers do

`Executes x m a m'` says that the firmware code `x`, started in state `m`, returns `a` and
leaves state `m'`. Its rules follow the code statement by statement, and four bytes on SPI are
one step, `instruction`. The results are one rule for each branch of `ProcessOUT` and
`ProcessIN`, with the final state written out: the bytes `Mcu.consumed` from the packet, and
the port, the target and the trace `Mcu.afterSession`.
-/

namespace AvrProgrammer
namespace Firmware

open PagedFlash

variable {chip : Chip}

/-! ## Executing firmware code -/

/-- The code `x`, started in `m`, returns `a` and leaves `m'`. -/
def Executes {α : Type} (x : Fw chip α) (m : Mcu chip) (a : α) (m' : Mcu chip) : Prop :=
  x.run m = pure (a, m')

namespace Executes

variable {α β : Type} {x : Fw chip α} {m m' m'' : Mcu chip} {a : α} {b : β}

theorem pure (a : α) (m : Mcu chip) : Executes (Pure.pure a : Fw chip α) m a m := rfl

theorem bind {k : α → Fw chip β} (hx : Executes x m a m') (hk : Executes (k a) m' b m'') :
    Executes (x >>= k) m b m'' := by
  unfold Executes at hx hk ⊢
  rw [StateT.run_bind, hx, pure_bind, hk]

theorem get_bind {k : Mcu chip → Fw chip β} (hk : Executes (k m) m b m'') :
    Executes (get >>= k) m b m'' := bind (x := get) rfl hk

theorem modify_bind {f : Mcu chip → Mcu chip} {k : PUnit → Fw chip β}
    (hk : Executes (k ⟨⟩) (f m) b m'') : Executes (modify f >>= k) m b m'' :=
  bind (x := modify f) rfl hk

theorem modify (f : Mcu chip → Mcu chip) (m : Mcu chip) :
    Executes (MonadState.modifyGet fun s => ((), f s)) m () (f m) := rfl

/-- The final state of a run, by the equation the run satisfies. -/
theorem final (h : Executes x m a m') : (x.run m).2 = m' := by
  rw [show x.run m = (a, m') from h]

end Executes

/-! ## Masks of PORTB -/

theorem ssHigh_on (p : UInt8) : ssHigh (p &&& ~~~SPI_SS) = false := by
  revert p; decide +kernel

theorem ssHigh_off (p : UInt8) : ssHigh (p ||| SPI_SS) = true := by
  revert p; decide +kernel

theorem on_off (p : UInt8) : (p &&& ~~~SPI_SS) ||| SPI_SS = p ||| SPI_SS := by
  revert p; decide +kernel

/-! ## States on the way -/

namespace Mcu

/-- After `spi_ON`. -/
def on (m : Mcu chip) : Mcu chip :=
  { m with portB := m.portB &&& ~~~SPI_SS,
           target := m.target.drive (ssHigh (m.portB &&& ~~~SPI_SS)),
           trace := m.trace ++ [.spiON m.portB m.commandePC m.flashAddress] }

/-- After `spi_OFF`. -/
def off (m : Mcu chip) : Mcu chip :=
  { m with portB := m.portB ||| SPI_SS,
           target := m.target.drive (ssHigh (m.portB ||| SPI_SS)),
           trace := m.trace ++ [.spiOFF m.portB] }

/-- After `_delay_ms(ms)`. -/
def wait (m : Mcu chip) (ms : ℕ) : Mcu chip := { m with trace := m.trace ++ [.delayMs ms] }

/-- After one byte on SPI. -/
def shifted (m : Mcu chip) (d : UInt8) : Mcu chip :=
  { m with target := (m.target.shift d).2, trace := m.trace ++ [.spiTransfer d] }

/-- After the four bytes of an instruction. -/
def instr (m : Mcu chip) (a b c d : UInt8) : Mcu chip :=
  { m with target := m.target.execute a b c d,
           trace := m.trace ++ [a, b, c, d].map .spiTransfer }

/-- The target is held in reset and is between two instructions. -/
structure InSession (m : Mcu chip) : Prop where
  line : m.target.line = false
  inst : m.target.inst = []

theorem InSession.wait {m : Mcu chip} (h : m.InSession) (ms : ℕ) : (m.wait ms).InSession :=
  ⟨h.line, h.inst⟩

theorem InSession.instr {m : Mcu chip} (h : m.InSession) (a b c d : UInt8) :
    (m.instr a b c d).InSession :=
  ⟨(Target.execute_line ..).trans h.line, (Target.execute_inst ..).trans h.inst⟩

/-- `spi_ON` opens a session, whether or not the line was high. -/
theorem inSession_on {m : Mcu chip} (h : m.target.inst = []) : m.on.InSession := by
  constructor
  · simp only [on, ssHigh_on, Target.drive]; split <;> rfl
  · simp only [on, ssHigh_on, Target.drive]; split
    · rfl
    · exact h

/-- Byte `k` of the packet `p`, unspecified where the packet has no such byte. -/
def byte (m : Mcu chip) (p : Packet) (k : ℕ) : UInt8 :=
  p.getD k (m.unspecified (m.overruns + (k - p.length)))

/-- After `k` calls of `Endpoint_Read_8` on the packet `p`. -/
def consumed (m : Mcu chip) (p : Packet) (k : ℕ) : Mcu chip :=
  { m with outBank := some ⟨p, p.drop k⟩,
           overruns := m.overruns + (k - p.length),
           trace := m.trace ++ List.replicate (k - p.length) .overrun }

theorem consumed_zero {m : Mcu chip} {p : Packet} (h : m.outBank = some ⟨p, p⟩) :
    m.consumed p 0 = m := by
  cases m
  simp_all [consumed]

end Mcu

/-! ## The rules of the SPI functions and of the endpoints -/

theorem spiON_executes (m : Mcu chip) : Executes spiON m () m.on := rfl

theorem spiOFF_executes (m : Mcu chip) : Executes spiOFF m () m.off := rfl

theorem delayMs_executes (m : Mcu chip) (ms : ℕ) : Executes (delayMs ms) m () (m.wait ms) := rfl

theorem endpointWrite8_executes (m : Mcu chip) (data : UInt8) :
    Executes (endpointWrite8 data) m () { m with inBytes := m.inBytes ++ [data] } := rfl

/-- Four bytes on SPI. -/
def instruction (a b c d : UInt8) : Fw chip UInt8 := do
  let _ ← spiTransfer a
  let _ ← spiTransfer b
  let _ ← spiTransfer c
  spiTransfer d

theorem instruction_bind {α : Type} (a b c d : UInt8) (k : UInt8 → Fw chip α) :
    (do let _ ← spiTransfer a
        let _ ← spiTransfer b
        let _ ← spiTransfer c
        let answer ← spiTransfer d
        k answer) = instruction a b c d >>= k := by
  simp only [instruction, bind_assoc]

theorem instruction_executes {m : Mcu chip} (h : m.InSession) (a b c d : UInt8) :
    Executes (instruction a b c d) m (m.target.reply a b c) (m.instr a b c d) := by
  have hfour := Target.shift_four h.line h.inst a b c d
  have hrun : Executes (instruction a b c d) m
      ((((m.shifted a).shifted b).shifted c).target.shift d).1
      ((((m.shifted a).shifted b).shifted c).shifted d) := rfl
  have hstate : (((m.shifted a).shifted b).shifted c).shifted d = m.instr a b c d := by
    simp [Mcu.shifted, Mcu.instr, hfour]
  rw [hstate] at hrun
  simpa only [Mcu.shifted, hfour] using hrun

theorem endpointRead8_cons {m : Mcu chip} {p : Packet} {b : UInt8} {u : List UInt8}
    (h : m.outBank = some ⟨p, b :: u⟩) :
    Executes endpointRead8 m b { m with outBank := some ⟨p, u⟩ } := by
  cases m
  cases h
  rfl

theorem endpointRead8_nil {m : Mcu chip} {p : Packet} (h : m.outBank = some ⟨p, []⟩) :
    Executes endpointRead8 m (m.unspecified m.overruns)
      { m with overruns := m.overruns + 1, trace := m.trace ++ [.overrun] } := by
  cases m
  cases h
  rfl

theorem consumed_succ_of_lt {p : Packet} {k : ℕ} (h : k < p.length) (m : Mcu chip) :
    { m.consumed p k with outBank := some ⟨p, p.drop (k + 1)⟩ } = m.consumed p (k + 1) := by
  have hover : k + 1 - p.length = k - p.length := by omega
  simp only [Mcu.consumed, hover]

theorem consumed_succ_of_le {p : Packet} {k : ℕ} (h : p.length ≤ k) (m : Mcu chip) :
    { m.consumed p k with overruns := (m.consumed p k).overruns + 1,
                          trace := (m.consumed p k).trace ++ [.overrun] }
      = m.consumed p (k + 1) := by
  have hover : k + 1 - p.length = k - p.length + 1 := by omega
  simp only [Mcu.consumed, hover, List.drop_eq_nil_of_le h,
    List.drop_eq_nil_of_le (Nat.le_succ_of_le h), List.replicate_succ', ← List.append_assoc,
    Nat.add_assoc]

/-- One more byte of the received packet, or an overrun. -/
theorem endpointRead8_executes (m : Mcu chip) (p : Packet) (k : ℕ) :
    Executes endpointRead8 (m.consumed p k) (m.byte p k) (m.consumed p (k + 1)) := by
  by_cases hk : k < p.length
  · have hbank : (m.consumed p k).outBank = some ⟨p, p[k] :: p.drop (k + 1)⟩ := by
      rw [← List.drop_eq_getElem_cons hk]; rfl
    rw [← consumed_succ_of_lt hk, show m.byte p k = p[k] from List.getD_eq_getElem p _ hk]
    exact endpointRead8_cons hbank
  · have hk : p.length ≤ k := Nat.le_of_not_lt hk
    have hbank : (m.consumed p k).outBank = some ⟨p, []⟩ := by
      rw [← List.drop_eq_nil_of_le hk]; rfl
    have hbyte : m.byte p k = m.unspecified (m.overruns + (k - p.length)) :=
      List.getD_eq_default p _ hk
    rw [← consumed_succ_of_le hk, hbyte]
    exact endpointRead8_nil hbank

/-! ## SPI sessions -/

/-- AC 53 00 00, programming enable. -/
def enable : List UInt8 := [0xAC, 0x53, 0x00, 0x00]

/-- The trace entries of a session: the delays between `spi_ON` and the first byte, the bytes,
and the delays between the last byte and `spi_OFF`. -/
def session (portB command : UInt8) (a : UInt16) (before : List ℕ) (bytes : List UInt8)
    (after : List ℕ) : List Event :=
  .spiON portB command a :: before.map .delayMs ++ bytes.map .spiTransfer
    ++ after.map .delayMs ++ [.spiOFF (portB &&& ~~~SPI_SS)]

namespace Mcu

/-- In a session, after programming enable: `bytes` have been sent so far and the flash and
the page buffer are as given. -/
def inSession (m : Mcu chip) (before : List ℕ) (bytes : List UInt8)
    (flash buffer : Memory Word) : Mcu chip :=
  { m with portB := m.portB &&& ~~~SPI_SS,
           target := .programming flash buffer,
           trace := m.trace ++ (.spiON m.portB m.commandePC m.flashAddress :: before.map .delayMs
            ++ bytes.map .spiTransfer) }

/-- After a whole session. -/
def afterSession (m : Mcu chip) (before : List ℕ) (bytes : List UInt8)
    (after : List ℕ) (flash : Memory Word) : Mcu chip :=
  { m with portB := m.portB ||| SPI_SS,
           target := .idle flash,
           trace := m.trace ++ session m.portB m.commandePC m.flashAddress before bytes after }

theorem target_on_enable {m : Mcu chip} (h : m.target.inst = []) :
    m.on.target.execute 0xAC 0x53 0x00 0x00
      = .programming m.target.flash m.target.buffer := by
  rw [Target.execute_enable]
  simp only [on, ssHigh_on, Target.drive, Target.programming]
  split <;> simp [h]

end Mcu

section
variable {m : Mcu chip} {before : List ℕ} {bytes : List UInt8}
  {flash flash' buffer buffer' : Memory Word}

/-- Programming enable right after `spi_ON`. -/
theorem enable_executes (m : Mcu chip) (h : m.target.inst = []) :
    Executes (instruction 0xAC 0x53 0x00 0x00) m.on (m.on.target.reply 0xAC 0x53 0x00)
      (m.inSession [] enable m.target.flash m.target.buffer) := by
  have hstate : m.on.instr 0xAC 0x53 0x00 0x00
      = m.inSession [] enable m.target.flash m.target.buffer := by
    simp only [Mcu.instr, Mcu.target_on_enable h]
    simp [Mcu.on, Mcu.inSession, enable]
  rw [← hstate]
  exact instruction_executes (Mcu.inSession_on h) ..

/-- Programming enable after `spi_ON` and a delay. -/
theorem wait_enable_executes (m : Mcu chip) (h : m.target.inst = []) (ms : ℕ) :
    Executes (instruction 0xAC 0x53 0x00 0x00) (m.on.wait ms)
      (m.on.target.reply 0xAC 0x53 0x00)
      (m.inSession [ms] enable m.target.flash m.target.buffer) := by
  have hstate : (m.on.wait ms).instr 0xAC 0x53 0x00 0x00
      = m.inSession [ms] enable m.target.flash m.target.buffer := by
    have htarget : (m.on.wait ms).target = m.on.target := rfl
    simp only [Mcu.instr, htarget, Mcu.target_on_enable h]
    simp [Mcu.on, Mcu.wait, Mcu.inSession, enable]
  rw [← hstate]
  exact instruction_executes ((Mcu.inSession_on h).wait ms) ..

/-- An instruction in a session, by its effect on the target. -/
theorem instruction_inSession {a b c d : UInt8}
    (h : (Target.programming flash buffer : Target chip).execute a b c d
      = .programming flash' buffer') :
    Executes (instruction a b c d) (m.inSession before bytes flash buffer)
      ((Target.programming flash buffer : Target chip).reply a b c)
      (m.inSession before (bytes ++ [a, b, c, d]) flash' buffer') := by
  have hstate : (m.inSession before bytes flash buffer).instr a b c d
      = m.inSession before (bytes ++ [a, b, c, d]) flash' buffer' := by
    simp [Mcu.instr, Mcu.inSession, h]
  rw [← hstate]
  exact instruction_executes ⟨rfl, rfl⟩ ..

theorem off_inSession :
    Executes spiOFF (m.inSession before bytes flash erase) ()
      (m.afterSession before bytes [] flash) := by
  have hstate : (m.inSession before bytes flash erase).off
      = m.afterSession before bytes [] flash := by
    simp [Mcu.off, Mcu.inSession, Mcu.afterSession, session, on_off, ssHigh_off,
      Target.drive, Target.programming, Target.idle]
  rw [← hstate]
  exact spiOFF_executes _

theorem wait_off_inSession (ms : ℕ) :
    Executes spiOFF ((m.inSession before bytes flash erase).wait ms) ()
      (m.afterSession before bytes [ms] flash) := by
  have hstate : ((m.inSession before bytes flash erase).wait ms).off
      = m.afterSession before bytes [ms] flash := by
    simp [Mcu.off, Mcu.wait, Mcu.inSession, Mcu.afterSession, session, on_off,
      ssHigh_off, Target.drive, Target.programming, Target.idle]
  rw [← hstate]
  exact spiOFF_executes _

end

/-! ## The four sessions -/

/-- The bytes sent to erase the flash. -/
def eraseBytes : List UInt8 := enable ++ [0xAC, 0x80, 0x00, 0x00]

/-- The bytes sent to write the word `hi:lo` at the word address `a`. -/
def writeBytes (a : UInt16) (lo hi : UInt8) : List UInt8 :=
  enable ++ [0x40, highByte a, lowByte a, lo] ++ [0x48, highByte a, lowByte a, hi]
    ++ [0x4C, highByte a, lowByte a, 0x00]

/-- The bytes sent to read the word at the word address `a`. -/
def readWordBytes (a : UInt16) : List UInt8 :=
  [0x20, highByte a, lowByte a, 0x00, 0x28, highByte a, lowByte a, 0x00]

/-- The bytes sent to read the four words from the word address `a` on. -/
def readBytes (a : UInt16) : List UInt8 :=
  enable ++ [0, 1, 2, 3].flatMap fun i => readWordBytes (a + i)

/-- The bytes sent to read the signature. -/
def signatureBytes : List UInt8 :=
  enable ++ [0x30, 0x00, 0x00, 0x00] ++ [0x30, 0x00, 0x01, 0x00] ++ [0x30, 0x00, 0x02, 0x00]

theorem chipErase_executes {m : Mcu chip} (hinst : m.target.inst = [])
    (hbuffer : m.target.buffer = erase) :
    Executes chipErase m () (m.afterSession [5] eraseBytes [5] erase) := by
  simp only [chipErase, instruction_bind]
  refine (spiON_executes m).bind ?_
  refine (delayMs_executes _ 5).bind ?_
  refine (wait_enable_executes _ hinst 5).bind ?_
  rw [hbuffer]
  refine (instruction_inSession (Target.execute_chipErase _ _ _ _)).bind ?_
  refine (delayMs_executes _ 5).bind ?_
  exact wait_off_inSession 5

/-- The address of a read request is noted. -/
theorem readAddress_executes (m : Mcu chip) (p : Packet) :
    Executes readAddress (m.consumed p 1) ()
      (Mcu.consumed { m with flashAddress := address (m.byte p 1) (m.byte p 2) } p 3) := by
  refine (endpointRead8_executes m p 1).bind (.modify_bind ?_)
  exact (endpointRead8_executes { m with flashAddress := _ } p 2).bind (.modify _ _)

/-- One word is written in a session of its own; the packet supplies address and data. -/
theorem writeWord_executes {m : Mcu chip} (p : Packet) (hinst : m.target.inst = [])
    (hbuffer : m.target.buffer = erase) {a : UInt16}
    (ha : address (m.byte p 1) (m.byte p 2) = a) :
    Executes writeWord (m.consumed p 1) ()
      ((Mcu.consumed { m with flashAddress := a } p 5).afterSession [5]
        (writeBytes a (m.byte p 3) (m.byte p 4)) [5]
        (program m.target.flash (chip.index a) ⟨m.byte p 3, m.byte p 4⟩)) := by
  simp only [writeWord, instruction_bind]
  -- the four bytes of the packet
  refine (endpointRead8_executes m p 1).bind (.modify_bind ?_)
  refine (endpointRead8_executes { m with flashAddress := _ } p 2).bind (.modify_bind ?_)
  change Executes _ (Mcu.consumed { m with flashAddress := address (m.byte p 1) (m.byte p 2) }
    p 3) () _
  rw [ha]
  refine (endpointRead8_executes { m with flashAddress := a } p 3).bind ?_
  refine (endpointRead8_executes { m with flashAddress := a } p 4).bind (.get_bind ?_)
  -- the session
  set m₁ : Mcu chip := Mcu.consumed { m with flashAddress := a } p 5
  refine (spiON_executes m₁).bind ?_
  refine (delayMs_executes _ 5).bind ?_
  refine (wait_enable_executes m₁ hinst 5).bind ?_
  rw [show m₁.target.buffer = erase from hbuffer]
  refine (instruction_inSession (Target.execute_loadLow _ a _)).bind ?_
  refine (instruction_inSession (Target.execute_loadHigh _ a _ _)).bind ?_
  refine (instruction_inSession (Target.execute_writePage _ a _ _)).bind ?_
  refine (delayMs_executes _ 5).bind ?_
  exact wait_off_inSession 5

/-- The bytes of the flash word at a word address, as `ProcessIN` writes them. -/
def wordBytes (chip : Chip) (flash : Memory Word) (a : UInt16) : List UInt8 :=
  [(flash (chip.index a)).lo, (flash (chip.index a)).hi]

/-- Reading one word appends its two bytes to the packet being written. -/
theorem readWord_executes (m : Mcu chip) (bytes : List UInt8) (flash : Memory Word)
    (i : UInt16) :
    Executes (readWord i) (m.inSession [] bytes flash erase) ()
      (Mcu.inSession { m with inBytes := m.inBytes ++ wordBytes chip flash (m.flashAddress + i) }
        [] (bytes ++ readWordBytes (m.flashAddress + i)) flash erase) := by
  have hread (a : UInt8) (ha : a = 0x20 ∨ a = 0x28 ∨ a = 0x30) (b c d : UInt8) :
      (Target.programming flash erase : Target chip).execute a b c d
        = .programming flash erase := Target.execute_read _ ha b c d
  simp only [readWord, instruction_bind]
  refine .get_bind ?_
  refine (instruction_inSession (hread _ (by decide) _ _ _)).bind ?_
  refine (instruction_inSession (hread _ (by decide) _ _ _)).bind ?_
  rw [Target.reply_low, Target.reply_high]
  refine (endpointWrite8_executes _ _).bind ?_
  simpa [Mcu.inSession, readWordBytes, wordBytes] using
    endpointWrite8_executes (Mcu.inSession
      { m with inBytes := m.inBytes ++ [(flash (chip.index (m.flashAddress + i))).lo] }
      [] (bytes ++ readWordBytes (m.flashAddress + i)) flash erase)
      (flash (chip.index (m.flashAddress + i))).hi

/-- The loop over the words of a block. -/
theorem forM_readWord_executes (is : List UInt16) (m : Mcu chip) (bytes : List UInt8)
    (flash : Memory Word) :
    Executes (is.forM readWord) (m.inSession [] bytes flash erase) ()
      (Mcu.inSession { m with
          inBytes := m.inBytes ++
            (is.flatMap fun i => wordBytes chip flash (m.flashAddress + i)) }
        [] (bytes ++ is.flatMap fun i => readWordBytes (m.flashAddress + i)) flash erase) := by
  induction is generalizing m bytes with
  | nil => simpa using Executes.pure () (m.inSession [] bytes flash erase)
  | cons i is ih =>
    have hrest := ih
      { m with inBytes := m.inBytes ++ wordBytes chip flash (m.flashAddress + i) }
      (bytes ++ readWordBytes (m.flashAddress + i))
    simp only [List.append_assoc] at hrest
    simp only [List.flatMap_cons]
    exact (readWord_executes m bytes flash i).bind hrest

/-- A pending read request is answered with the block at `flash_address`. -/
theorem readBlock_executes {m : Mcu chip} (hinst : m.target.inst = [])
    (hbuffer : m.target.buffer = erase) (hbytes : m.inBytes = []) :
    Executes readBlock m ()
      { m.afterSession [] (readBytes m.flashAddress) [] m.target.flash with
        inBytes := m.target.block m.flashAddress, commandePC := 0 } := by
  simp only [readBlock, instruction_bind]
  refine (spiON_executes m).bind ?_
  refine (enable_executes m hinst).bind ?_
  rw [hbuffer]
  refine (forM_readWord_executes [0, 1, 2, 3] m enable m.target.flash).bind ?_
  rw [hbytes, List.nil_append]
  exact off_inSession.bind rfl

/-- A pending signature request is answered with the three bytes of the signature. -/
theorem readSignature_executes {m : Mcu chip} (hinst : m.target.inst = [])
    (hbuffer : m.target.buffer = erase) (hbytes : m.inBytes = []) :
    Executes readSignature m ()
      { m.afterSession [] signatureBytes [] m.target.flash with
        inBytes := m.target.signature, commandePC := 0 } := by
  have hread (c : UInt8) : (Target.programming m.target.flash erase : Target chip).execute
      0x30 0x00 c 0x00 = .programming m.target.flash erase :=
    Target.execute_read _ (by decide) ..
  have hreply (n : Fin 3) : (Target.programming m.target.flash erase : Target chip).reply
      0x30 0x00 (UInt8.ofNat n) = chip.signature n := Target.reply_signature _ _ 0x00 n
  simp only [readSignature, instruction_bind]
  refine (spiON_executes m).bind ?_
  refine (enable_executes m hinst).bind ?_
  rw [hbuffer]
  refine (instruction_inSession (hread 0x00)).bind ?_
  refine (instruction_inSession (hread 0x01)).bind ?_
  refine (instruction_inSession (hread 0x02)).bind ?_
  refine off_inSession.bind ?_
  have hempty : m.afterSession [] signatureBytes [] m.target.flash
      = { m.afterSession [] signatureBytes [] m.target.flash with inBytes := [] } := by
    simp [Mcu.afterSession, hbytes]
  rw [show (Target.programming m.target.flash erase : Target chip).reply 0x30 0x00 0x00
      = chip.signature 0 from hreply 0,
    show (Target.programming m.target.flash erase : Target chip).reply 0x30 0x00 0x01
      = chip.signature 1 from hreply 1,
    show (Target.programming m.target.flash erase : Target chip).reply 0x30 0x00 0x02
      = chip.signature 2 from hreply 2]
  change Executes _ (m.afterSession [] signatureBytes [] m.target.flash) () _
  rw [hempty]
  refine (endpointWrite8_executes _ _).bind ?_
  refine (endpointWrite8_executes _ _).bind ?_
  refine (endpointWrite8_executes _ _).bind ?_
  rfl

end Firmware
end AvrProgrammer
