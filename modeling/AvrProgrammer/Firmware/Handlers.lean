import AvrProgrammer.Firmware.Branches

/-!
# What one call of each handler does

Between two handlers the SPI bus is quiet: `Settled` says that the target is between two
instructions, that its RESET line follows PORTB, that its page buffer is erased, that the IN
bank holds no half-written packet and that no byte of a received packet has been read. From a
settled state `ProcessOUT` leads to `Mcu.processed` of the packet in the bank and `ProcessIN`
to `Mcu.answered`, and both states are settled again. The fields of the two states are read
off by lemmas, for each kind of packet and of pending command; nothing after this file unfolds
the handlers.
-/

namespace AvrProgrammer
namespace Firmware

open PagedFlash

variable {chip : Chip}

/-! ## The handlers -/

/-- Between two handlers the SPI bus and the endpoint FIFOs are quiet. -/
structure Settled (m : Mcu chip) : Prop where
  line : m.target.line = ssHigh m.portB
  inst : m.target.inst = []
  buffer : m.target.buffer = erase
  inBytes : m.inBytes = []
  unread : ∀ bank, m.outBank = some bank → bank.unread = bank.packet

/-! ## Kinds of packets -/

/-- The kinds of packets `ProcessOUT` tells apart. -/
inductive Kind : Packet → Prop
  | empty : Kind []
  | signature (rest : Packet) : Kind (0x01 :: rest)
  | read (rest : Packet) : Kind (0x02 :: rest)
  | write (rest : Packet) : Kind (0x03 :: rest)
  | erase (rest : Packet) : Kind (0x04 :: rest)
  | leds (command : UInt8) (rest : Packet) (h1 : command ≠ 0x01) (h2 : command ≠ 0x02)
      (h3 : command ≠ 0x03) (h4 : command ≠ 0x04) : Kind (command :: rest)

theorem kind (p : Packet) : Kind p := by
  cases p with
  | nil => exact .empty
  | cons command rest =>
    by_cases h1 : command = 0x01
    · exact h1 ▸ .signature rest
    by_cases h2 : command = 0x02
    · exact h2 ▸ .read rest
    by_cases h3 : command = 0x03
    · exact h3 ▸ .write rest
    by_cases h4 : command = 0x04
    · exact h4 ▸ .erase rest
    exact .leds command rest h1 h2 h3 h4

/-! ## The sessions of the commands -/

/-- The session of `chip_erase`. -/
abbrev eraseSession (portB : UInt8) (a : UInt16) : List Event :=
  session portB 0x04 a [5] eraseBytes [5]

/-- The session that writes the word `hi:lo` at `a`. -/
abbrev writeSession (portB : UInt8) (a : UInt16) (lo hi : UInt8) : List Event :=
  session portB 0x03 a [5] (writeBytes a lo hi) [5]

/-- The session that reads the block at `a`. -/
abbrev readSession (portB : UInt8) (a : UInt16) : List Event :=
  session portB 0x02 a [] (readBytes a) []

/-- The session that reads the signature. -/
abbrev signatureSession (portB : UInt8) (a : UInt16) : List Event :=
  session portB 0x01 a [] signatureBytes []

/-! ## `ProcessOUT` -/

/-- Address bytes 1 and 2 of a packet. -/
def Mcu.packetAddress (m : Mcu chip) (p : Packet) : UInt16 := address (m.byte p 1) (m.byte p 2)

/-- The state after the tests on `commande_PC` have run the command of the packet `p`. -/
def Mcu.dispatched (m : Mcu chip) (p : Packet) : Mcu chip :=
  if m.commandePC = 0x02 then Mcu.consumed { m with flashAddress := m.packetAddress p } p 3
  else if m.commandePC = 0x03 then
    (Mcu.consumed { m with flashAddress := m.packetAddress p } p 5).afterSession [5]
      (writeBytes (m.packetAddress p) (m.byte p 3) (m.byte p 4)) [5]
      (program m.target.flash (chip.index (m.packetAddress p)) ⟨m.byte p 3, m.byte p 4⟩)
  else if m.commandePC = 0x04 then
    (m.consumed p 1).afterSession [5] eraseBytes [5] erase
  else if m.commandePC = 0x01 then m.consumed p 1
  else { m.consumed p 1 with
    portB := m.commandePC, target := m.target.drive (ssHigh m.commandePC),
    trace := (m.consumed p 1).trace ++ [.leds m.portB m.commandePC] }

theorem setLeds_executes (m : Mcu chip) :
    Executes setLeds m () { m with
      portB := m.commandePC, target := m.target.drive (ssHigh m.commandePC),
      trace := m.trace ++ [.leds m.portB m.commandePC] } := rfl

theorem dispatch_executes {m : Mcu chip} (hinst : m.target.inst = [])
    (hbuffer : m.target.buffer = erase) (p : Packet) :
    Executes dispatch (m.consumed p 1) () (m.dispatched p) := by
  have hcommand : (m.consumed p 1).commandePC = m.commandePC := rfl
  unfold dispatch Mcu.dispatched
  refine .get_bind ?_
  rw [hcommand]
  by_cases h2 : m.commandePC = 0x02
  · simp only [if_pos h2]
    exact readAddress_executes m p
  simp only [if_neg h2]
  refine .get_bind ?_
  rw [hcommand]
  by_cases h3 : m.commandePC = 0x03
  · simp only [if_pos h3]
    exact writeWord_executes p hinst hbuffer rfl
  simp only [if_neg h3]
  refine .get_bind ?_
  rw [hcommand]
  by_cases h4 : m.commandePC = 0x04
  · simp only [if_pos h4]
    exact chipErase_executes hinst hbuffer
  simp only [if_neg h4]
  refine .get_bind ?_
  rw [hcommand]
  by_cases h1 : m.commandePC = 0x01
  · simp only [h1, ne_eq, not_true_eq_false, ↓reduceIte]
    exact .pure _ _
  · simp only [h1, ne_eq, not_false_eq_true, ↓reduceIte]
    exact setLeds_executes (m.consumed p 1)

/-- The state after the body of `ProcessOUT` on the packet `p`. -/
def Mcu.served (m : Mcu chip) : Packet → Mcu chip
  | [] => m
  | command :: rest => Mcu.dispatched { m with commandePC := command } (command :: rest)

theorem serveCommand_executes {m : Mcu chip} (hm : Settled m) {command : UInt8}
    {rest : Packet} (hbank : m.outBank = some ⟨command :: rest, command :: rest⟩) :
    Executes serveCommand m () (m.served (command :: rest)) := by
  have hread := endpointRead8_executes m (command :: rest) 0
  rw [Mcu.consumed_zero hbank] at hread
  refine hread.bind (.modify_bind ?_)
  exact dispatch_executes (m := { m with commandePC := command }) hm.inst hm.buffer
    (command :: rest)

namespace Mcu

variable {m : Mcu chip} {command : UInt8} {rest p : Packet}

theorem dispatched_read (h : m.commandePC = 0x02) :
    m.dispatched p = Mcu.consumed { m with flashAddress := m.packetAddress p } p 3 := by
  rw [dispatched, if_pos h]

theorem dispatched_write (h : m.commandePC = 0x03) :
    m.dispatched p
      = (Mcu.consumed { m with flashAddress := m.packetAddress p } p 5).afterSession
        [5] (writeBytes (m.packetAddress p) (m.byte p 3) (m.byte p 4)) [5]
        (program m.target.flash (chip.index (m.packetAddress p)) ⟨m.byte p 3, m.byte p 4⟩) := by
  rw [dispatched, if_neg (by rw [h]; decide), if_pos h]

theorem dispatched_erase (h : m.commandePC = 0x04) :
    m.dispatched p
      = (m.consumed p 1).afterSession [5] eraseBytes [5] erase := by
  rw [dispatched, if_neg (by rw [h]; decide), if_neg (by rw [h]; decide), if_pos h]

theorem dispatched_signature (h : m.commandePC = 0x01) :
    m.dispatched p = m.consumed p 1 := by
  rw [dispatched, if_neg (by rw [h]; decide), if_neg (by rw [h]; decide),
    if_neg (by rw [h]; decide), if_pos h]

theorem dispatched_leds (h1 : m.commandePC ≠ 0x01) (h2 : m.commandePC ≠ 0x02)
    (h3 : m.commandePC ≠ 0x03) (h4 : m.commandePC ≠ 0x04) :
    m.dispatched p = { m.consumed p 1 with
      portB := m.commandePC, target := m.target.drive (ssHigh m.commandePC),
      trace := (m.consumed p 1).trace ++ [.leds m.portB m.commandePC] } := by
  rw [dispatched, if_neg h2, if_neg h3, if_neg h4, if_neg h1]

theorem consumed_one (m : Mcu chip) (command : UInt8) (rest : Packet) :
    m.consumed (command :: rest) 1 = { m with outBank := some ⟨command :: rest, rest⟩ } := by
  simp [consumed]

theorem served_packet (hbank : m.outBank = some ⟨p, p⟩) :
    (m.served p).outBank.map OutBank.packet = some p := by
  cases kind p with
  | empty => rw [served, hbank]; rfl
  | signature rest => rw [served, dispatched_signature rfl]; rfl
  | read rest => rw [served, dispatched_read rfl]; rfl
  | write rest => rw [served, dispatched_write rfl]; rfl
  | erase rest => rw [served, dispatched_erase rfl]; rfl
  | leds command rest h1 h2 h3 h4 => rw [served, dispatched_leds h1 h2 h3 h4]; rfl

/-- The state after `ProcessOUT` has taken the packet `p` from the bank. -/
def processed (m : Mcu chip) (p : Packet) : Mcu chip :=
  let served := Mcu.served { m with endpoint := .dataOut } p
  { served with outBank := none, trace := served.trace ++ [.received p] }

theorem processed_empty :
    m.processed [] = { m with
      endpoint := .dataOut, outBank := none, trace := m.trace ++ [.received []] } := rfl

theorem processed_signature :
    m.processed (0x01 :: rest) = { m with
      endpoint := .dataOut, outBank := none, commandePC := 0x01,
      trace := m.trace ++ [.received (0x01 :: rest)] } := by
  rw [processed, served, dispatched_signature rfl, consumed_one]

theorem processed_read (hp : p = 0x02 :: rest) :
    m.processed p = { m with
      endpoint := .dataOut, outBank := none, commandePC := 0x02,
      flashAddress := m.packetAddress p, overruns := m.overruns + (3 - p.length),
      trace := m.trace ++ (List.replicate (3 - p.length) .overrun ++ [.received p]) } := by
  subst hp
  rw [← List.append_assoc, processed, served, dispatched_read rfl]
  rfl

theorem processed_write (hp : p = 0x03 :: rest) :
    m.processed p = { m with
      endpoint := .dataOut, outBank := none, commandePC := 0x03,
      flashAddress := m.packetAddress p, portB := m.portB ||| SPI_SS,
      target := .idle (program m.target.flash (chip.index (m.packetAddress p))
        ⟨m.byte p 3, m.byte p 4⟩),
      overruns := m.overruns + (5 - p.length),
      trace := m.trace ++ (List.replicate (5 - p.length) .overrun
        ++ (writeSession m.portB (m.packetAddress p) (m.byte p 3) (m.byte p 4)
          ++ [.received p])) } := by
  subst hp
  rw [← List.append_assoc, ← List.append_assoc, processed, served, dispatched_write rfl]
  rfl

theorem processed_erase :
    m.processed (0x04 :: rest) = { m with
      endpoint := .dataOut, outBank := none, commandePC := 0x04,
      portB := m.portB ||| SPI_SS, target := .idle erase,
      trace := m.trace ++ (eraseSession m.portB m.flashAddress
        ++ [.received (0x04 :: rest)]) } := by
  rw [← List.append_assoc, processed, served, dispatched_erase rfl, consumed_one]
  rfl

theorem processed_leds (h1 : command ≠ 0x01) (h2 : command ≠ 0x02) (h3 : command ≠ 0x03)
    (h4 : command ≠ 0x04) :
    m.processed (command :: rest) = { m with
      endpoint := .dataOut, outBank := none, commandePC := command,
      portB := command, target := m.target.drive (ssHigh command),
      trace := m.trace ++ [.leds m.portB command, .received (command :: rest)] } := by
  rw [processed, served, dispatched_leds h1 h2 h3 h4, consumed_one]
  simp

/-- `ProcessOUT` leaves the IN bank. -/
@[simp] theorem inBank_processed (m : Mcu chip) (p : Packet) :
    (m.processed p).inBank = m.inBank := by
  cases kind p with
  | empty => rw [processed_empty]
  | signature rest => rw [processed_signature]
  | read rest => rw [processed_read rfl]
  | write rest => rw [processed_write rfl]
  | erase rest => rw [processed_erase]
  | leds command rest h1 h2 h3 h4 => rw [processed_leds h1 h2 h3 h4]

/-- The first byte of a packet is the command, and an empty packet keeps the last one. -/
theorem commandePC_processed_headD (m : Mcu chip) (p : Packet) :
    (m.processed p).commandePC = p.headD m.commandePC := by
  cases kind p with
  | empty => rw [processed_empty]; rfl
  | signature rest => rw [processed_signature]; rfl
  | read rest => rw [processed_read rfl]; rfl
  | write rest => rw [processed_write rfl]; rfl
  | erase rest => rw [processed_erase]; rfl
  | leds command rest h1 h2 h3 h4 => rw [processed_leds h1 h2 h3 h4]; rfl

end Mcu

theorem isOUTReceived_executes {m : Mcu chip} {received : Bool}
    (h : m.outBank.isSome = received) : Executes endpointIsOUTReceived m received m := by
  subst h
  exact .get_bind (.pure _ _)

theorem readWriteAllowed_dataOut {m : Mcu chip} (hep : m.endpoint = .dataOut) {p : Packet}
    {unread : List UInt8} (h : m.outBank = some ⟨p, unread⟩) :
    Executes endpointIsReadWriteAllowed m (!unread.isEmpty) m := by
  refine .get_bind ?_
  rw [hep, h]
  exact .pure _ _

theorem readWriteAllowed_dataIn {m : Mcu chip} (hep : m.endpoint = .dataIn) {allowed : Bool}
    (h : m.inBank.isNone = allowed) : Executes endpointIsReadWriteAllowed m allowed m := by
  subst h
  refine .get_bind ?_
  rw [hep]
  exact .pure _ _

theorem processOUT_executes_none {m : Mcu chip} (hbank : m.outBank = none) :
    Executes processOUT m () { m with endpoint := .dataOut } := by
  have hreceived : Executes endpointIsOUTReceived { m with endpoint := .dataOut } false _ :=
    isOUTReceived_executes (by simpa using hbank)
  exact .modify_bind (hreceived.bind (.pure _ _))

theorem endpointClearOUT_executes {m : Mcu chip} {p : Packet}
    (h : m.outBank.map OutBank.packet = some p) :
    Executes endpointClearOUT m ()
      { m with outBank := none, trace := m.trace ++ [.received p] } := by
  have hmap : m.outBank.map (fun bank => Event.received bank.packet) = some (.received p) := by
    simpa using congrArg (Option.map Event.received) h
  have hrun : Executes endpointClearOUT m () _ := Executes.modify _ m
  rwa [hmap] at hrun

theorem processOUT_executes_some {m : Mcu chip} (hm : Settled m) {bank : OutBank}
    (hbank : m.outBank = some bank) :
    Executes processOUT m () (m.processed bank.packet) := by
  obtain ⟨p, unread⟩ := bank
  obtain rfl : unread = p := hm.unread _ hbank
  obtain ⟨m₀, hm₀⟩ : ∃ m₀ : Mcu chip, m₀ = { m with endpoint := .dataOut } := ⟨_, rfl⟩
  have hbank₀ : m₀.outBank = some ⟨unread, unread⟩ := by rw [hm₀]; exact hbank
  have hsettled : Settled m₀ := by
    rw [hm₀]; exact ⟨hm.line, hm.inst, hm.buffer, hm.inBytes, hm.unread⟩
  have hreceived : Executes endpointIsOUTReceived m₀ true m₀ :=
    isOUTReceived_executes (by rw [hbank₀]; rfl)
  have hallowed := readWriteAllowed_dataOut (by rw [hm₀]) hbank₀
  have hclear := endpointClearOUT_executes (Mcu.served_packet hbank₀)
  simp only [Mcu.processed, ← hm₀]
  refine .modify_bind ?_
  rw [← hm₀]
  refine hreceived.bind (hallowed.bind ?_)
  cases unread with
  | nil => exact hclear
  | cons command rest => exact (serveCommand_executes hsettled hbank₀).bind hclear

/-! ## `ProcessIN` -/

namespace Mcu

/-- The state after `ProcessIN` has found the IN bank free. -/
def answered (m : Mcu chip) : Mcu chip :=
  if m.commandePC = 0x02 then
    { m with endpoint := .dataIn, commandePC := 0, portB := m.portB ||| SPI_SS,
             target := .idle m.target.flash, inBank := some (m.target.block m.flashAddress),
             inBytes := [],
             trace := m.trace ++ (readSession m.portB m.flashAddress
              ++ [.sent (m.target.block m.flashAddress)]) }
  else if m.commandePC = 0x01 then
    { m with endpoint := .dataIn, commandePC := 0, portB := m.portB ||| SPI_SS,
             target := .idle m.target.flash, inBank := some m.target.signature,
             inBytes := [],
             trace := m.trace ++ (signatureSession m.portB m.flashAddress
              ++ [.sent m.target.signature]) }
  else
    { m with endpoint := .dataIn, inBank := some [m.pinC &&& 0xC0],
             inBytes := [],
             trace := m.trace ++ [.sent [m.pinC &&& 0xC0]] }

variable {m : Mcu chip}

theorem answered_read (h : m.commandePC = 0x02) :
    m.answered = { m with
      endpoint := .dataIn, commandePC := 0, portB := m.portB ||| SPI_SS,
      target := .idle m.target.flash, inBank := some (m.target.block m.flashAddress),
             inBytes := [],
      trace := m.trace ++ (readSession m.portB m.flashAddress
        ++ [.sent (m.target.block m.flashAddress)]) } := by
  rw [answered, if_pos h]

theorem answered_signature (h : m.commandePC = 0x01) :
    m.answered = { m with
      endpoint := .dataIn, commandePC := 0, portB := m.portB ||| SPI_SS,
      target := .idle m.target.flash, inBank := some m.target.signature,
             inBytes := [],
      trace := m.trace ++ (signatureSession m.portB m.flashAddress
        ++ [.sent m.target.signature]) } := by
  rw [answered, if_neg (by rw [h]; decide), if_pos h]

theorem answered_buttons (h1 : m.commandePC ≠ 0x01) (h2 : m.commandePC ≠ 0x02) :
    m.answered = { m with
      endpoint := .dataIn, inBank := some [m.pinC &&& 0xC0],
             inBytes := [],
      trace := m.trace ++ [.sent [m.pinC &&& 0xC0]] } := by
  rw [answered, if_neg h2, if_neg h1]

end Mcu

theorem endpointClearIN_executes (m : Mcu chip) :
    Executes endpointClearIN m () { m with
      inBank := some m.inBytes, inBytes := [], trace := m.trace ++ [.sent m.inBytes] } := rfl

theorem processIN_executes_busy {m : Mcu chip} (hbank : m.inBank.isSome) :
    Executes processIN m () { m with endpoint := .dataIn } := by
  have hallowed : Executes endpointIsReadWriteAllowed { m with endpoint := .dataIn } false _ :=
    readWriteAllowed_dataIn rfl (by simpa using hbank)
  exact .modify_bind (hallowed.bind (.pure _ _))

theorem processIN_executes_free {m : Mcu chip} (hm : Settled m) (hbank : m.inBank = none) :
    Executes processIN m () m.answered := by
  obtain ⟨m₀, hm₀⟩ : ∃ m₀ : Mcu chip, m₀ = { m with endpoint := .dataIn } := ⟨_, rfl⟩
  have hsettled : Settled m₀ := by
    rw [hm₀]; exact ⟨hm.line, hm.inst, hm.buffer, hm.inBytes, hm.unread⟩
  have hcommand : m₀.commandePC = m.commandePC := by rw [hm₀]
  have hallowed : Executes endpointIsReadWriteAllowed m₀ true m₀ :=
    readWriteAllowed_dataIn (by rw [hm₀]) (by rw [hm₀]; simpa using hbank)
  refine .modify_bind ?_
  rw [← hm₀]
  refine hallowed.bind (.get_bind ?_)
  by_cases h2 : m.commandePC = 0x02
  · simp only [hcommand, h2, ↓reduceIte]
    rw [Mcu.answered_read h2, ← List.append_assoc, readSession, ← h2]
    refine (readBlock_executes hsettled.inst hsettled.buffer hsettled.inBytes).bind ?_
    subst hm₀
    exact endpointClearIN_executes _
  simp only [hcommand, h2, ↓reduceIte]
  refine .get_bind ?_
  by_cases h1 : m.commandePC = 0x01
  · simp only [hcommand, h1, ↓reduceIte]
    rw [Mcu.answered_signature h1, ← List.append_assoc, signatureSession, ← h1]
    refine (readSignature_executes hsettled.inst hsettled.buffer hsettled.inBytes).bind ?_
    subst hm₀
    exact endpointClearIN_executes _
  simp only [hcommand, h1, ↓reduceIte]
  rw [Mcu.answered_buttons h1 h2]
  refine .get_bind ?_
  refine (endpointWrite8_executes _ _).bind ?_
  rw [hsettled.inBytes]
  subst hm₀
  exact endpointClearIN_executes _

/-! ## Settled states -/

theorem Settled.processed {m : Mcu chip} (hm : Settled m) (p : Packet) :
    Settled (m.processed p) := by
  cases kind p with
  | empty =>
    rw [Mcu.processed_empty]
    exact ⟨hm.line, hm.inst, hm.buffer, hm.inBytes, by simp⟩
  | signature rest =>
    rw [Mcu.processed_signature]
    exact ⟨hm.line, hm.inst, hm.buffer, hm.inBytes, by simp⟩
  | read rest =>
    rw [Mcu.processed_read rfl]
    exact ⟨hm.line, hm.inst, hm.buffer, hm.inBytes, by simp⟩
  | write rest =>
    rw [Mcu.processed_write rfl]
    exact ⟨(ssHigh_off _).symm, rfl, rfl, hm.inBytes, by simp⟩
  | erase rest =>
    rw [Mcu.processed_erase]
    exact ⟨(ssHigh_off _).symm, rfl, rfl, hm.inBytes, by simp⟩
  | leds command rest h1 h2 h3 h4 =>
    rw [Mcu.processed_leds h1 h2 h3 h4]
    exact ⟨Target.drive_line .., Target.drive_inst hm.inst _, (Target.drive_buffer ..).trans hm.buffer, hm.inBytes, by simp⟩

theorem Settled.answered {m : Mcu chip} (hm : Settled m) : Settled m.answered := by
  by_cases h2 : m.commandePC = 0x02
  · rw [Mcu.answered_read h2]
    exact ⟨(ssHigh_off _).symm, rfl, rfl, rfl, hm.unread⟩
  by_cases h1 : m.commandePC = 0x01
  · rw [Mcu.answered_signature h1]
    exact ⟨(ssHigh_off _).symm, rfl, rfl, rfl, hm.unread⟩
  rw [Mcu.answered_buttons h1 h2]
  exact ⟨hm.line, hm.inst, hm.buffer, rfl, hm.unread⟩

end Firmware
end AvrProgrammer
