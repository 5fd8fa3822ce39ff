import AvrProgrammer.Target

/-!
# The firmware of the programmer: `firmware/InOut/main.c`

The two handlers of the main loop, `ProcessOUT` and `ProcessIN`, and the SPI functions they
call, in a state monad over the microcontroller: the two globals, port B, the two USB
endpoints of one bank each, and the target on the SPI bus. Every function keeps the name and
the order of statements it has in C.

The LUFA and avr-libc functions the handlers call are modelled by what they do to that state:

* a received packet is read byte by byte, and `Endpoint_Read_8` returns an unspecified byte
  once it is exhausted, which `overruns` counts;
* `Endpoint_Write_8` fills the IN bank, and `Endpoint_ClearIN` hands it to the host;
* writing PORTB drives the target's RESET line with bit 0 (`SPI_SS`).

The trace is not in the C code: it lists what the firmware did, for the theorems. The entry of
a `spi_ON` records the port and the two globals at the time of the call, that is, the command
the session serves.
-/

namespace AvrProgrammer
namespace Firmware

/-- The two endpoints, `DATA_OUT_EPADDR` and `DATA_IN_EPADDR`. -/
inductive Endpoint where
  | dataOut
  | dataIn
deriving DecidableEq

/-- The OUT bank: the packet received and the bytes of it not yet read. -/
structure OutBank where
  packet : Packet
  unread : List UInt8

/-- What the trace records. -/
inductive Event where
  | spiON (portB commandePC : UInt8) (flashAddress : UInt16)
  | spiOFF (portB : UInt8)
  | delayMs (ms : ℕ)
  | spiTransfer (data : UInt8)
  | leds (portB commandePC : UInt8)
  | overrun
  | received (packet : Packet)
  | sent (packet : Packet)
deriving DecidableEq

/-- State of the microcontroller, of its endpoints and of the target it is wired to. -/
@[ext] structure Mcu (chip : Chip) where
  commandePC : UInt8
  flashAddress : UInt16
  portB : UInt8
  pinC : UInt8
  endpoint : Endpoint
  outBank : Option OutBank
  inBank : Option Packet
  inBytes : List UInt8
  unspecified : ℕ → UInt8
  overruns : ℕ
  target : Target chip
  trace : List Event

/-- Firmware code. -/
abbrev Fw (chip : Chip) := StateM (Mcu chip)

variable {chip : Chip}

/-! ## Registers and the trace -/

/-- `1 << SPI_SS`, with `SPI_SS` = PB0. -/
def SPI_SS : UInt8 := (1 : UInt8) <<< 0

/-- Level of the SS pin for a value of PORTB. -/
def ssHigh (portB : UInt8) : Bool := portB &&& SPI_SS != 0

def log (e : Event) : Fw chip Unit := modify fun m => { m with trace := m.trace ++ [e] }

/-- `PORTB = value`; the SS pin is the target's RESET line. -/
def writePortB (value : UInt8) : Fw chip Unit := modify fun m =>
  { m with portB := value, target := m.target.drive (ssHigh value) }

def delayMs (ms : ℕ) : Fw chip Unit := log (.delayMs ms)

/-! ## LUFA endpoints -/

def endpointSelectEndpoint (ep : Endpoint) : Fw chip Unit := modify fun m =>
  { m with endpoint := ep }

def endpointIsOUTReceived : Fw chip Bool := do
  return (← get).outBank.isSome

/-- For the OUT endpoint: there is a byte to read; for the IN endpoint: the bank is free. -/
def endpointIsReadWriteAllowed : Fw chip Bool := do
  let m ← get
  match m.endpoint with
  | .dataOut => return m.outBank.any fun bank => !bank.unread.isEmpty
  | .dataIn => return m.inBank.isNone

def endpointRead8 : Fw chip UInt8 := do
  let m ← get
  match m.outBank with
  | some ⟨packet, byte :: unread⟩ =>
    set { m with outBank := some ⟨packet, unread⟩ }
    return byte
  | _ =>
    set { m with overruns := m.overruns + 1, trace := m.trace ++ [Event.overrun] }
    return m.unspecified m.overruns

def endpointWrite8 (data : UInt8) : Fw chip Unit := modify fun m =>
  { m with inBytes := m.inBytes ++ [data] }

def endpointClearOUT : Fw chip Unit := modify fun m =>
  { m with outBank := none,
           trace := m.trace ++ (m.outBank.map fun bank => Event.received bank.packet).toList }

def endpointClearIN : Fw chip Unit := modify fun m =>
  { m with inBank := some m.inBytes, inBytes := [], trace := m.trace ++ [.sent m.inBytes] }

/-! ## SPI -/

def spiInit : Fw chip Unit := do
  writePortB ((← get).portB ||| SPI_SS)

def spiON : Fw chip Unit := do
  let m ← get
  log (.spiON m.portB m.commandePC m.flashAddress)
  writePortB (m.portB &&& ~~~SPI_SS)

def spiOFF : Fw chip Unit := do
  let m ← get
  log (.spiOFF m.portB)
  writePortB (m.portB ||| SPI_SS)

def spiTransfer (data : UInt8) : Fw chip UInt8 := do
  log (.spiTransfer data)
  let m ← get
  let (answer, target) := m.target.shift data
  set { m with target := target }
  return answer

def chipErase : Fw chip Unit := do
  spiON
  delayMs 5
  -- (3.2 datasheet) Enable Memory Access
  let _ ← spiTransfer 0xAC
  let _ ← spiTransfer 0x53
  let _ ← spiTransfer 0x00
  let _ ← spiTransfer 0x00
  -- (3.4.3 datasheet) erase
  let _ ← spiTransfer 0xAC
  let _ ← spiTransfer 0x80
  let _ ← spiTransfer 0x00
  let _ ← spiTransfer 0x00
  delayMs 5
  spiOFF

/-! ## The handlers of the main loop -/

/-- The branch of `ProcessOUT` for 0x03: write one word of the flash. -/
def writeWord : Fw chip Unit := do
  let hi ← endpointRead8
  modify fun m => { m with flashAddress := hi.toUInt16 <<< 8 }
  let lo ← endpointRead8
  modify fun m => { m with flashAddress := m.flashAddress ||| lo.toUInt16 }
  let low ← endpointRead8
  let high ← endpointRead8
  let flashAddress := (← get).flashAddress
  spiON
  delayMs 5
  -- (3.2 datasheet) Enable Memory Access
  let _ ← spiTransfer 0xAC
  let _ ← spiTransfer 0x53
  let _ ← spiTransfer 0x00
  let _ ← spiTransfer 0x00
  -- Low byte
  let _ ← spiTransfer 0x40
  let _ ← spiTransfer (highByte flashAddress)
  let _ ← spiTransfer (lowByte flashAddress)
  let _ ← spiTransfer low
  -- High byte
  let _ ← spiTransfer 0x48
  let _ ← spiTransfer (highByte flashAddress)
  let _ ← spiTransfer (lowByte flashAddress)
  let _ ← spiTransfer high
  -- Write
  let _ ← spiTransfer 0x4C
  let _ ← spiTransfer (highByte flashAddress)
  let _ ← spiTransfer (lowByte flashAddress)
  let _ ← spiTransfer 0x00
  delayMs 5
  spiOFF

/-- The branch of `ProcessOUT` for 0x02: note the address to read. -/
def readAddress : Fw chip Unit := do
  let hi ← endpointRead8
  modify fun m => { m with flashAddress := hi.toUInt16 <<< 8 }
  let lo ← endpointRead8
  modify fun m => { m with flashAddress := m.flashAddress ||| lo.toUInt16 }

/-- The last branch of `ProcessOUT`: `PORTB = commande_PC`, for the LEDs. -/
def setLeds : Fw chip Unit := do
  let m ← get
  log (.leds m.portB m.commandePC)
  writePortB m.commandePC

/-- The chain of tests on `commande_PC` in `ProcessOUT`. -/
def dispatch : Fw chip Unit := do
  if (← get).commandePC = 0x02 then readAddress
  else if (← get).commandePC = 0x03 then writeWord
  else if (← get).commandePC = 0x04 then chipErase
  else if (← get).commandePC ≠ 0x01 then setLeds

/-- The body of `ProcessOUT` once a byte can be read. -/
def serveCommand : Fw chip Unit := do
  let command ← endpointRead8
  modify fun m => { m with commandePC := command }
  dispatch

def processOUT : Fw chip Unit := do
  endpointSelectEndpoint .dataOut
  if ← endpointIsOUTReceived then
    if ← endpointIsReadWriteAllowed then
      serveCommand
    endpointClearOUT

/-- One turn of the `for` loop of `ProcessIN`: word `flash_address + i` of the flash. -/
def readWord (i : UInt16) : Fw chip Unit := do
  let currentAddr := (← get).flashAddress + i
  -- Lecture du Low Byte
  let _ ← spiTransfer 0x20
  let _ ← spiTransfer (highByte currentAddr)
  let _ ← spiTransfer (lowByte currentAddr)
  let dataLow ← spiTransfer 0x00
  -- Lecture du High Byte
  let _ ← spiTransfer 0x28
  let _ ← spiTransfer (highByte currentAddr)
  let _ ← spiTransfer (lowByte currentAddr)
  let dataHigh ← spiTransfer 0x00
  -- envoie au PC
  endpointWrite8 dataLow
  endpointWrite8 dataHigh

/-- The branch of `ProcessIN` for 0x02: read four words of the flash. -/
def readBlock : Fw chip Unit := do
  spiON
  -- (3.2 datasheet) Enable Memory Access
  let _ ← spiTransfer 0xAC
  let _ ← spiTransfer 0x53
  let _ ← spiTransfer 0x00
  let _ ← spiTransfer 0x00
  [0, 1, 2, 3].forM readWord
  spiOFF
  modify fun m => { m with commandePC := 0 }

/-- The branch of `ProcessIN` for 0x01: read the three bytes of the signature. -/
def readSignature : Fw chip Unit := do
  spiON
  -- (3.2 datasheet) Enable Memory Access
  let _ ← spiTransfer 0xAC
  let _ ← spiTransfer 0x53
  let _ ← spiTransfer 0x00
  let _ ← spiTransfer 0x00
  let _ ← spiTransfer 0x30
  let _ ← spiTransfer 0x00
  let _ ← spiTransfer 0x00
  let data1 ← spiTransfer 0x00
  let _ ← spiTransfer 0x30
  let _ ← spiTransfer 0x00
  let _ ← spiTransfer 0x01
  let data2 ← spiTransfer 0x00
  let _ ← spiTransfer 0x30
  let _ ← spiTransfer 0x00
  let _ ← spiTransfer 0x02
  let data3 ← spiTransfer 0x00
  spiOFF
  endpointWrite8 data1
  endpointWrite8 data2
  endpointWrite8 data3
  modify fun m => { m with commandePC := 0 }

def processIN : Fw chip Unit := do
  endpointSelectEndpoint .dataIn
  if ← endpointIsReadWriteAllowed then
    if (← get).commandePC = 0x02 then readBlock
    else if (← get).commandePC = 0x01 then readSignature
    -- commandes boutons
    else endpointWrite8 ((← get).pinC &&& 0xC0)
    endpointClearIN

/-! ## Power-on -/

/-- The initialisation in `main`, up to the main loop. -/
def mainInit : Fw chip Unit := do
  -- LEDS OFF
  let leds := (1 : UInt8) <<< 5 ||| (1 : UInt8) <<< 6 ||| (1 : UInt8) <<< 7
  writePortB ((← get).portB &&& ~~~leds)
  spiInit

/-- The registers after reset. The target runs, its flash holds anything and its page buffer
is erased. -/
def reset (unspecified : ℕ → UInt8) (flash : PagedFlash.Memory Word) : Mcu chip where
  commandePC := 0
  flashAddress := 0
  portB := 0
  pinC := 0
  endpoint := .dataOut
  outBank := none
  inBank := none
  inBytes := []
  unspecified := unspecified
  overruns := 0
  target :=
    { line := true, enabled := false, inst := [], flash := flash, buffer := PagedFlash.erase }
  trace := []

end Firmware
end AvrProgrammer
