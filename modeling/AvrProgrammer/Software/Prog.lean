import AvrProgrammer.Software.FlashRead
import AvrProgrammer.Software.FlashWrite
import AvrProgrammer.Software.IspIds

/-!
# `software/prog.c` and `software/dev_handle.c`

`main` opens the device, identifies the target, runs the command of its arguments and closes
the device. The functions it calls are the programs of the other files; `init_usb` and
`reclamer_interface` are written out as states of their own.
-/

namespace AvrProgrammer
namespace Software

/-! ## The targets -/

/-- `base_de_donnees`. -/
def baseDeDonnees : List CibleAVR :=
  [⟨[0x1E, 0x95, 0x0F], "ATmega328P", 32768, 128⟩,
    ⟨[0x1E, 0x94, 0x89], "ATmega16U2", 16384, 128⟩,
    ⟨[0x1E, 0x93, 0x0B], "ATtiny85", 8192, 64⟩]

/-- `recherche_cible`. -/
def rechercheCible (sig : List UInt8) : Option CibleAVR :=
  baseDeDonnees.find? fun cible => sig = cible.signature

/-! ## `main` -/

namespace Prog

/-- The states of `main`. `cleanUp calls code` makes the calls and returns `code`;
`nullDereference` is the read of `cible->taille_flash` when `cible` is NULL. -/
inductive State where
  | init
  | openDevice
  | kernelDriver
  | detach
  | claim
  | ispIds (s : IspIds.State)
  | flashRead (size : UInt32) (s : FlashRead.State)
  | flashWrite (packets : List Packet)
  | cleanUp (calls : List Call) (code : ℤ)
  | nullDereference

/-- What `main` finds when it starts: `argv[1]`, `argv[2]` and so on, the files `fopen` can
open, and the stack of `flash_write`. -/
structure Input where
  args : List String
  fopen : String → Option (List UInt8)
  vars : Vars

/-- `Fermeture unique et propre`. -/
def fermeture : State := .cleanUp [.releaseInterface, .close, .exit] 0

/-- The command of the arguments, once the target is known or not. -/
def command (input : Input) (cible : Option CibleAVR) : State × List Message :=
  match input.args with
  | [] => (fermeture, [.usage])
  | action :: args =>
    if action = "-read" then
      match cible with
      | none => (.nullDereference, [])
      | some cible => (.flashRead cible.tailleFlash (FlashRead.loop cible.tailleFlash 0), [])
    else if action = "-write" then
      match args with
      | [] => (fermeture, [.missingFile])
      | name :: _ =>
        match input.fopen name with
        | none => (fermeture, [.openError name])
        | some file => (.flashWrite (flashWritePackets input.vars file), [])
    else (fermeture, [])

/-- What `main` does after `isp_ids` has left `sig`. -/
def identified (input : Input) (sig : List UInt8) : State × List Message :=
  let cible := rechercheCible sig
  let message := match cible with
    | none => Message.unknownTarget
    | some cible => .target cible
  ((command input cible).1, message :: (command input cible).2)

/-- The identification goes on, or its result is used. -/
def afterIspIds (input : Input) : IspIds.State → State × List Message
  | .returned sig => identified input sig
  | s => (.ispIds s, [])

/-- `flash_read` goes on, or `main` closes the device. -/
def afterFlashRead (size : UInt32) : FlashRead.State → State
  | .returned => fermeture
  | s => .flashRead size s

/-- `flash_write` goes on, or `main` reports its success. -/
def afterFlashWrite : List Packet → State × List Message
  | [] => (fermeture, [.writeSuccess])
  | packets => (.flashWrite packets, [])

/-- The next call of `main`. -/
def call : State → Option Call
  | .init => some .init
  | .openDevice => some .openDeviceWithVidPid
  | .kernelDriver => some .kernelDriverActive
  | .detach => some .detachKernelDriver
  | .claim => some .claimInterface
  | .ispIds s => Software.ispIds.call s
  | .flashRead size s => (Software.flashRead size).call s
  | .flashWrite packets => Software.flashWrite.call packets
  | .cleanUp calls _ => calls.head?
  | .nullDereference => none

/-- The state of `main` after a call. -/
def resume (input : Input) : State → Result → State × List Message
  | .init, result =>
    if result.r < 0 then (.cleanUp [] 1, [.initError]) else (.openDevice, [])
  | .openDevice, result =>
    if result.r = 0 then (.cleanUp [.exit] 1, [.deviceNotFound]) else (.kernelDriver, [])
  | .kernelDriver, result => if result.r = 1 then (.detach, []) else (.claim, [])
  | .detach, _ => (.claim, [])
  | .claim, result =>
    if result.r < 0 then (.cleanUp [.close, .exit] 1, [.claimError])
    else (.ispIds (.request [0, 0, 0]), [])
  | .ispIds s, result =>
    let (s, out) := Software.ispIds.resume s result
    let (state, out') := afterIspIds input s
    (state, out ++ out')
  | .flashRead size s, result =>
    let (s, out) := (Software.flashRead size).resume s result
    (afterFlashRead size s, out)
  | .flashWrite packets, result =>
    let (packets, out) := Software.flashWrite.resume packets result
    let (state, out') := afterFlashWrite packets
    (state, out ++ out')
  | .cleanUp calls code, _ => (.cleanUp calls.tail code, [])
  | .nullDereference, _ => (.nullDereference, [])

end Prog

/-- `main`. -/
def prog (input : Prog.Input) : Program Prog.State where
  call := Prog.call
  resume := Prog.resume input

end Software
end AvrProgrammer
