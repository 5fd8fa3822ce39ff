import AvrProgrammer.Software.Libusb

/-!
# `software/flash_read.c`

`flash_read` asks for the flash four words at a time and prints what it receives. It also
closes the device.
-/

namespace AvrProgrammer
namespace Software

namespace FlashRead

/-- The calls of `flash_read`: a request, the reception of its answer, and the three calls at
the end. -/
inductive State where
  | request (addr : UInt16)
  | receive (addr : UInt16)
  | release
  | close
  | exit
  | returned
deriving DecidableEq

/-- The head of the loop: `addr < size / 2`. -/
def loop (size : UInt32) (addr : UInt16) : State :=
  if addr.toUInt32 < size / 2 then .request addr else .release

/-- The four words printed for a block, `(data_in[i + 1] << 8) | data_in[i]`. -/
def blockWords (dataIn : List UInt8) : List UInt16 :=
  [0, 2, 4, 6].map fun i => address (dataIn.getD (i + 1) 0) (dataIn.getD i 0)

end FlashRead

open FlashRead in
/-- `flash_read`. -/
def flashRead (size : UInt32) : Program FlashRead.State where
  call
    | .request addr => some (.transferOut [0x02, highByte addr, lowByte addr])
    | .receive _ => some (.transferIn 8)
    | .release => some .releaseInterface
    | .close => some .close
    | .exit => some .exit
    | .returned => none
  resume
    | .request addr, result =>
      if result.r ≠ 0 then (loop size (addr + 4), [.requestError addr])
      else (.receive addr, [])
    | .receive addr, result =>
      -- les paquets de boutons sont ignorés
      if result.r = 0 ∧ result.data.length = 1 then (.receive addr, [])
      else if result.r = 0 ∧ result.data.length = 8 then
        (loop size (addr + 4), [.block addr (blockWords result.data)])
      else (loop size (addr + 4), [.readError addr])
    | .release, _ => (.close, [])
    | .close, _ => (.exit, [])
    | .exit, _ => (.returned, [])
    | .returned, _ => (.returned, [])

theorem flashRead_call_transferOut {size : UInt32} {s : FlashRead.State} {p : Packet}
    (h : (flashRead size).call s = some (.transferOut p)) :
    ∃ addr, s = .request addr ∧ p = [0x02, highByte addr, lowByte addr] := by
  cases s with
  | request addr => cases h; exact ⟨addr, rfl, rfl⟩
  | _ => cases h

theorem flashRead_call_transferIn {size : UInt32} {s : FlashRead.State} {n : ℕ}
    (h : (flashRead size).call s = some (.transferIn n)) : ∃ addr, s = .receive addr ∧ n = 8 := by
  cases s with
  | receive addr => cases h; exact ⟨addr, rfl, rfl⟩
  | _ => cases h

section
variable (size : UInt32) (addr : UInt16) {data : List UInt8}

theorem flashRead_button (hlen : data.length = 1) :
    (flashRead size).resume (.receive addr) ⟨0, data⟩ = (.receive addr, []) := by
  simp [flashRead, hlen]

theorem flashRead_block (hlen : data.length = 8) :
    (flashRead size).resume (.receive addr) ⟨0, data⟩ =
      (FlashRead.loop size (addr + 4), [.block addr (FlashRead.blockWords data)]) := by
  simp [flashRead, hlen]

/-- Any other result is an error, and the loop goes on. -/
theorem flashRead_error {result : Result} (h1 : ¬ (result.r = 0 ∧ result.data.length = 1))
    (h8 : ¬ (result.r = 0 ∧ result.data.length = 8)) :
    (flashRead size).resume (.receive addr) result =
      (FlashRead.loop size (addr + 4), [.readError addr]) := by
  simp only [flashRead, if_neg h1, if_neg h8]

end

end Software
end AvrProgrammer
