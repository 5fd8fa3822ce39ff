import AvrProgrammer.Software.Libusb
import Mathlib.Tactic.SplitIfs

/-!
# `software/isp_ids.c`

`isp_ids` asks for the signature of the target and discards packets of one byte until it
receives another packet or an error.
-/

namespace AvrProgrammer
namespace Software

namespace IspIds

/-- The calls of `isp_ids`, with the contents of the caller's buffer `data_in`. -/
inductive State where
  | request (dataIn : List UInt8)
  | receive (dataIn : List UInt8)
  | returned (dataIn : List UInt8)
deriving DecidableEq

/-- A packet overwrites the first bytes of the buffer. -/
def overwrite (dataIn received : List UInt8) : List UInt8 :=
  received ++ dataIn.drop received.length

end IspIds

open IspIds in
/-- `isp_ids`. -/
def ispIds : Program IspIds.State where
  call
    | .request _ => some (.transferOut [0x01])
    | .receive _ => some (.transferIn 3)
    | .returned _ => none
  resume
    | .request dataIn, result =>
      (.receive dataIn, [if result.r = 0 then .signatureSent else .signatureRequestError])
    | .receive dataIn, result =>
      let dataIn := overwrite dataIn result.data
      if result.r = 0 ∧ result.data.length = 1 then (.receive dataIn, [])
      else if result.r = 0 ∧ result.data.length = 3 then
        (.returned dataIn, [.signatureReceived dataIn])
      else (.returned dataIn, [.signatureError])
    | .returned dataIn, _ => (.returned dataIn, [])

theorem ispIds_call_transferOut {s : IspIds.State} {p : Packet}
    (h : ispIds.call s = some (.transferOut p)) : ∃ dataIn, s = .request dataIn ∧ p = [0x01] := by
  cases s with
  | request dataIn => cases h; exact ⟨dataIn, rfl, rfl⟩
  | _ => cases h

theorem ispIds_call_transferIn {s : IspIds.State} {n : ℕ}
    (h : ispIds.call s = some (.transferIn n)) : ∃ dataIn, s = .receive dataIn ∧ n = 3 := by
  cases s with
  | receive dataIn => cases h; exact ⟨dataIn, rfl, rfl⟩
  | _ => cases h

section
variable {dataIn : List UInt8} {result : Result}

theorem ispIds_discard (h : Discarded result) :
    ispIds.resume (.receive dataIn) result
      = (.receive (IspIds.overwrite dataIn result.data), []) := if_pos h

/-- Any other packet and any failure end the loop. -/
theorem ispIds_end (h : ¬ Discarded result) :
    (ispIds.resume (.receive dataIn) result).1
      = .returned (IspIds.overwrite dataIn result.data) := by
  have hresume : ispIds.resume (.receive dataIn) result = _ := if_neg h
  rw [hresume]
  split_ifs <;> rfl

end

end Software
end AvrProgrammer
