import AvrProgrammer.Bytes
import AvrProgrammer.Library.Runs

/-!
# Programs that call libusb

The functions of the host program are sequential code between library calls. A `Program` is
such code cut at its calls: in each state it either makes one call or has returned, and the
result of the call leads to the next state, with what the code prints on the way. The results
are not determined here: they come from the library, and every list of results is a run.

A result is the returned integer, for a pointer `0` where it is NULL, and the bytes received
(`actual_length` is their number). The time limits of the transfers are left out: a transfer
may fail at any time, and then its result is negative.
-/

namespace AvrProgrammer
namespace Software

/-- The library calls of the program. -/
inductive Call where
  | init
  | openDeviceWithVidPid
  | kernelDriverActive
  | detachKernelDriver
  | claimInterface
  | transferOut (packet : Packet)
  | transferIn (size : ℕ)
  | releaseInterface
  | close
  | exit
deriving DecidableEq

/-- The result of a library call. -/
structure Result where
  r : ℤ
  data : List UInt8
deriving DecidableEq

/-- A packet of one byte, the buttons; the loops that wait for a reply discard it. -/
def Discarded (result : Result) : Prop := result.r = 0 ∧ result.data.length = 1

instance (result : Result) : Decidable (Discarded result) :=
  inferInstanceAs (Decidable (_ ∧ _))

/-- A target microcontroller of the data base, `CibleAVR`. -/
structure CibleAVR where
  signature : List UInt8
  nom : String
  tailleFlash : UInt32
  taillePage : UInt16
deriving DecidableEq

/-- What the program prints, titles left out. -/
inductive Message where
  | initError
  | deviceNotFound
  | claimError
  | signatureSent
  | signatureRequestError
  | signatureReceived (data : List UInt8)
  | signatureError
  | unknownTarget
  | target (cible : CibleAVR)
  | usage
  | missingFile
  | openError (name : String)
  | block (addr : UInt16) (words : List UInt16)
  | requestError (addr : UInt16)
  | readError (addr : UInt16)
  | writeSuccess
deriving DecidableEq

/-- Code cut at its library calls. -/
structure Program (σ : Type) where
  call : σ → Option Call
  resume : σ → Result → σ × List Message

/-- A program under way: its state, the calls made so far with their results, and what it has
printed. -/
structure Host (σ : Type) where
  state : σ
  calls : List (Call × Result)
  out : List Message

namespace Program

variable {σ : Type} (P : Program σ)

/-- A program at its start. -/
def start (s : σ) : Host σ := ⟨s, [], []⟩

/-- The next call returns `result`. -/
def step (h : Host σ) (result : Result) : Host σ :=
  match P.call h.state with
  | none => h
  | some call =>
    { state := (P.resume h.state result).1,
      calls := h.calls ++ [(call, result)],
      out := h.out ++ (P.resume h.state result).2 }

theorem step_of_call {h : Host σ} {call : Call} (hcall : P.call h.state = some call)
    (result : Result) :
    P.step h result =
      { state := (P.resume h.state result).1,
        calls := h.calls ++ [(call, result)],
        out := h.out ++ (P.resume h.state result).2 } := by
  rw [step, hcall]

theorem step_returned {h : Host σ} (hcall : P.call h.state = none) (result : Result) :
    P.step h result = h := by
  rw [step, hcall]

end Program

end Software
end AvrProgrammer
