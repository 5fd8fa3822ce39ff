import AvrProgrammer.Bytes
import AvrProgrammer.Library.Runs

/-!
# The programs for the buttons of the board

Two small programs read the buttons of the board again and again: `ISP_tests/boutons.c` shows
them on the LEDs, and `CheckButtons` of `firmware/VirtualSerial` writes them to the serial port.
Neither debounces, and both read `PINC` anew for every condition, so that the buttons may change
within a turn: the environment gives each reading a value of its own.

`boutons_leds` says which LEDs are lit after any number of turns. They are not a function of the
buttons: LED 3 (`L7`) stays on after both buttons were pressed, until a turn finds none.
`checkButtons_lines` says that `ActionSent` never holds a line back.
-/

namespace AvrProgrammer
namespace Firmware

open Runs

/-- `PINC` where a turn reads it: for `b6` and `b7` together, and for each of them alone. A
reading that the turn does not come to has any value. -/
structure Lectures where
  deuxB6 : UInt8
  deuxB7 : UInt8
  seulB7 : UInt8
  seulB6 : UInt8

def b7 : UInt8 := 0b10000000
def b6 : UInt8 := 0b01000000

/-- `lire_bouton`, and `Button_Status` of `VirtualSerial.c`. -/
def lireBouton (pinC bouton : UInt8) : Bool := pinC &&& bouton == 0

/-! ## `boutons.c` -/

namespace Boutons

def L5 : UInt8 := 0b11011111
def L6 : UInt8 := 0b10111111
def L7 : UInt8 := 0b01111111

/-- `ecrire_LED`. -/
def ecrireLED (LED : UInt8) (etat : ℤ) (portB : UInt8) : UInt8 :=
  if etat = 0 then portB &&& LED
  else if etat = 1 then portB ||| ~~~LED
  else portB

/-- One turn of `while (1)`. -/
def tour (portB : UInt8) (p : Lectures) : UInt8 :=
  if lireBouton p.deuxB6 b6 && lireBouton p.deuxB7 b7 then
    ecrireLED L5 0 (ecrireLED L6 0 (ecrireLED L7 1 portB))
  else if lireBouton p.seulB7 b7 then ecrireLED L5 1 portB
  else if lireBouton p.seulB6 b6 then ecrireLED L6 1 portB
  else ecrireLED L7 0 (ecrireLED L5 0 (ecrireLED L6 0 portB))

/-- What a turn has found. -/
inductive Presse where
  | lesDeux
  | b7Seul
  | b6Seul
  | aucun
deriving DecidableEq

def presse (p : Lectures) : Presse :=
  if lireBouton p.deuxB6 b6 && lireBouton p.deuxB7 b7 then .lesDeux
  else if lireBouton p.seulB7 b7 then .b7Seul
  else if lireBouton p.seulB6 b6 then .b6Seul
  else .aucun

/-- The LED is lit. -/
def allumee (LED portB : UInt8) : Bool := portB &&& ~~~LED != 0

/-- What a turn does with the LED: it switches it on or off, or leaves it as it is. -/
def ordre (LED : UInt8) : Presse → Option Bool
  | .lesDeux => some (LED = L7)
  | .b7Seul => if LED = L5 then some true else none
  | .b6Seul => if LED = L6 then some true else none
  | .aucun => some false

/-- The bits of port B without a LED. -/
def reste : UInt8 := L5 &&& L6 &&& L7

theorem allumee_tour {LED : UInt8} (hLED : LED ∈ [L5, L6, L7]) (portB : UInt8) (p : Lectures) :
    allumee LED (tour portB p) = (ordre LED (presse p)).getD (allumee LED portB) := by
  -- the facts about one byte, for each LED and each branch
  have hbytes : ∀ portB : UInt8,
      allumee LED (ecrireLED L5 0 (ecrireLED L6 0 (ecrireLED L7 1 portB)))
        = (ordre LED .lesDeux).getD (allumee LED portB) ∧
      allumee LED (ecrireLED L5 1 portB) = (ordre LED .b7Seul).getD (allumee LED portB) ∧
      allumee LED (ecrireLED L6 1 portB) = (ordre LED .b6Seul).getD (allumee LED portB) ∧
      allumee LED (ecrireLED L7 0 (ecrireLED L5 0 (ecrireLED L6 0 portB)))
        = (ordre LED .aucun).getD (allumee LED portB) := by
    rw [List.mem_cons, List.mem_cons, List.mem_singleton] at hLED
    rcases hLED with rfl | rfl | rfl <;> decide +kernel
  obtain ⟨hdeux, hb7, hb6, haucun⟩ := hbytes portB
  unfold tour presse
  split_ifs
  · exact hdeux
  · exact hb7
  · exact hb6
  · exact haucun

theorem reste_tour (portB : UInt8) (p : Lectures) : tour portB p &&& reste = portB &&& reste := by
  have hbytes : ∀ portB : UInt8,
      ecrireLED L5 0 (ecrireLED L6 0 (ecrireLED L7 1 portB)) &&& reste = portB &&& reste ∧
      ecrireLED L5 1 portB &&& reste = portB &&& reste ∧
      ecrireLED L6 1 portB &&& reste = portB &&& reste ∧
      ecrireLED L7 0 (ecrireLED L5 0 (ecrireLED L6 0 portB)) &&& reste = portB &&& reste := by
    decide +kernel
  obtain ⟨hdeux, hb7, hb6, haucun⟩ := hbytes portB
  unfold tour
  split_ifs
  · exact hdeux
  · exact hb7
  · exact hb6
  · exact haucun

/-- The LEDs after the turns `tours`. -/
structure Leds (portB : UInt8) (tours : List Lectures) : Prop where
  /-- Each LED is as the last turn left it that did something with it, -/
  derniere : ∀ LED ∈ [L5, L6, L7], allumee LED (run tour portB tours) =
    (latest (fun p => ordre LED (presse p)) tours).getD (allumee LED portB)
  /-- one is lit exactly if the last turn has found a button, -/
  uneAllumee : ∀ p, tours.getLast? = some p →
    ((∃ LED ∈ [L5, L6, L7], allumee LED (run tour portB tours)) ↔ presse p ≠ .aucun)
  /-- and the other pins are left alone. -/
  reste : run tour portB tours &&& reste = portB &&& reste

/-- In every run, however the buttons change. -/
theorem boutons_leds (portB : UInt8) (tours : List Lectures) : Leds portB tours := by
  have hlatest : ∀ LED ∈ [L5, L6, L7], ∀ tours : List Lectures,
      allumee LED (run tour portB tours) =
        (latest (fun p => ordre LED (presse p)) tours).getD (allumee LED portB) :=
    fun LED hLED => variable_run (allumee_tour hLED) portB
  refine ⟨fun LED hLED => hlatest LED hLED tours, ?_, ?_⟩
  · intro p hp
    obtain ⟨before, rfl⟩ := List.getLast?_eq_some_iff.mp hp
    have hlast : ∀ LED ∈ [L5, L6, L7], allumee LED (run tour portB (before ++ [p])) =
        (ordre LED (presse p)).getD (allumee LED (run tour portB before)) := by
      intro LED hLED
      rw [run_append, run_cons, run_nil]
      exact allumee_tour hLED _ p
    constructor
    · rintro ⟨LED, hLED, hlit⟩ hnone
      rw [hlast LED hLED, hnone] at hlit
      cases hlit
    · intro hsome
      -- the LED the turn has switched on
      cases hpresse : presse p with
      | aucun => exact absurd hpresse hsome
      | lesDeux => exact ⟨L7, by decide, by rw [hlast L7 (by decide), hpresse]; rfl⟩
      | b7Seul => exact ⟨L5, by decide, by rw [hlast L5 (by decide), hpresse]; rfl⟩
      | b6Seul => exact ⟨L6, by decide, by rw [hlast L6 (by decide), hpresse]; rfl⟩
  · apply run_invariant (I := fun portB' => portB' &&& Boutons.reste = portB &&& Boutons.reste)
    · intro portB' p h
      rw [reste_tour, h]
    · rfl

end Boutons

/-! ## `VirtualSerial.c` -/

namespace VirtualSerial

/-- `ReportString`. -/
inductive ReportString where
  | bothPressed
  | b6Pressed
  | b7Pressed
deriving DecidableEq

def ReportString.text : ReportString → String
  | .bothPressed => "\x1b[1;32mboth pressed\x1b[0m\r\n"
  | .b6Pressed => "\x1b[1;31mb6 pressed\x1b[0m\r\n"
  | .b7Pressed => "\x1b[1;33mb7 pressed\x1b[0m\r\n"

/-- `ActionSent`, the number of delays of 250 ms, and `USBSerialStream`. -/
structure Vars where
  actionSent : Bool
  delays : ℕ
  stream : String

/-- The first half of `CheckButtons`: which string is reported. -/
def reportString (p : Lectures) : Option ReportString :=
  if lireBouton p.deuxB6 b6 && lireBouton p.deuxB7 b7 then some .bothPressed
  else if lireBouton p.seulB6 b6 then some .b6Pressed
  else if lireBouton p.seulB7 b7 then some .b7Pressed
  else none

/-- `CheckButtons`. -/
def checkButtons (v : Vars) (p : Lectures) : Vars :=
  -- every branch that finds a button waits and clears `ActionSent`
  let v := match reportString p with
    | none => v
    | some _ => { v with delays := v.delays + 1, actionSent := false }
  match reportString p with
  | none => v
  | some report =>
    if v.actionSent = false then
      { v with actionSent := true, stream := v.stream ++ report.text }
    else v

/-- In every run each turn that finds a button writes its line and waits once, whatever
`ActionSent` was. -/
theorem checkButtons_lines (v : Vars) (tours : List Lectures) :
    (run checkButtons v tours).stream
        = v.stream ++ String.join ((tours.filterMap reportString).map ReportString.text) ∧
      (run checkButtons v tours).delays = v.delays + (tours.filterMap reportString).length := by
  induction tours generalizing v with
  | nil => simp
  | cons p tours ih =>
    obtain ⟨hstream, hdelays⟩ := ih (checkButtons v p)
    rw [run_cons, hstream, hdelays]
    cases hreport : reportString p with
    | none => simp [checkButtons, hreport]
    | some report =>
      rw [List.filterMap_cons_some hreport]
      simp [checkButtons, hreport, String.append_assoc]
      omega

end VirtualSerial

end Firmware
end AvrProgrammer
