import AvrProgrammer.Software.FonctionsTest
import AvrProgrammer.Library.Changes

/-!
# `software/fonctions_test/main_pc.c`

One turn of the loop reads at most one key, sends the LEDs if they have changed, and makes one
IN transfer. `data_out` is a shadow of the LEDs: each order carries all of them, so that it does
not matter whether the orders before it have arrived.

`mainPc_correct` says what the program does in every run: it displays the changes of the
buttons, its orders show which keys were pressed an odd number of times, and it stops in the
turn in which `q` is pressed.
-/

namespace AvrProgrammer
namespace Software
namespace MainPc

open Runs Changes

/-! ## What a run shows -/

/-- The variables of a state. -/
def State.vars : State → Vars
  | .send v | .receive v | .quit v => v

/-- The packets of one byte that were received. -/
def received (calls : List (Call × Result)) : List UInt8 :=
  calls.filterMap fun call => match call with
    | (.transferIn _, ⟨0, [dataIn]⟩) => some dataIn
    | _ => none

/-- The orders that were sent, whether they arrived or not. -/
def orders (calls : List (Call × Result)) : List UInt8 :=
  calls.filterMap fun call => match call with
    | (.transferOut [dataOut], _) => some dataOut
    | _ => none

/-- The buttons on the screen. -/
def displayed (printed : List Line) : List UInt8 :=
  printed.filterMap fun line => match line with
    | .etat dataIn _ => some dataIn
    | _ => none

section
variable (calls calls' : List (Call × Result)) (result : Result)

@[simp] theorem received_append : received (calls ++ calls') = received calls ++ received calls' :=
  List.filterMap_append

@[simp] theorem received_transferOut (p : Packet) : received [(.transferOut p, result)] = [] := rfl

@[simp] theorem orders_append : orders (calls ++ calls') = orders calls ++ orders calls' :=
  List.filterMap_append

@[simp] theorem orders_transferIn (size : ℕ) : orders [(.transferIn size, result)] = [] := rfl

@[simp] theorem orders_transferOut (dataOut : UInt8) :
    orders [(.transferOut [dataOut], result)] = [dataOut] := rfl

end

@[simp] theorem displayed_append (printed printed' : List Line) :
    displayed (printed ++ printed') = displayed printed ++ displayed printed' :=
  List.filterMap_append

/-! ## The keys -/

/-- The LED of a key. -/
def mask : Option Char → UInt8
  | some 'e' => (1 : UInt8) <<< 5
  | some 'z' => (1 : UInt8) <<< 6
  | some 'a' => (1 : UInt8) <<< 7
  | _ => 0

/-- How often a key was pressed before turn `n`. -/
def presses (keys : ℕ → Option Char) (c : Char) (n : ℕ) : ℕ :=
  (List.range n).countP fun i => keys i = some c

/-- The LED of the key `c`. -/
def lit (keys : ℕ → Option Char) (c : Char) (n : ℕ) : UInt8 :=
  if presses keys c n % 2 = 1 then mask (some c) else 0

/-- The LEDs whose keys were pressed an odd number of times before turn `n`. -/
def leds (keys : ℕ → Option Char) (n : ℕ) : UInt8 :=
  lit keys 'e' n ||| lit keys 'z' n ||| lit keys 'a' n

/-- The orders of the turns before `n`. -/
def ordersBefore (keys : ℕ → Option Char) (n : ℕ) : List UInt8 :=
  ((List.range n).filter fun i => mask (keys i) ≠ 0).map fun i => leds keys (i + 1)

section
variable (keys : ℕ → Option Char) (n : ℕ)

theorem presses_succ (c : Char) :
    presses keys c (n + 1) = presses keys c n + if keys n = some c then 1 else 0 := by
  rw [presses, List.range_succ, List.countP_append, List.countP_singleton]
  simp [presses]

theorem lit_succ (c : Char) :
    lit keys c (n + 1) = lit keys c n ^^^ if keys n = some c then mask (some c) else 0 := by
  unfold lit
  rw [presses_succ]
  by_cases hkey : keys n = some c
  · rw [if_pos hkey, if_pos hkey]
    by_cases hodd : presses keys c n % 2 = 1
    · rw [if_pos hodd, if_neg (by omega), UInt8.xor_self]
    · rw [if_neg hodd, if_pos (by omega), UInt8.zero_xor]
  · rw [if_neg hkey, if_neg hkey, UInt8.xor_zero, Nat.add_zero]

/-- A LED is lit or not. -/
theorem lit_cases (c : Char) : lit keys c n = 0 ∨ lit keys c n = mask (some c) := by
  unfold lit
  split_ifs
  · exact .inr rfl
  · exact .inl rfl

/-- No two keys have the same LED. -/
theorem leds_eq_xor : leds keys n = lit keys 'e' n ^^^ lit keys 'z' n ^^^ lit keys 'a' n := by
  unfold leds
  rcases lit_cases keys n 'e' with he | he <;> rcases lit_cases keys n 'z' with hz | hz <;>
    rcases lit_cases keys n 'a' with ha | ha <;> rw [he, hz, ha] <;> decide

theorem mask_eq_xor (key : Option Char) :
    mask key = (if key = some 'e' then mask (some 'e') else 0) ^^^
      (if key = some 'z' then mask (some 'z') else 0) ^^^
        if key = some 'a' then mask (some 'a') else 0 := by
  by_cases he : key = some 'e'
  · rw [he]
    decide
  by_cases hz : key = some 'z'
  · rw [hz]
    decide
  by_cases ha : key = some 'a'
  · rw [ha]
    decide
  rw [if_neg he, if_neg hz, if_neg ha]
  unfold mask
  split
  · exact absurd rfl he
  · exact absurd rfl hz
  · exact absurd rfl ha
  · rfl

/-- A key toggles its LED. -/
theorem leds_succ : leds keys (n + 1) = leds keys n ^^^ mask (keys n) := by
  rw [leds_eq_xor, leds_eq_xor, lit_succ, lit_succ, lit_succ, mask_eq_xor (keys n)]
  ac_rfl

/-- A turn with a LED key makes one order, of all LEDs. -/
theorem ordersBefore_succ :
    ordersBefore keys (n + 1) = ordersBefore keys n ++
      if mask (keys n) ≠ 0 then [leds keys (n + 1)] else [] := by
  rw [ordersBefore, List.range_succ, List.filter_append, List.map_append, ordersBefore]
  congr 1
  by_cases hkey : mask (keys n) ≠ 0
  · rw [if_pos hkey, List.filter_cons_of_pos (by simpa using hkey), List.filter_nil,
      List.map_singleton]
  · rw [if_neg hkey, List.filter_cons_of_neg (by simpa using hkey), List.filter_nil, List.map_nil]

/-- `switch (c)`. -/
theorem lectureClavier_eq (key : Option Char) (v : Vars) :
    lectureClavier key v =
      if mask key ≠ 0 then .send { v with dataOut := v.dataOut ^^^ mask key }
      else .receive { v with running := v.running && key ≠ some 'q' } := by
  cases key with
  | none => simp [lectureClavier, mask]
  | some c =>
    unfold lectureClavier
    dsimp only
    by_cases he : c = 'e'
    · rw [if_pos he, he]
      rfl
    by_cases hz : c = 'z'
    · rw [if_neg he, if_pos hz, hz]
      rfl
    by_cases ha : c = 'a'
    · rw [if_neg he, if_neg hz, if_pos ha, ha]
      rfl
    have hmask : mask (some c) = 0 := by
      unfold mask
      split
      all_goals simp_all
    rw [if_neg he, if_neg hz, if_neg ha, hmask]
    by_cases hq : c = 'q'
    · simp [hq]
    · simp [hq]

end

/-! ## The invariant -/

variable {keys : ℕ → Option Char} {v : Vars} {calls : List (Call × Result)}

/-- The variables when the keys of the turns before `n` are read. -/
structure VarsInv (keys : ℕ → Option Char) (n : ℕ) (v : Vars) (calls : List (Call × Result)) :
    Prop where
  displayed : displayed v.printed = changes 0xFF (received calls)
  last : v.lastDataIn = current 0xFF (received calls)
  dataOut : v.dataOut = leds keys n
  running : v.running = true ↔ ∀ i < n, keys i ≠ some 'q'
  before : ∀ i, i + 1 < n → keys i ≠ some 'q'

/-- The states of the loop. -/
inductive StateInv (keys : ℕ → Option Char) : State → List (Call × Result) → Prop
  | send {v : Vars} {calls : List (Call × Result)} (hvars : VarsInv keys (v.turn + 1) v calls)
    (hkey : mask (keys v.turn) ≠ 0) (hsent : orders calls = ordersBefore keys v.turn)
    (hcalls : calls.length ≤ 2 * v.turn) : StateInv keys (.send v) calls
  | receive {v : Vars} {calls : List (Call × Result)} (hvars : VarsInv keys (v.turn + 1) v calls)
    (hsent : orders calls = ordersBefore keys (v.turn + 1))
    (hcalls : calls.length ≤ 2 * v.turn + 1) : StateInv keys (.receive v) calls
  | quit {v : Vars} {calls : List (Call × Result)} (hvars : VarsInv keys (v.turn + 1) v calls)
    (hsent : orders calls = ordersBefore keys (v.turn + 1)) (hstopped : v.running = false) :
    StateInv keys (.quit v) calls

/-- The key of a turn is read. -/
theorem stateInv_lectureClavier (hvars : VarsInv keys v.turn v calls)
    (hrunning : v.running = true) (hsent : orders calls = ordersBefore keys v.turn)
    (hcalls : calls.length ≤ 2 * v.turn) :
    StateInv keys (lectureClavier (keys v.turn) v) calls := by
  have hbefore : ∀ i < v.turn, keys i ≠ some 'q' := hvars.running.mp hrunning
  rw [lectureClavier_eq]
  split_ifs with hkey
  · have hq : keys v.turn ≠ some 'q' := by
      intro hq
      rw [hq] at hkey
      exact hkey rfl
    have hdataOut : v.dataOut ^^^ mask (keys v.turn) = leds keys (v.turn + 1) := by
      rw [hvars.dataOut, leds_succ]
    apply StateInv.send
    · refine ⟨hvars.displayed, hvars.last, hdataOut, iff_of_true hrunning fun i hi => ?_,
        fun i hi => hbefore i (Nat.lt_of_succ_lt_succ hi)⟩
      rcases Nat.lt_or_eq_of_le (Nat.le_of_lt_succ hi) with hlt | rfl
      · exact hbefore i hlt
      · exact hq
    · exact hkey
    · exact hsent
    · exact hcalls
  · have hdataOut : v.dataOut = leds keys (v.turn + 1) := by
      rw [hvars.dataOut, leds_succ, not_not.mp hkey, UInt8.xor_zero]
    apply StateInv.receive
    · refine ⟨hvars.displayed, hvars.last, hdataOut, ?_,
        fun i hi => hbefore i (Nat.lt_of_succ_lt_succ hi)⟩
      show (v.running && decide (keys v.turn ≠ some 'q')) = true ↔ _
      rw [hrunning, Bool.true_and, decide_eq_true_iff]
      constructor
      · intro hq i hi
        rcases Nat.lt_or_eq_of_le (Nat.le_of_lt_succ hi) with hlt | rfl
        · exact hbefore i hlt
        · exact hq
      · exact fun h => h v.turn (Nat.lt_succ_self _)
    · show orders calls = ordersBefore keys (v.turn + 1)
      rw [ordersBefore_succ, if_neg hkey, hsent, List.append_nil]
    · exact Nat.le_succ_of_le hcalls

/-- An order is sent. -/
theorem stateInv_afterSend (h : StateInv keys (.send v) calls) (result : Result) :
    StateInv keys (.receive (afterSend v result))
      (calls ++ [(.transferOut [v.dataOut], result)]) := by
  cases h with
  | send hvars hkey hsent hcalls =>
    have hprinted : displayed (afterSend v result).printed = displayed v.printed := by
      unfold afterSend
      split_ifs <;> exact (displayed_append ..).trans (List.append_nil _)
    refine .receive ⟨?_, ?_, hvars.dataOut, hvars.running, hvars.before⟩ ?_ ?_
    · rw [hprinted, hvars.displayed]
      simp
    · exact hvars.last.trans (by simp)
    · show _ = ordersBefore keys (v.turn + 1)
      rw [orders_append, orders_transferOut, ordersBefore_succ, if_pos hkey, hsent, hvars.dataOut]
    · rw [List.length_append]
      exact Nat.succ_le_succ hcalls

/-- What an IN transfer does with the variables. -/
theorem varsInv_afterReceive {n : ℕ} (h : VarsInv keys n v calls) (size : ℕ) (result : Result) :
    VarsInv keys n (afterReceive v result) (calls ++ [(.transferIn size, result)]) ∧
      (afterReceive v result).turn = v.turn := by
  unfold afterReceive
  split
  next dataIn =>
    have hreceived : received [(.transferIn size, ⟨0, [dataIn]⟩)] = [dataIn] := rfl
    by_cases hchanged : dataIn ≠ v.lastDataIn
    · rw [if_pos hchanged]
      refine ⟨⟨?_, ?_, h.dataOut, h.running, h.before⟩, rfl⟩
      · rw [displayed_append, received_append, hreceived, changes_append, ← h.last, changes_cons,
          if_pos hchanged.symm, h.displayed]
        rfl
      · rw [received_append, hreceived, current_append]
        rfl
    · have hsame : dataIn = v.lastDataIn := not_not.mp hchanged
      rw [if_neg hchanged]
      refine ⟨⟨?_, ?_, h.dataOut, h.running, h.before⟩, rfl⟩
      · rw [received_append, hreceived, changes_append, ← h.last, changes_cons,
          if_neg (not_not.mpr hsame.symm), h.displayed]
        exact (List.append_nil _).symm
      · rw [received_append, hreceived, current_append]
        exact hsame.symm
  next hother =>
    have hnone : received [(.transferIn size, result)] = [] := by
      unfold received
      rw [List.filterMap_cons_none]
      · rfl
      · split
        next heq =>
          cases heq
          exact absurd rfl (hother _)
        next => rfl
    refine ⟨⟨?_, ?_, h.dataOut, h.running, h.before⟩, rfl⟩
    · rw [received_append, hnone, List.append_nil, h.displayed]
    · rw [received_append, hnone, List.append_nil, h.last]

/-- A turn ends. -/
theorem stateInv_endTurn (h : StateInv keys (.receive v) calls) (result : Result) :
    StateInv keys (endTurn keys (afterReceive v result))
      (calls ++ [(.transferIn 1, result)]) := by
  cases h with
  | receive hvars hsent hcalls =>
    obtain ⟨hvars', hturn⟩ := varsInv_afterReceive hvars 1 result
    generalize afterReceive v result = v' at hvars' hturn ⊢
    have hsent' : orders (calls ++ [(.transferIn 1, result)]) = ordersBefore keys (v'.turn + 1) := by
      rw [orders_append, orders_transferIn, List.append_nil, hturn, hsent]
    rw [← hturn] at hvars'
    unfold endTurn
    split_ifs with hrunning
    · refine stateInv_lectureClavier (v := { v' with turn := v'.turn + 1 })
        ⟨hvars'.displayed, hvars'.last, hvars'.dataOut, hvars'.running, hvars'.before⟩ hrunning hsent' ?_
      rw [List.length_append, hturn]
      exact Nat.succ_le_succ hcalls
    · exact .quit hvars' hsent' (by simpa using hrunning)

/-- Every call keeps the invariant. -/
theorem StateInv.step {h : Host State} (hinv : StateInv keys h.state h.calls) (result : Result) :
    StateInv keys ((mainPc keys).step h result).state ((mainPc keys).step h result).calls := by
  obtain ⟨s, calls, out⟩ := h
  cases s with
  | send v => exact stateInv_afterSend hinv result
  | receive v => exact stateInv_endTurn hinv result
  | quit v => exact hinv

theorem stateInv_run (keys : ℕ → Option Char) (results : List Result) :
    let h := run (mainPc keys).step (Program.start (lectureClavier (keys 0) initial)) results
    StateInv keys h.state h.calls := by
  apply run_invariant (I := fun h : Host State => StateInv keys h.state h.calls)
  · exact fun h result hinv => hinv.step result
  · have hleds : (0 : UInt8) = leds keys 0 := by
      simp [leds, lit, presses]
    have hstart : VarsInv keys initial.turn initial [] := ⟨rfl, rfl, hleds, by simp [initial], nofun⟩
    exact @stateInv_lectureClavier keys initial [] hstart rfl rfl (Nat.le_refl 0)

/-! ## Single calls -/

/-- The end of a turn and the key of the next one keep what was received. -/
theorem endTurn_vars (keys : ℕ → Option Char) (v : Vars) :
    (endTurn keys v).vars.lastDataIn = v.lastDataIn ∧ v.turn ≤ (endTurn keys v).vars.turn ∧
      (endTurn keys v).vars.turn ≤ v.turn + 1 := by
  unfold endTurn
  rw [lectureClavier_eq]
  split_ifs
  · exact ⟨rfl, Nat.le_succ _, Nat.le_refl _⟩
  · exact ⟨rfl, Nat.le_succ _, Nat.le_refl _⟩
  · exact ⟨rfl, Nat.le_refl _, Nat.le_succ _⟩

/-- No call takes a turn back. -/
theorem turn_le_resume (keys : ℕ → Option Char) (s : State) (result : Result) :
    s.vars.turn ≤ ((mainPc keys).resume s result).1.vars.turn := by
  cases s with
  | send | quit => exact Nat.le_refl _
  | receive v =>
    have hturn : (afterReceive v result).turn = v.turn := by
      unfold afterReceive
      split
      · split_ifs <;> rfl
      · rfl
    have hle := (endTurn_vars keys (afterReceive v result)).2.1
    rw [hturn] at hle
    exact hle

/-- A button packet is received. -/
theorem resume_button (keys : ℕ → Option Char) (v : Vars) (dataIn : UInt8) :
    ((mainPc keys).resume (.receive v) ⟨0, [dataIn]⟩).1.vars.lastDataIn = dataIn ∧
      ((mainPc keys).resume (.receive v) ⟨0, [dataIn]⟩).1.vars.turn ≤ v.turn + 1 := by
  obtain ⟨hlast, -, hlt⟩ := endTurn_vars keys (afterReceive v ⟨0, [dataIn]⟩)
  have hreceive : (afterReceive v ⟨0, [dataIn]⟩).lastDataIn = dataIn ∧
      (afterReceive v ⟨0, [dataIn]⟩).turn = v.turn := by
    have heq : afterReceive v ⟨0, [dataIn]⟩ = if dataIn ≠ v.lastDataIn then
        { v with lastDataIn := dataIn, printed := v.printed ++ [.etat dataIn (parts dataIn)] }
      else v := rfl
    rw [heq]
    split_ifs with hsame
    · exact ⟨rfl, rfl⟩
    · exact ⟨(not_not.mp hsame).symm, rfl⟩
  rw [hreceive.1] at hlast
  rw [hreceive.2] at hlt
  exact ⟨hlast, hlt⟩

/-- The program goes on as long as `q` is not pressed. -/
theorem StateInv.running {s : State} (h : StateInv keys s calls)
    (hkeys : ∀ i, keys i ≠ some 'q') :
    (mainPc keys).call s ≠ none ∧ calls.length ≤ 2 * s.vars.turn + 1 := by
  cases h with
  | send hvars hkey hsent hcalls => exact ⟨Option.some_ne_none _, Nat.le_succ_of_le hcalls⟩
  | receive hvars hsent hcalls => exact ⟨Option.some_ne_none _, hcalls⟩
  | quit hvars hsent hstopped =>
    have hgoes := hvars.running.mpr fun i _ => hkeys i
    rw [hstopped] at hgoes
    cases hgoes

/-! ## Main result -/

/-- What a run of `main_pc.c` has done. -/
structure Correct (keys : ℕ → Option Char) (results : List Result) (h : Host State) : Prop where
  /-- The screen shows the changes of the buttons. -/
  displayed : displayed h.state.vars.printed = changes 0xFF (received h.calls)
  /-- The orders are those of the keys, the one of this turn sent or not. -/
  orders : orders h.calls = ordersBefore keys h.state.vars.turn ∨
    orders h.calls = ordersBefore keys (h.state.vars.turn + 1)
  /-- It stops in the first turn in which `q` is pressed, -/
  stopped : (mainPc keys).call h.state = none →
    keys h.state.vars.turn = some 'q' ∧ ∀ i < h.state.vars.turn, keys i ≠ some 'q'
  /-- and every turn takes at most two calls. -/
  stops : ∀ n, keys n = some 'q' → 2 * n + 2 ≤ results.length → (mainPc keys).call h.state = none

/-- Until it stops, every result is the one of a call. -/
theorem length_calls (keys : ℕ → Option Char) {h : Host State} (results : List Result)
    (hrunning : (mainPc keys).call (run (mainPc keys).step h results).state ≠ none) :
    (run (mainPc keys).step h results).calls.length = h.calls.length + results.length := by
  induction results generalizing h with
  | nil => rfl
  | cons result results ih =>
    rw [run_cons] at hrunning ⊢
    rw [ih hrunning]
    cases hcall : (mainPc keys).call h.state with
    | none =>
      -- a program that has returned does not start again
      have hstays : run (mainPc keys).step h results = h :=
        run_invariant (I := (· = h))
          (fun h' _ hh => by rw [hh]; exact Program.step_returned _ hcall _) rfl results
      rw [Program.step_returned _ hcall, hstays] at hrunning
      exact absurd hcall hrunning
    | some call =>
      rw [Program.step_of_call _ hcall, List.length_append, List.length_cons, List.length_cons,
        List.length_nil]
      omega

/-- The variables in every state. -/
theorem StateInv.vars {s : State} (h : StateInv keys s calls) :
    VarsInv keys (s.vars.turn + 1) s.vars calls := by
  cases h with
  | send hvars | receive hvars | quit hvars => exact hvars

/-- A run of `2 n + 2` calls has come to the end of turn `n`. -/
theorem StateInv.stopped {s : State} (h : StateInv keys s calls) {n : ℕ} (hn : keys n = some 'q')
    (hcalls : 2 * n + 2 ≤ calls.length) : (mainPc keys).call s = none := by
  -- no turn comes after the one in which `q` is pressed
  have hturn : s.vars.turn ≤ n := by
    by_contra hlater
    exact h.vars.before n (by omega) hn
  cases h with
  | send hvars hkey hsent hbound | receive hvars hsent hbound =>
    simp only [State.vars] at hturn
    omega
  | quit => rfl

/-- In every run, whatever libusb returns and whatever keys are pressed, the screen shows the
changes of the buttons that were received, the orders are those of the keys, and the program
stops in the turn in which `q` is pressed. -/
theorem mainPc_correct (keys : ℕ → Option Char) (results : List Result) :
    Correct keys results
      (run (mainPc keys).step (Program.start (lectureClavier (keys 0) initial)) results) := by
  have hinv := stateInv_run keys results
  have hlength := length_calls keys (h := Program.start (lectureClavier (keys 0) initial)) results
  generalize run (mainPc keys).step (Program.start (lectureClavier (keys 0) initial)) results = h
    at hinv hlength ⊢
  obtain ⟨s, calls, out⟩ := h
  replace hinv : StateInv keys s calls := hinv
  have hbefore : ∀ i < s.vars.turn, keys i ≠ some 'q' := fun i hi =>
    hinv.vars.before i (Nat.succ_lt_succ hi)
  refine ⟨hinv.vars.displayed, ?_, fun hcall => ⟨?_, hbefore⟩, fun n hn hlen => ?_⟩
  · cases hinv with
    | send hvars hkey hsent => exact .inl hsent
    | receive hvars hsent | quit hvars hsent => exact .inr hsent
  · have hstopped : s.vars.running = false := by
      cases hinv with
      | send | receive => cases hcall
      | quit hvars hsent hstopped => exact hstopped
    by_contra hq
    have hrunning := hinv.vars.running.mpr fun i hi => by
      rcases Nat.lt_or_eq_of_le (Nat.le_of_lt_succ hi) with hlt | rfl
      · exact hbefore i hlt
      · exact hq
    rw [hstopped] at hrunning
    cases hrunning
  · by_contra hrunning
    have hcalls : calls.length = results.length := by
      rw [hlength hrunning]
      exact Nat.zero_add _
    exact hrunning (hinv.stopped hn (by omega))

end MainPc
end Software
end AvrProgrammer
