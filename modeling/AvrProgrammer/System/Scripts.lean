import AvrProgrammer.System.Server

/-!
# Scripts

Apart from the buttons, what a host program of this repository does with the server is
determined: the exchanges follow one after the other, and button packets that come before a
reply are discarded. A `Script` is such a sequence, with what the host prints. Scripts are put
together with `Script.trans`, and `Script.embed` takes a script of a function to the program
that calls it.

`script_correct` is the rule for the device: in every run without failures the host follows its
script, and under a fair schedule it gets to the end of it.
-/

namespace AvrProgrammer
namespace System

open PagedFlash Runs Firmware Software

variable {σ : Type} {chip : Chip}

/-- `Script chip P s' v' k s v out`: in the state `s`, with the server `v`, the host makes `k`
exchanges and prints `out`; then its state is `s'` and the server `v'`. -/
inductive Script (chip : Chip) (P : Program σ) (s' : σ) (v' : Server) :
    ℕ → σ → Server → List Message → Prop
  | done : Script chip P s' v' 0 s' v' []
  | send {k : ℕ} {s : σ} {v : Server} (p : Packet) {out : List Message}
    (hcall : P.call s = some (.transferOut p)) (howed : v.owed = none) (hsized : WellSized p)
    (hrest : Script chip P s' v' k (P.resume s ⟨0, []⟩).1 (v.accept chip p) out) :
    Script chip P s' v' (k + 1) s v ((P.resume s ⟨0, []⟩).2 ++ out)
  -- the states in which the host waits for the reply, among them those after a button packet
  | receive {k : ℕ} {s next : σ} {v : Server} (size : ℕ) (q : Packet) (waiting : σ → Prop)
    {printed out : List Message} (howed : v.owed = some q) (hs : waiting s)
    (hcall : ∀ s, waiting s → P.call s = some (.transferIn size))
    (hbutton : ∀ s, waiting s → ∀ b, waiting (P.resume s (taken size [b])).1 ∧
      (P.resume s (taken size [b])).2 = [])
    (hreply : ∀ s, waiting s → P.resume s (taken size q) = (next, printed))
    (hrest : Script chip P s' v' k next { v with owed := none } out) :
    Script chip P s' v' (k + 1) s v (printed ++ out)
  | control {k : ℕ} {s : σ} {v : Server} (call : Call) {out : List Message}
    (hcall : P.call s = some call) (hcontrol : IsControl call)
    (hrest : Script chip P s' v' k (P.resume s ⟨0, []⟩).1 v out) :
    Script chip P s' v' (k + 1) s v ((P.resume s ⟨0, []⟩).2 ++ out)

section
variable {P : Program σ} {s s' s'' : σ} {v v' v'' : Server} {k k' : ℕ} {out out' : List Message}

/-- One script after the other. -/
theorem Script.trans (h : Script chip P s' v' k s v out) (h' : Script chip P s'' v'' k' s' v' out') :
    Script chip P s'' v'' (k' + k) s v (out ++ out') := by
  induction h with
  | done => exact h'
  | send p hcall howed hsized _ ih =>
    rw [List.append_assoc]
    exact .send p hcall howed hsized ih
  | receive size q waiting howed hs hcall hbutton hreply _ ih =>
    rw [List.append_assoc]
    exact .receive size q waiting howed hs hcall hbutton hreply ih
  | control call hcall hcontrol _ ih =>
    rw [List.append_assoc]
    exact .control call hcall hcontrol ih

/-- A script of a function is one of a program that runs the function. -/
theorem Script.embed {τ : Type} {Q : Program τ} (f : σ → τ)
    (hcall : ∀ s call, P.call s = some call → Q.call (f s) = some call)
    (hresume : ∀ s call, P.call s = some call → ∀ result,
      Q.resume (f s) result = (f (P.resume s result).1, (P.resume s result).2))
    (h : Script chip P s' v' k s v out) : Script chip Q (f s') v' k (f s) v out := by
  induction h with
  | done => exact .done
  | send p hp howed hsized _ ih =>
    have hnext := hresume _ _ hp ⟨0, []⟩
    have hscript := Script.send (P := Q) p (hcall _ _ hp) howed hsized (by rw [hnext]; exact ih)
    rwa [hnext] at hscript
  | receive size q waiting howed hs hp hbutton hreply _ ih =>
    -- the program waits in the states of the function
    refine .receive size q (fun t => ∃ s, waiting s ∧ t = f s) howed ⟨_, hs, rfl⟩ ?_ ?_ ?_ ih
    · rintro _ ⟨s, hs, rfl⟩
      exact hcall s _ (hp s hs)
    · rintro _ ⟨s, hs, rfl⟩ b
      rw [hresume s _ (hp s hs)]
      exact ⟨⟨_, (hbutton s hs b).1, rfl⟩, (hbutton s hs b).2⟩
    · rintro _ ⟨s, hs, rfl⟩
      rw [hresume s _ (hp s hs), hreply s hs]
  | control call hp hcontrol _ ih =>
    have hnext := hresume _ _ hp ⟨0, []⟩
    have hscript := Script.control (P := Q) call (hcall _ _ hp) hcontrol (by rw [hnext]; exact ih)
    rwa [hnext] at hscript

end

/-! ## The next exchange of a script -/

section
variable {P : Program σ} {s s' : σ} {v v' : Server} {k : ℕ} {out : List Message}
  (h : Script chip P s' v' k s v out) (hend : P.call s' = none)
include h hend

theorem Script.of_transferOut {p : Packet} (hp : P.call s = some (.transferOut p)) :
    v.owed = none ∧ WellSized p ∧ ∃ k' out', k = k' + 1 ∧
      out = (P.resume s ⟨0, []⟩).2 ++ out' ∧
      Script chip P s' v' k' (P.resume s ⟨0, []⟩).1 (v.accept chip p) out' := by
  cases h with
  | done => rw [hend] at hp; cases hp
  | send p' hcall howed hsized hrest =>
    rw [hp] at hcall
    cases hcall
    exact ⟨howed, hsized, _, _, rfl, rfl, hrest⟩
  | receive size q waiting howed hs hcall => rw [hcall s hs] at hp; cases hp
  | control call hcall hcontrol =>
    rw [hp] at hcall
    cases hcall
    exact absurd hcontrol not_false

theorem Script.of_control {call : Call} (hcall : P.call s = some call)
    (hcontrol : IsControl call) :
    ∃ k' out', k = k' + 1 ∧ out = (P.resume s ⟨0, []⟩).2 ++ out' ∧
      Script chip P s' v' k' (P.resume s ⟨0, []⟩).1 v out' := by
  cases h with
  | done => rw [hend] at hcall; cases hcall
  | send p hsend =>
    rw [hsend] at hcall
    cases hcall
    exact absurd hcontrol not_false
  | receive size q waiting howed hs hwait =>
    rw [hwait s hs] at hcall
    cases hcall
    exact absurd hcontrol not_false
  | control call' _ _ hrest => exact ⟨_, _, rfl, rfl, hrest⟩

/-- The host waits for a packet only if it is owed one. A button packet leaves it where it is,
and the reply leads on. -/
theorem Script.of_transferIn {size : ℕ} (hp : P.call s = some (.transferIn size)) :
    ∃ q, v.owed = some q ∧
      (∀ b, Script chip P s' v' k (P.resume s (taken size [b])).1 v out ∧
        (P.resume s (taken size [b])).2 = [] ∧
        P.call (P.resume s (taken size [b])).1 = P.call s) ∧
      ∃ k' out', k = k' + 1 ∧ out = (P.resume s (taken size q)).2 ++ out' ∧
        Script chip P s' v' k' (P.resume s (taken size q)).1 { v with owed := none } out' := by
  cases h with
  | done => rw [hend] at hp; cases hp
  | send p hcall => rw [hcall] at hp; cases hp
  | control call hcall hcontrol =>
    rw [hp] at hcall
    cases hcall
    exact absurd hcontrol not_false
  | receive size' q waiting howed hs hwait hbutton hreply hrest =>
    obtain rfl : size' = size := by
      have hsame := hwait s hs
      rw [hp] at hsame
      injection hsame with hsame
      injection hsame with hsame
      exact hsame.symm
    have hnext := hreply s hs
    refine ⟨q, howed, fun b => ?_, _, _, rfl, by rw [hnext], by rw [hnext]; exact hrest⟩
    obtain ⟨hs', hprinted⟩ := hbutton s hs b
    refine ⟨.receive size' q waiting howed hs' hwait hbutton hreply hrest, hprinted, ?_⟩
    exact (hwait _ hs').trans hp.symm

/-- The host has returned exactly at the end of the script. -/
theorem Script.call_eq_none : P.call s = none ↔ k = 0 := by
  cases h with
  | done => simp [hend]
  | send p hcall => simp [hcall]
  | receive size q waiting howed hs hcall => simp [hcall s hs]
  | control call hcall => simp [hcall]

end

/-! ## Following a script -/

/-- The host has `k` exchanges of a script to go, and in the end it has printed `out`. -/
def Follows (chip : Chip) (P : Program σ) (s' : σ) (v' : Server) (out : List Message) (k : ℕ)
    (t : Served σ) : Prop :=
  ∃ out', t.host.out ++ out' = out ∧ Script chip P s' v' k t.host.state t.server out'

section
variable {P : Program σ} {s' : σ} {v' : Server} {out : List Message} {k : ℕ} {t t' : Served σ}
  (h : Follows chip P s' v' out k t) (hend : P.call s' = none)
include h

theorem Follows.done (hk : k = 0) : t.host.state = s' ∧ t.host.out = out ∧ t.server = v' := by
  obtain ⟨out', hout, hscript⟩ := h
  subst hk
  generalize hstate : t.host.state = s at hscript
  generalize hserver : t.server = v at hscript
  cases hscript with
  | done => exact ⟨rfl, by rw [← hout, List.append_nil], rfl⟩

include hend

theorem Follows.polite : Polite P t := by
  obtain ⟨out', -, hscript⟩ := h
  intro p hp
  obtain ⟨howed, hsized, -⟩ := hscript.of_transferOut hend hp
  exact ⟨howed, hsized⟩

theorem Follows.owed (hneed : need (P.call t.host.state) = .packet) : t.server.owed.isSome := by
  obtain ⟨out', -, hscript⟩ := h
  cases hcall : P.call t.host.state with
  | none => rw [hcall] at hneed; cases hneed
  | some call =>
    rw [hcall] at hneed
    cases call with
    | transferIn size =>
      obtain ⟨q, howed, -⟩ := hscript.of_transferIn hend hcall
      rw [howed]
      rfl
    | _ => cases hneed

/-- A button packet leaves the host where it is in the script. -/
theorem Follows.button {b : UInt8} (hserves : Serves chip P t (.button b) t') :
    Follows chip P s' v' out k t' ∧ P.call t'.host.state = P.call t.host.state := by
  obtain ⟨out', hout, hscript⟩ := h
  cases hserves with
  | button size b hcall =>
    obtain ⟨q, -, hbutton, -⟩ := hscript.of_transferIn hend hcall
    obtain ⟨hscript', hprinted, hsame⟩ := hbutton b
    rw [Program.step_of_call _ hcall]
    refine ⟨⟨out', ?_, hscript'⟩, hsame⟩
    rw [hprinted, List.append_nil]
    exact hout

/-- Every other exchange is the next one of the script. -/
theorem Follows.exchange {b : Exchange} (hb : ∀ x, b ≠ .button x)
    (hserves : Serves chip P t b t') :
    ∃ k', k = k' + 1 ∧ Follows chip P s' v' out k' t' := by
  obtain ⟨out', hout, hscript⟩ := h
  cases hserves with
  | button size b => exact absurd rfl (hb b)
  | accept p hcall =>
    obtain ⟨-, -, k', rest, hk, hrest, hscript'⟩ := hscript.of_transferOut hend hcall
    rw [Program.step_of_call _ hcall]
    exact ⟨k', hk, rest, by rw [List.append_assoc, ← hrest, hout], hscript'⟩
  | reply size q hcall hq =>
    obtain ⟨q', howed, -, k', rest, hk, hrest, hscript'⟩ := hscript.of_transferIn hend hcall
    rw [hq] at howed
    cases howed
    rw [Program.step_of_call _ hcall]
    exact ⟨k', hk, rest, by rw [List.append_assoc, ← hrest, hout], hscript'⟩
  | control call hcall hcontrol =>
    obtain ⟨k', rest, hk, hrest, hscript'⟩ := hscript.of_control hend hcall hcontrol
    rw [Program.step_of_call _ hcall]
    exact ⟨k', hk, rest, by rw [List.append_assoc, ← hrest, hout], hscript'⟩

theorem Follows.returned : P.call t.host.state = none ↔ k = 0 := by
  obtain ⟨out', -, hscript⟩ := h
  exact hscript.call_eq_none hend

end

/-- An exchange that does not fit the call of the host changes nothing. -/
theorem serve_eq_or_serves (chip : Chip) (P : Program σ) (t : Served σ) (b : Exchange) :
    serve chip P t b = t ∨ Serves chip P t b (serve chip P t b) := by
  cases hcall : P.call t.host.state with
  | none =>
    left
    cases b <;> simp only [serve, hcall]
  | some call =>
    cases b with
    | accept =>
      cases call with
      | transferOut p => rw [serve_accept hcall]; exact .inr (.accept p hcall)
      | _ => left; simp only [serve, hcall]
    | button b =>
      cases call with
      | transferIn size => rw [serve_button hcall]; exact .inr (.button size b hcall)
      | _ => left; simp only [serve, hcall]
    | reply =>
      cases call with
      | transferIn size =>
        cases hq : t.server.owed with
        | none => left; simp only [serve, hcall, hq]
        | some q => rw [serve_reply hcall hq]; exact .inr (.reply size q hcall hq)
      | _ => left; simp only [serve, hcall]
    | control =>
      by_cases hcontrol : IsControl call
      · rw [serve_control hcall hcontrol]
        exact .inr (.control call hcall hcontrol)
      · left
        cases call with
        | transferOut | transferIn => simp only [serve, hcall]
        | _ => exact absurd trivial hcontrol

/-- A host that follows a script is polite in every run with the server. -/
theorem Script.polite {P : Program σ} {s s' : σ} {v v' : Server} {k : ℕ} {out : List Message}
    (h : Script chip P s' v' k s v out) (hend : P.call s' = none) (bs : List Exchange) :
    Polite P (run (serve chip P) ⟨Program.start s, v⟩ bs) := by
  have hfollows : ∃ k, Follows chip P s' v' out k (run (serve chip P) ⟨Program.start s, v⟩ bs) := by
    apply run_invariant (I := fun t => ∃ k, Follows chip P s' v' out k t)
    · rintro t b ⟨k, hk⟩
      rcases serve_eq_or_serves chip P t b with hsame | hserves
      · rw [hsame]
        exact ⟨k, hk⟩
      · by_cases hb : ∃ x, b = .button x
        · obtain ⟨x, rfl⟩ := hb
          exact ⟨k, (hk.button hend hserves).1⟩
        · obtain ⟨k', -, hk'⟩ := hk.exchange hend (fun x hx => hb ⟨x, hx⟩) hserves
          exact ⟨k', hk'⟩
    · exact ⟨k, out, rfl, h⟩
  obtain ⟨k, hk⟩ := hfollows
  exact hk.polite hend

/-! ## Runs with the device -/

/-- The device with a host that has `m` exchanges and waits to go. -/
def Rank (chip : Chip) (P : Program σ) (s' : σ) (v' : Server) (out : List Message)
    (s : Composed σ chip) (m : ℕ) : Prop :=
  ∃ k t, Refines s t ∧ Follows chip P s' v' out k t ∧
    m = 10 * k + wait s.device (need (P.call s.host.state))

section
variable {P : Program σ} {s' : σ} {v' : Server} {out : List Message} {s : Composed σ chip}

/-- Who acts next. -/
def helps (P : Program σ) (s : Composed σ chip) : Party :=
  helper s.device (need (P.call s.host.state))

/-- Every action follows the script. -/
theorem Rank.step {m : ℕ} (h : Rank chip P s' v' out s m) (hend : P.call s' = none) {a : Action}
    (ha : FaultFree a) :
    ∃ m', Rank chip P s' v' out (System.step P s a) m' ∧
      (m' < m ∨ m' = m ∧ (0 < m → party a ≠ helps P s ∧ helps P (System.step P s a) = helps P s)) := by
  obtain ⟨k, t, href, hfollows, hm⟩ := h
  have hhost := href.host
  cases href.step (hfollows.polite hend) ha with
  | stutter href' hwait =>
    have hsame : (System.step P s a).host.state = s.host.state := by rw [href'.host, hhost]
    refine ⟨_, ⟨k, t, href', hfollows, rfl⟩, ?_⟩
    unfold helps
    rw [hsame, hm]
    by_cases hreturned : P.call t.host.state = none
    · -- nothing is left to do
      have hk := (hfollows.returned hend).mp hreturned
      rw [hhost, hreturned, hk]
      exact .inr ⟨rfl, fun hpos => absurd hpos (Nat.lt_irrefl 0)⟩
    · rw [hhost]
      rcases hwait hreturned (hfollows.owed hend) with hlt | ⟨heq, hstay, hparty⟩
      · left
        omega
      · right
        rw [heq]
        exact ⟨rfl, fun _ => ⟨hparty, hstay⟩⟩
  | button b t' hserves href' hwait =>
    obtain ⟨hfollows', hcall⟩ := hfollows.button hend hserves
    have hpacket : need (P.call t.host.state) = .packet := by
      cases hserves with
      | button size b hin => rw [hin]; rfl
    refine ⟨_, ⟨k, t', href', hfollows', rfl⟩, ?_⟩
    unfold helps
    rw [hm, href'.host, hcall, hhost, hpacket]
    rcases hwait (hfollows.owed hend hpacket) with hlt | ⟨heq, hstay, hparty⟩
    · left
      omega
    · right
      rw [heq]
      exact ⟨rfl, fun _ => ⟨hparty, hstay⟩⟩
  | exchange b hb t' hserves href' =>
    -- an exchange is worth more than any wait
    obtain ⟨k', rfl, hfollows'⟩ := hfollows.exchange hend hb hserves
    refine ⟨_, ⟨k', t', href', hfollows', rfl⟩, .inl ?_⟩
    have hle := wait_le (System.step P s a).device (need (P.call (System.step P s a).host.state))
    rw [hm]
    omega

theorem Rank.run {m : ℕ} (h : Rank chip P s' v' out s m) (hend : P.call s' = none)
    {as : List Action} (has : ∀ a ∈ as, FaultFree a) :
    ∃ m', Rank chip P s' v' out (run (System.step P) s as) m' := by
  have halong : Along (System.step P) (fun _ a => FaultFree a) s as := along_of_forall has
  apply halong.invariant (I := fun s => ∃ m, Rank chip P s' v' out s m) _ ⟨m, h⟩
  rintro s a ⟨m, hm⟩ ha
  obtain ⟨m', hm', -⟩ := hm.step hend ha
  exact ⟨m', hm'⟩

/-- What the end of a script says about the device. -/
theorem Refines.quiet {t : Served σ} (h : Refines s t) (howed : t.server.owed = none) :
    Quiet s.device ∧ meaning s.device = t.server.flash := by
  have hconversation := h.conversation
  rw [howed] at hconversation
  exact hconversation.to_quiet h.settled

/-- A host that has a script. -/
structure ScriptCorrect (P : Program σ) (s : σ) (d : Device chip) (s' : σ) (flash : Memory Word)
    (out : List Message) : Prop where
  /-- In every run without failures it prints what the script says, -/
  printed : ∀ as, (∀ a ∈ as, FaultFree a) →
    (run (System.step P) ⟨Program.start s, d⟩ as).host.out <+: out
  /-- when it returns it has done all of it, -/
  returned : ∀ as, (∀ a ∈ as, FaultFree a) →
    let t := run (System.step P) ⟨Program.start s, d⟩ as
    P.call t.host.state = none →
      t.host.state = s' ∧ t.host.out = out ∧ Quiet t.device ∧ meaning t.device = flash
  /-- and under every fair schedule without failures it returns. -/
  returns : ∀ sched, (∀ n, FaultFree (sched n)) → Fair sched →
    ∃ n, P.call (runTo (System.step P) ⟨Program.start s, d⟩ sched n).host.state = none

/-- **The rule for scripts.** A host that has a script with the server follows it in every run
with the device without failures, to its end if the schedule is fair. -/
theorem script_correct {k : ℕ} {state : σ} {d : Device chip} (hd : Quiet d)
    {flash : Memory Word} (h : Script chip P s' ⟨flash, none⟩ k state (serverOf d) out)
    (hend : P.call s' = none) : ScriptCorrect P state d s' flash out := by
  have hstart : Rank chip P s' ⟨flash, none⟩ out ⟨Program.start state, d⟩
      (10 * k + wait d (need (P.call state))) :=
    ⟨k, _, hd.refines _, ⟨out, rfl, h⟩, rfl⟩
  constructor
  · intro as has
    obtain ⟨m, k, t, href, ⟨out', hout, -⟩, -⟩ := hstart.run hend has
    rw [href.host]
    exact ⟨out', hout⟩
  · intro as has t hreturned
    obtain ⟨m, k, t', href, hfollows, -⟩ := hstart.run hend has
    rw [href.host] at hreturned
    obtain ⟨hstate, hout, hserver⟩ := hfollows.done ((hfollows.returned hend).mp hreturned)
    obtain ⟨hquiet, hflash⟩ := href.quiet (by rw [hserver])
    exact ⟨by rw [href.host, hstate], by rw [href.host, hout], hquiet, by rw [hflash, hserver]⟩
  · intro sched hsched hfair
    obtain ⟨n, k, t, href, hfollows, hzero⟩ := @eventually_rank_zero _ _ _ (System.step P)
      (fun _ a => FaultFree a) ⟨Program.start state, d⟩ party (helps P)
      (Rank chip P s' ⟨flash, none⟩ out) sched (fun s a m hm ha => hm.step hend ha) hsched hfair
      _ hstart
    refine ⟨n, ?_⟩
    rw [href.host]
    exact (hfollows.returned hend).mpr (by omega)

end

end System
end AvrProgrammer
