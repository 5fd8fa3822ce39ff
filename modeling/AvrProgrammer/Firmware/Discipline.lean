import AvrProgrammer.Firmware.Requests
import Mathlib.Data.List.TakeWhile

/-!
# The request and reply discipline

What the invariant of `Requests` says about whole runs from power-on: what `commande_PC` and
`flash_address` stand for, what every IN packet holds, that a request is answered once unless
another command comes first, and which sessions change the flash.
-/

namespace AvrProgrammer
namespace Firmware

open PagedFlash Runs

variable {chip : Chip} {flash : Memory Word}

/-- The IN packets sent after a request and before the next command. -/
def replies (post : List Event) : List Packet :=
  sent (post.takeWhile fun e => !isCommand e)

/-- What an IN packet holds, by its length and the entries before it. -/
def InPacketRule (chip : Chip) (flash : Memory Word) (past : List Event) (q : Packet) : Prop :=
  q.length = 8 ∧ (∃ p, lastCommand past = some p ∧ p.head? = some 0x02 ∧
    q = (Target.idle ((received past).foldl (effect chip) flash) : Target chip).block
      (carriedAddress p)) ∨
  q.length = 3 ∧ (∃ p, lastCommand past = some p ∧ p.head? = some 0x01) ∨
  q.length = 1

/-- `ProcessIN` sends a packet whenever its bank is free. -/
def SendsWhenFree (d : Device chip) : Action → Prop
  | .firmware pinC => d.next = .dataIn → d.mcu.inBank = none →
    ∃ q, sent (step d (.firmware pinC)).mcu.trace = sent d.mcu.trace ++ [q]
  | _ => True

/-- The discipline of requests and replies along the run `as` from `d₀`. -/
structure RequestDiscipline (flash : Memory Word) (d₀ : Device chip) (as : List Action) :
    Prop where
  address : (run step d₀ as).mcu.commandePC = 0x02 →
    ∃ p, lastCommand (run step d₀ as).mcu.trace = some p ∧ p.head? = some 0x02 ∧
      (run step d₀ as).mcu.flashAddress = carriedAddress p
  packets : ∀ past q post, (run step d₀ as).mcu.trace = past ++ .sent q :: post →
    InPacketRule chip flash past q
  once : ∀ past p post, (run step d₀ as).mcu.trace = past ++ .received p :: post →
    IsRequest p → ∀ q qs, replies post = q :: qs → IsReply p q ∧ ∀ r ∈ qs, r.length = 1
  unanswered : ∀ past p post, (run step d₀ as).mcu.trace = past ++ .received p :: post →
    IsRequest p → replies post = [] →
      (∃ e ∈ post, isCommand e) ∨ p.head? = some (run step d₀ as).mcu.commandePC
  sends : Along step SendsWhenFree d₀ as
  programming : (sessionBytes (run step d₀ as).mcu.trace).filter programs
    = (received (run step d₀ as).mcu.trace).filterMap programBytes

/-! ## Answers in a part of the trace without commands -/

theorem replyTo_isReply {ps : List Packet} {p : Packet} (h : IsRequest p) :
    IsReply p (replyTo chip flash ps p) := by
  rcases h with h1 | h2
  · refine .inl ⟨h1, ?_⟩
    rw [replyTo, if_neg (by rw [h1]; decide)]
    rfl
  · refine .inr ⟨h2, ?_⟩
    rw [replyTo, if_pos h2]
    rfl

theorem openStep_none {e : Event} (h : isCommand e = false) : openStep none e = none := by
  cases e with
  | received p =>
    have hempty : p = [] := by simpa [isCommand] using h
    rw [hempty]; rfl
  | _ => rfl

/-- An entry that is neither a command nor an IN packet keeps the open request. -/
theorem openStep_other {e : Event} (h : isCommand e = false) (hsent : ∀ q, e ≠ .sent q)
    (request : Option Packet) : openStep request e = request := by
  cases e with
  | received p =>
    have hempty : p = [] := by simpa [isCommand] using h
    rw [hempty]; rfl
  | sent q => exact absurd rfl (hsent q)
  | _ => rfl

theorem sent_cons_other {e : Event} (hsent : ∀ q, e ≠ .sent q) (l : List Event) :
    sent (e :: l) = sent l := by
  cases e with
  | sent q => exact absurd rfl (hsent q)
  | _ => rfl

theorem openRequest_concat (past : List Event) (e : Event) :
    openRequest (past ++ [e]) = openStep (openRequest past) e := openRequest_append ..

/-- Without an open request only button packets are sent. -/
theorem sent_of_openRequest_none {past l : List Event}
    (h : Following (AnswerRule chip flash) past l) (hl : ∀ e ∈ l, isCommand e = false)
    (hopen : openRequest past = none) : ∀ q ∈ sent l, q.length = 1 := by
  induction l generalizing past with
  | nil => simp
  | cons e l ih =>
    have hrest := ih h.2 (fun e he => hl e (.tail _ he))
      (by rw [openRequest_concat, hopen, openStep_none (hl e List.mem_cons_self)])
    cases e with
    | sent q =>
      have hq : q.length = 1 := by simpa [AnswerRule, hopen] using h.1
      simpa [hq] using hrest
    | _ => exact hrest

/-- An open request stays open until it is answered, and after its answer only button packets
are sent. -/
theorem sent_of_openRequest_some {past l : List Event} {p : Packet}
    (h : Following (AnswerRule chip flash) past l) (hl : ∀ e ∈ l, isCommand e = false)
    (hopen : openRequest past = some p) :
    sent l = [] ∧ openRequest (past ++ l) = some p ∨
      ∃ q qs, sent l = q :: qs ∧ IsReply p q ∧ ∀ r ∈ qs, r.length = 1 := by
  induction l generalizing past with
  | nil => exact .inl ⟨rfl, by rwa [List.append_nil]⟩
  | cons e l ih =>
    have hl' : ∀ e ∈ l, isCommand e = false := fun e he => hl e (.tail _ he)
    have hstep := openRequest_concat past e
    rw [hopen] at hstep
    by_cases hsent : ∃ q, e = .sent q
    · obtain ⟨q, rfl⟩ := hsent
      have hq : q = replyTo chip flash (received past) p := by
        simpa [AnswerRule, hopen] using h.1
      refine .inr ⟨q, sent l, rfl, ?_, sent_of_openRequest_none h.2 hl' hstep⟩
      rw [hq]
      exact replyTo_isReply (openRequest_eq_some hopen).1
    · have hsent : ∀ q, e ≠ .sent q := fun q heq => hsent ⟨q, heq⟩
      rw [openStep_other (hl e List.mem_cons_self) hsent] at hstep
      rw [sent_cons_other hsent, List.append_cons]
      exact ih h.2 hl' hstep

/-! ## Main result -/

theorem inPacketRule_of_answerRule {past : List Event} {q : Packet}
    (h : AnswerRule chip flash past (.sent q)) : InPacketRule chip flash past q := by
  cases hopen : openRequest past with
  | none => exact .inr (.inr (by simpa [AnswerRule, hopen] using h))
  | some p =>
    have hq : q = replyTo chip flash (received past) p := by
      simpa [AnswerRule, hopen] using h
    obtain ⟨hrequest, hlast⟩ := openRequest_eq_some hopen
    have hreply : IsReply p (replyTo chip flash (received past) p) := replyTo_isReply hrequest
    rcases hreply with ⟨h1, hlen⟩ | ⟨h2, hlen⟩
    · exact .inr (.inl ⟨hq ▸ hlen, p, hlast, h1⟩)
    · refine .inl ⟨hq ▸ hlen, p, hlast, h2, ?_⟩
      rw [hq, replyTo, if_pos h2]

theorem sendsWhenFree {d : Device chip} (hd : Settled d.mcu) (a : Action) :
    SendsWhenFree d a := by
  cases a with
  | arrive | poll => trivial
  | firmware pinC =>
    intro hnext hbank
    have heffect := step_effect hd (.firmware pinC)
    generalize Firmware.step d (.firmware pinC) = d' at heffect ⊢
    cases heffect with
    | idleOUT pinC hnext' | serve pinC p hnext' => rw [hnext] at hnext'; cases hnext'
    | busyIN pinC _ hbusy => rw [hbank] at hbusy; cases hbusy
    | answer pinC =>
      dsimp only
      unfold Mcu.answered
      split_ifs
      all_goals simp

/-- What a request gets before the next command. -/
theorem replies_of_history {past post : List Event} {p : Packet}
    (h : History (AnswerRule chip flash) (past ++ .received p :: post)) (hp : IsRequest p) :
    replies post = [] ∧
        openRequest (past ++ .received p :: post.takeWhile fun e => !isCommand e) = some p ∨
      ∃ q qs, replies post = q :: qs ∧ IsReply p q ∧ ∀ r ∈ qs, r.length = 1 := by
  have hempty : p ≠ [] := by
    rintro rfl
    simp [IsRequest] at hp
  have hopen : openRequest (past ++ [.received p]) = some p := by
    simp only [openRequest_concat, openStep, if_neg hempty, if_pos hp]
  have hpost : Following (AnswerRule chip flash) (past ++ [.received p])
      (post.takeWhile (fun e => !isCommand e) ++ post.dropWhile fun e => !isCommand e) := by
    rw [List.takeWhile_append_dropWhile]
    exact (history_append.mp h).2.2
  have hother : ∀ e ∈ post.takeWhile fun e => !isCommand e, isCommand e = false := by
    intro e he
    simpa using List.mem_takeWhile_imp he
  have hwindow := sent_of_openRequest_some (following_append.mp hpost).1 hother hopen
  rwa [List.append_assoc, List.singleton_append] at hwindow

/-- The firmware keeps the discipline in every run from power-on in which every 0x02 packet
carries an address and every 0x03 packet an address and a word. -/
theorem request_discipline (unspecified : ℕ → UInt8) (flash : Memory Word) (as : List Action)
    (has : ∀ p, .arrive p ∈ as → WellSized p) :
    RequestDiscipline flash (powerOn unspecified flash : Device chip) as := by
  have hinv := (@runInv_run chip unspecified flash as has).requestInv
  have hanswers := hinv.answers
  refine ⟨?_, fun past q post htrace =>
    inPacketRule_of_answerRule (history_iff.mp hanswers past _ post htrace), ?_, ?_, ?_,
    hinv.sessions⟩
  · intro hread
    obtain ⟨p, hopen⟩ := Option.ne_none_iff_exists'.mp fun hnone =>
      hinv.idle hnone (by simp [hread])
    obtain ⟨hhead, haddress⟩ := hinv.pending p hopen
    exact ⟨p, (openRequest_eq_some hopen).2, by rw [hhead, hread], haddress hread⟩
  · intro past p post htrace hp q qs hreplies
    rw [htrace] at hanswers
    rcases replies_of_history hanswers hp with ⟨hnone, -⟩ | ⟨q', qs', hsome, hq, hqs⟩
    · rw [hnone] at hreplies; cases hreplies
    · rw [hsome] at hreplies; cases hreplies; exact ⟨hq, hqs⟩
  · intro past p post htrace hp hnone
    rw [htrace] at hanswers
    rcases replies_of_history hanswers hp with ⟨-, hopen⟩ | ⟨q', qs', hsome, -⟩
    · by_cases hlater : ∃ e ∈ post, isCommand e
      · exact .inl hlater
      · -- no later command: the part of the trace is all of it
        have hall : post.takeWhile (fun e => !isCommand e) = post := by
          rw [List.takeWhile_eq_self_iff]
          intro e he
          simpa using fun hcommand => hlater ⟨e, he, hcommand⟩
        rw [hall, ← htrace] at hopen
        exact .inr (hinv.pending p hopen).1
    · rw [hnone] at hsome; cases hsome
  · exact along_of_invariant (I := fun d : Device chip => Settled d.mcu)
      (fun _ a h => h.step a) (fun _ a h => sendsWhenFree h a)
      (settled_powerOn unspecified flash) as

/-- A read request followed by an erase. -/
theorem request_discipline_read_erase :
    RequestDiscipline erase (powerOn (fun _ => 0) erase : Device atmega328p)
      [.arrive [0x02, 0x00, 0x10], .firmware 0, .firmware 0, .poll, .arrive [0x04],
        .firmware 0] := by
  refine request_discipline _ _ _ ?_
  intro p hp
  have hp : p = [0x02, 0x00, 0x10] ∨ p = [0x04] := by simpa using hp
  rcases hp with rfl | rfl <;> decide

end Firmware
end AvrProgrammer
