import AvrProgrammer.System.Interrupted

/-!
# Replies when transfers fail

A reply names no request. What a host may rely on when transfers fail is the order:
`replies_in_order` says, for every host program, that the replies it receives are answers to
the packets that arrived, in order and each at most once, after those the device still owed at
the start. None is invented, and none is older than one received before it.

For `prog -read` this says what is left of a dump when transfers fail, although blocks may be
printed under wrong addresses: `dump_under_failures`.
-/

namespace AvrProgrammer
namespace System

open PagedFlash Runs Firmware Software
open Software.Prog (Input identified command)

variable {σ : Type} {chip : Chip}

/-! ## Answers -/

/-- The answers to the requests among the packets, each computed from the flash at its turn. -/
def answers (chip : Chip) : Memory Word → List Packet → List Packet
  | _, [] => []
  | flash, p :: ps =>
    (if IsRequest p then [reply chip flash p] else []) ++ answers chip (effect chip flash p) ps

/-- The packets the host has received as replies. -/
def repliesReceived (calls : List (Call × Result)) : List Packet :=
  calls.filterMap fun call => match call with
    | (.transferIn _, ⟨0, data⟩) => if data.length = 1 then none else some data
    | _ => none

/-- The reply in the IN bank. -/
def waitingReply (d : Device chip) : List Packet :=
  d.mcu.inBank.toList.filter fun q => q.length ≠ 1

/-- The reply to the request that is noted. -/
def notedReply (d : Device chip) : List Packet :=
  if d.mcu.commandePC = 0x02 then [d.mcu.target.block d.mcu.flashAddress]
  else if d.mcu.commandePC = 0x01 then [d.mcu.target.signature]
  else []

/-- The replies that may still come: one in the IN bank, one that is noted, and one to the packet
in the OUT bank. -/
def owing (d : Device chip) : List Packet :=
  waitingReply d ++ (notedReply d ++ answers chip d.mcu.target.flash d.pending)

theorem answers_append (flash : Memory Word) (ps qs : List Packet) :
    answers chip flash (ps ++ qs)
      = answers chip flash ps ++ answers chip (ps.foldl (effect chip) flash) qs := by
  induction ps generalizing flash with
  | nil => rfl
  | cons p ps ih =>
    rw [List.cons_append, answers, ih, answers, List.append_assoc]
    rfl

theorem answers_singleton (flash : Memory Word) (p : Packet) :
    answers chip flash [p] = if IsRequest p then [reply chip flash p] else [] := by
  rw [answers, answers, List.append_nil]

theorem repliesReceived_append (calls calls' : List (Call × Result)) :
    repliesReceived (calls ++ calls') = repliesReceived calls ++ repliesReceived calls' :=
  List.filterMap_append

/-- What is taken from the IN bank is a reply, a button packet, or too long for the host. -/
theorem repliesReceived_taken (size : ℕ) (q : Packet) :
    (repliesReceived [(.transferIn size, taken size q)]).Sublist
      ([q].filter fun q => q.length ≠ 1) := by
  unfold taken
  by_cases hsize : q.length ≤ size
  · rw [if_pos hsize]
    by_cases hone : q.length = 1
    · simp [repliesReceived, hone]
    · simp [repliesReceived, hone]
  · rw [if_neg hsize]
    exact List.nil_sublist _

theorem repliesReceived_control {call : Call} (hcontrol : IsControl call) (result : Result) :
    repliesReceived [(call, result)] = [] := by
  cases call with
  | transferOut | transferIn => exact absurd hcontrol not_false
  | _ => rfl

/-! ## What the device owes -/

section
variable {d : Device chip}

/-- A request is noted, and any other packet but an empty one forgets the request before it. -/
theorem notedReply_processed {pinC : UInt8} {p : Packet} (hne : p ≠ []) (hsized : WellSized p) :
    notedReply { d with mcu := Mcu.processed { d.mcu with pinC := pinC } p, next := .dataIn }
      = answers chip d.mcu.target.flash [p] := by
  have hhead := commandePC_processed { d.mcu with pinC := pinC } hne
  rw [answers_singleton]
  unfold notedReply
  dsimp only
  by_cases hread : (Mcu.processed { d.mcu with pinC := pinC } p).commandePC = 0x02
  · rw [hread] at hhead
    obtain ⟨rest, rfl⟩ := List.head?_eq_some_iff.mp hhead
    have haddr := flashAddress_processed_read { d.mcu with pinC := pinC } hsized
    rw [if_pos hread, if_pos (.inr hhead), haddr, reply, replyTo, if_pos hhead]
    rfl
  by_cases hsignature : (Mcu.processed { d.mcu with pinC := pinC } p).commandePC = 0x01
  · rw [if_neg hread, if_pos hsignature]
    rw [hsignature] at hhead
    rw [if_pos (.inl hhead), reply, replyTo, if_neg (by rw [hhead]; decide)]
    rfl
  · rw [if_neg hread, if_neg hsignature, if_neg]
    intro hp
    rcases command_of_isRequest hp hhead with h1 | h2
    · exact hsignature h1
    · exact hread h2

/-- The main loop does not add to what the device owes. -/
theorem owing_firmware (hd : Settled d.mcu) (hsized : PendingSized d) (pinC : UInt8) :
    (owing (Firmware.step d (.firmware pinC))).Sublist (owing d) := by
  have heffect := Firmware.step_effect hd (.firmware pinC)
  generalize Firmware.step d (.firmware pinC) = d' at heffect ⊢
  cases heffect with
  | idleOUT | busyIN => exact List.Sublist.refl _
  | serve _ p hnext hbank =>
    have hpending : d.pending = [p] := by simp [Device.pending, hbank]
    have hwaiting : waitingReply { d with
        mcu := Mcu.processed { d.mcu with pinC := pinC } p, next := .dataIn } = waitingReply d := by
      unfold waitingReply
      rw [Mcu.inBank_processed]
    have hnone : Device.pending { d with
        mcu := Mcu.processed { d.mcu with pinC := pinC } p, next := .dataIn } = [] := by
      simp [Device.pending]
    rw [owing, hwaiting, hnone, owing, hpending, answers, List.append_nil]
    apply List.Sublist.append_left
    by_cases hne : p = []
    · -- the request that is noted stays
      rw [hne, Mcu.processed_empty]
      exact List.sublist_append_left _ _
    · rw [notedReply_processed hne (hsized p (by simp [hpending]))]
      exact List.sublist_append_right _ _
  | answer _ hnext hbank =>
    have hempty : waitingReply d = [] := by
      unfold waitingReply
      rw [hbank]
      rfl
    by_cases h2 : d.mcu.commandePC = 0x02
    · have hnoted : notedReply d = [d.mcu.target.block d.mcu.flashAddress] := if_pos h2
      rw [Mcu.answered_read (m := { d.mcu with pinC := pinC }) h2, owing, owing, hempty, hnoted]
      exact List.Sublist.refl _
    by_cases h1 : d.mcu.commandePC = 0x01
    · have hnoted : notedReply d = [d.mcu.target.signature] := by
        rw [notedReply, if_neg h2, if_pos h1]
      rw [Mcu.answered_signature (m := { d.mcu with pinC := pinC }) h1, owing, owing, hempty,
        hnoted]
      exact List.Sublist.refl _
    · -- a button packet is no reply
      rw [Mcu.answered_buttons (m := { d.mcu with pinC := pinC }) h1 h2, owing, owing, hempty]
      exact List.Sublist.refl _

/-- A packet is taken from the IN bank, and nothing else changes. -/
theorem owing_emptied (d : Device chip) : owing d = waitingReply d ++ owing (emptied d) := rfl

/-- A packet is accepted. -/
theorem owing_arrive (hbank : d.mcu.outBank = none) (p : Packet) :
    owing (Firmware.step d (.arrive p)) = owing d ++ answers chip (meaning d) [p] := by
  have hpending : d.pending = [] := by simp [Device.pending, hbank]
  rw [(meaning_of_none hbank).1, arrive_eq hbank, owing, owing, hpending, answers,
    List.append_nil, List.append_assoc]
  rfl

end

/-! ## The invariant -/

/-- What the host has received and what the device owes are answers to what has arrived, after
what the device owed at the start. -/
structure RepliesInv (first : List Packet) (flash : Memory Word) (s : Composed σ chip) : Prop where
  results : ResultsInv flash s
  replies : (repliesReceived s.host.calls ++ owing s.device).Sublist
    (first ++ answers chip flash (arrived s.host.calls))

section
variable {P : Program σ} {first : List Packet} {flash : Memory Word} {s : Composed σ chip}

/-- Every action keeps the invariant, if the packet that is sent is well sized. -/
theorem RepliesInv.step (h : RepliesInv first flash s) {a : Action}
    (hsent : ∀ x ∈ transfers (step P s a).host.calls, WellSized x.1) :
    RepliesInv first flash (step P s a) := by
  refine ⟨h.results.step hsent, ?_⟩
  have heffect := step_effect P s a
  have hreplies := h.replies
  generalize System.step P s a = s' at heffect hsent ⊢
  cases heffect with
  | firmware pinC =>
    have howing := owing_firmware h.results.settled h.results.sized pinC
    exact (howing.append_left _).trans hreplies
  | poll =>
    rw [owing_emptied] at hreplies
    exact ((List.sublist_append_right _ _).append_left _).trans hreplies
  | sent p hcall hbank =>
    rw [Program.step_of_call _ hcall, owing_arrive hbank, h.results.flash]
    dsimp only
    rw [repliesReceived_append, arrived_append, arrived_accepted, answers_append]
    show (_ ++ [] ++ _ : List Packet).Sublist _
    rw [List.append_nil, ← List.append_assoc, ← List.append_assoc]
    exact hreplies.append_right _
  | received size q hcall hq =>
    have hwaiting : waitingReply s.device = [q].filter fun q => q.length ≠ 1 := by
      rw [waitingReply, hq]
      rfl
    -- a reply moves from the IN bank to what the host has received
    rw [owing_emptied, hwaiting, ← List.append_assoc] at hreplies
    rw [Program.step_of_call _ hcall]
    dsimp only
    rw [repliesReceived_append, arrived_append, arrived_transferIn, List.append_nil]
    exact (((repliesReceived_taken size q).append_left _).append_right _).trans hreplies
  | called call hcall hcontrol =>
    rw [Program.step_of_call _ hcall]
    dsimp only
    rw [repliesReceived_append, repliesReceived_control hcontrol, arrived_append,
      arrived_control hcontrol, List.append_nil, List.append_nil]
    exact hreplies
  | timeoutOUT p hcall =>
    rw [Program.step_of_call _ hcall]
    dsimp only
    rw [repliesReceived_append, arrived_append, arrived_timedOut, List.append_nil]
    show (_ ++ [] ++ _ : List Packet).Sublist _
    rw [List.append_nil]
    exact hreplies
  | timeoutIN size hcall =>
    rw [Program.step_of_call _ hcall]
    dsimp only
    rw [repliesReceived_append, arrived_append, arrived_transferIn, List.append_nil]
    show (_ ++ [] ++ _ : List Packet).Sublist _
    rw [List.append_nil]
    exact hreplies
  | blockedOUT | blockedIN | returned | noTransfer => exact hreplies

end

theorem repliesInv_run (P : Program σ) (start : σ) {d : Device chip} (hd : Settled d.mcu)
    (hpending : PendingSized d) (as : List Action) :
    (∀ x ∈ transfers (run (step P) ⟨Program.start start, d⟩ as).host.calls, WellSized x.1) →
      RepliesInv (owing d) (meaning d) (run (step P) ⟨Program.start start, d⟩ as) := by
  apply run_invariant (I := fun s : Composed σ chip =>
    (∀ x ∈ transfers s.host.calls, WellSized x.1) → RepliesInv (owing d) (meaning d) s)
  · intro s a hs hsent
    exact (hs fun x hx => hsent x ((transfers_step P s a).subset hx)).step hsent
  · intro _
    refine ⟨⟨hd, hpending, rfl⟩, ?_⟩
    exact List.sublist_append_left _ _

/-! ## Main results -/

/-- **Replies come in order.** Whatever the host program is, whichever transfers fail and whoever
else polls: the replies it receives are some of those the device owed at the start and some of
the answers to the packets that arrived, in this order and each at most once. -/
theorem replies_in_order (P : Program σ) (start : σ) {d : Device chip} (hd : Settled d.mcu)
    (hpending : PendingSized d) (as : List Action)
    (hsent : ∀ x ∈ transfers (run (step P) ⟨Program.start start, d⟩ as).host.calls,
      WellSized x.1) :
    let calls := (run (step P) ⟨Program.start start, d⟩ as).host.calls
    (repliesReceived calls).Sublist (owing d ++ answers chip (meaning d) (arrived calls)) := by
  intro calls
  have hinv := repliesInv_run P start hd hpending as hsent
  exact (List.sublist_append_left _ _).trans hinv.replies

/-- The signature request of a process that was left, and one of the next process. -/
theorem replies_in_order_ispIds :
    let d := (run (step ispIds) ⟨Program.start (.request [0, 0, 0]), (zeroed : Device atmega328p)⟩
      [.transfer, .firmware 0, .firmware 0]).device
    let calls := (run (step ispIds) ⟨Program.start (.request [0, 0, 0]), d⟩
      [.transfer, .transfer]).host.calls
    (repliesReceived calls).Sublist
      (owing d ++ answers atmega328p (meaning d) (arrived calls)) := by
  intro d calls
  have hinv := resultsInv_run ispIds (.request [0, 0, 0]) quiet_zeroed.settled
    (fun p hp => (quiet_zeroed.pending p hp).2) [.transfer, .firmware 0, .firmware 0] (by decide)
  exact replies_in_order ispIds (.request [0, 0, 0]) hinv.settled hinv.sized
    [.transfer, .transfer] (by decide +kernel)

/-! ## A dump -/

/-- The blocks that are printed, with the addresses they are printed under. -/
def printedBlocks (out : List Message) : List (UInt16 × List UInt16) :=
  out.filterMap fun message => match message with
    | .block a words => some (a, words)
    | _ => none

/-- The address of a read request. -/
def readAddress (p : Packet) : Option UInt16 :=
  if p.head? = some 0x02 then some (carriedAddress p) else none

/-- The addresses of the read requests that were sent. -/
def asked (calls : List (Call × Result)) : List UInt16 :=
  (transfers calls).filterMap fun x => readAddress x.1

/-- The addresses of the read requests that arrived. -/
def arrivedAddresses (calls : List (Call × Result)) : List UInt16 :=
  (arrived calls).filterMap readAddress

/-- The words of a block as they are printed. -/
def blockAt (chip : Chip) (flash : Memory Word) (a : UInt16) : List UInt16 :=
  FlashRead.blockWords ((Target.idle flash : Target chip).block a)

theorem printedBlocks_append (out out' : List Message) :
    printedBlocks (out ++ out') = printedBlocks out ++ printedBlocks out' := List.filterMap_append

theorem asked_append (calls calls' : List (Call × Result)) :
    asked (calls ++ calls') = asked calls ++ asked calls' := by
  simp [asked]

theorem asked_transferOut (p : Packet) (result : Result) :
    asked [(.transferOut p, result)] = (readAddress p).toList := by
  unfold asked transfers
  cases haddr : readAddress p <;> simp [haddr]

theorem arrivedAddresses_append (calls calls' : List (Call × Result)) :
    arrivedAddresses (calls ++ calls') = arrivedAddresses calls ++ arrivedAddresses calls' := by
  simp [arrivedAddresses]

/-- What arrived was sent. -/
theorem arrivedAddresses_subset (calls : List (Call × Result)) :
    arrivedAddresses calls ⊆ asked calls := by
  intro a ha
  obtain ⟨p, hp, haddr⟩ := List.mem_filterMap.mp ha
  obtain ⟨x, hx, rfl⟩ := List.mem_map.mp hp
  exact List.mem_filterMap.mpr ⟨x, (List.mem_filter.mp hx).1, haddr⟩

/-- Requests leave the flash as it is. -/
theorem foldl_effect_requests (flash : Memory Word) {ps : List Packet}
    (hps : ∀ p ∈ ps, IsRequest p) : ps.foldl (effect chip) flash = flash := by
  induction ps with
  | nil => rfl
  | cons p ps ih =>
    rw [List.foldl_cons, effect_request flash (hps p List.mem_cons_self)]
    exact ih fun q hq => hps q (.tail _ hq)

theorem answers_requests (flash : Memory Word) {ps : List Packet} (hps : ∀ p ∈ ps, IsRequest p) :
    answers chip flash ps = ps.map (reply chip flash) := by
  induction ps with
  | nil => rfl
  | cons p ps ih =>
    have hp := hps p List.mem_cons_self
    rw [answers, if_pos hp, effect_request flash hp, ih fun q hq => hps q (.tail _ hq)]
    rfl

/-- The reply to a read request is the block at its address, and no other reply has its length. -/
theorem reply_of_length {flash : Memory Word} {p : Packet}
    (hlen : (reply chip flash p).length = 8) :
    ∃ a, readAddress p = some a ∧ FlashRead.blockWords (reply chip flash p) = blockAt chip flash a := by
  unfold readAddress
  unfold reply replyTo at hlen ⊢
  dsimp only at hlen ⊢
  by_cases hread : p.head? = some 0x02
  · rw [if_pos hread, if_pos hread]
    exact ⟨_, rfl, rfl⟩
  · rw [if_neg hread] at hlen
    cases hlen

/-- The blocks among the replies to requests. -/
theorem blocks_of_replies (flash : Memory Word) (ps : List Packet) :
    (((ps.map (reply chip flash)).filter fun q => q.length = 8).map FlashRead.blockWords)
      = (ps.filterMap readAddress).map (blockAt chip flash) := by
  induction ps with
  | nil => rfl
  | cons p ps ih =>
    rw [List.map_cons]
    by_cases hlen : (reply chip flash p).length = 8
    · obtain ⟨a, haddr, hwords⟩ := reply_of_length hlen
      rw [List.filter_cons_of_pos (by simpa using hlen), List.filterMap_cons_some haddr,
        List.map_cons, List.map_cons, ih, hwords]
    · have hnone : readAddress p = none := by
        unfold readAddress
        rw [if_neg]
        intro hread
        apply hlen
        unfold reply replyTo
        rw [if_pos hread]
        rfl
      rw [List.filter_cons_of_neg (by simpa using hlen), List.filterMap_cons_none hnone, ih]

/-- What `main` may do in a `-read`, when the addresses `sent` have been asked for. -/
inductive Reading (sent : List UInt16) : Prog.State → Prop
  | identifying (s : IspIds.State) (hs : ∀ sig, s ≠ .returned sig) (hsent : sent = []) :
    Reading sent (.ispIds s)
  | request (size : UInt32) (a : UInt16) (hsize : WholeBlocks size) (ha : a.toUInt32 < size / 2)
    (hsent : ∀ b ∈ sent, b ≤ a) : Reading sent (.flashRead size (.request a))
  | receive (size : UInt32) (a : UInt16) (hsize : WholeBlocks size) (ha : a.toUInt32 < size / 2)
    (hsent : ∀ b ∈ sent, b ≤ a) : Reading sent (.flashRead size (.receive a))
  | closing (size : UInt32) {s : FlashRead.State} (hclosing : Closing s) :
    Reading sent (.flashRead size s)
  | cleanUp (calls : List Call) (code : ℤ) (hcalls : ∀ call ∈ calls, IsControl call) :
    Reading sent (.cleanUp calls code)
  | fault : Reading sent .nullDereference

/-- The head of the loop. -/
theorem reading_loop {size : UInt32} (hsize : WholeBlocks size) {a : UInt16} {sent : List UInt16}
    (hsent : ∀ b ∈ sent, b ≤ a) : Reading sent (.flashRead size (FlashRead.loop size a)) := by
  unfold FlashRead.loop
  split_ifs with ha
  · exact .request size a hsize ha hsent
  · exact .closing size .release

/-- The next turn, whose address is higher. -/
theorem reading_next {size : UInt32} (hsize : WholeBlocks size) {a : UInt16}
    (ha : a.toUInt32 < size / 2) {sent : List UInt16} (hsent : ∀ b ∈ sent, b ≤ a) :
    Reading sent (Prog.afterFlashRead size (FlashRead.loop size (a + 4))) := by
  have hlimit := hsize.limit
  have hnext : a ≤ a + 4 := by
    rw [UInt32.lt_iff_toNat_lt] at ha
    rw [UInt16.le_iff_toNat_le]
    simp only [UInt16.toNat_toUInt32, UInt32.toNat_div, UInt32.reduceToNat, UInt16.toNat_add,
      UInt16.reduceToNat] at ha ⊢
    omega
  unfold FlashRead.loop
  split_ifs with hmore
  · exact .request size (a + 4) hsize hmore fun b hb => UInt16.le_trans (hsent b hb) hnext
  · exact .closing size .release

section
variable {input : Input} {state : Prog.State} {sent : List UInt16}

/-- `main` sends requests only. -/
theorem Reading.request_of_call (h : Reading sent state) {p : Packet}
    (hcall : (prog input).call state = some (.transferOut p)) :
    IsRequest p ∧ WellSized p ∧ Reading (sent ++ (readAddress p).toList) state := by
  cases h with
  | identifying s hs hsent =>
    obtain ⟨dataIn, rfl, rfl⟩ := ispIds_call_transferOut hcall
    refine ⟨.inl rfl, by decide, .identifying _ hs ?_⟩
    rw [hsent]
    rfl
  | request size a hsize ha hsent =>
    cases hcall
    have haddr : readAddress (readRequest a) = some a := by
      rw [readAddress, if_pos (show (readRequest a).head? = some 0x02 from rfl)]
      exact congrArg some (address_bytes a)
    refine ⟨isRequest_readRequest a, wellSized_readRequest a, ?_⟩
    show Reading (sent ++ (readAddress (readRequest a)).toList) _
    rw [haddr]
    refine .request size a hsize ha fun b hb => ?_
    rcases List.mem_append.mp hb with hb | hb
    · exact hsent b hb
    · rw [List.mem_singleton.mp hb]
      exact UInt16.le_refl a
  | receive => cases hcall
  | closing size hclosing => cases hclosing <;> cases hcall
  | cleanUp calls code hcalls =>
    have hcontrol := hcalls _ (List.mem_of_mem_head? hcall)
    exact absurd hcontrol not_false
  | fault => cases hcall

/-- The identification ends with a dump, or with a fault if the target is unknown. -/
theorem reading_identified (hreads : input.Reads) (sig : List UInt8) :
    Reading [] (identified input sig).1 ∧ printedBlocks (identified input sig).2 = [] := by
  have hspec := command_spec input (rechercheCible sig)
  unfold identified
  dsimp only
  generalize command input (rechercheCible sig) = result at hspec ⊢
  cases hspec with
  | closes hnot | writes hnot => exact absurd hreads hnot
  | faults _ _ hnone =>
    rw [hnone]
    exact ⟨.fault, rfl⟩
  | reads _ _ cible hcible =>
    rw [hcible]
    have hsize := wholeBlocks_of_mem (rechercheCible_eq_some.mp hcible).1
    exact ⟨reading_loop hsize fun b hb => absurd hb List.not_mem_nil, rfl⟩

/-- `isp_ids` goes on, or ends. No block is printed. -/
theorem reading_ispIds (hreads : input.Reads) (s : IspIds.State) (result : Result) :
    Reading [] ((prog input).resume (.ispIds s) result).1 ∧
      printedBlocks ((prog input).resume (.ispIds s) result).2 = [] := by
  have hcases : (ispIds.resume s result).2 = [] ∨ ∃ m, (ispIds.resume s result).2 = [m] ∧
      printedBlocks [m] = [] := by
    cases s with
    | request dataIn =>
      dsimp only [ispIds]
      split_ifs
      · exact .inr ⟨_, rfl, rfl⟩
      · exact .inr ⟨_, rfl, rfl⟩
    | receive dataIn =>
      dsimp only [ispIds]
      split_ifs
      · exact .inl rfl
      · exact .inr ⟨_, rfl, rfl⟩
      · exact .inr ⟨_, rfl, rfl⟩
    | returned => exact .inl rfl
  have hout : printedBlocks (ispIds.resume s result).2 = [] := by
    rcases hcases with h | ⟨m, h, hm⟩
    · rw [h]
      rfl
    · rw [h, hm]
  have hresume : (prog input).resume (.ispIds s) result
      = ((Prog.afterIspIds input (ispIds.resume s result).1).1,
        (ispIds.resume s result).2 ++ (Prog.afterIspIds input (ispIds.resume s result).1).2) := rfl
  rw [hresume]
  dsimp only
  rw [printedBlocks_append, hout, List.nil_append]
  cases hstate : (ispIds.resume s result).1 with
  | request dataIn | receive dataIn => exact ⟨.identifying _ nofun rfl, rfl⟩
  | returned sig => exact reading_identified hreads sig

/-- The state after the call. -/
theorem Reading.resume (hreads : input.Reads) (h : Reading sent state) (result : Result) :
    Reading sent ((prog input).resume state result).1 := by
  cases h with
  | identifying s hs hsent =>
    rw [hsent]
    exact (reading_ispIds hreads s result).1
  | request size a hsize ha hsent =>
    show Reading sent (Prog.afterFlashRead size ((flashRead size).resume (.request a) result).1)
    dsimp only [flashRead]
    split_ifs
    · exact reading_next hsize ha hsent
    · exact .receive size a hsize ha hsent
  | receive size a hsize ha hsent =>
    show Reading sent (Prog.afterFlashRead size ((flashRead size).resume (.receive a) result).1)
    dsimp only [flashRead]
    split_ifs
    · exact .receive size a hsize ha hsent
    · exact reading_next hsize ha hsent
    · exact reading_next hsize ha hsent
  | closing size hclosing =>
    cases hclosing with
    | release => exact .closing size .close
    | close => exact .closing size .exit
    | exit | returned => exact .cleanUp _ 0 fun call hcall => isControl_of_mem_closing hcall
  | cleanUp calls code hcalls =>
    exact .cleanUp _ code fun call hcall => hcalls call (List.mem_of_mem_tail hcall)
  | fault => exact .fault

/-- A block is printed when a packet of its length has been received. -/
theorem Reading.printed (hreads : input.Reads) (h : Reading sent state) (result : Result) :
    printedBlocks ((prog input).resume state result).2 = [] ∨
      ∃ size a, state = .flashRead size (.receive a) ∧ result.r = 0 ∧ result.data.length = 8 ∧
        printedBlocks ((prog input).resume state result).2
          = [(a, FlashRead.blockWords result.data)] := by
  cases h with
  | identifying s => exact .inl (reading_ispIds hreads s result).2
  | request size a =>
    left
    show printedBlocks ((flashRead size).resume (.request a) result).2 = []
    dsimp only [flashRead]
    split_ifs <;> rfl
  | receive size a =>
    show printedBlocks ((flashRead size).resume (.receive a) result).2 = [] ∨ _
    by_cases h8 : result.r = 0 ∧ result.data.length = 8
    · right
      refine ⟨size, a, rfl, h8.1, h8.2, ?_⟩
      show printedBlocks ((flashRead size).resume (.receive a) result).2 = _
      dsimp only [flashRead]
      rw [if_neg (by omega), if_pos h8]
      rfl
    · left
      dsimp only [flashRead]
      rw [if_neg h8]
      split_ifs <;> rfl
  | closing size hclosing =>
    left
    cases hclosing <;> rfl
  | cleanUp | fault => exact .inl rfl

end

/-- A `-read` under way. -/
structure DumpFails (flash : Memory Word) (s : Composed Prog.State chip) : Prop where
  replies : RepliesInv [] flash s
  reading : Reading (asked s.host.calls) s.host.state
  requests : ∀ x ∈ transfers s.host.calls, IsRequest x.1 ∧ WellSized x.1
  words : ((printedBlocks s.host.out).map Prod.snd).Sublist
    (((repliesReceived s.host.calls).filter fun q => q.length = 8).map FlashRead.blockWords)
  backward : ∀ block ∈ printedBlocks s.host.out, ∃ a ∈ arrivedAddresses s.host.calls,
    a ≤ block.1 ∧ block.2 = blockAt chip flash a

section
variable {input : Input} {flash : Memory Word} {s : Composed Prog.State chip}

/-- What arrived are requests. -/
theorem isRequest_of_arrived {calls : List (Call × Result)}
    (h : ∀ x ∈ transfers calls, IsRequest x.1 ∧ WellSized x.1) : ∀ p ∈ arrived calls, IsRequest p := by
  intro p hp
  obtain ⟨x, hx, rfl⟩ := List.mem_map.mp hp
  exact (h x (List.mem_filter.mp hx).1).1

/-- A reply that was received is the block at an address whose request has arrived. -/
theorem block_of_received (h : RepliesInv [] flash s)
    (hrequests : ∀ x ∈ transfers s.host.calls, IsRequest x.1 ∧ WellSized x.1) {q : Packet}
    (hq : q ∈ repliesReceived s.host.calls) (hlen : q.length = 8) :
    ∃ a ∈ arrivedAddresses s.host.calls, FlashRead.blockWords q = blockAt chip flash a := by
  have hanswer := h.replies.subset (List.mem_append_left _ hq)
  rw [List.nil_append, answers_requests flash (isRequest_of_arrived hrequests)] at hanswer
  obtain ⟨p, hp, rfl⟩ := List.mem_map.mp hanswer
  obtain ⟨a, haddr, hwords⟩ := reply_of_length hlen
  exact ⟨a, List.mem_filterMap.mpr ⟨p, hp, haddr⟩, hwords⟩

/-- The packet of a call is a request. -/
theorem DumpFails.sends (h : DumpFails flash s) {call : Call}
    (hcall : (prog input).call s.host.state = some call) (result : Result) :
    (∀ x ∈ transfers ((prog input).step s.host result).calls, IsRequest x.1 ∧ WellSized x.1) ∧
      Reading (asked ((prog input).step s.host result).calls) s.host.state := by
  rw [Program.step_of_call _ hcall]
  dsimp only
  rw [transfers_append, asked_append]
  cases call with
  | transferOut p =>
    obtain ⟨hrequest, hsized, hreading⟩ := h.reading.request_of_call hcall
    refine ⟨fun x hx => ?_, ?_⟩
    · rcases List.mem_append.mp hx with hx | hx
      · exact h.requests x hx
      · rw [List.mem_singleton.mp hx]
        exact ⟨hrequest, hsized⟩
    · rw [asked_transferOut]
      exact hreading
  | _ =>
    refine ⟨fun x hx => h.requests x ?_, ?_⟩
    · rcases List.mem_append.mp hx with hx | hx
      · exact hx
      · cases hx
    · show Reading (asked s.host.calls ++ []) _
      rw [List.append_nil]
      exact h.reading

/-- The blocks printed before a call stay what they were. -/
theorem DumpFails.keeps (h : DumpFails flash s) (x : Call × Result) :
    ((printedBlocks s.host.out).map Prod.snd).Sublist
        (((repliesReceived (s.host.calls ++ [x])).filter fun q => q.length = 8).map
          FlashRead.blockWords) ∧
      ∀ block ∈ printedBlocks s.host.out, ∃ a ∈ arrivedAddresses (s.host.calls ++ [x]),
        a ≤ block.1 ∧ block.2 = blockAt chip flash a := by
  rw [repliesReceived_append, List.filter_append, List.map_append, arrivedAddresses_append]
  refine ⟨h.words.trans (List.sublist_append_left _ _), fun block hblock => ?_⟩
  obtain ⟨a, ha, hle, hwords⟩ := h.backward block hblock
  exact ⟨a, List.mem_append_left _ ha, hle, hwords⟩

/-- A call returns. -/
theorem DumpFails.call (hreads : input.Reads) (h : DumpFails flash s) {call : Call}
    (hcall : (prog input).call s.host.state = some call) {result : Result} {d : Device chip}
    (hreplies : RepliesInv [] flash ⟨(prog input).step s.host result, d⟩) :
    DumpFails flash ⟨(prog input).step s.host result, d⟩ := by
  obtain ⟨hrequests, hreading⟩ := h.sends hcall result
  obtain ⟨hwords, hbackward⟩ := h.keeps (call, result)
  have hreceived := fun q => @block_of_received chip flash _ hreplies hrequests q
  rw [Program.step_of_call _ hcall] at hreplies hrequests hreading hreceived ⊢
  dsimp only at hrequests hreading hreceived
  have hprinted := h.reading.printed hreads result
  rcases hprinted with hnone | ⟨size, a, hstate, hr, hlen, hone⟩
  · refine ⟨hreplies, hreading.resume hreads result, hrequests, ?_, ?_⟩
    · rw [printedBlocks_append, hnone, List.append_nil]
      exact hwords
    · rw [printedBlocks_append, hnone, List.append_nil]
      exact hbackward
  · -- the packet is the last reply that was received
    have hin : call = .transferIn 8 := by
      rw [hstate] at hcall
      cases hcall
      rfl
    have hlast : repliesReceived [(call, result)] = [result.data] := by
      obtain ⟨r, data⟩ := result
      dsimp only at hr hlen
      rw [hr, hin]
      simp [repliesReceived, hlen]
    obtain ⟨b, hb, hblock⟩ := hreceived result.data (by
      rw [repliesReceived_append, hlast]
      exact List.mem_append_right _ (List.mem_singleton_self _)) hlen
    -- and it was asked for in this turn or before
    have hle : b ≤ a := by
      have hsent := arrivedAddresses_subset _ hb
      rw [hstate] at hreading
      cases hreading with
      | receive _ _ _ _ hall => exact hall b hsent
      | closing _ hclosing => cases hclosing
    refine ⟨hreplies, hreading.resume hreads result, hrequests, ?_, ?_⟩
    · rw [printedBlocks_append, hone, List.map_append, repliesReceived_append, hlast,
        List.filter_append, List.map_append, List.filter_cons_of_pos (by simpa using hlen)]
      exact h.words.append (List.Sublist.refl _)
    · intro block hmem
      rw [printedBlocks_append, hone] at hmem
      rcases List.mem_append.mp hmem with hmem | hmem
      · exact hbackward block hmem
      · rw [List.mem_singleton.mp hmem]
        exact ⟨b, hb, hle, hblock⟩

theorem DumpFails.step (hreads : input.Reads) (h : DumpFails flash s) (a : Action) :
    DumpFails flash (System.step (prog input) s a) := by
  have heffect := step_effect (prog input) s a
  have hreplies : (∀ x ∈ transfers (System.step (prog input) s a).host.calls, WellSized x.1) →
      RepliesInv [] flash (System.step (prog input) s a) := h.replies.step
  generalize System.step (prog input) s a = s' at heffect hreplies ⊢
  cases heffect with
  | sent p hcall | received size q hcall | called call hcall | timeoutOUT p hcall
  | timeoutIN size hcall =>
    exact h.call hreads hcall (hreplies fun x hx => ((h.sends hcall _).1 x hx).2)
  | firmware | poll | blockedOUT | blockedIN | returned | noTransfer =>
    exact ⟨hreplies fun x hx => (h.requests x hx).2, h.reading, h.requests, h.words, h.backward⟩

end

/-- A device at which a host program may start owes nothing. -/
theorem Quiet.owing {d : Device chip} (hd : Quiet d) : owing d = [] := by
  have hwaiting : waitingReply d = [] := by
    unfold waitingReply
    rw [List.filter_eq_nil_iff]
    intro q hq
    have hone := hd.inBank q (by simpa using hq)
    simp [hone]
  have hnoted : notedReply d = [] := by
    rw [notedReply, if_neg hd.idle.2, if_neg hd.idle.1]
  have hpending : answers chip d.mcu.target.flash d.pending = [] := by
    cases hbank : d.mcu.outBank with
    | none => simp [Device.pending, hbank, answers]
    | some bank =>
      have hrequest := (hd.pending bank.packet (by simp [Device.pending, hbank])).1
      simp [Device.pending, hbank, answers, hrequest]
  rw [System.owing, hwaiting, hnoted, hpending]
  rfl

/-- **A dump with failures.** In every run of `prog -read`, whichever transfers fail and whoever
else polls: the flash is kept, and the blocks that are printed are, in order and each at most
once, blocks at addresses whose requests have arrived. A block may be printed under a wrong
address; then it is one of a lower address. -/
theorem dump_under_failures {d : Device chip} (hd : Quiet d) {input : Input} (hreads : input.Reads)
    (as : List Action) :
    let s := run (step (prog input)) ⟨Program.start claimed, d⟩ as
    meaning s.device = meaning d ∧
      ((printedBlocks s.host.out).map Prod.snd).Sublist
        ((arrivedAddresses s.host.calls).map (blockAt chip (meaning d))) ∧
      ∀ block ∈ printedBlocks s.host.out, ∃ a ∈ arrivedAddresses s.host.calls,
        a ≤ block.1 ∧ block.2 = blockAt chip (meaning d) a := by
  intro s
  have hstart : DumpFails (meaning d) (⟨Program.start claimed, d⟩ : Composed Prog.State chip) := by
    refine ⟨⟨⟨hd.settled, fun p hp => (hd.pending p hp).2, rfl⟩, ?_⟩, .identifying _ nofun rfl, ?_,
      List.Sublist.refl _, ?_⟩
    · rw [hd.owing]
      exact List.Sublist.refl _
    · exact fun x hx => absurd hx List.not_mem_nil
    · exact fun block hblock => absurd hblock List.not_mem_nil
  have hinv : DumpFails (meaning d) s := by
    apply run_invariant (I := fun s : Composed Prog.State chip => DumpFails (meaning d) s)
    · intro s a hs
      exact hs.step hreads a
    · exact hstart
  have harrived := isRequest_of_arrived hinv.requests
  refine ⟨?_, ?_, hinv.backward⟩
  · rw [hinv.replies.results.flash]
    exact foldl_effect_requests _ harrived
  · have hreplies := (List.sublist_append_left _ _).trans hinv.replies.replies
    rw [List.nil_append, answers_requests _ harrived] at hreplies
    have hblocks := (hreplies.filter fun q => q.length = 8).map FlashRead.blockWords
    rw [blocks_of_replies] at hblocks
    exact hinv.words.trans hblocks

/-- The first reception of a block fails, after its request was noted. -/
def lateReply : List Action :=
  [.transfer, .firmware 0, .firmware 0, .transfer, .transfer, .firmware 0, .timeout, .transfer,
    .firmware 0, .transfer]

theorem printedBlocks_lateReply :
    (4, [0, 0, 0, 0]) ∈ printedBlocks (run (step (prog readInput))
      ⟨Program.start claimed, zeroed⟩ lateReply).host.out := by
  decide +kernel

/-- The block at 0 is printed under 4. -/
theorem dump_under_failures_lateReply :
    ∃ block ∈ printedBlocks (run (step (prog readInput)) ⟨Program.start claimed, zeroed⟩
        lateReply).host.out,
      block.1 = 4 ∧ ∃ a ∈ arrivedAddresses (run (step (prog readInput))
        ⟨Program.start claimed, zeroed⟩ lateReply).host.calls,
        a ≤ block.1 ∧ block.2 = blockAt atmega328p (meaning zeroed) a := by
  obtain ⟨-, -, hbackward⟩ :=
    dump_under_failures quiet_zeroed (show readInput.Reads from rfl) lateReply
  exact ⟨_, printedBlocks_lateReply, rfl, hbackward _ printedBlocks_lateReply⟩

end System
end AvrProgrammer
