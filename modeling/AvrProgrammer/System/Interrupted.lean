import AvrProgrammer.System.RoundTrip

/-!
# Writes that fail half way

A transfer that returns 0 has put its packet into the OUT bank, a transfer that fails has not.
So the results of the transfers say what is in the flash, for every host program and whatever
fails: `flash_of_results`.

For `prog -write` this bounds the damage of a run that is interrupted or loses packets, which
`flash_write` does not notice. Its packets arrive in order and each at most once; hence every
byte of the flash is the byte of the file, or what it was when `flash_write` began to write:
`interrupted_write`.

The damage can be repaired. Whatever processes were abandoned before, a `-write` whose packets
all arrive leaves the file in the flash: `write_recovers`. What `isp_ids` makes of a reply that
was left behind does not matter to it.
-/

namespace AvrProgrammer
namespace System

open PagedFlash Runs IntelHex Firmware Software
open Software.Prog (Input identified fermeture afterFlashWrite)

variable {σ : Type} {chip : Chip}

/-! ## What the results say -/

/-- The packets whose transfers returned 0. -/
def arrived (calls : List (Call × Result)) : List Packet :=
  ((transfers calls).filter fun x => x.2.r = 0).map Prod.fst

@[simp] theorem arrived_append (calls calls' : List (Call × Result)) :
    arrived (calls ++ calls') = arrived calls ++ arrived calls' := by
  simp [arrived]

theorem arrived_accepted (p : Packet) : arrived [(.transferOut p, ⟨0, []⟩)] = [p] := rfl

theorem arrived_timedOut (p : Packet) : arrived [(.transferOut p, timedOut)] = [] := rfl

theorem arrived_transferIn (size : ℕ) (result : Result) :
    arrived [(.transferIn size, result)] = [] := rfl

theorem arrived_control {call : Call} (hcontrol : IsControl call) (result : Result) :
    arrived [(call, result)] = [] := by
  cases call with
  | transferOut | transferIn => exact absurd hcontrol not_false
  | _ => rfl

/-- The flash is what the packets that arrived mean, the one in the OUT bank included. -/
structure ResultsInv (flash : Memory Word) (s : Composed σ chip) : Prop where
  settled : Settled s.device.mcu
  sized : PendingSized s.device
  flash : meaning s.device = (arrived s.host.calls).foldl (effect chip) flash

section
variable {P : Program σ} {flash : Memory Word} {s : Composed σ chip}

/-- A call that sends nothing, or whose packet does not arrive. -/
theorem ResultsInv.call (h : ResultsInv flash s) {call : Call}
    (hcall : P.call s.host.state = some call) {result : Result}
    (hnone : arrived [(call, result)] = []) {d : Device chip} (hd : Settled d.mcu)
    (hsized : PendingSized d) (hsame : meaning d = meaning s.device) :
    ResultsInv flash ⟨P.step s.host result, d⟩ := by
  refine ⟨hd, hsized, ?_⟩
  rw [Program.step_of_call _ hcall, hsame, h.flash]
  dsimp only
  rw [arrived_append, hnone, List.append_nil]

/-- Every action keeps the invariant, if the packet that is sent is well sized. -/
theorem ResultsInv.step (h : ResultsInv flash s) {a : Action}
    (hsent : ∀ x ∈ transfers (step P s a).host.calls, WellSized x.1) :
    ResultsInv flash (step P s a) := by
  have heffect := step_effect P s a
  have hsettled := settled_step P h.settled a
  have hdevice : ∀ {b : Firmware.Action}, (∀ p, b ≠ .arrive p) →
      meaning (Firmware.step s.device b) = meaning s.device ∧
        PendingSized (Firmware.step s.device b) :=
    fun hb => meaning_step h.settled h.sized hb
  generalize System.step P s a = s' at heffect hsettled hsent ⊢
  cases heffect with
  | firmware pinC =>
    obtain ⟨hsame, hsized⟩ := hdevice (b := .firmware pinC) nofun
    exact ⟨hsettled, hsized, hsame.trans h.flash⟩
  | poll =>
    obtain ⟨hsame, hsized⟩ := hdevice (b := .poll) nofun
    exact ⟨hsettled, hsized, hsame.trans h.flash⟩
  | sent p hcall hbank =>
    obtain ⟨hmeaning, hpending⟩ := meaning_arrive hbank p
    obtain ⟨hnow, -⟩ := meaning_of_none hbank
    refine ⟨hsettled, ?_, ?_⟩
    · intro q hq
      rw [hpending, List.mem_singleton] at hq
      rw [hq]
      apply hsent (p, ⟨0, []⟩)
      rw [Program.step_of_call _ hcall]
      dsimp only
      rw [transfers_append]
      exact List.mem_append_right _ (List.mem_singleton_self _)
    · -- the packet counts as soon as it is in the OUT bank
      rw [hmeaning, ← hnow, h.flash, Program.step_of_call _ hcall]
      dsimp only
      rw [arrived_append, arrived_accepted, List.foldl_append]
      rfl
  | received size q hcall hbank =>
    obtain ⟨hsame, hsized⟩ := hdevice (b := .poll) nofun
    exact h.call hcall (arrived_transferIn ..) hsettled hsized hsame
  | called call hcall hcontrol =>
    exact h.call hcall (arrived_control hcontrol _) h.settled h.sized rfl
  | timeoutOUT p hcall => exact h.call hcall (arrived_timedOut p) h.settled h.sized rfl
  | timeoutIN size hcall => exact h.call hcall (arrived_transferIn ..) h.settled h.sized rfl
  | blockedOUT | blockedIN | returned | noTransfer => exact h

end

/-- A packet that is sent stays in the list of calls. -/
theorem transfers_step (P : Program σ) (s : Composed σ chip) (a : Action) :
    transfers s.host.calls <+: transfers (step P s a).host.calls := by
  have heffect := step_effect P s a
  generalize System.step P s a = s' at heffect ⊢
  cases heffect with
  | sent p hcall | received size q hcall | called call hcall | timeoutOUT p hcall
  | timeoutIN size hcall =>
    rw [Program.step_of_call _ hcall]
    dsimp only
    rw [transfers_append]
    exact List.prefix_append ..
  | _ => exact List.prefix_refl _

theorem resultsInv_run (P : Program σ) (start : σ) {d : Device chip} (hd : Settled d.mcu)
    (hpending : PendingSized d) (as : List Action) :
    (∀ x ∈ transfers (run (step P) ⟨Program.start start, d⟩ as).host.calls, WellSized x.1) →
      ResultsInv (meaning d) (run (step P) ⟨Program.start start, d⟩ as) := by
  apply run_invariant (I := fun s : Composed σ chip =>
    (∀ x ∈ transfers s.host.calls, WellSized x.1) → ResultsInv (meaning d) s)
  · intro s a hs hsent
    exact (hs fun x hx => hsent x ((transfers_step P s a).subset hx)).step hsent
  · exact fun _ => ⟨hd, hpending, rfl⟩

/-- **The results tell the truth.** Whatever the host program is, whichever transfers fail and
whoever polls the buttons: the flash, with the packet in the OUT bank executed, is what the
packets mean whose transfers returned 0. -/
theorem flash_of_results (P : Program σ) (start : σ) {d : Device chip} (hd : Settled d.mcu)
    (hpending : PendingSized d) (as : List Action)
    (hsent : ∀ x ∈ transfers (run (step P) ⟨Program.start start, d⟩ as).host.calls,
      WellSized x.1) :
    meaning (run (step P) ⟨Program.start start, d⟩ as).device =
      (arrived (run (step P) ⟨Program.start start, d⟩ as).host.calls).foldl (effect chip)
        (meaning d) := by
  exact (resultsInv_run P start hd hpending as hsent).flash

/-! ## `prog -write` -/

section
variable {input : Input} {file : List UInt8}

/-- The packets `flash_write` has sent. -/
def written (calls : List (Call × Result)) : List (Packet × Result) :=
  (transfers calls).filter fun x => x.1 ≠ [0x01]

/-- The packets of the file are sent in order. -/
inductive Sending (packets : List Packet) : Prog.State → List (Packet × Result) → Prop
  | identifying (s : IspIds.State) (hs : ∀ sig, s ≠ .returned sig) :
    Sending packets (.ispIds s) []
  | writing (done : List (Packet × Result)) (rest : List Packet)
    (hdone : done.map Prod.fst ++ rest = packets) : Sending packets (.flashWrite rest) done
  | closing (calls : List Call) (code : ℤ) (done : List (Packet × Result))
    (hdone : done.map Prod.fst = packets) (hcalls : ∀ call ∈ calls, IsControl call) :
    Sending packets (.cleanUp calls code) done

theorem written_append (calls calls' : List (Call × Result)) :
    written (calls ++ calls') = written calls ++ written calls' := by
  simp [written]

/-- A packet of the file is not taken for the request of `isp_ids`. -/
theorem written_packet {p : Packet} (hp : ¬ IsRequest p) (result : Result) :
    written [(.transferOut p, result)] = [(p, result)] := by
  have hne : p ≠ [0x01] := by
    rintro rfl
    exact hp (.inl rfl)
  simp [written, transfers, hne]

/-- The state after `isp_ids` has received something. -/
theorem resume_receive (hfile : input.file = some file) (dataIn : List UInt8) (result : Result) :
    (∃ dataIn', ((prog input).resume (.ispIds (.receive dataIn)) result).1
        = .ispIds (.receive dataIn')) ∨
      ((prog input).resume (.ispIds (.receive dataIn)) result).1
        = .flashWrite (flashWritePackets input.vars file) := by
  by_cases hdiscard : Discarded result
  · left
    simp only [prog, Prog.resume, ispIds_discard hdiscard]
    exact ⟨_, rfl⟩
  · right
    have hend : (ispIds.resume (.receive dataIn) result).1 =
        .returned (IspIds.overwrite dataIn result.data) := ispIds_end hdiscard
    simp only [prog, Prog.resume, hend]
    show (Prog.command input _).1 = _
    rw [command_of_file hfile]

/-- Every call of `main` from the claimed interface on. -/
theorem Sending.step (hfile : input.file = some file) {h : Host Prog.State}
    (hsending : Sending (flashWritePackets input.vars file) h.state (written h.calls))
    (result : Result) :
    Sending (flashWritePackets input.vars file) ((prog input).step h result).state
      (written ((prog input).step h result).calls) := by
  obtain ⟨state, calls, out⟩ := h
  dsimp only at hsending
  generalize hwritten : written calls = done at hsending
  cases hcall : (prog input).call state with
  | none =>
    rw [Program.step_returned _ hcall, hwritten]
    exact hsending
  | some call =>
    rw [Program.step_of_call _ hcall]
    dsimp only
    rw [written_append, hwritten]
    cases hsending with
    | identifying s hs =>
      cases s with
      | request dataIn =>
        cases hcall
        exact .identifying _ nofun
      | receive dataIn =>
        cases hcall
        rcases resume_receive hfile dataIn result with ⟨dataIn', hdiscard⟩ | hstarts
        · rw [hdiscard]
          exact .identifying _ nofun
        · rw [hstarts]
          exact .writing [] _ rfl
      | returned sig => exact absurd rfl (hs sig)
    | writing _ rest hdone =>
      cases rest with
      | nil => cases hcall
      | cons p rest =>
        cases hcall
        have hp : p ∈ flashWritePackets input.vars file := by
          rw [← hdone]
          exact List.mem_append_right _ List.mem_cons_self
        rw [written_packet (command_of_mem_flashWritePackets hp).1]
        have hnext : (done ++ [(p, result)]).map Prod.fst ++ rest
            = flashWritePackets input.vars file := by
          rw [← hdone]
          simp
        cases rest with
        | nil =>
          rw [List.append_nil] at hnext
          exact .closing Software.closing 0 _ hnext fun _ hc => isControl_of_mem_closing hc
        | cons p' rest => exact .writing _ _ hnext
    | closing calls' code _ hdone hcalls =>
      cases calls' with
      | nil => cases hcall
      | cons call' calls' =>
        cases hcall
        have hnone : written [(call, result)] = [] := by
          have hcontrol := hcalls call List.mem_cons_self
          cases call with
          | transferOut | transferIn => exact absurd hcontrol not_false
          | _ => rfl
        rw [hnone, List.append_nil]
        exact .closing calls' code _ hdone fun c hc => hcalls c (.tail _ hc)

/-- When `main` returns all packets of the file have been sent. -/
theorem Sending.all_packets {packets : List Packet} {state : Prog.State}
    {done : List (Packet × Result)} (h : Sending packets state done)
    (hreturned : (prog input).call state = none) : done.map Prod.fst = packets := by
  cases h with
  | identifying s hs =>
    cases s with
    | returned sig => exact absurd rfl (hs sig)
    | request | receive => cases hreturned
  | writing done rest hdone =>
    cases rest with
    | nil => rw [← hdone, List.append_nil]
    | cons => cases hreturned
  | closing _ _ _ hdone => exact hdone

/-- The packets sent are the first ones of the file. -/
theorem Sending.first_packets {packets : List Packet} {state : Prog.State}
    {done : List (Packet × Result)} (h : Sending packets state done) :
    done.map Prod.fst <+: packets := by
  cases h with
  | identifying => exact List.nil_prefix
  | writing _ rest hdone => exact ⟨rest, hdone⟩
  | closing _ _ _ hdone => rw [hdone]

theorem sending_run (hfile : input.file = some file) (d : Device chip) (as : List Action) :
    Sending (flashWritePackets input.vars file)
      (run (step (prog input)) ⟨Program.start claimed, d⟩ as).host.state
      (written (run (step (prog input)) ⟨Program.start claimed, d⟩ as).host.calls) := by
  apply run_invariant (I := fun s : Composed Prog.State chip =>
    Sending (flashWritePackets input.vars file) s.host.state (written s.host.calls))
  · intro s a hs
    have heffect := step_effect (prog input) s a
    generalize System.step (prog input) s a = s' at heffect ⊢
    cases heffect with
    | sent | received | called | timeoutOUT | timeoutIN => exact hs.step hfile _
    | _ => exact hs
  · exact .identifying _ nofun

/-- `main` sends the request of `isp_ids` and packets of the file. -/
theorem wellSized_transfers (hfile : input.file = some file) (d : Device chip) (as : List Action) :
    ∀ x ∈ transfers (run (step (prog input)) ⟨Program.start claimed, d⟩ as).host.calls,
      WellSized x.1 := by
  intro x hx
  by_cases hone : x.1 = [0x01]
  · rw [hone]
    decide
  · have hwritten : x ∈ written (run (step (prog input)) ⟨Program.start claimed, d⟩ as).host.calls :=
      List.mem_filter.mpr ⟨hx, by simpa using hone⟩
    have hpacket := (sending_run hfile d as).first_packets.subset (List.mem_map_of_mem hwritten)
    exact (command_of_mem_flashWritePackets hpacket).2

/-- The packets that arrived, without the request of `isp_ids`. -/
theorem arrived_written (calls : List (Call × Result)) :
    (arrived calls).filter (fun p => p ≠ [0x01])
      = ((written calls).filter fun x => x.2.r = 0).map Prod.fst := by
  rw [arrived, written, List.filter_map, List.filter_filter, List.filter_filter]
  congr 1
  apply List.filter_congr
  intro x _
  exact Bool.and_comm ..

/-- They are some of the packets of the file, in order. -/
theorem arrived_sublist {packets : List Packet} {calls : List (Call × Result)}
    (hpackets : (written calls).map Prod.fst <+: packets) :
    ((arrived calls).filter fun p => p ≠ [0x01]).Sublist packets := by
  rw [arrived_written]
  exact (List.filter_sublist.map Prod.fst).trans hpackets.sublist

end

/-- The request of `isp_ids` means nothing for the flash. -/
theorem foldl_effect_filter (flash : Memory Word) (packets : List Packet) :
    packets.foldl (effect chip) flash
      = (packets.filter fun p => p ≠ [0x01]).foldl (effect chip) flash := by
  induction packets generalizing flash with
  | nil => rfl
  | cons p packets ih =>
    by_cases hp : p = [0x01]
    · rw [List.foldl_cons, List.filter_cons_of_neg (by simp [hp]), hp,
        effect_request flash (.inl rfl), ih]
    · rw [List.foldl_cons, List.filter_cons_of_pos (by simp [hp]), List.foldl_cons, ih]

/-! ## Main results -/

theorem flashWritePackets_image (image : Image chip) {file : List UInt8}
    (hhex : HexFile image.records file) (v : Vars) :
    flashWritePackets v file = [0x04] :: image.words.map wordPacket := by
  rw [flashWritePackets, writePackets_hexFile hhex fun r hr => even_length (image.even r hr),
    Image.words, List.map_flatMap, funext recordPackets_eq]

theorem wordPacket_inj {x y : ℕ × Word} (hx : x.1 < 2 ^ 16) (hy : y.1 < 2 ^ 16)
    (h : wordPacket x = wordPacket y) : x = y := by
  simp only [wordPacket, List.cons.injEq, and_true, true_and] at h
  obtain ⟨hhigh, hlow, hlo, hhi⟩ := h
  have haddr : UInt16.ofNat x.1 = UInt16.ofNat y.1 := by
    rw [← address_bytes (UInt16.ofNat x.1), hhigh, hlow, address_bytes]
  have hnat := congrArg UInt16.toNat haddr
  rw [UInt16.toNat_ofNat', UInt16.toNat_ofNat', Nat.mod_eq_of_lt hx, Nat.mod_eq_of_lt hy] at hnat
  exact Prod.ext hnat (Word.ext hlo hhi)

/-- A flash with some words of an image: every byte is the one of the image, programmed into
`base`, or the one of `base`. -/
theorem flashByte_sublist (image : Image chip) {words : List (ℕ × Word)}
    (hwords : words.Sublist image.words) (base : Memory Word) (b : ℕ) :
    flashByte (programAll base words) b = flashByte base b ∨
      ∃ r ∈ image.records, r.type = 0x00 ∧ ∃ k, ∃ hk : k < r.data.length, b = r.address + k ∧
        flashByte (programAll base words) b = flashByte base b &&& r.data[k] := by
  by_cases hmem : b / 2 ∈ words.map Prod.fst
  · right
    obtain ⟨x, hx, hxb⟩ := List.mem_map.mp hmem
    have hnodup : (words.map Prod.fst).Nodup := image.words_nodup.sublist (hwords.map Prod.fst)
    have hword := programAll_of_mem hnodup (show (b / 2, x.2) ∈ words by rw [← hxb]; exact hx) base
    obtain ⟨r, hr, hxr⟩ := List.mem_flatMap.mp (hwords.subset hx)
    obtain ⟨htype, j, hj, rfl⟩ := mem_recordWords.mp hxr
    obtain ⟨haddr, hlen⟩ := image.even r hr ⟨htype, by omega⟩
    dsimp only at hxb hword
    refine ⟨r, hr, htype, b - r.address, by omega, by omega, ?_⟩
    rw [flashByte, hword, flashByte]
    -- the low byte of a word is the one at the even address
    split_ifs with heven
    · rw [Word.lo_and, ← List.getD_eq_getElem r.data 0]
      rw [show 2 * j = b - r.address by omega]
    · rw [Word.hi_and, ← List.getD_eq_getElem r.data 0]
      rw [show 2 * j + 1 = b - r.address by omega]
  · left
    rw [flashByte, programAll_of_notMem hmem, flashByte]

/-- What some of the packets of an image mean. -/
theorem exists_words (image : Image chip) {packets : List Packet}
    (h : packets.Sublist ([0x04] :: image.words.map wordPacket)) (flash : Memory Word) :
    ∃ words : List (ℕ × Word), words.Sublist image.words ∧
      (∀ x ∈ image.words, x ∈ words ↔ wordPacket x ∈ packets) ∧
        packets.foldl (effect chip) flash
          = programAll (if [0x04] ∈ packets then erase else flash) words := by
  have hne : ∀ x : ℕ × Word, wordPacket x ≠ [0x04] := by
    intro x hx
    simp [wordPacket] at hx
  have hmem : ∀ words : List (ℕ × Word), words.Sublist image.words → ∀ x ∈ image.words,
      x ∈ words ↔ wordPacket x ∈ words.map wordPacket := by
    intro words hwords x hx
    refine ⟨fun hxw => List.mem_map_of_mem hxw, fun hpacket => ?_⟩
    obtain ⟨y, hy, heq⟩ := List.mem_map.mp hpacket
    have hyx := wordPacket_inj (image.words_lt (hwords.subset hy)).2 (image.words_lt hx).2 heq
    exact hyx ▸ hy
  rcases List.sublist_cons_iff.mp h with hkept | ⟨rest, rfl, hrest⟩
  · -- the erase command is not among the packets
    obtain ⟨words, hwords, rfl⟩ := List.sublist_map_iff.mp hkept
    refine ⟨words, hwords, hmem words hwords, ?_⟩
    rw [foldl_wordPackets fun x hx => image.words_lt (hwords.subset hx), if_neg]
    intro herase
    obtain ⟨x, -, hx⟩ := List.mem_map.mp herase
    exact hne x hx
  · -- the erase command comes first
    obtain ⟨words, hwords, rfl⟩ := List.sublist_map_iff.mp hrest
    refine ⟨words, hwords, fun x hx => ?_, ?_⟩
    · rw [List.mem_cons, hmem words hwords x hx]
      exact ⟨.inr, fun hpacket => hpacket.resolve_left (hne x)⟩
    · rw [if_pos List.mem_cons_self, List.foldl_cons,
        foldl_wordPackets fun x hx => image.words_lt (hwords.subset hx)]
      rfl

/-- What `flash_write` writes into: the erased flash, if the erase command arrived. -/
def baseOf (d : Device chip) (calls : List (Call × Result)) : Memory Word :=
  if [0x04] ∈ arrived calls then erase else meaning d

/-- **An interrupted write.** At every moment of every run of `prog -write`, whichever transfers
fail: the words whose transfers returned 0 are in the flash, and no others; so every byte is the
one of the file, programmed into what `flash_write` found, or what it found. -/
theorem interrupted_write {d : Device chip} (hd : Settled d.mcu) (hpending : PendingSized d)
    (image : Image chip) {input : Input} {file : List UInt8} (hfile : input.file = some file)
    (hhex : HexFile image.records file) (as : List Action) :
    let s := run (step (prog input)) ⟨Program.start claimed, d⟩ as
    let base := baseOf d s.host.calls
    (∃ words : List (ℕ × Word), words.Sublist image.words ∧
      (∀ x ∈ image.words, x ∈ words ↔ wordPacket x ∈ arrived s.host.calls) ∧
        meaning s.device = programAll base words) ∧
      ∀ b, flashByte (meaning s.device) b = flashByte base b ∨
        ∃ r ∈ image.records, r.type = 0x00 ∧ ∃ k, ∃ hk : k < r.data.length, b = r.address + k ∧
          flashByte (meaning s.device) b = flashByte base b &&& r.data[k] := by
  intro s base
  have hsending := sending_run hfile d as
  have hfirst := hsending.first_packets
  rw [flashWritePackets_image image hhex] at hfirst
  have hflash := (resultsInv_run (prog input) claimed hd hpending as
    (wellSized_transfers hfile d as)).flash
  obtain ⟨words, hwords, hmem, hmeaning⟩ := exists_words image (arrived_sublist hfirst) (meaning d)
  -- the request of `isp_ids` does not count
  rw [← foldl_effect_filter, ← hflash] at hmeaning
  have hbase : (if [0x04] ∈ (arrived s.host.calls).filter (fun p => p ≠ [0x01]) then erase
      else meaning d) = base := by
    simp [base, baseOf]
  rw [hbase] at hmeaning
  refine ⟨⟨words, hwords, fun x hx => ?_, hmeaning⟩, ?_⟩
  · rw [hmem x hx, List.mem_filter]
    refine ⟨And.left, fun h => ⟨h, ?_⟩⟩
    simp [wordPacket]
  · rw [hmeaning]
    exact flashByte_sublist image hwords base

/-- The signature request of `isp_ids` leaves the flash as it is. -/
theorem flash_of_results_ispIds :
    meaning (run (step ispIds) ⟨Program.start (.request [0, 0, 0]), zeroed⟩
        [.timeout, .firmware 0, .transfer]).device =
      (arrived (run (step ispIds) ⟨Program.start (.request [0, 0, 0]), zeroed⟩
        [.timeout, .firmware 0, .transfer]).host.calls).foldl (effect atmega328p)
          (meaning zeroed) :=
  flash_of_results ispIds (.request [0, 0, 0]) quiet_zeroed.settled
    (fun p hp => (quiet_zeroed.pending p hp).2) [.timeout, .firmware 0, .transfer] (by decide)

/-- The erase command is lost: a flash of zeros stays a flash of zeros. -/
theorem interrupted_write_twoWords :
    let s := run (step (prog (writeInput twoWordsFile))) ⟨Program.start claimed, zeroed⟩
      [.transfer, .timeout, .timeout, .transfer]
    baseOf zeroed s.host.calls = meaning zeroed ∧ ∀ b, flashByte (meaning s.device) b = 0 := by
  intro s
  have hfile : (writeInput twoWordsFile).file = some twoWordsFile := rfl
  obtain ⟨-, hbytes⟩ := interrupted_write quiet_zeroed.settled
    (fun p hp => (quiet_zeroed.pending p hp).2) twoWords hfile hexFile_twoWords
    [.transfer, .timeout, .timeout, .transfer]
  have hbase : baseOf zeroed s.host.calls = meaning zeroed := if_neg (by decide +kernel)
  have hzero : ∀ b, flashByte (meaning zeroed) b = 0 := by
    intro b
    unfold flashByte
    split_ifs <;> rfl
  refine ⟨hbase, fun b => ?_⟩
  rcases hbytes b with hkept | ⟨r, -, -, k, hk, -, hprogrammed⟩
  · rw [hkept, hbase, hzero]
  · rw [hprogrammed, hbase, hzero, UInt8.zero_and]

/-! ## Recovery -/

/-- Processes one after the other on one device, each of any program and left at any moment,
whichever of their transfers fail. Only the sizes of the packets are those of the protocol. -/
inductive Abandoned : Device chip → Device chip → Prop
  | none (d : Device chip) : Abandoned d d
  | process {σ : Type} {d d' : Device chip} (P : Program σ) (start : σ) (as : List Action)
    (hsized : ∀ x ∈ transfers (run (step P) ⟨Program.start start, d⟩ as).host.calls, WellSized x.1)
    (hrest : Abandoned (run (step P) ⟨Program.start start, d⟩ as).device d') : Abandoned d d'

/-- What the next process can rely on. -/
theorem Abandoned.settled {d d' : Device chip} (h : Abandoned d d') (hd : Settled d.mcu)
    (hpending : PendingSized d) : Settled d'.mcu ∧ PendingSized d' := by
  induction h with
  | none => exact ⟨hd, hpending⟩
  | process P start as hsized _ ih =>
    have hinv := resultsInv_run P start hd hpending as hsized
    exact ih hinv.settled hinv.sized

/-- **Recovery.** From power-on, after any processes that were abandoned: a run of `prog -write`
that returns and in which every packet of the file has arrived leaves the bytes of the file in
the flash, and 0xFF everywhere else. Every other transfer may fail. -/
theorem write_recovers (unspecified : ℕ → UInt8) (flash : Memory Word) {d : Device chip}
    (habandoned : Abandoned (powerOn unspecified flash) d) (image : Image chip) {input : Input}
    {file : List UInt8} (hfile : input.file = some file) (hhex : HexFile image.records file)
    (as : List Action) :
    let s := run (step (prog input)) ⟨Program.start claimed, d⟩ as
    (prog input).call s.host.state = none → (∀ x ∈ written s.host.calls, x.2.r = 0) →
      (∀ r ∈ image.records, r.type = 0x00 → ∀ k (hk : k < r.data.length),
        flashByte (meaning s.device) (r.address + k) = r.data[k]) ∧
      ∀ b, (∀ r ∈ image.records, r.type = 0x00 →
          b < r.address ∨ r.address + r.data.length ≤ b) →
        flashByte (meaning s.device) b = 0xFF := by
  intro s hreturned hok
  obtain ⟨hd, hpending⟩ := habandoned.settled (settled_powerOn unspecified flash) (fun _ => nofun)
  have hall := (sending_run hfile d as).all_packets hreturned
  have hinv := resultsInv_run (prog input) claimed hd hpending as (wellSized_transfers hfile d as)
  -- no packet is filtered away
  have harrived : (arrived s.host.calls).filter (fun p => p ≠ [0x01])
      = flashWritePackets input.vars file := by
    rw [arrived_written, List.filter_eq_self.mpr fun x hx => by simpa using hok x hx, hall]
  have hflash : meaning s.device = programAll erase image.words := by
    rw [hinv.flash, foldl_effect_filter, harrived]
    exact foldl_flashWritePackets image hhex _ _
  rw [hflash]
  exact ⟨fun r hr htype k hk => image.flashByte_of_mem hr htype hk,
    fun b hb => image.flashByte_of_notMem hb⟩

/-- A run of `isp_ids` that is left when its request has arrived, and one of `prog -write` that
takes the reply to it. -/
theorem write_recovers_twoWords :
    let d := (run (step ispIds) ⟨Program.start (.request [0, 0, 0]), (zeroed : Device atmega328p)⟩
      [.transfer, .firmware 0, .firmware 0]).device
    let s := run (step (prog (writeInput twoWordsFile))) ⟨Program.start claimed, d⟩
      [.transfer, .transfer, .firmware 0, .firmware 0, .transfer, .firmware 0, .firmware 0,
        .transfer, .firmware 0, .firmware 0, .transfer, .transfer, .transfer, .transfer]
    flashByte (meaning s.device) 1 = 0xBB ∧ flashByte (meaning s.device) 2 = 0xCC := by
  intro d s
  have hfile : (writeInput twoWordsFile).file = some twoWordsFile := rfl
  have habandoned : Abandoned (zeroed : Device atmega328p) d :=
    .process ispIds (.request [0, 0, 0]) [.transfer, .firmware 0, .firmware 0] (by decide) (.none d)
  obtain ⟨hbytes, -⟩ := write_recovers (fun _ => 0) (fun _ => ⟨0, 0⟩) habandoned twoWords hfile
    hexFile_twoWords [.transfer, .transfer, .firmware 0, .firmware 0, .transfer, .firmware 0,
      .firmware 0, .transfer, .firmware 0, .firmware 0, .transfer, .transfer, .transfer, .transfer]
    (by decide +kernel) (by decide +kernel)
  exact ⟨hbytes _ (.tail _ List.mem_cons_self) rfl 1 (by decide),
    hbytes _ List.mem_cons_self rfl 0 (by decide)⟩

end System
end AvrProgrammer
