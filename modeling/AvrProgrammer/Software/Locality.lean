import AvrProgrammer.Software.FlashWrite

/-!
# What a line of the file sends

The variables of `flash_write` live across the lines and the result of `sscanf` is not looked
at. So a line may send what earlier lines left: a header that is not converted whole leaves
the old type, and a word that is not converted is read from what the line buffer or the stack
held before.

`fileLaw_iff` says for which files this never shows: up to the end record, every line has a
header that converts whole and, if it is a data line, all its words, and a line without a
colon and eight digits neither holds data nor ends the parse.
-/

namespace AvrProgrammer
namespace Software

open Stdio Hex IntelHex Runs

/-! ## Lines -/

/-- What a line sends, and whether it ends the parse. -/
def outcome (v : Vars) (s : List UInt8) : List Packet × Bool :=
  if (v.readLine s).type = 0x01 then ([], true) else (linePackets (v.readLine s), false)

/-- A colon and eight hexadecimal digits come first. -/
def wellHeaded : List UInt8 → Bool
  | [] => false
  | c :: text => c = colon && 8 ≤ text.length && (text.take 8).all fun c => (hexDigit c).isSome

/-- The variables `flash_write` starts with: an array of 256 characters, and anything. -/
def Vars.OnStack (v : Vars) : Prop := v.line.length = 256

/-- What a line sends does not depend on the lines before it or the stack, and a line without
colon and eight digits sends nothing, does not end the parse and can be removed. -/
structure FileLaw (file : List UInt8) : Prop where
  alone : ∀ pre s post, lines 256 file = pre ++ s :: post →
    ∀ v v' pre', v.OnStack → v'.OnStack → Passes v pre → Passes v' pre' →
      outcome (run Vars.readLine v' pre') s = outcome (run Vars.readLine v pre) s
  malformed : ∀ pre s post, lines 256 file = pre ++ s :: post → wellHeaded s = false →
    ∀ v, v.OnStack → Passes v pre → outcome (run Vars.readLine v pre) s = ([], false)
  removal : ∀ v, v.OnStack →
    writeLoop v ((lines 256 file).filter wellHeaded) = writeLoop v (lines 256 file)

/-! ## The condition on lines -/

/-- The fields of a header that converts whole. -/
structure Header where
  length : UInt32
  addrIn : UInt32
  typeIn : UInt32

/-- The header of a line, if all three conversions of `":%2x%4x%2x"` succeed. -/
def header (s : List UInt8) : Option Header :=
  match s.takeWhile (· ≠ 0) with
  | [] => none
  | c :: text =>
    if c ≠ colon then none
    else
      (scanHex 2 text).bind fun (length, text) =>
        (scanHex 4 text).bind fun (addrIn, text) =>
          (scanHex 2 text).map fun (typeIn, _) => { length, addrIn, typeIn }

namespace Header

/-- `type`. -/
def type (h : Header) : UInt16 := h.typeIn.toUInt16

/-- The number of words of the line. -/
def wordCount (h : Header) : ℕ := (h.length.toNat + 1) / 2

end Header

/-- Word `k` of a line, if its conversion succeeds inside the line. -/
def lineWord (s : List UInt8) (k : ℕ) : Option UInt32 :=
  (scanHex 4 ((s.drop (9 + 4 * k)).takeWhile (· ≠ 0))).map Prod.fst

/-- The line ends the parse, whatever came before it. -/
def EndLine (s : List UInt8) : Prop := ∃ h, header s = some h ∧ h.type = 0x01

/-- The line says by itself what it sends, and it sends nothing and does not end the parse
unless a colon and eight digits come first. -/
def SelfContained (s : List UInt8) : Prop :=
  ∃ h, header s = some h ∧
    (h.type = 0x00 → ∀ k < h.wordCount, (lineWord s k).isSome) ∧
    (wellHeaded s = false → h.type ≠ 0x01 ∧ (h.type = 0x00 → h.length = 0))

/-! ## What reading a line does -/

section
variable {s : List UInt8} {v : Vars}

/-- A header that converts whole sets all three variables. -/
theorem readLine_of_header {h : Header} (hs : header s = some h) :
    v.readLine s =
      { v with line := store s v.line, length := h.length, addrIn := h.addrIn,
               typeIn := h.typeIn, lineNumber := v.lineNumber + 1 } := by
  unfold header at hs
  unfold Vars.readLine Vars.scanHeader
  cases htext : s.takeWhile (· ≠ 0) with
  | nil => rw [htext] at hs; cases hs
  | cons c text =>
    rw [htext] at hs
    simp only at hs ⊢
    split_ifs at hs with hc
    obtain ⟨⟨length, text₁⟩, h₁, hs⟩ := Option.bind_eq_some_iff.mp hs
    obtain ⟨⟨addrIn, text₂⟩, h₂, hs⟩ := Option.bind_eq_some_iff.mp hs
    obtain ⟨⟨typeIn, text₃⟩, h₃, rfl⟩ := Option.map_eq_some_iff.mp hs
    simp only at h₂ h₃
    rw [if_neg hc]
    simp only [h₁, h₂, h₃]

/-- A header that does not convert whole leaves the type. -/
theorem typeIn_of_header_none (hs : header s = none) : (v.readLine s).typeIn = v.typeIn := by
  unfold header at hs
  unfold Vars.readLine Vars.scanHeader
  cases htext : s.takeWhile (· ≠ 0) with
  | nil => rfl
  | cons c text =>
    rw [htext] at hs
    simp only at hs ⊢
    split_ifs at hs ⊢ with hc
    · rfl
    cases h₁ : scanHex 2 text with
    | none => rfl
    | some r₁ =>
      cases h₂ : scanHex 4 r₁.2 with
      | none => simp only [h₂]
      | some r₂ =>
        cases h₃ : scanHex 2 r₂.2 with
        | none => simp only [h₂, h₃]
        | some r₃ => simp [h₁, h₂, h₃] at hs

@[simp] theorem readLine_line : (v.readLine s).line = store s v.line := by
  unfold Vars.readLine Vars.scanHeader
  split
  · rfl
  split_ifs
  · rfl
  split
  · rfl
  split
  · rfl
  split <;> rfl

@[simp] theorem readLine_unspecified : (v.readLine s).unspecified = v.unspecified := by
  unfold Vars.readLine Vars.scanHeader
  split
  · rfl
  split_ifs
  · rfl
  split
  · rfl
  split
  · rfl
  split <;> rfl

/-- A word that converts inside its line does not depend on the buffer. -/
theorem wordData_of_lineWord {k : ℕ} {w : UInt32} (hw : lineWord s k = some w) :
    (v.readLine s).wordData k = w := by
  obtain ⟨⟨w', rest⟩, hscan, rfl⟩ := Option.map_eq_some_iff.mp hw
  have hlen : 9 + 4 * k ≤ s.length := by
    by_contra hlong
    rw [List.drop_eq_nil_of_le (by omega)] at hscan
    cases hscan
  rw [Vars.wordData, readLine_line, stringAt_store hlen, Option.bind_some, hscan]

theorem takeWhile_replicate_nul (n : ℕ) :
    (List.replicate n (0 : UInt8)).takeWhile (· ≠ 0) = [] := by
  cases n <;> rfl

/-- A word that does not convert inside its line is unspecified if the buffer held zeros. -/
theorem wordData_of_lineWord_none {k n : ℕ} (hw : lineWord s k = none)
    (hline : v.line = List.replicate n 0) :
    (v.readLine s).wordData k = v.unspecified (v.readLine s).lineNumber k := by
  have hscan : (stringAt (v.readLine s).line (9 + 4 * k)).bind (scanHex 4) = none := by
    rw [readLine_line, hline]
    by_cases hlen : 9 + 4 * k ≤ s.length
    · rw [stringAt_store hlen]
      exact Option.map_eq_none_iff.mp hw
    · rw [store, stringAt]
      have hdrop : (s ++ 0 :: (List.replicate n 0).drop (s.length + 1)).drop (9 + 4 * k)
          = List.replicate (n - (9 + 4 * k)) 0 := by
        rw [List.drop_append, List.drop_eq_nil_of_le (by omega), List.nil_append,
          show 9 + 4 * k - s.length = 9 + 4 * k - s.length - 1 + 1 by omega,
          List.drop_succ_cons, List.drop_drop, List.drop_replicate]
        congr 1
        omega
      rw [hdrop, takeWhile_replicate_nul]
      split_ifs <;> rfl
  rw [Vars.wordData, hscan, readLine_unspecified]

end

/-! ## Lines that are self-contained -/

section
variable {s : List UInt8} {h : Header}

theorem type_of_header {v : Vars} (hs : header s = some h) : (v.readLine s).type = h.type := by
  rw [readLine_of_header hs]
  rfl

/-- The packets of a line whose words all convert. -/
theorem linePackets_of_header {v : Vars} (hs : header s = some h) (htype : h.type = 0x00) :
    linePackets (v.readLine s) = (List.range h.wordCount).map fun k =>
      writePacket ((h.addrIn / 2).toUInt16 + UInt16.ofNat k) ((v.readLine s).wordData k) := by
  rw [linePackets, if_pos ((type_of_header hs).trans htype), readLine_of_header hs]
  rfl

/-- What a self-contained line does depends on nothing else. -/
theorem SelfContained.outcome_eq (hs : SelfContained s) (v v' : Vars) :
    outcome v s = outcome v' s := by
  obtain ⟨h, hheader, hwords, -⟩ := hs
  have hpackets : linePackets (v.readLine s) = linePackets (v'.readLine s) := by
    by_cases htype : h.type = 0x00
    · rw [linePackets_of_header hheader htype, linePackets_of_header hheader htype]
      refine List.map_congr_left fun k hk => ?_
      obtain ⟨w, hw⟩ := Option.isSome_iff_exists.mp (hwords htype k (List.mem_range.mp hk))
      rw [wordData_of_lineWord hw, wordData_of_lineWord hw]
    · rw [linePackets, linePackets, if_neg, if_neg] <;> rwa [type_of_header hheader]
  rw [outcome, outcome, type_of_header hheader, type_of_header hheader, hpackets]

theorem SelfContained.outcome_malformed (hs : SelfContained s) (hmal : wellHeaded s = false)
    (v : Vars) : outcome v s = ([], false) := by
  obtain ⟨h, hheader, -, hmalformed⟩ := hs
  obtain ⟨hend, hdata⟩ := hmalformed hmal
  have hpackets : linePackets (v.readLine s) = [] := by
    by_cases htype : h.type = 0x00
    · rw [linePackets_of_header hheader htype, Header.wordCount, hdata htype]
      rfl
    · rw [linePackets, if_neg]
      rwa [type_of_header hheader]
  rw [outcome, type_of_header hheader, if_neg hend, hpackets]

end

/-! ## Lines that do the same after any lines -/

/-- A stack of zeros but for the type and the unspecified values. -/
private def stack (typeIn : UInt32) (unspecified : UInt32) : Vars :=
  { line := List.replicate 256 0, length := 0, addrIn := 0, typeIn, lineNumber := 0,
    unspecified := fun _ _ => unspecified }

theorem linePackets_getElem? {v : Vars} (htype : v.type = 0x00) {k : ℕ}
    (hk : k < v.wordCount) :
    (linePackets v)[k]? =
      some (writePacket ((v.addrIn / 2).toUInt16 + UInt16.ofNat k) (v.wordData k)) := by
  rw [linePackets, if_pos htype]
  simp [hk]

theorem writePacket_zero_ne_one (a : UInt16) : writePacket a 0 ≠ writePacket a 1 := by
  intro heq
  have hlast : highByte 0x0000 = highByte 0x0100 := (List.cons.inj (List.cons.inj (List.cons.inj
    (List.cons.inj (List.cons.inj heq).2).2).2).2).1
  exact absurd hlast (by decide)

/-- A line that does the same whatever the stack held is self-contained. -/
theorem selfContained_of_outcome {s : List UInt8}
    (halone : ∀ v v' : Vars, v.OnStack → v'.OnStack → outcome v s = outcome v' s)
    (hmal : wellHeaded s = false → ∀ v : Vars, v.OnStack → outcome v s = ([], false)) :
    SelfContained s := by
  have hstack : ∀ t u, (stack t u).OnStack := fun _ _ => List.length_replicate ..
  cases hheader : header s with
  | none =>
    -- the old type decides: type 1 ends the parse, type 2 does not
    have h12 := halone (stack 1 0) (stack 2 0) (hstack 1 0) (hstack 2 0)
    have h1 : ((stack 1 0).readLine s).type = 0x01 := by
      rw [Vars.type, typeIn_of_header_none hheader]; rfl
    have h2 : ((stack 2 0).readLine s).type ≠ 0x01 := by
      rw [Vars.type, typeIn_of_header_none hheader]; decide
    rw [outcome, outcome, if_pos h1, if_neg h2] at h12
    exact absurd (congrArg Prod.snd h12) (show true ≠ false by decide)
  | some h =>
    refine ⟨h, hheader, fun htype k hk => ?_, fun hmalformed => ?_⟩
    · cases hword : lineWord s k with
      | some w => rfl
      | none =>
        -- the unspecified word is sent: 0 or 1
        exfalso
        have h01 := halone (stack 0 0) (stack 0 1) (hstack 0 0) (hstack 0 1)
        have hpacket : ∀ u, ((outcome (stack 0 u) s).1)[k]? =
            some (writePacket ((h.addrIn / 2).toUInt16 + UInt16.ofNat k) u) := by
          intro u
          have htype' : ((stack 0 u).readLine s).type = 0x00 := by
            rw [type_of_header hheader, htype]
          have hdata := @wordData_of_lineWord_none s (stack 0 u) k 256 hword rfl
          rw [outcome, if_neg (by rw [htype']; decide),
            linePackets_getElem? htype' (by rw [readLine_of_header hheader]; exact hk), hdata,
            readLine_of_header hheader]
          rfl
        have heq := hpacket 1
        rw [← h01, hpacket 0] at heq
        exact writePacket_zero_ne_one _ (Option.some_inj.mp heq)
    · have hout := hmal hmalformed (stack 0 0) (hstack 0 0)
      have hend : ((stack 0 0).readLine s).type ≠ 0x01 := by
        intro hend
        rw [outcome, if_pos hend] at hout
        cases hout
      rw [outcome, if_neg hend] at hout
      refine ⟨by rwa [type_of_header hheader] at hend, fun htype => ?_⟩
      have hempty := congrArg Prod.fst hout
      rw [linePackets_of_header hheader htype, List.map_eq_nil_iff, List.range_eq_nil,
        Header.wordCount] at hempty
      apply UInt32.toNat_inj.mp
      show h.length.toNat = 0
      omega

/-! ## Main result -/

/-- The condition on a file: every line up to the end record is self-contained. -/
def SelfContainedFile (file : List UInt8) : Prop :=
  ∀ pre s post, lines 256 file = pre ++ s :: post → (∀ e ∈ pre, ¬ EndLine e) → SelfContained s

/-- The loop gets past self-contained lines that are no end records. -/
theorem passes_of_selfContained {pre : List (List UInt8)}
    (hpre : ∀ e ∈ pre, SelfContained e ∧ ¬ EndLine e) (v : Vars) : Passes v pre := by
  refine along_iff.mpr ?_
  rintro before s after rfl
  obtain ⟨⟨h, hheader, -⟩, hend⟩ := hpre s (by simp)
  rw [type_of_header hheader]
  exact fun htype => hend ⟨h, hheader, htype⟩

/-- The loop does not get past an end record. -/
theorem not_endLine_of_passes {v : Vars} {pre : List (List UInt8)} (h : Passes v pre) :
    ∀ e ∈ pre, ¬ EndLine e := by
  rintro e he ⟨header, hheader, htype⟩
  obtain ⟨before, after, rfl⟩ := List.append_of_mem he
  exact along_iff.mp h before e after rfl ((type_of_header hheader).trans htype)

theorem writeLoop_cons (v : Vars) (s : List UInt8) (rest : List (List UInt8)) :
    writeLoop v (s :: rest) =
      (outcome v s).1 ++ if (outcome v s).2 then [] else writeLoop (v.readLine s) rest := by
  rw [writeLoop, outcome]
  split_ifs <;> simp_all

theorem not_endLine_of_outcome {v : Vars} {s : List UInt8} (h : (outcome v s).2 = false) :
    ¬ EndLine s := by
  rintro ⟨header, hheader, htype⟩
  rw [outcome, if_pos ((type_of_header hheader).trans htype)] at h
  cases h

/-- With self-contained lines, those without colon and digits can go. -/
theorem writeLoop_filter {ls : List (List UInt8)}
    (hls : ∀ pre s post, ls = pre ++ s :: post → (∀ e ∈ pre, ¬ EndLine e) → SelfContained s)
    (v v' : Vars) : writeLoop v (ls.filter wellHeaded) = writeLoop v' ls := by
  induction ls generalizing v v' with
  | nil => rfl
  | cons s rest ih =>
    have hs : SelfContained s := hls [] s rest rfl (by simp)
    have hrest : ¬ EndLine s → ∀ pre t post, rest = pre ++ t :: post →
        (∀ e ∈ pre, ¬ EndLine e) → SelfContained t := by
      intro hend pre t post hsplit hpre
      refine hls (s :: pre) t post (by rw [hsplit, List.cons_append]) ?_
      simpa [hend] using hpre
    cases hhead : wellHeaded s with
    | false =>
      have hnone := hs.outcome_malformed hhead v'
      have hend : ¬ EndLine s := not_endLine_of_outcome (v := v') (by rw [hnone])
      rw [List.filter_cons_of_neg (by simp [hhead]), writeLoop_cons, hnone,
        ih (hrest hend) v (v'.readLine s)]
      rfl
    | true =>
      rw [List.filter_cons_of_pos hhead, writeLoop_cons, writeLoop_cons, hs.outcome_eq v v']
      cases hlast : (outcome v' s).2 with
      | true => rfl
      | false =>
        rw [ih (hrest (not_endLine_of_outcome hlast)) (v.readLine s) (v'.readLine s)]

/-- Whether the write commands of a line depend on that line alone, exactly. -/
theorem fileLaw_iff (file : List UInt8) : FileLaw file ↔ SelfContainedFile file := by
  constructor
  · intro hlaw pre
    -- the lines before are self-contained too, so that every run gets to the line
    induction hn : pre.length using Nat.strong_induction_on generalizing pre with
    | h n ih =>
      intro s post hsplit hpre
      have hbefore : ∀ e ∈ pre, SelfContained e ∧ ¬ EndLine e := by
        intro e he
        obtain ⟨before, after, rfl⟩ := List.append_of_mem he
        rw [List.length_append, List.length_cons] at hn
        refine ⟨ih before.length (by omega) before rfl e (after ++ s :: post) ?_ ?_, hpre e he⟩
        · rw [hsplit, List.append_assoc, List.cons_append]
        · exact fun e' he' => hpre e' (List.mem_append_left _ he')
      have hpasses := passes_of_selfContained hbefore
      have halone := fun v v' hv hv' =>
        hlaw.alone pre s post hsplit v v' [] hv hv' (hpasses v) along_nil
      refine selfContained_of_outcome (fun v v' hv hv' => ?_) fun hmal v hv => ?_
      · exact (halone v v hv hv).trans (halone v v' hv hv').symm
      · exact (halone v v hv hv).trans (hlaw.malformed pre s post hsplit hmal v hv (hpasses v))
  · intro hfile
    refine ⟨fun pre s post hsplit v v' pre' _ _ hv _ => ?_,
      fun pre s post hsplit hmal v _ hv => ?_, fun v _ => writeLoop_filter hfile v v⟩
    · exact (hfile pre s post hsplit (not_endLine_of_passes hv)).outcome_eq _ _
    · exact (hfile pre s post hsplit (not_endLine_of_passes hv)).outcome_malformed hmal _

/-- A blank line after a record sends the record's word again: the file is
`:02000000AABB99` and an empty line. -/
theorem blank_line_sends_again :
    ¬ FileLaw [0x3A, 0x30, 0x32, 0x30, 0x30, 0x30, 0x30, 0x30, 0x30, 0x41, 0x41, 0x42, 0x42, 0x39,
      0x39, 0x0A, 0x0A] := by
  intro hlaw
  have hremoval := hlaw.removal (stack 0 0) (List.length_replicate ..)
  exact absurd (congrArg List.length hremoval) (by decide +kernel)

end Software
end AvrProgrammer
