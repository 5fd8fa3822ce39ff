import AvrProgrammer.Software.FlashWrite
import AvrProgrammer.Library.Kinds

/-!
# What the parser of `flash_write` does not see

`flash_write` compares the first character of a line with a colon and leaves everything else to
`fgets` and `sscanf`. So it sees a file only up to the kinds of its characters: the letter case of
the digits, tabs for blanks, and letters that are no digits make no difference, in any file at
all, with lines of any length and whatever the buffer held.

`packets_alike` says so for any two files of the same kinds, `packets_upper` for the letter case.
-/

namespace AvrProgrammer
namespace Software

open Stdio Hex IntelHex

/-- Characters that the parser does not tell apart. -/
abbrev Indistinct : UInt8 → UInt8 → Prop := SameKind [colon]

/-- The variables when alike lines have been read. -/
structure AlikeVars (v v' : Vars) : Prop where
  line : Alike [colon] v.line v'.line
  length : v.length = v'.length
  addrIn : v.addrIn = v'.addrIn
  typeIn : v.typeIn = v'.typeIn
  lineNumber : v.lineNumber = v'.lineNumber
  unspecified : v.unspecified = v'.unspecified

theorem AlikeVars.refl (v : Vars) : AlikeVars v v := ⟨Alike.refl _, rfl, rfl, rfl, rfl, rfl⟩

section
variable {v v' : Vars} {text text' : List UInt8}

theorem AlikeVars.type (h : AlikeVars v v') : v.type = v'.type := by
  rw [Vars.type, Vars.type, h.typeIn]

theorem AlikeVars.wordCount (h : AlikeVars v v') : v.wordCount = v'.wordCount := by
  rw [Vars.wordCount, Vars.wordCount, h.length]

/-- A header is converted alike, as far as it is converted. -/
theorem AlikeVars.scanHeader (h : AlikeVars v v') (htext : Alike [colon] text text') :
    AlikeVars (v.scanHeader text) (v'.scanHeader text') := by
  unfold Vars.scanHeader
  cases htext with
  | nil => exact h
  | @cons c c' text text' hc hrest =>
    replace hrest : Alike [colon] text text' := hrest
    dsimp only
    by_cases hcolon : c = colon
    · rw [if_neg (not_not.mpr hcolon),
        if_neg (not_not.mpr ((hc.literal colon (List.mem_singleton_self _)).mp hcolon))]
      have hlength := hrest.scanHex 2
      generalize scanHex 2 text = r, scanHex 2 text' = r' at hlength ⊢
      cases hlength with
      | none => exact h
      | @some r r' hr =>
        have haddrIn := hr.2.scanHex 4
        dsimp only
        generalize scanHex 4 r.2 = q, scanHex 4 r'.2 = q' at haddrIn ⊢
        cases haddrIn with
        | none => exact ⟨h.line, hr.1, h.addrIn, h.typeIn, h.lineNumber, h.unspecified⟩
        | @some q q' hq =>
          have htypeIn := hq.2.scanHex 2
          dsimp only
          generalize scanHex 2 q.2 = p, scanHex 2 q'.2 = p' at htypeIn ⊢
          cases htypeIn with
          | none => exact ⟨h.line, hr.1, hq.1, h.typeIn, h.lineNumber, h.unspecified⟩
          | some hp => exact ⟨h.line, hr.1, hq.1, hp.1, h.lineNumber, h.unspecified⟩
    · have hcolon' : c' ≠ colon := fun heq =>
        hcolon ((hc.literal colon (List.mem_singleton_self _)).mpr heq)
      rw [if_pos hcolon, if_pos hcolon']
      exact h

theorem AlikeVars.readLine (h : AlikeVars v v') {s s' : List UInt8} (hs : Alike [colon] s s') :
    AlikeVars (v.readLine s) (v'.readLine s') := by
  unfold Vars.readLine
  apply AlikeVars.scanHeader _ hs.string
  exact ⟨hs.store h.line, h.length, h.addrIn, h.typeIn, by rw [h.lineNumber], h.unspecified⟩

/-- The words are converted alike, or not converted and unspecified alike. -/
theorem AlikeVars.wordData (h : AlikeVars v v') (k : ℕ) : v.wordData k = v'.wordData k := by
  unfold Vars.wordData
  have hstring := h.line.stringAt (9 + 4 * k)
  rw [h.lineNumber, h.unspecified]
  generalize stringAt v.line _ = t, stringAt v'.line _ = t' at hstring ⊢
  cases hstring with
  | none => rfl
  | @some t t' ht =>
    have hword := ht.scanHex 4
    simp only [Option.bind_some]
    generalize scanHex 4 t = r, scanHex 4 t' = r' at hword ⊢
    cases hword with
    | none => rfl
    | some hr => exact hr.1

theorem AlikeVars.linePackets (h : AlikeVars v v') : linePackets v = linePackets v' := by
  unfold Software.linePackets
  rw [h.type, h.wordCount, h.addrIn]
  simp only [h.wordData]

/-- Alike lines send the same packets. -/
theorem AlikeVars.writeLoop (h : AlikeVars v v') {ls ls' : List (List UInt8)}
    (hls : List.Forall₂ (Alike [colon]) ls ls') : writeLoop v ls = writeLoop v' ls' := by
  induction hls generalizing v v' with
  | nil => rfl
  | cons hs _ ih =>
    have hread := h.readLine hs
    rw [Software.writeLoop, Software.writeLoop, hread.type, hread.linePackets, ih hread]

theorem AlikeVars.flashWritePackets (h : AlikeVars v v') {file file' : List UInt8}
    (hfile : Alike [colon] file file') :
    flashWritePackets v file = flashWritePackets v' file' := by
  rw [Software.flashWritePackets, Software.flashWritePackets, writePackets, writePackets,
    h.writeLoop (hfile.lines 256)]

end

/-! ## Main results -/

/-- **The parser sees kinds of characters.** Two files of the same kinds, character by character,
send the same packets, whatever the stack holds. -/
theorem packets_alike (v : Vars) {file file' : List UInt8}
    (hfile : List.Forall₂ Indistinct file file') :
    flashWritePackets v file = flashWritePackets v file' :=
  (AlikeVars.refl v).flashWritePackets hfile

/-- The upper case of a letter. -/
def upper (c : UInt8) : UInt8 := if 0x61 ≤ c ∧ c ≤ 0x7A then c - 0x20 else c

theorem indistinct_upper (c : UInt8) : Indistinct c (upper c) := by
  have hall : ∀ c : UInt8, (c = newline ↔ upper c = newline) ∧ (c = 0 ↔ upper c = 0) ∧
      isSpace c = isSpace (upper c) ∧ (c = 0x2D ↔ upper c = 0x2D) ∧ (c = 0x2B ↔ upper c = 0x2B) ∧
      (c = 0x30 ↔ upper c = 0x30) ∧ (c = 0x78 ∨ c = 0x58 ↔ upper c = 0x78 ∨ upper c = 0x58) ∧
      hexDigit c = hexDigit (upper c) ∧ (c = colon ↔ upper c = colon) := by
    decide +kernel
  obtain ⟨hnewline, hnul, hspace, hminus, hplus, hzero, hx, hdigit, hcolon⟩ := hall c
  refine ⟨hnewline, hnul, hspace, hminus, hplus, hzero, hx, hdigit, fun k hk => ?_⟩
  rw [List.mem_singleton.mp hk]
  exact hcolon

/-- The letter case of a file makes no difference. -/
theorem packets_upper (v : Vars) (file : List UInt8) :
    flashWritePackets v (file.map upper) = flashWritePackets v file := by
  have hfile : Alike [colon] file (file.map upper) := by
    show List.Forall₂ (SameKind [colon]) file (file.map upper)
    rw [List.forall₂_map_right_iff]
    exact List.forall₂_same.mpr fun c _ => indistinct_upper c
  exact ((AlikeVars.refl v).flashWritePackets hfile).symm

/-- A record in lower case, with a letter that is no digit for another at its end. -/
theorem packets_alike_lowerCase :
    flashWritePackets ⟨[], 0, 0, 0, 0, fun _ _ => 0⟩ [0x3A, 0x30, 0x32, 0x61, 0x47] =
      flashWritePackets ⟨[], 0, 0, 0, 0, fun _ _ => 0⟩ [0x3A, 0x30, 0x32, 0x41, 0x7A] := by
  apply packets_alike
  have hletter : Indistinct 0x47 0x7A := by
    refine ⟨by decide, by decide, by decide, by decide, by decide, by decide, by decide, by decide,
      fun k hk => ?_⟩
    rw [List.mem_singleton.mp hk]
    decide
  exact .cons (.refl _ _) (.cons (.refl _ _) (.cons (.refl _ _)
    (.cons (indistinct_upper 0x61) (.cons hletter .nil))))

end Software
end AvrProgrammer
