import AvrProgrammer.Library.Stdio
import Mathlib.Data.List.Forall2

/-!
# Characters that C input does not tell apart

`fgets` and `%Nx` look at a character only to see whether it is a newline, a NUL, white space, a
sign, part of `0x`, or a digit and which. Two characters of one kind are the same to them, such
as the two cases of a digit, the blank and the tab, or two letters that are no digits. `literals`
are the other characters that a format or a program compares with.

`Alike` relates two texts character by character. Each operation of `Stdio` takes alike texts to
alike texts and equal values.
-/

namespace AvrProgrammer
namespace Stdio

open Hex

/-- The same kind of character. -/
structure SameKind (literals : List UInt8) (c c' : UInt8) : Prop where
  newline : c = newline ↔ c' = newline
  nul : c = 0 ↔ c' = 0
  space : isSpace c = isSpace c'
  minus : c = 0x2D ↔ c' = 0x2D
  plus : c = 0x2B ↔ c' = 0x2B
  zero : c = 0x30 ↔ c' = 0x30
  x : (c = 0x78 ∨ c = 0x58) ↔ (c' = 0x78 ∨ c' = 0x58)
  digit : hexDigit c = hexDigit c'
  literal : ∀ k ∈ literals, c = k ↔ c' = k

theorem SameKind.refl (literals : List UInt8) (c : UInt8) : SameKind literals c c :=
  ⟨.rfl, .rfl, rfl, .rfl, .rfl, .rfl, .rfl, rfl, fun _ _ => .rfl⟩

/-- Texts of the same kinds of characters. -/
abbrev Alike (literals : List UInt8) : List UInt8 → List UInt8 → Prop :=
  List.Forall₂ (SameKind literals)

variable {literals : List UInt8}

theorem Alike.refl (text : List UInt8) : Alike literals text text :=
  List.forall₂_same.mpr fun c _ => SameKind.refl literals c

/-! ## `fgets` -/

section
variable {file file' : List UInt8}

theorem Alike.takeLine (h : Alike literals file file') (room : ℕ) :
    Alike literals (takeLine room file).1 (takeLine room file').1 ∧
      Alike literals (takeLine room file).2 (takeLine room file').2 := by
  induction room generalizing file file' with
  | zero => exact ⟨.nil, h⟩
  | succ room ih =>
    cases h with
    | nil => exact ⟨.nil, .nil⟩
    | @cons c c' _ _ hc hrest =>
      obtain ⟨hline, hmore⟩ := ih hrest
      unfold Stdio.takeLine
      by_cases hnewline : c = Stdio.newline
      · rw [if_pos hnewline, if_pos (hc.newline.mp hnewline)]
        exact ⟨.cons hc .nil, hrest⟩
      · rw [if_neg hnewline, if_neg fun h => hnewline (hc.newline.mpr h)]
        exact ⟨.cons hc hline, hmore⟩

theorem Alike.fgetsAll (h : Alike literals file file') (size fuel : ℕ) :
    List.Forall₂ (Alike literals) (fgetsAll size fuel file) (fgetsAll size fuel file') := by
  induction fuel generalizing file file' with
  | zero => exact .nil
  | succ fuel ih =>
    unfold Stdio.fgetsAll fgets
    cases h with
    | nil => exact .nil
    | cons hc hrest =>
      rw [if_neg (List.cons_ne_nil _ _), if_neg (List.cons_ne_nil _ _)]
      obtain ⟨hline, hmore⟩ := Alike.takeLine (.cons hc hrest) (size - 1)
      exact .cons hline (ih hmore)

/-- Alike files have alike lines. -/
theorem Alike.lines (h : Alike literals file file') (size : ℕ) :
    List.Forall₂ (Alike literals) (lines size file) (lines size file') := by
  unfold Stdio.lines
  rw [← h.length_eq]
  exact h.fgetsAll size file.length

end

/-! ## Strings in a buffer -/

section
variable {text text' buffer buffer' : List UInt8}

theorem Alike.takeWhile {p : UInt8 → Bool} (hp : ∀ c c', SameKind literals c c' → p c = p c')
    (h : Alike literals text text') : Alike literals (text.takeWhile p) (text'.takeWhile p) := by
  induction h with
  | nil => exact .nil
  | cons hc _ ih =>
    rw [List.takeWhile_cons, List.takeWhile_cons, ← hp _ _ hc]
    split_ifs
    · exact .cons hc ih
    · exact .nil

theorem Alike.dropWhile {p : UInt8 → Bool} (hp : ∀ c c', SameKind literals c c' → p c = p c')
    (h : Alike literals text text') : Alike literals (text.dropWhile p) (text'.dropWhile p) := by
  induction h with
  | nil => exact .nil
  | cons hc hrest ih =>
    rw [List.dropWhile_cons, List.dropWhile_cons, ← hp _ _ hc]
    split_ifs
    · exact ih
    · exact .cons hc hrest

/-- The string up to the first NUL. -/
theorem Alike.string (h : Alike literals text text') :
    Alike literals (text.takeWhile (· ≠ 0)) (text'.takeWhile (· ≠ 0)) := by
  apply h.takeWhile
  intro c c' hc
  simp only [ne_eq, hc.nul]

theorem Alike.store (h : Alike literals text text') (hbuffer : Alike literals buffer buffer') :
    Alike literals (store text buffer) (store text' buffer') := by
  unfold Stdio.store
  rw [← h.length_eq]
  exact List.rel_append h (.cons (SameKind.refl ..) (List.forall₂_drop _ hbuffer))

theorem Alike.mem_nul (h : Alike literals text text') : 0 ∈ text ↔ 0 ∈ text' := by
  induction h with
  | nil => exact .rfl
  | cons hc _ ih => rw [List.mem_cons, List.mem_cons, ih, eq_comm, hc.nul, eq_comm]

theorem Alike.stringAt (h : Alike literals buffer buffer') (offset : ℕ) :
    Option.Rel (Alike literals) (stringAt buffer offset) (stringAt buffer' offset) := by
  have hdrop : Alike literals (buffer.drop offset) (buffer'.drop offset) :=
    List.forall₂_drop offset h
  unfold Stdio.stringAt
  by_cases hmem : 0 ∈ buffer.drop offset
  · rw [if_pos hmem, if_pos (hdrop.mem_nul.mp hmem)]
    exact .some hdrop.string
  · rw [if_neg hmem, if_neg fun h => hmem (hdrop.mem_nul.mpr h)]
    exact .none

end

/-! ## The conversion `%Nx` -/

section
variable {text text' : List UInt8}

theorem Alike.scanSign (h : Alike literals text text') (width : ℕ) :
    (scanSign width text).1 = (scanSign width text').1 ∧
      (scanSign width text).2.1 = (scanSign width text').2.1 ∧
        Alike literals (scanSign width text).2.2 (scanSign width text').2.2 := by
  cases width with
  | zero => exact ⟨rfl, rfl, h⟩
  | succ width =>
    cases h with
    | nil => exact ⟨rfl, rfl, .nil⟩
    | cons hc hrest =>
      simp only [Stdio.scanSign, hc.minus, hc.plus]
      split_ifs
      · exact ⟨rfl, rfl, hrest⟩
      · exact ⟨rfl, rfl, hrest⟩
      · exact ⟨rfl, rfl, .cons hc hrest⟩

theorem Alike.scanPrefix (h : Alike literals text text') (width : ℕ) :
    (scanPrefix width text).1 = (scanPrefix width text').1 ∧
      Alike literals (scanPrefix width text).2 (scanPrefix width text').2 := by
  -- two characters are looked at if there are two and they may be read
  match width, h with
  | 0, h => exact ⟨rfl, h⟩
  | 1, h => exact ⟨rfl, h⟩
  | _ + 2, .nil => exact ⟨rfl, .nil⟩
  | _ + 2, .cons hc .nil => exact ⟨rfl, .cons hc .nil⟩
  | width + 2, .cons hc (.cons hx hrest) =>
    simp only [Stdio.scanPrefix, hc.zero, hx.x]
    split_ifs
    · exact ⟨rfl, hrest⟩
    · exact ⟨rfl, .cons hc (.cons hx hrest)⟩

/-- Alike texts have the same digits. -/
theorem Alike.scanDigits (h : Alike literals text text') (width : ℕ) :
    scanDigits width text = scanDigits width text' := by
  induction h generalizing width with
  | nil => rfl
  | cons hc _ ih =>
    cases width with
    | zero => rfl
    | succ width => simp only [Stdio.scanDigits, hc.digit, ih]

/-- Alike texts are converted to the same value. -/
theorem Alike.scanHex (h : Alike literals text text') (width : ℕ) :
    Option.Rel (fun r r' => r.1 = r'.1 ∧ Alike literals r.2 r'.2)
      (scanHex width text) (scanHex width text') := by
  have hspace : Alike literals (text.dropWhile isSpace) (text'.dropWhile isSpace) :=
    h.dropWhile fun _ _ hc => hc.space
  obtain ⟨hnegative, hwidth, hsign⟩ := hspace.scanSign width
  obtain ⟨hwidth', hprefix⟩ := hsign.scanPrefix (Stdio.scanSign width (text.dropWhile isSpace)).2.1
  have hdigits := hprefix.scanDigits
  simp only [Stdio.scanHex, ← hnegative, ← hwidth, ← hwidth', ← hdigits]
  split_ifs
  · exact .none
  · exact .some ⟨rfl, List.forall₂_drop _ hprefix⟩
  · exact .some ⟨rfl, List.forall₂_drop _ hprefix⟩

end

end Stdio
end AvrProgrammer
