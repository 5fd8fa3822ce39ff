import Mathlib.Data.FinEnum
import Mathlib.Data.List.Basic

/-!
# Hexadecimal text

Text is a list of ASCII codes. `hexDigit` is the value of one digit, in either letter case, and
`decodeHex` reads two digits a byte. What follows a decoded text is decoded by itself, so that
a part of a line can be read at a known offset.
-/

namespace AvrProgrammer
namespace Hex

/-- The value of a hexadecimal digit. -/
def hexDigit (c : UInt8) : Option UInt8 :=
  if 0x30 ≤ c ∧ c ≤ 0x39 then some (c - 0x30)
  else if 0x41 ≤ c ∧ c ≤ 0x46 then some (c - 0x37)
  else if 0x61 ≤ c ∧ c ≤ 0x66 then some (c - 0x57)
  else none

/-- The bytes of a text of hexadecimal digits, two digits a byte. -/
def decodeHex : List UInt8 → Option (List UInt8)
  | [] => some []
  | [_] => none
  | high :: low :: text =>
    match hexDigit high, hexDigit low, decodeHex text with
    | some d, some e, some bytes => some ((16 * d + e) :: bytes)
    | _, _, _ => none

theorem hexDigit_lt {c d : UInt8} (h : hexDigit c = some d) : d < 16 := by
  have hall : ∀ c, (hexDigit c).all (· < 16) = true := by decide +kernel
  have hc := hall c
  rw [h] at hc
  simpa using hc

theorem decodeHex_cons {text bytes : List UInt8} {b : UInt8}
    (h : decodeHex text = some (b :: bytes)) :
    ∃ high low d e rest, text = high :: low :: rest ∧ hexDigit high = some d ∧
      hexDigit low = some e ∧ b = 16 * d + e ∧ decodeHex rest = some bytes := by
  match text, h with
  | [], h => cases h
  | [_], h => cases h
  | high :: low :: rest, h =>
    rw [decodeHex] at h
    split at h
    next d e bytes' hd he hrest =>
      cases h
      exact ⟨high, low, d, e, rest, rfl, hd, he, rfl, hrest⟩
    next => cases h

/-- A text that decodes consists of digits. -/
theorem isSome_of_decodeHex {text bytes : List UInt8} (h : decodeHex text = some bytes) :
    ∀ c ∈ text, (hexDigit c).isSome := by
  induction bytes generalizing text with
  | nil =>
    match text, h with
    | [], _ => simp
    | [_], h => cases h
    | high :: low :: rest, h =>
      rw [decodeHex] at h
      split at h <;> cases h
  | cons b bytes ih =>
    obtain ⟨high, low, d, e, rest, rfl, hd, he, -, hrest⟩ := decodeHex_cons h
    simpa [hd, he] using ih hrest

theorem decodeHex_length {text bytes : List UInt8} (h : decodeHex text = some bytes) :
    text.length = 2 * bytes.length := by
  induction bytes generalizing text with
  | nil =>
    match text, h with
    | [], _ => rfl
    | [_], h => cases h
    | high :: low :: rest, h =>
      rw [decodeHex] at h
      split at h <;> cases h
  | cons b bytes ih =>
    obtain ⟨high, low, d, e, rest, rfl, -, -, -, hrest⟩ := decodeHex_cons h
    simp only [List.length_cons, ih hrest]
    omega

/-- The text from byte `i` on decodes to the bytes from `i` on. -/
theorem decodeHex_drop {text bytes : List UInt8} (h : decodeHex text = some bytes) (i : ℕ) :
    decodeHex (text.drop (2 * i)) = some (bytes.drop i) := by
  induction i generalizing text bytes with
  | zero => exact h
  | succ i ih =>
    cases bytes with
    | nil =>
      have hempty : text = [] := List.length_eq_zero_iff.mp (by simpa using decodeHex_length h)
      simp [hempty, decodeHex]
    | cons b bytes =>
      obtain ⟨high, low, d, e, rest, rfl, -, -, -, hrest⟩ := decodeHex_cons h
      exact ih hrest

/-- The text up to byte `i` decodes to the bytes up to `i`. -/
theorem decodeHex_take {text bytes : List UInt8} (h : decodeHex text = some bytes) (i : ℕ) :
    decodeHex (text.take (2 * i)) = some (bytes.take i) := by
  induction i generalizing text bytes with
  | zero => rfl
  | succ i ih =>
    cases bytes with
    | nil =>
      have hempty : text = [] := List.length_eq_zero_iff.mp (by simpa using decodeHex_length h)
      simp [hempty, decodeHex]
    | cons b bytes =>
      obtain ⟨high, low, d, e, rest, rfl, hd, he, rfl, hrest⟩ := decodeHex_cons h
      show decodeHex (high :: low :: rest.take (2 * i)) = _
      simp only [decodeHex, hd, he, ih hrest, List.take_succ_cons]

/-- Every text of digits, two for a byte, decodes. -/
theorem exists_decodeHex {n : ℕ} {text : List UInt8} (hlen : text.length = 2 * n)
    (h : ∀ c ∈ text, (hexDigit c).isSome) : ∃ bytes, decodeHex text = some bytes := by
  induction n generalizing text with
  | zero =>
    rw [List.length_eq_zero_iff.mp hlen]
    exact ⟨[], rfl⟩
  | succ n ih =>
    match text, hlen with
    | high :: low :: rest, hlen =>
      obtain ⟨d, hd⟩ := Option.isSome_iff_exists.mp (h high (by simp))
      obtain ⟨e, he⟩ := Option.isSome_iff_exists.mp (h low (by simp))
      obtain ⟨bytes, hrest⟩ := @ih rest (by simpa using Nat.succ.inj (Nat.succ.inj hlen))
        fun c hc => h c (by simp [hc])
      exact ⟨(16 * d + e) :: bytes, by simp only [decodeHex, hd, he, hrest]⟩

end Hex
end AvrProgrammer
