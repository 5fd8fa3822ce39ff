import AvrProgrammer.Library.Hex

/-!
# The parts of C standard input the host program uses

`fgets` on a file, character buffers that hold a string up to the first NUL, and the `%Nx`
conversion of `sscanf`, as the C standard describes them:

* `fgets(s, size, file)` stores up to `size - 1` characters, up to and including a newline,
  and a NUL; at the end of the file it returns NULL and stores nothing;
* `%Nx` skips white space and then reads at most `N` characters: an optional sign, an optional
  `0x`, and hexadecimal digits, at least one. Without a digit the conversion fails, also behind a
  `0x`, which older versions of the GNU library take for the number 0.
-/

namespace AvrProgrammer
namespace Stdio

open Hex

def newline : UInt8 := 0x0A

/-! ## `fgets` -/

/-- Up to `room` characters of a file, up to and including a newline; and the rest. -/
def takeLine : ℕ → List UInt8 → List UInt8 × List UInt8
  | 0, file => ([], file)
  | _, [] => ([], [])
  | room + 1, c :: file =>
    if c = newline then ([c], file) else (c :: (takeLine room file).1, (takeLine room file).2)

/-- What `fgets` stores before the NUL, and the rest of the file. -/
def fgets (size : ℕ) (file : List UInt8) : Option (List UInt8 × List UInt8) :=
  if file = [] then none else some (takeLine (size - 1) file)

/-- What at most `fuel` calls of `fgets` store. -/
def fgetsAll (size : ℕ) : ℕ → List UInt8 → List (List UInt8)
  | 0, _ => []
  | fuel + 1, file =>
    match fgets size file with
    | none => []
    | some (line, rest) => line :: fgetsAll size fuel rest

/-- What the calls of `fgets` store, up to the end of the file. Each takes a character at
least, so there are at most as many as the file has characters. -/
def lines (size : ℕ) (file : List UInt8) : List (List UInt8) := fgetsAll size file.length file

theorem takeLine_append (room : ℕ) (file : List UInt8) :
    (takeLine room file).1 ++ (takeLine room file).2 = file := by
  induction room generalizing file with
  | zero => rfl
  | succ room ih =>
    cases file with
    | nil => rfl
    | cons c file =>
      rw [takeLine]
      split
      · rfl
      · rw [List.cons_append, ih]

theorem takeLine_length (room : ℕ) (file : List UInt8) :
    (takeLine room file).1.length ≤ room := by
  induction room generalizing file with
  | zero => exact Nat.le_refl 0
  | succ room ih =>
    cases file with
    | nil => exact Nat.zero_le _
    | cons c file =>
      rw [takeLine]
      split
      · exact Nat.succ_le_succ (Nat.zero_le _)
      · exact Nat.succ_le_succ (ih file)

/-- Of a text without newline that comes first, as much is taken as fits. -/
theorem takeLine_append_of_notMem {line : List UInt8} (hline : newline ∉ line) (room : ℕ)
    (rest : List UInt8) :
    takeLine room (line ++ rest) =
      (line.take room ++ (takeLine (room - line.length) rest).1,
        line.drop room ++ (takeLine (room - line.length) rest).2) := by
  induction line generalizing room with
  | nil => simp
  | cons c line ih =>
    rw [List.mem_cons, not_or] at hline
    cases room with
    | zero =>
      rw [List.length_cons, Nat.zero_sub]
      rfl
    | succ room =>
      have hrest := ih hline.2 room
      have hc : c ≠ newline := fun h => hline.1 h.symm
      simp [takeLine, hc, hrest]

/-- A line that fits is taken whole. -/
theorem takeLine_line {room : ℕ} {line : List UInt8} (hline : newline ∉ line)
    (hroom : line.length < room) (rest : List UInt8) :
    takeLine room (line ++ newline :: rest) = (line ++ [newline], rest) := by
  obtain ⟨k, hk⟩ : ∃ k, room - line.length = k + 1 := ⟨room - line.length - 1, by omega⟩
  rw [takeLine_append_of_notMem hline, hk, List.take_of_length_le (Nat.le_of_lt hroom),
    List.drop_eq_nil_of_le (Nat.le_of_lt hroom)]
  rfl

theorem takeLine_pos {room : ℕ} (hroom : 0 < room) {file : List UInt8} (hfile : file ≠ []) :
    0 < (takeLine room file).1.length := by
  obtain ⟨room, rfl⟩ := Nat.exists_eq_succ_of_ne_zero (Nat.ne_of_gt hroom)
  cases file with
  | nil => exact absurd rfl hfile
  | cons c file => rw [takeLine]; split <;> simp

/-- Text that ends where a line ends. -/
def WholeLines (text : List UInt8) : Prop := text = [] ∨ text.getLast? = some newline

theorem wholeLines_cons {c : UInt8} {text : List UInt8} (h : WholeLines (c :: text)) :
    WholeLines text ∧ (c ≠ newline → text ≠ []) := by
  cases text with
  | nil =>
    rcases h with h | h
    · cases h
    · exact ⟨.inl rfl, fun hc => absurd (Option.some_inj.mp h) hc⟩
  | cons d text =>
    rcases h with h | h
    · cases h
    · rw [List.getLast?_cons_cons] at h
      exact ⟨.inr h, fun _ => List.cons_ne_nil _ _⟩

/-- What follows whole lines does not change what is taken of them. -/
theorem takeLine_wholeLines {text : List UInt8} (htext : WholeLines text) (hne : text ≠ [])
    (room : ℕ) (rest : List UInt8) :
    takeLine room (text ++ rest) = ((takeLine room text).1, (takeLine room text).2 ++ rest) ∧
      WholeLines (takeLine room text).2 := by
  induction text generalizing room with
  | nil => exact absurd rfl hne
  | cons c text ih =>
    obtain ⟨htail, hmore⟩ := wholeLines_cons htext
    cases room with
    | zero => exact ⟨rfl, htext⟩
    | succ room =>
      by_cases hc : c = newline
      · rw [List.cons_append, takeLine, takeLine, if_pos hc, if_pos hc]
        exact ⟨rfl, htail⟩
      · obtain ⟨htake, hwhole⟩ := ih htail (hmore hc) room
        rw [List.cons_append, takeLine, takeLine, if_neg hc, if_neg hc, htake]
        exact ⟨rfl, hwhole⟩

section
variable {size : ℕ}

theorem fgets_of_ne {file : List UInt8} (h : file ≠ []) :
    fgets size file = some (takeLine (size - 1) file) := if_neg h

/-- More calls than characters store nothing more. -/
theorem fgetsAll_of_le (hsize : 2 ≤ size) {fuel fuel' : ℕ} {file : List UInt8}
    (h : file.length ≤ fuel) (h' : file.length ≤ fuel') :
    fgetsAll size fuel file = fgetsAll size fuel' file := by
  induction fuel generalizing file fuel' with
  | zero =>
    have hempty : file = [] := List.length_eq_zero_iff.mp (Nat.le_zero.mp h)
    subst hempty
    cases fuel' <;> rfl
  | succ fuel ih =>
    by_cases hempty : file = []
    · subst hempty
      cases fuel' <;> rfl
    have hpos := takeLine_pos (show 0 < size - 1 by omega) hempty
    have hlen := congrArg List.length (takeLine_append (size - 1) file)
    rw [List.length_append] at hlen
    obtain ⟨fuel', rfl⟩ : ∃ k, fuel' = k + 1 := ⟨fuel' - 1, by omega⟩
    have hrest := @ih fuel' (takeLine (size - 1) file).2 (by omega) (by omega)
    simp only [fgetsAll, fgets_of_ne hempty, hrest]

theorem lines_nil : lines size [] = [] := rfl

/-- The first call stores a line, the others what the rest of the file holds. -/
theorem lines_of_ne (hsize : 2 ≤ size) {file : List UInt8} (h : file ≠ []) :
    lines size file
      = (takeLine (size - 1) file).1 :: lines size (takeLine (size - 1) file).2 := by
  have hpos := takeLine_pos (show 0 < size - 1 by omega) h
  have hlen := congrArg List.length (takeLine_append (size - 1) file)
  rw [List.length_append] at hlen
  obtain ⟨fuel, hfuel⟩ : ∃ k, file.length = k + 1 := ⟨file.length - 1, by omega⟩
  rw [lines, hfuel]
  simp only [fgetsAll, fgets_of_ne h, lines]
  rw [fgetsAll_of_le hsize (by omega) (Nat.le_refl _)]

/-- `fgets` neither drops nor repeats a character. -/
theorem flatten_lines (hsize : 2 ≤ size) (file : List UInt8) :
    (lines size file).flatten = file := by
  induction hn : file.length using Nat.strong_induction_on generalizing file with
  | h n ih =>
    by_cases hempty : file = []
    · subst hempty; rfl
    have hpos := takeLine_pos (show 0 < size - 1 by omega) hempty
    have happend := takeLine_append (size - 1) file
    have hlen := congrArg List.length happend
    rw [List.length_append] at hlen
    rw [lines_of_ne hsize hempty, List.flatten_cons, ih _ (by omega) _ rfl, happend]

/-- Every string stored has a character and fits in the buffer with its NUL. -/
theorem length_of_mem_lines (hsize : 2 ≤ size) {file s : List UInt8}
    (h : s ∈ lines size file) : 0 < s.length ∧ s.length < size := by
  induction hn : file.length using Nat.strong_induction_on generalizing file with
  | h n ih =>
    by_cases hempty : file = []
    · rw [hempty, lines_nil] at h
      cases h
    have hpos := takeLine_pos (show 0 < size - 1 by omega) hempty
    have hle := takeLine_length (size - 1) file
    have hlen := congrArg List.length (takeLine_append (size - 1) file)
    rw [List.length_append] at hlen
    rw [lines_of_ne hsize hempty, List.mem_cons] at h
    rcases h with rfl | h
    · omega
    · exact ih _ (by omega) h rfl

/-- Whole lines are stored the same whatever follows them. -/
theorem lines_append (hsize : 2 ≤ size) {text : List UInt8} (htext : WholeLines text)
    (rest : List UInt8) : lines size (text ++ rest) = lines size text ++ lines size rest := by
  induction hn : text.length using Nat.strong_induction_on generalizing text with
  | h n ih =>
    by_cases hempty : text = []
    · subst hempty; rfl
    have hpos := takeLine_pos (show 0 < size - 1 by omega) hempty
    have hlen := congrArg List.length (takeLine_append (size - 1) text)
    rw [List.length_append] at hlen
    obtain ⟨htake, hwhole⟩ := takeLine_wholeLines htext hempty (size - 1) rest
    rw [lines_of_ne hsize hempty, lines_of_ne hsize (by simp [hempty]), htake,
      ih _ (by omega) hwhole rfl, List.cons_append]

/-- A line that fits in the buffer with its newline is stored whole. -/
theorem lines_line (hsize : 2 ≤ size) {line : List UInt8} (hline : newline ∉ line)
    (hroom : line.length + 1 < size) (rest : List UInt8) :
    lines size (line ++ newline :: rest) = (line ++ [newline]) :: lines size rest := by
  have hne : line ++ newline :: rest ≠ [] := by simp
  rw [lines_of_ne hsize hne, takeLine_line hline (by omega)]

/-- So is a last line without a newline. -/
theorem lines_last (hsize : 2 ≤ size) {line : List UInt8} (hline : newline ∉ line)
    (hne : line ≠ []) (hroom : line.length < size) : lines size line = [line] := by
  have htake := takeLine_append_of_notMem hline (size - 1) []
  rw [List.append_nil, List.take_of_length_le (by omega),
    List.drop_eq_nil_of_le (by omega)] at htake
  have hnothing : ∀ room, takeLine room [] = ([], []) := fun room => by cases room <;> rfl
  rw [lines_of_ne hsize hne, htake, hnothing, List.append_nil, List.append_nil, lines_nil]

end

/-! ## Strings in a buffer -/

/-- A buffer after a string has been stored in it, with its NUL; what lies behind stays. -/
def store (s buffer : List UInt8) : List UInt8 := s ++ 0 :: buffer.drop (s.length + 1)

/-- The string at an offset of a buffer, if a NUL ends it inside the buffer. -/
def stringAt (buffer : List UInt8) (offset : ℕ) : Option (List UInt8) :=
  if 0 ∈ buffer.drop offset then some ((buffer.drop offset).takeWhile (· ≠ 0)) else none

theorem takeWhile_append_nul (s rest : List UInt8) :
    (s ++ 0 :: rest).takeWhile (· ≠ 0) = s.takeWhile (· ≠ 0) := by
  induction s with
  | nil => simp
  | cons c s ih => simp only [List.cons_append, List.takeWhile_cons, ih]

theorem takeWhile_append_of_notMem {s : List UInt8} (h : 0 ∉ s) (rest : List UInt8) :
    (s ++ rest).takeWhile (· ≠ 0) = s ++ rest.takeWhile (· ≠ 0) := by
  refine List.takeWhile_append_of_pos fun c hc => ?_
  simpa using fun hzero : c = 0 => h (hzero ▸ hc)

/-- Up to the NUL of the string stored last, a buffer holds that string only. -/
theorem stringAt_store {s : List UInt8} {offset : ℕ} (h : offset ≤ s.length)
    (buffer : List UInt8) :
    stringAt (store s buffer) offset = some ((s.drop offset).takeWhile (· ≠ 0)) := by
  have hdrop : (store s buffer).drop offset
      = s.drop offset ++ 0 :: buffer.drop (s.length + 1) := by
    rw [store, List.drop_append_of_le_length h]
  rw [stringAt, hdrop, if_pos (by simp), takeWhile_append_nul]

/-! ## The conversion `%Nx` -/

def isSpace (c : UInt8) : Bool := c = 0x20 || (0x09 ≤ c && c ≤ 0x0D)

/-- An optional sign: whether it is a minus, the characters left to read, and the text. -/
def scanSign : ℕ → List UInt8 → Bool × ℕ × List UInt8
  | width + 1, c :: text =>
    if c = 0x2D then (true, width, text)
    else if c = 0x2B then (false, width, text)
    else (false, width + 1, c :: text)
  | width, text => (false, width, text)

/-- An optional `0x`: the characters left to read and the text. -/
def scanPrefix : ℕ → List UInt8 → ℕ × List UInt8
  | width + 2, c :: x :: text =>
    if c = 0x30 ∧ (x = 0x78 ∨ x = 0x58) then (width, text) else (width + 2, c :: x :: text)
  | width, text => (width, text)

/-- The values of the hexadecimal digits at the start of a text, at most `width`. -/
def scanDigits : ℕ → List UInt8 → List UInt8
  | width + 1, c :: text =>
    match hexDigit c with
    | some d => d :: scanDigits width text
    | none => []
  | _, _ => []

/-- The number with the given digits. -/
def digitsValue (digits : List UInt8) : UInt32 :=
  digits.foldl (fun value d => 16 * value + d.toUInt32) 0

/-- `%Nx` of ISO C: the value and the rest of the text, or `none` if the conversion fails. A bare
`0x` is the start of a number without its digits, so it fails; the GNU library before its fix
converts it to 0. -/
def scanHex (width : ℕ) (text : List UInt8) : Option (UInt32 × List UInt8) :=
  let (negative, width, text) := scanSign width (text.dropWhile isSpace)
  let (width, text) := scanPrefix width text
  let digits := scanDigits width text
  if digits = [] then none
  else
    let value := digitsValue digits
    some (if negative then 0 - value else value, text.drop digits.length)

/-! ## Converting hexadecimal digits -/

/-- A hexadecimal digit is no space, no sign and no `x`. -/
theorem hexDigit_not_special {c d : UInt8} (h : hexDigit c = some d) :
    isSpace c = false ∧ c ≠ 0x2D ∧ c ≠ 0x2B ∧ c ≠ 0x78 ∧ c ≠ 0x58 := by
  have hall : ∀ c, (hexDigit c).isSome → isSpace c = false ∧ c ≠ 0x2D ∧ c ≠ 0x2B ∧ c ≠ 0x78 ∧
      c ≠ 0x58 := by decide +kernel
  exact hall c (by rw [h]; rfl)

theorem scanDigits_append {digits values : List UInt8}
    (h : List.Forall₂ (fun c d => hexDigit c = some d) digits values) (rest : List UInt8) :
    scanDigits digits.length (digits ++ rest) = values := by
  induction h with
  | nil => cases rest <;> rfl
  | cons hd _ ih =>
    rw [List.length_cons, List.cons_append, scanDigits, hd]
    exact congrArg _ ih

/-- As many digits as the conversion may read are its value. -/
theorem scanHex_digits {digits values : List UInt8}
    (h : List.Forall₂ (fun c d => hexDigit c = some d) digits values) (hne : digits ≠ [])
    (rest : List UInt8) :
    scanHex digits.length (digits ++ rest) = some (digitsValue values, rest) := by
  have hdigits := scanDigits_append h rest
  have hlen := h.length_eq
  cases h with
  | nil => exact absurd rfl hne
  | @cons c d digits values hd htail =>
    obtain ⟨hspace, hminus, hplus, -, -⟩ := hexDigit_not_special hd
    have hprefix : scanPrefix (digits.length + 1) (c :: (digits ++ rest))
        = (digits.length + 1, c :: (digits ++ rest)) := by
      cases htail with
      | nil => cases rest <;> rfl
      | cons hx _ =>
        obtain ⟨-, -, -, hx, hX⟩ := hexDigit_not_special hx
        simp [scanPrefix, hx, hX]
    have hsign : scanSign (digits.length + 1) (c :: (digits ++ rest))
        = (false, digits.length + 1, c :: (digits ++ rest)) := by
      simp [scanSign, hminus, hplus]
    have hdrop : (c :: (digits ++ rest)).dropWhile isSpace = c :: (digits ++ rest) := by
      simp [hspace]
    rw [List.length_cons, List.cons_append] at hdigits
    rw [List.length_cons, List.cons_append]
    simp only [scanHex, hdrop, hsign, hprefix, hdigits, ← hlen]
    simp

/-! ## Numbers without a minus sign -/

theorem scanSign_of_notMem {text : List UInt8} (hminus : 0x2D ∉ text) (width : ℕ) :
    (scanSign width text).1 = false ∧ (scanSign width text).2.1 ≤ width := by
  cases width with
  | zero => exact ⟨rfl, Nat.le_refl 0⟩
  | succ width =>
    cases text with
    | nil => exact ⟨rfl, Nat.le_refl _⟩
    | cons c text =>
      have hc : c ≠ 0x2D := fun h => hminus (h ▸ List.mem_cons_self)
      rw [scanSign, if_neg hc]
      split_ifs
      · exact ⟨rfl, Nat.le_succ width⟩
      · exact ⟨rfl, Nat.le_refl _⟩

theorem scanPrefix_le (width : ℕ) (text : List UInt8) : (scanPrefix width text).1 ≤ width := by
  unfold scanPrefix
  split
  · split_ifs <;> omega
  · exact Nat.le_refl _

/-- There are at most `width` digits. -/
theorem scanDigits_spec (width : ℕ) (text : List UInt8) :
    (scanDigits width text).length ≤ width ∧ ∀ d ∈ scanDigits width text, d < 16 := by
  induction text generalizing width with
  | nil => cases width <;> simp [scanDigits]
  | cons c text ih =>
    cases width with
    | zero => simp [scanDigits]
    | succ width =>
      rw [scanDigits]
      split
      next d hd =>
        obtain ⟨hlen, hdigits⟩ := ih width
        exact ⟨Nat.succ_le_succ hlen, List.forall_mem_cons.mpr ⟨hexDigit_lt hd, hdigits⟩⟩
      · simp

theorem digitsValue_lt {digits : List UInt8} (h : ∀ d ∈ digits, d < 16) :
    (digitsValue digits).toNat < 16 ^ digits.length := by
  induction digits using List.reverseRecOn with
  | nil => decide
  | append_singleton digits d ih =>
    have hd : d.toNat < 16 := h d (by simp)
    have hvalue := ih fun d hd => h d (List.mem_append_left _ hd)
    have hfold : digitsValue (digits ++ [d]) = 16 * digitsValue digits + d.toUInt32 := by
      simp [digitsValue, List.foldl_append]
    rw [hfold, List.length_append, List.length_singleton, pow_succ, UInt32.toNat_add,
      UInt32.toNat_mul, UInt8.toNat_toUInt32]
    show (16 * (digitsValue digits).toNat % 2 ^ 32 + d.toNat) % 2 ^ 32 < _
    omega

/-- Without a minus sign the value has at most `width` digits. -/
theorem scanHex_lt {width : ℕ} {text rest : List UInt8} {value : UInt32} (hminus : 0x2D ∉ text)
    (h : scanHex width text = some (value, rest)) : value.toNat < 16 ^ width := by
  have hsuffix := List.dropWhile_suffix isSpace (l := text)
  obtain ⟨hsign, hwidth⟩ := scanSign_of_notMem (fun hmem => hminus (hsuffix.subset hmem)) width
  unfold scanHex at h
  generalize scanSign width (text.dropWhile isSpace) = sign at h hsign hwidth
  obtain ⟨negative, width', text'⟩ := sign
  have hrest := scanPrefix_le width' text'
  simp only at h hsign hwidth
  subst hsign
  generalize scanPrefix width' text' = digits at h hrest
  obtain ⟨hlen, hdigits⟩ := scanDigits_spec digits.1 digits.2
  rw [if_neg Bool.false_ne_true] at h
  split_ifs at h
  injection h with h
  injection h with hvalue
  rw [← hvalue]
  exact (digitsValue_lt hdigits).trans_le
    (Nat.pow_le_pow_right (by decide) (hlen.trans (hrest.trans hwidth)))

/-! ## Bytes and words -/

/-- The value of two digits is the byte they stand for. -/
theorem digitsValue_append_byte (values : List UInt8) {d e : UInt8} (hd : d < 16)
    (he : e < 16) :
    digitsValue (values ++ [d, e]) = 256 * digitsValue values + (16 * d + e).toUInt32 := by
  have hd : d.toNat < 16 := hd
  have he : e.toNat < 16 := he
  have hbyte : (16 * d + e).toUInt32 = 16 * d.toUInt32 + e.toUInt32 := by
    apply UInt32.toNat_inj.mp
    simp
    omega
  have hfold : digitsValue (values ++ [d, e])
      = 16 * (16 * digitsValue values + d.toUInt32) + e.toUInt32 := by
    simp [digitsValue, List.foldl_append]
  rw [hfold, hbyte]
  apply UInt32.toNat_inj.mp
  simp only [UInt32.toNat_add, UInt32.toNat_mul, UInt32.reduceToNat]
  omega

/-- `%2x` at a byte of hexadecimal text. -/
theorem scanHex_byte {text bytes : List UInt8} {b : UInt8}
    (h : decodeHex text = some (b :: bytes)) (tail : List UInt8) :
    scanHex 2 (text ++ tail) = some (b.toUInt32, text.drop 2 ++ tail) := by
  obtain ⟨high, low, d, e, rest, rfl, hd, he, rfl, -⟩ := decodeHex_cons h
  have hscan := scanHex_digits (.cons hd (.cons he .nil)) (List.cons_ne_nil _ _) (rest ++ tail)
  have hvalue := digitsValue_append_byte [] (hexDigit_lt hd) (hexDigit_lt he)
  have hzero : 256 * digitsValue [] = 0 := rfl
  rw [List.nil_append, hzero, UInt32.zero_add] at hvalue
  rw [hvalue] at hscan
  exact hscan

/-- `%4x` at two bytes of hexadecimal text. -/
theorem scanHex_word {text bytes : List UInt8} {b b' : UInt8}
    (h : decodeHex text = some (b :: b' :: bytes)) (tail : List UInt8) :
    scanHex 4 (text ++ tail) = some (256 * b.toUInt32 + b'.toUInt32, text.drop 4 ++ tail) := by
  obtain ⟨c₁, c₂, d₁, d₂, text, rfl, h₁, h₂, rfl, hrest⟩ := decodeHex_cons h
  obtain ⟨c₃, c₄, d₃, d₄, rest, rfl, h₃, h₄, rfl, -⟩ := decodeHex_cons hrest
  have hscan := scanHex_digits (.cons h₁ (.cons h₂ (.cons h₃ (.cons h₄ .nil))))
    (List.cons_ne_nil _ _) (rest ++ tail)
  have hfirst := digitsValue_append_byte [] (hexDigit_lt h₁) (hexDigit_lt h₂)
  have hsecond := digitsValue_append_byte [d₁, d₂] (hexDigit_lt h₃) (hexDigit_lt h₄)
  have hzero : 256 * digitsValue [] = 0 := rfl
  rw [List.nil_append, hzero, UInt32.zero_add] at hfirst
  rw [hfirst] at hsecond
  rw [show [d₁, d₂, d₃, d₄] = [d₁, d₂] ++ [d₃, d₄] from rfl, hsecond] at hscan
  exact hscan

end Stdio
end AvrProgrammer
