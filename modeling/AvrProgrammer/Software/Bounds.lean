import AvrProgrammer.Software.Locality

/-!
# Reading inside the line

The words of a line are read at the offsets `9 + 4 * k` for a count taken from the file, which
need not have anything to do with the length of the line; and what a conversion leaves
unassigned is used as it is. `inBounds_iff` says for which files every offset lies inside the
line and every value comes from the line.
-/

namespace AvrProgrammer
namespace Software

open Stdio Hex IntelHex Runs

/-- Every word of the line that is sent is read at an offset before the NUL of the line, and its
header and the word itself were converted from the line. -/
def InBounds (v : Vars) (s : List UInt8) : Prop :=
  (v.readLine s).type = 0x00 → ∀ k < (v.readLine s).wordCount,
    (9 + 4 * k < s.length ∧ 9 + 4 * k < 256) ∧ (header s).isSome ∧ (lineWord s k).isSome

/-- All lines the loop gets to are read in bounds, whatever the stack held. -/
def InBoundsFile (file : List UInt8) : Prop :=
  ∀ v : Vars, v.OnStack → ∀ pre s post, lines 256 file = pre ++ s :: post → Passes v pre →
    InBounds (run Vars.readLine v pre) s

/-! ## The condition on lines -/

/-- `length` as the header of a line sets it. -/
def lineLength (s : List UInt8) : Option UInt32 :=
  match s.takeWhile (· ≠ 0) with
  | [] => none
  | c :: text => if c ≠ colon then none else (scanHex 2 text).map Prod.fst

/-- `type_in` as the header of a line sets it. -/
def lineType (s : List UInt8) : Option UInt32 := (header s).map Header.typeIn

/-- The line holds all the words its header says, or it has no whole header and no word can be
sent for it: the type left over is not 00, or the length is 0. -/
def SafeLine (pre : List (List UInt8)) (s : List UInt8) : Prop :=
  match header s with
  | some h => h.type = 0x00 → ∀ k < h.wordCount, (lineWord s k).isSome
  | none =>
    (∃ t, latest lineType pre = some t ∧ t.toUInt16 ≠ 0x00) ∨
      latest lineLength (pre ++ [s]) = some 0

/-- Every line up to the end record is safe. -/
def SafeFile (file : List UInt8) : Prop :=
  ∀ pre s post, lines 256 file = pre ++ s :: post → (∀ e ∈ pre, ¬ EndLine e) → SafeLine pre s

/-! ## The variables after a line -/

theorem readLine_length (v : Vars) (s : List UInt8) :
    (v.readLine s).length = (lineLength s).getD v.length := by
  unfold Vars.readLine Vars.scanHeader lineLength
  cases s.takeWhile (· ≠ 0) with
  | nil => rfl
  | cons c text =>
    simp only
    split_ifs with hc
    · rfl
    cases scanHex 2 text with
    | none => rfl
    | some r₁ =>
      simp only
      cases scanHex 4 r₁.2 with
      | none => rfl
      | some r₂ =>
        simp only
        cases scanHex 2 r₂.2 <;> rfl

theorem readLine_typeIn (v : Vars) (s : List UInt8) :
    (v.readLine s).typeIn = (lineType s).getD v.typeIn := by
  unfold lineType
  cases hs : header s with
  | none => exact typeIn_of_header_none hs
  | some h =>
    rw [readLine_of_header hs]
    rfl

theorem run_length (v : Vars) (ls : List (List UInt8)) :
    (run Vars.readLine v ls).length = (latest lineLength ls).getD v.length :=
  variable_run readLine_length v ls

theorem run_typeIn (v : Vars) (ls : List (List UInt8)) :
    (run Vars.readLine v ls).typeIn = (latest lineType ls).getD v.typeIn :=
  variable_run readLine_typeIn v ls

theorem type_of_header_none {v : Vars} {s : List UInt8} (hs : header s = none) :
    (v.readLine s).type = v.type := by
  rw [Vars.type, typeIn_of_header_none hs, Vars.type]

/-- Unless it starts with type 01, the loop gets past lines that are no end records. -/
theorem passes_of_not_endLine {pre : List (List UInt8)} (hpre : ∀ e ∈ pre, ¬ EndLine e)
    {v : Vars} (hv : v.type ≠ 0x01) : Passes v pre := by
  induction pre generalizing v with
  | nil => trivial
  | cons s pre ih =>
    rw [List.forall_mem_cons] at hpre
    have hs : (v.readLine s).type ≠ 0x01 := by
      cases hheader : header s with
      | none => rwa [type_of_header_none hheader]
      | some h =>
        rw [type_of_header hheader]
        exact fun htype => hpre.1 ⟨h, hheader, htype⟩
    exact ⟨hs, ih hpre.2 hs⟩

/-- A word that converts is read before the NUL of its line. -/
theorem offset_of_lineWord {s : List UInt8} {k : ℕ} (h : (lineWord s k).isSome) :
    9 + 4 * k < s.length := by
  by_contra hlong
  rw [lineWord, List.drop_eq_nil_of_le (by omega)] at h
  cases h

/-! ## Safe lines -/

/-- A stack of zeros but for a length of 2, as for a data record of one word. -/
private def dataStack : Vars := ⟨List.replicate 256 0, 2, 0, 0, 0, fun _ _ => 0⟩

section
variable {pre : List (List UInt8)} {s : List UInt8}

/-- A line that is read in bounds is safe. -/
theorem safeLine_of_inBounds (hbounds : InBounds (run Vars.readLine dataStack pre) s) :
    SafeLine pre s := by
  unfold SafeLine
  cases hheader : header s with
  | some h =>
    intro htype k hk
    have hcount : k < ((run Vars.readLine dataStack pre).readLine s).wordCount := by
      rw [readLine_of_header hheader]
      exact hk
    exact (hbounds ((type_of_header hheader).trans htype) k hcount).2.2
  | none =>
    -- with the type 00 and the length 2 at the start, word 0 would be sent
    by_contra hunsafe
    rw [not_or, not_exists] at hunsafe
    have htype : ((run Vars.readLine dataStack pre).readLine s).type = 0x00 := by
      rw [type_of_header_none hheader, Vars.type, run_typeIn]
      cases hlast : latest lineType pre with
      | none => rfl
      | some t => exact not_not.mp fun ht => hunsafe.1 t ⟨hlast, ht⟩
    have hlength : ((run Vars.readLine dataStack pre).readLine s).length ≠ 0 := by
      have hrun := run_length dataStack (pre ++ [s])
      rw [run_append, run_cons, run_nil] at hrun
      rw [hrun]
      cases hlast : latest lineLength (pre ++ [s]) with
      | none => decide
      | some n => exact fun hn => hunsafe.2 (hlast.trans (congrArg some hn))
    have hcount : 0 < ((run Vars.readLine dataStack pre).readLine s).wordCount := by
      have hpos : ((run Vars.readLine dataStack pre).readLine s).length.toNat ≠ 0 :=
        fun h => hlength (UInt32.toNat_inj.mp h)
      unfold Vars.wordCount
      omega
    have hsome := (hbounds htype 0 hcount).2.1
    rw [hheader] at hsome
    cases hsome

/-- A safe line is read in bounds, whatever the stack held. -/
theorem inBounds_of_safeLine (hlen : s.length < 256) (hsafe : SafeLine pre s) (v : Vars) :
    InBounds (run Vars.readLine v pre) s := by
  intro htype k hk
  unfold SafeLine at hsafe
  cases hheader : header s with
  | some h =>
    rw [hheader] at hsafe
    rw [type_of_header hheader] at htype
    rw [readLine_of_header hheader] at hk
    have hword := hsafe htype k hk
    have hoffset := offset_of_lineWord hword
    exact ⟨⟨hoffset, by omega⟩, rfl, hword⟩
  | none =>
    -- no word is sent
    exfalso
    rw [hheader] at hsafe
    rcases hsafe with ⟨t, hlast, ht⟩ | hlast
    · -- the type left over is that of the latest whole header
      rw [type_of_header_none hheader, Vars.type, run_typeIn, hlast] at htype
      exact ht htype
    · have hrun := run_length v (pre ++ [s])
      rw [run_append, run_cons, run_nil, hlast, Option.getD_some] at hrun
      rw [Vars.wordCount, hrun] at hk
      exact absurd hk (Nat.not_lt_zero k)

end

/-! ## Main result -/

/-- For which files every read is in bounds and every value comes from its line, exactly. -/
theorem inBounds_iff (file : List UInt8) : InBoundsFile file ↔ SafeFile file := by
  constructor
  · intro hfile pre s post hsplit hpre
    have hstack : dataStack.OnStack := List.length_replicate ..
    have hpasses : Passes dataStack pre := passes_of_not_endLine hpre (by decide)
    exact safeLine_of_inBounds (hfile dataStack hstack pre s post hsplit hpasses)
  · intro hfile v _ pre s post hsplit hpasses
    have hmem : s ∈ lines 256 file := by
      rw [hsplit]
      simp
    have hsafe := hfile pre s post hsplit (not_endLine_of_passes hpasses)
    exact inBounds_of_safeLine (length_of_mem_lines (by decide) hmem).2 hsafe v

/-- The line `:10000000AABB` holds two bytes of the sixteen it announces: the third word is read
behind its end. -/
theorem short_line_read_behind_end :
    ¬ InBoundsFile [0x3A, 0x31, 0x30, 0x30, 0x30, 0x30, 0x30, 0x30, 0x30, 0x41, 0x41, 0x42, 0x42,
      0x0A] := by
  intro hfile
  have hbounds := hfile dataStack (List.length_replicate ..) []
    [0x3A, 0x31, 0x30, 0x30, 0x30, 0x30, 0x30, 0x30, 0x30, 0x41, 0x41, 0x42, 0x42, 0x0A] []
    (by decide +kernel) trivial
  have hword := hbounds (by decide +kernel) 2 (by decide +kernel)
  exact absurd hword.1.1 (by decide)

end Software
end AvrProgrammer
