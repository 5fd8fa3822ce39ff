import AvrProgrammer.Software.LongLines

/-!
# The lengths that are read

`for (unsigned int i = 0; i < length; i += 2)` counts in 32 bits, and `%2x` reads a minus sign
before one digit. With the length `-1` the loop has no end: `inner_loop_ends_iff`.

`LengthsFit` is the condition for `flash_write` to get to the end of its file. Only a minus sign in
the file, or what the stack held, can break it (`lengthsFit_of_notMem`), and a file of records
keeps it (`lengthsFit_hexFile`).
-/

namespace AvrProgrammer
namespace Software

open Stdio Hex IntelHex Runs

/-! ## The counter -/

/-- `i` after so many turns. -/
def counter : ℕ → UInt32
  | 0 => 0
  | k + 1 => counter k + 2

theorem toNat_counter (k : ℕ) : (counter k).toNat = 2 * k % 2 ^ 32 := by
  induction k with
  | zero => rfl
  | succ k ih =>
    rw [counter, UInt32.toNat_add, ih]
    show (2 * k % 2 ^ 32 + 2) % 2 ^ 32 = 2 * (k + 1) % 2 ^ 32
    omega

/-- Up to the end the counter does not wrap. -/
theorem counter_lt_iff {v : Vars} {k : ℕ} (hk : k ≤ v.wordCount)
    (hlength : v.length ≠ 0xFFFFFFFF) : counter k < v.length ↔ k < v.wordCount := by
  have hlt := v.length.toNat_lt
  have hne : v.length.toNat ≠ 2 ^ 32 - 1 := fun h => hlength (UInt32.toNat_inj.mp h)
  rw [Vars.wordCount] at hk ⊢
  rw [UInt32.lt_iff_toNat_lt, toNat_counter, Nat.mod_eq_of_lt (by omega)]
  omega

/-- The counter is even, so it never is 2^32 - 1. -/
theorem counter_lt_minus_one (k : ℕ) : counter k < 0xFFFFFFFF := by
  rw [UInt32.lt_iff_toNat_lt, toNat_counter]
  show 2 * k % 2 ^ 32 < 2 ^ 32 - 1
  omega

/-- The loop over the words of a line has an end unless `length` is 2^32 - 1, and it ends after
`wordCount` turns. -/
theorem inner_loop_ends_iff (v : Vars) :
    ((∀ k < v.wordCount, counter k < v.length) ∧ ¬ counter v.wordCount < v.length) ↔
      v.length ≠ 0xFFFFFFFF := by
  constructor
  · rintro ⟨-, hend⟩ hlength
    rw [hlength] at hend
    exact hend (counter_lt_minus_one _)
  · intro hlength
    refine ⟨fun k hk => (counter_lt_iff (Nat.le_of_lt hk) hlength).mpr hk, fun hlt => ?_⟩
    exact Nat.lt_irrefl _ ((counter_lt_iff (Nat.le_refl _) hlength).mp hlt)

/-- The line `:-1000000`. -/
example : (zeroStack.readLine [0x3A, 0x2D, 0x31, 0x30, 0x30, 0x30, 0x30, 0x30, 0x30]).length
    = 0xFFFFFFFF := by decide

/-! ## The number of packets -/

theorem length_linePackets_le {v : Vars} (h : v.LengthFits) : (linePackets v).length ≤ 128 := by
  unfold linePackets
  split_ifs with htype
  · have hlength : v.length.toNat ≤ 255 := UInt32.le_iff_toNat_le.mp (h htype)
    rw [List.length_map, List.length_range, Vars.wordCount]
    omega
  · exact Nat.zero_le _

theorem length_writeLoop_le {v : Vars} {ls : List (List UInt8)} (h : LoopsEnd v ls) :
    (writeLoop v ls).length ≤ 128 * ls.length := by
  induction ls generalizing v with
  | nil => exact Nat.le_refl 0
  | cons s rest ih =>
    rw [writeLoop]
    split_ifs with hend
    · exact Nat.zero_le _
    obtain ⟨hs, hrest⟩ := h hend
    have hline := length_linePackets_le hs
    have hothers := ih hrest
    rw [List.length_append, List.length_cons]
    omega

/-- A line sends at most 128 packets. -/
theorem length_flashWritePackets_le {v : Vars} {file : List UInt8} (h : LengthsFit v file) :
    (flashWritePackets v file).length ≤ 128 * (lines 256 file).length + 1 := by
  have hle := length_writeLoop_le h
  rw [flashWritePackets, List.length_cons]
  exact Nat.succ_le_succ hle

/-! ## Files without a minus sign -/

/-- A line sets `length` to the number behind its first character, or leaves it. -/
theorem length_readLine (v : Vars) (s : List UInt8) :
    (v.readLine s).length = v.length ∨
      ∃ c text rest, s.takeWhile (· ≠ 0) = c :: text ∧
        scanHex 2 text = some ((v.readLine s).length, rest) := by
  unfold Vars.readLine Vars.scanHeader
  split
  · exact .inl rfl
  next c text htext =>
    split_ifs
    · exact .inl rfl
    split
    · exact .inl rfl
    next length rest hscan =>
      right
      refine ⟨c, text, rest, htext, ?_⟩
      split
      · exact hscan
      split <;> exact hscan

/-- Two digits without a sign are at most 0xFF. -/
theorem length_readLine_le {v : Vars} {s : List UInt8} (hlength : v.length ≤ 0xFF)
    (hminus : 0x2D ∉ s) : (v.readLine s).length ≤ 0xFF := by
  rcases length_readLine v s with hsame | ⟨c, text, rest, htext, hscan⟩
  · rwa [hsame]
  · have htaken := List.takeWhile_prefix (l := s) (· ≠ 0)
    have hlt := scanHex_lt (fun hmem => hminus (htaken.subset (htext ▸ .tail _ hmem))) hscan
    rw [UInt32.le_iff_toNat_le]
    exact Nat.le_of_lt_succ hlt

theorem loopsEnd_of_notMem {v : Vars} (hlength : v.length ≤ 0xFF) {ls : List (List UInt8)}
    (hminus : ∀ s ∈ ls, 0x2D ∉ s) : LoopsEnd v ls := by
  induction ls generalizing v with
  | nil => trivial
  | cons s rest ih =>
    rw [List.forall_mem_cons] at hminus
    have hread := length_readLine_le hlength hminus.1
    exact fun _ => ⟨fun _ => hread, ih hread hminus.2⟩

/-- Any file without a minus sign is read to its end. -/
theorem lengthsFit_of_notMem {v : Vars} (hlength : v.length ≤ 0xFF) {file : List UInt8}
    (hminus : 0x2D ∉ file) : LengthsFit v file := by
  apply loopsEnd_of_notMem hlength
  intro s hs hmem
  apply hminus
  have hflatten := flatten_lines (show 2 ≤ 256 by decide) file
  rw [← hflatten]
  exact List.mem_flatten.mpr ⟨s, hs, hmem⟩

/-! ## Files of records -/

theorem loopsEnd_append {v : Vars} {pre : List (List UInt8)} (hpasses : Passes v pre)
    {rest : List (List UInt8)} (hpre : LoopsEnd v pre)
    (hrest : LoopsEnd (run Vars.readLine v pre) rest) : LoopsEnd v (pre ++ rest) := by
  induction pre generalizing v with
  | nil => exact hrest
  | cons s pre ih =>
    obtain ⟨hs, hpre⟩ := hpre hpasses.1
    exact fun _ => ⟨hs, ih hpasses.2 hpre hrest⟩

/-- The length of a record has one byte. -/
theorem lengthFits_parse {line : List UInt8} {r : Record} (hparse : parse line = some r)
    (v : Vars) (tail : List UInt8) : (v.readLine (line ++ tail)).LengthFits := by
  intro _
  have hlen := r.data_length
  rw [readLine_of_header (header_parse hparse tail)]
  show UInt32.ofNat r.data.length ≤ 0xFF
  rw [UInt32.le_iff_toNat_le, UInt32.toNat_ofNat', Nat.mod_eq_of_lt (by omega)]
  exact hlen

theorem lengthsFit_recordFile {records : List Record} {file : List UInt8}
    (hfile : RecordFile records file) (hfits : ∀ r ∈ records, r.data.length ≤ 121) (v : Vars) :
    LengthsFit v file := by
  induction hfile generalizing v with
  | @record r line eol records file hparse htype heol hrest ih =>
    have hpasses := passes_record hparse htype heol v
    rw [List.forall_mem_cons] at hfits
    rw [LengthsFit, lines_append (by decide) (heol.wholeLines line)]
    refine loopsEnd_append hpasses ?_ (ih hfits.2 _)
    rw [lines_record hparse heol hfits.1]
    exact fun _ => ⟨lengthFits_parse hparse v eol, trivial⟩
  | @last r line tail hparse htype =>
    rw [LengthsFit, lines_parse hparse]
    exact fun hend => absurd (type_firstPart hparse htype tail v) hend

/-- A `.hex` file is read to its end, whatever the stack held. -/
theorem lengthsFit_hexFile {records : List Record} {file : List UInt8}
    (hfile : HexFile records file) (v : Vars) : LengthsFit v file := by
  obtain ⟨hrecords, hfits⟩ := recordFile_of_hexFile hfile
  exact lengthsFit_recordFile hrecords hfits v

end Software
end AvrProgrammer
