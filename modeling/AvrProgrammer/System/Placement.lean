import AvrProgrammer.System.Write
import AvrProgrammer.Software.Checksum

/-!
# Where the bytes of a record go

`flash_write` sends whole words. A record with an odd number of bytes ends in the middle of a
word, and the other half of that word is taken from the characters that follow, which are the
checksum; a record at an odd address starts in the middle of a word, and its bytes go to the
addresses one below their own.

`record_exact_iff` says for which records every byte lands at its own address in erased flash
and nothing else is written.
-/

namespace AvrProgrammer
namespace System

open PagedFlash Stdio IntelHex Runs Firmware Software

/-! ## The words sent for a record -/

/-- The bytes of a record from the data on: data and checksum. -/
def tailBytes (r : Record) : List UInt8 := r.data ++ [r.checksum]

/-- The words sent for a record, with their addresses. -/
def sentWords (r : Record) : List (ℕ × Word) :=
  (List.range ((r.data.length + 1) / 2)).map fun k =>
    (r.address / 2 + k, ⟨(tailBytes r).getD (2 * k) 0, (tailBytes r).getD (2 * k + 1) 0⟩)

theorem mem_sentWords {r : Record} {x : ℕ × Word} :
    x ∈ sentWords r ↔ ∃ k < (r.data.length + 1) / 2,
      x = (r.address / 2 + k,
        ⟨(tailBytes r).getD (2 * k) 0, (tailBytes r).getD (2 * k + 1) 0⟩) := by
  simp only [sentWords, List.mem_map, List.mem_range, eq_comm]

theorem sentWords_lt {r : Record} {x : ℕ × Word} (hx : x ∈ sentWords r) : x.1 < 2 ^ 16 := by
  obtain ⟨k, hk, rfl⟩ := mem_sentWords.mp hx
  have haddr := r.address_lt
  have hlen := r.data_length
  show r.address / 2 + k < 2 ^ 16
  omega

theorem nodup_sentWords (r : Record) : ((sentWords r).map Prod.fst).Nodup := by
  rw [sentWords, List.map_map]
  exact List.nodup_range.map fun k k' h => Nat.add_left_cancel h

theorem linePackets_sentWords {line : List UInt8} {r : Record} (hparse : parse line = some r)
    (htype : r.type = 0x00) (v : Vars) (tail : List UInt8) :
    linePackets (v.readLine (line ++ tail)) = (sentWords r).map wordPacket := by
  rw [linePackets_record hparse htype, sentWords, List.map_map]
  rfl

/-! ## The flash after the commands -/

/-- The word that a write command programs, with its address. -/
def commandWord (p : Packet) : ℕ × Word := ((carriedAddress p).toNat, ⟨p.getD 3 0, p.getD 4 0⟩)

/-- Erased flash after write commands. -/
def flashAfter (packets : List Packet) : Memory Word := programAll erase (packets.map commandWord)

/-- Every data byte stands at its own address, and every other byte is erased. -/
structure ByteExact (r : Record) (packets : List Packet) : Prop where
  placed : ∀ k (hk : k < r.data.length),
    flashByte (flashAfter packets) (r.address + k) = r.data[k]
  others : ∀ b, b < r.address ∨ r.address + r.data.length ≤ b →
    flashByte (flashAfter packets) b = 0xFF

theorem flashAfter_words {l : List (ℕ × Word)} (hl : ∀ x ∈ l, x.1 < 2 ^ 16) :
    flashAfter (l.map wordPacket) = programAll erase l := by
  have hword : ∀ x ∈ l, commandWord (wordPacket x) = x := by
    intro x hx
    have hcarried : carriedAddress (wordPacket x) = UInt16.ofNat x.1 := address_bytes _
    rw [commandWord, hcarried, UInt16.toNat_ofNat', Nat.mod_eq_of_lt (hl x hx)]
    rfl
  have hmap : l.map (commandWord ∘ wordPacket) = l :=
    (List.map_congr_left hword).trans (List.map_id' l)
  rw [flashAfter, List.map_map, hmap]

/-- A target that holds the record executes the commands so. -/
theorem foldl_effect_sentWords {chip : Chip} {r : Record}
    (hinside : r.address + r.data.length ≤ 2 * chip.flashWords) :
    ((sentWords r).map wordPacket).foldl (effect chip) erase
      = flashAfter ((sentWords r).map wordPacket) := by
  rw [flashAfter_words fun x => sentWords_lt, foldl_wordPackets]
  intro x hx
  refine ⟨?_, sentWords_lt hx⟩
  obtain ⟨k, hk, rfl⟩ := mem_sentWords.mp hx
  show r.address / 2 + k < chip.flashWords
  omega

/-- The bytes from the beginning of the first word on: data, and the checksum if the number of
data bytes is odd. -/
theorem flashByte_sentWords (r : Record) (b : ℕ) :
    flashByte (programAll erase (sentWords r)) b =
      if 2 * (r.address / 2) ≤ b ∧ b < 2 * (r.address / 2) + 2 * ((r.data.length + 1) / 2) then
        (tailBytes r).getD (b - 2 * (r.address / 2)) 0
      else 0xFF := by
  split_ifs with hb
  · obtain ⟨k, hk⟩ : ∃ k, b / 2 = r.address / 2 + k := ⟨b / 2 - r.address / 2, by omega⟩
    have hmem : (b / 2, (⟨(tailBytes r).getD (2 * k) 0, (tailBytes r).getD (2 * k + 1) 0⟩ : Word))
        ∈ sentWords r := mem_sentWords.mpr ⟨k, by omega, by rw [hk]⟩
    have hread := programAll_of_mem (nodup_sentWords r) hmem erase
    rw [erase_apply, FlashWord.erased_and] at hread
    rw [flashByte, hread]
    split_ifs
    · rw [show b - 2 * (r.address / 2) = 2 * k by omega]
    · rw [show b - 2 * (r.address / 2) = 2 * k + 1 by omega]
  · have hword : b / 2 ∉ (sentWords r).map Prod.fst := by
      intro hmem
      obtain ⟨x, hx, heq⟩ := List.mem_map.mp hmem
      obtain ⟨k, hk, rfl⟩ := mem_sentWords.mp hx
      simp only at heq
      omega
    rw [flashByte, programAll_of_notMem hword, erase_apply]
    split_ifs <;> rfl

/-! ## Exact records -/

section
variable {r : Record}

theorem tailBytes_data {k : ℕ} (hk : k < r.data.length) : (tailBytes r).getD k 0 = r.data[k] := by
  rw [tailBytes, List.getD_append _ _ _ _ hk, List.getD_eq_getElem _ _ hk]

theorem tailBytes_checksum : (tailBytes r).getD r.data.length 0 = r.checksum := by
  rw [tailBytes, List.getD_append_right _ _ _ _ (Nat.le_refl _), Nat.sub_self]
  rfl

/-- Exactly placed: the record ends with a word or its checksum is 0xFF, and it starts with a
word or all its bytes are 0xFF. -/
def Aligned (r : Record) : Prop :=
  (r.data.length % 2 = 0 ∨ r.checksum = 0xFF) ∧ (r.address % 2 = 0 ∨ ∀ d ∈ r.data, d = 0xFF)

/-- The bytes of the flash once the words of a record are sent. -/
theorem flashByte_record (r : Record) (b : ℕ) :
    flashByte (flashAfter ((sentWords r).map wordPacket)) b =
      if 2 * (r.address / 2) ≤ b ∧ b < 2 * (r.address / 2) + 2 * ((r.data.length + 1) / 2) then
        (tailBytes r).getD (b - 2 * (r.address / 2)) 0
      else 0xFF := by
  rw [flashAfter_words fun x => sentWords_lt, flashByte_sentWords]

/-- An aligned record is placed exactly. -/
theorem byteExact_of_aligned (hr : Aligned r) : ByteExact r ((sentWords r).map wordPacket) := by
  obtain ⟨hend, hstart⟩ := hr
  -- what is sent after the data is 0xFF
  have hlast : ∀ k, r.data.length ≤ k → k < 2 * ((r.data.length + 1) / 2) →
      (tailBytes r).getD k 0 = 0xFF := by
    intro k hle hlt
    have hk : k = r.data.length := by omega
    rw [hk, tailBytes_checksum]
    exact hend.resolve_left (by omega)
  rcases hstart with heven | hdata
  · have hbase : 2 * (r.address / 2) = r.address := by omega
    constructor
    · intro k hk
      rw [flashByte_record, hbase, if_pos (by omega), Nat.add_sub_cancel_left, tailBytes_data hk]
    · intro b hb
      rw [flashByte_record, hbase]
      split_ifs with hsent
      · exact hlast _ (by omega) (by omega)
      · rfl
  · have herased : ∀ b, flashByte (flashAfter ((sentWords r).map wordPacket)) b = 0xFF := by
      intro b
      rw [flashByte_record]
      split_ifs with hsent
      · by_cases hk : b - 2 * (r.address / 2) < r.data.length
        · rw [tailBytes_data hk, hdata _ (List.getElem_mem hk)]
        · exact hlast _ (by omega) (by omega)
      · rfl
    refine ⟨fun k hk => ?_, fun b _ => herased b⟩
    rw [herased, hdata _ (List.getElem_mem hk)]

/-- At an odd address the data move down by one, so that each byte is the one before it. -/
theorem eq_of_byteExact_of_odd (hexact : ByteExact r ((sentWords r).map wordPacket))
    (hodd : r.address % 2 = 1) {k : ℕ} (hk : k < r.data.length) : r.data[k] = 0xFF := by
  have hbyte : ∀ k (hk : k < r.data.length),
      flashByte (flashAfter ((sentWords r).map wordPacket)) (2 * (r.address / 2) + k)
        = r.data[k] := by
    intro k hk
    rw [flashByte_record, if_pos (by omega), Nat.add_sub_cancel_left, tailBytes_data hk]
  induction k with
  | zero =>
    rw [← hbyte 0 hk]
    exact hexact.others _ (by omega)
  | succ k ih =>
    have hprev := hexact.placed k (by omega)
    rw [show r.address + k = 2 * (r.address / 2) + (k + 1) by omega, hbyte _ hk] at hprev
    rw [hprev]
    exact ih (by omega)

/-- Only aligned records are placed exactly. -/
theorem aligned_of_byteExact (hexact : ByteExact r ((sentWords r).map wordPacket)) :
    Aligned r := by
  have hdata : r.address % 2 = 0 ∨ ∀ d ∈ r.data, d = 0xFF := by
    rcases Nat.mod_two_eq_zero_or_one r.address with heven | hodd
    · exact .inl heven
    · right
      intro d hd
      obtain ⟨k, hk, rfl⟩ := List.getElem_of_mem hd
      exact eq_of_byteExact_of_odd hexact hodd hk
  refine ⟨?_, hdata⟩
  by_contra hend
  rw [not_or] at hend
  -- the checksum is the other half of the last word
  have hchecksum : flashByte (flashAfter ((sentWords r).map wordPacket))
      (2 * (r.address / 2) + r.data.length) = r.checksum := by
    rw [flashByte_record, if_pos (by omega), Nat.add_sub_cancel_left, tailBytes_checksum]
  apply hend.2
  rw [← hchecksum]
  rcases Nat.mod_two_eq_zero_or_one r.address with heven | hodd
  · exact hexact.others _ (by omega)
  · rw [show 2 * (r.address / 2) + r.data.length = r.address + (r.data.length - 1) by omega,
      hexact.placed _ (by omega)]
    exact eq_of_byteExact_of_odd hexact hodd (by omega)

end

/-! ## Main result -/

/-- A line of a file that starts with a data record and fits in the buffer. -/
theorem writePackets_record {r : Record} {line tail eol : List UInt8}
    (hparse : parse line = some r) (htype : r.type = 0x00) (htail : newline ∉ tail)
    (heol : eol = [newline] ∨ eol = []) (hfits : (line ++ tail ++ eol).length ≤ 255) (v : Vars) :
    Passes v (lines 256 (line ++ tail ++ eol)) ∧
      writePackets v (line ++ tail ++ eol) = (sentWords r).map wordPacket := by
  have hnewline : newline ∉ line ++ tail := by
    rw [List.mem_append, not_or]
    exact ⟨notMem_of_parse hparse (by decide) (by decide), htail⟩
  have hlen := parse_length hparse
  rw [List.length_append] at hfits
  have hlines : lines 256 (line ++ tail ++ eol) = [line ++ (tail ++ eol)] := by
    rw [← List.append_assoc]
    rcases heol with rfl | rfl
    · exact lines_line (by decide) hnewline (Nat.lt_succ_of_le hfits) []
    · rw [List.append_nil]
      refine lines_last (by decide) hnewline (fun hempty => ?_) (Nat.lt_succ_of_le hfits)
      rw [(List.append_eq_nil_iff.mp hempty).1, List.length_nil] at hlen
      omega
  have hend : (v.readLine (line ++ (tail ++ eol))).type ≠ 0x01 := by
    rw [type_of_header (header_parse hparse _)]
    intro hone
    rw [(type_eq_iff _).2.mp hone] at htype
    exact absurd htype (by decide)
  rw [writePackets, hlines]
  refine ⟨⟨hend, trivial⟩, ?_⟩
  rw [writeLoop, if_neg hend, writeLoop, List.append_nil, linePackets_sentWords hparse htype]

/-- Which records land in erased flash byte by byte, exactly. The record stands on a line of a
file, followed by `tail` up to the end of the line, which fits in the buffer; the last line of the
file may have no newline. -/
theorem record_exact_iff {r : Record} {line tail eol before after : List UInt8}
    (hparse : parse line = some r) (htype : r.type = 0x00) (htail : newline ∉ tail)
    (hend : eol = [newline] ∨ eol = [] ∧ after = []) (hfits : (line ++ tail ++ eol).length ≤ 255)
    (hbefore : WholeLines before) {v : Vars} (hpasses : Passes v (lines 256 before)) :
    writePackets v (before ++ (line ++ tail ++ eol ++ after)) =
        writePackets v before ++ (sentAfter v before (line ++ tail ++ eol) ++
          sentAfter v (before ++ (line ++ tail ++ eol)) after) ∧
      (ByteExact r (sentAfter v before (line ++ tail ++ eol)) ↔
        (r.data.length % 2 = 0 ∨ r.checksum = 0xFF) ∧
          (r.address % 2 = 0 ∨ ∀ d ∈ r.data, d = 0xFF)) := by
  obtain ⟨hline, hsent⟩ := writePackets_record hparse htype htail (hend.imp_right And.left) hfits
    (run Vars.readLine v (lines 256 before))
  constructor
  · rw [writePackets_append hbefore _ hpasses]
    congr 1
    rcases hend with rfl | ⟨rfl, rfl⟩
    · have hwhole : WholeLines (line ++ tail ++ [newline]) := .inr (by simp)
      rw [writePackets_append hwhole _ hline, sentAfter, sentAfter,
        lines_append (by decide) hbefore, run_append]
    · -- nothing follows
      rw [List.append_nil]
      exact (List.append_nil _).symm
  · rw [sentAfter, hsent]
    exact ⟨aligned_of_byteExact, byteExact_of_aligned⟩

/-- The words of `:02000000AABB99` go to their bytes, after another line and with a carriage
return. -/
theorem record_exact_dataLine :
    ByteExact (wordRecord 0xAA 0xBB)
      (sentAfter zeroStack (dataLine ++ [newline])
        (dataLine ++ [carriageReturn] ++ [newline])) := by
  have hexact := @record_exact_iff (wordRecord 0xAA 0xBB) dataLine [carriageReturn]
    [newline] (dataLine ++ [newline]) [] rfl rfl (by decide) (.inl rfl) (by decide) (.inr rfl)
    zeroStack ⟨by decide +kernel, trivial⟩
  exact hexact.2.mpr (by decide)

/-- The line `:01000000AA55`: its checksum 55 is written behind its byte. -/
theorem odd_record_writes_checksum :
    parse [0x3A, 0x30, 0x31, 0x30, 0x30, 0x30, 0x30, 0x30, 0x30, 0x41, 0x41, 0x35, 0x35]
        = some ⟨0x00, 0x00, 0x00, [0xAA], by decide⟩ ∧
      ¬ ByteExact ⟨0x00, 0x00, 0x00, [0xAA], by decide⟩ (writePackets zeroStack
        [0x3A, 0x30, 0x31, 0x30, 0x30, 0x30, 0x30, 0x30, 0x30, 0x41, 0x41, 0x35, 0x35, 0x0A]) := by
  refine ⟨rfl, fun hexact => ?_⟩
  have hbyte := hexact.others 1 (.inr (by decide))
  exact absurd hbyte (by decide +kernel)

end System
end AvrProgrammer
