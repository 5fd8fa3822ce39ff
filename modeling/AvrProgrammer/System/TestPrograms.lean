import AvrProgrammer.System.RoundTrip
import AvrProgrammer.Software.FonctionsTest

/-!
# The test programs with the device

`flash_read.c` and `flash_rw.c` have scripts too: the frame `withDevice` goes through the script
of its body and closes the device. `flash_rw.c` is the test of the whole
chain. What it prints is known beforehand, whatever the flash held: the five words it has
written, then erased words.
-/

namespace AvrProgrammer
namespace System

open PagedFlash Runs Firmware Software
open Software.WithDevice (afterBody)

variable {chip : Chip}

/-! ## The frame -/

section
variable {β : Type} {body : Program β} {start : β} {after : List Call} {s s' : β} {v v' : Server}
  {k : ℕ} {out : List Message}

/-- The calls at the end. -/
theorem cleanUp_script {calls : List Call} (hcalls : ∀ call ∈ calls, IsControl call) (code : ℤ) :
    Script chip (withDevice body start after) (.cleanUp [] code) v calls.length
      (.cleanUp calls code) v [] := by
  induction calls with
  | nil => exact .done
  | cons call calls ih =>
    have hrest := ih fun c hc => hcalls c (.tail _ hc)
    exact .control call rfl (hcalls call List.mem_cons_self) hrest

/-- A script of the body is one of the program. -/
theorem withDevice_script (hafter : ∀ call ∈ after, IsControl call) (hend : body.call s' = none)
    (h : Script chip body s' v' k s v out) :
    Script chip (withDevice body start after) (.cleanUp [] 0) v' (after.length + k)
      (afterBody body after s) v out := by
  have hrunning : ∀ s call, body.call s = some call → afterBody body after s = .body s := by
    intro s call hcall
    rw [afterBody, hcall]
  have hembedded := h.embed (Q := withDevice body start after) (afterBody body after)
    (fun s call hcall => by rw [hrunning s call hcall]; exact hcall)
    (fun s call hcall result => by rw [hrunning s call hcall]; rfl)
  have hreturned : afterBody body after s' = .cleanUp after 0 := by rw [afterBody, hend]
  rw [hreturned] at hembedded
  have hall := hembedded.trans (cleanUp_script hafter 0)
  rwa [List.append_nil] at hall

end

/-! ## `flash_rw.c` -/

/-- The words `flash_rw.c` writes, with their addresses. -/
def fakeWords : List (ℕ × Word) :=
  (List.range 5).map fun i =>
    (i, ⟨lowByte (FlashRw.fakeData (.ofNat i)), highByte (FlashRw.fakeData (.ofNat i))⟩)

/-- The flash after `flash_rw.c`. -/
def fakeFlash : Memory Word := programAll erase fakeWords

/-- Block number `i` of that flash: `0xA000`, `0xA001` and so on up to `0xA004`. -/
def fakeBlock (i : ℕ) : Message :=
  .block (.ofNat (4 * i)) ([0, 1, 2, 3].map fun j =>
    if 4 * i + j < 5 then 0xA000 + .ofNat (4 * i + j) else 0xFFFF)

theorem fakeFlash_apply (a : ℕ) :
    address (fakeFlash a).hi (fakeFlash a).lo
      = if a < 5 then 0xA000 + UInt16.ofNat a else 0xFFFF := by
  have haddresses : fakeWords.map Prod.fst = List.range 5 := rfl
  split_ifs with ha
  · have hmem : (a, (⟨lowByte (FlashRw.fakeData (.ofNat a)),
        highByte (FlashRw.fakeData (.ofNat a))⟩ : Word)) ∈ fakeWords :=
      List.mem_map.mpr ⟨a, List.mem_range.mpr ha, rfl⟩
    have hword := programAll_of_mem (by rw [haddresses]; exact List.nodup_range) hmem erase
    rw [erase_apply, FlashWord.erased_and] at hword
    rw [fakeFlash, hword]
    exact address_bytes _
  · have hnot : a ∉ fakeWords.map Prod.fst := by
      rw [haddresses, List.mem_range]
      exact ha
    rw [fakeFlash, programAll_of_notMem hnot]
    show address 0xFF 0xFF = 0xFFFF
    decide

/-- The blocks of the flash, if the target has the words that are read. -/
theorem blocks_fakeFlash (hwords : 32 ≤ chip.flashWords) :
    blocks chip fakeFlash 64 = (List.range 8).map fakeBlock := by
  have hcount : (64 : UInt32).toNat / 8 = 8 := rfl
  have hindex : ∀ i < 8, ∀ j : ℕ, j < 4 →
      chip.index (UInt16.ofNat (4 * i) + UInt16.ofNat j) = 4 * i + j := by
    intro i hi j hj
    have haddr : (UInt16.ofNat (4 * i) + UInt16.ofNat j).toNat = 4 * i + j := by
      rw [← UInt16.ofNat_add, UInt16.toNat_ofNat']
      omega
    rw [Chip.index_of_lt (by omega), haddr]
  rw [blocks, hcount]
  apply List.map_congr_left
  intro i hi
  rw [List.mem_range] at hi
  -- the offsets are 16-bit values in the one list and numbers in the other
  show Message.block (.ofNat (4 * i)) ([0, 1, 2, 3].map fun j : ℕ =>
    address (fakeFlash (chip.index (UInt16.ofNat (4 * i) + UInt16.ofNat j))).hi
      (fakeFlash (chip.index (UInt16.ofNat (4 * i) + UInt16.ofNat j))).lo) = fakeBlock i
  rw [fakeBlock, List.map_congr_left]
  intro j hj
  have hj4 : j < 4 := by
    simp only [List.mem_cons, List.not_mem_nil, or_false] at hj
    omega
  rw [hindex i hi j hj4, fakeFlash_apply]

/-- The writes from the word `i` on. -/
theorem flashRw_script_writes {i j : ℕ} (hij : i + j = 5) (flash : Memory Word) :
    Script chip flashRw (.read (FlashRead.loop 64 0))
      ⟨((fakeWords.drop i).map wordPacket).foldl (effect chip) flash, none⟩ j
      (FlashRw.loop (.ofNat i)) ⟨flash, none⟩ [] := by
  induction j generalizing i flash with
  | zero =>
    obtain rfl : i = 5 := hij
    exact .done
  | succ j ih =>
    have hi : i < fakeWords.length := show i < 5 by omega
    have haddr : (UInt16.ofNat i).toNat = i := by
      rw [UInt16.toNat_ofNat']
      omega
    have hloop : FlashRw.loop (.ofNat i) = .write (.ofNat i) := by
      rw [FlashRw.loop, if_pos]
      rw [UInt16.lt_iff_toNat_lt, haddr]
      exact hi
    have hpacket : FlashRw.dataWrite (.ofNat i) = wordPacket fakeWords[i] := by
      simp only [fakeWords, List.getElem_map, List.getElem_range]
      rfl
    have hother : ¬ IsRequest (FlashRw.dataWrite (.ofNat i)) := by
      simp [IsRequest, FlashRw.dataWrite]
    have hrest := ih (i := i + 1) (by omega) (effect chip flash (FlashRw.dataWrite (.ofNat i)))
    rw [UInt16.ofNat_add, ← Server.accept_other flash hother] at hrest
    rw [List.drop_eq_getElem_cons hi, List.map_cons, List.foldl_cons, ← hpacket, hloop]
    exact .send (FlashRw.dataWrite (.ofNat i)) rfl rfl (by simp [WellSized, FlashRw.dataWrite]) hrest

/-- The script of `flash_rw.c`. -/
theorem flashRw_script (hwords : 32 ≤ chip.flashWords) (flash : Memory Word) :
    ∃ k, Script chip flashRw (.read .returned) ⟨fakeFlash, none⟩ k .erase ⟨flash, none⟩
      ((List.range 8).map fakeBlock) := by
  have hsize : WholeBlocks 64 := ⟨rfl, by decide⟩
  have hread := @flashRead_script_from chip 64 fakeFlash hsize 0 8 rfl
  rw [List.drop_zero, blocks_fakeFlash hwords] at hread
  have hembedded := hread.embed (P := flashRead 64) (Q := flashRw) FlashRw.State.read
    (fun s call hcall => hcall) (fun s call hcall result => rfl)
  have hwrites := @flashRw_script_writes chip 0 5 rfl erase
  rw [List.drop_zero, foldl_wordPackets] at hwrites
  · have hother : ¬ IsRequest [0x04] := by decide
    have hall := hwrites.trans hembedded
    rw [show (erase : Memory Word) = effect chip flash [0x04] from rfl,
      ← Server.accept_other flash hother] at hall
    exact ⟨_, .send [0x04] rfl rfl (by decide) hall⟩
  · intro x hx
    obtain ⟨i, hi, rfl⟩ := List.mem_map.mp hx
    rw [List.mem_range] at hi
    dsimp only
    omega

/-! ## Main results -/

variable {d : Device chip}

/-- `flash_read` closes the device itself. -/
theorem noCalls : ∀ call ∈ ([] : List Call), IsControl call :=
  fun _ hcall => absurd hcall List.not_mem_nil

/-- `flash_read.c` prints the first 32 words. -/
theorem testFlashRead_prints (hd : Quiet d) :
    ScriptCorrect testFlashRead (.body (FlashRead.loop 64 0)) d (.cleanUp [] 0) (meaning d)
      (blocks chip (meaning d) 64) := by
  have hsize : WholeBlocks 64 := ⟨rfl, by decide⟩
  have hread := @flashRead_script_from chip 64 (meaning d) hsize 0 8 rfl
  rw [List.drop_zero] at hread
  exact script_correct hd (withDevice_script noCalls rfl hread) rfl

/-- **The test of the whole chain.** Whatever a target of at least 32 words held, `flash_rw.c`
prints the five words it has written and erased words after them, and that is what the target
holds in the end. -/
theorem flashRw_prints (hd : Quiet d) (hwords : 32 ≤ chip.flashWords) :
    ScriptCorrect testFlashRw (.body .erase) d (.cleanUp [] 0) fakeFlash
      ((List.range 8).map fakeBlock) := by
  obtain ⟨k, hscript⟩ := flashRw_script hwords (meaning d)
  exact script_correct hd (withDevice_script noCalls rfl hscript) rfl

/-- A device full of zeros. -/
theorem flashRw_prints_zeroed :
    ScriptCorrect testFlashRw (.body .erase) zeroed (.cleanUp [] 0) fakeFlash
      ((List.range 8).map fakeBlock) :=
  flashRw_prints quiet_zeroed (by decide)

end System
end AvrProgrammer
