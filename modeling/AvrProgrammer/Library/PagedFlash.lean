import Mathlib.Logic.Function.Basic
import Mathlib.Data.List.Nodup
import Mathlib.Data.Nat.Basic

/-!
# Flash memory programmed through a page buffer

A flash word can be erased, which sets all its bits, and programmed, which can only clear
bits: the new word is the AND of the old one and the data. A device with page buffer loads
words into the buffer first and then programs a whole page at once.

`commit_loaded_word` is the fact single-word programming rests on: if the buffer is erased
except for one word, committing the page programs that word and keeps every other word of the
flash. `programAll_of_mem` and `programAll_of_notMem` read back a list of words programmed at
distinct addresses.

Addresses may also repeat: `bit_programAll` says that a bit of a word is then set if it was set
before and every word programmed there has it set. Neither the order of the words nor a
repetition matters.
-/

namespace AvrProgrammer
namespace PagedFlash

/-- Words of a flash memory: programming takes the AND, and the erased word is neutral. -/
class FlashWord (W : Type*) extends AndOp W where
  erased : W
  erased_and : ∀ w : W, erased &&& w = w
  and_erased : ∀ w : W, w &&& erased = w

export FlashWord (erased)

variable {W : Type*} [FlashWord W]

/-- A memory of words; the addresses beyond the device are never used. -/
abbrev Memory (W : Type*) := ℕ → W

/-- The erased memory, or the erased page buffer. -/
def erase : Memory W := fun _ => erased

@[simp] theorem erase_apply (a : ℕ) : (erase : Memory W) a = erased := rfl

/-- Program one word. -/
def program (m : Memory W) (a : ℕ) (w : W) : Memory W := Function.update m a (m a &&& w)

@[simp] theorem program_same (m : Memory W) (a : ℕ) (w : W) : program m a w a = (m a &&& w) :=
  Function.update_self ..

theorem program_of_ne (m : Memory W) {a b : ℕ} (w : W) (h : b ≠ a) : program m a w b = m b :=
  Function.update_of_ne h ..

/-- Program page number `page` from the page buffer, in pages of `pageWords` words. -/
def commit (pageWords : ℕ) (m buffer : Memory W) (page : ℕ) : Memory W := fun a =>
  if a / pageWords = page then m a &&& buffer (a % pageWords) else m a

/-- Addresses that agree in page number and offset are equal. -/
theorem eq_of_page_offset {a b pageWords : ℕ} (hpage : a / pageWords = b / pageWords)
    (hoffset : a % pageWords = b % pageWords) : a = b := by
  rw [← Nat.div_add_mod a pageWords, hpage, hoffset, Nat.div_add_mod]

/-- Committing a page whose buffer holds one loaded word programs exactly that word. -/
theorem commit_loaded_word (pageWords : ℕ) (m : Memory W) (a : ℕ) (w : W) :
    commit pageWords m (Function.update erase (a % pageWords) w) (a / pageWords)
      = program m a w := by
  funext b
  unfold commit
  by_cases hb : b = a
  · subst hb
    rw [if_pos rfl, Function.update_self, program_same]
  rw [program_of_ne m w hb]
  by_cases hpage : b / pageWords = a / pageWords
  · have hoffset : b % pageWords ≠ a % pageWords := fun h => hb (eq_of_page_offset hpage h)
    rw [if_pos hpage, Function.update_of_ne hoffset, erase_apply, FlashWord.and_erased]
  · rw [if_neg hpage]

/-! ## Lists of words -/

/-- Program the words of a list, first to last. -/
def programAll (m : Memory W) (l : List (ℕ × W)) : Memory W :=
  l.foldl (fun m x => program m x.1 x.2) m

@[simp] theorem programAll_nil (m : Memory W) : programAll m [] = m := rfl

@[simp] theorem programAll_cons (m : Memory W) (x : ℕ × W) (l : List (ℕ × W)) :
    programAll m (x :: l) = programAll (program m x.1 x.2) l := rfl

/-- A word whose address is not in the list is kept. -/
theorem programAll_of_notMem {l : List (ℕ × W)} {a : ℕ} (h : a ∉ l.map Prod.fst)
    (m : Memory W) : programAll m l a = m a := by
  induction l generalizing m with
  | nil => rfl
  | cons x l ih =>
    rw [List.map_cons, List.mem_cons, not_or] at h
    rw [programAll_cons, ih h.2, program_of_ne m x.2 h.1]

/-- With distinct addresses, every word of the list is programmed once. -/
theorem programAll_of_mem {l : List (ℕ × W)} (hnodup : (l.map Prod.fst).Nodup) {a : ℕ} {w : W}
    (h : (a, w) ∈ l) (m : Memory W) : programAll m l a = (m a &&& w) := by
  induction l generalizing m with
  | nil => cases h
  | cons x l ih =>
    rw [List.map_cons, List.nodup_cons] at hnodup
    rw [programAll_cons]
    rcases List.mem_cons.mp h with rfl | h
    · rw [programAll_of_notMem hnodup.1, program_same]
    · have hne : a ≠ x.1 := fun hax => hnodup.1 (hax ▸ List.mem_map_of_mem h)
      rw [ih hnodup.2 h, program_of_ne m x.2 hne]

/-- A bit after the words of a list have been programmed. It is a predicate on words that an AND
satisfies if both words do. -/
theorem bit_programAll {Q : W → Prop} (hbit : ∀ v w : W, Q (v &&& w) ↔ Q v ∧ Q w) (m : Memory W)
    (l : List (ℕ × W)) (a : ℕ) :
    Q (programAll m l a) ↔ Q (m a) ∧ ∀ x ∈ l, x.1 = a → Q x.2 := by
  induction l generalizing m with
  | nil => simp
  | cons x l ih =>
    rw [programAll_cons, ih, List.forall_mem_cons]
    by_cases hx : x.1 = a
    · rw [← hx, program_same, hbit, and_assoc]
      simp
    · rw [program_of_ne m x.2 (Ne.symm hx)]
      simp [hx]

end PagedFlash
end AvrProgrammer
