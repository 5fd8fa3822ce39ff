import AvrProgrammer.Bytes
import AvrProgrammer.Library.PagedFlash
import Mathlib.Data.Fin.VecNotation

/-!
# The target microcontroller

The chip being programmed is not part of the repository; this is the behaviour of its serial
programming interface that the firmware relies on. While the RESET line is low, the target
takes bytes on SPI and groups them into instructions of four bytes. After `AC 53`
(programming enable) it executes

* `20`/`28 hi lo`, which shift out the low or high byte of a flash word in the fourth byte,
* `30 00 n`, which shifts out byte `n` of the signature in the fourth byte,
* `40`/`48 hi lo data`, which load the low or high byte of a word of the page buffer,
* `4C hi lo`, which programs the page of the addressed word from the page buffer,
* `AC 80`, which erases the flash.
-/

namespace AvrProgrammer

open PagedFlash

/-- A flash word: the byte at the even and the byte at the odd byte address. -/
@[ext] structure Word where
  lo : UInt8
  hi : UInt8
deriving DecidableEq, Repr

instance : AndOp Word := ⟨fun v w => ⟨v.lo &&& w.lo, v.hi &&& w.hi⟩⟩

@[simp] theorem Word.lo_and (v w : Word) : (v &&& w).lo = v.lo &&& w.lo := rfl

@[simp] theorem Word.hi_and (v w : Word) : (v &&& w).hi = v.hi &&& w.hi := rfl

instance : FlashWord Word where
  erased := ⟨0xFF, 0xFF⟩
  erased_and w := by ext <;> simp [UInt8.and_comm, and_ones]
  and_erased w := by ext <;> simp [and_ones]

/-- What distinguishes one target from another: the number of words of its flash and of a
page, and its signature. -/
structure Chip where
  flashWords : ℕ
  pageWords : ℕ
  signature : Fin 3 → UInt8

/-- The ATmega328P: 32 KiB of flash in pages of 128 bytes. -/
def atmega328p : Chip := ⟨16384, 64, ![0x1E, 0x95, 0x0F]⟩

/-- The flash word a word address selects; address bits above the flash are not decoded. -/
def Chip.index (chip : Chip) (a : UInt16) : ℕ := a.toNat % chip.flashWords

theorem Chip.index_of_lt {chip : Chip} {a : UInt16} (h : a.toNat < chip.flashWords) :
    chip.index a = a.toNat := Nat.mod_eq_of_lt h

/-- State of the target: level of the RESET line (`true` is high), whether programming is
enabled, the bytes of the instruction being received, the flash and the page buffer. -/
@[ext] structure Target (chip : Chip) where
  line : Bool
  enabled : Bool
  inst : List UInt8
  flash : Memory Word
  buffer : Memory Word

namespace Target

variable {chip : Chip}

/-- The flash word at a word address. -/
def word (t : Target chip) (a : UInt16) : Word := t.flash (chip.index a)

/-- Four flash words from a word address on, as bytes, low byte first; the address wraps at
16 bits. -/
def block (t : Target chip) (a : UInt16) : List UInt8 :=
  [0, 1, 2, 3].flatMap fun i => [(t.word (a + i)).lo, (t.word (a + i)).hi]

/-- The signature as the bytes sent to the host. -/
def signature (_ : Target chip) : List UInt8 :=
  [chip.signature 0, chip.signature 1, chip.signature 2]

/-- The target released from reset after programming, with an erased page buffer. -/
def idle (flash : Memory Word) : Target chip :=
  { line := true, enabled := true, inst := [], flash := flash, buffer := erase }

/-- The RESET line is driven to `level`; a falling edge restarts the serial interface. -/
def drive (t : Target chip) (level : Bool) : Target chip :=
  if t.line && !level then { t with line := false, enabled := false, inst := [] }
  else { t with line := level }

/-- The byte shifted out while the last byte of the instruction `a b c _` is shifted in. -/
def reply (t : Target chip) (a b c : UInt8) : UInt8 :=
  if !t.enabled then c
  else if a = 0x20 then (t.word (address b c)).lo
  else if a = 0x28 then (t.word (address b c)).hi
  else if a = 0x30 then (if h : c.toNat < 3 then chip.signature ⟨c.toNat, h⟩ else 0xFF)
  else c

/-- The effect of the instruction `a b c d`. -/
def execute (t : Target chip) (a b c d : UInt8) : Target chip :=
  let i := chip.index (address b c)
  let offset := i % chip.pageWords
  if a = 0xAC ∧ b = 0x53 then { t with enabled := true }
  else if !t.enabled then t
  else if a = 0xAC ∧ b = 0x80 then { t with flash := erase }
  else if a = 0x40 then
    { t with buffer := Function.update t.buffer offset { t.buffer offset with lo := d } }
  else if a = 0x48 then
    { t with buffer := Function.update t.buffer offset { t.buffer offset with hi := d } }
  else if a = 0x4C then
    { t with flash := commit chip.pageWords t.flash t.buffer (i / chip.pageWords),
             buffer := erase }
  else t

/-- One byte on SPI: the byte the target shifts out and its next state. A target that is not
held in reset does not listen; otherwise the byte before is echoed, except that the fourth
byte of an instruction answers and executes it. -/
def shift (t : Target chip) (d : UInt8) : UInt8 × Target chip :=
  if t.line then (0xFF, t)
  else match t.inst with
    | [a, b, c] => (t.reply a b c, { t.execute a b c d with inst := [] })
    | bytes => (bytes.getLastD 0, { t with inst := bytes ++ [d] })

/-! ## The RESET line -/

theorem drive_line (t : Target chip) (level : Bool) : (t.drive level).line = level := by
  cases level <;> cases h : t.line <;> simp [drive, h]

theorem drive_inst {t : Target chip} (h : t.inst = []) (level : Bool) :
    (t.drive level).inst = [] := by
  unfold drive; split
  · rfl
  · exact h

@[simp] theorem drive_flash (t : Target chip) (level : Bool) :
    (t.drive level).flash = t.flash := by
  unfold drive; split <;> rfl

@[simp] theorem drive_buffer (t : Target chip) (level : Bool) :
    (t.drive level).buffer = t.buffer := by
  unfold drive; split <;> rfl

/-! ## Whole instructions -/

@[simp] theorem execute_line (t : Target chip) (a b c d : UInt8) :
    (t.execute a b c d).line = t.line := by
  unfold execute; dsimp only; split_ifs <;> rfl

@[simp] theorem execute_inst (t : Target chip) (a b c d : UInt8) :
    (t.execute a b c d).inst = t.inst := by
  unfold execute; dsimp only; split_ifs <;> rfl

/-- Four bytes sent to a target in reset that is between two instructions execute one. -/
theorem shift_four {t : Target chip} (hline : t.line = false) (hinst : t.inst = [])
    (a b c d : UInt8) :
    (((t.shift a).2.shift b).2.shift c).2.shift d = (t.reply a b c, t.execute a b c d) := by
  obtain ⟨line, enabled, inst, flash, buffer⟩ := t
  cases hline
  cases hinst
  simp only [shift, List.nil_append, List.cons_append, Bool.false_eq_true, ↓reduceIte,
    Prod.mk.injEq]
  refine ⟨rfl, ?_⟩
  unfold execute
  dsimp only
  split_ifs <;> rfl

/-! ## The instructions the firmware sends

A target in reset with programming enabled, between two instructions, is known by its flash
and its page buffer. -/

/-- The target during programming. -/
def programming (flash buffer : Memory Word) : Target chip :=
  { line := false, enabled := true, inst := [], flash := flash, buffer := buffer }

section
variable (flash buffer : Memory Word)

theorem execute_enable (t : Target chip) (c d : UInt8) :
    t.execute 0xAC 0x53 c d = { t with enabled := true } := by
  simp [execute]

theorem execute_chipErase (c d : UInt8) :
    (programming flash buffer : Target chip).execute 0xAC 0x80 c d
      = programming erase buffer := by
  simp [execute, programming]

/-- The reading instructions change nothing. -/
theorem execute_read (t : Target chip) {a : UInt8} (ha : a = 0x20 ∨ a = 0x28 ∨ a = 0x30)
    (b c d : UInt8) : t.execute a b c d = t := by
  rcases ha with rfl | rfl | rfl <;> simp [execute]

theorem reply_low (a : UInt16) :
    (programming flash buffer : Target chip).reply 0x20 (highByte a) (lowByte a)
      = (flash (chip.index a)).lo := by
  simp [reply, programming, word]

theorem reply_high (a : UInt16) :
    (programming flash buffer : Target chip).reply 0x28 (highByte a) (lowByte a)
      = (flash (chip.index a)).hi := by
  simp [reply, programming, word]

theorem reply_signature (b : UInt8) (n : Fin 3) :
    (programming flash buffer : Target chip).reply 0x30 b (UInt8.ofNat n)
      = chip.signature n := by
  have hn : (UInt8.ofNat n).toNat = n := by
    rw [UInt8.toNat_ofNat']; omega
  simp [reply, programming, hn]

/-- Loading the low byte of a word into an erased page buffer. -/
theorem execute_loadLow (a : UInt16) (lo : UInt8) :
    (programming flash erase : Target chip).execute 0x40 (highByte a) (lowByte a) lo
      = programming flash
        (Function.update erase (chip.index a % chip.pageWords) ⟨lo, 0xFF⟩) := by
  simp [execute, programming]
  rfl

/-- Loading the high byte after the low byte of the same word. -/
theorem execute_loadHigh (a : UInt16) (lo hi : UInt8) :
    (programming flash (Function.update erase (chip.index a % chip.pageWords) ⟨lo, 0xFF⟩)
      : Target chip).execute 0x48 (highByte a) (lowByte a) hi
      = programming flash
        (Function.update erase (chip.index a % chip.pageWords) ⟨lo, hi⟩) := by
  simp [execute, programming]

/-- Writing the page whose buffer holds one loaded word programs that word only and leaves
the buffer erased. -/
theorem execute_writePage (a : UInt16) (w : Word) (d : UInt8) :
    (programming flash (Function.update erase (chip.index a % chip.pageWords) w)
      : Target chip).execute 0x4C (highByte a) (lowByte a) d
      = programming (program flash (chip.index a) w) erase := by
  simp [execute, programming, commit_loaded_word]

end

end Target
end AvrProgrammer
