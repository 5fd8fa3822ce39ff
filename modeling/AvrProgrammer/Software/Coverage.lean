import AvrProgrammer.Software.Main
import Mathlib.Tactic.NormNum

/-!
# The addresses `flash_read` asks for

The loop of `flash_read` compares a counter of 16 bits, which goes up by 4, with half of a size
of 32 bits. `flashRead_covers_iff` says for which sizes the loop ends and has asked for every
word once, whatever the transfers return: those whose last request leaves room for one more
step of the counter.
-/

namespace AvrProgrammer
namespace Software

open Runs
open FlashRead (State loop)

/-- `flash_read` after the first `n` results. -/
def readTo (size : UInt32) (results : ℕ → Result) (n : ℕ) : Host State :=
  runTo (flashRead size).step (Program.start (loop size 0)) results n

/-- Every inner loop that is entered ends. -/
def DiscardsEnd (size : UInt32) (results : ℕ → Result) : Prop :=
  ∀ n addr, (readTo size results n).state = .receive addr → ∃ k, ¬ Discarded (results (n + k))

/-- The addresses requested, in order. -/
def requested (calls : List (Call × Result)) : List ℕ :=
  (transfers calls).map fun x => (carriedAddress x.1).toNat

/-- The number of requests for a flash of `size` bytes, four words each. -/
def requestCount (size : UInt32) : ℕ := (size.toNat / 2 + 3) / 4

/-- The requests cover the flash: 0, 4, 8 and so on, each word in one of them, and the counter
has room for the step after each. -/
structure Covers (size : UInt32) (calls : List (Call × Result)) : Prop where
  addresses : requested calls = (List.range (requestCount size)).map (4 * ·)
  increasing : (requested calls).Pairwise (· < ·)
  once : ∀ w < size.toNat / 2, ∃! a, a ∈ requested calls ∧ a ≤ w ∧ w < a + 4
  noWrap : ∀ a ∈ requested calls, a + 4 < 2 ^ 16

/-! ## One step of the loop -/

section
variable (size : UInt32) {h : Host State} {addr : UInt16} {result : Result}

theorem requested_concat (calls : List (Call × Result)) (addr : UInt16) (result : Result) :
    requested (calls ++ [(.transferOut [0x02, highByte addr, lowByte addr], result)])
      = requested calls ++ [addr.toNat] := by
  have hcarried : carriedAddress [0x02, highByte addr, lowByte addr] = addr := address_bytes addr
  simp [requested, transfers, hcarried]

theorem requested_concat_in (calls : List (Call × Result)) (n : ℕ) (result : Result) :
    requested (calls ++ [(.transferIn n, result)]) = requested calls := by
  simp [requested, transfers]

/-- A request is sent or fails. -/
theorem step_from_request (hstate : h.state = .request addr) (result : Result) :
    ((flashRead size).step h result).state
        = (if result.r ≠ 0 then loop size (addr + 4) else .receive addr) ∧
      requested ((flashRead size).step h result).calls = requested h.calls ++ [addr.toNat] := by
  have hcall : (flashRead size).call h.state
      = some (.transferOut [0x02, highByte addr, lowByte addr]) := by
    rw [hstate]
    rfl
  rw [Program.step_of_call _ hcall, hstate]
  refine ⟨?_, requested_concat h.calls addr result⟩
  dsimp only [flashRead]
  split_ifs <;> rfl

/-- A packet of buttons is discarded, any other result ends the turn. -/
theorem step_from_receive (hstate : h.state = .receive addr) (result : Result) :
    ((flashRead size).step h result).state
        = (if Discarded result then .receive addr else loop size (addr + 4)) ∧
      requested ((flashRead size).step h result).calls = requested h.calls := by
  have hcall : (flashRead size).call h.state = some (.transferIn 8) := by
    rw [hstate]
    rfl
  rw [Program.step_of_call _ hcall, hstate]
  refine ⟨?_, requested_concat_in h.calls 8 result⟩
  show ((flashRead size).resume (.receive addr) result).1 = _
  by_cases hbutton : Discarded result
  · rw [if_pos hbutton]
    exact congrArg Prod.fst (if_pos hbutton)
  · rw [if_neg hbutton]
    by_cases h8 : result.r = 0 ∧ result.data.length = 8
    · exact congrArg Prod.fst ((if_neg hbutton).trans (if_pos h8))
    · rw [flashRead_error size addr hbutton h8]

end

/-! ## Sizes that are covered -/

section
variable {size : UInt32} {results : ℕ → Result} {n i : ℕ}

/-- The head of the loop, for a counter that has not wrapped. -/
theorem loop_eq_of_lt (hi : 4 * i < 2 ^ 16) :
    loop size (UInt16.ofNat (4 * i)) =
      if i < requestCount size then .request (UInt16.ofNat (4 * i)) else .release := by
  have haddr : (UInt16.ofNat (4 * i)).toUInt32 < size / 2 ↔ i < requestCount size := by
    rw [UInt32.lt_iff_toNat_lt, requestCount]
    simp only [UInt16.toNat_toUInt32, UInt16.toNat_ofNat', UInt32.toNat_div, UInt32.reduceToNat]
    omega
  simp only [loop, haddr]

theorem counter_succ (i : ℕ) : UInt16.ofNat (4 * i) + 4 = UInt16.ofNat (4 * (i + 1)) := by
  apply UInt16.toNat_inj.mp
  simp only [UInt16.toNat_add, UInt16.toNat_ofNat', UInt16.reduceToNat]
  omega

/-- `flash_read` is at the head of its loop for the `i`-th time. -/
structure AtHead (size : UInt32) (i : ℕ) (h : Host State) : Prop where
  state : h.state = loop size (UInt16.ofNat (4 * i))
  requests : requested h.calls = (List.range i).map (4 * ·)

/-- While packets of buttons come, the inner loop goes on. -/
theorem readTo_discarding {addr : UInt16} (hstate : (readTo size results n).state = .receive addr)
    {k : ℕ} (hbuttons : ∀ j < k, Discarded (results (n + j))) :
    (readTo size results (n + k)).state = .receive addr ∧
      requested (readTo size results (n + k)).calls = requested (readTo size results n).calls := by
  induction k with
  | zero => exact ⟨hstate, rfl⟩
  | succ k ih =>
    obtain ⟨hsame, hrequests⟩ := ih fun j hj => hbuttons j (by omega)
    obtain ⟨hnext, hkept⟩ := step_from_receive size hsame (results (n + k))
    rw [if_pos (hbuttons k (by omega))] at hnext
    exact ⟨hnext, hkept.trans hrequests⟩

/-- The inner loop ends, and the counter goes up. -/
theorem exists_end_of_receive (hends : DiscardsEnd size results) {addr : UInt16}
    (hstate : (readTo size results n).state = .receive addr) :
    ∃ m, (readTo size results m).state = loop size (addr + 4) ∧
      requested (readTo size results m).calls = requested (readTo size results n).calls := by
  have hexists := hends n addr hstate
  obtain ⟨hsame, hrequests⟩ := readTo_discarding hstate
    fun j hj => Decidable.not_not.mp (Nat.find_min hexists hj)
  obtain ⟨hnext, hkept⟩ := step_from_receive size hsame (results (n + Nat.find hexists))
  rw [if_neg (Nat.find_spec hexists)] at hnext
  exact ⟨n + Nat.find hexists + 1, hnext, hkept.trans hrequests⟩

/-- One turn of the loop, whether its transfers succeed or fail. -/
theorem exists_next_head (hends : DiscardsEnd size results) (hi : i < requestCount size)
    (hroom : 4 * i < 2 ^ 16) (hhead : AtHead size i (readTo size results n)) :
    ∃ m, AtHead size (i + 1) (readTo size results m) := by
  have hstate := hhead.state
  rw [loop_eq_of_lt hroom, if_pos hi] at hstate
  have haddr : (UInt16.ofNat (4 * i)).toNat = 4 * i := by
    rw [UInt16.toNat_ofNat']
    omega
  obtain ⟨hnext, hrequests⟩ := step_from_request size hstate (results n)
  have hrange : requested (readTo size results (n + 1)).calls
      = (List.range (i + 1)).map (4 * ·) := by
    rw [List.range_succ, List.map_append, ← hhead.requests]
    exact hrequests.trans (by rw [haddr]; rfl)
  by_cases hr : (results n).r ≠ 0
  · rw [if_pos hr, counter_succ] at hnext
    exact ⟨n + 1, hnext, hrange⟩
  · rw [if_neg hr] at hnext
    obtain ⟨m, hstate', hsame⟩ := exists_end_of_receive hends (n := n + 1) hnext
    rw [counter_succ] at hstate'
    exact ⟨m, hstate', hsame.trans hrange⟩

/-- `flash_read` gets to the head of its loop again and again, as long as the counter does not
wrap. -/
theorem exists_head (hlimit : size.toNat / 2 ≤ 65532) (hends : DiscardsEnd size results)
    (hi : i ≤ requestCount size) : ∃ n, AtHead size i (readTo size results n) := by
  induction i with
  | zero => exact ⟨0, rfl, rfl⟩
  | succ i ih =>
    obtain ⟨n, hhead⟩ := ih (by omega)
    exact exists_next_head hends hi (by unfold requestCount at hi; omega) hhead

theorem covers_of_requests {calls : List (Call × Result)} (hlimit : size.toNat / 2 ≤ 65532)
    (h : requested calls = (List.range (requestCount size)).map (4 * ·)) :
    Covers size calls := by
  have hmem : ∀ a, a ∈ requested calls ↔ ∃ i < requestCount size, 4 * i = a := by
    intro a
    rw [h]
    simp
  refine ⟨h, ?_, ?_, ?_⟩
  · rw [h, List.pairwise_map]
    exact List.pairwise_lt_range.imp fun hlt => by omega
  · intro w hw
    refine ⟨4 * (w / 4), ⟨(hmem _).mpr ⟨w / 4, ?_, rfl⟩, by omega, by omega⟩, ?_⟩
    · unfold requestCount
      omega
    · rintro a ⟨ha, hle, hlt⟩
      obtain ⟨i, -, rfl⟩ := (hmem a).mp ha
      omega
  · intro a ha
    obtain ⟨i, hi, rfl⟩ := (hmem a).mp ha
    unfold requestCount at hi
    omega

/-- The loop ends and covers the flash. -/
theorem exists_release (hlimit : size.toNat / 2 ≤ 65532) (hends : DiscardsEnd size results) :
    ∃ n, (readTo size results n).state = .release ∧ Covers size (readTo size results n).calls := by
  obtain ⟨n, hhead⟩ := exists_head hlimit hends (Nat.le_refl _)
  have hlast := hhead.state
  rw [loop_eq_of_lt (by unfold requestCount; omega), if_neg (Nat.lt_irrefl _)] at hlast
  exact ⟨n, hlast, covers_of_requests hlimit hhead.requests⟩

end

/-! ## Sizes that are not -/

/-- Results with which every request fails. -/
def failing (_ : ℕ) : Result := ⟨-1, []⟩

/-- With every request failing, the counter goes up by 4 at each result, modulo 2^16. -/
theorem readTo_failing {size : UInt32} (hsize : 65532 < size.toNat / 2) (n : ℕ) :
    (readTo size failing n).state = .request (UInt16.ofNat (4 * n)) := by
  -- the counter is a multiple of 4 below 2^16, so it never gets to the bound
  have hloop : ∀ n, loop size (UInt16.ofNat (4 * n)) = .request (UInt16.ofNat (4 * n)) := by
    intro n
    rw [loop, if_pos]
    rw [UInt32.lt_iff_toNat_lt]
    simp only [UInt16.toNat_toUInt32, UInt16.toNat_ofNat', UInt32.toNat_div, UInt32.reduceToNat]
    omega
  have hfails : ∀ n, (failing n).r ≠ 0 := fun _ => show (-1 : ℤ) ≠ 0 by decide
  induction n with
  | zero => exact hloop 0
  | succ n ih =>
    have hnext := (step_from_request size ih (failing n)).1
    rw [if_pos (hfails n), counter_succ, hloop] at hnext
    exact hnext

/-! ## Main result -/

/-- The loop of `flash_read` ends and covers the flash, whatever the transfers return, exactly
for the sizes its counter can express. -/
theorem flashRead_covers_iff (size : UInt32) :
    (∀ results, DiscardsEnd size results →
      ∃ n, (readTo size results n).state = .release ∧ Covers size (readTo size results n).calls) ↔
      size.toNat / 2 ≤ 65532 := by
  constructor
  · intro hall
    by_contra hsize
    have hfailing := readTo_failing (Nat.lt_of_not_le hsize)
    have hends : DiscardsEnd size failing := by
      intro n addr hstate
      rw [hfailing n] at hstate
      cases hstate
    obtain ⟨n, hstate, -⟩ := hall failing hends
    rw [hfailing n] at hstate
    cases hstate
  · exact fun hlimit results hends => exists_release hlimit hends

/-- The size of a flash of 256 KiB is not covered: with every request failing, the loop does not
end. -/
theorem large_flash_never_ends :
    ¬ ∀ results, DiscardsEnd 0x40000 results →
      ∃ n, (readTo 0x40000 results n).state = .release ∧
        Covers 0x40000 (readTo 0x40000 results n).calls := by
  intro hall
  have hfailing := @readTo_failing 0x40000 (by decide)
  obtain ⟨n, hstate, -⟩ := hall failing fun n addr hstate => by
    rw [hfailing n] at hstate
    cases hstate
  rw [hfailing n] at hstate
  cases hstate

end Software
end AvrProgrammer
