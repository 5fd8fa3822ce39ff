import AvrProgrammer.Library.Runs
import Mathlib.Data.List.Nodup

/-!
# Resources released in reverse order

A program acquires resources, uses them and releases them. It keeps the discipline if it
acquires only what it does not hold, uses only what it holds, and releases only what it acquired
last. The resources it holds are a stack without repetitions, and every acquisition that is not
held any more has been released once.
-/

namespace AvrProgrammer
namespace Resources

open Runs

variable {ρ : Type*} [DecidableEq ρ]

/-- What a program does with a resource. -/
inductive Use (ρ : Type*) where
  | acquire (x : ρ)
  | use (x : ρ)
  | release (x : ρ)
deriving DecidableEq

/-- The resources held afterwards, the one acquired last first. -/
def hold (held : List ρ) : Use ρ → List ρ
  | .acquire x => x :: held
  | .use _ => held
  | .release x => held.erase x

/-- What the discipline permits. -/
def Permitted (held : List ρ) : Use ρ → Prop
  | .acquire x => x ∉ held
  | .use x => x ∈ held
  | .release x => held.head? = some x

/-- A trace that keeps the discipline. -/
def Disciplined (uses : List (Use ρ)) : Prop := Along hold Permitted [] uses

/-- The resources held at the end of a trace. -/
def heldAfter (uses : List (Use ρ)) : List ρ := run hold [] uses

variable {held : List ρ} {uses uses' : List (Use ρ)}

@[simp] theorem heldAfter_append :
    heldAfter (uses ++ uses') = run hold (heldAfter uses) uses' := run_append ..

@[simp] theorem disciplined_append :
    Disciplined (uses ++ uses') ↔ Disciplined uses ∧ Along hold Permitted (heldAfter uses) uses' :=
  along_append

/-- Every resource is held at most once. -/
theorem Disciplined.nodup (h : Disciplined uses) : (heldAfter uses).Nodup := by
  refine Along.invariant (I := List.Nodup) (fun held u hnodup hpermitted => ?_) List.nodup_nil h
  cases u with
  | acquire x => exact List.nodup_cons.mpr ⟨hpermitted, hnodup⟩
  | use x => exact hnodup
  | release x => exact hnodup.erase x

/-- One use keeps the balance of acquisitions and releases. -/
theorem count_hold {u : Use ρ} (h : Permitted held u) (x : ρ) :
    (if u = .acquire x then 1 else 0) + held.count x =
      (if u = .release x then 1 else 0) + (hold held u).count x := by
  cases u with
  | acquire y =>
    by_cases hy : y = x
    · subst hy
      simp [hold, Nat.add_comm]
    · simp [hold, hy]
  | use y => simp [hold]
  | release y =>
    obtain ⟨rest, rfl⟩ : ∃ rest, held = y :: rest := List.head?_eq_some_iff.mp h
    by_cases hy : y = x
    · subst hy
      simp [hold, Nat.add_comm]
    · simp [hold, hy]

/-- An acquisition is released once or still held. -/
theorem count_acquire (h : Along hold Permitted held uses) (x : ρ) :
    uses.count (.acquire x) + held.count x =
      uses.count (.release x) + (run hold held uses).count x := by
  induction uses generalizing held with
  | nil => simp
  | cons u uses ih =>
    have hrest := ih h.2
    have hfirst := count_hold h.1 x
    simp only [List.count_cons, beq_iff_eq, run_cons]
    omega

/-- If nothing is held at the end, every acquisition has been released once. -/
theorem Disciplined.count_eq (h : Disciplined uses) (hend : heldAfter uses = []) (x : ρ) :
    uses.count (.release x) = uses.count (.acquire x) := by
  have hcount := count_acquire h x
  rw [show run hold [] uses = [] from hend] at hcount
  simpa using hcount.symm

/-- A resource that is not held has to be acquired to be held. -/
theorem notMem_run {x : ρ} (hx : x ∉ held) (huses : ∀ u ∈ uses, u ≠ .acquire x) :
    x ∉ run hold held uses := by
  have hkept : Along hold (fun _ u => u ≠ .acquire x) held uses := along_of_forall huses
  refine hkept.invariant (I := fun held => x ∉ held) (fun held u hx hu => ?_) hx
  cases u with
  | acquire y =>
    have hy : x ≠ y := fun hxy => hu (by rw [hxy])
    simpa [hold, hy] using hx
  | use y => exact hx
  | release y => exact fun hmem => hx (List.mem_of_mem_erase hmem)

/-- After its release a resource cannot be used before it is acquired again. -/
theorem not_disciplined_of_use {x : ρ} {mid post : List (Use ρ)}
    (hmid : ∀ u ∈ mid, u ≠ .acquire x) :
    ¬ Disciplined (uses ++ .release x :: (mid ++ .use x :: post)) := by
  intro h
  rw [disciplined_append, along_cons, along_append, along_cons] at h
  obtain ⟨hbefore, -, -, hmem, -⟩ := h
  have hgone : x ∉ hold (heldAfter uses) (.release x) := hbefore.nodup.not_mem_erase
  exact notMem_run hgone hmid hmem

end Resources
end AvrProgrammer
