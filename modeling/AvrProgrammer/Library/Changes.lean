import Mathlib.Data.List.Destutter

/-!
# The changes of a signal

A signal is read again and again, and a reader who knows its last value notes the readings that
differ from the one before. `changes a l` are the readings noted from `l`, if the value before
was `a`.
-/

namespace AvrProgrammer
namespace Changes

variable {α : Type*} [DecidableEq α]

/-- The readings that differ from the reading before. -/
def changes (a : α) (l : List α) : List α := (l.destutter' (· ≠ ·) a).tail

/-- The value read last. -/
def current (a : α) (l : List α) : α := l.getLastD a

variable {a b : α} {l m : List α}

@[simp] theorem changes_nil : changes a [] = [] := rfl

omit [DecidableEq α] in
@[simp] theorem current_nil : current a [] = a := rfl

omit [DecidableEq α] in
@[simp] theorem current_cons : current a (b :: l) = current b l := List.getLastD_cons ..

omit [DecidableEq α] in
@[simp] theorem current_append : current a (l ++ m) = current (current a l) m := by
  induction l generalizing a with
  | nil => rfl
  | cons b l ih => rw [List.cons_append, current_cons, current_cons, ih]

omit [DecidableEq α] in
theorem current_mem (h : l ≠ []) : current a l ∈ l := by
  induction l generalizing a with
  | nil => exact absurd rfl h
  | cons b l ih =>
    rw [current_cons]
    by_cases hl : l = []
    · rw [hl]
      exact List.mem_singleton_self b
    · exact .tail _ (ih hl)

/-- The value before comes first. -/
theorem destutter'_eq_cons (a : α) (l : List α) :
    l.destutter' (· ≠ ·) a = a :: changes a l := by
  unfold changes
  induction l with
  | nil => rfl
  | cons b l ih =>
    by_cases hab : a ≠ b
    · rw [List.destutter'_cons_pos _ hab, List.tail_cons]
    · rwa [List.destutter'_cons_neg _ hab]

theorem changes_cons : changes a (b :: l) = (if a ≠ b then [b] else []) ++ changes b l := by
  by_cases hab : a ≠ b
  · rw [if_pos hab, changes, List.destutter'_cons_pos _ hab, List.tail_cons, destutter'_eq_cons,
      List.singleton_append]
  · rw [if_neg hab, changes, List.destutter'_cons_neg _ hab, List.nil_append,
      not_not.mp hab, changes]

theorem changes_append : changes a (l ++ m) = changes a l ++ changes (current a l) m := by
  induction l generalizing a with
  | nil => rfl
  | cons b l ih =>
    rw [List.cons_append, changes_cons, ih, changes_cons, current_cons, List.append_assoc]

/-- The reader knows the value read last. -/
theorem current_changes : current a (changes a l) = current a l := by
  induction l generalizing a with
  | nil => rfl
  | cons b l ih =>
    rw [changes_cons, current_append, current_cons, ← ih]
    by_cases hab : a ≠ b
    · rw [if_pos hab]
      rfl
    · rw [if_neg hab, not_not.mp hab]
      rfl

theorem changes_sublist : (changes a l).Sublist l := by
  have hsublist := List.destutter'_sublist (· ≠ ·) a (l := l)
  rw [destutter'_eq_cons] at hsublist
  exact List.cons_sublist_cons.mp hsublist

end Changes
end AvrProgrammer
