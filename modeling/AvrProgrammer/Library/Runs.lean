import Mathlib.Data.List.Basic
import Mathlib.Order.Basic

/-!
# Runs of a deterministic machine

A machine is a function `step : σ → α → σ`: in state `s` the action `a` leads to `step s a`,
and an action that is not enabled leaves the state as it is. A run is a list of actions, an
infinite schedule a function `ℕ → α`.

Five things live here:

* `run` and `Along`, the state after a list of actions and "every action of the run is taken
  in a state that allows it", with the invariant rule;
* `latest`, the value a run assigned last to a variable;
* `exists_first_violation`, which splits a run at the first action its condition forbids;
* `History`, the same for the entries of a log;
* `eventually_measure_zero`, the termination rule for schedules that serve every party again
  and again: a measure no action raises, and which the action of one helpful party lowers.
-/

namespace AvrProgrammer
namespace Runs

variable {σ α : Type*} (step : σ → α → σ)

/-- The state after a list of actions. -/
def run (s : σ) (as : List α) : σ := as.foldl step s

@[simp] theorem run_nil (s : σ) : run step s [] = s := rfl

@[simp] theorem run_cons (s : σ) (a : α) (as : List α) :
    run step s (a :: as) = run step (step s a) as := rfl

@[simp] theorem run_append (s : σ) (as bs : List α) :
    run step s (as ++ bs) = run step (run step s as) bs := List.foldl_append ..

/-- Every action of the run satisfies `C` in the state it is taken in. -/
def Along (C : σ → α → Prop) : σ → List α → Prop
  | _, [] => True
  | s, a :: as => C s a ∧ Along C (step s a) as

variable {step} {C D : σ → α → Prop} {s : σ} {a : α} {as bs : List α}

@[simp] theorem along_nil : Along step C s [] := trivial

@[simp] theorem along_cons :
    Along step C s (a :: as) ↔ C s a ∧ Along step C (step s a) as := Iff.rfl

@[simp] theorem along_append :
    Along step C s (as ++ bs) ↔ Along step C s as ∧ Along step C (run step s as) bs := by
  induction as generalizing s with
  | nil => simp
  | cons a as ih => simp [ih, and_assoc]

/-- `Along` in terms of the places of the run. -/
theorem along_iff :
    Along step C s as ↔ ∀ pre a post, as = pre ++ a :: post → C (run step s pre) a := by
  constructor
  · rintro h pre a post rfl
    rw [along_append, along_cons] at h
    exact h.2.1
  · intro h
    induction as generalizing s with
    | nil => trivial
    | cons a as ih =>
      refine ⟨h [] a as rfl, ih fun pre b post hsplit => ?_⟩
      have hb := h (a :: pre) b post (by rw [hsplit, List.cons_append])
      rwa [run_cons] at hb

theorem Along.mono (h : Along step C s as) (hCD : ∀ s a, C s a → D s a) :
    Along step D s as := by
  rw [along_iff] at h ⊢
  exact fun pre a post hsplit => hCD _ _ (h pre a post hsplit)

/-- A condition on the actions alone. -/
theorem along_of_forall {P : α → Prop} (h : ∀ a ∈ as, P a) :
    Along step (fun _ a => P a) s as := by
  rw [along_iff]
  rintro pre a post rfl
  exact h a (by simp)

/-! ## The invariant rule -/

/-- What every allowed action preserves, every run of allowed actions preserves. -/
theorem Along.invariant {I : σ → Prop} (hstep : ∀ s a, I s → C s a → I (step s a))
    (hs : I s) (h : Along step C s as) : I (run step s as) := by
  induction as generalizing s with
  | nil => exact hs
  | cons a as ih => exact ih (hstep s a hs h.1) h.2

/-- The invariant rule for a condition that holds of every action. -/
theorem run_invariant {I : σ → Prop} (hstep : ∀ s a, I s → I (step s a)) (hs : I s)
    (as : List α) : I (run step s as) := by
  induction as generalizing s with
  | nil => exact hs
  | cons a as ih => exact ih (hstep s a hs)

/-- Along a run whose states keep an invariant, what the invariant gives at one step holds at
every step. -/
theorem Along.of_invariant {I : σ → Prop} (hstep : ∀ s a, I s → C s a → I (step s a))
    (hD : ∀ s a, I s → C s a → D s a) (hs : I s) (h : Along step C s as) :
    Along step D s as := by
  induction as generalizing s with
  | nil => trivial
  | cons a as ih => exact ⟨hD s a hs h.1, ih (hstep s a hs h.1) h.2⟩

/-- `Along.of_invariant` for an invariant that every action preserves. -/
theorem along_of_invariant {I : σ → Prop} (hstep : ∀ s a, I s → I (step s a))
    (hD : ∀ s a, I s → D s a) (hs : I s) (as : List α) : Along step D s as := by
  induction as generalizing s with
  | nil => trivial
  | cons a as ih => exact ⟨hD s a hs, ih (hstep s a hs)⟩

/-! ## Variables that some actions assign -/

/-- The value assigned last, if any action assigns one. -/
def latest {β : Type*} (f : α → Option β) (as : List α) : Option β := (as.filterMap f).getLast?

/-- A variable has the value assigned to it last, or the one it started with. -/
theorem variable_run {β : Type*} {f : α → Option β} {x : σ → β}
    (hx : ∀ s a, x (step s a) = (f a).getD (x s)) (s : σ) (as : List α) :
    x (run step s as) = (latest f as).getD (x s) := by
  induction as generalizing s with
  | nil => rfl
  | cons a as ih =>
    rw [run_cons, ih, hx]
    unfold latest
    cases hf : f a with
    | none => rw [List.filterMap_cons_none hf, Option.getD_none]
    | some b =>
      rw [List.filterMap_cons_some hf, List.getLast?_cons, Option.getD_some, Option.getD_some]

/-- A run that breaks its condition breaks it a first time. -/
theorem exists_first_violation (h : ¬ Along step C s as) :
    ∃ pre a post, as = pre ++ a :: post ∧ Along step C s pre ∧ ¬ C (run step s pre) a := by
  induction as generalizing s with
  | nil => exact absurd trivial h
  | cons a as ih =>
    by_cases ha : C s a
    · have hrest : ¬ Along step C (step s a) as := fun hrest => h ⟨ha, hrest⟩
      obtain ⟨pre, b, post, rfl, hpre, hb⟩ := ih hrest
      exact ⟨a :: pre, b, post, rfl, ⟨ha, hpre⟩, hb⟩
    · exact ⟨[], a, as, rfl, trivial, ha⟩

/-! ## Histories

A list of entries, such as the trace of a run, read as a run of its own: its state is the list
of the entries so far. -/

/-- Every entry of `l` satisfies `C` with the entries before it, those of `past` included. -/
def Following (C : List α → α → Prop) (past l : List α) : Prop :=
  Along (fun past e => past ++ [e]) C past l

/-- Every entry of `l` satisfies `C` with the entries before it. -/
def History (C : List α → α → Prop) (l : List α) : Prop := Following C [] l

section
variable {C : List α → α → Prop} {e : α} {l l' past : List α}

theorem run_snoc (past l : List α) : run (fun past e => past ++ [e]) past l = past ++ l := by
  induction l generalizing past with
  | nil => simp
  | cons e l ih => simp [ih]

@[simp] theorem following_nil : Following C past [] := trivial

@[simp] theorem following_cons :
    Following C past (e :: l) ↔ C past e ∧ Following C (past ++ [e]) l := Iff.rfl

@[simp] theorem following_append :
    Following C past (l ++ l') ↔ Following C past l ∧ Following C (past ++ l) l' := by
  simp only [Following, along_append, run_snoc]

@[simp] theorem history_nil : History C [] := trivial

@[simp] theorem history_append : History C (l ++ l') ↔ History C l ∧ Following C l l' := by
  simp only [History, following_append, List.nil_append]

theorem history_iff :
    History C l ↔ ∀ pre e post, l = pre ++ e :: post → C pre e := by
  simp only [History, Following, along_iff, run_snoc, List.nil_append]

/-- Entries that satisfy `C` whatever came before. -/
theorem following_of_forall (h : ∀ past, ∀ e ∈ l, C past e) (past : List α) :
    Following C past l := by
  induction l generalizing past with
  | nil => trivial
  | cons e l ih =>
    exact ⟨h past e List.mem_cons_self, ih (fun past e he => h past e (.tail _ he)) _⟩

end

/-! ## Termination under a fair schedule -/

variable (step) in
/-- The state after the first `n` actions of an infinite schedule. -/
def runTo (s : σ) (sched : ℕ → α) : ℕ → σ
  | 0 => s
  | n + 1 => step (runTo s sched n) (sched n)

theorem runTo_eq_run (s : σ) (sched : ℕ → α) (n : ℕ) :
    runTo step s sched n = run step s ((List.range n).map sched) := by
  induction n with
  | zero => rfl
  | succ n ih => rw [runTo, ih, List.range_succ, List.map_append, run_append]; rfl

theorem runTo_add (s : σ) (sched : ℕ → α) (n k : ℕ) :
    runTo step s sched (n + k)
      = run step (runTo step s sched n) ((List.range k).map fun i => sched (n + i)) := by
  induction k with
  | zero => rfl
  | succ k ih =>
    rw [← Nat.add_assoc, runTo, ih, List.range_succ, List.map_append, run_append]
    rfl

/-- The invariant rule for an infinite schedule. -/
theorem runTo_invariant {I : σ → Prop} {sched : ℕ → α} (hI : ∀ s a, I s → I (step s a))
    (hs : I s) (n : ℕ) : I (runTo step s sched n) := by
  rw [runTo_eq_run]
  exact run_invariant hI hs _

/-- The invariant rule for a schedule of allowed actions. -/
theorem runTo_allowed {I : σ → Prop} {sched : ℕ → α}
    (hstep : ∀ s a, I s → C s a → I (step s a))
    (hsched : ∀ n, C (runTo step s sched n) (sched n)) (hs : I s) (n : ℕ) :
    I (runTo step s sched n) := by
  induction n with
  | zero => exact hs
  | succ n ih => exact hstep _ _ ih (hsched n)

variable {κ : Type*} {party : α → κ} {helpful : σ → κ} {μ : σ → ℕ} {I : σ → Prop}
  {sched : ℕ → α}

/-- Until the measure falls, the helpful party stays the same. -/
private theorem measure_or_helpful
    (hmove : ∀ n, μ (runTo step s sched (n + 1)) < μ (runTo step s sched n) ∨
      μ (runTo step s sched (n + 1)) = μ (runTo step s sched n) ∧
        (0 < μ (runTo step s sched n) →
          helpful (runTo step s sched (n + 1)) = helpful (runTo step s sched n)))
    {n : ℕ} (hpos : 0 < μ (runTo step s sched n)) (k : ℕ) :
    μ (runTo step s sched (n + k)) < μ (runTo step s sched n) ∨
      μ (runTo step s sched (n + k)) = μ (runTo step s sched n) ∧
        helpful (runTo step s sched (n + k)) = helpful (runTo step s sched n) := by
  induction k with
  | zero => exact .inr ⟨rfl, rfl⟩
  | succ k ih =>
    have hlast := hmove (n + k)
    rcases ih with hlt | ⟨hsame, hhelp⟩
    · left
      rw [← Nat.add_assoc]
      omega
    · rw [hsame] at hlast
      rcases hlast with hlt | ⟨heq, hstay⟩
      · exact .inl hlt
      · exact .inr ⟨heq, (hstay hpos).trans hhelp⟩

/-- **Termination under fairness.** An allowed action lowers the measure, or keeps it; while
the measure is positive, such an action is not one of the helpful party and leaves that party
helpful. Then a schedule of allowed actions in which every party acts again and again brings
the measure to `0`. -/
theorem eventually_measure_zero
    (hstep : ∀ s a, I s → C s a → I (step s a) ∧
      (μ (step s a) < μ s ∨ μ (step s a) = μ s ∧
        (0 < μ s → party a ≠ helpful s ∧ helpful (step s a) = helpful s)))
    (hsched : ∀ n, C (runTo step s sched n) (sched n))
    (hfair : ∀ p n, ∃ m, n ≤ m ∧ party (sched m) = p) (hs : I s) :
    ∃ n, μ (runTo step s sched n) = 0 := by
  have hinv : ∀ n, I (runTo step s sched n) :=
    runTo_allowed (fun s a hs ha => (hstep s a hs ha).1) hsched hs
  have hmove := fun n => (hstep _ _ (hinv n) (hsched n)).2
  have hstay := @measure_or_helpful _ _ step s κ helpful μ sched fun n =>
    (hmove n).imp_right fun h => ⟨h.1, fun hpos => (h.2 hpos).2⟩
  -- induction on the measure: from any point on, fairness lowers it
  suffices h : ∀ v n, μ (runTo step s sched n) = v → ∃ m, μ (runTo step s sched m) = 0 from
    h _ 0 rfl
  intro v
  induction v using Nat.strongRecOn with
  | ind v ih =>
    intro n hn
    by_cases hzero : v = 0
    · exact ⟨n, hn.trans hzero⟩
    have hpos : 0 < μ (runTo step s sched n) := by omega
    obtain ⟨m, hnm, hparty⟩ := hfair (helpful (runTo step s sched n)) n
    obtain ⟨k, rfl⟩ := Nat.exists_eq_add_of_le hnm
    rcases hstay hpos k with hlt | ⟨hsame, hhelp⟩
    · exact ih _ (hn ▸ hlt) (n + k) rfl
    · rw [← hsame] at hpos
      rcases hmove (n + k) with hlt | ⟨-, hother⟩
      · exact ih _ (hn ▸ hsame ▸ hlt) (n + k + 1) rfl
      · exact absurd (hparty.trans hhelp.symm) (hother hpos).1

end Runs
end AvrProgrammer
