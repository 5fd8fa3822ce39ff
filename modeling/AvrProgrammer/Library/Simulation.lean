import AvrProgrammer.Library.Runs
import Mathlib.Order.Lattice.Nat

/-!
# Simulation between two machines

A relation between the states of two machines is a simulation if every allowed action of the
first machine is matched by an action of the second or by none. Then every run of the first is
matched by a run of the second, and what holds of all related states of the second machine can
be read back at the first: `Simulation.run`.

For termination the second machine often knows how much is left to do while the state of the
first does not show it. `eventually_rank_zero` is the rule of `Runs` for a rank that is a
relation and not a function of the state. `Settles` is "from some time on", for what is reached
and then kept.
-/

namespace AvrProgrammer
namespace Runs

variable {σ τ α β κ : Type*}

/-- Every allowed action from related states is matched by an action of the second machine, or
by none. -/
structure Simulation (step : σ → α → σ) (step' : τ → β → τ) (C : σ → α → Prop)
    (R : σ → τ → Prop) : Prop where
  matched : ∀ s t a, R s t → C s a → R (step s a) t ∨ ∃ b, R (step s a) (step' t b)

section
variable {step : σ → α → σ} {step' : τ → β → τ} {C : σ → α → Prop} {R : σ → τ → Prop}

/-- A run of the first machine is matched by a run of the second. -/
theorem Simulation.run (hsim : Simulation step step' C R) {s : σ} {t : τ} (hst : R s t)
    {as : List α} (has : Along step C s as) :
    ∃ bs, R (run step s as) (run step' t bs) := by
  induction as generalizing s t with
  | nil => exact ⟨[], hst⟩
  | cons a as ih =>
    rcases hsim.matched s t a hst has.1 with hstutter | ⟨b, hb⟩
    · exact ih hstutter has.2
    · obtain ⟨bs, hbs⟩ := ih hb has.2
      exact ⟨b :: bs, hbs⟩

end

/-- **Termination under fairness, for a rank that is a relation.** An allowed action leads to a
state of lower rank, or of the same rank; then it is not one of the helpful party and leaves
that party helpful. A schedule of allowed actions in which every party acts again and again
leads to a state of rank `0`. -/
theorem eventually_rank_zero {step : σ → α → σ} {C : σ → α → Prop} {s : σ} {party : α → κ}
    {helpful : σ → κ} {rank : σ → ℕ → Prop} {sched : ℕ → α}
    (hstep : ∀ s a m, rank s m → C s a → ∃ m', rank (step s a) m' ∧
      (m' < m ∨ m' = m ∧ (0 < m → party a ≠ helpful s ∧ helpful (step s a) = helpful s)))
    (hsched : ∀ n, C (runTo step s sched n) (sched n))
    (hfair : ∀ p n, ∃ m, n ≤ m ∧ party (sched m) = p) {m : ℕ} (hs : rank s m) :
    ∃ n, rank (runTo step s sched n) 0 := by
  -- the least rank of a state is a measure
  have hleast : ∀ s, (∃ m, rank s m) → rank s (sInf {m | rank s m}) := fun s h => Nat.sInf_mem h
  have hinv : ∀ n, ∃ m, rank (runTo step s sched n) m := by
    apply runTo_allowed (I := fun s => ∃ m, rank s m) _ hsched ⟨m, hs⟩
    rintro s a ⟨m, hm⟩ ha
    obtain ⟨m', hm', -⟩ := hstep s a m hm ha
    exact ⟨m', hm'⟩
  obtain ⟨n, hn⟩ := @eventually_measure_zero _ _ step C s κ party helpful
    (fun s => sInf {m | rank s m}) (fun s => ∃ m, rank s m) sched
    (fun s a hrank ha => by
      obtain ⟨m', hm', hmove⟩ := hstep s a _ (hleast s hrank) ha
      have hle : sInf {m | rank (step s a) m} ≤ m' := Nat.sInf_le hm'
      refine ⟨⟨m', hm'⟩, ?_⟩
      rcases hmove with hlt | ⟨hsame, hstay⟩
      · exact .inl (Nat.lt_of_le_of_lt hle hlt)
      · rw [hsame] at hle
        rcases Nat.lt_or_eq_of_le hle with hlt | heq
        · exact .inl hlt
        · exact .inr ⟨heq, hstay⟩)
    hsched hfair ⟨m, hs⟩
  exact ⟨n, hn ▸ hleast _ (hinv n)⟩

/-! ## What holds from some time on -/

section
variable {step : σ → α → σ} {s : σ} {sched : ℕ → α} {Q Q' : σ → Prop}

theorem runTo_shift (n k : ℕ) :
    runTo step s sched (n + k) = runTo step (runTo step s sched n) (fun i => sched (n + i)) k := by
  induction k with
  | zero => rfl
  | succ k ih => rw [← Nat.add_assoc, runTo, ih, runTo]

variable (step s sched) in
/-- From some time on, `Q` holds. -/
def Settles (Q : σ → Prop) : Prop := ∃ n, ∀ m, n ≤ m → Q (runTo step s sched m)

theorem Settles.and (h : Settles step s sched Q) (h' : Settles step s sched Q') :
    Settles step s sched fun s => Q s ∧ Q' s := by
  obtain ⟨n, hn⟩ := h
  obtain ⟨n', hn'⟩ := h'
  exact ⟨max n n', fun m hm => ⟨hn m (by omega), hn' m (by omega)⟩⟩

/-- What happens once and is not undone after some time. -/
theorem settles_of_stable (n₀ : ℕ)
    (hstep : ∀ n, n₀ ≤ n → Q (runTo step s sched n) → Q (runTo step s sched (n + 1)))
    (h : ∃ n, n₀ ≤ n ∧ Q (runTo step s sched n)) : Settles step s sched Q := by
  obtain ⟨n, hn, hQ⟩ := h
  refine ⟨n, fun m hm => ?_⟩
  induction m, hm using Nat.le_induction with
  | base => exact hQ
  | succ m hm ih => exact hstep m (hn.trans hm) ih

end

end Runs
end AvrProgrammer
