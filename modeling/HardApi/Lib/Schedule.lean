import Mathlib.Data.Set.Defs
import Mathlib.Order.Basic

/-!
# Schedules

`next s a` is what the actor `a` does in the state `s`; an actor that can do nothing leaves the
state as it is. A schedule says who takes each step, and `after next s sched n` is the state after
`n` of them. A schedule is fair to a set of actors when each of them takes steps again and again.

`after_preserves` carries an invariant along every schedule. `Fair.reaches` is the progress rule:
in every state that is not a goal one actor is helpful, its step lowers a measure, and the steps of
the others do not undo that.
-/

namespace Schedule

variable {σ ι : Type*} {next : σ → ι → σ} {sched : ℕ → ι} {s : σ}

def after (next : σ → ι → σ) (s : σ) (sched : ℕ → ι) : ℕ → σ
  | 0 => s
  | n + 1 => next (after next s sched n) (sched n)

@[simp] theorem after_zero : after next s sched 0 = s := rfl

theorem after_succ (n : ℕ) :
    after next s sched (n + 1) = next (after next s sched n) (sched n) := rfl

theorem after_preserves (Inv : σ → Prop) (hstep : ∀ s a, Inv s → Inv (next s a)) (hs : Inv s)
    (sched : ℕ → ι) (n : ℕ) : Inv (after next s sched n) := by
  induction n with
  | zero => exact hs
  | succ n ih => exact hstep _ _ ih

theorem after_congr {sched' : ℕ → ι} {n : ℕ} (h : ∀ i < n, sched i = sched' i) :
    after next s sched n = after next s sched' n := by
  induction n with
  | zero => rfl
  | succ n ih =>
    rw [after_succ, after_succ, ih fun i hi => h i (by omega), h n (by omega)]

theorem after_add (n m : ℕ) :
    after next s sched (n + m) = after next (after next s sched n) (fun i => sched (n + i)) m := by
  induction m with
  | zero => rfl
  | succ m ih => rw [← Nat.add_assoc, after_succ, after_succ, ih]

/-- What a schedule can still reach can be reached from the start. -/
theorem exists_after {P : σ → Prop} (n : ℕ)
    (h : ∃ sched' m, P (after next (after next s sched n) sched' m)) :
    ∃ sched' m, P (after next s sched' m) := by
  obtain ⟨sched', m, hP⟩ := h
  refine ⟨fun i => if i < n then sched i else sched' (i - n), n + m, ?_⟩
  rw [after_add]
  convert hP using 2
  · apply after_congr
    intro i hi
    rw [if_pos hi]
  · funext i
    rw [if_neg (by omega), Nat.add_sub_cancel_left]

/-- Each actor of the set takes a step after any number of steps. -/
def Fair (actors : Set ι) (sched : ℕ → ι) : Prop :=
  ∀ a ∈ actors, ∀ n, ∃ m, n ≤ m ∧ sched m = a

/-- A step that does not lower the measure is not the helpful actor's, and leaves the measure and
the helpful actor. -/
structure Progress (next : σ → ι → σ) (Inv Goal : σ → Prop) (measure : σ → ℕ) (helpful : σ → ι) :
    Prop where
  preserves : ∀ s a, Inv s → Inv (next s a)
  lowers : ∀ s a, Inv s → ¬ Goal s → measure (next s a) < measure s ∨
    (a ≠ helpful s ∧ measure (next s a) = measure s ∧ helpful (next s a) = helpful s)

variable {Inv Goal : σ → Prop} {measure : σ → ℕ} {helpful : σ → ι} {actors : Set ι}

/-- Up to the helpful actor's next step, `d` steps away, the measure is lowered or the goal is
reached. -/
theorem Progress.lowers_within (hprog : Progress next Inv Goal measure helpful) (hs : Inv s)
    {n d : ℕ} (hd : sched (n + d) = helpful (after next s sched n)) :
    ∃ m, Goal (after next s sched m) ∨
      measure (after next s sched m) < measure (after next s sched n) := by
  induction d generalizing n with
  | zero =>
    by_cases hgoal : Goal (after next s sched n)
    · exact ⟨n, Or.inl hgoal⟩
    · have hinv := after_preserves Inv hprog.preserves hs sched n
      rcases hprog.lowers _ (sched n) hinv hgoal with hlt | ⟨hne, -⟩
      · exact ⟨n + 1, Or.inr hlt⟩
      · exact absurd hd hne
  | succ d ih =>
    by_cases hgoal : Goal (after next s sched n)
    · exact ⟨n, Or.inl hgoal⟩
    · have hinv := after_preserves Inv hprog.preserves hs sched n
      rcases hprog.lowers _ (sched n) hinv hgoal with hlt | ⟨-, hmeasure, hhelpful⟩
      · exact ⟨n + 1, Or.inr hlt⟩
      · -- The step was another actor's: the helpful one is now one step closer.
        obtain ⟨m, hm⟩ := ih (n := n + 1) (by
          rw [after_succ, hhelpful, ← hd]
          congr 1
          omega)
        rw [after_succ, hmeasure] at hm
        exact ⟨m, hm⟩

/-- **Progress under fairness.** -/
theorem Fair.reaches (hfair : Fair actors sched)
    (hprog : Progress next Inv Goal measure helpful) (hactors : ∀ s, helpful s ∈ actors)
    (hs : Inv s) : ∃ n, Goal (after next s sched n) := by
  suffices h : ∀ k n, measure (after next s sched n) = k → ∃ m, Goal (after next s sched m) from
    h _ 0 rfl
  intro k
  induction k using Nat.strongRecOn with
  | ind k ih =>
    rintro n rfl
    obtain ⟨m, hnm, hm⟩ := hfair _ (hactors (after next s sched n)) n
    obtain ⟨d, rfl⟩ := Nat.exists_eq_add_of_le hnm
    obtain ⟨m', hgoal | hlt⟩ := hprog.lowers_within hs hm
    · exact ⟨m', hgoal⟩
    · exact ih _ hlt m' rfl

end Schedule
