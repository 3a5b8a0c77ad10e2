import Mathlib.Algebra.BigOperators.Group.List.Basic
import Mathlib.Algebra.GroupWithZero.Nat
import Mathlib.Data.List.Basic
import Mathlib.Logic.Basic

/-!
# Runs of a step function

`step s i` is what the input `i` does in the state `s`: the next state and an output, or nothing
when the input cannot be taken there. A run is the list of its transitions. `Run.preserves` carries
an invariant to its end and `Run.forall_iff` compares a property of all transitions with a
condition on all of them. `Run.balance` counts what a run takes in and gives out, and
`Run.iff_exists` says where something came from that is never lost again.
-/

namespace Runs

variable {σ ι ο : Type*}

structure Transition (σ ι ο : Type*) where
  pre : σ
  input : ι
  output : ο
  post : σ

variable {step : σ → ι → Option (σ × ο)} {s u v : σ} {t : Transition σ ι ο}
  {ts us : List (Transition σ ι ο)}

/-- The transition is one of the step function. -/
def Transition.Of (t : Transition σ ι ο) (step : σ → ι → Option (σ × ο)) : Prop :=
  step t.pre t.input = some (t.post, t.output)

/-- `Run step s ts u`: the transitions `ts` lead from `s` to `u`. -/
def Run (step : σ → ι → Option (σ × ο)) : σ → List (Transition σ ι ο) → σ → Prop
  | s, [], u => s = u
  | s, t :: ts, u => t.pre = s ∧ t.Of step ∧ Run step t.post ts u

theorem run_append : Run step s (ts ++ us) v ↔ ∃ u, Run step s ts u ∧ Run step u us v := by
  induction ts generalizing s with
  | nil => simp [Run]
  | cons t ts ih =>
    simp only [List.cons_append, Run, ih]
    constructor
    · rintro ⟨hpre, hof, u, hts, hus⟩
      exact ⟨u, ⟨hpre, hof, hts⟩, hus⟩
    · rintro ⟨u, ⟨hpre, hof, hts⟩, hus⟩
      exact ⟨hpre, hof, u, hts, hus⟩

/-- What every admitted transition preserves holds at the end of a run. -/
theorem Run.preserves (Inv : σ → Prop) {C : Transition σ ι ο → Prop}
    (hstep : ∀ t : Transition σ ι ο, t.Of step → Inv t.pre → C t → Inv t.post)
    (hrun : Run step s ts u) (hs : Inv s) (hC : ∀ t ∈ ts, C t) : Inv u := by
  induction ts generalizing s with
  | nil =>
    obtain rfl := hrun
    exact hs
  | cons t ts ih =>
    obtain ⟨rfl, hof, hrest⟩ := hrun
    have hpost := hstep t hof hs (hC t List.mem_cons_self)
    exact ih hrest hpost fun t' ht' => hC t' (List.mem_cons_of_mem t ht')

/-- When `Q` and `C` agree on transitions from invariant states, and `C` keeps the invariant, they
agree on whole runs. -/
theorem Run.forall_iff (Inv : σ → Prop) {C Q : Transition σ ι ο → Prop}
    (hiff : ∀ t : Transition σ ι ο, t.Of step → Inv t.pre → (Q t ↔ C t))
    (hstep : ∀ t : Transition σ ι ο, t.Of step → Inv t.pre → C t → Inv t.post)
    (hrun : Run step s ts u) (hs : Inv s) : (∀ t ∈ ts, Q t) ↔ ∀ t ∈ ts, C t := by
  induction ts generalizing s with
  | nil => simp
  | cons t ts ih =>
    obtain ⟨rfl, hof, hrest⟩ := hrun
    rw [List.forall_mem_cons, List.forall_mem_cons, hiff t hof hs]
    exact and_congr_right fun hC => ih hrest (hstep t hof hs hC)

/-- What every transition balances is balanced over a run. -/
theorem Run.balance (stock : σ → ℕ) {taken given : Transition σ ι ο → ℕ}
    (hstep : ∀ t : Transition σ ι ο, t.Of step → given t + stock t.post = stock t.pre + taken t)
    (hrun : Run step s ts u) : (ts.map given).sum + stock u = stock s + (ts.map taken).sum := by
  induction ts generalizing s with
  | nil =>
    obtain rfl := hrun
    simp
  | cons t ts ih =>
    obtain ⟨rfl, hof, hrest⟩ := hrun
    have hhead := hstep t hof
    have htail := ih hrest
    rw [List.map_cons, List.map_cons, List.sum_cons, List.sum_cons]
    omega

/-- What holds after a transition exactly when it held before or the transition brings it. -/
theorem Run.iff_exists {P : σ → Prop} {Brings : Transition σ ι ο → Prop}
    (hstep : ∀ t : Transition σ ι ο, t.Of step → (P t.post ↔ P t.pre ∨ Brings t))
    (hrun : Run step s ts u) : P u ↔ P s ∨ ∃ t ∈ ts, Brings t := by
  induction ts generalizing s with
  | nil =>
    obtain rfl := hrun
    simp
  | cons t ts ih =>
    obtain ⟨rfl, hof, hrest⟩ := hrun
    rw [ih hrest, hstep t hof, or_assoc, List.exists_mem_cons_iff]

end Runs
