import Mathlib.Data.Set.Lattice
import Mathlib.Data.Set.Piecewise
import Mathlib.Order.CompletePartialOrder

/-!
# Filling an array index by index

An array is a function of its index. A computation that may fail fills a set `S` of indices when
it writes `f i` at every `i` in `S` and changes nothing else, and when its failures are failures
of some `f i` (`Fills`). Filling two disjoint sets one after the other is filling their union
(`Fills.bind`), so a run over pairwise disjoint sets fills the union of them, in any order and
however the union is cut (`fills_foldlM`). Each step of such a run may read the array where it
is going to write: nothing before it has been there.
-/

namespace Fill

universe u

variable {κ α : Type u} {ε ι : Type*} {S T : Set κ} {f : κ → Except ε α} {a b : κ → α}

/-- `b` is `a` with `f i` at every `i` in `S`. -/
def Filled (S : Set κ) (f : κ → Except ε α) (a b : κ → α) : Prop :=
  ∀ i, (i ∈ S → f i = .ok (b i)) ∧ (i ∉ S → b i = a i)

@[simp] theorem filled_empty : Filled ∅ f a b ↔ b = a := by
  simp [Filled, funext_iff]

theorem filled_singleton [DecidableEq κ] {i : κ} :
    Filled {i} f a b ↔ ∃ x, f i = .ok x ∧ b = Function.update a i x := by
  constructor
  · intro h
    refine ⟨b i, (h i).1 rfl, ?_⟩
    funext j
    by_cases hj : j = i
    · rw [hj, Function.update_self]
    · rw [Function.update_of_ne hj]
      exact (h j).2 hj
  · rintro ⟨x, hx, rfl⟩ j
    refine ⟨?_, fun hj => Function.update_of_ne hj x a⟩
    rintro rfl
    rwa [Function.update_self]

/-- Two disjoint sets, one after the other. -/
theorem filled_union (hdisj : Disjoint S T) :
    Filled (S ∪ T) f a b ↔ ∃ a₁, Filled S f a a₁ ∧ Filled T f a₁ b := by
  classical
  constructor
  · intro h
    refine ⟨S.piecewise b a, fun i => ⟨fun hi => ?_, fun hi => S.piecewise_eq_of_notMem b a hi⟩,
      fun i => ⟨fun hi => (h i).1 (Or.inr hi), fun hi => ?_⟩⟩
    · rw [S.piecewise_eq_of_mem b a hi]
      exact (h i).1 (Or.inl hi)
    · by_cases hS : i ∈ S
      · rw [S.piecewise_eq_of_mem b a hS]
      · rw [S.piecewise_eq_of_notMem b a hS]
        exact (h i).2 fun hST => hST.elim hS hi
  · rintro ⟨a₁, hS, hT⟩ i
    constructor
    · rintro (hi | hi)
      · rw [(hT i).2 (Set.disjoint_left.mp hdisj hi)]
        exact (hS i).1 hi
      · exact (hT i).1 hi
    · intro hi
      rw [(hT i).2 fun h => hi (Or.inr h)]
      exact (hS i).2 fun h => hi (Or.inl h)

/-- `run` fills `S`, starting from `a`. -/
structure Fills (run : Except ε (κ → α)) (S : Set κ) (f : κ → Except ε α) (a : κ → α) :
    Prop where
  ok_iff : ∀ b, run = .ok b ↔ Filled S f a b
  error : ∀ e, run = .error e → ∃ i ∈ S, f i = .error e

theorem Fills.ne_error {run : Except ε (κ → α)} (h : Fills run S f a) {e : ε}
    (hf : ∀ i ∈ S, f i ≠ .error e) : run ≠ .error e := by
  intro hrun
  obtain ⟨i, hi, he⟩ := h.error e hrun
  exact hf i hi he

/-- What holds of every element that is computed holds of every element that was written. -/
theorem Fills.post {run : Except ε (κ → α)} (h : Fills run S f a) (P : κ → α → Prop)
    (hf : ∀ i ∈ S, ∃ x, f i = .ok x ∧ P i x) :
    ∃ b, run = .ok b ∧ (∀ i ∈ S, P i (b i)) ∧ ∀ i ∉ S, b i = a i := by
  cases hrun : run with
  | error e =>
    obtain ⟨i, hi, he⟩ := h.error e hrun
    obtain ⟨x, hx, -⟩ := hf i hi
    rw [hx] at he
    cases he
  | ok b =>
    have hfilled := (h.ok_iff b).mp hrun
    refine ⟨b, rfl, fun i hi => ?_, fun i hi => (hfilled i).2 hi⟩
    obtain ⟨x, hx, hP⟩ := hf i hi
    obtain rfl := Except.ok.inj (hx.symm.trans ((hfilled i).1 hi))
    exact hP

/-- Two ways to fill a set. -/
theorem Fills.ok_iff_ok {run run' : Except ε (κ → α)} (h : Fills run S f a)
    (h' : Fills run' S f a) (b : κ → α) : run = .ok b ↔ run' = .ok b :=
  (h.ok_iff b).trans (h'.ok_iff b).symm

theorem fills_empty : Fills (.ok a) ∅ f a where
  ok_iff b := by
    rw [filled_empty, Except.ok.injEq, eq_comm]
  error e h := by cases h

/-- One write. -/
theorem fills_update [DecidableEq κ] (f : κ → Except ε α) (a : κ → α) (i : κ) :
    Fills (f i >>= fun x => .ok (Function.update a i x)) {i} f a := by
  cases hfi : f i with
  | error e =>
    refine ⟨fun b => ?_, fun e' he => ⟨i, rfl, ?_⟩⟩
    · rw [filled_singleton, hfi]
      refine iff_of_false (fun h => by cases h) ?_
      rintro ⟨x, hx, -⟩
      cases hx
    · rw [hfi]
      exact congrArg _ (Except.error.inj he)
  | ok x =>
    refine ⟨fun b => ?_, fun e he => by cases he⟩
    rw [filled_singleton, hfi]
    constructor
    · intro h
      exact ⟨x, rfl, (Except.ok.inj h).symm⟩
    · rintro ⟨y, hy, rfl⟩
      rw [Except.ok.inj hy]
      rfl

/-- **Composition.** -/
theorem Fills.bind {run : Except ε (κ → α)} {next : (κ → α) → Except ε (κ → α)}
    (hrun : Fills run S f a) (hdisj : Disjoint S T)
    (hnext : ∀ a₁, Filled S f a a₁ → Fills (next a₁) T f a₁) :
    Fills (run >>= next) (S ∪ T) f a := by
  cases hcase : run with
  | error e =>
    refine ⟨fun b => iff_of_false (fun h => by cases h) fun hfilled => ?_, fun e' he => ?_⟩
    · obtain ⟨a₁, ha₁, -⟩ := (filled_union hdisj).mp hfilled
      rw [(hrun.ok_iff a₁).mpr ha₁] at hcase
      cases hcase
    · obtain rfl := Except.error.inj he
      obtain ⟨i, hi, hfi⟩ := hrun.error e hcase
      exact ⟨i, Or.inl hi, hfi⟩
  | ok a₁ =>
    have ha₁ := (hrun.ok_iff a₁).mp hcase
    have htail := hnext a₁ ha₁
    refine ⟨fun b => ?_, fun e he => ?_⟩
    · rw [filled_union hdisj]
      refine (htail.ok_iff b).trans ⟨fun hb => ⟨a₁, ha₁, hb⟩, ?_⟩
      rintro ⟨a₂, ha₂, hb⟩
      obtain rfl := Except.ok.inj (hcase.symm.trans ((hrun.ok_iff a₂).mpr ha₂))
      exact hb
    · obtain ⟨i, hi, hfi⟩ := htail.error e he
      exact ⟨i, Or.inr hi, hfi⟩

/-- **A run over pairwise disjoint sets fills their union.** -/
theorem fills_foldlM {win : ι → Set κ} {step : (κ → α) → ι → Except ε (κ → α)} {l : List ι}
    (hdisj : l.Pairwise fun r s => Disjoint (win r) (win s))
    (hstep : ∀ r ∈ l, ∀ a', (∀ i ∈ win r, a' i = a i) → Fills (step a' r) (win r) f a') :
    Fills (l.foldlM step a) {i | ∃ r ∈ l, i ∈ win r} f a := by
  induction l generalizing a with
  | nil =>
    simp only [List.not_mem_nil, false_and, exists_false, Set.ofPred_false]
    exact fills_empty
  | cons r l ih =>
    obtain ⟨hhead, htail⟩ := List.pairwise_cons.mp hdisj
    have hset : {i | ∃ s ∈ r :: l, i ∈ win s} = win r ∪ {i | ∃ s ∈ l, i ∈ win s} := by
      ext i
      simp only [List.mem_cons, exists_eq_or_imp, Set.mem_union, Set.mem_ofPred_eq]
    have hrest : Disjoint (win r) {i | ∃ s ∈ l, i ∈ win s} := by
      rw [Set.disjoint_left]
      rintro i hi ⟨s, hs, his⟩
      exact Set.disjoint_left.mp (hhead s hs) hi his
    rw [hset, List.foldlM_cons]
    refine (hstep r List.mem_cons_self a fun i _ => rfl).bind hrest fun a₁ ha₁ => ?_
    -- What the first step wrote is outside the windows of the others.
    apply ih htail
    intro s hs a' ha'
    apply hstep s (List.mem_cons_of_mem r hs)
    intro i hi
    rw [ha' i hi]
    exact (ha₁ i).2 (Set.disjoint_right.mp (hhead s hs) hi)

end Fill
