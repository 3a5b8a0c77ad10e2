import Mathlib.Data.List.Basic
import Mathlib.Logic.Basic

/-!
# Runs of writes into disjoint windows

`f d i` is one write, fallible, of the item `i` into the array `d`, and `win i` the indices it may
touch. A run of writes leaves every index outside the windows alone (`foldlM_frame`), and when the
windows are pairwise disjoint each item's result is still there at the end, whatever came after it
(`foldlM_post`). What a run reports is what one of its writes reports (`foldlM_ne_error`,
`foldlM_eq_error`).
-/

namespace Windows

variable {ι α ε : Type*} {f : (ℕ → α) → ι → Except ε (ℕ → α)} {win : ι → ℕ → Prop}

theorem foldlM_cons_ok {i : ι} {l : List ι} {d d' : ℕ → α}
    (h : (i :: l).foldlM f d = .ok d') : ∃ d₁, f d i = .ok d₁ ∧ l.foldlM f d₁ = .ok d' := by
  rw [List.foldlM_cons] at h
  cases hd : f d i with
  | error e =>
    rw [hd] at h
    cases h
  | ok d₁ =>
    rw [hd] at h
    exact ⟨d₁, rfl, h⟩

/-- What lies outside every window is unchanged. -/
theorem foldlM_frame (hframe : ∀ d i d', f d i = .ok d' → ∀ k, ¬ win i k → d' k = d k)
    {l : List ι} {d d' : ℕ → α} (h : l.foldlM f d = .ok d') {k : ℕ} (hk : ∀ i ∈ l, ¬ win i k) :
    d' k = d k := by
  induction l generalizing d with
  | nil =>
    obtain rfl := Except.ok.inj h
    rfl
  | cons i l ih =>
    obtain ⟨d₁, hd₁, hl⟩ := foldlM_cons_ok h
    rw [ih hl fun j hj => hk j (List.mem_cons_of_mem i hj)]
    exact hframe d i d₁ hd₁ k (hk i List.mem_cons_self)

/-- What a write establishes about its own window survives the writes after it. -/
theorem foldlM_post {Post : ι → (ℕ → α) → Prop}
    (hframe : ∀ d i d', f d i = .ok d' → ∀ k, ¬ win i k → d' k = d k)
    (hpost : ∀ d i d', f d i = .ok d' → Post i d')
    (hlocal : ∀ i d d', (∀ k, win i k → d' k = d k) → Post i d → Post i d')
    {l : List ι} (hdisj : l.Pairwise fun i j => ∀ k, win i k → ¬ win j k)
    {d d' : ℕ → α} (h : l.foldlM f d = .ok d') : ∀ i ∈ l, Post i d' := by
  induction l generalizing d with
  | nil => simp
  | cons i l ih =>
    obtain ⟨d₁, hd₁, hl⟩ := foldlM_cons_ok h
    obtain ⟨hhead, htail⟩ := List.pairwise_cons.mp hdisj
    intro j hj
    rcases List.mem_cons.mp hj with rfl | hj
    · refine hlocal j d₁ d' (fun k hk => ?_) (hpost d j d₁ hd₁)
      exact foldlM_frame hframe hl fun m hm => hhead m hm k hk
    · exact ih htail hl j hj

/-- A run succeeds when every write does, from any array. -/
theorem foldlM_total {l : List ι} (h : ∀ d, ∀ i ∈ l, ∃ d', f d i = .ok d') (d : ℕ → α) :
    ∃ d', l.foldlM f d = .ok d' := by
  induction l generalizing d with
  | nil => exact ⟨d, rfl⟩
  | cons i l ih =>
    obtain ⟨d₁, hd₁⟩ := h d i List.mem_cons_self
    obtain ⟨d', hd'⟩ := ih (fun d j hj => h d j (List.mem_cons_of_mem i hj)) d₁
    refine ⟨d', ?_⟩
    rw [List.foldlM_cons, hd₁]
    exact hd'

/-- An error that no write reports is not reported by a run. -/
theorem foldlM_ne_error {e : ε} {l : List ι} (h : ∀ d, ∀ i ∈ l, f d i ≠ .error e) (d : ℕ → α) :
    l.foldlM f d ≠ .error e := by
  induction l generalizing d with
  | nil =>
    intro he
    cases he
  | cons i l ih =>
    rw [List.foldlM_cons]
    cases hd : f d i with
    | error e' =>
      intro he
      obtain rfl := Except.error.inj he
      exact h d i List.mem_cons_self hd
    | ok d₁ => exact ih (fun d j hj => h d j (List.mem_cons_of_mem i hj)) d₁

/-- If the writes of a list succeed or report `e`, and one of them always reports it, then so does
the run, whatever is left to write after the list. -/
theorem foldlM_eq_error {e : ε} {l : List ι}
    (h : ∀ d, ∀ i ∈ l, (∃ d', f d i = .ok d') ∨ f d i = .error e)
    (hfail : ∃ i ∈ l, ∀ d, f d i = .error e) (rest : List ι) (d : ℕ → α) :
    (l ++ rest).foldlM f d = .error e := by
  induction l generalizing d with
  | nil =>
    obtain ⟨i, hi, -⟩ := hfail
    cases hi
  | cons i l ih =>
    rw [List.cons_append, List.foldlM_cons]
    rcases h d i List.mem_cons_self with ⟨d₁, hd₁⟩ | he
    · obtain ⟨j, hj, hjfail⟩ := hfail
      rw [hd₁]
      refine ih (fun d k hk => h d k (List.mem_cons_of_mem i hk)) ⟨j, ?_, hjfail⟩ d₁
      rcases List.mem_cons.mp hj with rfl | hj
      · rw [hjfail] at hd₁
        cases hd₁
      · exact hj
    · rw [he]
      rfl

end Windows
