import Mathlib.Combinatorics.Pigeonhole
import Mathlib.Data.List.Nodup
import Mathlib.Logic.Relation

/-!
# Loops without a bound of their own

`round s` is one round of a loop in the state `s`: it goes on in another state, or it ends with a
result. `rounds round n s` is the result if there is one within `n` rounds, and `Ends round s n b`
says that it comes in the `n`th. A loop that goes on from at most `N` places ends within `N + 1`
rounds or never (`Ends.le_of_bounded`), and never exactly when it comes back to a place where it
has been (`never_ends_iff`).
-/

namespace Loop

variable {σ β : Type*} {round : σ → σ ⊕ β} {s t : σ} {n m : ℕ} {b b' : β}

def rounds (round : σ → σ ⊕ β) : ℕ → σ → Option β
  | 0, _ => none
  | n + 1, s =>
    match round s with
    | .inl t => rounds round n t
    | .inr b => some b

inductive Ends (round : σ → σ ⊕ β) : σ → ℕ → β → Prop where
  | now {s : σ} {b : β} (h : round s = .inr b) : Ends round s 1 b
  | later {s t : σ} {n : ℕ} {b : β} (h : round s = .inl t) (ht : Ends round t n b) :
      Ends round s (n + 1) b

theorem Ends.unique (h : Ends round s n b) (h' : Ends round s m b') : n = m ∧ b = b' := by
  induction h generalizing m with
  | now hb =>
    cases h' with
    | now hb' => exact ⟨rfl, Sum.inr.inj (hb.symm.trans hb')⟩
    | later ht _ => exact absurd (hb.symm.trans ht) (by simp)
  | later ht _ ih =>
    cases h' with
    | now hb' => exact absurd (ht.symm.trans hb') (by simp)
    | later ht' hend' =>
      obtain rfl := Sum.inl.inj (ht.symm.trans ht')
      obtain ⟨rfl, rfl⟩ := ih hend'
      exact ⟨rfl, rfl⟩

theorem ends_iff_of_now (h : round s = .inr b) : Ends round s n b' ↔ n = 1 ∧ b' = b := by
  constructor
  · intro hend
    exact hend.unique (.now h)
  · rintro ⟨rfl, rfl⟩
    exact .now h

theorem ends_succ_iff (h : round s = .inl t) : Ends round s (n + 1) b ↔ Ends round t n b := by
  constructor
  · intro hend
    cases hend with
    | now hb => exact absurd (hb.symm.trans h) (by simp)
    | later ht hend =>
      obtain rfl := Sum.inl.inj (ht.symm.trans h)
      exact hend
  · exact .later h

theorem not_ends_zero : ¬ Ends round s 0 b := by
  rintro ⟨⟩

theorem rounds_eq_some_iff : rounds round n s = some b ↔ ∃ m, m ≤ n ∧ Ends round s m b := by
  constructor
  · intro h
    induction n generalizing s with
    | zero => cases h
    | succ n ih =>
      unfold rounds at h
      split at h
      case h_1 t ht =>
        obtain ⟨m, hm, hend⟩ := ih h
        exact ⟨m + 1, by omega, .later ht hend⟩
      case h_2 b' hb =>
        obtain rfl := Option.some.inj h
        exact ⟨1, by omega, .now hb⟩
  · rintro ⟨m, hm, hend⟩
    obtain ⟨d, rfl⟩ := Nat.exists_eq_add_of_le hm
    clear hm
    induction hend with
    | now hb =>
      rw [Nat.add_comm, rounds, hb]
    | later ht _ ih =>
      rw [Nat.add_right_comm, rounds, ht]
      exact ih

theorem rounds_of_ends (h : Ends round s n b) (hn : n ≤ m) : rounds round m s = some b :=
  rounds_eq_some_iff.mpr ⟨n, hn, h⟩

/-- A loop whose measure falls in every round ends. -/
theorem exists_ends (measure : σ → ℕ) (h : ∀ s t, round s = .inl t → measure t < measure s)
    (s : σ) : ∃ n b, n ≤ measure s + 1 ∧ Ends round s n b := by
  induction hk : measure s using Nat.strongRecOn generalizing s with
  | ind k ih =>
    cases hs : round s with
    | inl t =>
      have hlt := h s t hs
      obtain ⟨n, b, hn, hend⟩ := ih (measure t) (by omega) t rfl
      exact ⟨n + 1, b, by omega, .later hs hend⟩
    | inr b => exact ⟨1, b, by omega, .now hs⟩

/-- The places from which a loop goes on before it ends are all different: from each of them it
has fewer rounds to go than from the ones before. -/
theorem Ends.visited (h : Ends round s n b) : ∃ l : List σ, l.Nodup ∧ n = l.length + 1 ∧
    ∀ t ∈ l, (∃ t', round t = .inl t') ∧ ∃ m b', m ≤ n ∧ Ends round t m b' := by
  induction h with
  | now => exact ⟨[], List.nodup_nil, rfl, by simp⟩
  | @later s t n b hs ht ih =>
    obtain ⟨l, hnodup, hlen, hl⟩ := ih
    refine ⟨s :: l, List.nodup_cons.mpr ⟨fun hmem => ?_, hnodup⟩, by simp [hlen], ?_⟩
    · obtain ⟨-, m, b', hm, hend⟩ := hl s hmem
      have hsame := (Ends.later hs ht).unique hend
      omega
    · intro u hu
      rcases List.mem_cons.mp hu with rfl | hu
      · exact ⟨⟨t, hs⟩, n + 1, b, le_rfl, .later hs ht⟩
      · obtain ⟨hgo, m, b', hm, hend⟩ := hl u hu
        exact ⟨hgo, m, b', by omega, hend⟩

/-- **A bound that is always enough.** -/
theorem Ends.le_of_bounded {N : ℕ} (place : σ → ℕ)
    (hplace : ∀ s t, round s = .inl t → place s < N)
    (hinj : ∀ s s' t t', round s = .inl t → round s' = .inl t' → place s = place s' → s = s')
    (h : Ends round s n b) : n ≤ N + 1 := by
  obtain ⟨l, hnodup, rfl, hl⟩ := h.visited
  have hmap : (l.map place).Nodup := by
    apply List.Nodup.map_on _ hnodup
    intro t ht t' ht' heq
    obtain ⟨⟨u, hu⟩, -⟩ := hl t ht
    obtain ⟨⟨u', hu'⟩, -⟩ := hl t' ht'
    exact hinj t t' u u' hu hu' heq
  have hsub : (l.map place).toFinset ⊆ Finset.range N := by
    intro i hi
    obtain ⟨t, ht, rfl⟩ := List.mem_map.mp (List.mem_toFinset.mp hi)
    obtain ⟨⟨u, hu⟩, -⟩ := hl t ht
    exact Finset.mem_range.mpr (hplace t u hu)
  have hcard := Finset.card_le_card hsub
  rw [List.toFinset_card_of_nodup hmap, List.length_map, Finset.card_range] at hcard
  omega

/-! ## Loops that never end -/

def Goes (round : σ → σ ⊕ β) (s t : σ) : Prop := round s = .inl t

theorem Ends.of_goes (h : Ends round s n b) (hgo : Goes round s t) :
    ∃ m, m < n ∧ Ends round t m b := by
  cases h with
  | now hb => exact absurd (hb.symm.trans hgo) (by simp)
  | later ht hend =>
    obtain rfl := Sum.inl.inj (ht.symm.trans hgo)
    exact ⟨_, by omega, hend⟩

theorem Ends.of_transGen (h : Ends round s n b) (hgo : Relation.TransGen (Goes round) s t) :
    ∃ m, m < n ∧ Ends round t m b := by
  induction hgo with
  | single hgo => exact h.of_goes hgo
  | tail _ hgo ih =>
    obtain ⟨m, hm, hend⟩ := ih
    obtain ⟨m', hm', hend'⟩ := hend.of_goes hgo
    exact ⟨m', by omega, hend'⟩

/-- The places a loop comes to; it stays where it ends. -/
def orbit (round : σ → σ ⊕ β) (s : σ) : ℕ → σ
  | 0 => s
  | n + 1 =>
    match round (orbit round s n) with
    | .inl t => t
    | .inr _ => orbit round s n

theorem goes_orbit (h : ∀ n b, ¬ Ends round s n b) (n : ℕ) :
    Goes round (orbit round s n) (orbit round s (n + 1)) ∧
      ∀ m b, ¬ Ends round (orbit round s (n + 1)) m b := by
  have hstep : ∀ k, (∀ m b, ¬ Ends round (orbit round s k) m b) →
      Goes round (orbit round s k) (orbit round s (k + 1)) ∧
        ∀ m b, ¬ Ends round (orbit round s (k + 1)) m b := by
    intro k hk
    cases hround : round (orbit round s k) with
    | inr b => exact absurd (.now hround) (hk 1 b)
    | inl t =>
      have hnext : orbit round s (k + 1) = t := by
        rw [orbit, hround]
      rw [hnext]
      exact ⟨hround, fun m b hend => hk (m + 1) b (.later hround hend)⟩
  induction n with
  | zero => exact hstep 0 h
  | succ n ih => exact hstep (n + 1) ih.2

theorem transGen_orbit (h : ∀ n b, ¬ Ends round s n b) {i j : ℕ} (hij : i < j) :
    Relation.TransGen (Goes round) (orbit round s i) (orbit round s j) := by
  induction j with
  | zero => omega
  | succ j ih =>
    rcases Nat.lt_succ_iff_lt_or_eq.mp hij with hlt | rfl
    · exact (ih hlt).tail (goes_orbit h j).1
    · exact .single (goes_orbit h i).1

/-- **Never is coming back.** -/
theorem never_ends_iff {N : ℕ} (place : σ → ℕ)
    (hplace : ∀ s t, round s = .inl t → place s < N)
    (hinj : ∀ s s' t t', round s = .inl t → round s' = .inl t' → place s = place s' → s = s') :
    (∀ n b, ¬ Ends round s n b) ↔
      ∃ t, Relation.ReflTransGen (Goes round) s t ∧ Relation.TransGen (Goes round) t t := by
  constructor
  · intro h
    have hmaps : ∀ i ∈ Finset.range (N + 1), place (orbit round s i) ∈ Finset.range N :=
      fun i _ => Finset.mem_range.mpr (hplace _ _ (goes_orbit h i).1)
    obtain ⟨i, -, j, -, hne, heq⟩ :=
      Finset.exists_ne_map_eq_of_card_lt_of_maps_to (by simp) hmaps
    have hsame := hinj _ _ _ _ (goes_orbit h i).1 (goes_orbit h j).1 heq
    have hreach : ∀ k, Relation.ReflTransGen (Goes round) s (orbit round s k) := by
      intro k
      rcases Nat.eq_zero_or_pos k with rfl | hk
      · exact .refl
      · exact (transGen_orbit h hk).to_reflTransGen
    rcases Nat.lt_or_gt_of_ne hne with hlt | hlt
    · have hgo := transGen_orbit h hlt
      rw [← hsame] at hgo
      exact ⟨_, hreach i, hgo⟩
    · have hgo := transGen_orbit h hlt
      rw [hsame] at hgo
      exact ⟨_, hreach j, hgo⟩
  · rintro ⟨t, hreach, hcycle⟩ n b hend
    obtain ⟨m, b', hend'⟩ : ∃ m b', Ends round t m b' := by
      rcases Relation.reflTransGen_iff_eq_or_transGen.mp hreach with rfl | hgo
      · exact ⟨n, b, hend⟩
      · obtain ⟨m, -, hend'⟩ := hend.of_transGen hgo
        exact ⟨m, b, hend'⟩
    obtain ⟨m', hm', hend''⟩ := hend'.of_transGen hcycle
    have hunique := (hend'.unique hend'').1
    omega

end Loop
