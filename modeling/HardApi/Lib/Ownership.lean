import Mathlib.Data.Set.Function
import Mathlib.Data.Set.Pairwise.Basic
import Mathlib.Data.Finset.Insert
import Mathlib.Data.Finset.Erase

/-!
# Exclusive ownership

Owners `κ` hold blocks `β` out of a finite set of blocks that are handed out. `Exclusive` says that
every live owner's block is handed out and that no two live owners share one; it is kept when a
fresh block is handed to a new owner (`Exclusive.acquire`) and when an owner leaves with its block
(`Exclusive.release`). When handed-out blocks have disjoint extents, so have the blocks of
different owners.
-/

namespace Ownership

variable {κ β γ : Type*}
variable {live : Set κ} {own : κ → β} {held : Finset β} {k : κ} {b : β}

structure Exclusive (live : Set κ) (own : κ → β) (held : Finset β) : Prop where
  mem : ∀ k ∈ live, own k ∈ held
  inj : Set.InjOn own live

namespace Exclusive

theorem empty (own : κ → β) (held : Finset β) : Exclusive ∅ own held :=
  ⟨fun _ hk => hk.elim, Set.injOn_empty own⟩

theorem acquire [DecidableEq κ] [DecidableEq β] (h : Exclusive live own held) (hk : k ∉ live)
    (hb : b ∉ held) :
    Exclusive (insert k live) (Function.update own k b) (insert b held) := by
  have hold : ∀ k' ∈ live, Function.update own k b k' = own k' := fun k' hk' =>
    Function.update_of_ne (ne_of_mem_of_not_mem hk' hk) b own
  refine ⟨fun k' hk' => ?_, ?_⟩
  · rcases Set.mem_insert_iff.mp hk' with rfl | hk'
    · rw [Function.update_self]
      exact Finset.mem_insert_self b held
    · rw [hold k' hk']
      exact Finset.mem_insert_of_mem (h.mem k' hk')
  · rw [Set.injOn_insert hk]
    refine ⟨h.inj.congr fun k' hk' => (hold k' hk').symm, ?_⟩
    rintro ⟨k', hk', heq⟩
    rw [hold k' hk', Function.update_self] at heq
    exact hb (heq ▸ h.mem k' hk')

theorem release [DecidableEq β] (h : Exclusive live own held) (hk : k ∈ live) :
    Exclusive (live \ {k}) own (held.erase (own k)) := by
  refine ⟨fun k' hk' => ?_, h.inj.mono Set.sdiff_subset⟩
  refine Finset.mem_erase.mpr ⟨fun heq => hk'.2 ?_, h.mem k' hk'.1⟩
  exact h.inj hk'.1 hk heq

/-- Disjoint blocks make disjoint owners. -/
theorem disjoint [PartialOrder γ] [OrderBot γ] {extent : β → γ} (h : Exclusive live own held)
    (hheld : (held : Set β).PairwiseDisjoint extent) {k k' : κ} (hk : k ∈ live) (hk' : k' ∈ live)
    (hne : k ≠ k') : Disjoint (extent (own k)) (extent (own k')) :=
  hheld (h.mem k hk) (h.mem k' hk') fun heq => hne (h.inj hk hk' heq)

end Exclusive

end Ownership
