import HardApi.Lib.Schedule
import Mathlib.Logic.Function.Basic

/-!
# A host and cores that shake hands

The block-level protocol of a core with a control register: the host sets `start`, the core works
in the memory the two share, and the host polls the register until it finds a status it accepts.
`done` and `ready` are cleared by every read; `start` is cleared when the core hands it over, at its
end or, for a core that can take its next input `early`, at any time while it works.

Host and cores are programs whose steps are single accesses to the memory, and any actor can take
the next step. `State.meaning` is what an execution without interleaving would still do from a
state; every step of every actor keeps it (`Moves.meaning`), so a program that ends has done what it
does alone (`run_of_ret`). Under a fair schedule it ends (`exists_ended`). What the host may accept
is `System.Sound`; `premature` is what happens if it accepts a register that is all zero.
-/

namespace Handshake

/-! ## Programs -/

/-- The control register. -/
structure Control where
  start : Bool
  done : Bool
  idle : Bool
  ready : Bool
  deriving DecidableEq, Repr

variable {M κ ρ β γ : Type*}

/-- What a core does when it is started; its end carries the return value. -/
inductive Act (M ρ : Type*) where
  | ret (r : ρ)
  | step (f : M → M) (k : M → Act M ρ)

/-- What the host does. A step maps the memory to the next one, and the rest depends on what it
has read; `call` starts a core, waits for it and reads the return value. -/
inductive Prog (M κ ρ β : Type*) where
  | ret (b : β)
  | fault
  | step (f : M → M) (k : M → Prog M κ ρ β)
  | call (c : κ) (k : ρ → Prog M κ ρ β)

def Act.run : Act M ρ → M → M × ρ
  | ret r, m => (m, r)
  | step f k, m => (k m).run (f m)

/-- The steps of a core from the start on, its end included. -/
def Act.cost : Act M ρ → M → ℕ
  | ret _, _ => 1
  | step f k, m => (k m).cost (f m) + 1

namespace Prog

/-- The program alone, with cores that work in one step. -/
def run (act : κ → Act M ρ) : Prog M κ ρ β → M → Option (M × β)
  | ret b, m => some (m, b)
  | fault, _ => none
  | step f k, m => (k m).run act (f m)
  | call c k, m => (k ((act c).run m).2).run act ((act c).run m).1

/-- The steps that are left: a call starts the core, the core begins and works, and the host polls
at most twice afterwards and reads the return value. -/
def cost (act : κ → Act M ρ) : Prog M κ ρ β → M → ℕ
  | ret _, _ => 0
  | fault, _ => 0
  | step f k, m => (k m).cost act (f m) + 1
  | call c k, m => (k ((act c).run m).2).cost act ((act c).run m).1 + (act c).cost m + 5

def bind : Prog M κ ρ β → (β → Prog M κ ρ γ) → Prog M κ ρ γ
  | ret b, g => g b
  | fault, _ => fault
  | step f k, g => step f fun m => (k m).bind g
  | call c k, g => call c fun r => (k r).bind g

@[simp] theorem run_ret (act : κ → Act M ρ) (b : β) (m : M) :
    (ret b : Prog M κ ρ β).run act m = some (m, b) := rfl

@[simp] theorem run_fault (act : κ → Act M ρ) (m : M) :
    (fault : Prog M κ ρ β).run act m = none := rfl

@[simp] theorem run_step (act : κ → Act M ρ) (f : M → M) (k : M → Prog M κ ρ β) (m : M) :
    (step f k).run act m = (k m).run act (f m) := rfl

@[simp] theorem run_call (act : κ → Act M ρ) (c : κ) (k : ρ → Prog M κ ρ β) (m : M) :
    (call c k).run act m = (k ((act c).run m).2).run act ((act c).run m).1 := rfl

theorem run_bind (act : κ → Act M ρ) (p : Prog M κ ρ β) (g : β → Prog M κ ρ γ) (m : M) :
    (p.bind g).run act m = (p.run act m).bind fun mb => (g mb.2).run act mb.1 := by
  induction p generalizing m with
  | ret b => rfl
  | fault => rfl
  | step f k ih => exact ih m (f m)
  | call c k ih => exact ih _ _

/-- The stores one after another. -/
def stores : List (M → M) → Prog M κ ρ β → Prog M κ ρ β
  | [], p => p
  | f :: fs, p => step f fun _ => stores fs p

/-- The loads one after another; the rest gets what they found. -/
def loads {α : Type*} : List (M → α) → (List α → Prog M κ ρ β) → Prog M κ ρ β
  | [], k => k []
  | f :: fs, k => step id fun m => loads fs fun as => k (f m :: as)

theorem run_stores (act : κ → Act M ρ) (fs : List (M → M)) (p : Prog M κ ρ β) (m : M) :
    (stores fs p).run act m = p.run act (fs.foldl (fun m f => f m) m) := by
  induction fs generalizing m with
  | nil => rfl
  | cons f fs ih => exact ih (f m)

theorem run_loads {α : Type*} (act : κ → Act M ρ) (fs : List (M → α))
    (k : List α → Prog M κ ρ β) (m : M) :
    (loads fs k).run act m = (k (fs.map fun f => f m)).run act m := by
  induction fs generalizing k with
  | nil => rfl
  | cons f fs ih => exact ih fun as => k (f m :: as)

end Prog

namespace Act

def stores : List (M → M) → Act M ρ → Act M ρ
  | [], a => a
  | f :: fs, a => step f fun _ => stores fs a

def loads {α : Type*} : List (M → α) → (List α → Act M ρ) → Act M ρ
  | [], k => k []
  | f :: fs, k => step id fun m => loads fs fun as => k (f m :: as)

theorem run_stores (fs : List (M → M)) (a : Act M ρ) (m : M) :
    (stores fs a).run m = a.run (fs.foldl (fun m f => f m) m) := by
  induction fs generalizing m with
  | nil => rfl
  | cons f fs ih => exact ih (f m)

theorem run_loads {α : Type*} (fs : List (M → α)) (k : List α → Act M ρ) (m : M) :
    (loads fs k).run m = (k (fs.map fun f => f m)).run m := by
  induction fs generalizing k with
  | nil => rfl
  | cons f fs ih => exact ih fun as => k (f m :: as)

end Act

/-! ## States and steps -/

/-- A core; `handed` says that it has handed `start` over while it works. -/
inductive Core (M ρ : Type*) where
  | waiting
  | running (a : Act M ρ) (handed : Bool)

inductive Host (M κ ρ β : Type*) where
  | running (p : Prog M κ ρ β)
  | polling (c : κ) (k : ρ → Prog M κ ρ β)
  | returning (c : κ) (k : ρ → Prog M κ ρ β)

structure State (M κ ρ β : Type*) where
  mem : M
  host : Host M κ ρ β
  control : κ → Control
  /-- The return register of each core. -/
  register : κ → ρ
  core : κ → Core M ρ

inductive Actor (κ : Type*) where
  | host
  | core (c : κ)
  /-- A core hands `start` over before its end. -/
  | handOver (c : κ)

structure System (M κ ρ : Type*) where
  act : κ → Act M ρ
  /-- The statuses that end the host's wait. -/
  accepts : Control → Bool
  /-- Whether cores hand `start` over before their end. -/
  early : Bool

variable [DecidableEq κ]

namespace System

variable (sys : System M κ ρ)

/-- The bits that a read leaves. -/
def clearOnRead (control : Control) : Control := { control with done := false, ready := false }

def nextHost (s : State M κ ρ β) : State M κ ρ β :=
  match s.host with
  | .running (.ret _) => s
  | .running .fault => s
  | .running (.step f k) => { s with mem := f s.mem, host := .running (k s.mem) }
  | .running (.call c k) =>
    { s with
      control := Function.update s.control c { s.control c with start := true }
      host := .polling c k }
  | .polling c k =>
    { s with
      control := Function.update s.control c (clearOnRead (s.control c))
      host := if sys.accepts (s.control c) then .returning c k else .polling c k }
  | .returning c k => { s with host := .running (k (s.register c)) }

def nextCore (s : State M κ ρ β) (c : κ) : State M κ ρ β :=
  match s.core c with
  | .waiting =>
    if (s.control c).start then
      { s with
        control := Function.update s.control c { s.control c with idle := false }
        core := Function.update s.core c (.running (sys.act c) false) }
    else s
  | .running (.step f k) handed =>
    { s with mem := f s.mem, core := Function.update s.core c (.running (k s.mem) handed) }
  | .running (.ret r) handed =>
    { s with
      register := Function.update s.register c r
      control := Function.update s.control c
        (if handed then { s.control c with done := true, idle := true }
          else ⟨false, true, true, true⟩)
      core := Function.update s.core c .waiting }

def handOver (s : State M κ ρ β) (c : κ) : State M κ ρ β :=
  match s.core c with
  | .running a false =>
    if sys.early then
      { s with
        control := Function.update s.control c { s.control c with start := false, ready := true }
        core := Function.update s.core c (.running a true) }
    else s
  | _ => s

def next (s : State M κ ρ β) : Actor κ → State M κ ρ β
  | .host => sys.nextHost s
  | .core c => sys.nextCore s c
  | .handOver c => sys.handOver s c

/-- An accepted register belongs to a core that has ended. -/
structure Sound : Prop where
  start : ∀ control, sys.accepts control = true → control.start = false
  idle : sys.early = true → ∀ control, sys.accepts control = true → control.idle = true

end System

namespace State

/-- The core waits and its register says so. -/
def Quiet (s : State M κ ρ β) (c : κ) : Prop :=
  s.core c = .waiting ∧ (s.control c).start = false ∧ (s.control c).idle = true

/-- The core that the host polls. -/
def Called (sys : System M κ ρ) (s : State M κ ρ β) (c : κ) : Prop :=
  match s.core c with
  | .waiting => (s.control c).idle = true
  | .running _ handed => (s.control c).idle = false ∧ (s.control c).start = !handed ∧
      (handed = true → sys.early = true)

/-- Only the core that the host polls may be at work. -/
def Tidy (sys : System M κ ρ) (s : State M κ ρ β) : Prop :=
  match s.host with
  | .polling c _ => s.Called sys c ∧ ∀ c', c' ≠ c → s.Quiet c'
  | _ => ∀ c, s.Quiet c

/-- What is left to do, without interleaving. -/
def meaning (sys : System M κ ρ) (s : State M κ ρ β) : Option (M × β) :=
  match s.host with
  | .running p => p.run sys.act s.mem
  | .returning c k => (k (s.register c)).run sys.act s.mem
  | .polling c k =>
    match s.core c with
    | .running a _ => (k (a.run s.mem).2).run sys.act (a.run s.mem).1
    | .waiting =>
      if (s.control c).start then (Prog.call c k).run sys.act s.mem
      else (k (s.register c)).run sys.act s.mem

/-- The polls after the end of a core: one that reads and clears `done` or `ready`, one that is
accepted. -/
def polls (control : Control) : ℕ := if control.done || control.ready then 2 else 1

/-- How many steps that takes. -/
def cost (sys : System M κ ρ) (s : State M κ ρ β) : ℕ :=
  match s.host with
  | .running p => p.cost sys.act s.mem
  | .returning c k => (k (s.register c)).cost sys.act s.mem + 1
  | .polling c k =>
    match s.core c with
    | .running a _ => (k (a.run s.mem).2).cost sys.act (a.run s.mem).1 + a.cost s.mem + 3
    | .waiting =>
      if (s.control c).start then
        (k ((sys.act c).run s.mem).2).cost sys.act ((sys.act c).run s.mem).1
          + (sys.act c).cost s.mem + 4
      else (k (s.register c)).cost sys.act s.mem + 1 + polls (s.control c)

/-- Who can bring the program forward. -/
def helpful (s : State M κ ρ β) : Actor κ :=
  match s.host with
  | .polling c _ =>
    match s.core c with
    | .running _ _ => .core c
    | .waiting => if (s.control c).start then .core c else .host
  | _ => .host

def Ended (s : State M κ ρ β) : Prop :=
  (∃ b, s.host = .running (.ret b)) ∨ s.host = .running .fault

/-- The host has taken a status for the end of a core that is still at work. -/
def Premature (s : State M κ ρ β) : Prop :=
  ∃ c k a handed, s.host = .returning c k ∧ s.core c = .running a handed

end State

/-! ## What a step can do -/

/-- The steps from tidy states; `sleep` is an actor with nothing to do. -/
inductive Moves (sys : System M κ ρ) (s : State M κ ρ β) : Actor κ → State M κ ρ β → Prop where
  | sleep (a : Actor κ) (hend : a = .host → s.Ended) (hhelp : a ≠ .host → a ≠ s.helpful) :
      Moves sys s a s
  | work (f : M → M) (k : M → Prog M κ ρ β) (hhost : s.host = .running (.step f k)) :
      Moves sys s .host { s with mem := f s.mem, host := .running (k s.mem) }
  | start (c : κ) (k : ρ → Prog M κ ρ β) (hhost : s.host = .running (.call c k))
      (hcore : s.core c = .waiting) :
      Moves sys s .host
        { s with
          control := Function.update s.control c { s.control c with start := true }
          host := .polling c k }
  | poll (c : κ) (k : ρ → Prog M κ ρ β) (hhost : s.host = .polling c k)
      (hseen : sys.accepts (s.control c) = false) :
      Moves sys s .host
        { s with
          control := Function.update s.control c (System.clearOnRead (s.control c)) }
  | accept (c : κ) (k : ρ → Prog M κ ρ β) (hhost : s.host = .polling c k)
      (hcore : s.core c = .waiting) (hstart : (s.control c).start = false) :
      Moves sys s .host
        { s with
          control := Function.update s.control c (System.clearOnRead (s.control c))
          host := .returning c k }
  | read (c : κ) (k : ρ → Prog M κ ρ β) (hhost : s.host = .returning c k) :
      Moves sys s .host { s with host := .running (k (s.register c)) }
  | begin (c : κ) (k : ρ → Prog M κ ρ β) (hhost : s.host = .polling c k)
      (hcore : s.core c = .waiting) (hstart : (s.control c).start = true) :
      Moves sys s (.core c)
        { s with
          control := Function.update s.control c { s.control c with idle := false }
          core := Function.update s.core c (.running (sys.act c) false) }
  | compute (c : κ) (k : ρ → Prog M κ ρ β) (f : M → M) (k' : M → Act M ρ) (handed : Bool)
      (hhost : s.host = .polling c k) (hcore : s.core c = .running (.step f k') handed) :
      Moves sys s (.core c)
        { s with mem := f s.mem, core := Function.update s.core c (.running (k' s.mem) handed) }
  | finish (c : κ) (k : ρ → Prog M κ ρ β) (r : ρ) (handed : Bool) (control : Control)
      (hhost : s.host = .polling c k) (hcore : s.core c = .running (.ret r) handed)
      (hidle : control.idle = true) (hstart : control.start = false) :
      Moves sys s (.core c)
        { s with
          register := Function.update s.register c r
          control := Function.update s.control c control
          core := Function.update s.core c .waiting }
  | hand (c : κ) (k : ρ → Prog M κ ρ β) (a : Act M ρ) (hhost : s.host = .polling c k)
      (hcore : s.core c = .running a false) (hearly : sys.early = true) :
      Moves sys s (.handOver c)
        { s with
          control := Function.update s.control c { s.control c with start := false, ready := true }
          core := Function.update s.core c (.running a true) }

section
variable {sys : System M κ ρ} {s s' : State M κ ρ β} {a : Actor κ}

theorem nextCore_of_quiet {c : κ} (h : s.Quiet c) : sys.nextCore s c = s := by
  simp [System.nextCore, h.1, h.2.1]

theorem handOver_of_waiting {c : κ} (h : s.core c = .waiting) : sys.handOver s c = s := by
  simp [System.handOver, h]

theorem moves_host (hsound : sys.Sound) (h : s.Tidy sys) :
    Moves sys s .host (sys.nextHost s) := by
  unfold System.nextHost
  split
  case h_1 b hhost => exact .sleep _ (fun _ => Or.inl ⟨b, hhost⟩) (absurd rfl)
  case h_2 hhost => exact .sleep _ (fun _ => Or.inr hhost) (absurd rfl)
  case h_3 f k hhost => exact .work f k hhost
  case h_4 c k hhost =>
    simp only [State.Tidy, hhost] at h
    exact .start c k hhost (h c).1
  case h_5 c k hhost =>
    cases hseen : sys.accepts (s.control c) with
    | false =>
      have hmove : Moves sys s .host _ := .poll c k hhost hseen
      rw [← hhost]
      exact hmove
    | true =>
      have hstart := hsound.start _ hseen
      simp only [State.Tidy, hhost, State.Called] at h
      cases hcore : s.core c with
      | waiting => exact .accept c k hhost hcore hstart
      | running a handed =>
        -- A core at work has handed `start` over, so it is an early one; but then it is idle.
        rw [hcore] at h
        obtain ⟨⟨hidle, hhanded, hearly⟩, -⟩ := h
        rw [hstart] at hhanded
        cases handed with
        | false => cases hhanded
        | true => rw [hsound.idle (hearly rfl) _ hseen] at hidle; cases hidle
  case h_6 c k hhost => exact .read c k hhost

/-- A core that is not waiting is the one the host polls. -/
theorem quiet_or_polling (h : s.Tidy sys) (c : κ) :
    (s.Quiet c ∧ s.helpful ≠ .core c) ∨ ∃ k, s.host = .polling c k ∧ s.Called sys c := by
  unfold State.Tidy at h
  split at h
  case h_1 c₀ k hhost =>
    by_cases hc : c = c₀
    · subst hc
      exact Or.inr ⟨k, hhost, h.1⟩
    · refine Or.inl ⟨h.2 c hc, ?_⟩
      have hne : Actor.core c₀ ≠ Actor.core c := by simpa using Ne.symm hc
      simp only [State.helpful, hhost]
      split
      · exact hne
      · split
        · exact hne
        · simp
  case h_2 hhost =>
    refine Or.inl ⟨h c, ?_⟩
    unfold State.helpful
    split
    case h_1 c₀ k hpolling => exact absurd hpolling (hhost c₀ k)
    case h_2 => simp

theorem moves_core (h : s.Tidy sys) (c : κ) : Moves sys s (.core c) (sys.nextCore s c) := by
  rcases quiet_or_polling h c with ⟨hquiet, hhelp⟩ | ⟨k, hhost, hcalled⟩
  · rw [nextCore_of_quiet hquiet]
    exact .sleep _ (by simp) fun _ => hhelp.symm
  · unfold System.nextCore
    unfold State.Called at hcalled
    cases hcore : s.core c with
    | waiting =>
      cases hstart : (s.control c).start with
      | false =>
        refine .sleep _ (by simp) fun _ => ?_
        simp [State.helpful, hhost, hcore, hstart]
      | true => exact .begin c k hhost hcore hstart
    | running a handed =>
      rw [hcore] at hcalled
      cases a with
      | step f k' => exact .compute c k f k' handed hhost hcore
      | ret r =>
        obtain ⟨-, hstart, -⟩ := hcalled
        refine .finish c k r handed _ hhost hcore ?_ ?_
        · cases handed <;> rfl
        · cases handed with
          | false => rfl
          | true => exact hstart

theorem moves_handOver (h : s.Tidy sys) (c : κ) :
    Moves sys s (.handOver c) (sys.handOver s c) := by
  have hsleep : Moves sys s (.handOver c) s := by
    refine .sleep _ (by simp) fun _ => ?_
    unfold State.helpful
    split
    · split
      · simp
      · split <;> simp
    · simp
  rcases quiet_or_polling h c with ⟨hquiet, -⟩ | ⟨k, hhost, hcalled⟩
  · rw [handOver_of_waiting hquiet.1]
    exact hsleep
  · unfold System.handOver
    split
    case h_1 a hcore =>
      cases hearly : sys.early with
      | false => exact hsleep
      | true => exact .hand c k a hhost hcore hearly
    case h_2 => exact hsleep

theorem moves_next (hsound : sys.Sound) (h : s.Tidy sys) (a : Actor κ) :
    Moves sys s a (sys.next s a) := by
  cases a with
  | host => exact moves_host hsound h
  | core c => exact moves_core h c
  | handOver c => exact moves_handOver h c

/-! ## What every step keeps -/

theorem Moves.meaning (h : Moves sys s a s') : s'.meaning sys = s.meaning sys := by
  cases h with
  | sleep => rfl
  | work f k hhost => simp [State.meaning, hhost]
  | start c k hhost hcore => simp [State.meaning, hhost, hcore]
  | poll c k hhost hseen => simp [State.meaning, hhost, System.clearOnRead]
  | accept c k hhost hcore hstart => simp [State.meaning, hhost, hcore, hstart]
  | read c k hhost => simp [State.meaning, hhost]
  | begin c k hhost hcore hstart => simp [State.meaning, hhost, hcore, hstart]
  | compute c k f k' handed hhost hcore => simp [State.meaning, hhost, hcore, Act.run]
  | finish c k r handed control hhost hcore hidle hstart =>
    simp [State.meaning, hhost, hcore, hstart, Act.run]
  | hand c k a hhost hcore hearly => simp [State.meaning, hhost, hcore]

theorem Moves.tidy (h : Moves sys s a s') (hs : s.Tidy sys) : s'.Tidy sys := by
  cases h with
  | sleep => exact hs
  | work f k hhost | read c k hhost =>
    simp only [State.Tidy, hhost] at hs ⊢
    exact hs
  | start c k hhost hcore =>
    simp only [State.Tidy, hhost] at hs ⊢
    refine ⟨?_, fun c' hne => ?_⟩
    · simp [State.Called, hcore, (hs c).2.2]
    · simpa [State.Quiet, hne] using hs c'
  | poll c k hhost hseen =>
    simp only [State.Tidy, hhost] at hs ⊢
    refine ⟨?_, fun c' hne => ?_⟩
    · simpa [State.Called, System.clearOnRead] using hs.1
    · simpa [State.Quiet, hne] using hs.2 c' hne
  | accept c k hhost hcore hstart =>
    simp only [State.Tidy, hhost] at hs ⊢
    intro c'
    by_cases hc : c' = c
    · subst hc
      simpa [State.Quiet, State.Called, System.clearOnRead, hcore, hstart] using hs.1
    · simpa [State.Quiet, hc] using hs.2 c' hc
  | begin c k hhost hcore hstart =>
    simp only [State.Tidy, hhost] at hs ⊢
    refine ⟨by simp [State.Called, hstart], fun c' hne => ?_⟩
    simpa [State.Quiet, hne] using hs.2 c' hne
  | compute c k f k' handed hhost hcore =>
    simp only [State.Tidy, hhost] at hs ⊢
    refine ⟨?_, fun c' hne => ?_⟩
    · simpa [State.Called, hcore] using hs.1
    · simpa [State.Quiet, hne] using hs.2 c' hne
  | finish c k r handed control hhost hcore hidle hstart =>
    simp only [State.Tidy, hhost] at hs ⊢
    refine ⟨by simp [State.Called, hidle], fun c' hne => ?_⟩
    simpa [State.Quiet, hne] using hs.2 c' hne
  | hand c k a hhost hcore hearly =>
    simp only [State.Tidy, hhost] at hs ⊢
    refine ⟨?_, fun c' hne => ?_⟩
    · have hidle := hs.1
      simp only [State.Called, hcore] at hidle
      simp [State.Called, hidle.1, hearly]
    · simpa [State.Quiet, hne] using hs.2 c' hne

/-! ## Progress -/

theorem State.polls_pos (control : Control) : 0 < State.polls control := by
  unfold State.polls
  split <;> simp

theorem State.polls_lt (control : Control) : State.polls control < 3 := by
  unfold State.polls
  split <;> simp

/-- The status of a core that has ended, after a read. -/
def idleControl : Control := ⟨false, false, true, false⟩

/-- A poll is a step forward only when the core has ended: then the status it has not accepted had
a bit that the read has cleared. -/
theorem Moves.lowers_of_poll (hidle : sys.accepts idleControl = true) (hs : s.Tidy sys) {c : κ}
    {k : ρ → Prog M κ ρ β} (hhost : s.host = .polling c k)
    (hseen : sys.accepts (s.control c) = false) :
    let s' := { s with
      control := Function.update s.control c (System.clearOnRead (s.control c)) }
    s'.cost sys < s.cost sys ∨
      (Actor.host ≠ s.helpful ∧ s'.cost sys = s.cost sys ∧ s'.helpful = s.helpful) := by
  simp only [State.Tidy, hhost, State.Called] at hs
  cases hcore : s.core c with
  | running a handed =>
    right
    simp [State.cost, State.helpful, hhost, hcore]
  | waiting =>
    rw [hcore] at hs
    cases hstart : (s.control c).start with
    | true =>
      right
      simp [State.cost, State.helpful, hhost, hcore, hstart, System.clearOnRead]
    | false =>
      left
      have hbit : ((s.control c).done || (s.control c).ready) = true := by
        by_contra hnone
        obtain ⟨hdone, hready⟩ := by simpa using hnone
        have heq : s.control c = idleControl := by
          calc s.control c = ⟨(s.control c).start, (s.control c).done, (s.control c).idle,
                (s.control c).ready⟩ := rfl
            _ = idleControl := by rw [hstart, hdone, hs.1, hready, idleControl]
        rw [heq, hidle] at hseen
        cases hseen
      simp [State.cost, State.polls, hhost, hcore, hstart, hbit, System.clearOnRead]

theorem Moves.lowers (hidle : sys.accepts idleControl = true) (hs : s.Tidy sys)
    (hend : ¬ s.Ended) (h : Moves sys s a s') :
    s'.cost sys < s.cost sys ∨
      (a ≠ s.helpful ∧ s'.cost sys = s.cost sys ∧ s'.helpful = s.helpful) := by
  cases h with
  | sleep a hended hhelp =>
    right
    exact ⟨hhelp fun ha => hend (hended ha), rfl, rfl⟩
  | work f k hhost | read c k hhost =>
    left
    simp [State.cost, hhost, Prog.cost]
  | start c k hhost hcore =>
    left
    simp [State.cost, hhost, hcore, Prog.cost]
  | poll c k hhost hseen => exact Moves.lowers_of_poll hidle hs hhost hseen
  | accept c k hhost hcore hstart =>
    left
    simp [State.cost, hhost, hcore, hstart, State.polls_pos]
  | begin c k hhost hcore hstart =>
    left
    simp [State.cost, hhost, hcore, hstart]
  | compute c k f k' handed hhost hcore =>
    left
    simp [State.cost, hhost, hcore, Act.cost, Act.run]
  | finish c k r handed control hhost hcore hidle' hstart =>
    left
    have hpolls := State.polls_lt control
    simp [State.cost, hhost, hcore, hstart, Act.cost, Act.run]
    omega
  | hand c k a hhost hcore hearly =>
    right
    simp [State.cost, State.helpful, hhost, hcore]

theorem progress (hsound : sys.Sound) (hidle : sys.accepts idleControl = true) :
    Schedule.Progress (σ := State M κ ρ β) sys.next (State.Tidy sys) State.Ended (State.cost sys)
      State.helpful where
  preserves _ a hs := (moves_next hsound hs a).tidy hs
  lowers _ a hs hend := (moves_next hsound hs a).lowers hidle hs hend

/-- The actors that must not be forgotten. A core need not hand its `start` over early. -/
def essential (κ : Type*) : Set (Actor κ) := {a | ∀ c, a ≠ .handOver c}

omit [DecidableEq κ] in
theorem helpful_mem (s : State M κ ρ β) : s.helpful ∈ essential κ := by
  intro c
  unfold State.helpful
  split
  · split
    · simp
    · split <;> simp
  · simp

/-! ## Whole executions -/

variable {sched : ℕ → Actor κ}

theorem tidy_after (hsound : sys.Sound) (hs : s.Tidy sys) (sched : ℕ → Actor κ) (n : ℕ) :
    (Schedule.after sys.next s sched n).Tidy sys :=
  Schedule.after_preserves (State.Tidy sys) (fun _ a h => (moves_next hsound h a).tidy h) hs sched n

theorem meaning_after (hsound : sys.Sound) (hs : s.Tidy sys) (sched : ℕ → Actor κ) (n : ℕ) :
    (Schedule.after sys.next s sched n).meaning sys = s.meaning sys := by
  induction n with
  | zero => rfl
  | succ n ih =>
    rw [Schedule.after_succ, (moves_next hsound (tidy_after hsound hs sched n) _).meaning, ih]

/-- **No interleaving shows.** When the host's program has ended, memory and result are what the
program computes alone. -/
theorem run_of_ret (hsound : sys.Sound) (hs : s.Tidy sys) {p : Prog M κ ρ β}
    (hhost : s.host = .running p) {n : ℕ} {b : β}
    (hend : (Schedule.after sys.next s sched n).host = .running (.ret b)) :
    p.run sys.act s.mem = some ((Schedule.after sys.next s sched n).mem, b) := by
  have hmeaning := meaning_after hsound hs sched n
  simp only [State.meaning, hend, hhost, Prog.run_ret] at hmeaning
  exact hmeaning.symm

theorem run_of_fault (hsound : sys.Sound) (hs : s.Tidy sys) {p : Prog M κ ρ β}
    (hhost : s.host = .running p) {n : ℕ}
    (hend : (Schedule.after sys.next s sched n).host = .running .fault) :
    p.run sys.act s.mem = none := by
  have hmeaning := meaning_after hsound hs sched n
  simp only [State.meaning, hend, hhost, Prog.run_fault] at hmeaning
  exact hmeaning.symm

/-- **Every fair schedule ends**, and with what the program computes alone. -/
theorem exists_ended (hsound : sys.Sound) (hidle : sys.accepts idleControl = true)
    (hfair : Schedule.Fair (essential κ) sched) (hs : s.Tidy sys) {p : Prog M κ ρ β}
    (hhost : s.host = .running p) :
    ∃ n, (∃ b, (Schedule.after sys.next s sched n).host = .running (.ret b) ∧
        p.run sys.act s.mem = some ((Schedule.after sys.next s sched n).mem, b)) ∨
      ((Schedule.after sys.next s sched n).host = .running .fault ∧
        p.run sys.act s.mem = none) := by
  obtain ⟨n, hend⟩ := hfair.reaches (progress hsound hidle) helpful_mem hs
  rcases hend with ⟨b, hret⟩ | hfault
  · exact ⟨n, Or.inl ⟨b, hret, run_of_ret hsound hs hhost hret⟩⟩
  · exact ⟨n, Or.inr ⟨hfault, run_of_fault hsound hs hhost hfault⟩⟩

omit [DecidableEq κ] in
/-- A tidy state is never premature. -/
theorem State.Tidy.not_premature (hs : s.Tidy sys) : ¬ s.Premature := by
  rintro ⟨c, k, a, handed, hhost, hcore⟩
  simp only [State.Tidy, hhost] at hs
  rw [(hs c).1] at hcore
  cases hcore

/-- The host starts `c`, the core begins and hands `start` over, the host polls twice. -/
def handingOver (c : κ) : ℕ → Actor κ
  | 1 => .core c
  | 2 => .handOver c
  | _ => .host

/-- **An early core can be left at work.** Once its `ready` has been read, its register is zero;
the host must not accept that. -/
theorem premature (hearly : sys.early = true)
    (hzero : sys.accepts ⟨false, false, false, false⟩ = true) {c : κ} {k : ρ → Prog M κ ρ β}
    (hhost : s.host = .running (.call c k)) (hcore : s.core c = .waiting) :
    ∃ n, (Schedule.after sys.next s (handingOver c) n).Premature := by
  obtain ⟨s₃, hs₃, hhost₃, hcore₃, hcontrol₃⟩ :
      ∃ s₃, s₃ = Schedule.after sys.next s (handingOver c) 3 ∧ s₃.host = .polling c k ∧
        s₃.core c = .running (sys.act c) true ∧
        s₃.control c = ⟨false, (s.control c).done, false, true⟩ := by
    refine ⟨_, rfl, ?_⟩
    simp [Schedule.after_succ, handingOver, System.next, System.nextHost, System.nextCore,
      System.handOver, hhost, hcore, hearly]
  have h₄ : Schedule.after sys.next s (handingOver c) 4 = sys.nextHost s₃ := by
    rw [hs₃]
    rfl
  cases hseen : sys.accepts (s₃.control c) with
  | true =>
    refine ⟨4, c, k, sys.act c, true, ?_⟩
    rw [h₄]
    simp [System.nextHost, hhost₃, hcore₃, hseen]
  | false =>
    refine ⟨5, c, k, sys.act c, true, ?_⟩
    have hs₄ : sys.nextHost s₃ = { s₃ with
        control := Function.update s₃.control c ⟨false, false, false, false⟩
        host := .polling c k } := by
      rw [hcontrol₃] at hseen
      simp [System.nextHost, System.clearOnRead, hhost₃, hcontrol₃, hseen]
    rw [Schedule.after_succ, h₄, hs₄]
    simp [handingOver, System.next, System.nextHost, hcore₃, hzero]

end

end Handshake
