import HardApi.Lib.Loop
import HardApi.Lib.Runs
import Mathlib.Data.BitVec
import Mathlib.Data.Int.Interval
import Mathlib.Data.Nat.Bitwise
import Mathlib.Tactic.Ring

/-!
# The AXI interrupt controller

The driver keeps a list of the interrupts it has heard of, each with the number of times it was
raised and not yet reported, and whether somebody waits for it. What the controller shows at `0x04`
is an input of a call, what the driver writes to it an output.

`InterruptController.reported_add_pending` says that nothing is lost and nothing reported twice
over a whole run; `waitForInterrupt_iff` says when a wait comes back, and `waited_run_iff` when the
lines that the controller has enabled are those that somebody waits for.
-/

namespace HardApi

structure RaisedInterrupt where
  irq : ℤ
  number : ℕ
  active_waiting : Bool
  deriving DecidableEq, Repr

/-- `PYNQ_AXI_INTERRUPT_CONTROLLER`; `raised` is the list at `raised_interrupt_head`. -/
structure InterruptController where
  raised : List RaisedInterrupt
  enabled_hw_interrupts : BitVec 32
  deriving DecidableEq, Repr

/-- An offset and the word written there. -/
abbrev MmioWrite := ℕ × BitVec 32

namespace InterruptController

variable (s : InterruptController) (irq : ℤ)

/-- `PYNQ_openInterruptController` leaves this, after `0` at `0x8`. -/
def opened : InterruptController := ⟨[], 0⟩

def findRaisedInterruptStructure : Option RaisedInterrupt :=
  s.raised.find? fun interrupt => interrupt.irq = irq

/-- A new structure at the head of the list. -/
def insert (interrupt : RaisedInterrupt) : InterruptController :=
  { s with raised := interrupt :: s.raised }

/-- Assignments to the structure that was found. -/
def assign (number : ℕ) (active_waiting : Bool) : InterruptController :=
  { s with raised := go s.raised }
where
  go : List RaisedInterrupt → List RaisedInterrupt
    | [] => []
    | interrupt :: rest =>
      if interrupt.irq = irq then { interrupt with number, active_waiting } :: rest
      else interrupt :: go rest

/-- `appendOrInsertRaisedInterrupt`; `none` if `number` overflows. -/
def appendOrInsertRaisedInterrupt : Option InterruptController :=
  match s.findRaisedInterruptStructure irq with
  | none => some (s.insert ⟨irq, 1, false⟩)
  | some interrupt =>
    if interrupt.number = 2 ^ 31 - 1 then none
    else some (s.assign irq (interrupt.number + 1) false)

/-- The loop of `pullRaisedIRQs`. -/
def pullLoop (work current_irq : ℕ) (s : InterruptController) (writes : List MmioWrite) :
    Option (InterruptController × List MmioWrite) :=
  if work = 0 then some (s, writes)
  else if work % 2 = 1 then do
    let s ← s.appendOrInsertRaisedInterrupt current_irq
    pullLoop (work / 2) (current_irq + 1) s (writes ++ [(0x14, 1#32 <<< current_irq)])
  else pullLoop (work / 2) (current_irq + 1) s writes
termination_by work

/-- `pullRaisedIRQs`, which reads `raised_irqs` at `0x04`. -/
def pullRaisedIRQs (raised_irqs : BitVec 32) : Option (InterruptController × List MmioWrite) := do
  let (s, writes) ← pullLoop raised_irqs.toNat 0 s []
  return (s, writes ++ [(0x0C, raised_irqs)])

/-- The return code and the flag, where there is one. -/
inductive Answer where
  | registered
  | error
  | flag (raised : Bool)
  deriving DecidableEq, Repr

structure Output where
  writes : List MmioWrite
  answer : Answer
  deriving DecidableEq, Repr

/-- The structure that `PYNQ_registerInterrupt` makes where there is none. -/
def track : InterruptController :=
  match s.findRaisedInterruptStructure irq with
  | none => s.insert ⟨irq, 0, false⟩
  | some _ => s

/-- `PYNQ_registerInterrupt`; `none` for a shift by more than an `int` has bits. -/
def registerInterrupt (generate_hw_interrupt : Bool) : Option (InterruptController × Output) :=
  let s := s.track irq
  match s.findRaisedInterruptStructure irq with
  | none => none
  | some interrupt =>
    if interrupt.active_waiting then some (s, ⟨[], .registered⟩)
    else if irq < 0 ∨ 32 ≤ irq then none
    else
      let irq_bit := 1#32 <<< irq.toNat
      let new_hw_interrupts := s.enabled_hw_interrupts ||| irq_bit
      let (s, writes) : InterruptController × List MmioWrite :=
        if generate_hw_interrupt ∧ new_hw_interrupts ≠ s.enabled_hw_interrupts then
          ({ s with enabled_hw_interrupts := new_hw_interrupts }, [(0x8, new_hw_interrupts)])
        else (s, [])
      some (s.assign irq interrupt.number true,
        ⟨writes ++ [(0x10, irq_bit), (0x1C, 3)], .registered⟩)

/-- `PYNQ_testForInterrupt`, when the controller shows `raised_irqs`. -/
def testForInterrupt (raised_irqs : BitVec 32) : Option (InterruptController × Output) :=
  match s.findRaisedInterruptStructure irq with
  | none => some (s, ⟨[], .error⟩)
  | some interrupt =>
    if 0 < interrupt.number then
      some (s.assign irq (interrupt.number - 1) interrupt.active_waiting, ⟨[], .flag true⟩)
    else do
      let (s, writes) ← s.pullRaisedIRQs raised_irqs
      match s.findRaisedInterruptStructure irq with
      | none => none
      | some interrupt =>
        if 0 < interrupt.number then
          return (s.assign irq (interrupt.number - 1) interrupt.active_waiting,
            ⟨writes, .flag true⟩)
        else return (s, ⟨writes, .flag false⟩)

/-- A round of the loop of `PYNQ_waitForInterrupt`, which does not look at the return code; `none`
if a number overflows. The controller shows `reads i` in round `i`. -/
def waitRound (irq : ℤ) (reads : ℕ → BitVec 32) :
    InterruptController × ℕ → (InterruptController × ℕ) ⊕ Option InterruptController
  | (s, i) =>
    match s.testForInterrupt irq (reads i) with
    | none => .inr none
    | some (s, output) => if output.answer = .flag true then .inr (some s) else .inl (s, i + 1)

inductive Call where
  | register (irq : ℤ) (generate_hw_interrupt : Bool)
  | test (irq : ℤ) (raised_irqs : BitVec 32)
  deriving DecidableEq, Repr

def step (s : InterruptController) : Call → Option (InterruptController × Output)
  | .register irq generate_hw_interrupt => s.registerInterrupt irq generate_hw_interrupt
  | .test irq raised_irqs => s.testForInterrupt irq raised_irqs

/-! ## The list -/

variable {s} {irq} {irq' : ℤ} {interrupt : RaisedInterrupt} {number : ℕ} {active_waiting : Bool}

theorem find_irq (h : s.findRaisedInterruptStructure irq = some interrupt) :
    interrupt.irq = irq := by
  simpa using List.find?_some h

theorem find_insert : (s.insert interrupt).findRaisedInterruptStructure irq =
    if interrupt.irq = irq then some interrupt else s.findRaisedInterruptStructure irq := by
  unfold findRaisedInterruptStructure insert
  rw [List.find?_cons]
  by_cases h : interrupt.irq = irq <;> simp [h]

theorem find?_go (l : List RaisedInterrupt) :
    (assign.go irq number active_waiting l).find? (fun interrupt => interrupt.irq = irq') =
      if irq' = irq then (l.find? fun interrupt => interrupt.irq = irq).map fun interrupt =>
        { interrupt with number, active_waiting }
      else l.find? fun interrupt => interrupt.irq = irq' := by
  induction l with
  | nil => simp [assign.go]
  | cons interrupt rest ih =>
    unfold assign.go
    by_cases hirq : interrupt.irq = irq
    · rw [if_pos hirq, List.find?_cons, List.find?_cons, List.find?_cons]
      by_cases hne : irq' = irq
      · simp [hirq, hne]
      · have hne' : ¬ interrupt.irq = irq' := fun h => hne (h.symm.trans hirq)
        simp [hne, hne']
    · rw [if_neg hirq, List.find?_cons, List.find?_cons, List.find?_cons, ih]
      by_cases hne : irq' = irq
      · simp [hirq, hne]
      · by_cases hirq' : interrupt.irq = irq' <;> simp [hne, hirq']

theorem find_assign :
    (s.assign irq number active_waiting).findRaisedInterruptStructure irq' =
      if irq' = irq then (s.findRaisedInterruptStructure irq).map fun interrupt =>
        { interrupt with number, active_waiting }
      else s.findRaisedInterruptStructure irq' :=
  find?_go s.raised

theorem find_assign_of_find (h : s.findRaisedInterruptStructure irq = some interrupt) :
    (s.assign irq number active_waiting).findRaisedInterruptStructure irq' =
      if irq' = irq then some ⟨irq, number, active_waiting⟩
      else s.findRaisedInterruptStructure irq' := by
  rw [find_assign, h, ← find_irq h]
  rfl

theorem irqs_go (l : List RaisedInterrupt) :
    (assign.go irq number active_waiting l).map (·.irq) = l.map (·.irq) := by
  induction l with
  | nil => rfl
  | cons interrupt rest ih =>
    unfold assign.go
    by_cases hirq : interrupt.irq = irq
    · rw [if_pos hirq]
      rfl
    · rw [if_neg hirq, List.map_cons, List.map_cons, ih]

theorem irqs_assign :
    (s.assign irq number active_waiting).raised.map (·.irq) = s.raised.map (·.irq) :=
  irqs_go s.raised

/-- How often an interrupt was raised and not reported. -/
def pending (s : InterruptController) (irq : ℤ) : ℕ :=
  ((s.findRaisedInterruptStructure irq).map (·.number)).getD 0

/-- Whether somebody waits for an interrupt. -/
def active (s : InterruptController) (irq : ℤ) : Bool :=
  ((s.findRaisedInterruptStructure irq).map (·.active_waiting)).getD false

def known (s : InterruptController) (irq : ℤ) : Bool :=
  (s.findRaisedInterruptStructure irq).isSome

/-- Bit `irq` of a word. -/
def bit (word : ℕ) (irq : ℤ) : Bool := decide (0 ≤ irq) && word.testBit irq.toNat

theorem bit_succ (work : ℕ) (irq : ℤ) :
    bit work irq = if irq = 0 then decide (work % 2 = 1) else bit (work / 2) (irq - 1) := by
  unfold bit
  by_cases h0 : irq = 0
  · simp [h0, Nat.testBit_zero]
  · by_cases hneg : 0 ≤ irq
    · obtain ⟨n, rfl⟩ : ∃ n : ℕ, irq = n + 1 := ⟨(irq - 1).toNat, by omega⟩
      rw [if_neg h0]
      simp [hneg, Nat.testBit_succ, show ((n : ℤ) + 1).toNat = n + 1 by omega]
    · rw [if_neg h0]
      simp [hneg, show ¬ 1 ≤ irq by omega]

/-- The bits of the rest of the work are the lines from the next one on. -/
theorem bit_half (work current_irq : ℕ) (irq : ℤ) :
    bit work (irq - current_irq) =
      if irq = current_irq then decide (work % 2 = 1)
      else bit (work / 2) (irq - (current_irq + 1 : ℕ)) := by
  rw [bit_succ, Nat.cast_add, Nat.cast_one, sub_sub]
  exact if_congr sub_eq_zero rfl rfl

@[simp] theorem bit_neg {work : ℕ} {irq : ℤ} (h : irq < 0) : bit work irq = false := by
  simp [bit, h]

theorem enabled_track : (s.track irq).enabled_hw_interrupts = s.enabled_hw_interrupts := by
  unfold track
  cases s.findRaisedInterruptStructure irq <;> rfl

theorem find_track : (s.track irq).findRaisedInterruptStructure irq' =
    if irq' = irq then some ⟨irq, s.pending irq, s.active irq⟩
    else s.findRaisedInterruptStructure irq' := by
  unfold track pending active
  cases hfind : s.findRaisedInterruptStructure irq with
  | none =>
    show (s.insert ⟨irq, 0, false⟩).findRaisedInterruptStructure irq' = _
    rw [find_insert]
    simp [eq_comm]
  | some interrupt =>
    obtain rfl := find_irq hfind
    by_cases hirq : irq' = interrupt.irq
    · rw [if_pos hirq, hirq]
      exact hfind
    · rw [if_neg hirq]

/-! ## Raised interrupts -/

variable {s' : InterruptController} {work current_irq : ℕ} {writes writes' : List MmioWrite}
  {raised_irqs : BitVec 32}

theorem append_spec (h : s.appendOrInsertRaisedInterrupt irq = some s') :
    s'.enabled_hw_interrupts = s.enabled_hw_interrupts ∧
      ∀ irq', s'.findRaisedInterruptStructure irq' =
        if irq' = irq then some ⟨irq, s.pending irq + 1, false⟩
        else s.findRaisedInterruptStructure irq' := by
  unfold appendOrInsertRaisedInterrupt at h
  cases hfind : s.findRaisedInterruptStructure irq with
  | none =>
    rw [hfind] at h
    obtain rfl := Option.some.inj h
    refine ⟨rfl, fun irq' => ?_⟩
    rw [find_insert]
    simp [pending, hfind, eq_comm]
  | some interrupt =>
    rw [hfind] at h
    simp only at h
    split_ifs at h
    obtain rfl := Option.some.inj h
    refine ⟨rfl, fun irq' => ?_⟩
    rw [find_assign_of_find hfind]
    simp [pending, hfind]

/-- The writes that disable some lines. -/
def disable (lines : List ℕ) : List MmioWrite := lines.map fun irq => (0x14, 1#32 <<< irq)

theorem pullLoop_spec (h : pullLoop work current_irq s writes = some (s', writes')) :
    s'.enabled_hw_interrupts = s.enabled_hw_interrupts ∧
      (∀ irq : ℤ, s'.findRaisedInterruptStructure irq =
        if bit work (irq - current_irq) then some ⟨irq, s.pending irq + 1, false⟩
        else s.findRaisedInterruptStructure irq) ∧
      ∃ lines : List ℕ, writes' = writes ++ disable lines ∧
        ∀ irq : ℕ, irq ∈ lines ↔ bit work (irq - current_irq) = true := by
  induction work using Nat.strongRecOn generalizing current_irq s writes with
  | ind work ih =>
    unfold pullLoop at h
    by_cases hzero : work = 0
    · rw [if_pos hzero] at h
      obtain ⟨rfl, rfl⟩ := Prod.mk.inj (Option.some.inj h)
      refine ⟨rfl, fun irq => ?_, [], by simp [disable], fun irq => ?_⟩
      · simp [hzero, bit]
      · simp [hzero, bit]
    · rw [if_neg hzero] at h
      have hlt : work / 2 < work := by omega
      by_cases hodd : work % 2 = 1
      · rw [if_pos hodd] at h
        obtain ⟨s₁, happend, hrest⟩ := Option.bind_eq_some_iff.mp h
        obtain ⟨henabled, hfind⟩ := append_spec happend
        obtain ⟨henabled', hfind', lines, hwrites, hlines⟩ := ih _ hlt hrest
        refine ⟨henabled'.trans henabled, fun irq => ?_, current_irq :: lines, ?_, fun irq => ?_⟩
        · rw [hfind', bit_half work current_irq irq]
          by_cases hirq : irq = current_irq
          · rw [if_pos hirq, bit_neg (by omega), hfind, if_pos hirq, hirq]
            simp [hodd]
          · rw [if_neg hirq, pending, hfind, if_neg hirq]
            rfl
        · rw [hwrites]
          simp [disable]
        · rw [List.mem_cons, hlines, bit_half work current_irq irq]
          by_cases hirq : irq = current_irq
          · simp [hirq, hodd]
          · have hirq' : ¬ (irq : ℤ) = current_irq := by omega
            simp [hirq, hirq']
      · rw [if_neg hodd] at h
        obtain ⟨henabled', hfind', lines, hwrites, hlines⟩ := ih _ hlt h
        refine ⟨henabled', fun irq => ?_, lines, hwrites, fun irq => ?_⟩
        · rw [hfind', bit_half work current_irq irq]
          by_cases hirq : irq = current_irq
          · rw [if_pos hirq, bit_neg (by omega)]
            simp [hodd]
          · rw [if_neg hirq]
        · rw [hlines, bit_half work current_irq irq]
          by_cases hirq : (irq : ℤ) = current_irq
          · rw [if_pos hirq, bit_neg (by omega)]
            simp [hodd]
          · rw [if_neg hirq]

/-- What is pulled is counted once, and nobody waits for it any more. -/
theorem pull_spec (h : s.pullRaisedIRQs raised_irqs = some (s', writes')) :
    s'.enabled_hw_interrupts = s.enabled_hw_interrupts ∧
      (∀ irq : ℤ, s'.findRaisedInterruptStructure irq =
        if bit raised_irqs.toNat irq then some ⟨irq, s.pending irq + 1, false⟩
        else s.findRaisedInterruptStructure irq) ∧
      ∃ lines : List ℕ,
        writes' = disable lines ++ [(0x0C, raised_irqs)] ∧
        ∀ irq : ℕ, irq ∈ lines ↔ bit raised_irqs.toNat irq = true := by
  obtain ⟨⟨s₁, writes₁⟩, hloop, hend⟩ := Option.bind_eq_some_iff.mp h
  obtain ⟨rfl, rfl⟩ := Prod.mk.inj (Option.some.inj hend)
  obtain ⟨henabled, hfind, lines, hwrites, hlines⟩ := pullLoop_spec hloop
  refine ⟨henabled, fun irq => ?_, lines, ?_, fun irq => ?_⟩
  · simpa using hfind irq
  · rw [hwrites, List.nil_append]
  · simpa using hlines irq

/-! ## One call -/

variable {generate_hw_interrupt : Bool} {output : Output}

/-- The lines enabled for the processor, with one more. -/
def newHwInterrupts (s : InterruptController) (irq : ℤ) : BitVec 32 :=
  s.enabled_hw_interrupts ||| 1#32 <<< irq.toNat

/-- A registration writes nothing where somebody waits; else it may replace the enabled lines, and
then sets one more. -/
theorem register_spec (h : s.registerInterrupt irq generate_hw_interrupt = some (s', output)) :
    (∀ irq', s'.findRaisedInterruptStructure irq' =
      if irq' = irq then some ⟨irq, s.pending irq, true⟩
      else s.findRaisedInterruptStructure irq') ∧ output.answer = .registered ∧
    s'.raised.map (·.irq) = (s.track irq).raised.map (·.irq) ∧
    if s.active irq then s'.enabled_hw_interrupts = s.enabled_hw_interrupts ∧ output.writes = []
    else (0 ≤ irq ∧ irq < 32) ∧
      if generate_hw_interrupt ∧ s.newHwInterrupts irq ≠ s.enabled_hw_interrupts then
        s'.enabled_hw_interrupts = s.newHwInterrupts irq ∧
          output.writes = [(0x8, s.newHwInterrupts irq), (0x10, 1#32 <<< irq.toNat), (0x1C, 3)]
      else s'.enabled_hw_interrupts = s.enabled_hw_interrupts ∧
        output.writes = [(0x10, 1#32 <<< irq.toNat), (0x1C, 3)] := by
  have hfind : (s.track irq).findRaisedInterruptStructure irq =
      some ⟨irq, s.pending irq, s.active irq⟩ := by
    rw [find_track, if_pos rfl]
  have hassign : ∀ irq',
      ((s.track irq).assign irq (s.pending irq) true).findRaisedInterruptStructure irq' =
        if irq' = irq then some ⟨irq, s.pending irq, true⟩
        else s.findRaisedInterruptStructure irq' := by
    intro irq'
    rw [find_assign_of_find hfind, find_track]
    by_cases hirq : irq' = irq
    · rw [if_pos hirq, if_pos hirq]
    · rw [if_neg hirq, if_neg hirq, if_neg hirq]
  unfold registerInterrupt at h
  unfold newHwInterrupts
  simp only [hfind] at h
  by_cases hwaits : s.active irq = true
  · rw [if_pos hwaits] at h ⊢
    obtain ⟨rfl, rfl⟩ := Prod.mk.inj (Option.some.inj h)
    refine ⟨fun irq' => ?_, rfl, rfl, enabled_track, rfl⟩
    rw [find_track, hwaits]
  · rw [if_neg hwaits] at h ⊢
    by_cases hshift : irq < 0 ∨ 32 ≤ irq
    · rw [if_pos hshift] at h
      cases h
    · rw [if_neg hshift, enabled_track] at h
      have hrange : 0 ≤ irq ∧ irq < 32 := by omega
      by_cases hnew : generate_hw_interrupt = true ∧
          s.enabled_hw_interrupts ||| 1#32 <<< irq.toNat ≠ s.enabled_hw_interrupts
      · rw [if_pos hnew] at h ⊢
        obtain ⟨rfl, rfl⟩ := Prod.mk.inj (Option.some.inj h)
        exact ⟨hassign, rfl, irqs_go _, hrange, rfl, rfl⟩
      · rw [if_neg hnew] at h ⊢
        obtain ⟨rfl, rfl⟩ := Prod.mk.inj (Option.some.inj h)
        exact ⟨hassign, rfl, irqs_assign, hrange, enabled_track, rfl⟩

/-- Without a count of its own a registered interrupt depends on what the test pulls. -/
theorem test_of_pull (hknown : s.known irq = true) (hpending : s.pending irq = 0) :
    s.testForInterrupt irq raised_irqs = (s.pullRaisedIRQs raised_irqs).map fun (s', writes) =>
      if bit raised_irqs.toNat irq then (s'.assign irq 0 false, ⟨writes, .flag true⟩)
      else (s', ⟨writes, .flag false⟩) := by
  obtain ⟨interrupt, hfind⟩ := Option.isSome_iff_exists.mp hknown
  have hnumber : interrupt.number = 0 := by simpa [pending, hfind] using hpending
  have hnone : ¬ 0 < interrupt.number := by omega
  unfold testForInterrupt
  simp only [hfind, if_neg hnone]
  cases hpull : s.pullRaisedIRQs raised_irqs with
  | none => rfl
  | some result =>
    obtain ⟨s₁, writes⟩ := result
    have hfind₁ := (pull_spec hpull).2.1 irq
    rw [hfind, hpending] at hfind₁
    simp only [Option.bind_eq_bind, Option.bind_some, Option.map_some, hfind₁]
    cases bit raised_irqs.toNat irq with
    | true => rfl
    | false => exact if_neg hnone

/-- The three ways of `testForInterrupt`. -/
theorem test_cases (h : s.testForInterrupt irq raised_irqs = some (s', output)) :
    (s.findRaisedInterruptStructure irq = none ∧ s' = s ∧ output = ⟨[], .error⟩) ∨
    (∃ interrupt, s.findRaisedInterruptStructure irq = some interrupt ∧ 0 < interrupt.number ∧
      s' = s.assign irq (interrupt.number - 1) interrupt.active_waiting ∧
      output = ⟨[], .flag true⟩) ∨
    (∃ interrupt s₁ writes, s.findRaisedInterruptStructure irq = some interrupt ∧
      interrupt.number = 0 ∧ s.pullRaisedIRQs raised_irqs = some (s₁, writes) ∧
      if bit raised_irqs.toNat irq then
        s' = s₁.assign irq 0 false ∧ output = ⟨writes, .flag true⟩
      else s' = s₁ ∧ output = ⟨writes, .flag false⟩) := by
  cases hfind : s.findRaisedInterruptStructure irq with
  | none =>
    simp only [testForInterrupt, hfind] at h
    obtain ⟨rfl, rfl⟩ := Prod.mk.inj (Option.some.inj h)
    exact Or.inl ⟨rfl, rfl, rfl⟩
  | some interrupt =>
    by_cases hnumber : 0 < interrupt.number
    · simp only [testForInterrupt, hfind, if_pos hnumber] at h
      obtain ⟨rfl, rfl⟩ := Prod.mk.inj (Option.some.inj h)
      exact Or.inr (Or.inl ⟨interrupt, rfl, hnumber, rfl, rfl⟩)
    · have hnone : interrupt.number = 0 := by omega
      have hknown : s.known irq = true := by simp [known, hfind]
      have hpending : s.pending irq = 0 := by simp [pending, hfind, hnone]
      rw [test_of_pull hknown hpending] at h
      obtain ⟨⟨s₁, writes⟩, hpull, hrest⟩ := Option.map_eq_some_iff.mp h
      refine Or.inr (Or.inr ⟨interrupt, s₁, writes, rfl, hnone, hpull, ?_⟩)
      by_cases hbit : bit raised_irqs.toNat irq = true
      · simp only [if_pos hbit] at hrest ⊢
        obtain ⟨rfl, rfl⟩ := Prod.mk.inj hrest
        exact ⟨rfl, rfl⟩
      · simp only [if_neg hbit] at hrest ⊢
        obtain ⟨rfl, rfl⟩ := Prod.mk.inj hrest
        exact ⟨rfl, rfl⟩

/-! ## Runs -/

open Runs

variable {s u : InterruptController}
  {t : Transition InterruptController Call Output}
  {ts : List (Transition InterruptController Call Output)}

/-- Whether the transition is a test that reported the interrupt. -/
def reported (irq : ℤ) (t : Transition InterruptController Call Output) : ℕ :=
  match t.input, t.output.answer with
  | .test irq' _, .flag true => if irq' = irq then 1 else 0
  | _, _ => 0

/-- How often the transition acknowledged the interrupt. -/
def acknowledged (irq : ℤ) (t : Transition InterruptController Call Output) : ℕ :=
  t.output.writes.countP fun (offset, word) => offset = 0x0C && bit word.toNat irq

/-- A pull acknowledges exactly what it read. -/
theorem countP_pull (h : s.pullRaisedIRQs raised_irqs = some (s', writes')) :
    (writes'.countP fun (offset, word) => offset = 0x0C && bit word.toNat irq) =
      if bit raised_irqs.toNat irq then 1 else 0 := by
  obtain ⟨-, -, lines, rfl, -⟩ := pull_spec h
  rw [List.countP_append, List.countP_eq_zero.mpr, zero_add]
  · simp [List.countP_cons]
  · simp [disable]

theorem pending_pull (h : s.pullRaisedIRQs raised_irqs = some (s', writes')) :
    s'.pending irq = s.pending irq + if bit raised_irqs.toNat irq then 1 else 0 := by
  rw [pending, (pull_spec h).2.1 irq]
  by_cases hbit : bit raised_irqs.toNat irq = true
  · rw [if_pos hbit, if_pos hbit]
    rfl
  · rw [if_neg hbit, if_neg hbit]
    rfl

theorem pending_assign (h : s.findRaisedInterruptStructure irq = some interrupt) :
    (s.assign irq number active_waiting).pending irq' =
      if irq' = irq then number else s.pending irq' := by
  rw [pending, find_assign_of_find h]
  by_cases hirq : irq' = irq
  · rw [if_pos hirq, if_pos hirq]
    rfl
  · rw [if_neg hirq, if_neg hirq]
    rfl

theorem reported_test (hinput : t.input = .test irq' raised_irqs) (raised : Bool)
    (hanswer : t.output.answer = .flag raised) :
    reported irq t = if irq = irq' ∧ raised then 1 else 0 := by
  unfold reported
  rw [hinput, hanswer]
  cases raised <;> simp [eq_comm]

theorem acknowledged_register (hof : t.Of step)
    (hinput : t.input = .register irq' generate_hw_interrupt) : acknowledged irq t = 0 := by
  unfold Transition.Of at hof
  rw [hinput] at hof
  obtain ⟨-, -, -, hwrites⟩ := register_spec hof
  unfold acknowledged
  by_cases hwaits : t.pre.active irq' = true
  · rw [if_pos hwaits] at hwrites
    simp [hwrites.2]
  · rw [if_neg hwaits] at hwrites
    obtain ⟨-, hwrites⟩ := hwrites
    split at hwrites
    · simp [hwrites.2]
    · simp [hwrites.2]

theorem register_balance (hof : t.Of step)
    (hinput : t.input = .register irq' generate_hw_interrupt) :
    reported irq t + t.post.pending irq = t.pre.pending irq + acknowledged irq t := by
  have hpending : t.post.pending irq = t.pre.pending irq := by
    unfold Transition.Of at hof
    rw [hinput] at hof
    rw [pending, (register_spec hof).1 irq]
    by_cases hirq : irq = irq'
    · rw [if_pos hirq, hirq]
      rfl
    · rw [if_neg hirq]
      rfl
  rw [hpending, acknowledged_register hof hinput]
  simp [reported, hinput]

theorem test_balance (hof : t.Of step) (hinput : t.input = .test irq' raised_irqs) :
    reported irq t + t.post.pending irq = t.pre.pending irq + acknowledged irq t := by
  unfold Transition.Of at hof
  rw [hinput] at hof
  rcases test_cases hof with ⟨-, hpost, houtput⟩ | ⟨interrupt, hfind, hnumber, hpost, houtput⟩ |
    ⟨interrupt, s₁, writes, hfind, hnumber, hpull, hend⟩
  · rw [hpost, acknowledged, houtput]
    simp [reported, hinput, houtput]
  · rw [reported_test hinput true (by rw [houtput]), hpost, pending_assign hfind, acknowledged,
      houtput]
    have hpending : t.pre.pending irq' = interrupt.number := by
      simp [pending, hfind]
    by_cases hirq : irq = irq'
    · simp [hirq]
      omega
    · simp [hirq]
  · have hpending : t.pre.pending irq' = 0 := by
      simp [pending, hfind, hnumber]
    by_cases hbit : bit raised_irqs.toNat irq' = true
    · rw [if_pos hbit] at hend
      obtain ⟨hpost, houtput⟩ := hend
      have hfind₁ : s₁.findRaisedInterruptStructure irq' =
          some ⟨irq', t.pre.pending irq' + 1, false⟩ := by
        rw [(pull_spec hpull).2.1 irq', if_pos hbit]
      rw [reported_test hinput true (by rw [houtput]), hpost, pending_assign hfind₁, acknowledged,
        houtput, countP_pull hpull]
      by_cases hirq : irq = irq'
      · simp [hirq, hbit, hpending]
      · simp [hirq, pending_pull hpull]
    · rw [if_neg hbit] at hend
      obtain ⟨hpost, houtput⟩ := hend
      rw [reported_test hinput false (by rw [houtput]), hpost, pending_pull hpull, acknowledged,
        houtput, countP_pull hpull]
      simp

theorem transition_balance (hof : t.Of step) :
    reported irq t + t.post.pending irq = t.pre.pending irq + acknowledged irq t := by
  cases hinput : t.input with
  | register irq' generate_hw_interrupt => exact register_balance hof hinput
  | test irq' raised_irqs => exact test_balance hof hinput

/-- **No interrupt is lost, and none is reported twice.** -/
theorem reported_add_pending (irq : ℤ) (hrun : Run step opened ts u) :
    (ts.map (reported irq)).sum + u.pending irq = (ts.map (acknowledged irq)).sum := by
  have hbalance := hrun.balance (fun s => s.pending irq)
    fun t hof => transition_balance hof
  have hopened : opened.pending irq = 0 := rfl
  simpa [hopened] using hbalance

/-- A test for line 3 that sees lines 1 and 3. -/
def smallTest : Transition InterruptController Call Output :=
  ⟨⟨[⟨3, 0, true⟩], 0⟩, .test 3 10, ⟨[(0x14, 2), (0x14, 8), (0x0C, 10)], .flag true⟩,
    ⟨[⟨1, 1, false⟩, ⟨3, 0, false⟩], 0⟩⟩

def smallCalls : List (Transition InterruptController Call Output) :=
  [⟨opened, .register 3 false, ⟨[(0x10, 8), (0x1C, 3)], .registered⟩, ⟨[⟨3, 0, true⟩], 0⟩⟩,
    smallTest]

theorem of_smallTest : smallTest.Of step := by
  simp [Transition.Of, smallTest, step, testForInterrupt, findRaisedInterruptStructure,
    pullRaisedIRQs, pullLoop, appendOrInsertRaisedInterrupt, insert, assign, assign.go]

theorem run_smallCalls : Run step opened smallCalls smallTest.post :=
  ⟨rfl, rfl, rfl, of_smallTest, rfl⟩

theorem reported_add_pending_smallCalls :
    (smallCalls.map (reported 1)).sum + smallTest.post.pending 1 =
      (smallCalls.map (acknowledged 1)).sum :=
  reported_add_pending 1 run_smallCalls

/-! ## What the driver has heard of -/

/-- The transition registers the interrupt or acknowledges it. -/
def Tracks (irq : ℤ) (t : Transition InterruptController Call Output) : Prop :=
  (∃ generate_hw_interrupt, t.input = .register irq generate_hw_interrupt) ∨ 0 < acknowledged irq t

theorem known_assign : (s.assign irq number active_waiting).known irq' = s.known irq' := by
  rw [known, find_assign]
  by_cases hirq : irq' = irq
  · rw [if_pos hirq, hirq, Option.isSome_map, known]
  · rw [if_neg hirq, known]

theorem known_pull (h : s.pullRaisedIRQs raised_irqs = some (s', writes')) :
    s'.known irq = (s.known irq || bit raised_irqs.toNat irq) := by
  rw [known, (pull_spec h).2.1 irq]
  cases hbit : bit raised_irqs.toNat irq <;> simp [known]

theorem known_step (hof : t.Of step) :
    t.post.known irq = true ↔ t.pre.known irq = true ∨ Tracks irq t := by
  have hcall := hof
  unfold Transition.Of at hcall
  cases hinput : t.input with
  | register irq' generate_hw_interrupt =>
    rw [hinput] at hcall
    unfold Tracks known
    rw [(register_spec hcall).1 irq, acknowledged_register hof hinput, hinput]
    by_cases hirq : irq = irq'
    · simp [hirq]
    · simp [hirq, Ne.symm hirq]
  | test irq' raised_irqs =>
    rw [hinput] at hcall
    unfold Tracks acknowledged
    rw [hinput]
    rcases test_cases hcall with ⟨-, hpost, houtput⟩ | ⟨interrupt, -, -, hpost, houtput⟩ |
      ⟨interrupt, s₁, writes, -, -, hpull, hend⟩
    · rw [hpost, houtput]
      simp
    · rw [hpost, known_assign, houtput]
      simp
    · have hpost : t.post.known irq = s₁.known irq ∧ t.output.writes = writes := by
        split at hend
        · obtain ⟨hpost, houtput⟩ := hend
          rw [hpost, known_assign, houtput]
          exact ⟨rfl, rfl⟩
        · obtain ⟨hpost, houtput⟩ := hend
          rw [hpost, houtput]
          exact ⟨rfl, rfl⟩
      rw [hpost.1, known_pull hpull, hpost.2, countP_pull hpull]
      cases hbit : bit raised_irqs.toNat irq <;> simp

/-- **When a test is an error**: never registered, and never seen by anybody else's test. -/
theorem test_error_iff (irq : ℤ) (raised_irqs : BitVec 32) (hrun : Run step opened ts u) :
    u.testForInterrupt irq raised_irqs = some (u, ⟨[], .error⟩) ↔ ¬ ∃ t ∈ ts, Tracks irq t := by
  have hknown := hrun.iff_exists (P := fun s => s.known irq = true) (fun t hof => known_step hof)
  have hopened : ¬ opened.known irq = true := Bool.false_ne_true
  rw [← or_iff_right hopened (b := ∃ t ∈ ts, Tracks irq t), ← hknown, known,
    Option.not_isSome_iff_eq_none]
  constructor
  · intro h
    rcases test_cases h with ⟨hnone, -, -⟩ | ⟨interrupt, -, -, -, houtput⟩ |
      ⟨interrupt, s₁, writes, -, -, -, hend⟩
    · exact hnone
    · cases houtput
    · split at hend
      · cases hend.2
      · cases hend.2
  · intro hnone
    unfold testForInterrupt
    rw [hnone]

/-- Line 1 was never registered, but the test for line 3 saw it. -/
theorem test_error_iff_smallCalls :
    smallTest.post.testForInterrupt 1 0 ≠ some (smallTest.post, ⟨[], .error⟩) := by
  rw [ne_eq, test_error_iff 1 0 run_smallCalls, not_not]
  exact ⟨smallTest, by simp [smallCalls], Or.inr (by decide)⟩

/-! ## The list stays short -/

/-- One structure for an interrupt, and none for what is not a line. -/
structure Distinct (s : InterruptController) : Prop where
  nodup : (s.raised.map (·.irq)).Nodup
  line : ∀ irq ∈ s.raised.map (·.irq), 0 ≤ irq ∧ irq < 32

theorem Distinct.length_le (h : s.Distinct) : s.raised.length ≤ 32 := by
  have hsub : (s.raised.map (·.irq)).toFinset ⊆ Finset.Ico (0 : ℤ) 32 := by
    intro irq hirq
    rw [Finset.mem_Ico]
    exact h.line irq (List.mem_toFinset.mp hirq)
  have hcard := Finset.card_le_card hsub
  rw [List.toFinset_card_of_nodup h.nodup, List.length_map, Int.card_Ico] at hcard
  omega

theorem Distinct.congr (h : s.Distinct)
    (hirqs : s'.raised.map (·.irq) = s.raised.map (·.irq)) : s'.Distinct := by
  constructor
  · rw [hirqs]
    exact h.nodup
  · rw [hirqs]
    exact h.line

theorem Distinct.assign (h : s.Distinct) : (s.assign irq number active_waiting).Distinct :=
  h.congr irqs_assign

theorem Distinct.insert (h : s.Distinct) (hnone : s.findRaisedInterruptStructure irq = none)
    (hline : 0 ≤ irq ∧ irq < 32) (hirq : interrupt.irq = irq) : (s.insert interrupt).Distinct := by
  constructor
  · show (interrupt.irq :: s.raised.map (·.irq)).Nodup
    rw [List.nodup_cons]
    refine ⟨fun hmem => ?_, h.nodup⟩
    obtain ⟨found, hfound, heq⟩ := List.mem_map.mp hmem
    have hne := List.find?_eq_none.mp hnone found hfound
    simp [heq, hirq] at hne
  · intro irq' hmem
    rcases List.mem_cons.mp hmem with heq | hmem
    · obtain rfl : irq' = irq := heq.trans hirq
      exact hline
    · exact h.line irq' hmem

theorem Distinct.append (h : s.Distinct) (hline : 0 ≤ irq ∧ irq < 32)
    (happend : s.appendOrInsertRaisedInterrupt irq = some s') : s'.Distinct := by
  unfold appendOrInsertRaisedInterrupt at happend
  cases hfind : s.findRaisedInterruptStructure irq with
  | none =>
    rw [hfind] at happend
    obtain rfl := Option.some.inj happend
    exact h.insert hfind hline rfl
  | some interrupt =>
    rw [hfind] at happend
    simp only at happend
    split_ifs at happend
    obtain rfl := Option.some.inj happend
    exact h.assign

theorem Distinct.pullLoop (h : s.Distinct)
    (hline : ∀ irq : ℤ, bit work (irq - current_irq) = true → irq < 32)
    (hpull : s.pullLoop work current_irq writes = some (s', writes')) : s'.Distinct := by
  induction work using Nat.strongRecOn generalizing current_irq s writes with
  | ind work ih =>
    unfold InterruptController.pullLoop at hpull
    by_cases hzero : work = 0
    · rw [if_pos hzero] at hpull
      obtain ⟨rfl, rfl⟩ := Prod.mk.inj (Option.some.inj hpull)
      exact h
    · rw [if_neg hzero] at hpull
      have hlt : work / 2 < work := by omega
      have hrest : ∀ irq : ℤ, bit (work / 2) (irq - (current_irq + 1 : ℕ)) = true → irq < 32 := by
        intro irq hbit
        by_cases hirq : irq = current_irq
        · rw [bit_neg (by omega)] at hbit
          cases hbit
        · apply hline irq
          rw [bit_half work current_irq irq, if_neg hirq]
          exact hbit
      by_cases hodd : work % 2 = 1
      · rw [if_pos hodd] at hpull
        obtain ⟨s₁, happend, hloop⟩ := Option.bind_eq_some_iff.mp hpull
        have hlast : (current_irq : ℤ) < 32 := by
          apply hline
          rw [bit_half work current_irq, if_pos rfl]
          simp [hodd]
        exact ih _ hlt (h.append ⟨by omega, hlast⟩ happend) hrest hloop
      · rw [if_neg hodd] at hpull
        exact ih _ hlt h hrest hpull

theorem lt_of_bit (h : bit raised_irqs.toNat irq = true) : 0 ≤ irq ∧ irq < 32 := by
  unfold bit at h
  rw [Bool.and_eq_true, decide_eq_true_eq] at h
  refine ⟨h.1, ?_⟩
  by_contra hge
  have hlt : raised_irqs.toNat < 2 ^ irq.toNat :=
    raised_irqs.isLt.trans_le (Nat.pow_le_pow_right (by decide) (by omega))
  rw [Nat.testBit_lt_two_pow hlt] at h
  cases h.2

theorem Distinct.pull (h : s.Distinct) (hpull : s.pullRaisedIRQs raised_irqs = some (s', writes')) :
    s'.Distinct := by
  obtain ⟨⟨s₁, writes₁⟩, hloop, hend⟩ := Option.bind_eq_some_iff.mp hpull
  obtain ⟨rfl, rfl⟩ := Prod.mk.inj (Option.some.inj hend)
  refine h.pullLoop (fun irq hbit => ?_) hloop
  exact (lt_of_bit (by simpa using hbit)).2

theorem Distinct.register (h : s.Distinct)
    (hregister : s.registerInterrupt irq generate_hw_interrupt = some (s', output)) :
    s'.Distinct := by
  obtain ⟨-, -, hirqs, hcases⟩ := register_spec hregister
  have htrack : (s.track irq).Distinct := by
    unfold track
    cases hfind : s.findRaisedInterruptStructure irq with
    | none =>
      have hidle : ¬ s.active irq = true := by
        simp [active, hfind]
      rw [if_neg hidle] at hcases
      exact h.insert hfind hcases.1 rfl
    | some interrupt => exact h
  exact htrack.congr hirqs

theorem Distinct.step (hof : t.Of step) (h : t.pre.Distinct) : t.post.Distinct := by
  unfold Transition.Of at hof
  cases hinput : t.input with
  | register irq generate_hw_interrupt =>
    rw [hinput] at hof
    exact h.register hof
  | test irq raised_irqs =>
    rw [hinput] at hof
    rcases test_cases hof with ⟨-, hpost, -⟩ | ⟨interrupt, -, -, hpost, -⟩ |
      ⟨interrupt, s₁, writes, -, -, hpull, hend⟩
    · exact hpost ▸ h
    · exact hpost ▸ h.assign
    · split at hend
      · exact hend.1 ▸ (h.pull hpull).assign
      · exact hend.1 ▸ h.pull hpull

/-- **At most 32 structures**, each interrupt once, however many calls. A run has no registration
outside the 32 lines: its shift is undefined, and the structure is in the list by then. -/
theorem raised_length_le (hrun : Run InterruptController.step opened ts u) :
    (u.raised.map (·.irq)).Nodup ∧ (∀ irq, u.known irq → 0 ≤ irq ∧ irq < 32) ∧
      u.raised.length ≤ 32 := by
  have hopened : opened.Distinct := ⟨List.nodup_nil, by simp [opened]⟩
  have hdistinct := hrun.preserves Distinct (C := fun _ => True)
    (fun t hof hpre _ => hpre.step hof) hopened (fun _ _ => trivial)
  refine ⟨hdistinct.nodup, fun irq hknown => ?_, hdistinct.length_le⟩
  obtain ⟨interrupt, hfind⟩ := Option.isSome_iff_exists.mp hknown
  apply hdistinct.line
  rw [← find_irq hfind]
  exact List.mem_map_of_mem (List.mem_of_find?_eq_some hfind)

theorem raised_length_le_smallCalls :
    (smallTest.post.raised.map (·.irq)).Nodup ∧
      (∀ irq, smallTest.post.known irq → 0 ≤ irq ∧ irq < 32) ∧
      smallTest.post.raised.length ≤ 32 :=
  raised_length_le run_smallCalls

/-! ## Waiting -/

theorem append_isSome_iff :
    (∃ s', s.appendOrInsertRaisedInterrupt irq = some s') ↔ s.pending irq ≠ 2 ^ 31 - 1 := by
  unfold appendOrInsertRaisedInterrupt pending
  cases s.findRaisedInterruptStructure irq with
  | none => simp
  | some interrupt =>
    by_cases hfull : interrupt.number = 2 ^ 31 - 1 <;> simp [hfull]

/-- Every line that the controller shows can be counted once more. -/
def Fits (s : InterruptController) (raised_irqs : BitVec 32) : Prop :=
  ∀ irq, bit raised_irqs.toNat irq = true → s.pending irq ≠ 2 ^ 31 - 1

theorem pullLoop_isSome_iff (work : ℕ) (writes : List MmioWrite) :
    (∃ result, s.pullLoop work current_irq writes = some result) ↔
      ∀ irq : ℤ, bit work (irq - current_irq) = true → s.pending irq ≠ 2 ^ 31 - 1 := by
  induction work using Nat.strongRecOn generalizing current_irq s writes with
  | ind work ih =>
    unfold pullLoop
    by_cases hzero : work = 0
    · rw [if_pos hzero]
      exact iff_of_true ⟨_, rfl⟩ (by simp [hzero, bit])
    · rw [if_neg hzero]
      have hlt : work / 2 < work := by omega
      have hlater : ∀ irq : ℤ, bit (work / 2) (irq - (current_irq + 1 : ℕ)) = true →
          irq ≠ current_irq := by
        rintro irq hbit rfl
        rw [bit_neg (by omega)] at hbit
        cases hbit
      by_cases hodd : work % 2 = 1
      · rw [if_pos hodd]
        have hbit : ∀ irq : ℤ, bit work (irq - current_irq) = true ↔
            irq = current_irq ∨ bit (work / 2) (irq - (current_irq + 1 : ℕ)) = true := by
          intro irq
          rw [bit_half work current_irq irq]
          by_cases hirq : irq = current_irq <;> simp [hirq, hodd]
        have hrest : ∀ s₁, s.appendOrInsertRaisedInterrupt current_irq = some s₁ →
            ((∃ result, s₁.pullLoop (work / 2) (current_irq + 1)
                (writes ++ [(0x14, 1#32 <<< current_irq)]) = some result) ↔
              ∀ irq : ℤ, bit (work / 2) (irq - (current_irq + 1 : ℕ)) = true →
                s.pending irq ≠ 2 ^ 31 - 1) := by
          intro s₁ happend
          rw [ih _ hlt]
          refine forall_congr' fun irq => imp_congr_right fun hbit => ?_
          rw [pending, (append_spec happend).2 irq, if_neg (hlater irq hbit)]
          rfl
        simp only [hbit, forall_eq_or_imp, Option.bind_eq_bind, Option.bind_eq_some_iff]
        rw [← append_isSome_iff]
        constructor
        · rintro ⟨result, s₁, happend, hloop⟩
          exact ⟨⟨s₁, happend⟩, (hrest s₁ happend).mp ⟨result, hloop⟩⟩
        · rintro ⟨⟨s₁, happend⟩, hfits⟩
          obtain ⟨result, hloop⟩ := (hrest s₁ happend).mpr hfits
          exact ⟨result, s₁, happend, hloop⟩
      · rw [if_neg hodd, ih _ hlt]
        refine forall_congr' fun irq => ?_
        rw [bit_half work current_irq irq]
        by_cases hirq : irq = current_irq
        · rw [if_pos hirq, bit_neg (by omega)]
          simp [hodd]
        · rw [if_neg hirq]

theorem pull_isSome_iff :
    (∃ s' writes', s.pullRaisedIRQs raised_irqs = some (s', writes')) ↔ s.Fits raised_irqs := by
  have hloop : (∃ result, s.pullLoop raised_irqs.toNat 0 [] = some result) ↔
      s.Fits raised_irqs := by
    rw [pullLoop_isSome_iff, Fits]
    simp only [Nat.cast_zero, sub_zero]
  rw [← hloop]
  constructor
  · rintro ⟨s', writes', hpull⟩
    obtain ⟨result, hresult, -⟩ := Option.bind_eq_some_iff.mp hpull
    exact ⟨result, hresult⟩
  · rintro ⟨⟨s', writes'⟩, hresult⟩
    exact ⟨s', _, Option.bind_eq_some_iff.mpr ⟨_, hresult, rfl⟩⟩

variable {reads : ℕ → BitVec 32} {i n : ℕ}

/-- A round with an interrupt that nobody registered changes nothing. -/
theorem waitRound_of_unknown (hunknown : s.known irq = false) :
    waitRound irq reads (s, i) = .inl (s, i + 1) := by
  have hfind : s.findRaisedInterruptStructure irq = none := by
    simpa [known] using hunknown
  simp [waitRound, testForInterrupt, hfind]

theorem waitRound_of_pending (hpending : 0 < s.pending irq) :
    ∃ s', waitRound irq reads (s, i) = .inr (some s') := by
  obtain ⟨interrupt, hfind, hnumber⟩ : ∃ interrupt,
      s.findRaisedInterruptStructure irq = some interrupt ∧ 0 < interrupt.number := by
    unfold pending at hpending
    cases hfind : s.findRaisedInterruptStructure irq with
    | none => simp [hfind] at hpending
    | some interrupt => exact ⟨interrupt, rfl, by simpa [hfind] using hpending⟩
  simp [waitRound, testForInterrupt, hfind, hnumber]

/-- A round in which a number overflows. -/
theorem waitRound_of_full (hknown : s.known irq = true) (hpending : s.pending irq = 0)
    (hfull : ¬ s.Fits (reads i)) : waitRound irq reads (s, i) = .inr none := by
  have hnone : s.pullRaisedIRQs (reads i) = none := by
    rw [← pull_isSome_iff] at hfull
    exact Option.eq_none_iff_forall_ne_some.mpr fun result hpull =>
      hfull ⟨result.1, result.2, hpull⟩
  rw [waitRound, test_of_pull hknown hpending, hnone]
  rfl

/-- The round in which the controller shows the line. -/
theorem waitRound_of_shown (hknown : s.known irq = true) (hpending : s.pending irq = 0)
    (hfits : s.Fits (reads i)) (hshown : bit (reads i).toNat irq = true) :
    ∃ s', waitRound irq reads (s, i) = .inr (some s') := by
  obtain ⟨s₁, writes, hpull⟩ := pull_isSome_iff.mpr hfits
  rw [waitRound, test_of_pull hknown hpending, hpull]
  simp [hshown]

/-- A round without the line counts the others. -/
theorem waitRound_of_quiet (hknown : s.known irq = true) (hpending : s.pending irq = 0)
    (hfits : s.Fits (reads i)) (hquiet : bit (reads i).toNat irq = false) :
    ∃ s', waitRound irq reads (s, i) = .inl (s', i + 1) ∧ s'.known irq = true ∧
      ∀ irq', s'.pending irq' =
        s.pending irq' + if bit (reads i).toNat irq' then 1 else 0 := by
  obtain ⟨s₁, writes, hpull⟩ := pull_isSome_iff.mpr hfits
  refine ⟨s₁, ?_, ?_, fun irq' => pending_pull hpull⟩
  · rw [waitRound, test_of_pull hknown hpending, hpull]
    simp [hquiet]
  · rw [known_pull hpull, hknown, Bool.true_or]

/-- In how many of `n` rounds from `i` on the controller shows a line. -/
def shown (reads : ℕ → BitVec 32) (i n : ℕ) (irq : ℤ) : ℕ :=
  (List.range' i n).countP fun k => bit (reads k).toNat irq

theorem shown_succ (irq : ℤ) : shown reads i (n + 1) irq =
    shown reads (i + 1) n irq + if bit (reads i).toNat irq then 1 else 0 := by
  rw [shown, List.range'_succ, List.countP_cons]
  rfl

theorem fits_iff (hint : ∀ irq, s.pending irq < 2 ^ 31) : s.Fits raised_irqs ↔
    ∀ irq, s.pending irq + (if bit raised_irqs.toNat irq then 1 else 0) < 2 ^ 31 := by
  refine forall_congr' fun irq => ?_
  have hirq := hint irq
  by_cases hbit : bit raised_irqs.toNat irq = true
  · rw [if_pos hbit, forall_prop_of_true hbit]
    omega
  · rw [if_neg hbit]
    exact iff_of_true (fun h => absurd h hbit) hirq

theorem not_ends_of_unknown (hunknown : s.known irq = false) (n : ℕ)
    (r : Option InterruptController) : ¬ Loop.Ends (waitRound irq reads) (s, i) n r := by
  induction n generalizing i with
  | zero => exact Loop.not_ends_zero
  | succ n ih =>
    rw [Loop.ends_succ_iff (waitRound_of_unknown hunknown)]
    exact ih

/-- The wait for an interrupt that has to be pulled. -/
theorem ends_iff_of_pull (hint : ∀ irq, s.pending irq < 2 ^ 31) (hknown : s.known irq = true)
    (hpending : s.pending irq = 0) :
    (∃ s', Loop.Ends (waitRound irq reads) (s, i) (n + 1) (some s')) ↔
      bit (reads (i + n)).toNat irq = true ∧ (∀ k < n, ¬ bit (reads (i + k)).toNat irq = true) ∧
        ∀ irq', s.pending irq' + shown reads i (n + 1) irq' < 2 ^ 31 := by
  induction n using Nat.strongRecOn generalizing s i with
  | ind n ih =>
    by_cases hfits : s.Fits (reads i)
    · cases hbit : bit (reads i).toNat irq with
      | true =>
        obtain ⟨s', hround⟩ := waitRound_of_shown hknown hpending hfits hbit
        simp only [Loop.ends_iff_of_now hround]
        constructor
        · rintro ⟨-, hn, -⟩
          obtain rfl : n = 0 := by omega
          refine ⟨hbit, by simp, fun irq' => ?_⟩
          rw [shown_succ]
          simpa [shown] using (fits_iff hint).mp hfits irq'
        · rintro ⟨-, hearlier, -⟩
          have hn : n = 0 := by
            by_contra hn
            exact hearlier 0 (by omega) hbit
          exact ⟨s', by omega, rfl⟩
      | false =>
        obtain ⟨s', hround, hknown', hpending'⟩ :=
          waitRound_of_quiet hknown hpending hfits hbit
        simp only [Loop.ends_succ_iff hround]
        cases n with
        | zero =>
          refine iff_of_false ?_ (by simp [hbit])
          rintro ⟨u, hend⟩
          exact Loop.not_ends_zero hend
        | succ n =>
          have hint' : ∀ irq', s'.pending irq' < 2 ^ 31 := fun irq' =>
            hpending' irq' ▸ (fits_iff hint).mp hfits irq'
          have hnone : s'.pending irq = 0 := by
            rw [hpending', hpending, hbit]
            rfl
          have hsum : ∀ irq', s'.pending irq' + shown reads (i + 1) (n + 1) irq' =
              s.pending irq' + shown reads i (n + 1 + 1) irq' := by
            intro irq'
            rw [hpending', shown_succ (n := n + 1)]
            omega
          have hshift : ∀ k, i + 1 + k = i + (k + 1) := fun k => by omega
          rw [ih n (Nat.lt_succ_self n) hint' hknown' hnone, hshift]
          simp only [hsum, hshift]
          refine and_congr_right fun _ => and_congr_left fun _ => ?_
          constructor
          · intro hearlier k hk
            cases k with
            | zero => simp [hbit]
            | succ k => exact hearlier k (by omega)
          · exact fun hearlier k hk => hearlier (k + 1) (by omega)
    · simp only [Loop.ends_iff_of_now (waitRound_of_full hknown hpending hfits)]
      refine iff_of_false (by simp) ?_
      rintro ⟨-, -, hroom⟩
      refine hfits ((fits_iff hint).mpr fun irq' => ?_)
      have hirq := hroom irq'
      rw [shown_succ] at hirq
      omega

/-- **When a wait returns.** A wait for a registered interrupt comes back in the first round if the
interrupt was seen before, else in the round in which the controller first shows it, when no number
overflows up to then; a wait for another one does nothing for ever. -/
theorem waitForInterrupt_iff (irq : ℤ) (reads : ℕ → BitVec 32) :
    ((∀ irq', s.pending irq' < 2 ^ 31) → ∀ n,
      ((∃ s', Loop.Ends (waitRound irq reads) (s, i) (n + 1) (some s')) ↔
        s.known irq = true ∧
          if 0 < s.pending irq then n = 0
          else bit (reads (i + n)).toNat irq = true ∧
            (∀ k < n, ¬ bit (reads (i + k)).toNat irq = true) ∧
            ∀ irq', s.pending irq' + shown reads i (n + 1) irq' < 2 ^ 31)) ∧
    (s.known irq = false → ∀ n r, ¬ Loop.Ends (waitRound irq reads) (s, i) n r) := by
  refine ⟨fun hint n => ?_, not_ends_of_unknown⟩
  cases hknown : s.known irq with
  | false =>
    refine iff_of_false ?_ (by simp)
    rintro ⟨s', hend⟩
    exact not_ends_of_unknown hknown _ _ hend
  | true =>
    rw [eq_self, true_and]
    by_cases hpending : 0 < s.pending irq
    · obtain ⟨s', hround⟩ : ∃ s', waitRound irq reads (s, i) = .inr (some s') :=
        waitRound_of_pending hpending
      rw [if_pos hpending]
      simp only [Loop.ends_iff_of_now hround]
      exact ⟨fun ⟨_, hn, _⟩ => by omega, fun hn => ⟨s', by omega, rfl⟩⟩
    · rw [if_neg hpending]
      exact ends_iff_of_pull hint hknown (by omega)

/-- Line 3 is registered and shown in the third round. -/
theorem waitForInterrupt_iff_smallTest :
    ∃ s', Loop.Ends (waitRound 3 fun i => if i = 2 then 8 else 0) (smallTest.pre, 0) 3
      (some s') := by
  have hnone : ∀ irq, smallTest.pre.pending irq = 0 := by
    intro irq
    unfold pending findRaisedInterruptStructure smallTest
    by_cases hirq : irq = 3
    · simp [hirq]
    · simp [Ne.symm hirq]
  have hshown : ∀ irq, shown (fun i => if i = 2 then 8 else 0) 0 (2 + 1) irq ≤ 3 :=
    fun _ => List.countP_le_length.trans_eq List.length_range'
  refine ((waitForInterrupt_iff 3 _).1 (fun irq => by simp [hnone irq]) 2).mpr ⟨by decide, ?_⟩
  rw [if_neg (by decide)]
  refine ⟨by decide, fun k hk => ?_, fun irq => ?_⟩
  · simp [hk.ne, bit]
  · have := hshown irq
    rw [hnone irq]
    omega

/-! ## The enabled lines -/

/-- What the driver relies on of the register of enabled lines: a write replaces them, adds some,
takes some away, or leaves them. -/
structure EnableRegister where
  after : BitVec 32 → MmioWrite → BitVec 32
  replace : ∀ lines word, after lines (0x8, word) = word
  add : ∀ lines word, after lines (0x10, word) = lines ||| word
  remove : ∀ lines word, after lines (0x14, word) = lines &&& ~~~word
  acknowledge : ∀ lines word, after lines (0x0C, word) = lines
  master : ∀ lines word, after lines (0x1C, word) = lines

/-- The driver with the lines that its writes leave enabled. -/
def stepWith (register : EnableRegister) (s : InterruptController × BitVec 32) (call : Call) :
    Option ((InterruptController × BitVec 32) × Output) := do
  let (s', output) ← s.1.step call
  return ((s', output.writes.foldl register.after s.2), output)

/-- The enabled lines are those that somebody waits for. -/
def Waited (s : InterruptController × BitVec 32) : Prop :=
  ∀ irq, bit s.2.toNat irq = s.1.active irq

/-- A registration that replaces the enabled lines puts there what is waited for, and its own. -/
def ReplacesWaited (t : Transition (InterruptController × BitVec 32) Call Output) : Prop :=
  ∀ irq, t.input = .register irq true → ¬ t.pre.1.active irq = true →
    t.pre.1.newHwInterrupts irq ≠ t.pre.1.enabled_hw_interrupts →
      ∀ irq', bit (t.pre.1.newHwInterrupts irq).toNat irq' =
        (t.pre.1.active irq' || decide (irq' = irq))

variable {a b : BitVec 32}

theorem bit_or : bit (a ||| b).toNat irq = (bit a.toNat irq || bit b.toNat irq) := by
  unfold bit
  rw [BitVec.toNat_or, Nat.testBit_or, Bool.and_or_distrib_left]

theorem bit_and_not : bit (a &&& ~~~b).toNat irq = (bit a.toNat irq && !bit b.toNat irq) := by
  by_cases hline : 0 ≤ irq ∧ irq < 32
  · have hlt : irq.toNat < 32 := by omega
    unfold bit
    rw [BitVec.testBit_toNat, BitVec.testBit_toNat, BitVec.testBit_toNat, BitVec.getLsbD_and,
      BitVec.getLsbD_not]
    simp [hline.1, hlt]
  · have hnone : ∀ word : BitVec 32, bit word.toNat irq = false := by
      intro word
      exact Bool.eq_false_iff.mpr fun hbit => hline (lt_of_bit hbit)
    rw [hnone, hnone, Bool.false_and]

theorem bit_line (h : 0 ≤ irq ∧ irq < 32) :
    bit (1#32 <<< irq.toNat).toNat irq' = decide (irq' = irq) := by
  have hlt : irq.toNat < 32 := by omega
  have htwo : (1#32 <<< irq.toNat).toNat = 2 ^ irq.toNat := by
    rw [← BitVec.twoPow_eq, BitVec.toNat_twoPow_of_lt hlt]
  rw [htwo, bit, Nat.testBit_two_pow]
  by_cases hirq : irq' = irq
  · simp [hirq, h.1]
  · by_cases hpos : 0 ≤ irq'
    · have hne : ¬ irq.toNat = irq'.toNat := by omega
      simp [hirq, hne]
    · simp [hirq, hpos]

variable {register : EnableRegister} {lines : List ℕ}

theorem bit_disable (hlines : ∀ line ∈ lines, line < 32) :
    bit ((disable lines).foldl register.after a).toNat irq =
      (bit a.toNat irq && !decide (∃ line ∈ lines, irq = (line : ℕ))) := by
  induction lines generalizing a with
  | nil => simp [disable]
  | cons line rest ih =>
    rw [disable, List.map_cons, List.foldl_cons, ← disable,
      ih fun l hl => hlines l (List.mem_cons_of_mem _ hl), register.remove, bit_and_not]
    have hline := hlines line List.mem_cons_self
    have hrange : 0 ≤ (line : ℤ) ∧ (line : ℤ) < 32 := by omega
    have hbit : bit (1#32 <<< (line : ℤ).toNat).toNat irq = decide (irq = line) := bit_line hrange
    rw [Int.toNat_natCast] at hbit
    rw [hbit]
    simp [Bool.and_assoc]

/-- A pull takes away the lines it counts. -/
theorem bit_pull (hpull : s.pullRaisedIRQs raised_irqs = some (s', writes)) :
    bit (writes.foldl register.after a).toNat irq =
      (bit a.toNat irq && !bit raised_irqs.toNat irq) := by
  obtain ⟨-, -, lines, rfl, hlines⟩ := pull_spec hpull
  have hlt : ∀ line ∈ lines, line < 32 := by
    intro line hline
    have hbit := lt_of_bit ((hlines line).mp hline)
    omega
  have hmem : (∃ line ∈ lines, irq = (line : ℕ)) ↔ bit raised_irqs.toNat irq = true := by
    constructor
    · rintro ⟨line, hline, rfl⟩
      exact (hlines line).mp hline
    · intro hbit
      have hirq : irq = (irq.toNat : ℕ) := by
        have hline := lt_of_bit hbit
        omega
      rw [hirq] at hbit
      exact ⟨irq.toNat, (hlines irq.toNat).mpr hbit, hirq⟩
  rw [List.foldl_append, List.foldl_cons, List.foldl_nil, register.acknowledge, bit_disable hlt]
  simp only [hmem, Bool.decide_eq_true]

theorem active_of_find (h : s.findRaisedInterruptStructure irq = some interrupt) :
    s.active irq = interrupt.active_waiting := by
  simp [active, h]

theorem active_pull (hpull : s.pullRaisedIRQs raised_irqs = some (s', writes)) :
    s'.active irq = (s.active irq && !bit raised_irqs.toNat irq) := by
  rw [active, (pull_spec hpull).2.1 irq]
  cases hbit : bit raised_irqs.toNat irq <;> simp [active]

theorem active_assign (h : s.findRaisedInterruptStructure irq = some interrupt)
    (hsame : interrupt.active_waiting = active_waiting) :
    (s.assign irq number active_waiting).active irq' = s.active irq' := by
  rw [active, find_assign_of_find h]
  by_cases hirq : irq' = irq
  · rw [if_pos hirq, hirq, active_of_find h, hsame]
    rfl
  · rw [if_neg hirq]
    rfl

/-- A test keeps the lines waited for enabled, and no others. -/
theorem Waited.test {lines : BitVec 32} (h : Waited (s, lines))
    (htest : s.testForInterrupt irq raised_irqs = some (s', output)) :
    Waited (s', output.writes.foldl register.after lines) := by
  intro irq'
  have hpre : bit lines.toNat irq' = s.active irq' := h irq'
  show bit (output.writes.foldl register.after lines).toNat irq' = s'.active irq'
  rcases test_cases htest with ⟨-, hs', houtput⟩ | ⟨interrupt, hfind, -, hs', houtput⟩ |
    ⟨interrupt, s₁, writes, hfind, -, hpull, hend⟩
  · rw [hs', houtput]
    exact hpre
  · rw [hs', houtput, active_assign hfind rfl]
    exact hpre
  · split at hend
    case isTrue hbit =>
      have hfind₁ := (pull_spec hpull).2.1 irq
      rw [if_pos hbit] at hfind₁
      rw [hend.1, hend.2, active_assign hfind₁ rfl, bit_pull hpull, active_pull hpull, hpre]
    case isFalse =>
      rw [hend.1, hend.2, bit_pull hpull, active_pull hpull, hpre]

theorem active_register (h : s.registerInterrupt irq generate_hw_interrupt = some (s', output)) :
    s'.active irq' = (s.active irq' || decide (irq' = irq)) := by
  rw [active, (register_spec h).1 irq']
  by_cases hirq : irq' = irq
  · simp [hirq]
  · simp [hirq, active]

/-- What a registration leaves enabled. -/
theorem bit_register {lines : BitVec 32}
    (h : s.registerInterrupt irq generate_hw_interrupt = some (s', output)) :
    bit (output.writes.foldl register.after lines).toNat irq' =
      if s.active irq then bit lines.toNat irq'
      else if generate_hw_interrupt ∧ s.newHwInterrupts irq ≠ s.enabled_hw_interrupts then
        bit (s.newHwInterrupts irq).toNat irq'
      else bit lines.toNat irq' || decide (irq' = irq) := by
  obtain ⟨-, -, -, hcases⟩ := register_spec h
  by_cases hwaits : s.active irq = true
  · rw [if_pos hwaits] at hcases ⊢
    rw [hcases.2]
    rfl
  · rw [if_neg hwaits] at hcases ⊢
    obtain ⟨hline, hcases⟩ := hcases
    split at hcases
    case isTrue hnew =>
      rw [if_pos hnew, hcases.2, List.foldl_cons, List.foldl_cons, List.foldl_cons, List.foldl_nil,
        register.replace, register.add, register.master, bit_or, bit_line hline, newHwInterrupts,
        bit_or, bit_line hline, Bool.or_assoc, Bool.or_self]
    case isFalse hnew =>
      rw [if_neg hnew, hcases.2, List.foldl_cons, List.foldl_cons, List.foldl_nil, register.add,
        register.master, bit_or, bit_line hline]

theorem waited_iff {t : Transition (InterruptController × BitVec 32) Call Output}
    (hof : t.Of (stepWith register)) (h : Waited t.pre) : Waited t.post ↔ ReplacesWaited t := by
  obtain ⟨⟨s', output⟩, hstep, hend⟩ := Option.bind_eq_some_iff.mp hof
  obtain ⟨hpost, -⟩ := Prod.mk.inj (Option.some.inj hend)
  unfold ReplacesWaited
  rw [← hpost]
  cases hinput : t.input with
  | test irq raised_irqs =>
    rw [hinput] at hstep
    exact iff_of_true (Waited.test h hstep) (by simp)
  | register irq generate_hw_interrupt =>
    rw [hinput] at hstep
    have hwaited : Waited (s', output.writes.foldl register.after t.pre.2) ↔ ∀ irq',
        bit (output.writes.foldl register.after t.pre.2).toNat irq' =
          (t.pre.1.active irq' || decide (irq' = irq)) :=
      forall_congr' fun irq' => by rw [← active_register hstep]
    rw [hwaited]
    simp only [bit_register hstep]
    by_cases hwaits : t.pre.1.active irq = true
    · simp only [if_pos hwaits]
      refine iff_of_true (fun irq' => ?_) ?_
      · rw [h irq']
        by_cases hirq : irq' = irq
        · simp [hirq, hwaits]
        · simp [hirq]
      · rintro _ ⟨rfl, rfl⟩ hidle
        exact absurd hwaits hidle
    · simp only [if_neg hwaits]
      by_cases hnew : generate_hw_interrupt = true ∧
          t.pre.1.newHwInterrupts irq ≠ t.pre.1.enabled_hw_interrupts
      · simp only [if_pos hnew]
        constructor
        · rintro hall _ ⟨rfl, rfl⟩ - -
          exact hall
        · intro hall
          exact hall irq (by rw [hnew.1]) hwaits hnew.2
      · simp only [if_neg hnew]
        refine iff_of_true (fun irq' => by rw [h irq']) ?_
        rintro _ ⟨rfl, rfl⟩ - hne
        exact absurd ⟨rfl, hne⟩ hnew

/-- **The enabled lines over a run** are those that somebody waits for, in every state, exactly when
every registration that replaces them puts there what is waited for. -/
theorem waited_run_iff
    {ts : List (Transition (InterruptController × BitVec 32) Call Output)}
    {u : InterruptController × BitVec 32} (register : EnableRegister)
    (hrun : Run (stepWith register) (opened, 0) ts u) :
    (∀ t ∈ ts, Waited t.post) ↔ ∀ t ∈ ts, ReplacesWaited t := by
  have hopened : Waited (opened, 0) := by
    intro irq
    show bit 0 irq = false
    simp [bit]
  exact hrun.forall_iff Waited (fun t hof hpre => waited_iff hof hpre)
    (fun t hof hpre hC => (waited_iff hof hpre).mpr hC) hopened

def smallRegister : EnableRegister where
  after := fun lines (offset, word) =>
    if offset = 0x8 then word
    else if offset = 0x10 then lines ||| word
    else if offset = 0x14 then lines &&& ~~~word
    else lines
  replace := fun _ _ => rfl
  add := fun _ _ => rfl
  remove := fun _ _ => rfl
  acknowledge := fun _ _ => rfl
  master := fun _ _ => rfl

/-- Line 0 is registered, and then line 1 with a hardware interrupt. -/
def smallRegistrations : List (Transition (InterruptController × BitVec 32) Call Output) :=
  [⟨(opened, 0), .register 0 false, ⟨[(0x10, 1), (0x1C, 3)], .registered⟩,
    (⟨[⟨0, 0, true⟩], 0⟩, 1)⟩,
   ⟨(⟨[⟨0, 0, true⟩], 0⟩, 1), .register 1 true,
    ⟨[(0x8, 2), (0x10, 2), (0x1C, 3)], .registered⟩, (⟨[⟨1, 0, true⟩, ⟨0, 0, true⟩], 2⟩, 2)⟩]

/-- The second registration switches line 0 off, for which somebody waits. -/
theorem waited_run_iff_smallRegistrations : ¬ ∀ t ∈ smallRegistrations, Waited t.post := by
  have hrun : Run (stepWith smallRegister) (opened, 0) smallRegistrations
      (⟨[⟨1, 0, true⟩, ⟨0, 0, true⟩], 2⟩, 2) :=
    ⟨rfl, rfl, rfl, rfl, rfl⟩
  rw [waited_run_iff smallRegister hrun]
  intro hall
  have hsecond := hall _ (List.mem_cons_of_mem _ List.mem_cons_self) 1 rfl (by decide) (by decide) 0
  exact absurd hsecond (by decide)

end InterruptController

end HardApi
