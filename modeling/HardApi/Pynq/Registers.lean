import HardApi.Lib.BitRange
import HardApi.Lib.Mmio
import Mathlib.Data.Finset.Range

/-!
# Registers and clocks

Ranges of bits in the words of a window, and the clocks of the Zynq over them. `PYNQ_setRegister`
and `PYNQ_setRegisterRange` read the register they are given and write the one at offset `0`.

`clock_answers` says that no call changes what the clock functions answer, and `setAndRead_spec`
what setting a range does to the window and when the data can be read back.
-/

namespace HardApi

open Mmio

abbrev Driver (β : Type) := Prog ℕ (BitVec 32) β

/-- `PYNQ_readMMIO` of a word. -/
def readMmio (offset : ℕ) : Driver (BitVec 32) := .read offset .ret

/-- `PYNQ_writeMMIO` of a word. -/
def writeMmio (offset : ℕ) (data : BitVec 32) : Driver Unit := .write offset data (.ret ())

namespace Registers

/-- The return code with what the call returns; `undefined` for an undefined shift or
conversion. -/
inductive Answer where
  | success
  | error
  | undefined
  | data (data : BitVec 32)
  /-- A frequency in MHz, before the division and its rounding. -/
  | freq (numerator denominator : ℕ)
  deriving DecidableEq, Repr

abbrev Checked (β : Type) := ExceptT Answer (Prog ℕ (BitVec 32)) β

/-- `1 << index`. -/
def bitMask (index : ℤ) : Checked (BitVec 32) :=
  if 0 ≤ index ∧ index < 32 then return 1#32 <<< index.toNat else throw .undefined

/-- `((1 << width) - 1) << shift`. -/
def rangeMask (width shift : ℤ) : Checked (BitVec 32) :=
  if 0 ≤ width ∧ width < 31 ∧ 0 ≤ shift ∧ shift < 32 then
    return BitRange.mask width.toNat shift.toNat
  else throw .undefined

def readRegister (address : ℕ) (index : ℤ) : Checked (BitVec 32) := do
  let read_data ← readMmio address
  let mask ← bitMask index
  return (read_data &&& mask) >>> index.toNat

def readRegisterRange (address : ℕ) (start_index stop_index : ℤ) : Checked (BitVec 32) := do
  let read_data ← readMmio address
  if start_index ≥ stop_index then
    let mask ← rangeMask (start_index - stop_index + 1) stop_index
    return (read_data &&& mask) >>> stop_index.toNat
  else
    let mask ← rangeMask (stop_index - start_index + 1) start_index
    return (read_data &&& mask) >>> start_index.toNat

def setRegister (address : ℕ) (index : ℤ) (data : BitVec 32) : Checked Unit := do
  let read_data ← readMmio address
  let mask ← bitMask index
  writeMmio 0x00 ((read_data &&& ~~~mask) ||| data <<< index.toNat)

def setRegisterRange (address : ℕ) (start_index stop_index : ℤ) (data : BitVec 32) :
    Checked Unit := do
  let read_data ← readMmio address
  let count := if start_index ≥ stop_index then start_index - stop_index + 1
    else stop_index - start_index + 1
  let shift := if start_index ≥ stop_index then stop_index else start_index
  let mask ← rangeMask count shift
  writeMmio 0x00 ((read_data &&& ~~~mask) ||| data <<< shift.toNat)

/-! ## Clocks -/

section

-- What `uname` says, if it says anything.
variable (machine : Option String)

def checkMachineType : Checked Unit :=
  if machine = some "armv7l" then return () else throw .error

/-- The register of the PLL that feeds a clock, `pll_reg` in the source. -/
def pllRegister (src_clk_idx : BitVec 32) : ℕ :=
  if src_clk_idx < 2 then 0x108 else if src_clk_idx = 2 then 0x100 else 0x104

/-- `getSrcClkMHZ`, a multiple of 50. -/
def getSrcClkMHZ (offset : ℕ) : Checked ℕ := do
  let src_clk_idx ← readRegisterRange offset 4 5
  let pll_fbdiv ← readRegisterRange (pllRegister src_clk_idx) 12 18
  return 50 * pll_fbdiv.toNat

def getCPUClockFreq : Checked Answer := do
  checkMachineType machine
  let arm_clk_odiv ← readRegisterRange 0x120 8 13
  let pll_fbdiv ← readRegisterRange 0x100 12 18
  return .freq (50 * pll_fbdiv.toNat) arm_clk_odiv.toNat

def plOffset (clock_index : ℕ) : ℕ := 0x170 + 0x10 * clock_index

def getPLClockFreq (clock_index : ℕ) : Checked Answer := do
  checkMachineType machine
  if clock_index ≥ 4 then throw .error
  let src_clk_mhz ← getSrcClkMHZ (plOffset clock_index)
  let pl_clk_odiv0 ← readRegisterRange (plOffset clock_index) 20 25
  let pl_clk_odiv1 ← readRegisterRange (plOffset clock_index) 8 13
  return .freq src_clk_mhz (pl_clk_odiv0.toNat * pl_clk_odiv1.toNat)

/-- The check of a divider, with the width of its field where the source takes what the field
holds. -/
def checkDivider (my_d : ℤ) (pl_clk_odiv : BitVec 32) : Checked Unit := do
  if my_d ≤ 0 then throw .error
  if 31 ≤ pl_clk_odiv.toNat then throw .undefined
  if my_d > 2 ^ pl_clk_odiv.toNat - 1 then throw .error

/-- The dividers; one that is not given comes from the frequency. -/
def dividers (convert : ℤ → Checked ℤ) : Option ℤ → Option ℤ → Checked (ℤ × ℤ)
  | some d0, none => do return (d0, ← convert d0)
  | none, some d1 => do return (← convert d1, d1)
  | some d0, some d1 => return (d0, d1)
  | none, none => throw .error

variable {F : Type}

/-- `PYNQ_setPLClockFreq`; `divide src freq d` is the `int` of `src / freq / d`, if it is one. -/
def setPLClockFreq (divide : ℕ → F → ℤ → Option ℤ) (clock_index : ℕ) (freq : F)
    (div0 div1 : Option ℤ) : Checked Answer := do
  checkMachineType machine
  if clock_index ≥ 4 then throw .error
  if div0 = none ∧ div1 = none then throw .error
  let src_clk_mhz ← getSrcClkMHZ (plOffset clock_index)
  let (my_d0, my_d1) ← dividers (fun d =>
    match divide src_clk_mhz freq d with
    | some my_d => return my_d
    | none => throw .undefined) div0 div1
  let pl_clk_odiv0 ← readRegisterRange (plOffset clock_index) 20 25
  let pl_clk_odiv1 ← readRegisterRange (plOffset clock_index) 8 13
  checkDivider my_d0 pl_clk_odiv0
  checkDivider my_d1 pl_clk_odiv1
  setRegisterRange (plOffset clock_index) 20 25 (BitVec.ofInt 32 my_d0)
  setRegisterRange (plOffset clock_index) 8 13 (BitVec.ofInt 32 my_d1)
  return .success

/-- The calls on one window. -/
inductive Call (F : Type) where
  | readRegister (address : ℕ) (index : ℤ)
  | readRegisterRange (address : ℕ) (start_index stop_index : ℤ)
  | setRegister (address : ℕ) (index : ℤ) (data : BitVec 32)
  | setRegisterRange (address : ℕ) (start_index stop_index : ℤ) (data : BitVec 32)
  | getCPUClockFreq
  | getPLClockFreq (clock_index : ℕ)
  | setPLClockFreq (clock_index : ℕ) (freq : F) (div0 div1 : Option ℤ)

def answerOf (p : Checked Answer) : Driver Answer := p.run.bind fun
  | .ok answer => .ret answer
  | .error answer => .ret answer

def callProg (divide : ℕ → F → ℤ → Option ℤ) : Call F → Driver Answer
  | .readRegister address index => answerOf do return .data (← readRegister address index)
  | .readRegisterRange address start_index stop_index =>
    answerOf do return .data (← readRegisterRange address start_index stop_index)
  | .setRegister address index data => answerOf do
    setRegister address index data
    return .success
  | .setRegisterRange address start_index stop_index data => answerOf do
    setRegisterRange address start_index stop_index data
    return .success
  | .getCPUClockFreq => answerOf (getCPUClockFreq machine)
  | .getPLClockFreq clock_index => answerOf (getPLClockFreq machine clock_index)
  | .setPLClockFreq clock_index freq div0 div1 =>
    answerOf (setPLClockFreq machine divide clock_index freq div0 div1)

/-- The calls that are about clocks. -/
def Call.IsClock : Call F → Prop
  | .getCPUClockFreq => True
  | .getPLClockFreq _ => True
  | .setPLClockFreq _ _ _ _ => True
  | _ => False

abbrev clientProg (divide : ℕ → F → ℤ → Option ℤ) (client : Client (Call F) Answer) :
    Driver (Unit × History (Call F) Answer) :=
  client.prog (fun _ c => (callProg machine divide c).bind fun answer => .ret ((), answer)) () []

end

/-! ## What the calls use -/

section

variable {R W : ℕ → Prop} {β γ : Type} {address : ℕ} {index start_index stop_index : ℤ}
  {data : BitVec 32}

theorem uses_bind {p : Checked β} {g : β → Checked γ} (hp : p.run.Uses R W)
    (hg : ∀ b, (g b).run.Uses R W) : (p >>= g).run.Uses R W := by
  rw [ExceptT.run_bind]
  refine Prog.uses_bind hp fun r => ?_
  cases r with
  | ok b => exact hg b
  | error answer => trivial

theorem uses_readMmio (h : R address) :
    (liftM (readMmio address) : Checked (BitVec 32)).run.Uses R W :=
  ⟨h, fun _ => trivial⟩

theorem uses_writeMmio : (liftM (writeMmio 0 data) : Checked Unit).run.Uses R (· = 0) :=
  ⟨rfl, trivial⟩

theorem uses_bitMask : (bitMask index).run.Uses R W := by
  unfold bitMask
  split_ifs <;> trivial

theorem uses_rangeMask {width shift : ℤ} : (rangeMask width shift).run.Uses R W := by
  unfold rangeMask
  split_ifs <;> trivial

theorem uses_readRegister (h : R address) : (readRegister address index).run.Uses R W :=
  uses_bind (uses_readMmio h) fun _ => uses_bind uses_bitMask fun _ => trivial

theorem uses_readRegisterRange (h : R address) :
    (readRegisterRange address start_index stop_index).run.Uses R W := by
  refine uses_bind (uses_readMmio h) fun _ => ?_
  split_ifs
  · exact uses_bind uses_rangeMask fun _ => trivial
  · exact uses_bind uses_rangeMask fun _ => trivial

theorem uses_setRegister (h : R address) :
    (setRegister address index data).run.Uses R (· = 0) :=
  uses_bind (uses_readMmio h) fun _ => uses_bind uses_bitMask fun _ => uses_writeMmio

theorem uses_setRegisterRange (h : R address) :
    (setRegisterRange address start_index stop_index data).run.Uses R (· = 0) :=
  uses_bind (uses_readMmio h) fun _ => uses_bind uses_rangeMask fun _ => uses_writeMmio

/-- What is left of a check that throws. -/
theorem uses_check {p : Prop} [Decidable p] {answer : Answer} {g : Checked γ}
    (h : ¬ p → g.run.Uses R W) :
    (do if p then throw answer
        g : Checked γ).run.Uses R W := by
  by_cases hp : p
  · rw [if_pos hp]
    trivial
  · rw [if_neg hp]
    exact h hp

def ClockRegister (a : ℕ) : Prop :=
  a = 0x100 ∨ a = 0x104 ∨ a = 0x108 ∨ a = 0x120 ∨ ∃ i < 4, a = plOffset i

theorem clockRegister_plOffset {clock_index : ℕ} (h : ¬ clock_index ≥ 4) :
    ClockRegister (plOffset clock_index) :=
  Or.inr (Or.inr (Or.inr (Or.inr ⟨clock_index, Nat.lt_of_not_le h, rfl⟩)))

theorem clockRegister_ne_zero {a : ℕ} (h : ClockRegister a) : a ≠ 0 := by
  rcases h with rfl | rfl | rfl | rfl | ⟨i, -, rfl⟩ <;> simp [plOffset]

theorem uses_getSrcClkMHZ {offset : ℕ} (h : ClockRegister offset) :
    (getSrcClkMHZ offset).run.Uses ClockRegister W := by
  refine uses_bind (uses_readRegisterRange h) fun src_clk_idx => ?_
  refine uses_bind (uses_readRegisterRange ?_) fun _ => trivial
  unfold ClockRegister pllRegister
  split_ifs <;> simp

theorem uses_checkMachineType {machine : Option String} :
    (checkMachineType machine).run.Uses R W := by
  unfold checkMachineType
  split_ifs <;> trivial

theorem uses_getCPUClockFreq {machine : Option String} :
    (getCPUClockFreq machine).run.Uses ClockRegister (· = 0) := by
  refine uses_bind uses_checkMachineType fun _ => ?_
  refine uses_bind (uses_readRegisterRange (by simp [ClockRegister])) fun _ => ?_
  exact uses_bind (uses_readRegisterRange (by simp [ClockRegister])) fun _ => trivial

theorem uses_getPLClockFreq {machine : Option String} {clock_index : ℕ} :
    (getPLClockFreq machine clock_index).run.Uses ClockRegister (· = 0) := by
  refine uses_bind uses_checkMachineType fun _ => uses_check fun hindex => ?_
  have hoffset := clockRegister_plOffset hindex
  refine uses_bind (uses_getSrcClkMHZ hoffset) fun _ => ?_
  refine uses_bind (uses_readRegisterRange hoffset) fun _ => ?_
  exact uses_bind (uses_readRegisterRange hoffset) fun _ => trivial

theorem uses_checkDivider {my_d : ℤ} {pl_clk_odiv : BitVec 32} :
    (checkDivider my_d pl_clk_odiv).run.Uses R W := by
  refine uses_check fun _ => uses_check fun _ => ?_
  split_ifs <;> trivial

theorem uses_dividers {convert : ℤ → Checked ℤ} (h : ∀ d, (convert d).run.Uses R W)
    (div0 div1 : Option ℤ) : (dividers convert div0 div1).run.Uses R W := by
  cases div0 with
  | none =>
    cases div1 with
    | none => trivial
    | some d1 => exact uses_bind (h d1) fun _ => trivial
  | some d0 =>
    cases div1 with
    | none => exact uses_bind (h d0) fun _ => trivial
    | some d1 => trivial

theorem uses_setPLClockFreq {machine : Option String} {F : Type}
    {divide : ℕ → F → ℤ → Option ℤ} {clock_index : ℕ} {freq : F} {div0 div1 : Option ℤ} :
    (setPLClockFreq machine divide clock_index freq div0 div1).run.Uses ClockRegister (· = 0) := by
  refine uses_bind uses_checkMachineType fun _ => uses_check fun hindex => uses_check fun _ => ?_
  have hoffset := clockRegister_plOffset hindex
  refine uses_bind (uses_getSrcClkMHZ hoffset) fun src_clk_mhz => ?_
  refine uses_bind (uses_dividers (fun d => ?_) div0 div1) fun _ => ?_
  · cases divide src_clk_mhz freq d <;> trivial
  · refine uses_bind (uses_readRegisterRange hoffset) fun _ => ?_
    refine uses_bind (uses_readRegisterRange hoffset) fun _ => ?_
    refine uses_bind uses_checkDivider fun _ => uses_bind uses_checkDivider fun _ => ?_
    refine uses_bind (uses_setRegisterRange hoffset) fun _ => ?_
    exact uses_bind (uses_setRegisterRange hoffset) fun _ => trivial

theorem uses_answerOf {p : Checked Answer} (h : p.run.Uses R W) : (answerOf p).Uses R W := by
  refine Prog.uses_bind h fun r => ?_
  cases r <;> trivial

variable {machine : Option String} {F : Type} {divide : ℕ → F → ℤ → Option ℤ}

/-- Every call writes at offset `0` and nowhere else. -/
theorem uses_callProg (c : Call F) :
    (callProg machine divide c).Uses (fun _ => True) (· = 0) := by
  cases c with
  | readRegister address index =>
    exact uses_answerOf (uses_bind (uses_readRegister trivial) fun _ => trivial)
  | readRegisterRange address start_index stop_index =>
    exact uses_answerOf (uses_bind (uses_readRegisterRange trivial) fun _ => trivial)
  | setRegister address index data =>
    exact uses_answerOf (uses_bind (uses_setRegister trivial) fun _ => trivial)
  | setRegisterRange address start_index stop_index data =>
    exact uses_answerOf (uses_bind (uses_setRegisterRange trivial) fun _ => trivial)
  | getCPUClockFreq =>
    exact uses_answerOf (uses_getCPUClockFreq.mono fun _ _ => trivial)
  | getPLClockFreq clock_index =>
    exact uses_answerOf (uses_getPLClockFreq.mono fun _ _ => trivial)
  | setPLClockFreq clock_index freq div0 div1 =>
    exact uses_answerOf (uses_setPLClockFreq.mono fun _ _ => trivial)

/-- A clock call reads clock registers only, and so never what it writes. -/
theorem uses_callProg_clock {c : Call F} (h : c.IsClock) :
    (callProg machine divide c).Uses ClockRegister (· = 0) := by
  cases c with
  | getCPUClockFreq => exact uses_answerOf uses_getCPUClockFreq
  | getPLClockFreq clock_index => exact uses_answerOf uses_getPLClockFreq
  | setPLClockFreq clock_index freq div0 div1 => exact uses_answerOf uses_setPLClockFreq
  | _ => cases h

/-! ## Whole runs -/

variable {δ : Type*} {dev : Device ℕ (BitVec 32) δ} {words : ℕ → BitVec 32} {d e : δ}

/-- The clock registers hold `words`. -/
def ClockWords (dev : Device ℕ (BitVec 32) δ) (words : ℕ → BitVec 32) (d : δ) : Prop :=
  ∀ a, ClockRegister a → dev.read d a = words a

/-- Every clock call got the answer that it gets alone where registers always read `words`. -/
def Answered (machine : Option String) (divide : ℕ → F → ℤ → Option ℤ) (words : ℕ → BitVec 32)
    (history : History (Call F) Answer) : Prop :=
  ∀ c answer, (c, answer) ∈ history → c.IsClock →
    (callProg machine divide c).alone words = some answer

theorem Answered.concat {history : History (Call F) Answer} {c : Call F} {answer : Answer}
    (h : Answered machine divide words history)
    (hc : c.IsClock → (callProg machine divide c).alone words = some answer) :
    Answered machine divide words (history ++ [(c, answer)]) := by
  intro c' answer' hmem hclock
  rcases List.mem_append.mp hmem with hmem | hmem
  · exact h c' answer' hmem hclock
  · obtain ⟨rfl, rfl⟩ : c' = c ∧ answer' = answer := by simpa using hmem
    exact hc hclock

theorem wp_callProg (hkeeps : dev.Keeps (· = 0) (ClockWords dev words))
    (hd : ClockWords dev words d) (c : Call F) :
    (callProg machine divide c).wp dev (fun _ _ _ => True)
      (fun answer e => (c.IsClock → (callProg machine divide c).alone words = some answer) ∧
        ClockWords dev words e) d := by
  refine Prog.wp_frame hkeeps (uses_callProg c) hd ?_
  by_cases hclock : c.IsClock
  · refine Prog.wp_mono (fun _ _ halone _ => halone) ?_
    exact Prog.wp_alone hkeeps (uses_callProg_clock hclock) hd
  · exact Prog.wp_mono (fun _ _ _ h => absurd h hclock) Prog.wp_true

/-- **Clocks do not change.** In a window whose clock registers only a write at their offset
changes, every clock call of a client answers what it answers on the registers of the start,
whatever was set before it. -/
theorem clock_answers {client : Client (Call F) Answer} {history : History (Call F) Answer}
    (hkeeps : dev.Keeps (· = 0) (ClockWords dev words)) (hstart : ClockWords dev words d)
    (h : dev.Reaches (clientProg machine divide client) d (.ret ((), history)) e) :
    Answered machine divide words history := by
  have hinv := Client.inv_of_reaches
    (fun _ history d => Answered machine divide words history ∧ ClockWords dev words d)
    (fun _ _ _ _ hinv hmoved => ⟨hinv.1, hkeeps.moved hinv.2 hmoved⟩) ?_
    ⟨fun _ _ hmem => absurd hmem List.not_mem_nil, hstart⟩ h
  · exact hinv.1
  · intro _ history d c hinv
    rw [Prog.wp_bind]
    refine Prog.wp_mono (fun answer e hanswer f hf => ?_) (wp_callProg hkeeps hinv.2 c)
    exact ⟨hinv.1.concat hanswer.1, hkeeps.moved hanswer.2 hf⟩

/-! ## Ranges in a word -/

/-- The indices are inside a word and the shifts of the mask inside an `int`. -/
structure InWord (start_index stop_index : ℤ) : Prop where
  lower : 0 ≤ min start_index stop_index
  upper : max start_index stop_index < 32
  span : max start_index stop_index - min start_index stop_index < 30

/-- The bits between two indices, in either order. -/
def width (start_index stop_index : ℤ) : ℕ :=
  (max start_index stop_index - min start_index stop_index + 1).toNat

def shift (start_index stop_index : ℤ) : ℕ := (min start_index stop_index).toNat

theorem InWord.width_lt (h : InWord start_index stop_index) :
    width start_index stop_index < 32 := by
  have hspan := h.span
  unfold width
  omega

theorem InWord.fits (h : InWord start_index stop_index) :
    shift start_index stop_index + width start_index stop_index ≤ 32 := by
  obtain ⟨hlower, hupper, -⟩ := h
  unfold shift width
  omega

theorem rangeMask_eq {w s : ℤ} (h : 0 ≤ w ∧ w < 31 ∧ 0 ≤ s ∧ s < 32) :
    rangeMask w s = pure (BitRange.mask w.toNat s.toNat) :=
  if_pos h

/-- The two orders of the indices lead to the same mask and shift. -/
theorem InWord.cases (h : InWord start_index stop_index) :
    (stop_index ≤ start_index ∧ stop_index.toNat = shift start_index stop_index ∧
      rangeMask (start_index - stop_index + 1) stop_index = pure
        (BitRange.mask (width start_index stop_index) (shift start_index stop_index))) ∨
    (¬ stop_index ≤ start_index ∧ start_index.toNat = shift start_index stop_index ∧
      rangeMask (stop_index - start_index + 1) start_index = pure
        (BitRange.mask (width start_index stop_index) (shift start_index stop_index))) := by
  obtain ⟨hlower, hupper, hspan⟩ := h
  unfold width shift
  rcases le_or_gt stop_index start_index with hle | hlt
  · rw [max_eq_left hle, min_eq_right hle] at *
    exact Or.inl ⟨hle, rfl, rangeMask_eq (by omega)⟩
  · rw [max_eq_right hlt.le, min_eq_left hlt.le] at *
    exact Or.inr ⟨not_le.mpr hlt, rfl, rangeMask_eq (by omega)⟩

theorem run_readRegisterRange (h : InWord start_index stop_index) :
    (readRegisterRange address start_index stop_index).run = .read address fun word =>
      .ret (.ok (BitRange.get (width start_index stop_index) (shift start_index stop_index)
        word)) := by
  unfold readRegisterRange
  rcases h.cases with ⟨hle, hshift, hmask⟩ | ⟨hlt, hshift, hmask⟩
  · simp only [ge_iff_le, if_pos hle, hshift, hmask]
    rfl
  · simp only [ge_iff_le, if_neg hlt, hshift, hmask]
    rfl

theorem run_setRegisterRange (h : InWord start_index stop_index) :
    (setRegisterRange address start_index stop_index data).run = .read address fun word =>
      .write 0 (BitRange.put (width start_index stop_index) (shift start_index stop_index) word
        data) (.ret (.ok ())) := by
  unfold setRegisterRange
  rcases h.cases with ⟨hle, hshift, hmask⟩ | ⟨hlt, hshift, hmask⟩
  · simp only [ge_iff_le, if_pos hle, hshift, hmask]
    rfl
  · simp only [ge_iff_le, if_neg hlt, hshift, hmask]
    rfl

/-- The registers `A` of the window are words that only a write at their offset changes. -/
structure Plain (dev : Device ℕ (BitVec 32) δ) (A : ℕ → Prop) : Prop where
  moves : ∀ d e a, A a → dev.moves d e → dev.read e a = dev.read d a
  seen : ∀ d b a, A a → dev.read (dev.seen d b) a = dev.read d a
  write : ∀ d b x a, A a → A b → dev.read (dev.write d b x) a = if a = b then x else dev.read d a

theorem Plain.moved {A : ℕ → Prop} (h : Plain dev A) (hmoved : dev.Moved d e) {a : ℕ} (ha : A a) :
    dev.read e a = dev.read d a := by
  induction hmoved with
  | refl => rfl
  | tail _ hmove ih => exact (h.moves _ _ a ha hmove).trans ih

/-- `PYNQ_setRegisterRange` and then `PYNQ_readRegisterRange` of the same range. -/
def setAndRead (address : ℕ) (start_index stop_index : ℤ) (data : BitVec 32) :
    Checked (BitVec 32) := do
  setRegisterRange address start_index stop_index data
  readRegisterRange address start_index stop_index

theorem run_setAndRead (h : InWord start_index stop_index) :
    (setAndRead address start_index stop_index data).run = .read address fun word =>
      .write 0 (BitRange.put (width start_index stop_index) (shift start_index stop_index) word
        data) (.read address fun word' =>
          .ret (.ok (BitRange.get (width start_index stop_index)
            (shift start_index stop_index) word'))) := by
  unfold setAndRead
  rw [ExceptT.run_bind, run_setRegisterRange h, run_readRegisterRange h]
  rfl

/-- What is left after both: a copy of the addressed word at offset `0`, with the data in the range;
and what the second call returns. -/
structure SetAndRead (dev : Device ℕ (BitVec 32) δ) (A : ℕ → Prop) (address : ℕ)
    (start_index stop_index : ℤ) (data : BitVec 32) (d : δ) (r : Except Answer (BitVec 32))
    (e : δ) : Prop where
  copy : ∀ i < 32, (dev.read e 0).getLsbD i =
    if shift start_index stop_index ≤ i ∧
        i < shift start_index stop_index + width start_index stop_index then
      data.getLsbD (i - shift start_index stop_index)
    else (dev.read d address).getLsbD i
  frame : ∀ a, A a → a ≠ 0 → dev.read e a = dev.read d a
  readBack : r = .ok data ↔ address = 0 ∨ BitRange.get (width start_index stop_index)
    (shift start_index stop_index) (dev.read d address) = data

theorem wp_setAndRead {A : ℕ → Prop} (hplain : Plain dev A) (h0 : A 0) (haddress : A address)
    (hrange : InWord start_index stop_index)
    (hdata : BitRange.Fits (width start_index stop_index) data) :
    (setAndRead address start_index stop_index data).run.wp dev (fun _ _ _ => True)
      (SetAndRead dev A address start_index stop_index data d) d := by
  rw [run_setAndRead hrange]
  intro d₁ hd₁
  rw [hplain.moved hd₁ haddress]
  set word := BitRange.put (width start_index stop_index) (shift start_index stop_index)
    (dev.read d address) data with hword
  intro d₂ hd₂
  refine ⟨trivial, fun d₃ hd₃ e he => ?_⟩
  have hread : ∀ a, A a → dev.read d₃ a = if a = 0 then word else dev.read d a := by
    intro a ha
    rw [hplain.moved hd₃ ha, hplain.write _ _ _ _ ha h0, hplain.moved hd₂ ha,
      hplain.seen _ _ _ ha, hplain.moved hd₁ ha]
  have hend : ∀ a, A a → dev.read e a = dev.read d₃ a := by
    intro a ha
    rw [hplain.moved he ha, hplain.seen _ _ _ ha]
  refine ⟨fun i hi => ?_, fun a ha hne => ?_, ?_⟩
  · rw [hend 0 h0, hread 0 h0, if_pos rfl, hword]
    exact BitRange.getLsbD_put_of_fits hrange.width_lt hi hdata
  · rw [hend a ha, hread a ha, if_neg hne]
  · rw [Except.ok.injEq, hread address haddress]
    by_cases hzero : address = 0
    · rw [if_pos hzero, hword, BitRange.get_put hrange.width_lt hrange.fits hdata]
      simp [hzero]
    · rw [if_neg hzero]
      simp [hzero]

/-- **What setting a range does.** The word at offset `0` becomes a copy of the addressed one with
the data in the range, no other register changes, and the data can be read back exactly if the
addressed word is the one at offset `0` or held the data before. -/
theorem setAndRead_spec {A : ℕ → Prop} (hplain : Plain dev A) (h0 : A 0) (haddress : A address)
    (hrange : InWord start_index stop_index)
    (hdata : BitRange.Fits (width start_index stop_index) data) {r : Except Answer (BitVec 32)}
    (h : dev.Reaches (setAndRead address start_index stop_index data).run d (.ret r) e) :
    SetAndRead dev A address start_index stop_index data d r e :=
  Prog.wp_iff.mp (wp_setAndRead hplain h0 haddress hrange hdata) _ e h

end

/-- A window that is nothing but memory. -/
def memory : Device ℕ (BitVec 32) (ℕ → BitVec 32) where
  read d a := d a
  seen d _ := d
  write d a x := Function.update d a x
  moves _ _ := False

theorem plain_memory (A : ℕ → Prop) : Plain memory A where
  moves _ _ _ _ h := h.elim
  seen _ _ _ _ := rfl
  write d b x a _ _ := Function.update_apply d b x a

theorem keeps_memory (words : ℕ → BitVec 32) : memory.Keeps (· = 0) (ClockWords memory words) where
  moves _ _ _ h := h.elim
  seen _ _ h := h
  write d a x hd ha b hb := by
    have hne : b ≠ a := by
      rw [ha]
      exact clockRegister_ne_zero hb
    exact (Function.update_of_ne hne x d).trans (hd b hb)

/-- Both dividers of a clock in turn, then the frequency: as before. -/
def smallWords (a : ℕ) : BitVec 32 :=
  if a = 0x170 then 0x00500500 else if a = 0x108 then 0x00028000 else 0

def smallClient : Client (Call Unit) Answer :=
  .call (.setPLClockFreq 0 () (some 3) (some 4)) fun _ => .call (.getPLClockFreq 0) fun _ => .stop

def smallHistory : History (Call Unit) Answer :=
  [(.setPLClockFreq 0 () (some 3) (some 4), .success), (.getPLClockFreq 0, .freq 2000 25)]

theorem run_smallClient : ∃ e, memory.Reaches
    (clientProg (some "armv7l") (fun _ _ _ => none) smallClient) smallWords
    (.ret ((), smallHistory)) e := by
  have hfirst : ((clientProg (some "armv7l") (fun _ _ _ => none) smallClient).exec memory
      smallWords).map Prod.fst = some ((), smallHistory) := by
    rfl
  obtain ⟨⟨r, e⟩, hexec, rfl⟩ := Option.map_eq_some_iff.mp hfirst
  exact ⟨e, Prog.reaches_exec hexec⟩

theorem clock_answers_smallClient :
    Answered (some "armv7l") (fun _ _ _ => none) smallWords smallHistory := by
  obtain ⟨e, he⟩ := run_smallClient
  exact clock_answers (keeps_memory _) (fun _ _ => rfl) he

theorem setAndRead_spec_memory : SetAndRead memory (fun _ => True) 0x170 20 25 3 (fun _ => 0)
    (.ok 0) (Function.update (fun _ => 0) 0 0x00300000) :=
  setAndRead_spec (plain_memory _) trivial trivial ⟨by decide, by decide, by decide⟩
    (BitRange.fits_of_lt (by decide))
    (.step .read (.step .write (.step .read .refl)))

end Registers

end HardApi
