import HardApi.Pynq.Registers

/-!
# Transfers of the DMA engine

The driver programs the two channels of an AXI DMA engine through its registers, and the engine
works on its own between any two accesses. A client is any tree of calls that goes on from the
answers it gets; opening the engine again is a new start with a new driver state.

`AxiDma.never_overlaps_iff` says from where no client and no interleaving can start a transfer over
another one, `AxiDma.programmed_eq_requested` that the engine is told exactly the requests that were
accepted, and `AxiDma.not_busy_of_atRest` what a wait and a test say about a channel.
-/

namespace HardApi

open Mmio

/-- `AXI_DMA_WRITE` and `AXI_DMA_READ`. -/
inductive Direction where
  | write
  | read
  deriving DecidableEq, Repr

/-- `PYNQ_AXI_DMA`, without its window and the offsets of its channels. -/
structure AxiDma where
  first_transfer : Direction → Bool
  interrupt_mode : ℤ

namespace AxiDma

inductive Answer where
  | success
  | error
  | flag (raised : Bool)
  deriving DecidableEq, Repr

/-- What a transfer is asked for with; the memory enters by its physical address. -/
structure Request where
  physical_address : ℕ
  data_offset : ℕ
  length : ℕ
  direction : Direction

/-- The words that the engine gets for a request. -/
def Request.transfer (request : Request) : BitVec 32 × BitVec 32 :=
  (BitVec.ofNat 32 request.physical_address + BitVec.ofNat 32 request.data_offset,
    BitVec.ofNat 32 request.length)

/-- `write_channel_offset` and `read_channel_offset`. -/
def offset : Direction → ℕ
  | .write => 0x00
  | .read => 0x30

variable (s : AxiDma) (direction : Direction)

def startDMAChannel : Driver Unit :=
  writeMmio (offset direction) (if s.interrupt_mode = 0 then 0x0001 else 0x1001)

def stopDMAChannel : Driver Unit := writeMmio (offset direction) 0x0000

/-- What `isDMAChannelRunning` returns for a status. -/
def runningBit (read_byte : BitVec 32) : Bool := decide (read_byte &&& 0x01 = 0x00)

/-- What `isDMAChannelIdle` returns for a status. -/
def idleBit (read_byte : BitVec 32) : Bool := decide (read_byte &&& 0x02 = 0x02)

def isDMAChannelRunning : Driver Bool :=
  .read (offset direction + 4) fun read_byte => .ret (runningBit read_byte)

def isDMAChannelIdle : Driver Bool :=
  .read (offset direction + 4) fun read_byte => .ret (idleBit read_byte)

def opened : AxiDma := ⟨fun _ => true, 0⟩

def openDMA : Driver AxiDma := do
  startDMAChannel opened .write
  startDMAChannel opened .read
  return opened

def setDMATransferInterruptMode (interrupt_mode : ℤ) : Driver (AxiDma × Answer) :=
  if interrupt_mode ≠ s.interrupt_mode then do
    let s := { s with interrupt_mode }
    stopDMAChannel .write
    stopDMAChannel .read
    startDMAChannel s .write
    startDMAChannel s .read
    return (s, .success)
  else return (s, .success)

/-- `issueDMATransfer`, which `PYNQ_issueDMATransfer`, `PYNQ_writeDMA` and `PYNQ_readDMA` call. -/
def issueDMATransfer (request : Request) : Driver (AxiDma × Answer) := do
  let mmio_offset := offset request.direction
  if !(← isDMAChannelRunning request.direction) then return (s, .error)
  if !(← if s.first_transfer request.direction then pure true
      else isDMAChannelIdle request.direction) then return (s, .error)
  writeMmio (mmio_offset + 0x18) request.transfer.1
  writeMmio (mmio_offset + 0x28) request.transfer.2
  return ({ s with first_transfer := Function.update s.first_transfer request.direction false },
    .success)

/-- `PYNQ_testForDMAComplete`, which asks the write channel whether the engine runs. -/
def testForDMAComplete : Driver Answer := do
  if !(← isDMAChannelRunning .write) then return .error
  return .flag (!(← isDMAChannelIdle direction))

/-- `PYNQ_waitForDMAComplete`, which asks the write channel whether the engine runs. -/
def waitForDMAComplete : Driver Answer := do
  if !(← isDMAChannelRunning .write) then return .error
  .poll (offset direction + 4) idleBit (.ret .success)

def closeDMA : Driver Answer := do
  stopDMAChannel .write
  stopDMAChannel .read
  return .success

inductive Call where
  | setMode (interrupt_mode : ℤ)
  | issue (request : Request)
  | test (direction : Direction)
  | wait (direction : Direction)
  | close

def callProg : Call → Driver (AxiDma × Answer)
  | .setMode interrupt_mode => s.setDMATransferInterruptMode interrupt_mode
  | .issue request => s.issueDMATransfer request
  | .test direction => do return (s, ← testForDMAComplete direction)
  | .wait direction => do return (s, ← waitForDMAComplete direction)
  | .close => do return (s, ← closeDMA)

abbrev clientProg : Client Call Answer → AxiDma → History Call Answer →
    Driver (AxiDma × History Call Answer) :=
  Client.prog callProg

/-! ## The engine -/

/-- An engine, as far as the driver relies on it: only a length that is written starts a transfer,
and a channel that shows itself idle has none. A transfer can end at any time. -/
structure Engine (δ : Type*) extends Device ℕ (BitVec 32) δ where
  busy : δ → Direction → Prop
  busy_moves : ∀ e f d, moves e f → busy f d → busy e d
  busy_seen : ∀ e a d, busy (seen e a) d ↔ busy e d
  busy_write : ∀ e a x d, a ≠ offset d + 0x28 → busy (write e a x) d → busy e d
  busy_address : ∀ e x d d', busy (write e (offset d' + 0x18) x) d ↔ busy e d
  not_busy : ∀ e d, idleBit (read e (offset d + 4)) = true → ¬ busy e d

/-- The engine and what was written to it. -/
abbrev Logged (δ : Type*) := δ × List (ℕ × BitVec 32)

/-- A channel latches its address; the length that is written next goes with it. -/
def receive (direction : Direction) (st : BitVec 32 × List (BitVec 32 × BitVec 32))
    (w : ℕ × BitVec 32) : BitVec 32 × List (BitVec 32 × BitVec 32) :=
  if w.1 = offset direction + 0x18 then (w.2, st.2)
  else if w.1 = offset direction + 0x28 then (st.1, st.2 ++ [(st.1, w.2)])
  else st

/-- The transfers that a channel was told. -/
def programmed (direction : Direction) (log : List (ℕ × BitVec 32)) :
    List (BitVec 32 × BitVec 32) :=
  (log.foldl (receive direction) (0, [])).2

/-- The transfer that a call asked for and got. -/
def accepted : Call → Answer → Direction → List (BitVec 32 × BitVec 32)
  | .issue request, .success, direction =>
    if direction = request.direction then [request.transfer] else []
  | _, _, _ => []

/-- The answers after which a channel is at rest. -/
def Shows (c : Call) (answer : Answer) (direction : Direction) : Prop :=
  (c = .wait direction ∧ answer = .success) ∨ (c = .test direction ∧ answer = .flag false)

theorem receive_control (d d' : Direction) (st : BitVec 32 × List (BitVec 32 × BitVec 32))
    (x : BitVec 32) : receive d st (offset d', x) = st := by
  cases d <;> cases d' <;> rfl

theorem receive_transfer (d d' : Direction) (st : BitVec 32 × List (BitVec 32 × BitVec 32))
    (x y : BitVec 32) :
    (receive d (receive d st (offset d' + 0x18, x)) (offset d' + 0x28, y)).2 =
      st.2 ++ if d = d' then [(x, y)] else [] := by
  cases d <;> cases d' <;> simp [receive, offset]

theorem foldl_control {d : Direction} {ws : List (ℕ × BitVec 32)}
    (h : ∀ w ∈ ws, ∃ d', w.1 = offset d') (st : BitVec 32 × List (BitVec 32 × BitVec 32)) :
    ws.foldl (receive d) st = st := by
  induction ws generalizing st with
  | nil => rfl
  | cons w ws ih =>
    obtain ⟨a, x⟩ := w
    obtain ⟨d', rfl⟩ := h (a, x) List.mem_cons_self
    rw [List.foldl_cons, receive_control]
    exact ih (fun w hw => h w (List.mem_cons_of_mem _ hw)) st

theorem control_ne_length (d d' : Direction) : offset d ≠ offset d' + 0x28 := by
  cases d <;> cases d' <;> decide

theorem address_ne_length (d d' : Direction) : offset d + 0x18 ≠ offset d' + 0x28 := by
  cases d <;> cases d' <;> decide

theorem length_inj {d d' : Direction} (h : offset d + 0x28 = offset d' + 0x28) : d = d' := by
  cases d <;> cases d' <;> first | rfl | cases h

variable {δ : Type*} (engine : Engine δ)

/-- From `x` to `y` only control registers were written, and no transfer has begun. -/
structure Calm (x y : Logged δ) : Prop where
  log : ∃ ws, y.2 = x.2 ++ ws ∧ ∀ w ∈ ws, ∃ d, w.1 = offset d
  busy : ∀ d, engine.busy y.1 d → engine.busy x.1 d

/-- What a call has done when it answers. -/
structure Done (c : Call) (s : AxiDma) (x : Logged δ) (r : AxiDma × Answer) (y : Logged δ) :
    Prop where
  first : ∀ d, r.1.first_transfer d = true ↔ s.first_transfer d = true ∧ accepted c r.2 d = []
  busy : ∀ d, engine.busy y.1 d → engine.busy x.1 d ∨ accepted c r.2 d ≠ []
  shown : ∀ d, Shows c r.2 d → ¬ engine.busy y.1 d
  log : ∃ ws, y.2 = x.2 ++ ws ∧
    ∀ d st, (ws.foldl (receive d) st).2 = st.2 ++ accepted c r.2 d

variable {engine} {x y z : Logged δ} {c : Call} {answer : Answer}

theorem Calm.refl : Calm engine x x := ⟨⟨[], by simp, by simp⟩, fun _ h => h⟩

theorem log_of_moved (h : engine.logged.Moved x y) : y.2 = x.2 := by
  induction h with
  | refl => rfl
  | tail _ hmove ih => exact hmove.2.trans ih

theorem busy_of_moved (h : engine.logged.Moved x y) (d : Direction)
    (hy : engine.busy y.1 d) : engine.busy x.1 d := by
  induction h with
  | refl => exact hy
  | tail _ hmove ih => exact ih (engine.busy_moves _ _ d hmove.1 hy)

theorem Calm.moved (h : Calm engine x y) (hmoved : engine.logged.Moved y z) : Calm engine x z where
  log := by
    rw [log_of_moved hmoved]
    exact h.log
  busy d hz := h.busy d (busy_of_moved hmoved d hz)

theorem Calm.seen (h : Calm engine x y) (a : ℕ) : Calm engine x (engine.logged.seen y a) where
  log := h.log
  busy d hz := h.busy d ((engine.busy_seen y.1 a d).mp hz)

theorem Calm.control (h : Calm engine x y) (d : Direction) (w : BitVec 32) :
    Calm engine x (engine.logged.write y (offset d) w) where
  log := by
    obtain ⟨ws, hlog, hws⟩ := h.log
    refine ⟨ws ++ [(offset d, w)], by simp [Device.logged, hlog], ?_⟩
    intro w' hw'
    rcases List.mem_append.mp hw' with hw' | hw'
    · exact hws w' hw'
    · exact ⟨d, by rw [List.mem_singleton.mp hw']⟩
  busy d' hz := h.busy d' (engine.busy_write _ _ w d' (control_ne_length d d') hz)

theorem Calm.waits {a : ℕ} {accepts : BitVec 32 → Bool} (h : Calm engine x y)
    (hwaits : engine.logged.Waits a accepts y z) : Calm engine x z := by
  induction hwaits with
  | refl => exact h
  | tail _ hround ih =>
    rcases hround with hmove | ⟨-, rfl⟩
    · exact ih.moved (.single hmove)
    · exact ih.seen a

theorem Calm.done (h : Calm engine x y) (hacc : ∀ d, accepted c answer d = [])
    (hshown : ∀ d, Shows c answer d → ¬ engine.busy y.1 d) {s s' : AxiDma}
    (hfirst : s'.first_transfer = s.first_transfer) : Done engine c s x (s', answer) y where
  first d := by
    rw [hfirst, hacc d]
    exact (and_iff_left rfl).symm
  busy d hy := Or.inl (h.busy d hy)
  shown := hshown
  log := by
    obtain ⟨ws, hlog, hws⟩ := h.log
    refine ⟨ws, hlog, fun d st => ?_⟩
    rw [foldl_control hws, hacc d, List.append_nil]

/-! ## What the calls do -/

variable {s : AxiDma}

section

variable {guard : Logged δ → ℕ → BitVec 32 → Prop} {β : Type} {Q : β → Logged δ → Prop}

theorem wp_control {d : Direction} {w : BitVec 32} {p : Driver β} (h : Calm engine x y)
    (hguard : ∀ z, guard z (offset d) w)
    (hp : ∀ z, Calm engine x z → p.wp engine.logged guard Q z) :
    (Prog.write (offset d) w p).wp engine.logged guard Q y :=
  fun z hz => ⟨hguard z, hp _ ((h.moved hz).control d w)⟩

/-- A status read; if it shows the channel idle, the channel is at rest. -/
theorem wp_status {d : Direction} {k : BitVec 32 → Driver β} (h : Calm engine x y)
    (hk : ∀ status z, Calm engine x z → (idleBit status = true → ¬ engine.busy z.1 d) →
      (k status).wp engine.logged guard Q z) :
    (Prog.read (offset d + 4) k).wp engine.logged guard Q y := by
  intro z hz
  refine hk _ _ ((h.moved hz).seen _) fun hidle hbusy => ?_
  exact engine.not_busy z.1 d hidle ((engine.busy_seen _ _ _).mp hbusy)

theorem wp_wait {d : Direction} {p : Driver β} (h : Calm engine x y)
    (hp : ∀ z, Calm engine x z → ¬ engine.busy z.1 d → p.wp engine.logged guard Q z) :
    (Prog.poll (offset d + 4) idleBit p).wp engine.logged guard Q y := by
  intro z hz hidle
  refine hp _ ((h.waits hz).seen _) fun hbusy => ?_
  exact engine.not_busy z.1 d hidle ((engine.busy_seen _ _ _).mp hbusy)

variable (engine) in
/-- What the guard has to allow a call: a length for a channel only if a transfer that is still in
progress was there before the call and the channel counts as unused. -/
def Allows (guard : Logged δ → ℕ → BitVec 32 → Prop) (s : AxiDma) (x : Logged δ) : Prop :=
  ∀ y a w, (∀ d, a = offset d + 0x28 → engine.busy y.1 d →
    engine.busy x.1 d ∧ s.first_transfer d = true) → guard y a w

theorem Allows.control (h : Allows engine guard s x) (d : Direction) (y : Logged δ)
    (w : BitVec 32) : guard y (offset d) w :=
  h y _ w fun d' hd => absurd hd (control_ne_length d d')

theorem Allows.address (h : Allows engine guard s x) (d : Direction) (y : Logged δ)
    (w : BitVec 32) : guard y (offset d + 0x18) w :=
  h y _ w fun d' hd => absurd hd (address_ne_length d d')

/-- An answer without a transfer. -/
theorem wp_answer (h : Calm engine x y) (hacc : ∀ d, accepted c answer d = [])
    (hshown : ∀ d, Shows c answer d → ¬ engine.busy y.1 d) {s' : AxiDma}
    (hfirst : s'.first_transfer = s.first_transfer) :
    (Prog.ret (s', answer)).wp engine.logged guard (Done engine c s x) y := by
  intro z hz
  refine (h.moved hz).done hacc (fun d hd hbusy => ?_) hfirst
  exact hshown d hd (busy_of_moved hz d hbusy)

theorem wp_setDMATransferInterruptMode (hguard : Allows engine guard s x) (interrupt_mode : ℤ) :
    (s.setDMATransferInterruptMode interrupt_mode).wp engine.logged guard
      (Done engine (.setMode interrupt_mode) s x) x := by
  have hshown : ∀ y d, Shows (.setMode interrupt_mode) .success d → ¬ engine.busy y d := by
    simp [Shows]
  unfold setDMATransferInterruptMode
  by_cases hmode : interrupt_mode = s.interrupt_mode
  · rw [if_neg (not_not.mpr hmode)]
    exact wp_answer .refl (fun _ => rfl) (hshown _) rfl
  · rw [if_pos hmode]
    refine wp_control .refl (fun y => hguard.control _ y _) fun y hy => ?_
    refine wp_control hy (fun y => hguard.control _ y _) fun y hy => ?_
    refine wp_control hy (fun y => hguard.control _ y _) fun y hy => ?_
    refine wp_control hy (fun y => hguard.control _ y _) fun y hy => ?_
    exact wp_answer hy (fun _ => rfl) (hshown _) rfl

/-- Two words to a channel that is at rest or counts as unused. -/
theorem wp_transfer {request : Request} (h : Calm engine x y) (hguard : Allows engine guard s x)
    (hrest : s.first_transfer request.direction = true ∨
      ¬ engine.busy y.1 request.direction) :
    (Prog.write (offset request.direction + 0x18) request.transfer.1
      (Prog.write (offset request.direction + 0x28) request.transfer.2
        (Prog.ret ({ s with
          first_transfer := Function.update s.first_transfer request.direction false },
          Answer.success)))).wp engine.logged guard (Done engine (.issue request) s x) y := by
  intro z hz
  refine ⟨hguard.address _ _ _, ?_⟩
  intro u hu
  have hbusy : ∀ d, engine.busy u.1 d → engine.busy y.1 d := by
    intro d hd
    have hwritten := (engine.busy_address _ _ _ _).mp (busy_of_moved hu d hd)
    exact busy_of_moved hz d hwritten
  refine ⟨hguard u _ _ fun d hd hu => ?_, ?_⟩
  · obtain rfl := length_inj hd
    have hy := hbusy _ hu
    rcases hrest with hfirst | hfree
    · exact ⟨h.busy _ hy, hfirst⟩
    · exact absurd hy hfree
  · intro v hv
    obtain ⟨ws, hlog, hws⟩ := h.log
    refine ⟨fun d => ?_, fun d hd => ?_, by simp [Shows],
      ws ++ [(offset request.direction + 0x18, request.transfer.1),
        (offset request.direction + 0x28, request.transfer.2)], ?_, fun d st => ?_⟩
    · by_cases hd : d = request.direction <;> simp [accepted, hd]
    · by_cases hne : d = request.direction
      · exact Or.inr (by simp [accepted, hne])
      · refine Or.inl (h.busy d (hbusy d ?_))
        exact engine.busy_write _ _ _ d (fun heq => hne (length_inj heq).symm)
          (busy_of_moved hv d hd)
    · have hwritten : v.2 = z.2 ++ [(offset request.direction + 0x18, request.transfer.1)] ++
          [(offset request.direction + 0x28, request.transfer.2)] := by
        rw [log_of_moved hv]
        exact congrArg (· ++ _) (log_of_moved hu)
      rw [hwritten, log_of_moved hz, hlog]
      simp
    · rw [List.foldl_append, foldl_control hws]
      exact receive_transfer d request.direction st _ _

theorem wp_issueDMATransfer (hguard : Allows engine guard s x) (request : Request) :
    (s.issueDMATransfer request).wp engine.logged guard
      (Done engine (.issue request) s x) x := by
  have herror : ∀ y, Calm engine x y → (Prog.ret (s, Answer.error)).wp engine.logged guard
      (Done engine (.issue request) s x) y := fun y hy =>
    wp_answer hy (fun _ => rfl) (by simp [Shows]) rfl
  simp only [issueDMATransfer, isDMAChannelRunning, isDMAChannelIdle, writeMmio, Prog.bind_eq,
    Prog.pure_eq, Prog.read_bind, Prog.ret_bind, Prog.write_bind]
  refine wp_status .refl fun status y hy _ => ?_
  cases runningBit status with
  | false => exact herror y hy
  | true =>
    cases hfirst : s.first_transfer request.direction with
    | true => exact wp_transfer hy hguard (Or.inl hfirst)
    | false =>
      refine wp_status hy fun status y hy hidle => ?_
      cases hbit : idleBit status with
      | false => exact herror y hy
      | true => exact wp_transfer hy hguard (Or.inr (hidle hbit))

theorem wp_testForDMAComplete (d : Direction) :
    (s.callProg (.test d)).wp engine.logged guard (Done engine (.test d) s x) x := by
  simp only [callProg, testForDMAComplete, isDMAChannelRunning, isDMAChannelIdle, Prog.bind_eq,
    Prog.pure_eq, Prog.read_bind, Prog.ret_bind]
  refine wp_status .refl fun status y hy _ => ?_
  cases runningBit status with
  | false => exact wp_answer hy (fun _ => rfl) (by simp [Shows]) rfl
  | true =>
    refine wp_status hy fun status y hy hidle => wp_answer hy (fun _ => rfl) ?_ rfl
    intro d' hd'
    obtain ⟨⟨⟩, -⟩ | ⟨⟨⟩, hflag⟩ := hd'
    exact hidle (by simpa using hflag)

theorem wp_waitForDMAComplete (d : Direction) :
    (s.callProg (.wait d)).wp engine.logged guard (Done engine (.wait d) s x) x := by
  simp only [callProg, waitForDMAComplete, isDMAChannelRunning, Prog.bind_eq, Prog.pure_eq,
    Prog.read_bind, Prog.ret_bind]
  refine wp_status .refl fun status y hy _ => ?_
  cases runningBit status with
  | false => exact wp_answer hy (fun _ => rfl) (by simp [Shows]) rfl
  | true =>
    refine wp_wait hy fun y hy hrest => wp_answer hy (fun _ => rfl) ?_ rfl
    intro d' hd'
    obtain ⟨⟨⟩, -⟩ | ⟨⟨⟩, -⟩ := hd'
    exact hrest

theorem wp_callProg (hguard : Allows engine guard s x) (c : Call) :
    (s.callProg c).wp engine.logged guard (Done engine c s x) x := by
  cases c with
  | setMode interrupt_mode => exact wp_setDMATransferInterruptMode hguard interrupt_mode
  | issue request => exact wp_issueDMATransfer hguard request
  | test d => exact wp_testForDMAComplete d
  | wait d => exact wp_waitForDMAComplete d
  | close =>
    refine wp_control .refl (fun y => hguard.control _ y _) fun y hy => ?_
    refine wp_control hy (fun y => hguard.control _ y _) fun y hy => ?_
    exact wp_answer hy (fun _ => rfl) (by simp [Shows]) rfl

end

/-! ## Clients -/

/-- The transfers that a history accepted for a channel. -/
def requested (direction : Direction) (history : History Call Answer) :
    List (BitVec 32 × BitVec 32) :=
  history.flatMap fun (c, answer) => accepted c answer direction

/-- A call has shown the channel at rest, and nothing was accepted for it since. -/
def AtRest (direction : Direction) (history : History Call Answer) : Prop :=
  ∃ before c answer after, history = before ++ (c, answer) :: after ∧
    Shows c answer direction ∧ requested direction after = []

theorem requested_concat (d : Direction) (history : History Call Answer) (c : Call)
    (answer : Answer) :
    requested d (history ++ [(c, answer)]) = requested d history ++ accepted c answer d := by
  simp [requested]

theorem AtRest.of_concat {d : Direction} {history : History Call Answer}
    (h : AtRest d (history ++ [(c, answer)])) :
    Shows c answer d ∨ (AtRest d history ∧ accepted c answer d = []) := by
  obtain ⟨before, c', answer', after, heq, hshows, hafter⟩ := h
  rcases List.eq_nil_or_concat' after with rfl | ⟨after, last, rfl⟩
  · obtain ⟨-, hlast⟩ := List.append_inj' heq rfl
    obtain ⟨rfl, rfl⟩ : c = c' ∧ answer = answer' := by simpa using hlast
    exact Or.inl hshows
  · rw [← List.cons_append, ← List.append_assoc] at heq
    obtain ⟨hhistory, hlast⟩ := List.append_inj' heq rfl
    obtain rfl : (c, answer) = last := by simpa using hlast
    rw [requested_concat, List.append_eq_nil_iff] at hafter
    exact Or.inr ⟨⟨before, c', answer', after, hhistory, hshows, hafter.1⟩, hafter.2⟩

variable {e : δ}

variable (engine) in
/-- Whatever a client asks for, and whatever happens in between, a channel gets the length of a
transfer only when it has none in progress. -/
def NeverOverlaps (s : AxiDma) (e : δ) : Prop :=
  ∀ client a w (p : Driver (AxiDma × History Call Answer)) y,
    engine.logged.Reaches (clientProg client s []) (e, []) (.write a w p) y →
      ∀ d, a = offset d + 0x28 → ¬ engine.busy y.1 d

variable (engine) in
/-- The same as a guard. -/
def Rests (y : Logged δ) (a : ℕ) (_ : BitVec 32) : Prop :=
  ∀ d, a = offset d + 0x28 → ¬ engine.busy y.1 d

theorem never_overlaps_iff_wp : NeverOverlaps engine s e ↔ ∀ client,
    (clientProg client s []).wp engine.logged (Rests engine) (fun _ _ => True) (e, []) := by
  constructor
  · intro h client
    refine Prog.wp_iff.mpr fun q y hreach => ?_
    cases q with
    | write a w p => exact h client a w p y hreach
    | ret _ => trivial
    | read _ _ => trivial
    | poll _ _ _ => trivial
  · exact fun h client a w p y hreach => Prog.wp_iff.mp (h client) _ y hreach

/-- A channel that counts as unused is not asked whether it is idle. -/
theorem not_busy_of_first {d : Direction}
    (h : (clientProg (.call (.issue ⟨0, 0, 0, d⟩) fun _ => .stop) s []).wp engine.logged
      (Rests engine) (fun _ _ => True) (e, []))
    (hrunning : runningBit (engine.read e (offset d + 4)) = true)
    (hfirst : s.first_transfer d = true) : ¬ engine.busy e d := by
  simp only [Client.prog, callProg, issueDMATransfer, isDMAChannelRunning, writeMmio, Prog.bind_eq,
    Prog.pure_eq, Prog.read_bind, Prog.ret_bind, Prog.write_bind, hfirst, if_true] at h
  have hstatus := h (e, []) .refl
  beta_reduce at hstatus
  rw [show engine.logged.read (e, []) (offset d + 4) = engine.read e (offset d + 4) from rfl,
    hrunning] at hstatus
  have hlength := ((hstatus _ .refl).2 _ .refl).1 d rfl
  exact fun hbusy =>
    hlength ((engine.busy_address _ _ _ _).mpr ((engine.busy_seen _ _ _).mpr hbusy))

variable (engine) in
/-- A busy channel counts as used, and so it is asked before the next transfer. -/
def Asked (s : AxiDma) (x : Logged δ) : Prop :=
  ∀ d, engine.busy x.1 d → s.first_transfer d = false

theorem Asked.moved (h : Asked engine s x) (hmoved : engine.logged.Moved x y) : Asked engine s y :=
  fun d hbusy => h d (busy_of_moved hmoved d hbusy)

theorem Asked.done {r : AxiDma × Answer} (h : Asked engine s x) (hdone : Done engine c s x r y) :
    Asked engine r.1 y := by
  intro d hbusy
  by_contra hfirst
  obtain ⟨hs, hacc⟩ := (hdone.first d).mp (eq_true_of_ne_false hfirst)
  rcases hdone.busy d hbusy with hx | hnew
  · exact absurd hs (ne_true_of_eq_false (h d hx))
  · exact hnew hacc

theorem Asked.allows (h : Asked engine s x) : Allows engine (Rests engine) s x := by
  intro y a w hlength d hd hbusy
  obtain ⟨hx, hfirst⟩ := hlength d hd hbusy
  exact ne_true_of_eq_false (h d hx) hfirst

theorem Asked.wp_clientProg (h : Asked engine s x) (client : Client Call Answer)
    (history : History Call Answer) : (clientProg client s history).wp engine.logged
      (Rests engine) (fun r => Asked engine r.1) x :=
  Client.wp_prog (fun s _ => Asked engine s) (fun _ _ _ _ hinv => hinv.moved)
    (fun _ _ _ c hinv => Prog.wp_mono (fun _ _ => hinv.done) (wp_callProg hinv.allows c)) client h

theorem rests_control (d : Direction) (y : Logged δ) (w : BitVec 32) :
    Rests engine y (offset d) w :=
  fun d' hd => absurd hd (control_ne_length d d')

/-- An engine that is at rest when it is opened is safe from then on. -/
theorem wp_openDMA (h : ∀ d, ¬ engine.busy x.1 d) (client : Client Call Answer) :
    (openDMA.bind fun s => clientProg client s []).wp engine.logged (Rests engine)
      (fun r => Asked engine r.1) x := by
  refine wp_control .refl (fun y => rests_control _ y _) fun y hy => ?_
  refine wp_control hy (fun y => rests_control _ y _) fun y hy => ?_
  refine Asked.wp_clientProg (fun d hbusy => ?_) client []
  exact absurd (hy.busy d hbusy) (h d)

/-- **When transfers never overlap**: from a running engine whose busy channels count as used, and
only from there; and after `PYNQ_openDMA` of an engine at rest, running or not. -/
theorem never_overlaps_iff (s : AxiDma) (e : δ) :
    ((∀ d, runningBit (engine.read e (offset d + 4)) = true) →
      (NeverOverlaps engine s e ↔ ∀ d, engine.busy e d → s.first_transfer d = false)) ∧
    ((∀ d, ¬ engine.busy e d) →
      ∀ client a w (p : Driver (AxiDma × History Call Answer)) y,
        engine.logged.Reaches (openDMA.bind fun s => clientProg client s []) (e, [])
          (.write a w p) y → ∀ d, a = offset d + 0x28 → ¬ engine.busy y.1 d) := by
  refine ⟨fun hrunning => never_overlaps_iff_wp.trans ⟨?_, ?_⟩,
    fun hrest client a w p y hreach => ?_⟩
  · intro h d hbusy
    by_contra hfirst
    exact not_busy_of_first (h _) (hrunning d) (eq_true_of_ne_false hfirst) hbusy
  · intro h client
    have hasked : Asked engine s (e, []) := h
    exact Prog.wp_mono (fun _ _ _ => trivial) (hasked.wp_clientProg client [])
  · exact Prog.wp_iff.mp (wp_openDMA hrest client) _ y hreach

/-- What the calls keep, by what they have done. -/
theorem inv_of_done (Inv : AxiDma → History Call Answer → Logged δ → Prop)
    {client : Client Call Answer} {s' : AxiDma} {history : History Call Answer}
    (hmoved : ∀ s history x y, Inv s history x → engine.logged.Moved x y → Inv s history y)
    (hdone : ∀ s history x c r y, Inv s history x → Done engine c s x r y →
      Inv r.1 (history ++ [(c, r.2)]) y) (hstart : Inv s [] x)
    (h : engine.logged.Reaches (clientProg client s []) x (.ret (s', history)) y) :
    Inv s' history y :=
  Client.inv_of_reaches Inv hmoved (fun _ _ _ c hinv => Prog.wp_mono
    (fun _ _ => hdone _ _ _ _ _ _ hinv) (wp_callProg (fun _ _ _ _ => trivial) c)) hstart h

/-- **The engine is told what was accepted**: every transfer once, in order, with its own
address. -/
theorem programmed_eq_requested {client : Client Call Answer} {s' : AxiDma}
    {history : History Call Answer}
    (h : engine.logged.Reaches (clientProg client s []) (e, []) (.ret (s', history)) y)
    (d : Direction) : programmed d y.2 = requested d history := by
  refine inv_of_done (fun _ history x => programmed d x.2 = requested d history) ?_ ?_ rfl h
  · intro _ _ x y hinv hy
    rw [log_of_moved hy]
    exact hinv
  · intro _ history x c r y hinv hdone
    obtain ⟨ws, hlog, hws⟩ := hdone.log
    rw [requested_concat, ← hinv, hlog]
    unfold programmed
    rw [List.foldl_append, hws d]

/-- **What the calls show.** A channel is at rest once a wait for it has come back, or a test has
left its flag clear. -/
theorem not_busy_of_atRest {client : Client Call Answer} {s' : AxiDma}
    {history : History Call Answer}
    (h : engine.logged.Reaches (clientProg client s []) (e, []) (.ret (s', history)) y)
    {d : Direction} (hrest : AtRest d history) : ¬ engine.busy y.1 d := by
  refine inv_of_done (fun _ history x => AtRest d history → ¬ engine.busy x.1 d)
    ?_ ?_ ?_ h hrest
  · exact fun _ _ _ _ hinv hy hrest hbusy => hinv hrest (busy_of_moved hy d hbusy)
  · intro _ history x c r y hinv hdone hrest
    rcases hrest.of_concat with hshows | ⟨hrest, hacc⟩
    · exact hdone.shown d hshows
    · intro hbusy
      rcases hdone.busy d hbusy with hx | hnew
      · exact hinv hrest hx
      · exact hnew hacc
  · rintro ⟨before, c, answer, after, heq, -⟩
    cases before <;> cases heq

/-- An engine that shows itself idle as soon as a transfer is over. -/
def smallEngine : Engine (Direction → Bool) where
  read e a :=
    if a = 0x04 then (if e .write then 0 else 2)
    else if a = 0x34 then (if e .read then 0 else 2)
    else 0
  seen e _ := e
  write e a _ :=
    if a = 0x28 then Function.update e .write true
    else if a = 0x58 then Function.update e .read true
    else e
  moves e f := ∀ d, f d = true → e d = true
  busy e d := e d = true
  busy_moves e f d h := h d
  busy_seen _ _ _ := .rfl
  busy_write := by
    intro e a x d ha h
    cases d <;> by_cases h28 : a = 0x28 <;> by_cases h58 : a = 0x58 <;>
      simp_all [offset, Function.update]
  busy_address e x d d' := by cases d' <;> exact .rfl
  not_busy := by
    intro e d h
    cases d <;> cases hw : e .write <;> cases hr : e .read <;> simp_all [offset, idleBit]

def smallClient : Client Call Answer :=
  .call (.issue ⟨16, 8, 4, .write⟩) fun _ => .call (.wait .write) fun _ => .stop

theorem run_smallClient : smallEngine.logged.Reaches (clientProg smallClient opened [])
    (fun _ => false, [])
    (.ret (⟨Function.update (fun _ => true) .write false, 0⟩,
      [(.issue ⟨16, 8, 4, .write⟩, .success), (.wait .write, .success)]))
    (fun _ => false, [(0x18, 24), (0x28, 4)]) := by
  refine .step .read (.step .write (.step .write (.step .read ?_)))
  -- The transfer is over before the first status that the wait reads.
  refine .step (.moves (e := (fun _ => false, [(0x18, 24), (0x28, 4)])) ⟨?_, rfl⟩) ?_
  · intro d h
    cases h
  · exact .step (.accept rfl) .refl

theorem never_overlaps_iff_smallEngine :
    NeverOverlaps smallEngine opened (fun _ => false) ↔
      ∀ d, smallEngine.busy (fun _ => false) d → opened.first_transfer d = false :=
  (never_overlaps_iff opened _).1 fun d => by cases d <;> rfl

theorem programmed_eq_requested_smallClient :
    programmed .write [(0x18, 24), (0x28, 4)] =
      requested .write [(.issue ⟨16, 8, 4, .write⟩, .success), (.wait .write, .success)] :=
  programmed_eq_requested run_smallClient .write

theorem not_busy_of_atRest_smallClient : ¬ smallEngine.busy (fun _ => false) .write :=
  not_busy_of_atRest run_smallClient
    ⟨[(.issue ⟨16, 8, 4, .write⟩, .success)], .wait .write, .success, [], rfl,
      Or.inl ⟨rfl, rfl⟩, rfl⟩

end AxiDma

end HardApi
