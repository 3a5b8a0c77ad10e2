import HardApi.Pynq.Calls
import HardApi.Lib.Handshake

/-!
# The calls while the cores run

In `World.crypt` and `World.keyGen` a core works in one step. Here these calls are what the class
does word by word: `key_gen` clears its buffer and fills it, `encrypt` and `decrypt` export their
operand; then they start the core, poll the control register until `PYNQ_testHLSCompleted` sets the
flag, read `ap_return` and import the result. The core reads and writes the same memory meanwhile.
`client_refines` says that the interleaving does not show: what a client has got when it ends, it
gets from a run of `step`.

That rests on cores that hand `ap_start` over at their end. The test also takes a register that is
all zero for the end (`wait_safe_iff`).
-/

namespace HardApi

open Handshake

variable {board : Board}

/-! ## Control registers -/

/-- The byte at `AP_CTRL`; nothing ever sets `auto_restart`. -/
def byteStatus (control : Control) : ℕ :=
  control.start.toNat + 2 * control.done.toNat + 4 * control.idle.toNat + 8 * control.ready.toNat

/-- `PYNQ_testHLSCompleted`. -/
def testHLSCompleted (control : Control) : Bool :=
  byteStatus control = 4 ∨ byteStatus control = 6 ∨ byteStatus control = 0

theorem testHLSCompleted_iff (control : Control) :
    testHLSCompleted control = true ↔ control.start = false ∧ control.ready = false ∧
      (control.done = true → control.idle = true) := by
  obtain ⟨start, done, idle, ready⟩ := control
  revert start done idle ready
  decide

/-! ## The cores -/

/-- The three blocks on the programmable logic. -/
inductive Hls where
  | crypt (core : Core)
  | loadParam
  deriving DecidableEq, Repr

namespace World

variable (w : World board)

def store (i : ℕ) (x : Word) : World board := { w with dram := Function.update w.dram i x }

/-- Word `i` of the parameters arrives. -/
def load (i : ℕ) : World board :=
  { w with
    loaded := Function.update w.loaded i (w.dram (w.target (dataRegister board) + i)) }

/-- `n` words from `start` on. -/
def storeRange (start n : ℕ) (g : ℕ → Word) : World board :=
  { w with dram := fun j => if start ≤ j ∧ j < start + n then g (j - start) else w.dram j }

theorem storeRange_zero (start : ℕ) (g : ℕ → Word) : w.storeRange start 0 g = w := by
  have hdram : (fun j => if start ≤ j ∧ j < start + 0 then g (j - start) else w.dram j)
      = w.dram := by
    funext j
    rw [if_neg (by omega)]
  rw [storeRange, hdram]

theorem storeRange_succ (start n : ℕ) (g : ℕ → Word) :
    (w.storeRange start n g).store (start + n) (g n) = w.storeRange start (n + 1) g := by
  unfold store storeRange
  congr 1
  funext j
  by_cases hj : j = start + n
  · subst hj
    rw [Function.update_self, if_pos (by omega), Nat.add_sub_cancel_left]
  · rw [Function.update_of_ne hj]
    exact if_congr (by omega) rfl rfl

/-- Words stored one after another; `start` may be read from the registers. -/
theorem foldl_store (start : World board → ℕ)
    (hstart : ∀ w n g, start (storeRange w (start w) n g) = start w) (g : ℕ → Word) (n : ℕ) :
    ((List.range n).map fun i (w : World board) => w.store (start w + i) (g i)).foldl
      (fun w f => f w) w = w.storeRange (start w) n g := by
  induction n with
  | zero => exact (w.storeRange_zero (start w) g).symm
  | succ n ih =>
    rw [List.range_succ, List.map_append, List.foldl_append, ih]
    simp only [List.map_cons, List.map_nil, List.foldl_cons, List.foldl_nil, hstart]
    exact w.storeRange_succ (start w) n g

/-- What the core finds behind its address register. -/
def loadRange (n : ℕ) : World board :=
  { w with
    loaded := fun i =>
      if i < n then w.dram (w.target (dataRegister board) + i) else w.loaded i }

theorem foldl_load (n : ℕ) :
    ((List.range n).map fun i (w : World board) => w.load i).foldl (fun w f => f w) w =
      w.loadRange n := by
  induction n with
  | zero => simp [loadRange]
  | succ n ih =>
    rw [List.range_succ, List.map_append, List.foldl_append, ih]
    simp only [List.map_cons, List.map_nil, List.foldl_cons, List.foldl_nil, load, loadRange]
    congr 1
    funext i
    by_cases hi : i = n
    · subst hi
      rw [Function.update_self, if_pos (by omega)]
      rfl
    · rw [Function.update_of_ne hi]
      exact if_congr (by omega) rfl rfl

theorem storeRange_export (off : ℕ) (v : ℤ) :
    w.storeRange off (Words.size 64 v.natAbs) (Words.word 64 v.natAbs) =
      { w with dram := (mpzExport w.dram off v).1 } := rfl

/-- The memory from `start` on is `dst`. -/
def behind (start : ℕ) (dst : ℕ → Word) : World board :=
  { w with dram := fun i => if i < start then w.dram i else dst (i - start) }

theorem behind_self (start : ℕ) : w.behind start (fun i => w.dram (start + i)) = w := by
  have hdram : (fun i => if i < start then w.dram i else w.dram (start + (i - start))) =
      w.dram := by
    funext i
    by_cases hi : i < start
    · exact if_pos hi
    · rw [if_neg hi]
      congr 1
      omega
  rw [behind, hdram]

theorem storeRange_behind (start off n : ℕ) (dst g : ℕ → Word) :
    (w.behind start dst).storeRange (start + off) n g =
      w.behind start fun i => if off ≤ i ∧ i < off + n then g (i - off) else dst i := by
  simp only [storeRange, behind]
  congr 1
  funext i
  by_cases hi : i < start
  · rw [if_neg (by omega), if_pos hi, if_pos hi]
  · simp only [if_neg hi]
    have hindex : i - (start + off) = i - start - off := by omega
    rw [hindex]
    exact if_congr (by omega) rfl rfl

theorem store_behind (start i : ℕ) (dst : ℕ → Word) (x : Word) :
    (w.behind start dst).store (start + i) x = w.behind start (Function.update dst i x) := by
  simp only [store, behind]
  congr 1
  funext j
  by_cases hj : j = start + i
  · subst hj
    rw [Function.update_self, if_neg (by omega), Nat.add_sub_cancel_left, Function.update_self]
  · rw [Function.update_of_ne hj]
    by_cases hlt : j < start
    · rw [if_pos hlt, if_pos hlt]
    · rw [if_neg hlt, if_neg hlt, Function.update_of_ne (by omega)]

theorem storeRange_writeWords (start : ℕ) (ws : List Word) :
    w.storeRange start ws.length (fun i => ws.getD i 0) =
      { w with dram := writeWords w.dram start ws } := by
  unfold storeRange writeWords
  congr 1
  funext j
  by_cases hlo : start ≤ j
  · rw [if_pos hlo]
    by_cases hhi : j < start + ws.length
    · have hlt : j - start < ws.length := by omega
      rw [if_pos ⟨hlo, hhi⟩, List.getD_eq_getElem _ _ hlt]
      exact List.getD_eq_getElem _ _ hlt
    · rw [if_neg (by omega), List.getD_eq_default _ _ (by omega)]
  · rw [if_neg hlo, if_neg (by omega)]

end World

/-- What a core does when it is started. -/
def hlsAct : Hls → Act (World board) (BitVec 32)
  | .loadParam => .stores ((List.range 1024).map fun i w => w.load i) (.ret 0)
  | .crypt core =>
    .loads ((List.range (board.words core)).map fun i w =>
        w.dram (w.target (core.upRegister board) + i)) fun operand =>
      .step id fun w =>
        let (ws, rn) := board.result core w.loaded
          (Words.value (fun i => operand.getD i 0) (board.words core))
        .stores ((List.range ws.length).map fun i w =>
          w.store (w.target (core.rpRegister board) + i) (ws.getD i 0)) (.ret rn)

variable {w w' : World board}

theorem hlsAct_loadParam : (hlsAct .loadParam).run w = (w.loadRange 1024, 0) := by
  rw [hlsAct, Act.run_stores, World.foldl_load]
  rfl

theorem hlsAct_crypt (core : Core) :
    (hlsAct (.crypt core)).run w =
      ({ w with
          dram := World.writeWords w.dram (w.target (core.rpRegister board))
            (board.result core w.loaded (w.operand core)).1 },
        (board.result core w.loaded (w.operand core)).2) := by
  have hvalue : Words.value (fun i => (((List.range (board.words core)).map
      fun i (w : World board) => w.dram (w.target (core.upRegister board) + i)).map
        fun f => f w).getD i 0) (board.words core) = w.operand core := by
    apply Words.value_congr
    intro i hi
    rw [List.getD_eq_getElem _ _ (by simpa using hi)]
    simp
  rw [hlsAct, Act.run_loads, Act.run, hvalue]
  simp only [id]
  rw [Act.run_stores, World.foldl_store _ (fun w => w.target (core.rpRegister board))
    (fun _ _ _ => rfl), World.storeRange_writeWords]
  rfl

/-! ## The host -/

/-- `hard::PynqPaillier` with the cores. -/
def hls (board : Board) (early : Bool) : System (World board) Hls (BitVec 32) :=
  ⟨hlsAct, testHLSCompleted, early⟩

abbrev HostProg (board : Board) := Prog (World board) Hls (BitVec 32)

variable {β : Type*}

/-- `mpz_export`, a word at a time. -/
def exportProg (memory : SharedMemory board.toPlatform) (v : ℤ) (p : HostProg board β) :
    HostProg board β :=
  match memory.pointer with
  | some page =>
    .stores ((List.range (Words.size 64 v.natAbs)).map fun i w =>
      w.store (page * board.pageSize / 8 + i) (Words.word 64 v.natAbs i)) p
  | none => p

/-- `mpz_import`, a word at a time. -/
def importProg (memory : SharedMemory board.toPlatform) (count : ℕ) (k : ℤ → HostProg board β) :
    HostProg board β :=
  match memory.pointer with
  | some page =>
    .loads ((List.range count).map fun i w => w.dram (page * board.pageSize / 8 + i)) fun ws =>
      k (mpzImport count fun i => ws.getD i 0)
  | none => if count = 0 then k 0 else .fault

theorem exportProg_run (memory : SharedMemory board.toPlatform) (v : ℤ) (p : HostProg board β) :
    (exportProg memory v p).run hlsAct w =
      p.run hlsAct { w with dram := World.exportTo w.dram memory v } := by
  unfold exportProg World.exportTo
  cases memory.pointer with
  | some page =>
    simp only [Prog.run_stores]
    rw [World.foldl_store _ (fun _ => page * board.pageSize / 8) (fun _ _ _ => rfl),
      World.storeRange_export]
  | none => rfl

theorem importProg_run (memory : SharedMemory board.toPlatform) (count : ℕ)
    (k : ℤ → HostProg board β) :
    (importProg memory count k).run hlsAct w =
      (World.importFrom w.dram memory count).bind fun res => (k res).run hlsAct w := by
  unfold importProg World.importFrom
  cases memory.pointer with
  | some page =>
    have himport : mpzImport count (fun i => (((List.range count).map
        fun i (w : World board) => w.dram (page * board.pageSize / 8 + i)).map
          fun f => f w).getD i 0) =
        mpzImport count fun i => w.dram (page * board.pageSize / 8 + i) := by
      unfold mpzImport
      congr 1
      apply Words.value_congr
      intro i hi
      rw [List.getD_eq_getElem _ _ (by simpa using hi)]
      simp
    simp only [Prog.run_loads, himport]
    rfl
  | none => by_cases hcount : count = 0 <;> simp [hcount]

/-- `encrypt` and `decrypt`. -/
def cryptProg (core : Core) (o : ℕ) (v : ℤ) : HostProg board ℤ :=
  .step id fun w =>
    match w.objects o with
    | .live obj =>
      exportProg (obj.buffer core.up) v <| .call (.crypt core) fun rn =>
        importProg (obj.buffer core.rp) rn.toNat .ret
    | _ => .fault

theorem cryptProg_run (core : Core) (o : ℕ) (v : ℤ) :
    (cryptProg core o v).run hlsAct w =
      (w.crypt core o v).map fun (w', _, res) => (w', res) := by
  unfold cryptProg World.crypt World.started
  simp only [Prog.run_step, id]
  cases w.objects o with
  | unborn | destroyed => rfl
  | live obj =>
    simp only [exportProg_run, Prog.run_call, hlsAct_crypt, importProg_run, Option.bind_eq_bind,
      Option.bind_some, Option.map_bind]
    rfl

/-- One write of `load_param`; the assertion comes after the words of the number. -/
def storeProg (start : ℕ) (key : Paillier) (target : Target) (p : HostProg board β) :
    HostProg board β :=
  match target with
  | .slot name =>
    match key.paramValue name with
    | .error _ => .fault
    | .ok v =>
      .stores ((List.range (Words.size 64 v.natAbs)).map fun i w =>
          w.store (start + board.config.addr name + i) (Words.word 64 v.natAbs i)) <|
        if Words.size 64 v.natAbs = board.config.size name then p else .fault
  | .tWord name =>
    match generateT board.config.radix (key.tModulus name) with
    | .error _ => .fault
    | .ok v => .step (fun w => w.store (start + board.config.tAddr name) v) fun _ => p

/-- `load_param`, a word at a time. -/
def loadParamProg (start : ℕ) (key : Paillier) (p : HostProg board β) : HostProg board β :=
  Paillier.loadOrder.foldr (storeProg start key) p

/-- `key_gen`; the key is there before the first word is cleared. -/
def keyGenProg (o : ℕ) (key : Key) : HostProg board Unit :=
  .step id fun w =>
    match w.objects o with
    | .live obj =>
      if key.obj.keySize = obj.keySize then
        .step (fun w => { w with
            objects := Function.update w.objects o (.live { obj with key := some key }) }) fun _ =>
          match obj.memoryParam.pointer with
          | some page =>
            .stores ((List.range 1024).map fun i w =>
                w.store (page * board.pageSize / 8 + i) 0) <|
              loadParamProg (page * board.pageSize / 8) key.obj <|
                .call .loadParam fun _ => .ret ()
          | none => .fault
      else .fault
    | _ => .fault

theorem storeProg_run (start : ℕ) (key : Paillier) (target : Target) (dst : ℕ → Word)
    (p : HostProg board β) :
    (storeProg start key target p).run hlsAct (w.behind start dst) =
      (Paillier.storeTarget board.config key dst target).toOption.bind fun dst' =>
        p.run hlsAct (w.behind start dst') := by
  cases target with
  | slot name =>
    cases hv : key.paramValue name with
    | error e => simp only [storeProg, hv, Paillier.storeTarget]; rfl
    | ok v =>
      simp only [storeProg, hv, Prog.run_stores]
      rw [World.foldl_store _ (fun _ => start + board.config.addr name) (fun _ _ _ => rfl),
        World.storeRange_behind]
      by_cases hsize : Words.size 64 v.natAbs = board.config.size name
      · rw [if_pos hsize, storeTarget_slot_of_eq hv hsize]
        rfl
      · rw [if_neg hsize, storeTarget_slot_of_ne hv hsize]
        rfl
  | tWord name =>
    cases hv : generateT board.config.radix (key.tModulus name) with
    | error e => simp only [storeProg, hv, Paillier.storeTarget]; rfl
    | ok v =>
      simp only [storeProg, hv, Prog.run_step]
      rw [World.store_behind, storeTarget_tWord_of_eq hv]
      rfl

theorem foldr_storeProg_run (start : ℕ) (key : Paillier) (targets : List Target)
    (dst : ℕ → Word) (p : HostProg board β) :
    (targets.foldr (storeProg start key) p).run hlsAct (w.behind start dst) =
      (targets.foldlM (Paillier.storeTarget board.config key) dst).toOption.bind fun dst' =>
        p.run hlsAct (w.behind start dst') := by
  induction targets generalizing dst with
  | nil => rfl
  | cons target targets ih =>
    rw [List.foldr_cons, storeProg_run, List.foldlM_cons]
    cases Paillier.storeTarget board.config key dst target with
    | error e => rfl
    | ok dst' => exact ih dst'

/-- `load_param` after the clearing loop. -/
theorem loadParamProg_run (start : ℕ) (key : Paillier) (p : HostProg board β) :
    (Prog.stores ((List.range 1024).map fun i w => w.store (start + i) 0)
        (loadParamProg start key p)).run hlsAct w =
      (Paillier.keyGenParam board.config key fun i => w.dram (start + i)).toOption.bind
        fun up => p.run hlsAct (w.behind start up.1) := by
  have hclear : w.storeRange start 1024 (fun _ => 0) =
      w.behind start (Paillier.clearParam fun i => w.dram (start + i)) := by
    rw [Paillier.clearParam, clear_range]
    calc w.storeRange start 1024 (fun _ => 0)
      _ = (w.behind start fun i => w.dram (start + i)).storeRange (start + 0) 1024 fun _ => 0 := by
        rw [w.behind_self, Nat.add_zero]
      _ = w.behind start fun i => if i < 1024 then 0 else w.dram (start + i) := by
        rw [w.storeRange_behind]
        simp only [Nat.zero_le, Nat.zero_add, true_and]
  rw [Prog.run_stores, World.foldl_store _ (fun _ => start) (fun _ _ _ => rfl), hclear,
    loadParamProg, foldr_storeProg_run]
  unfold Paillier.keyGenParam Paillier.loadParam
  cases Paillier.loadOrder.foldlM (Paillier.storeTarget board.config key)
    (Paillier.clearParam fun i => w.dram (start + i)) <;> rfl

theorem keyGenProg_run (o : ℕ) (key : Key) :
    (keyGenProg o key).run hlsAct w = (w.keyGen o key).map fun w' => (w', ()) := by
  unfold keyGenProg World.keyGen
  simp only [Prog.run_step, id]
  cases w.objects o with
  | unborn | destroyed => rfl
  | live obj =>
    by_cases hsize : key.obj.keySize = obj.keySize
    · simp only [guard, if_pos hsize, Prog.run_step]
      cases obj.memoryParam.pointer with
      | none => rfl
      | some page =>
        rw [loadParamProg_run]
        simp only [Prog.run_call, hlsAct_loadParam, Prog.run_ret, Option.pure_def,
          Option.bind_eq_bind, Option.bind_some, Option.map_bind]
        rfl
    · simp only [guard, if_neg hsize, Prog.run_fault]
      rfl

/-- A step of the host that may stop it. -/
def Prog.attempt (f : World board → Option (World board)) (p : HostProg board β) :
    HostProg board β :=
  .step (fun w => (f w).getD w) fun w =>
    match f w with
    | some _ => p
    | none => .fault

theorem attempt_run (f : World board → Option (World board)) (p : HostProg board β) :
    (Prog.attempt f p).run hlsAct w = (f w).bind fun w' => p.run hlsAct w' := by
  unfold Prog.attempt
  rw [Prog.run_step]
  cases f w <;> rfl

/-- One call of the class; only `encrypt` and `decrypt` have a result. -/
def callProg : Call → HostProg board (Option ℤ)
  | .construct o keySize answer => Prog.attempt (fun w => w.construct o keySize answer) (.ret none)
  | .destroy o => Prog.attempt (fun w => w.destroy o) (.ret none)
  | .keyGen o key => (keyGenProg o key).bind fun _ => .ret none
  | .encrypt o m => (cryptProg .encrypt o m).bind fun res => .ret (some res)
  | .decrypt o c => (cryptProg .decrypt o c).bind fun res => .ret (some res)

/-- A client's calls one after another, and their results. -/
def clientProg : List Call → HostProg board (List (Option ℤ))
  | [] => .ret []
  | call :: calls =>
    (callProg call).bind fun res => (clientProg calls).bind fun rest => .ret (res :: rest)

/-! ## Calls in one step -/

namespace World

/-- A call in one step. -/
def call (w : World board) : Call → Option (World board × Option ℤ)
  | .construct o keySize answer => (w.construct o keySize answer).map fun w => (w, none)
  | .destroy o => (w.destroy o).map fun w => (w, none)
  | .keyGen o key => (w.keyGen o key).map fun w => (w, none)
  | .encrypt o m => (w.encrypt o m).map fun (w, _, res) => (w, some res)
  | .decrypt o c => (w.decrypt o c).map fun (w, _, res) => (w, some res)

def calls (w : World board) : List Call → Option (World board × List (Option ℤ))
  | [] => some (w, [])
  | call :: calls => do
    let (w, res) ← w.call call
    let (w, rest) ← w.calls calls
    return (w, res :: rest)

/-- The world after a call is the one after a `step`. -/
theorem call_fst (w : World board) (call : Call) :
    (w.call call).map Prod.fst = (step w call).map Prod.fst := by
  cases call <;> simp only [World.call, step, Option.map_map] <;> rfl

end World

theorem callProg_run (call : Call) : (callProg call).run hlsAct w = w.call call := by
  cases call with
  | construct o keySize answer | destroy o =>
    simp only [callProg, attempt_run, World.call]
    rw [Option.map_eq_bind]
    rfl
  | keyGen o key =>
    simp only [callProg, Prog.run_bind, keyGenProg_run, World.call]
    cases w.keyGen o key <;> rfl
  | encrypt o m =>
    simp only [callProg, Prog.run_bind, cryptProg_run, World.call, World.encrypt]
    cases w.crypt .encrypt o m <;> rfl
  | decrypt o c =>
    simp only [callProg, Prog.run_bind, cryptProg_run, World.call, World.decrypt]
    cases w.crypt .decrypt o c <;> rfl

theorem clientProg_run (calls : List Call) : (clientProg calls).run hlsAct w = w.calls calls := by
  induction calls generalizing w with
  | nil => rfl
  | cons call calls ih =>
    simp only [clientProg, Prog.run_bind, callProg_run, World.calls, ih, Prog.run_ret]
    rfl

/-- The calls of a client that ends are the inputs of a run of `step`. -/
theorem exists_run_of_calls {calls : List Call} {results : List (Option ℤ)}
    (h : w.calls calls = some (w', results)) :
    ∃ ts, Runs.Run step w ts w' ∧ ts.map (·.input) = calls := by
  induction calls generalizing w results with
  | nil =>
    obtain ⟨rfl, -⟩ := by simpa [World.calls] using h
    exact ⟨[], rfl, rfl⟩
  | cons call calls ih =>
    simp only [World.calls, Option.bind_eq_bind, Option.bind_eq_some_iff, Prod.exists] at h
    obtain ⟨w₁, res, hcall, w₂, rest, hcalls, hret⟩ := h
    obtain rfl : w₂ = w' := (Prod.mk.inj (Option.some.inj hret)).1
    obtain ⟨ts, hrun, hinputs⟩ := ih hcalls
    have hfst := w.call_fst call
    rw [hcall, Option.map_some, eq_comm, Option.map_eq_some_iff] at hfst
    obtain ⟨⟨w₁, out⟩, hstep, rfl⟩ := hfst
    exact ⟨⟨w, call, out, w₁⟩ :: ts, ⟨rfl, hstep, hrun⟩, by simp [hinputs]⟩

/-! ## Every interleaving -/

variable {early : Bool} {s : State (World board) Hls (BitVec 32) (List (Option ℤ))}
  {sched : ℕ → Actor Hls} {calls : List Call}

theorem hls_sound : (hls board false).Sound where
  start control h := ((testHLSCompleted_iff control).mp h).1
  idle h := by cases h

/-- Host and cores in turn. -/
def inTurn (n : ℕ) : Actor Hls :=
  match n % 4 with
  | 0 => .host
  | 1 => .core (.crypt .encrypt)
  | 2 => .core (.crypt .decrypt)
  | _ => .core .loadParam

theorem inTurn_fair : Schedule.Fair (essential Hls) inTurn := by
  have hturn : ∀ r < 4, ∀ n, inTurn (4 * n + r) = inTurn r := by
    intro r hr n
    rw [inTurn, Nat.mul_add_mod, inTurn]
  intro a ha n
  obtain ⟨r, hr, rfl⟩ : ∃ r < 4, inTurn r = a := by
    rcases a with _ | ((_ | _) | _) | c
    · exact ⟨0, by decide, rfl⟩
    · exact ⟨1, by decide, rfl⟩
    · exact ⟨2, by decide, rfl⟩
    · exact ⟨3, by decide, rfl⟩
    · exact absurd rfl (ha c)
  exact ⟨4 * n + r, by omega, hturn r hr n⟩

/-- The cores idle, and a client about to call. -/
def atRest (w : World board) (calls : List Call) :
    State (World board) Hls (BitVec 32) (List (Option ℤ)) where
  mem := w
  host := .running (clientProg calls)
  control _ := idleControl
  register _ := 0
  core _ := .waiting

theorem atRest_tidy (early : Bool) (w : World board) (calls : List Call) :
    (atRest w calls).Tidy (hls board early) :=
  fun _ => ⟨rfl, rfl, rfl⟩

/-- An object on the small board, its key, and an encryption. -/
def smallCalls : List Call := [.construct 0 4 (answers 16 17 18), .keyGen 0 smallKey, .encrypt 0 2]

theorem smallCalls_calls :
    ∃ w res, (smallWorld 16).calls smallCalls = some (w, [none, none, some res]) := by
  obtain ⟨w₁, w₂, obj, h₁, h₂, hobj, hmemory1, hmemory2, -⟩ := smallBoard_keyed
  obtain ⟨⟨w₃, start, res⟩, h₃⟩ : ∃ r, w₂.crypt .encrypt 0 2 = some r :=
    crypt_total hobj hmemory2
  refine ⟨w₃, res, ?_⟩
  simp [smallCalls, World.calls, World.call, World.encrypt, (step_spec h₁).1, (step_spec h₂).1, h₃]

/-- **What a client gets.** When a client has ended, under any schedule of the host and the cores,
the memory and its results are those of its calls in one step each, which are a run of `step`. -/
theorem client_refines (hs : s.Tidy (hls board false))
    (hhost : s.host = .running (clientProg calls))
    {n : ℕ} {results : List (Option ℤ)}
    (hend : (Schedule.after (hls board false).next s sched n).host = .running (.ret results)) :
    s.mem.calls calls = some ((Schedule.after (hls board false).next s sched n).mem, results) ∧
      ∃ ts, Runs.Run step s.mem ts (Schedule.after (hls board false).next s sched n).mem ∧
        ts.map (·.input) = calls := by
  have hrun := run_of_ret hls_sound hs hhost hend
  rw [show (hls board false).act = hlsAct from rfl, clientProg_run] at hrun
  exact ⟨hrun, exists_run_of_calls hrun⟩

theorem client_refines_smallCalls : ∃ n results,
    (smallWorld 16).calls smallCalls = some ((Schedule.after (hls _ false).next
      (atRest (smallWorld 16) smallCalls) inTurn n).mem, results) ∧
    ∃ ts, Runs.Run step (smallWorld 16) ts (Schedule.after (hls _ false).next
      (atRest (smallWorld 16) smallCalls) inTurn n).mem ∧ ts.map (·.input) = smallCalls := by
  have htidy := atRest_tidy false (smallWorld 16) smallCalls
  obtain ⟨n, ⟨results, hend, -⟩ | ⟨-, hfault⟩⟩ :=
    exists_ended hls_sound rfl inTurn_fair htidy (p := clientProg smallCalls) rfl
  · exact ⟨n, results, client_refines htidy rfl hend⟩
  · obtain ⟨w, res, hcalls⟩ := smallCalls_calls
    have hrun := clientProg_run (w := smallWorld 16) smallCalls
    rw [hcalls] at hrun
    exact absurd (hrun.symm.trans hfault) (by simp)

/-- **Every client ends.** No schedule that keeps coming back to the host and to each core makes a
wait last for ever. -/
theorem client_ends (hs : s.Tidy (hls board false)) (hhost : s.host = .running (clientProg calls))
    (hfair : Schedule.Fair (essential Hls) sched) :
    ∃ n, (∃ results,
        (Schedule.after (hls board false).next s sched n).host = .running (.ret results) ∧
        s.mem.calls calls = some ((Schedule.after (hls board false).next s sched n).mem, results)) ∨
      ((Schedule.after (hls board false).next s sched n).host = .running .fault ∧
        s.mem.calls calls = none) := by
  have hends := exists_ended hls_sound rfl hfair hs hhost
  rwa [show (hls board false).act = hlsAct from rfl, clientProg_run] at hends

theorem client_ends_smallCalls : ∃ n results, (Schedule.after (hls _ false).next
    (atRest (smallWorld 16) smallCalls) inTurn n).host = .running (.ret results) := by
  obtain ⟨n, ⟨results, hend, -⟩ | ⟨-, hnone⟩⟩ :=
    client_ends (atRest_tidy false (smallWorld 16) smallCalls) rfl inTurn_fair
  · exact ⟨n, results, hend⟩
  · obtain ⟨w, res, hcalls⟩ := smallCalls_calls
    exact absurd (hcalls.symm.trans hnone) (by simp)

/-- Nothing allocated, everything zero. -/
def blank (board : Board) : World board where
  cma := .empty
  dram _ := 0
  regs _ := 0
  loaded _ := 0
  objects _ := .unborn

/-- An object without memory, whose `encrypt` starts the core all the same. -/
def zeroCalls : List Call := [.construct 0 0 fun _ => none, .encrypt 0 0]

/-- Without an answer of the allocator an object is constructed all the same. -/
theorem construct_unanswered (w : World board) {o : ℕ} (ho : w.objects o = .unborn) (keySize : ℕ) :
    ∃ w' obj, w.construct o keySize (fun _ => none) = some w' ∧ w'.objects o = .live obj ∧
      obj.memory1.pointer = none := by
  have halloc : ∀ (cma : Cma board.toPlatform) (length : ℕ), ∃ cma' state' ok,
      allocatedSharedMemory cma .new length true none = some (cma', state', ok) := by
    intro cma length
    rw [allocatedSharedMemory_eq]
    split
    · exact ⟨_, _, _, rfl⟩
    · exact ⟨_, _, _, rfl⟩
  obtain ⟨cma₁, memory1, ok₁, h1⟩ := halloc w.cma (8 * 257)
  obtain ⟨cma₂, memory2, ok₂, h2⟩ := halloc cma₁ (8 * 257)
  obtain ⟨cma₃, memoryParam, ok₃, h3⟩ := halloc cma₂ (8 * 1024)
  obtain ⟨w', hw'⟩ : ∃ w', w.construct o keySize (fun _ => none) = some w' := by
    simp [World.construct, ho, h1, h2, h3]
  obtain ⟨-, obj, _, _, _, _, _, hmemory1, -, -, hobjects, -⟩ := construct_spec hw'
  refine ⟨w', obj, hw', ?_, ?_⟩
  · rw [hobjects, Function.update_self]
  · rcases allocatedSharedMemory_cases hmemory1 with ⟨r, -, -, hnone, -⟩ | ⟨-, -, hptr⟩
    · cases hnone
    · exact hptr

/-- The first two steps of the host are the constructor, and the way of `encrypt` to its core. -/
theorem zeroCalls_call (board : Board) (early : Bool) :
    let s := Schedule.after (hls board early).next (atRest (blank board) zeroCalls)
      (fun _ => .host) 2
    (∃ k, s.host = .running (.call (.crypt .encrypt) k)) ∧ ∀ c, s.core c = .waiting := by
  obtain ⟨w', obj, hw', hobj, hnull⟩ := construct_unanswered (blank board) (o := 0) rfl 0
  have h₁ : (hls board early).next (atRest (blank board) zeroCalls) .host =
      { atRest (blank board) zeroCalls with
        mem := w'
        host := .running ((clientProg [.encrypt 0 0]).bind fun rest => .ret (none :: rest)) } := by
    simp only [System.next, System.nextHost, atRest, zeroCalls, clientProg, callProg, Prog.attempt,
      Prog.bind, hw', Option.getD_some]
  rw [Schedule.after_succ, Schedule.after_succ, Schedule.after_zero, h₁]
  refine ⟨?_, fun c => rfl⟩
  simp only [System.next, System.nextHost, clientProg, callProg, cryptProg, Prog.bind, hobj,
    exportProg, PynqPaillier.buffer, Core.up, hnull, id]
  exact ⟨_, rfl⟩

/-- **When the wait is safe.** No client's wait takes a core at work for one that has ended,
exactly when cores keep `ap_start` to their end: a core that hands it over early shows the status
`0x00`, which the test accepts. -/
theorem wait_safe_iff :
    (∀ (w : World board) (calls : List Call) (sched : ℕ → Actor Hls) (n : ℕ),
      ¬ (Schedule.after (hls board early).next (atRest w calls) sched n).Premature) ↔
    early = false := by
  constructor
  · intro h
    cases early with
    | false => rfl
    | true =>
      obtain ⟨⟨k, hcall⟩, hcore⟩ := zeroCalls_call board true
      obtain ⟨sched, n, hpremature⟩ := Schedule.exists_after 2
        ⟨_, premature rfl rfl hcall (hcore _)⟩
      exact absurd hpremature (h _ _ sched n)
  · rintro rfl w calls sched n
    exact (tidy_after hls_sound (atRest_tidy false w calls) sched n).not_premature

end HardApi
