import HardApi.Pynq.Device

/-!
# What a call can change

One inversion lemma per call (`construct_spec`, `destroy_spec`, `keyGen_spec`, `crypt_spec`), and
from them what only one kind of call can change: the registers (`step_regs`), the loaded parameters
(`step_loaded`), the buffers and the key of a live object (`step_live`). In the memory a call
changes only the words of `World.writes` (`step_dram`).
-/

namespace HardApi

variable {board : Board}

/-! ## Registers -/

theorem openHLS_of_dvd {address : ℕ} (h : 2 ^ 16 ∣ address) : openHLS board address = address :=
  Nat.div_mul_cancel (board.pageSize_dvd.trans h)

namespace Core

@[simp] theorem upRegister_encrypt : Core.encrypt.upRegister board = 0x80010020 := by
  rw [upRegister, address, openHLS_of_dvd (by decide)]

@[simp] theorem rpRegister_encrypt : Core.encrypt.rpRegister board = 0x80010018 := by
  rw [rpRegister, address, openHLS_of_dvd (by decide)]

@[simp] theorem upRegister_decrypt : Core.decrypt.upRegister board = 0x80000020 := by
  rw [upRegister, address, openHLS_of_dvd (by decide)]

@[simp] theorem rpRegister_decrypt : Core.decrypt.rpRegister board = 0x80000018 := by
  rw [rpRegister, address, openHLS_of_dvd (by decide)]

end Core

@[simp] theorem dataRegister_eq : dataRegister board = 0x80020010 := by
  rw [dataRegister, openHLS_of_dvd (by decide)]

/-- A register keeps the whole address. -/
@[simp] theorem SharedMemory.physicalAddress_mod {plat : Platform} (memory : SharedMemory plat) :
    memory.physicalAddress % 4294967296 = memory.physicalAddress :=
  Nat.mod_eq_of_lt memory.physicalAddress_lt

/-- The words that the page pointer and the physical address of a buffer reach are the same. -/
theorem SharedMemory.index_eq {memory : SharedMemory board.toPlatform} {page : ℕ}
    (h : memory.pointer = some page) :
    page * board.pageSize / 8 = memory.physicalAddress / 8 := by
  rw [memory.coherent page h]

/-- The registers hold the buffers of `obj`. -/
structure World.WiredTo (w : World board) (obj : PynqPaillier board) : Prop where
  up : ∀ core : Core,
    (w.regs (core.upRegister board)).toNat = (obj.buffer core.up).physicalAddress
  rp : ∀ core : Core,
    (w.regs (core.rpRegister board)).toNat = (obj.buffer core.rp).physicalAddress
  data : (w.regs (dataRegister board)).toNat = obj.memoryParam.physicalAddress

/-! ## One call -/

variable {w w' : World board} {o o' keySize : ℕ} {key : Key} {v : ℤ}

theorem construct_spec {answer : Buffer → Option Region}
    (h : w.construct o keySize answer = some w') :
    w.objects o = .unborn ∧ ∃ obj cma₁ cma₂ ok₁ ok₂ ok₃,
      allocatedSharedMemory w.cma .new (8 * 257) true (answer .memory1) =
        some (cma₁, obj.memory1, ok₁) ∧
      allocatedSharedMemory cma₁ .new (8 * 257) true (answer .memory2) =
        some (cma₂, obj.memory2, ok₂) ∧
      allocatedSharedMemory cma₂ .new (8 * 1024) true (answer .memoryParam) =
        some (w'.cma, obj.memoryParam, ok₃) ∧
      w'.objects = Function.update w.objects o (.live obj) ∧ w'.WiredTo obj ∧
      w'.dram = w.dram ∧ w'.loaded = w.loaded := by
  unfold World.construct at h
  split at h
  case h_1 hobj =>
    simp only [Option.bind_eq_bind, Option.bind_eq_some_iff, Prod.exists] at h
    obtain ⟨cma₁, memory1, ok₁, h1, cma₂, memory2, ok₂, h2, cma₃, memoryParam, ok₃, h3, hw'⟩ := h
    obtain rfl := Option.some.inj hw'
    refine ⟨hobj, ⟨keySize, memory1, memory2, memoryParam, none⟩, cma₁, cma₂, ok₁, ok₂, ok₃, h1, h2,
      h3, rfl, ⟨?_, ?_, ?_⟩, rfl, rfl⟩
    · intro core
      cases core <;> simp [writeToHLS, Core.up, PynqPaillier.buffer]
    · intro core
      cases core <;> simp [writeToHLS, Core.rp, PynqPaillier.buffer]
    · simp [writeToHLS]
  case h_2 => cases h

theorem destroy_spec (h : w.destroy o = some w') :
    ∃ obj, w.objects o = .live obj ∧
      w'.cma = ((w.cma.cmaFree obj.memory1.pointer).cmaFree obj.memory2.pointer).cmaFree
        obj.memoryParam.pointer ∧
      w'.objects = Function.update w.objects o .destroyed ∧
      w'.regs = w.regs ∧ w'.loaded = w.loaded ∧ w'.dram = w.dram := by
  unfold World.destroy at h
  split at h
  case h_1 obj hobj =>
    obtain rfl := Option.some.inj h
    exact ⟨obj, hobj, rfl, rfl, rfl, rfl, rfl⟩
  case h_2 => cases h

theorem toOption_eq_some {ε α : Type*} {x : Except ε α} {a : α} (h : x.toOption = some a) :
    x = .ok a := by
  cases x with
  | error e => cases h
  | ok b => exact congrArg _ (Option.some.inj h)

theorem keyGen_spec (h : w.keyGen o key = some w') :
    ∃ obj page up count, w.objects o = .live obj ∧ obj.memoryParam.pointer = some page ∧
      Paillier.keyGenParam board.config key.obj (fun i => w.dram (page * board.pageSize / 8 + i)) =
        .ok (up, count) ∧
      w'.dram = (fun i => if i < page * board.pageSize / 8 then w.dram i
        else up (i - page * board.pageSize / 8)) ∧
      w'.loaded = (fun i => if i < 1024 then w'.dram (w.target (dataRegister board) + i)
        else w.loaded i) ∧
      w'.objects = Function.update w.objects o (.live { obj with key := some key }) ∧
      w'.regs = w.regs ∧ w'.cma = w.cma := by
  unfold World.keyGen at h
  split at h
  case h_1 obj hobj =>
    simp only [Option.bind_eq_bind, Option.bind_eq_some_iff, Prod.exists] at h
    obtain ⟨-, -, page, hpage, up, count, hrun, hw'⟩ := h
    obtain rfl := Option.some.inj hw'
    exact ⟨obj, page, up, count, hobj, hpage, toOption_eq_some hrun, rfl, rfl, rfl, rfl, rfl⟩
  case h_2 => cases h

theorem keyGen_target (h : w.keyGen o key = some w') (register : ℕ) :
    w'.target register = w.target register := by
  obtain ⟨_, _, _, _, -, -, -, -, -, -, hregs, -⟩ := keyGen_spec h
  rw [World.target, hregs]
  rfl

/-- Whoever calls `key_gen`: what is loaded lies behind the data register. -/
theorem keyGen_loaded (h : w.keyGen o key = some w') {i : ℕ} (hi : i < 1024) :
    w'.loaded i = w'.dram (w'.target (dataRegister board) + i) := by
  obtain ⟨_, _, _, _, -, -, -, -, hloaded, -⟩ := keyGen_spec h
  rw [keyGen_target h, hloaded]
  exact if_pos hi

theorem started_eq_some_iff {core : Core} {start : Start board} :
    w.started core o v = some start ↔ ∃ obj, w.objects o = .live obj ∧
      start = ⟨core, o, v, { w with dram := World.exportTo w.dram (obj.buffer core.up) v }⟩ := by
  unfold World.started
  cases w.objects o <;> simp [eq_comm]

/-- What a call that comes back has imported, and the world it leaves. -/
theorem crypt_cases {core : Core} {start : Start board} {res : ℤ}
    (h : w.crypt core o v = some (w', start, res)) :
    ∃ obj, w.objects o = .live obj ∧ w.started core o v = some start ∧
      World.importFrom w'.dram (obj.buffer core.rp)
        (board.result core w.loaded (start.world.operand core)).2.toNat = some res ∧
      w' = { w with
        dram := World.writeWords start.world.dram (w.target (core.rpRegister board))
          (board.result core w.loaded (start.world.operand core)).1 } := by
  unfold World.crypt at h
  split at h
  case h_1 obj hobj =>
    simp only [Option.bind_eq_bind, Option.bind_eq_some_iff] at h
    obtain ⟨start', hstart, res', himport, hw'⟩ := h
    obtain ⟨rfl, rfl, rfl⟩ := by simpa using hw'
    obtain ⟨_, -, rfl⟩ := started_eq_some_iff.mp hstart
    exact ⟨obj, hobj, hstart, himport, rfl⟩
  case h_2 => cases h

theorem crypt_spec {core : Core} {start : Start board} {res : ℤ}
    (h : w.crypt core o v = some (w', start, res)) :
    w.started core o v = some start ∧ w'.objects = w.objects ∧ w'.regs = w.regs ∧
      w'.loaded = w.loaded ∧ w'.cma = w.cma ∧
      w'.dram = World.writeWords start.world.dram (w.target (core.rpRegister board))
        (board.result core w.loaded (start.world.operand core)).1 := by
  obtain ⟨obj, -, hstart, -, rfl⟩ := crypt_cases h
  exact ⟨hstart, rfl, rfl, rfl, rfl, rfl⟩

theorem keyGen_total {obj : PynqPaillier board} {page count : ℕ} {up : ℕ → Word}
    (hobj : w.objects o = .live obj) (hsize : key.obj.keySize = obj.keySize)
    (hpage : obj.memoryParam.pointer = some page)
    (hrun : Paillier.keyGenParam board.config key.obj
      (fun i => w.dram (page * board.pageSize / 8 + i)) = .ok (up, count)) :
    ∃ w', w.keyGen o key = some w' := by
  simp [World.keyGen, hobj, hsize, hpage, hrun, Except.toOption]

theorem crypt_total {core : Core} {obj : PynqPaillier board} {page : ℕ}
    (hobj : w.objects o = .live obj) (hrp : (obj.buffer core.rp).pointer = some page) :
    ∃ r, w.crypt core o v = some r := by
  simp [World.crypt, World.started, hobj, World.importFrom, hrp]

/-! ## One step -/

def Call.IsConstruct : Call → Prop
  | .construct .. => True
  | _ => False

def Call.IsKeyGen : Call → Prop
  | .keyGen .. => True
  | _ => False

variable {call : Call} {out : Option (Start board)}

theorem step_spec (h : step w call = some (w', out)) :
    match call with
    | .construct o keySize answer => w.construct o keySize answer = some w' ∧ out = none
    | .destroy o => w.destroy o = some w' ∧ out = none
    | .keyGen o key => w.keyGen o key = some w' ∧ out = none
    | .encrypt o m =>
      ∃ start res, w.crypt .encrypt o m = some (w', start, res) ∧ out = some start
    | .decrypt o c =>
      ∃ start res, w.crypt .decrypt o c = some (w', start, res) ∧ out = some start := by
  cases call with
  | construct | destroy | keyGen =>
    simp only [step, Option.map_eq_some_iff, Prod.mk.injEq] at h
    obtain ⟨_, hw', rfl, rfl⟩ := h
    exact ⟨hw', rfl⟩
  | encrypt | decrypt =>
    simp only [step, Option.map_eq_some_iff, Prod.mk.injEq] at h
    obtain ⟨⟨_, start, res⟩, hw', rfl, rfl⟩ := h
    exact ⟨start, res, hw', rfl⟩

/-- Only a constructor writes to the address registers. -/
theorem step_regs (h : step w call = some (w', out)) (hcall : ¬ call.IsConstruct) :
    w'.regs = w.regs := by
  have hspec := step_spec h
  cases call with
  | construct => exact absurd trivial hcall
  | destroy o =>
    obtain ⟨_, -, -, -, hregs, -⟩ := destroy_spec hspec.1
    exact hregs
  | keyGen o key =>
    obtain ⟨_, _, _, _, -, -, -, -, -, -, hregs, -⟩ := keyGen_spec hspec.1
    exact hregs
  | encrypt | decrypt =>
    obtain ⟨start, res, hcrypt, -⟩ := hspec
    obtain ⟨-, -, hregs, -⟩ := crypt_spec hcrypt
    exact hregs

/-- Only `key_gen` loads parameters. -/
theorem step_loaded (h : step w call = some (w', out)) (hcall : ¬ call.IsKeyGen) :
    w'.loaded = w.loaded := by
  have hspec := step_spec h
  cases call with
  | construct =>
    obtain ⟨-, _, _, _, _, _, _, -, -, -, -, -, -, hloaded⟩ := construct_spec hspec.1
    exact hloaded
  | destroy o =>
    obtain ⟨_, -, -, -, -, hloaded, -⟩ := destroy_spec hspec.1
    exact hloaded
  | keyGen => exact absurd trivial hcall
  | encrypt | decrypt =>
    obtain ⟨start, res, hcrypt, -⟩ := hspec
    obtain ⟨-, -, -, hloaded, -⟩ := crypt_spec hcrypt
    exact hloaded

/-! ## Memory -/

/-- The 1024 words of `memory_param`. -/
def World.paramWords (w : World board) (o : ℕ) : Set ℕ :=
  {i | ∃ obj j, w.objects o = .live obj ∧ j < 1024 ∧ i = obj.memoryParam.physicalAddress / 8 + j}

/-- What `encrypt` and `decrypt` write: the host the number, the core its result. -/
def World.cryptWrites (w : World board) (core : Core) (o : ℕ) (v : ℤ) : Set ℕ :=
  {i | ∃ obj page j, w.objects o = .live obj ∧ (obj.buffer core.up).pointer = some page ∧
    j < Words.size 64 v.natAbs ∧ i = (obj.buffer core.up).physicalAddress / 8 + j} ∪
  {i | ∃ start j, w.started core o v = some start ∧
    j < (board.result core w.loaded (start.world.operand core)).1.length ∧
    i = w.target (core.rpRegister board) + j}

/-- The words of the memory that a call writes. -/
def World.writes (w : World board) : Call → Set ℕ
  | .keyGen o _ => {i | ∃ obj j, w.objects o = .live obj ∧ board.config.Filled j ∧
      i = obj.memoryParam.physicalAddress / 8 + j}
  | .encrypt o m => w.cryptWrites .encrypt o m
  | .decrypt o c => w.cryptWrites .decrypt o c
  | _ => ∅

theorem exportTo_of_some {memory : SharedMemory board.toPlatform} {page : ℕ}
    (h : memory.pointer = some page) (dram : ℕ → Word) (v : ℤ) :
    World.exportTo dram memory v =
      Words.storeAt dram (memory.physicalAddress / 8) v.natAbs := by
  rw [World.exportTo, h, ← SharedMemory.index_eq h]
  rfl

theorem exportTo_of_none {memory : SharedMemory board.toPlatform} (h : memory.pointer = none)
    (dram : ℕ → Word) (v : ℤ) : World.exportTo dram memory v = dram := by
  rw [World.exportTo, h]

theorem writeWords_outside {dram : ℕ → Word} {start i : ℕ} {ws : List Word}
    (h : ¬ ∃ j < ws.length, i = start + j) : World.writeWords dram start ws i = dram i := by
  unfold World.writeWords
  by_cases hi : start ≤ i
  · rw [if_pos hi]
    apply List.getD_eq_default
    by_contra hlt
    exact h ⟨i - start, by omega, by omega⟩
  · exact if_neg hi

theorem crypt_dram {core : Core} {start : Start board} {res : ℤ}
    (h : w.crypt core o v = some (w', start, res)) {i : ℕ} (hi : i ∉ w.cryptWrites core o v) :
    w'.dram i = w.dram i := by
  obtain ⟨hstarted, -, -, -, -, hdram⟩ := crypt_spec h
  obtain ⟨hexport, hresult⟩ := not_or.mp hi
  rw [hdram, writeWords_outside]
  · obtain ⟨obj, hobj, rfl⟩ := started_eq_some_iff.mp hstarted
    show World.exportTo w.dram (obj.buffer core.up) v i = w.dram i
    cases hptr : (obj.buffer core.up).pointer with
    | none => rw [exportTo_of_none hptr]
    | some page =>
      rw [exportTo_of_some hptr]
      apply Words.storeAt_outside
      by_contra hin
      exact hexport ⟨obj, page, i - (obj.buffer core.up).physicalAddress / 8, hobj, hptr,
        by omega, by omega⟩
  · rintro ⟨j, hj, rfl⟩
    exact hresult ⟨start, j, hstarted, hj, rfl⟩

theorem keyGen_dram (h : w.keyGen o key = some w') {i : ℕ} (hi : i ∉ w.writes (.keyGen o key)) :
    w'.dram i = w.dram i := by
  obtain ⟨obj, page, up, count, hobj, hpage, hrun, hdram, -⟩ := keyGen_spec h
  rw [hdram]
  beta_reduce
  by_cases hlt : i < page * board.pageSize / 8
  · exact if_pos hlt
  · rw [if_neg hlt, keyGenParam_frame hrun]
    · congr 1
      omega
    · intro hfilled
      refine hi ⟨obj, _, hobj, hfilled, ?_⟩
      rw [← SharedMemory.index_eq hpage]
      omega

/-- Outside of what it writes a call leaves the memory alone. -/
theorem step_dram (h : step w call = some (w', out)) {i : ℕ} (hi : i ∉ w.writes call) :
    w'.dram i = w.dram i := by
  have hspec := step_spec h
  cases call with
  | construct =>
    obtain ⟨-, _, _, _, _, _, _, -, -, -, -, -, hdram, -⟩ := construct_spec hspec.1
    rw [hdram]
  | destroy =>
    obtain ⟨_, -, -, -, -, -, hdram⟩ := destroy_spec hspec.1
    rw [hdram]
  | keyGen => exact keyGen_dram hspec.1 hi
  | encrypt | decrypt =>
    obtain ⟨start, res, hcrypt, -⟩ := hspec
    exact crypt_dram hcrypt hi

/-! ## Objects -/

theorem step_loaded_keyGen (h : step w call = some (w', out)) (hcall : call.IsKeyGen) {i : ℕ}
    (hi : i < 1024) : w'.loaded i = w'.dram (w'.target (dataRegister board) + i) := by
  have hspec := step_spec h
  cases call with
  | keyGen => exact keyGen_loaded hspec.1 hi
  | construct | destroy | encrypt | decrypt => exact hcall.elim

/-- An object that is live after a step was constructed by it or was live before, with the same
buffers, and with the same key unless the step is its `key_gen`. -/
theorem step_live (h : step w call = some (w', out)) {obj' : PynqPaillier board}
    (hlive : w'.objects o = .live obj') :
    (∃ keySize answer, call = .construct o keySize answer) ∨
    ∃ obj, w.objects o = .live obj ∧ obj'.buffer = obj.buffer ∧
      (obj'.key = obj.key ∨ ∃ key, call = .keyGen o key) := by
  have hspec := step_spec h
  cases call with
  | construct o₁ keySize answer =>
    obtain ⟨-, obj, _, _, _, _, _, -, -, -, hobjects, -⟩ := construct_spec hspec.1
    by_cases ho : o = o₁
    · subst ho
      exact Or.inl ⟨keySize, answer, rfl⟩
    · rw [hobjects, Function.update_of_ne ho] at hlive
      exact Or.inr ⟨obj', hlive, rfl, Or.inl rfl⟩
  | destroy o₁ =>
    obtain ⟨obj, -, -, hobjects, -⟩ := destroy_spec hspec.1
    by_cases ho : o = o₁
    · subst ho
      rw [hobjects, Function.update_self] at hlive
      cases hlive
    · rw [hobjects, Function.update_of_ne ho] at hlive
      exact Or.inr ⟨obj', hlive, rfl, Or.inl rfl⟩
  | keyGen o₁ key =>
    obtain ⟨obj, _, _, _, hobj, -, -, -, -, hobjects, -⟩ := keyGen_spec hspec.1
    by_cases ho : o = o₁
    · subst ho
      rw [hobjects, Function.update_self] at hlive
      cases hlive
      exact Or.inr ⟨obj, hobj, by funext b; cases b <;> rfl, Or.inr ⟨key, rfl⟩⟩
    · rw [hobjects, Function.update_of_ne ho] at hlive
      exact Or.inr ⟨obj', hlive, rfl, Or.inl rfl⟩
  | encrypt | decrypt =>
    obtain ⟨start, res, hcrypt, -⟩ := hspec
    obtain ⟨-, hobjects, -⟩ := crypt_spec hcrypt
    rw [hobjects] at hlive
    exact Or.inr ⟨obj', hlive, rfl, Or.inl rfl⟩

/-- An object's number is not used again. -/
theorem step_born (h : step w call = some (w', out)) (hborn : w.objects o ≠ .unborn) :
    w'.objects o ≠ .unborn ∧ ∀ keySize answer, call ≠ .construct o keySize answer := by
  have hspec := step_spec h
  have hupdate : ∀ {o₁ : ℕ} {life : Life board}, life ≠ .unborn →
      Function.update w.objects o₁ life o ≠ .unborn := by
    intro o₁ life hlife
    by_cases ho : o = o₁
    · rw [ho, Function.update_self]
      exact hlife
    · rw [Function.update_of_ne ho]
      exact hborn
  cases call with
  | construct o₁ keySize answer =>
    obtain ⟨hunborn, obj, _, _, _, _, _, -, -, -, hobjects, -⟩ := construct_spec hspec.1
    refine ⟨hobjects ▸ hupdate (by simp), ?_⟩
    rintro _ _ ⟨⟩
    exact hborn hunborn
  | destroy o₁ =>
    obtain ⟨obj, -, -, hobjects, -⟩ := destroy_spec hspec.1
    exact ⟨hobjects ▸ hupdate (by simp), by simp⟩
  | keyGen o₁ key =>
    obtain ⟨obj, _, _, _, -, -, -, -, -, hobjects, -⟩ := keyGen_spec hspec.1
    exact ⟨hobjects ▸ hupdate (by simp), by simp⟩
  | encrypt | decrypt =>
    obtain ⟨start, res, hcrypt, -⟩ := hspec
    obtain ⟨-, hobjects, -⟩ := crypt_spec hcrypt
    exact ⟨hobjects ▸ hborn, by simp⟩

/-! ## The address registers of one object -/

/-- If `o` is live, the registers hold its buffers. -/
def World.Wired (w : World board) (o : ℕ) : Prop := ∀ obj, w.objects o = .live obj → w.WiredTo obj

theorem construct_wired {answer : Buffer → Option Region}
    (h : w.construct o keySize answer = some w') : w'.Wired o := by
  obtain ⟨-, obj, _, _, _, _, _, -, -, -, hobjects, hwired, -⟩ := construct_spec h
  intro obj' hlive
  rw [hobjects, Function.update_self] at hlive
  cases hlive
  exact hwired

/-- The registers of `o` stay, until another object is constructed. -/
theorem step_wired (h : step w call = some (w', out)) (hwired : w.Wired o)
    (hcall : ¬ call.IsConstruct) : w'.Wired o := by
  intro obj' hlive
  rcases step_live h hlive with ⟨keySize, answer, hconstruct⟩ | ⟨obj, hobj, hbuffer, -⟩
  · rw [hconstruct] at hcall
    exact absurd trivial hcall
  · have hpre := hwired obj hobj
    have hregs := step_regs h hcall
    refine ⟨fun core => ?_, fun core => ?_, ?_⟩
    · rw [hregs, hbuffer]
      exact hpre.up core
    · rw [hregs, hbuffer]
      exact hpre.rp core
    · rw [hregs, show obj'.memoryParam = obj.memoryParam from congrFun hbuffer .memoryParam]
      exact hpre.data

/-! ## The small board -/

theorem smallBoard_keyGen {pages : Fin 17} {w : World (smallBoard pages)} {o page : ℕ}
    {obj : PynqPaillier (smallBoard pages)} {key : Key} (hodd : key.p ≠ 2)
    (hfits : ((key.p : ℤ) * key.q) ^ 2 < 2 ^ 64) (hobj : w.objects o = .live obj)
    (hsize : key.obj.keySize = obj.keySize) (hpage : obj.memoryParam.pointer = some page) :
    ∃ w', step w (.keyGen o key) = some (w', none) ∧ w.keyGen o key = some w' ∧
      w'.objects = Function.update w.objects o (.live { obj with key := some key }) ∧
      w'.regs = w.regs := by
  obtain ⟨up, hup⟩ := smallConfig_total key hodd hfits fun i =>
    w.dram (page * (smallBoard pages).pageSize / 8 + i)
  obtain ⟨w', hw'⟩ := keyGen_total hobj hsize hpage hup
  obtain ⟨obj', _, _, _, hobj', -, -, -, -, hobjects, hregs, -⟩ := keyGen_spec hw'
  obtain rfl : obj = obj' := by simpa [hobj] using hobj'
  exact ⟨w', by simp [step, hw'], hw', hobjects, hregs⟩

theorem encrypt_total {w : World board} {page : ℕ} {obj : PynqPaillier board}
    (hobj : w.objects o = .live obj) (hrp : obj.memory2.pointer = some page) (m : ℤ) :
    ∃ w' world, step w (.encrypt o m) = some (w', some ⟨.encrypt, o, m, world⟩) ∧
      world.regs = w.regs ∧ world.loaded = w.loaded := by
  obtain ⟨⟨w', start, res⟩, hcrypt⟩ : ∃ r, w.crypt .encrypt o m = some r :=
    crypt_total hobj hrp
  obtain ⟨obj, -, rfl⟩ := started_eq_some_iff.mp (crypt_spec hcrypt).1
  exact ⟨w', { w with dram := World.exportTo w.dram (obj.buffer Core.encrypt.up) m },
    by simp [step, World.encrypt, hcrypt], rfl, rfl⟩

/-- One object constructed on an empty board, and its first key. -/
theorem smallBoard_keyed :
    ∃ w₁ w₂ : World (smallBoard 16), ∃ obj,
      step (smallWorld 16) (.construct 0 4 (answers 16 17 18)) = some (w₁, none) ∧
      step w₁ (.keyGen 0 smallKey) = some (w₂, none) ∧ w₂.objects 0 = .live obj ∧
      obj.memory1.pointer = some 16 ∧ obj.memory2.pointer = some 17 ∧ obj.key = some smallKey := by
  obtain ⟨w₁, obj, h₁, hobj, hsize, hmemory1, hmemory2, hparam⟩ :
      ∃ w₁ : World (smallBoard 16), ∃ obj,
        step (smallWorld 16) (.construct 0 4 (answers 16 17 18)) = some (w₁, none) ∧
        w₁.objects 0 = .live obj ∧ obj.keySize = 4 ∧ obj.memory1.pointer = some 16 ∧
        obj.memory2.pointer = some 17 ∧ obj.memoryParam.pointer = some 18 :=
    ⟨_, _, rfl, rfl, rfl, rfl, rfl, rfl⟩
  obtain ⟨w₂, h₂, -, hobjects, -⟩ := smallBoard_keyGen (show smallKey.p ≠ 2 by decide)
    (by decide) hobj hsize.symm hparam
  refine ⟨w₁, w₂, { obj with key := some smallKey }, h₁, h₂, ?_, hmemory1, hmemory2, rfl⟩
  rw [hobjects, Function.update_self]

@[simp] theorem World.writeWords_nil (dram : ℕ → Word) (start : ℕ) :
    World.writeWords dram start [] = dram := by
  funext i
  simp [World.writeWords]

end HardApi
