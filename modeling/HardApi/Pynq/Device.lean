import HardApi.Pynq.Memory
import HardApi.Pynq.Params
import HardApi.Lib.Runs

/-!
# The board and the objects that drive it

`World` is what all `PynqPaillier` objects of a program share: the allocator, the memory, the
registers of the three cores and the parameters that were loaded last; and the objects themselves.
`step` is one call of the class. What is not in the repository is a parameter of `Board`: what
programming the bitstream leaves in the registers, how many words a core reads and what it
computes.

`key_gen` and `mpz_import` follow a pointer, so `NULL` stops them, `mpz_import` unless it has no
word to read. `mpz_export` to `NULL` allocates: the core is started all the same, and it reads what
lies behind its register.
-/

namespace HardApi

/-- The cores that take an operand. -/
inductive Core where
  | encrypt | decrypt
  deriving DecidableEq, Repr

/-- The three buffers of an object. -/
inductive Buffer where
  | memory1 | memory2 | memoryParam
  deriving DecidableEq, Repr

structure Board extends Platform where
  config : Config
  /-- The registers after the bitstream has been loaded. -/
  loadBitstream : (ℕ → BitVec 32) → ℕ → BitVec 32
  /-- The words a core reads at `up`. -/
  words : Core → ℕ
  /-- The words a core writes at `rp` and its `ap_return`, from the parameters and the operand. -/
  result : Core → (ℕ → Word) → ℕ → List Word × BitVec 32

/-! ## Registers -/

section
variable (board : Board)

/-- `PYNQ_openHLS`: the `virt_base` of the window. Every object opens the same three windows. -/
def openHLS (address : ℕ) : ℕ := address / board.pageSize * board.pageSize

namespace Core

def address : Core → ℕ
  | .decrypt => 0x80000000
  | .encrypt => 0x80010000

/-- `X…CRYPT_TOP_CONTROL_ADDR_UP_DATA`. -/
def upRegister (core : Core) : ℕ := openHLS board core.address + 0x20

/-- `X…CRYPT_TOP_CONTROL_ADDR_RP_DATA`. -/
def rpRegister (core : Core) : ℕ := openHLS board core.address + 0x18

/-- The buffer an object hands to `up`. -/
def up : Core → Buffer
  | .encrypt => .memory1
  | .decrypt => .memory2

/-- The buffer an object hands to `rp`. -/
def rp : Core → Buffer
  | .encrypt => .memory2
  | .decrypt => .memory1

end Core

/-- `XLOAD_PARAM_TOP_CONTROL_ADDR_DATA_DATA`. -/
def dataRegister : ℕ := openHLS board 0x80020000 + 0x10

end

/-- `PYNQ_writeToHLS` of the four low bytes of an address. -/
def writeToHLS (regs : ℕ → BitVec 32) (register physicalAddress : ℕ) : ℕ → BitVec 32 :=
  Function.update regs register (BitVec.ofNat 32 physicalAddress)

/-! ## Objects -/

structure PynqPaillier (board : Board) where
  keySize : ℕ
  memory1 : SharedMemory board.toPlatform
  memory2 : SharedMemory board.toPlatform
  memoryParam : SharedMemory board.toPlatform
  key : Option Key

def PynqPaillier.buffer {board : Board} (obj : PynqPaillier board) :
    Buffer → SharedMemory board.toPlatform
  | .memory1 => obj.memory1
  | .memory2 => obj.memory2
  | .memoryParam => obj.memoryParam

inductive Life (board : Board) where
  | unborn
  | live (obj : PynqPaillier board)
  | destroyed

structure World (board : Board) where
  cma : Cma board.toPlatform
  /-- The 64-bit words of the memory, by physical address divided by 8. -/
  dram : ℕ → Word
  regs : ℕ → BitVec 32
  loaded : ℕ → Word
  objects : ℕ → Life board

namespace World

variable {board : Board} (w : World board)

/-- `PynqPaillier::PynqPaillier`; `answer` is what `cma_alloc` returns for each buffer. -/
def construct (o keySize : ℕ) (answer : Buffer → Option Region) : Option (World board) :=
  match w.objects o with
  | .unborn => do
    let regs := board.loadBitstream w.regs
    let (cma, memory1, _) ← allocatedSharedMemory w.cma .new (8 * 257) true (answer .memory1)
    let (cma, memory2, _) ← allocatedSharedMemory cma .new (8 * 257) true (answer .memory2)
    let (cma, memoryParam, _) ← allocatedSharedMemory cma .new (8 * 1024) true (answer .memoryParam)
    let regs := writeToHLS regs (Core.encrypt.upRegister board) memory1.physicalAddress
    let regs := writeToHLS regs (Core.encrypt.rpRegister board) memory2.physicalAddress
    let regs := writeToHLS regs (Core.decrypt.upRegister board) memory2.physicalAddress
    let regs := writeToHLS regs (Core.decrypt.rpRegister board) memory1.physicalAddress
    let regs := writeToHLS regs (dataRegister board) memoryParam.physicalAddress
    let obj : PynqPaillier board := ⟨keySize, memory1, memory2, memoryParam, none⟩
    return { w with cma, regs, objects := Function.update w.objects o (.live obj) }
  | _ => none

/-- `PynqPaillier::~PynqPaillier`. -/
def destroy (o : ℕ) : Option (World board) :=
  match w.objects o with
  | .live obj =>
    let cma := w.cma.cmaFree obj.memory1.pointer
    let cma := cma.cmaFree obj.memory2.pointer
    let cma := cma.cmaFree obj.memoryParam.pointer
    some { w with cma, objects := Function.update w.objects o .destroyed }
  | _ => none

/-- The index of the word a register points to. -/
def target (register : ℕ) : ℕ := (w.regs register).toNat / 8

/-- `PynqPaillier::key_gen`, whose base class call leaves `key`. -/
def keyGen (o : ℕ) (key : Key) : Option (World board) :=
  match w.objects o with
  | .live obj => do
    guard (key.obj.keySize = obj.keySize)
    let page ← obj.memoryParam.pointer
    let start := page * board.pageSize / 8
    let (up, _) ←
      (Paillier.keyGenParam board.config key.obj fun i => w.dram (start + i)).toOption
    let dram : ℕ → Word := fun i => if i < start then w.dram i else up (i - start)
    -- The core reads the memory behind its own register, not behind `memory_param`.
    let loaded : ℕ → Word := fun i =>
      if i < 1024 then dram (w.target (dataRegister board) + i) else w.loaded i
    let objects := Function.update w.objects o (.live { obj with key := some key })
    return { w with dram, loaded, objects }
  | _ => none

/-- `mpz_export` to a buffer. For `NULL` it allocates a block of its own, which nobody reads. -/
def exportTo (dram : ℕ → Word) (memory : SharedMemory board.toPlatform) (v : ℤ) : ℕ → Word :=
  match memory.pointer with
  | some page => (mpzExport dram (page * board.pageSize / 8) v).1
  | none => dram

/-- `mpz_import` from a buffer. -/
def importFrom (dram : ℕ → Word) (memory : SharedMemory board.toPlatform) (count : ℕ) : Option ℤ :=
  match memory.pointer with
  | some page => some (mpzImport count fun i => dram (page * board.pageSize / 8 + i))
  | none => if count = 0 then some 0 else none

/-- The number a core reads when it is started. -/
def operand (core : Core) : ℕ :=
  Words.value (fun i => w.dram (w.target (core.upRegister board) + i)) (board.words core)

def writeWords (dram : ℕ → Word) (start : ℕ) (ws : List Word) : ℕ → Word := fun i =>
  if start ≤ i then ws.getD (i - start) (dram i) else dram i

end World

/-- A start of a core: the object, what it was asked to compute on, and the world then. -/
structure Start (board : Board) where
  core : Core
  object : ℕ
  argument : ℤ
  world : World board

namespace World

variable {board : Board} (w : World board)

/-- `encrypt` and `decrypt` up to the start of the core. -/
def started (core : Core) (o : ℕ) (v : ℤ) : Option (Start board) :=
  match w.objects o with
  | .live obj =>
    some ⟨core, o, v, { w with dram := exportTo w.dram (obj.buffer core.up) v }⟩
  | _ => none

/-- `encrypt` and `decrypt`: the world after the call, the start of the core and the result. -/
def crypt (core : Core) (o : ℕ) (v : ℤ) : Option (World board × Start board × ℤ) :=
  match w.objects o with
  | .live obj => do
    let start ← w.started core o v
    let (ws, rn) := board.result core start.world.loaded (start.world.operand core)
    let dram := writeWords start.world.dram (start.world.target (core.rpRegister board)) ws
    let res ← importFrom dram (obj.buffer core.rp) rn.toNat
    return ({ start.world with dram }, start, res)
  | _ => none

/-- `PynqPaillier::encrypt`. -/
def encrypt (o : ℕ) (m : ℤ) : Option (World board × Start board × ℤ) := w.crypt .encrypt o m

/-- `PynqPaillier::decrypt`. -/
def decrypt (o : ℕ) (c : ℤ) : Option (World board × Start board × ℤ) := w.crypt .decrypt o c

end World

inductive Call where
  | construct (o keySize : ℕ) (answer : Buffer → Option Region)
  | destroy (o : ℕ)
  | keyGen (o : ℕ) (key : Key)
  | encrypt (o : ℕ) (m : ℤ)
  | decrypt (o : ℕ) (c : ℤ)

/-- One call: the next world and the start of a core with an operand, if there is one. -/
def step {board : Board} (w : World board) : Call → Option (World board × Option (Start board))
  | .construct o keySize answer => (w.construct o keySize answer).map fun w => (w, none)
  | .destroy o => (w.destroy o).map fun w => (w, none)
  | .keyGen o key => (w.keyGen o key).map fun w => (w, none)
  | .encrypt o m => (w.encrypt o m).map fun (w, start, _) => (w, some start)
  | .decrypt o c => (w.decrypt o c).map fun (w, start, _) => (w, some start)

/-! ## A small board -/

/-- Pages of 4 KiB, one-word slots and operands, and cores that return nothing. -/
def smallBoard (pages : Fin 17) : Board where
  pageSize := 4096
  pool := Finset.Ico 16 (16 + pages)
  eight_dvd := by decide
  pageSize_dvd := by decide
  pool_lt page hpage := by
    have := (Finset.mem_Ico.mp hpage).2
    have := pages.isLt
    omega
  core_notMem hcore := by
    have := (Finset.mem_Ico.mp hcore).2
    have := pages.isLt
    omega
  config := smallConfig
  loadBitstream := id
  words _ := 1
  result _ _ _ := ([], 0)

/-- Nothing allocated, everything zero. -/
def smallWorld (pages : Fin 17) : World (smallBoard pages) where
  cma := .empty
  dram _ := 0
  regs _ := 0
  loaded _ := 0
  objects _ := .unborn

/-- One page for each operand buffer and two for the parameters. -/
def answers (memory1 memory2 memoryParam : ℕ) : Buffer → Option Region
  | .memory1 => some ⟨memory1, 1⟩
  | .memory2 => some ⟨memory2, 1⟩
  | .memoryParam => some ⟨memoryParam, 2⟩

end HardApi
