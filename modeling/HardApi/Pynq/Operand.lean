import HardApi.Pynq.Calls

/-!
# What a core reads

`encrypt` and `decrypt` write the significant words of their number over what the buffer held
before, and the core, which has no length register, reads a fixed number of words. The core reads
the number of the call exactly when the words that were not written are already those of the number
(`started_exact_iff`): zero above it, and all of them when the buffer is `NULL` and nothing is
written at all. `key_gen` clears its buffer before it writes; these two calls do not, and a
shorter number after a longer one is read with the top of the longer one
(`encrypt_zero_after_seven`).
-/

namespace HardApi

open Runs

variable {board : Board}

/-- The words of a buffer above the number are zero, up to `W` words. For `NULL`, where nothing is
written, the words at the physical address, which is `0` then, are those of the number. -/
def SharedMemory.Clear {plat : Platform} (memory : SharedMemory plat) (dram : ℕ → Word) (W : ℕ)
    (v : ℤ) : Prop :=
  match memory.pointer with
  | some _ => ∀ i, Words.size 64 v.natAbs ≤ i → i < W → dram (memory.physicalAddress / 8 + i) = 0
  | none => ∀ i < W, dram (memory.physicalAddress / 8 + i) = Words.word 64 v.natAbs i

/-- The operand buffer is clear for the number. -/
def World.Cleared (w : World board) (core : Core) (o : ℕ) (v : ℤ) : Prop :=
  ∀ obj, w.objects o = .live obj → (obj.buffer core.up).Clear w.dram (board.words core) v

/-- The condition on a call: `key_gen` has none. -/
def Call.Cleared (w : World board) : Call → Prop
  | .encrypt o m => w.Cleared .encrypt o m
  | .decrypt o c => w.Cleared .decrypt o c
  | _ => True

/-- The calls on `o` after its construction, with numbers that the cores have words for. -/
def Call.On (board : Board) (o : ℕ) : Call → Prop
  | .keyGen o' _ => o' = o
  | .encrypt o' m => o' = o ∧ 0 ≤ m ∧ m < 2 ^ (64 * board.words .encrypt)
  | .decrypt o' c => o' = o ∧ 0 ≤ c ∧ c < 2 ^ (64 * board.words .decrypt)
  | _ => False

/-- The core was started on the number it was asked to compute on. -/
def Start.Exact (start : Start board) : Prop :=
  (start.world.operand start.core : ℤ) = start.argument

/-- The start of a core with an operand, also in a call that does not come back. -/
def World.starts (w : World board) : Call → Option (Start board)
  | .encrypt o m => w.started .encrypt o m
  | .decrypt o c => w.started .decrypt o c
  | _ => none

variable {w w' w₁ : World board} {o keySize : ℕ} {core : Core} {v : ℤ} {call : Call}
  {start : Start board}

/-- A core reads the words of the number, and above them what the buffer held. -/
theorem operand_started {obj : PynqPaillier board} (h : w.started core o v = some start)
    (hobj : w.objects o = .live obj) (hwired : w.Wired o) :
    start.world.operand core =
      Words.value (fun i => World.exportTo w.dram (obj.buffer core.up) v
        ((obj.buffer core.up).physicalAddress / 8 + i)) (board.words core) := by
  obtain ⟨obj', hobj', rfl⟩ := started_eq_some_iff.mp h
  obtain rfl : obj = obj' := by simpa [hobj] using hobj'
  show Words.value (fun i => World.exportTo _ _ _ ((w.regs _).toNat / 8 + i)) _ = _
  rw [(hwired obj hobj).up core]

/-- Reading back an export. -/
theorem value_exportTo_iff {memory : SharedMemory board.toPlatform} {dram : ℕ → Word} {W : ℕ}
    (hfits : v.natAbs < 2 ^ (64 * W)) :
    Words.value (fun i => World.exportTo dram memory v (memory.physicalAddress / 8 + i)) W =
      v.natAbs ↔ memory.Clear dram W v := by
  unfold SharedMemory.Clear
  cases hptr : memory.pointer with
  | some page =>
    rw [exportTo_of_some hptr]
    exact Words.value_storeAt_eq_iff (by norm_num) dram hfits
  | none =>
    have hval : Words.value (Words.word 64 v.natAbs) W = v.natAbs := by
      rw [Words.value_word, Nat.mod_eq_of_lt hfits]
    rw [exportTo_of_none hptr]
    conv_lhs => rhs; rw [← hval]
    exact Words.value_eq_value_iff

theorem cleared_iff {obj : PynqPaillier board} (hobj : w.objects o = .live obj) :
    w.Cleared core o v ↔ (obj.buffer core.up).Clear w.dram (board.words core) v := by
  constructor
  · intro h
    exact h obj hobj
  · intro h obj' hobj'
    rw [hobj] at hobj'
    cases hobj'
    exact h

/-- A number that fills the words of the core leaves nothing of what the buffer held. -/
theorem cleared_of_fills {obj : PynqPaillier board} {page : ℕ} (hobj : w.objects o = .live obj)
    (hpage : (obj.buffer core.up).pointer = some page)
    (hfills : board.words core ≤ Words.size 64 v.natAbs) : w.Cleared core o v := by
  rw [cleared_iff hobj, SharedMemory.Clear, hpage]
  intro i hi hiW
  omega

/-- The operand of one call. -/
theorem started_exact_iff (h : w.started core o v = some start) (hwired : w.Wired o) (hv : 0 ≤ v)
    (hfits : v < 2 ^ (64 * board.words core)) : start.Exact ↔ w.Cleared core o v := by
  obtain ⟨obj, hobj, hstart⟩ := started_eq_some_iff.mp h
  have hnat : v.natAbs < 2 ^ (64 * board.words core) := by
    zify
    rwa [abs_of_nonneg hv]
  rw [cleared_iff hobj, ← value_exportTo_iff hnat, ← operand_started h hobj hwired, hstart]
  show ((World.operand _ core : ℕ) : ℤ) = v ↔ World.operand _ core = v.natAbs
  omega

/-! ## Whole runs -/

theorem step_starts {out : Option (Start board)} (h : step w call = some (w', out)) :
    out = w.starts call := by
  have hspec := step_spec h
  cases call with
  | construct | destroy | keyGen => exact hspec.2
  | encrypt | decrypt =>
    obtain ⟨start, res, hcrypt, rfl⟩ := hspec
    exact (crypt_spec hcrypt).1.symm

/-- What a call asks of the state before it. -/
theorem starts_exact_iff (hwired : w.Wired o) (hcall : call.On board o) :
    (∀ start, w.starts call = some start → start.Exact) ↔ call.Cleared w := by
  have hcrypt : ∀ core v, 0 ≤ v → v < 2 ^ (64 * board.words core) →
      ((∀ start, w.started core o v = some start → start.Exact) ↔ w.Cleared core o v) := by
    intro core v hv hfits
    cases hstarted : w.started core o v with
    | none =>
      refine iff_of_true (by simp) fun obj hobj => ?_
      simp [World.started, hobj] at hstarted
    | some start =>
      simp only [Option.some.injEq, forall_eq']
      exact started_exact_iff hstarted hwired hv hfits
  cases call with
  | construct | destroy => exact hcall.elim
  | keyGen => exact iff_of_true (by simp [World.starts]) trivial
  | encrypt | decrypt =>
    obtain ⟨rfl, hv, hfits⟩ := hcall
    exact hcrypt _ _ hv hfits

theorem Call.On.not_isConstruct {call : Call} (h : call.On board o) : ¬ call.IsConstruct := by
  cases call <;> simp_all [Call.On, Call.IsConstruct]

/-- **Operand integrity over whole runs.** From the constructor on, whatever the memory held, every
core of a run is started on the number of the call exactly when every call found the words that it
does not write to be those of its number. The last call need not come back from its core: it stops
if the result has to be read through `NULL`. -/
theorem operands_exact_iff {answer : Buffer → Option Region} {last : Call}
    {ts : List (Transition (World board) Call (Option (Start board)))}
    (hconstruct : step w (.construct o keySize answer) = some (w₁, none))
    (hcalls : ∀ t ∈ ts, t.input.On board o) (hrun : Run step w₁ ts w') (hlast : last.On board o) :
    ((∀ t ∈ ts, ∀ start, t.output = some start → start.Exact) ∧
        ∀ start, w'.starts last = some start → start.Exact) ↔
      (∀ t ∈ ts, t.input.Cleared t.pre) ∧ last.Cleared w' := by
  have hwired : w₁.Wired o := construct_wired (step_spec hconstruct).1
  have hwired' : w'.Wired o := hrun.preserves (World.Wired · o)
    (fun t ht hpre hcall => step_wired ht hpre hcall) hwired
    fun t ht => (hcalls t ht).not_isConstruct
  have hboth := hrun.forall_iff (World.Wired · o)
    (C := fun t => t.input.On board o ∧ t.input.Cleared t.pre)
    (Q := fun t => t.input.On board o ∧ ∀ start, t.output = some start → start.Exact)
    (fun t ht hpre => and_congr_right fun hcall => by
      rw [step_starts ht]
      exact starts_exact_iff hpre hcall)
    (fun t ht hpre hcall => step_wired ht hpre hcall.1.not_isConstruct) hwired
  refine and_congr ⟨fun hexact t ht => ?_, fun hcleared t ht => ?_⟩
    (starts_exact_iff hwired' hlast)
  · exact (hboth.mp (fun t' ht' => ⟨hcalls t' ht', hexact t' ht'⟩) t ht).2
  · exact (hboth.mpr (fun t' ht' => ⟨hcalls t' ht', hcleared t' ht'⟩) t ht).2

theorem operands_exact_smallBoard :
    ∃ ts, ∃ w₁ w₂ : World (smallBoard 16),
      step (smallWorld 16) (.construct 0 4 (answers 16 17 18)) = some (w₁, none) ∧
      Run step w₁ ts w₂ ∧ ts.map Transition.input = [.keyGen 0 smallKey, .encrypt 0 7] ∧
      (∀ t ∈ ts, ∀ start, t.output = some start → start.Exact) ∧
      ∀ start, w₂.starts (.encrypt 0 9) = some start → start.Exact := by
  obtain ⟨w₁, w₂, obj, h₁, h₂, hlive, hmemory1, hmemory2, -⟩ := smallBoard_keyed
  obtain ⟨w₃, world, h₃, -⟩ := encrypt_total hlive hmemory2 7
  obtain ⟨start, res, hcrypt, -⟩ := step_spec h₃
  have hlive₃ : w₃.objects 0 = .live obj := by
    rw [(crypt_spec hcrypt).2.1, hlive]
  have hrun : Run step w₁ [⟨w₁, .keyGen 0 smallKey, none, w₂⟩,
      ⟨w₂, .encrypt 0 7, some ⟨.encrypt, 0, 7, world⟩, w₃⟩] w₃ := ⟨rfl, h₂, rfl, h₃, rfl⟩
  have hlast : Call.On (smallBoard 16) 0 (.encrypt 0 9) := ⟨rfl, by decide, by decide⟩
  refine ⟨_, w₁, w₃, h₁, hrun, rfl, (operands_exact_iff h₁ ?_ hrun hlast).mpr ⟨?_, ?_⟩⟩
  · rw [List.forall_mem_cons, List.forall_mem_singleton]
    exact ⟨rfl, rfl, by decide, by decide⟩
  · rw [List.forall_mem_cons, List.forall_mem_singleton]
    exact ⟨trivial, cleared_of_fills hlive hmemory1 (one_le_size (by norm_num))⟩
  · exact cleared_of_fills hlive₃ hmemory1 (one_le_size (by norm_num))

/-- A zero encrypted after a seven: the core of the second call reads the seven. -/
theorem encrypt_zero_after_seven :
    ∃ ts w w' start, Run step (smallWorld 16) ts w ∧
      ts.map Transition.input = [.construct 0 4 (answers 16 17 18), .keyGen 0 smallKey,
        .encrypt 0 7] ∧
      step w (.encrypt 0 0) = some (w', some start) ∧
      start.argument = 0 ∧ start.world.operand start.core = 7 := by
  obtain ⟨w₁, w₂, obj, h₁, h₂, hlive₂, hmemory1, hmemory2, -⟩ := smallBoard_keyed
  obtain ⟨w₃, world₃, h₃, -⟩ := encrypt_total hlive₂ hmemory2 7
  obtain ⟨start₃, res₃, hcrypt₃, -⟩ := step_spec h₃
  obtain ⟨hstarted₃, hobjects₃, -, -, -, hdram₃⟩ := crypt_spec hcrypt₃
  have hlive₃ : w₃.objects 0 = .live obj := by
    rw [hobjects₃, hlive₂]
  -- The cores of the small board write nothing, so the seven stays.
  have hstored : w₃.dram = Words.storeAt w₂.dram (obj.memory1.physicalAddress / 8) 7 := by
    obtain ⟨obj₃, hobj₃, rfl⟩ := started_eq_some_iff.mp hstarted₃
    obtain rfl : obj = obj₃ := by simpa [hlive₂] using hobj₃
    rw [hdram₃]
    exact (World.writeWords_nil _ _).trans (exportTo_of_some hmemory1 _ _)
  obtain ⟨w₄, world₄, h₄, -⟩ := encrypt_total hlive₃ hmemory2 0
  obtain ⟨start₄, res₄, hcrypt₄, hstart₄⟩ := step_spec h₄
  have hwired : w₃.Wired 0 :=
    step_wired h₃ (step_wired h₂ (construct_wired (step_spec h₁).1) id) id
  have hread := operand_started (crypt_spec hcrypt₄).1 hlive₃ hwired
  cases hstart₄
  refine ⟨[⟨_, _, _, w₁⟩, ⟨_, _, _, w₂⟩, ⟨_, _, _, w₃⟩], w₃, w₄, _,
    ⟨rfl, h₁, rfl, h₂, rfl, h₃, rfl⟩, rfl, h₄, rfl, ?_⟩
  rw [hread, show obj.buffer Core.encrypt.up = obj.memory1 from rfl, exportTo_of_some hmemory1,
    hstored]
  have hseven := Words.value_storeAt_size (w := 64) (by norm_num) w₂.dram
    (obj.memory1.physicalAddress / 8) 7
  rw [show Words.size 64 7 = 1 by simp [Words.size]] at hseven
  rw [Int.natAbs_zero, Words.storeAt_zero]
  exact hseven

end HardApi
