import HardApi.Pynq.Calls

/-!
# Several objects on one board

The cores have one set of address registers, written by constructors only, and one set of
parameters, loaded by every `key_gen` from wherever the data register points. So a core that an
object starts works on the buffers of the object constructed last (`wired_of_lastConstructed`), and
with what that object's `memory_param` held when the last `key_gen` ran, whosever that was: the
parameters of its own key, unless somebody has written there since (`keyed_of_lastKeyed`).
-/

namespace HardApi

open Runs

variable {board : Board}

/-- No object was constructed after `o`. -/
def LastConstructed (o : ℕ) (ts : List (Transition (World board) Call (Option (Start board)))) :
    Prop :=
  ∃ before t after, ts = before ++ t :: after ∧
    (∃ keySize answer, t.input = .construct o keySize answer) ∧ ∀ u ∈ after, ¬ u.input.IsConstruct

/-- The call constructs nothing and writes nothing into the `memory_param` of `o`. -/
def Spares (o : ℕ) (t : Transition (World board) Call (Option (Start board))) : Prop :=
  ¬ t.input.IsConstruct ∧ ∀ i ∈ t.pre.writes t.input, i ∉ t.pre.paramWords o

/-- `o` generated a key when no object had been constructed after it, and from then up to the last
`key_gen` of any object every call has spared `o`. -/
def LastKeyed (o : ℕ) (ts : List (Transition (World board) Call (Option (Start board)))) : Prop :=
  ∃ before t between after, ts = before ++ t :: (between ++ after) ∧
    (∃ key, t.input = .keyGen o key) ∧ LastConstructed o before ∧
    (∀ u ∈ between, Spares o u) ∧ ∀ u ∈ after, ¬ u.input.IsKeyGen

/-- The words are those that `load_param` leaves for the key. -/
def Loads (config : Config) (key : Key) (loaded : ℕ → Word) : Prop :=
  ∃ up dst count, Paillier.keyGenParam config key.obj up = .ok (dst, count) ∧
    ∀ i < 1024, loaded i = dst i

variable {w w' w'' : World board} {o : ℕ} {call : Call} {start : Start board}
  {ts : List (Transition (World board) Call (Option (Start board)))}

/-! ## Registers -/

/-- The registers hold the buffers of the object constructed last. -/
theorem wired_of_lastConstructed (hrun : Run step w ts w') (hlast : LastConstructed o ts) :
    w'.Wired o := by
  obtain ⟨before, ⟨u, _, out, u'⟩, after, rfl, ⟨keySize, answer, rfl⟩, hafter⟩ := hlast
  obtain ⟨_, -, rfl, ht, hrest⟩ := run_append.mp hrun
  have hspec := step_spec ht
  exact hrest.preserves (World.Wired · o) (fun t' ht' hwired => step_wired ht' hwired)
    (construct_wired hspec.1) hafter

/-! ## Parameters -/

/-- The loaded words determine the parameters of the key. -/
theorem Loads.slot {config : Config} (hsep : config.Separate) {key : Key} {loaded : ℕ → Word}
    (h : Loads config key loaded) (s : Slot) :
    (Words.value (fun i => loaded (config.addr s + i)) (config.size s) : ℤ) = key.param s := by
  obtain ⟨up, dst, count, hrun, hloaded⟩ := h
  rw [← keyGenParam_slot hsep hrun s]
  congr 1
  apply Words.value_congr
  intro i hi
  exact hloaded _ (hsep.inside (.slot s) _ ⟨by omega, by omega⟩)

/-- `key_gen` leaves the parameters in its own buffer. -/
theorem keyGen_stores {key : Key} (h : w.keyGen o key = some w') :
    ∃ obj, w'.objects o = .live obj ∧ obj.key = some key ∧
      Loads board.config key fun i => w'.dram (obj.memoryParam.physicalAddress / 8 + i) := by
  obtain ⟨obj, page, up, count, -, hpage, hrun, hdram, -, hobjects, -⟩ := keyGen_spec h
  refine ⟨{ obj with key := some key }, by rw [hobjects, Function.update_self], rfl, _, up, count,
    hrun, fun i _ => ?_⟩
  rw [hdram, ← SharedMemory.index_eq hpage]
  simp

theorem Loads.congr {config : Config} {key : Key} {loaded loaded' : ℕ → Word}
    (h : Loads config key loaded) (heq : ∀ i < 1024, loaded' i = loaded i) :
    Loads config key loaded' := by
  obtain ⟨up, dst, count, hrun, hloaded⟩ := h
  exact ⟨up, dst, count, hrun, fun i hi => (heq i hi).trans (hloaded i hi)⟩

/-- `key_gen` loads what lies behind the data register, wherever its own buffer is. -/
theorem keyGen_loads_target {key : Key} {page : ℕ} {obj : PynqPaillier board}
    (hsep : board.config.Separate) (h : w.keyGen o key = some w') (hobj : w.objects o = .live obj)
    (hpage : obj.memoryParam.pointer = some page)
    (hfar : page * board.pageSize / 8 + 1024 ≤ w.target (dataRegister board)) {i : ℕ}
    (hi : i < 1024) : w'.loaded i = w.dram (w.target (dataRegister board) + i) := by
  rw [keyGen_loaded h hi, keyGen_target h]
  apply keyGen_dram h
  rintro ⟨obj', j, hobj', hfilled, heq⟩
  obtain rfl : obj = obj' := by simpa [hobj] using hobj'
  have hj := hsep.filled_iff.mp hfilled
  rw [← SharedMemory.index_eq hpage] at heq
  omega

/-- The words of a key are not all zero. -/
theorem Loads.exists_ne_zero {config : Config} (hsep : config.Separate) {key : Key}
    {loaded : ℕ → Word} (h : Loads config key loaded) : ∃ i < 1024, loaded i ≠ 0 := by
  by_contra hzero
  push Not at hzero
  have hn := h.slot hsep .n
  have hvalue : Words.value (fun i => loaded (config.addr .n + i)) (config.size .n) = 0 := by
    refine (Words.value_congr fun i hi => ?_).trans (Words.value_const_zero _)
    exact hzero _ (hsep.inside (.slot .n) _ ⟨by omega, by omega⟩)
  have hpos := key.n_pos
  rw [key.obj_n] at hpos
  rw [hvalue, Key.param] at hn
  exact hpos.ne hn

/-- If `o` is live, it has this key, and the loaded parameters belong to the key. -/
structure World.Keyed (w : World board) (o : ℕ) (key : Key) : Prop where
  born : w.objects o ≠ .unborn
  current : ∀ obj, w.objects o = .live obj → obj.key = some key
  loads : ∀ obj, w.objects o = .live obj → Loads board.config key w.loaded

theorem step_keyed {t : Transition (World board) Call (Option (Start board))} {key : Key}
    (ht : t.Of step) (hkeyed : t.pre.Keyed o key) (hcall : ¬ t.input.IsKeyGen) :
    t.post.Keyed o key := by
  obtain ⟨hborn, hnew⟩ := step_born ht hkeyed.born
  have hlive : ∀ obj', t.post.objects o = .live obj' →
      ∃ obj, t.pre.objects o = .live obj ∧ obj'.key = obj.key := by
    intro obj' hobj'
    rcases step_live ht hobj' with ⟨keySize, answer, hconstruct⟩ | ⟨obj, hobj, -, hkey⟩
    · exact absurd hconstruct (hnew keySize answer)
    · refine ⟨obj, hobj, hkey.resolve_right ?_⟩
      rintro ⟨key', hkeyGen⟩
      rw [hkeyGen] at hcall
      exact hcall trivial
  refine ⟨hborn, fun obj' hobj' => ?_, fun obj' hobj' => ?_⟩
  · obtain ⟨obj, hobj, hkey⟩ := hlive obj' hobj'
    rw [hkey]
    exact hkeyed.current obj hobj
  · obtain ⟨obj, hobj, -⟩ := hlive obj' hobj'
    rw [step_loaded ht hcall]
    exact hkeyed.loads obj hobj

/-- The registers and the loaded parameters are those of `o`, and its `memory_param` holds the
parameters, too. -/
structure World.Kept (w : World board) (o : ℕ) (key : Key) : Prop where
  wired : w.Wired o
  keyed : w.Keyed o key
  stored : ∀ obj, w.objects o = .live obj →
    Loads board.config key fun i => w.dram (obj.memoryParam.physicalAddress / 8 + i)

/-- After its own `key_gen`. -/
theorem keyGen_kept {key : Key} (h : w.keyGen o key = some w') (hwired : w.Wired o) :
    w'.Kept o key := by
  have hstep : step w (.keyGen o key) = some (w', none) := by simp [step, h]
  have hwired' := step_wired hstep hwired id
  obtain ⟨obj, hobj, hkey, hstored⟩ := keyGen_stores h
  have hlive : ∀ obj', w'.objects o = .live obj' → obj' = obj := by
    intro obj' hobj'
    simpa [hobj] using hobj'.symm
  refine ⟨hwired', ⟨by simp [hobj], fun obj' hobj' => ?_, fun _ _ => ?_⟩, fun obj' hobj' => ?_⟩
  · rw [hlive obj' hobj', hkey]
  · refine hstored.congr fun i hi => ?_
    rw [keyGen_loaded h hi, ← (hwired' obj hobj).data]
    rfl
  · rw [hlive obj' hobj']
    exact hstored

/-- A call that spares `o` keeps all of this: if it is another object's `key_gen`, that loads the
words of `o` again. -/
theorem step_kept {t : Transition (World board) Call (Option (Start board))} {key : Key}
    (ht : t.Of step) (hkept : t.pre.Kept o key) (hspares : Spares o t) : t.post.Kept o key := by
  obtain ⟨hconstruct, hout⟩ := hspares
  obtain ⟨hborn, -⟩ := step_born ht hkept.keyed.born
  have hwired := step_wired ht hkept.wired hconstruct
  have hlive : ∀ obj', t.post.objects o = .live obj' →
      ∃ obj, t.pre.objects o = .live obj ∧ obj'.buffer = obj.buffer ∧ obj'.key = obj.key := by
    intro obj' hobj'
    rcases step_live ht hobj' with ⟨keySize, answer, hcall⟩ | ⟨obj, hobj, hbuffer, hkey⟩
    · rw [hcall] at hconstruct
      exact absurd trivial hconstruct
    · refine ⟨obj, hobj, hbuffer, hkey.resolve_right ?_⟩
      rintro ⟨key', hkeyGen⟩
      rw [hkeyGen] at hout
      exact hout _ ⟨obj, 0, hobj, Or.inl (by norm_num), rfl⟩ ⟨obj, 0, hobj, by norm_num, rfl⟩
  have hstored : ∀ obj', t.post.objects o = .live obj' →
      Loads board.config key fun i =>
        t.post.dram (obj'.memoryParam.physicalAddress / 8 + i) := by
    intro obj' hobj'
    obtain ⟨obj, hobj, hbuffer, -⟩ := hlive obj' hobj'
    rw [show obj'.memoryParam = obj.memoryParam from congrFun hbuffer .memoryParam]
    refine (hkept.stored obj hobj).congr fun i hi => step_dram ht fun hwrites => ?_
    exact hout _ hwrites ⟨obj, i, hobj, hi, rfl⟩
  refine ⟨hwired, ⟨hborn, fun obj' hobj' => ?_, fun obj' hobj' => ?_⟩, hstored⟩
  · obtain ⟨obj, hobj, -, hkey⟩ := hlive obj' hobj'
    rw [hkey]
    exact hkept.keyed.current obj hobj
  · by_cases hcall : t.input.IsKeyGen
    · refine (hstored obj' hobj').congr fun i hi => ?_
      rw [step_loaded_keyGen ht hcall hi, ← (hwired obj' hobj').data]
      rfl
    · exact (step_keyed ht hkept.keyed hcall).loads obj' hobj'

theorem keyed_of_lastKeyed (hrun : Run step w ts w') (hlast : LastKeyed o ts) :
    ∃ key, w'.Keyed o key := by
  obtain ⟨before, ⟨u, _, out, u'⟩, between, after, rfl, ⟨key, rfl⟩, hconstructed, hbetween,
    hafter⟩ := hlast
  obtain ⟨_, hbefore, rfl, ht, hrest⟩ := run_append.mp hrun
  obtain ⟨v, hrunBetween, hrunAfter⟩ := run_append.mp hrest
  have hkept := keyGen_kept (step_spec ht).1 (wired_of_lastConstructed hbefore hconstructed)
  have hkept' := hrunBetween.preserves (World.Kept · o key)
    (fun t' ht' h => step_kept ht' h) hkept hbetween
  exact ⟨key, hrunAfter.preserves (World.Keyed · o key) (fun t' ht' h => step_keyed ht' h)
    hkept'.keyed hafter⟩

/-- The key of the primes `5` and `7`. -/
def otherKey : Key := PrimePair.key ⟨5, 7, Nat.prime_five, Nat.prime_seven, by decide⟩ 6

theorem keyGen_otherKey :
    Paillier.keyGen 6 [⟨4, by decide⟩, ⟨5, by decide⟩] = some (.ok otherKey.obj) := by
  have ha : mpzNextprime 4 = 5 := mpzNextprime_succ (by norm_num)
  have hb : mpzNextprime 5 = 7 := by
    apply mpzNextprime_eq (by norm_num) (by norm_num)
    intro k h1 h2
    obtain rfl : k = 6 := by omega
    norm_num
  have hacc : Paillier.Accepts 6 ⟨4, by decide⟩ ⟨5, by decide⟩ := by
    refine ⟨?_, ?_⟩
    · rw [ha, hb]
      norm_num
    · rw [ha, hb]
      decide
  rw [Paillier.keyGen, Paillier.drawPrimes_of_accepts hacc, Option.map_some, ha, hb]
  exact congrArg some (otherKey.toPrimePair.keyGenRest_key 6)

theorem Loads.param_n {config : Config} (hsep : config.Separate) {key key' : Key}
    {loaded : ℕ → Word} (h : Loads config key loaded) (h' : Loads config key' loaded) :
    key.p * key.q = key'.p * key'.q := by
  have hn := (h.slot hsep .n).symm.trans (h'.slot hsep .n)
  simp only [Key.param] at hn
  exact_mod_cast hn

/-! ## The start of a core -/

theorem step_start (h : step w' call = some (w'', some start)) :
    ∃ obj, w'.objects start.object = .live obj ∧ start.world.regs = w'.regs ∧
      start.world.loaded = w'.loaded := by
  have hspec := step_spec h
  cases call with
  | construct | destroy | keyGen => simp at hspec
  | encrypt | decrypt =>
    obtain ⟨start', res, hcrypt, hstart⟩ := hspec
    obtain ⟨obj, hobj, rfl⟩ := started_eq_some_iff.mp (crypt_spec hcrypt).1
    cases hstart
    exact ⟨obj, hobj, rfl, rfl⟩

/-- **Independence.** Whenever an object starts a core, the address registers of the core are its
own if no object was constructed after it, and the loaded parameters belong to its current key if
it generated the key while it was the object constructed last, and up to the last `key_gen` of any
object nothing was constructed and its `memory_param` was spared. -/
theorem crypt_own (hrun : Run step w ts w') (hstep : step w' call = some (w'', some start)) :
    ∃ obj, w'.objects start.object = .live obj ∧
      (LastConstructed start.object ts →
        (start.world.regs (start.core.upRegister board)).toNat =
            (obj.buffer start.core.up).physicalAddress ∧
          (start.world.regs (start.core.rpRegister board)).toNat =
            (obj.buffer start.core.rp).physicalAddress) ∧
      (LastKeyed start.object ts →
        ∃ key, obj.key = some key ∧ Loads board.config key start.world.loaded) := by
  obtain ⟨obj, hobj, hregs, hloaded⟩ := step_start hstep
  refine ⟨obj, hobj, fun hlast => ?_, fun hlast => ?_⟩
  · have hwired := wired_of_lastConstructed hrun hlast obj hobj
    rw [hregs]
    exact ⟨hwired.up start.core, hwired.rp start.core⟩
  · obtain ⟨key, hkeyed⟩ := keyed_of_lastKeyed hrun hlast
    rw [hloaded]
    exact ⟨key, hkeyed.current obj hobj, hkeyed.loads obj hobj⟩

/-- Two objects with buffers of their own: between the key of the one that encrypts and its
encryption the other one generates a key, too. -/
theorem crypt_own_smallBoard :
    ∃ ts w w' start, Run step (smallWorld 16) ts w ∧
      ts.map Transition.input = [.construct 1 6 (answers 16 17 18),
        .construct 0 4 (answers 20 21 22), .keyGen 0 smallKey, .keyGen 1 otherKey] ∧
      step w (.encrypt 0 7) = some (w', some start) ∧ ∃ obj, w.objects 0 = .live obj ∧
        ((start.world.regs (Core.encrypt.upRegister (smallBoard 16))).toNat =
            obj.memory1.physicalAddress ∧
          (start.world.regs (Core.encrypt.rpRegister (smallBoard 16))).toNat =
            obj.memory2.physicalAddress) ∧
        ∃ key, obj.key = some key ∧ Loads smallConfig key start.world.loaded := by
  obtain ⟨w₁, w₂, obj₀, obj₁, h₁, h₂, hobj₀, hsize₀, hmemory2, hparam₀, hobj₁, hsize₁, hparam₁⟩ :
      ∃ w₁ w₂ : World (smallBoard 16), ∃ obj₀ obj₁,
        step (smallWorld 16) (.construct 1 6 (answers 16 17 18)) = some (w₁, none) ∧
        step w₁ (.construct 0 4 (answers 20 21 22)) = some (w₂, none) ∧
        w₂.objects 0 = .live obj₀ ∧ obj₀.keySize = 4 ∧ obj₀.memory2.pointer = some 21 ∧
        obj₀.memoryParam.pointer = some 22 ∧ w₂.objects 1 = .live obj₁ ∧ obj₁.keySize = 6 ∧
        obj₁.memoryParam.pointer = some 18 :=
    ⟨_, _, _, _, rfl, rfl, rfl, rfl, rfl, rfl, rfl, rfl, rfl⟩
  obtain ⟨w₃, h₃, -, hobjects₃, -⟩ := smallBoard_keyGen (show smallKey.p ≠ 2 by decide)
    (by decide) hobj₀ hsize₀.symm hparam₀
  have hlive₁ : w₃.objects 1 = .live obj₁ := by
    rw [hobjects₃, Function.update_of_ne (by decide), hobj₁]
  obtain ⟨w₄, h₄, -, hobjects₄, -⟩ := smallBoard_keyGen (show otherKey.p ≠ 2 by decide)
    (by decide) hlive₁ hsize₁.symm hparam₁
  have hlive₃ : w₃.objects 0 = .live { obj₀ with key := some smallKey } := by
    rw [hobjects₃, Function.update_self]
  have hlive₀ : w₄.objects 0 = .live { obj₀ with key := some smallKey } := by
    rw [hobjects₄, Function.update_of_ne (by decide), hlive₃]
  obtain ⟨w₅, world, h₅, -⟩ := encrypt_total hlive₀ hmemory2 7
  have hconstructed : LastConstructed 0
      [⟨smallWorld 16, .construct 1 6 (answers 16 17 18), none, w₁⟩,
        ⟨w₁, .construct 0 4 (answers 20 21 22), none, w₂⟩] :=
    ⟨[_], _, [], rfl, ⟨_, _, rfl⟩, by simp⟩
  have hspares : Spares 0 (⟨w₃, .keyGen 1 otherKey, none, w₄⟩ :
      Transition (World (smallBoard 16)) Call (Option (Start (smallBoard 16)))) := by
    refine ⟨id, ?_⟩
    rintro i ⟨obj, j, hobj, hfilled, rfl⟩ ⟨obj', j', hobj', hj', heq⟩
    obtain rfl : obj₁ = obj := by simpa [hlive₁] using hobj
    obtain rfl : { obj₀ with key := some smallKey } = obj' := by simpa [hlive₃] using hobj'
    have hj := smallConfig_separate.filled_iff.mp hfilled
    rw [obj₁.memoryParam.coherent 18 hparam₁, obj₀.memoryParam.coherent 22 hparam₀] at heq
    simp only [smallBoard] at heq
    omega
  have hrun : Run step (smallWorld 16)
      [⟨smallWorld 16, .construct 1 6 (answers 16 17 18), none, w₁⟩,
        ⟨w₁, .construct 0 4 (answers 20 21 22), none, w₂⟩,
        ⟨w₂, .keyGen 0 smallKey, none, w₃⟩, ⟨w₃, .keyGen 1 otherKey, none, w₄⟩] w₄ :=
    ⟨rfl, h₁, rfl, h₂, rfl, h₃, rfl, h₄, rfl⟩
  obtain ⟨obj', hobj', hregs, hloads⟩ := crypt_own hrun h₅
  refine ⟨_, w₄, w₅, _, hrun, rfl, h₅, obj', hobj', hregs ?_, hloads ?_⟩
  · exact ⟨[_], _, [_, _], rfl, ⟨_, _, rfl⟩, by simp [Call.IsConstruct]⟩
  · exact ⟨[_, _], _, [_], [], rfl, ⟨_, rfl⟩, hconstructed, by simpa using hspares, by simp⟩

/-- After these calls object `0` encrypts with parameters that are not those of its key. -/
def ForeignParams (pages : Fin 17) (calls : List Call) : Prop :=
  ∃ ts w w' start, Run step (smallWorld pages) ts w ∧ ts.map Transition.input = calls ∧
    step w (.encrypt 0 7) = some (w', some start) ∧
    ∃ obj, w.objects 0 = .live obj ∧ obj.key = some smallKey ∧
      ¬ Loads smallConfig smallKey start.world.loaded

/-- The `memory_param` of both objects is in the same pages. -/
theorem foreignParams_keyGen : ForeignParams 8 [.construct 1 6 (answers 16 17 18),
    .construct 0 4 (answers 20 21 18), .keyGen 0 smallKey, .keyGen 1 otherKey] := by
  obtain ⟨w₁, w₂, obj₀, obj₁, h₁, h₂, hobj₀, hsize₀, hmemory2, hparam₀, hobj₁, hsize₁,
      hparam₁, hreg⟩ :
      ∃ w₁ w₂ : World (smallBoard 8), ∃ obj₀ obj₁,
        step (smallWorld 8) (.construct 1 6 (answers 16 17 18)) = some (w₁, none) ∧
        step w₁ (.construct 0 4 (answers 20 21 18)) = some (w₂, none) ∧
        w₂.objects 0 = .live obj₀ ∧ obj₀.keySize = 4 ∧
        obj₀.memory2.pointer = some 21 ∧ obj₀.memoryParam.pointer = some 18 ∧
        w₂.objects 1 = .live obj₁ ∧ obj₁.keySize = 6 ∧ obj₁.memoryParam.pointer = some 18 ∧
        (w₂.regs (dataRegister (smallBoard 8))).toNat = 18 * 4096 :=
    ⟨_, _, _, _, rfl, rfl, rfl, rfl, rfl, rfl, rfl, rfl, rfl, rfl⟩
  obtain ⟨w₃, h₃, -, hobjects₃, hregs₃⟩ := smallBoard_keyGen (show smallKey.p ≠ 2 by decide)
    (by decide) hobj₀ hsize₀.symm hparam₀
  have hlive₁ : w₃.objects 1 = .live obj₁ := by
    rw [hobjects₃, Function.update_of_ne (by decide), hobj₁]
  obtain ⟨w₄, h₄, hkeyGen, hobjects₄, hregs₄⟩ := smallBoard_keyGen
    (show otherKey.p ≠ 2 by decide) (by decide) hlive₁ hsize₁.symm hparam₁
  have hlive₀ : w₄.objects 0 = .live { obj₀ with key := some smallKey } := by
    rw [hobjects₄, Function.update_of_ne (by decide), hobjects₃, Function.update_self]
  obtain ⟨w₅, world, h₅, -, hloaded⟩ := encrypt_total hlive₀ hmemory2 7
  have hrun : Run step (smallWorld 8)
      [⟨smallWorld 8, .construct 1 6 (answers 16 17 18), none, w₁⟩,
        ⟨w₁, .construct 0 4 (answers 20 21 18), none, w₂⟩,
        ⟨w₂, .keyGen 0 smallKey, none, w₃⟩, ⟨w₃, .keyGen 1 otherKey, none, w₄⟩] w₄ :=
    ⟨rfl, h₁, rfl, h₂, rfl, h₃, rfl, h₄, rfl⟩
  refine ⟨_, w₄, w₅, _, hrun, rfl, h₅, _, hlive₀, rfl, ?_⟩
  have hother : Loads (smallBoard 8).config otherKey w₄.loaded := by
    obtain ⟨obj, hobj, -, hstored⟩ := keyGen_stores hkeyGen
    obtain rfl : { obj₁ with key := some otherKey } = obj := by
      simpa [hobjects₄] using hobj
    refine hstored.congr fun i hi => ?_
    rw [keyGen_loaded hkeyGen hi, World.target, hregs₄, hregs₃, hreg,
      obj₁.memoryParam.coherent 18 hparam₁]
    rfl
  rw [hloaded]
  intro hown
  exact absurd (hown.param_n smallConfig_separate hother) (by decide)

/-- The `memory_1` of one object is in the pages of the other's `memory_param`. -/
theorem foreignParams_encrypt : ForeignParams 8 [.construct 1 4 (answers 16 17 18),
    .construct 0 4 (answers 20 21 16), .keyGen 1 smallKey, .keyGen 0 smallKey, .encrypt 1 7,
    .keyGen 1 smallKey] := by
  obtain ⟨w₁, w₂, obj₀, obj₁, h₁, h₂, hobj₀, hsize₀, hmemory2, hparam₀, hobj₁, hsize₁,
      hmemory1₁, hmemory2₁, hparam₁, hreg⟩ :
      ∃ w₁ w₂ : World (smallBoard 8), ∃ obj₀ obj₁,
        step (smallWorld 8) (.construct 1 4 (answers 16 17 18)) = some (w₁, none) ∧
        step w₁ (.construct 0 4 (answers 20 21 16)) = some (w₂, none) ∧
        w₂.objects 0 = .live obj₀ ∧ obj₀.keySize = 4 ∧ obj₀.memory2.pointer = some 21 ∧
        obj₀.memoryParam.pointer = some 16 ∧ w₂.objects 1 = .live obj₁ ∧ obj₁.keySize = 4 ∧
        obj₁.memory1.pointer = some 16 ∧ obj₁.memory2.pointer = some 17 ∧
        obj₁.memoryParam.pointer = some 18 ∧
        (w₂.regs (dataRegister (smallBoard 8))).toNat = 16 * 4096 :=
    ⟨_, _, _, _, rfl, rfl, rfl, rfl, rfl, rfl, rfl, rfl, rfl, rfl, rfl, rfl⟩
  obtain ⟨w₃, h₃, -, hobjects₃, hregs₃⟩ := smallBoard_keyGen (show smallKey.p ≠ 2 by decide)
    (by decide) hobj₁ hsize₁.symm hparam₁
  have hlive₃ : w₃.objects 0 = .live obj₀ := by
    rw [hobjects₃, Function.update_of_ne (by decide), hobj₀]
  obtain ⟨w₄, h₄, -, hobjects₄, hregs₄⟩ := smallBoard_keyGen (show smallKey.p ≠ 2 by decide)
    (by decide) hlive₃ hsize₀.symm hparam₀
  have hlive₁ : w₄.objects 1 = .live { obj₁ with key := some smallKey } := by
    rw [hobjects₄, Function.update_of_ne (by decide), hobjects₃, Function.update_self]
  obtain ⟨w₅, world₅, h₅, -⟩ := encrypt_total hlive₁ hmemory2₁ 7
  obtain ⟨start₅, res₅, hcrypt₅, -⟩ := step_spec h₅
  obtain ⟨hstarted, hobjects₅, hregs₅, -, -, hdram₅⟩ := crypt_spec hcrypt₅
  -- The seven is written over the first word of the parameters.
  have hseven : w₅.dram (16 * 4096 / 8) = 7 := by
    obtain ⟨obj, hobj, rfl⟩ := started_eq_some_iff.mp hstarted
    obtain rfl : { obj₁ with key := some smallKey } = obj := by simpa [hlive₁] using hobj
    have hexport : w₅.dram = Words.storeAt w₄.dram (obj₁.memory1.physicalAddress / 8) 7 := by
      rw [hdram₅]
      exact (World.writeWords_nil _ _).trans (exportTo_of_some hmemory1₁ _ _)
    rw [hexport, obj₁.memory1.coherent 16 hmemory1₁]
    show Words.storeAt w₄.dram (16 * 4096 / 8) 7 (16 * 4096 / 8 + 0) = 7
    exact Words.storeAt_inside w₄.dram (by simp [Words.size])
  have hlive₅ : w₅.objects 1 = .live { obj₁ with key := some smallKey } := by
    rw [hobjects₅, hlive₁]
  obtain ⟨w₆, h₆, hkeyGen, hobjects₆, hregs₆⟩ := smallBoard_keyGen
    (show smallKey.p ≠ 2 by decide) (by decide) hlive₅ hsize₁.symm hparam₁
  have hlive₀ : w₆.objects 0 = .live { obj₀ with key := some smallKey } := by
    rw [hobjects₆, Function.update_of_ne (by decide), hobjects₅, hobjects₄,
      Function.update_self]
  obtain ⟨w₇, world₇, h₇, -, hloaded⟩ := encrypt_total hlive₀ hmemory2 7
  have hrun : Run step (smallWorld 8)
      [⟨smallWorld 8, .construct 1 4 (answers 16 17 18), none, w₁⟩,
        ⟨w₁, .construct 0 4 (answers 20 21 16), none, w₂⟩,
        ⟨w₂, .keyGen 1 smallKey, none, w₃⟩, ⟨w₃, .keyGen 0 smallKey, none, w₄⟩,
        ⟨w₄, .encrypt 1 7, some ⟨.encrypt, 1, 7, world₅⟩, w₅⟩,
        ⟨w₅, .keyGen 1 smallKey, none, w₆⟩] w₆ :=
    ⟨rfl, h₁, rfl, h₂, rfl, h₃, rfl, h₄, rfl, h₅, rfl, h₆, rfl⟩
  refine ⟨_, w₆, w₇, _, hrun, rfl, h₇, _, hlive₀, rfl, ?_⟩
  have hfirst : w₆.loaded 0 = 7 := by
    rw [keyGen_loaded hkeyGen (by norm_num), World.target, hregs₆, hregs₅, hregs₄, hregs₃, hreg]
    rw [← hseven]
    apply keyGen_dram hkeyGen
    rintro ⟨obj, j, hobj, -, heq⟩
    obtain rfl : { obj₁ with key := some smallKey } = obj := by simpa [hlive₅] using hobj
    rw [obj₁.memoryParam.coherent 18 hparam₁] at heq
    simp only [smallBoard] at heq
    omega
  rw [hloaded]
  intro hown
  have hn := hown.slot smallConfig_separate .n
  have hvalue : Words.value (fun i => w₆.loaded (smallConfig.addr .n + i))
      (smallConfig.size .n) = 7 := by
    simp [smallConfig, Words.value, hfirst]
  rw [hvalue, Key.param] at hn
  exact absurd hn (by decide)

/-- Two objects. Constructed after the object that encrypts, the other one owns the registers, and
what `key_gen` loads are the zeros of the other one's buffer. Constructed before it, with
`memory_param` in the same pages after a reset of the link, the other one's `key_gen` loads the
other one's parameters; with `memory_1` in those pages, its `encrypt` writes over the parameters,
and its `key_gen` loads what is left of them. -/
theorem crypt_foreign :
    (∃ ts w w' start, Run step (smallWorld 16) ts w ∧
      ts.map Transition.input = [.construct 0 4 (answers 16 17 18),
        .construct 1 4 (answers 20 21 22), .keyGen 0 smallKey] ∧
      step w (.encrypt 0 7) = some (w', some start) ∧
      ∃ obj, w.objects 0 = .live obj ∧ obj.key = some smallKey ∧
        (start.world.regs (Core.encrypt.upRegister (smallBoard 16))).toNat ≠
          obj.memory1.physicalAddress ∧
        ¬ Loads smallConfig smallKey start.world.loaded) ∧
    ForeignParams 8 [.construct 1 6 (answers 16 17 18), .construct 0 4 (answers 20 21 18),
      .keyGen 0 smallKey, .keyGen 1 otherKey] ∧
    ForeignParams 8 [.construct 1 4 (answers 16 17 18), .construct 0 4 (answers 20 21 16),
      .keyGen 1 smallKey, .keyGen 0 smallKey, .encrypt 1 7, .keyGen 1 smallKey] ∧
    (∃ draws, Paillier.keyGen 4 draws = some (.ok smallKey.obj)) ∧
    ∃ draws, Paillier.keyGen 6 draws = some (.ok otherKey.obj) := by
  refine ⟨?_, foreignParams_keyGen, foreignParams_encrypt, ⟨_, keyGen_smallKey⟩,
    ⟨_, keyGen_otherKey⟩⟩
  obtain ⟨w₁, w₂, obj, h₁, h₂, hobj, hsize, hmemory1, hmemory2, hparam, hreg, hdata, hdram⟩ :
      ∃ w₁ w₂ : World (smallBoard 16), ∃ obj,
        step (smallWorld 16) (.construct 0 4 (answers 16 17 18)) = some (w₁, none) ∧
        step w₁ (.construct 1 4 (answers 20 21 22)) = some (w₂, none) ∧
        w₂.objects 0 = .live obj ∧ obj.keySize = 4 ∧ obj.memory1.pointer = some 16 ∧
        obj.memory2.pointer = some 17 ∧ obj.memoryParam.pointer = some 18 ∧
        (w₂.regs (Core.encrypt.upRegister (smallBoard 16))).toNat = 20 * 4096 ∧
        w₂.target (dataRegister (smallBoard 16)) = 22 * 4096 / 8 ∧ ∀ i, w₂.dram i = 0 :=
    ⟨_, _, _, rfl, rfl, rfl, rfl, rfl, rfl, rfl, rfl, rfl, fun _ => rfl⟩
  obtain ⟨w₃, h₃, hkeyGen, hobjects, hregs⟩ := smallBoard_keyGen (show smallKey.p ≠ 2 by decide)
    (by decide) hobj hsize.symm hparam
  have hlive : w₃.objects 0 = .live { obj with key := some smallKey } := by
    rw [hobjects, Function.update_self]
  obtain ⟨w₄, world, h₄, hstart, hloaded⟩ := encrypt_total hlive hmemory2 7
  have hrun : Run step (smallWorld 16)
      [⟨smallWorld 16, .construct 0 4 (answers 16 17 18), none, w₁⟩,
        ⟨w₁, .construct 1 4 (answers 20 21 22), none, w₂⟩,
        ⟨w₂, .keyGen 0 smallKey, none, w₃⟩] w₃ := ⟨rfl, h₁, rfl, h₂, rfl, h₃, rfl⟩
  refine ⟨_, w₃, w₄, _, hrun, rfl, h₄, _, hlive, rfl, ?_, ?_⟩
  · rw [hstart, hregs, hreg, obj.memory1.coherent 16 hmemory1]
    decide
  · rw [hloaded]
    intro hown
    obtain ⟨i, hi, hne⟩ := hown.exists_ne_zero smallConfig_separate
    apply hne
    rw [keyGen_loads_target smallConfig_separate hkeyGen hobj hparam (hdata ▸ by decide) hi]
    exact hdram _

end HardApi
