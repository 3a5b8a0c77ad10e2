import HardApi.Lib.Windows
import HardApi.Paillier.KeyGen

/-!
# The parameter memory

`PynqPaillier::key_gen` clears the 1024 words of `memory_param` and `load_param` fills them:
seventeen exported numbers and five words of `generate_t`, one write after the other. The addresses
and sizes come from `hls/include/config.h`, which is not in the repository; they are a `Config`, and
`Config.Separate` is what the code relies on: the slots and the five words do not overlap and lie
inside the memory.

A run that passes its assertions leaves every slot with its own parameter (`keyGenParam_spec`),
because each write stays in its window (`storeTarget_frame`) and the windows are disjoint.
-/

namespace HardApi

/-- The exported slots, `p::addr::…` and `p::size::…` of `config.h`. -/
inductive Slot where
  | n | nsquare | nsR2m | nsR1m | q | p | qsquare | psquare | qR2m | pR2m
  | qsR3m | psR3m | qsR1m | psR1m | pInverseMont | hqMont | hpMont
  deriving DecidableEq, Repr

/-- The words of `generate_t`: `T`, `T_QS`, `T_PS`, `T_Q`, `T_P`. -/
inductive TWord where
  | t | tQs | tPs | tQ | tP
  deriving DecidableEq, Repr

/-- One write of `load_param`. -/
inductive Target where
  | slot (name : Slot)
  | tWord (name : TWord)
  deriving DecidableEq, Repr

/-- `hls/include/config.h`. -/
structure Config where
  addr : Slot → ℕ
  size : Slot → ℕ
  tAddr : TWord → ℕ
  radix : ℕ

namespace Config

variable (cfg : Config)

/-- The words of a target. -/
def window : Target → ℕ → Prop
  | .slot name, i => cfg.addr name ≤ i ∧ i < cfg.addr name + cfg.size name
  | .tWord name, i => i = cfg.tAddr name

/-- The words that `key_gen` clears or `load_param` fills. -/
def Filled (i : ℕ) : Prop := i < 1024 ∨ ∃ a, cfg.window a i

/-- The windows are pairwise disjoint and lie in the 1024 words of the memory. -/
structure Separate : Prop where
  disjoint : ∀ a b, a ≠ b → ∀ i, cfg.window a i → ¬ cfg.window b i
  inside : ∀ a i, cfg.window a i → i < 1024

end Config

/-! ## The code -/

/-- `generate_t`. The shifts `1 << rdx` are of type `int`, and the loop bound `rdx - 1` is of type
`uint64_t`. -/
def generateT (rdx : ℕ) (square : ℤ) : Except Fault Word :=
  if rdx = 0 ∨ 31 ≤ rdx then .error .undefined
  else
    let mr : Word := BitVec.ofNat 64 (2 ^ rdx - 1)
    let nn : Word := BitVec.ofInt 64 (square % 2 ^ rdx)
    let t := (fun t : Word => (t * t * nn) &&& mr)^[rdx - 1] 1
    .ok (mr + 1 - t)

/-- The macro `MTGY`. -/
def mtgy (src mod : ℤ) : Except Fault ℤ :=
  mpzTdivR (2 ^ mpzSizeinbase2 mod * src) mod

namespace Paillier

variable (cfg : Config) (key : Paillier)

/-- The number exported to a slot. -/
def paramValue : Slot → Except Fault ℤ
  | .n => .ok key.n
  | .nsquare => .ok key.nsquare
  | .nsR2m => mpzPowm 2 (2 * 2 * mpzSizeinbase2 key.n : ℕ) key.nsquare
  | .nsR1m => mpzPowm 2 (2 * mpzSizeinbase2 key.n : ℕ) key.nsquare
  | .q => .ok key.q
  | .p => .ok key.p
  | .qsquare => .ok key.qsquare
  | .psquare => .ok key.psquare
  | .qR2m => mpzPowm 2 (2 * mpzSizeinbase2 key.q : ℕ) key.q
  | .pR2m => mpzPowm 2 (2 * mpzSizeinbase2 key.p : ℕ) key.p
  | .qsR3m => mpzPowm 2 (2 * 3 * mpzSizeinbase2 key.q : ℕ) key.qsquare
  | .psR3m => mpzPowm 2 (2 * 3 * mpzSizeinbase2 key.p : ℕ) key.psquare
  | .qsR1m => mpzPowm 2 (2 * mpzSizeinbase2 key.q : ℕ) key.qsquare
  | .psR1m => mpzPowm 2 (2 * mpzSizeinbase2 key.p : ℕ) key.psquare
  | .pInverseMont => mtgy key.pInverse key.q
  | .hqMont => mtgy key.hq key.q
  | .hpMont => mtgy key.hp key.p

/-- The modulus of a `generate_t` word. -/
def tModulus : TWord → ℤ
  | .t => key.nsquare
  | .tQs => key.qsquare
  | .tPs => key.psquare
  | .tQ => key.q
  | .tP => key.p

/-- The macro `PARAM_EXPORT`. -/
def paramExport (dst : ℕ → Word) (v : ℤ) (name : Slot) : Except Fault (ℕ → Word) :=
  let (dst, sizeTemp) := mpzExport dst (cfg.addr name) v
  if sizeTemp = cfg.size name then .ok dst else .error .assertion

def storeTarget (dst : ℕ → Word) : Target → Except Fault (ℕ → Word)
  | .slot name => do
    let v ← key.paramValue name
    paramExport cfg dst v name
  | .tWord name => do
    let v ← generateT cfg.radix (key.tModulus name)
    return Function.update dst (cfg.tAddr name) v

/-- The writes of `load_param` in their order. -/
def loadOrder : List Target :=
  [.slot .n, .slot .nsquare, .slot .nsR2m, .slot .nsR1m, .slot .q, .slot .p, .slot .qsquare,
    .slot .psquare, .slot .qR2m, .slot .pR2m, .slot .qsR3m, .slot .psR3m, .slot .qsR1m,
    .slot .psR1m, .slot .pInverseMont, .slot .hqMont, .slot .hpMont,
    .tWord .t, .tWord .tQs, .tWord .tPs, .tWord .tQ, .tWord .tP]

/-- `load_param`: the memory, and how many words were loaded. -/
def loadParam (dst : ℕ → Word) : Except Fault ((ℕ → Word) × ℕ) := do
  let dst ← loadOrder.foldlM (storeTarget cfg key) dst
  return (dst, cfg.tAddr .tP + 1)

/-- The clearing loop of `PynqPaillier::key_gen`. -/
def clearParam (up : ℕ → Word) : ℕ → Word :=
  (List.range 1024).foldl (fun up i => Function.update up i 0) up

/-- What `PynqPaillier::key_gen` does to `memory_param`. -/
def keyGenParam (up : ℕ → Word) : Except Fault ((ℕ → Word) × ℕ) :=
  loadParam cfg key (clearParam up)

end Paillier

/-! ## The parameters of a key -/

namespace Key

variable (key : Key)

/-- The parameters as numbers; `Nat.size` is the bit length. -/
def param : Slot → ℤ
  | .n => key.p * key.q
  | .nsquare => ((key.p : ℤ) * key.q) ^ 2
  | .nsR2m => 2 ^ (4 * (key.p * key.q).size) % ((key.p : ℤ) * key.q) ^ 2
  | .nsR1m => 2 ^ (2 * (key.p * key.q).size) % ((key.p : ℤ) * key.q) ^ 2
  | .q => key.q
  | .p => key.p
  | .qsquare => (key.q : ℤ) ^ 2
  | .psquare => (key.p : ℤ) ^ 2
  | .qR2m => 2 ^ (2 * key.q.size) % (key.q : ℤ)
  | .pR2m => 2 ^ (2 * key.p.size) % (key.p : ℤ)
  | .qsR3m => 2 ^ (6 * key.q.size) % (key.q : ℤ) ^ 2
  | .psR3m => 2 ^ (6 * key.p.size) % (key.p : ℤ) ^ 2
  | .qsR1m => 2 ^ (2 * key.q.size) % (key.q : ℤ) ^ 2
  | .psR1m => 2 ^ (2 * key.p.size) % (key.p : ℤ) ^ 2
  | .pInverseMont => key.obj.pInverse * 2 ^ key.q.size % (key.q : ℤ)
  | .hqMont => key.obj.hq * 2 ^ key.q.size % (key.q : ℤ)
  | .hpMont => key.obj.hp * 2 ^ key.p.size % (key.p : ℤ)

theorem bitSize_p : mpzSizeinbase2 key.obj.p = key.p.size := by
  rw [key.obj_p, mpzSizeinbase2_natCast key.p_prime.pos]

theorem bitSize_q : mpzSizeinbase2 key.obj.q = key.q.size := by
  rw [key.obj_q, mpzSizeinbase2_natCast key.q_prime.pos]

theorem bitSize_n : mpzSizeinbase2 key.obj.n = (key.p * key.q).size := by
  rw [key.obj_n, ← Nat.cast_mul,
    mpzSizeinbase2_natCast (Nat.mul_pos key.p_prime.pos key.q_prime.pos)]

theorem mtgy_eq {src : ℤ} (hsrc : 0 < src) {r : ℕ} (hr : r.Prime) :
    mtgy src r = .ok (src * 2 ^ r.size % (r : ℤ)) := by
  rw [mtgy, mpzTdivR_of_ne (natCast_ne_zero_of_prime hr), mpzSizeinbase2_natCast hr.pos,
    Int.tmod_eq_emod_of_nonneg (by positivity), mul_comm]

/-- `load_param` computes every parameter. -/
theorem paramValue_eq (s : Slot) : key.obj.paramValue s = .ok (key.param s) := by
  have hp := natCast_ne_zero_of_prime key.p_prime
  have hq := natCast_ne_zero_of_prime key.q_prime
  cases s
  all_goals simp only [Paillier.paramValue, param, key.bitSize_n, key.bitSize_p, key.bitSize_q]
  case n => rw [key.obj_n]
  case nsquare => rw [key.obj_nsquare, sq]
  case nsR2m | nsR1m =>
    rw [key.obj_nsquare, mpzPowm_natCast (by positivity), sq]
  case q => rw [key.obj_q]
  case p => rw [key.obj_p]
  case qR2m => rw [key.obj_q, mpzPowm_natCast hq]
  case pR2m => rw [key.obj_p, mpzPowm_natCast hp]
  case qsquare => rw [key.obj_qsquare, sq]
  case psquare => rw [key.obj_psquare, sq]
  case qsR3m | qsR1m => rw [key.obj_qsquare, mpzPowm_natCast (mul_ne_zero hq hq), sq]
  case psR3m | psR1m => rw [key.obj_psquare, mpzPowm_natCast (mul_ne_zero hp hp), sq]
  case pInverseMont => rw [key.obj_q, mtgy_eq key.pInverse_spec.1 key.q_prime]
  case hqMont => rw [key.obj_q, mtgy_eq key.hq_spec.1 key.q_prime]
  case hpMont => rw [key.obj_p, mtgy_eq key.hp_spec.1 key.p_prime]

theorem param_nonneg (s : Slot) : 0 ≤ key.param s := by
  have hp := natCast_ne_zero_of_prime key.p_prime
  have hq := natCast_ne_zero_of_prime key.q_prime
  cases s
  all_goals simp only [param]
  all_goals first | positivity | exact Int.emod_nonneg _ (by positivity)

end Key

/-! ## The memory after a run -/

section
variable {cfg : Config} {key : Paillier}

theorem paramExport_eq (dst : ℕ → Word) (v : ℤ) (s : Slot) :
    Paillier.paramExport cfg dst v s =
      if Words.size 64 v.natAbs = cfg.size s then
        .ok (Words.storeAt dst (cfg.addr s) v.natAbs)
      else .error .assertion :=
  rfl

theorem paramExport_ok {dst dst' : ℕ → Word} {v : ℤ} {s : Slot}
    (h : Paillier.paramExport cfg dst v s = .ok dst') :
    Words.size 64 v.natAbs = cfg.size s ∧ dst' = Words.storeAt dst (cfg.addr s) v.natAbs := by
  rw [paramExport_eq] at h
  by_cases hsize : Words.size 64 v.natAbs = cfg.size s
  · rw [if_pos hsize] at h
    exact ⟨hsize, (Except.ok.inj h).symm⟩
  · rw [if_neg hsize] at h
    cases h

theorem storeTarget_slot_ok {dst dst' : ℕ → Word} {s : Slot}
    (h : Paillier.storeTarget cfg key dst (.slot s) = .ok dst') :
    ∃ v, key.paramValue s = .ok v ∧ Words.size 64 v.natAbs = cfg.size s ∧
      dst' = Words.storeAt dst (cfg.addr s) v.natAbs := by
  cases hv : key.paramValue s with
  | error e =>
    simp only [Paillier.storeTarget, hv] at h
    cases h
  | ok v =>
    simp only [Paillier.storeTarget, hv] at h
    exact ⟨v, rfl, paramExport_ok h⟩

theorem storeTarget_tWord_ok {dst dst' : ℕ → Word} {name : TWord}
    (h : Paillier.storeTarget cfg key dst (.tWord name) = .ok dst') :
    ∃ v, generateT cfg.radix (key.tModulus name) = .ok v ∧
      dst' = Function.update dst (cfg.tAddr name) v := by
  cases hv : generateT cfg.radix (key.tModulus name) with
  | error e =>
    simp only [Paillier.storeTarget, hv] at h
    cases h
  | ok v =>
    simp only [Paillier.storeTarget, hv] at h
    exact ⟨v, rfl, (Except.ok.inj h).symm⟩

theorem storeTarget_slot_of_eq {s : Slot} {v : ℤ} (hv : key.paramValue s = .ok v)
    (hsize : Words.size 64 v.natAbs = cfg.size s) (dst : ℕ → Word) :
    Paillier.storeTarget cfg key dst (.slot s) =
      .ok (Words.storeAt dst (cfg.addr s) v.natAbs) := by
  simp only [Paillier.storeTarget, hv, bind, Except.bind]
  rw [paramExport_eq, if_pos hsize]

theorem storeTarget_slot_of_ne {s : Slot} {v : ℤ} (hv : key.paramValue s = .ok v)
    (hsize : Words.size 64 v.natAbs ≠ cfg.size s) (dst : ℕ → Word) :
    Paillier.storeTarget cfg key dst (.slot s) = .error .assertion := by
  simp only [Paillier.storeTarget, hv, bind, Except.bind]
  rw [paramExport_eq, if_neg hsize]

theorem storeTarget_tWord_of_eq {name : TWord} {v : Word}
    (hv : generateT cfg.radix (key.tModulus name) = .ok v) (dst : ℕ → Word) :
    Paillier.storeTarget cfg key dst (.tWord name) =
      .ok (Function.update dst (cfg.tAddr name) v) := by
  simp only [Paillier.storeTarget, hv, bind, Except.bind]
  rfl

/-- A write that passes its assertion stays in its own window. -/
theorem storeTarget_frame (dst : ℕ → Word) (a : Target) (dst' : ℕ → Word)
    (h : Paillier.storeTarget cfg key dst a = .ok dst') (i : ℕ) (hi : ¬ cfg.window a i) :
    dst' i = dst i := by
  cases a with
  | slot s =>
    obtain ⟨v, -, hsize, rfl⟩ := storeTarget_slot_ok h
    apply Words.storeAt_outside dst
    simp only [Config.window] at hi
    omega
  | tWord name =>
    obtain ⟨v, -, rfl⟩ := storeTarget_tWord_ok h
    exact Function.update_of_ne hi v dst

/-- What a target holds: the number in its words, or its `generate_t`. -/
def Holds (cfg : Config) (key : Paillier) : Target → (ℕ → Word) → Prop
  | .slot s, dst => ∃ v, key.paramValue s = .ok v ∧
      Words.value (fun i => dst (cfg.addr s + i)) (cfg.size s) = v.natAbs
  | .tWord name, dst => generateT cfg.radix (key.tModulus name) = .ok (dst (cfg.tAddr name))

theorem storeTarget_holds (dst : ℕ → Word) (a : Target) (dst' : ℕ → Word)
    (h : Paillier.storeTarget cfg key dst a = .ok dst') : Holds cfg key a dst' := by
  cases a with
  | slot s =>
    obtain ⟨v, hv, hsize, rfl⟩ := storeTarget_slot_ok h
    refine ⟨v, hv, ?_⟩
    rw [← hsize]
    exact Words.value_storeAt_size (by norm_num) dst _ _
  | tWord name =>
    obtain ⟨v, hv, rfl⟩ := storeTarget_tWord_ok h
    rw [Holds, Function.update_self]
    exact hv

theorem holds_local (a : Target) (dst dst' : ℕ → Word)
    (h : ∀ i, cfg.window a i → dst' i = dst i) (hholds : Holds cfg key a dst) :
    Holds cfg key a dst' := by
  cases a with
  | slot s =>
    obtain ⟨v, hv, hval⟩ := hholds
    refine ⟨v, hv, ?_⟩
    rw [← hval]
    exact Words.value_congr fun i hi => h _ ⟨by omega, by omega⟩
  | tWord name =>
    rw [Holds, h _ rfl]
    exact hholds

/-- The loop clears the words it has passed. -/
theorem clear_range (up : ℕ → Word) (k : ℕ) :
    (List.range k).foldl (fun up i => Function.update up i 0) up =
      fun i => if i < k then 0 else up i := by
  induction k with
  | zero => simp
  | succ k ih =>
    rw [List.range_succ, List.foldl_append, ih]
    funext i
    simp only [List.foldl_cons, List.foldl_nil, Function.update_apply]
    grind

theorem mem_loadOrder (a : Target) : a ∈ Paillier.loadOrder := by
  cases a with
  | slot s => cases s <;> decide
  | tWord name => cases name <;> decide

theorem loadOrder_nodup : Paillier.loadOrder.Nodup := by decide

theorem loadParam_ok {dst : ℕ → Word} {dst' : ℕ → Word} {loaded : ℕ}
    (h : Paillier.loadParam cfg key dst = .ok (dst', loaded)) :
    Paillier.loadOrder.foldlM (Paillier.storeTarget cfg key) dst = .ok dst' := by
  cases hfold : Paillier.loadOrder.foldlM (Paillier.storeTarget cfg key) dst with
  | error e =>
    simp only [Paillier.loadParam, hfold] at h
    cases h
  | ok d =>
    simp only [Paillier.loadParam, hfold] at h
    obtain ⟨rfl, -⟩ := Prod.mk.inj (Except.ok.inj h)
    rfl

/-- The memory is loaded when every number has its declared size and the shifts are defined. -/
theorem keyGenParam_total {key : Key} (hsize : ∀ s, Words.size 64 (key.param s).natAbs = cfg.size s)
    (hradix : 0 < cfg.radix ∧ cfg.radix < 31) (up : ℕ → Word) :
    ∃ dst, Paillier.keyGenParam cfg key.obj up = .ok (dst, cfg.tAddr .tP + 1) := by
  have hwrite : ∀ d, ∀ a ∈ Paillier.loadOrder,
      ∃ d', Paillier.storeTarget cfg key.obj d a = .ok d' := by
    intro d a _
    cases a with
    | slot s => exact ⟨_, storeTarget_slot_of_eq (key.paramValue_eq s) (hsize s) d⟩
    | tWord name =>
      have hdefined : ¬ (cfg.radix = 0 ∨ 31 ≤ cfg.radix) := by omega
      exact ⟨_, storeTarget_tWord_of_eq (if_neg hdefined) d⟩
  obtain ⟨dst, hdst⟩ := Windows.foldlM_total hwrite (Paillier.clearParam up)
  refine ⟨dst, ?_⟩
  simp only [Paillier.keyGenParam, Paillier.loadParam, hdst, bind, Except.bind]
  rfl

/-- Every target survives the writes after it. -/
theorem keyGenParam_holds {key : Key} (hsep : cfg.Separate) {up dst : ℕ → Word} {loaded : ℕ}
    (hrun : Paillier.keyGenParam cfg key.obj up = .ok (dst, loaded)) (a : Target) :
    Holds cfg key.obj a dst := by
  have hdisj : Paillier.loadOrder.Pairwise fun a b => ∀ i, cfg.window a i → ¬ cfg.window b i :=
    loadOrder_nodup.imp fun {a b} hne => hsep.disjoint a b hne
  exact Windows.foldlM_post storeTarget_frame storeTarget_holds holds_local hdisj
    (loadParam_ok hrun) a (mem_loadOrder a)

theorem keyGenParam_slot {key : Key} (hsep : cfg.Separate) {up dst : ℕ → Word} {loaded : ℕ}
    (hrun : Paillier.keyGenParam cfg key.obj up = .ok (dst, loaded)) (s : Slot) :
    (Words.value (fun i => dst (cfg.addr s + i)) (cfg.size s) : ℤ) = key.param s := by
  obtain ⟨v, hv, hval⟩ := keyGenParam_holds hsep hrun (.slot s)
  rw [key.paramValue_eq s] at hv
  obtain rfl := Except.ok.inj hv
  rw [hval, Int.natAbs_of_nonneg (key.param_nonneg s)]

/-- What `key_gen` does not write. -/
theorem keyGenParam_frame {key : Key} {up dst : ℕ → Word} {loaded : ℕ}
    (hrun : Paillier.keyGenParam cfg key.obj up = .ok (dst, loaded)) {i : ℕ}
    (hi : ¬ cfg.Filled i) : dst i = up i := by
  have hout : ∀ a ∈ Paillier.loadOrder, ¬ cfg.window a i := fun a _ ha => hi (Or.inr ⟨a, ha⟩)
  rw [Windows.foldlM_frame storeTarget_frame (loadParam_ok hrun) hout, Paillier.clearParam,
    clear_range]
  exact if_neg fun hlt => hi (Or.inl hlt)

theorem Config.Separate.filled_iff (hsep : cfg.Separate) {i : ℕ} : cfg.Filled i ↔ i < 1024 :=
  ⟨fun h => h.elim id fun ⟨a, ha⟩ => hsep.inside a i ha, Or.inl⟩

end

def smallConfig : Config where
  addr
    | .n => 0 | .nsquare => 1 | .nsR2m => 2 | .nsR1m => 3 | .q => 4 | .p => 5
    | .qsquare => 6 | .psquare => 7 | .qR2m => 8 | .pR2m => 9 | .qsR3m => 10 | .psR3m => 11
    | .qsR1m => 12 | .psR1m => 13 | .pInverseMont => 14 | .hqMont => 15 | .hpMont => 16
  size _ := 1
  tAddr
    | .t => 17 | .tQs => 18 | .tPs => 19 | .tQ => 20 | .tP => 21
  radix := 16

/-- Where a target of `smallConfig` stands. -/
theorem smallConfig_window_iff (a : Target) (i : ℕ) :
    smallConfig.window a i ↔ i = Paillier.loadOrder.idxOf a := by
  cases a with
  | slot s =>
    have haddr : smallConfig.addr s = Paillier.loadOrder.idxOf (.slot s) := by cases s <;> rfl
    show smallConfig.addr s ≤ i ∧ i < smallConfig.addr s + 1 ↔ _
    rw [haddr]
    omega
  | tWord name =>
    have haddr : smallConfig.tAddr name = Paillier.loadOrder.idxOf (.tWord name) := by
      cases name <;> rfl
    show i = smallConfig.tAddr name ↔ _
    rw [haddr]

theorem smallConfig_window_lt {a : Target} {i : ℕ} (h : smallConfig.window a i) : i < 22 := by
  rw [smallConfig_window_iff] at h
  rw [h]
  exact List.idxOf_lt_length_iff.mpr (mem_loadOrder a)

theorem smallConfig_separate : smallConfig.Separate where
  disjoint a b hne i ha hb := by
    rw [smallConfig_window_iff] at ha hb
    exact hne ((List.idxOf_inj (mem_loadOrder a)).mp (ha.symm.trans hb))
  inside a i ha := (smallConfig_window_lt ha).trans (by norm_num)

theorem one_le_size {x : ℤ} (hpos : 0 < x) : 1 ≤ Words.size 64 x.natAbs := by
  have hne : ¬ Words.size 64 x.natAbs ≤ 0 :=
    (Words.size_le_iff (by norm_num)).not.mpr (by omega)
  omega

theorem size_eq_one {x : ℤ} (hpos : 0 < x) (hlt : x < 2 ^ 64) : Words.size 64 x.natAbs = 1 := by
  have hle := (Words.size_le_iff (w := 64) (by norm_num) (x := x.natAbs) (W := 1)).mpr (by omega)
  exact le_antisymm hle (one_le_size hpos)

theorem emod_bounds {r : ℕ} {x m : ℤ} (hrm : (r : ℤ) ∣ m) (hm : 0 < m) (hx : ¬ (r : ℤ) ∣ x) :
    0 < x % m ∧ x % m < m := by
  have hne : x % m ≠ 0 := fun h0 => hx (hrm.trans (Int.dvd_of_emod_eq_zero h0))
  have hnonneg := Int.emod_nonneg x hm.ne'
  exact ⟨by omega, Int.emod_lt_of_pos x hm⟩

theorem not_dvd_two_pow {r : ℕ} (hr : r.Prime) (hodd : r ≠ 2) (k : ℕ) : ¬ (r : ℤ) ∣ 2 ^ k := by
  apply FermatQuotient.not_dvd_pow hr
  intro h
  exact hodd ((Nat.prime_dvd_prime_iff_eq hr Nat.prime_two).mp (by exact_mod_cast h))

theorem not_dvd_mont {r : ℕ} (hr : r.Prime) (hodd : r ≠ 2) {x : ℤ} (hx : 0 < x) (hlt : x < r)
    (k : ℕ) : ¬ (r : ℤ) ∣ x * 2 ^ k := by
  apply FermatQuotient.not_dvd_mul hr
  · intro h
    have := Int.le_of_dvd hx h
    omega
  · exact not_dvd_two_pow hr hodd k

/-- No parameter of a key of odd primes is zero, and none is above `n * n`. -/
theorem Key.param_bounds (key : Key) (hodd : key.p ≠ 2) (s : Slot) :
    0 < key.param s ∧ key.param s ≤ ((key.p : ℤ) * key.q) ^ 2 := by
  have hp0 : (0 : ℤ) < key.p := by exact_mod_cast key.p_prime.pos
  have hq0 : (0 : ℤ) < key.q := by exact_mod_cast key.q_prime.pos
  have hn : (key.p : ℤ) * key.q ≤ ((key.p : ℤ) * key.q) ^ 2 :=
    le_self_pow₀ (by nlinarith) (by norm_num)
  have hpn : (key.p : ℤ) ≤ key.p * key.q := by nlinarith
  have hqn : (key.q : ℤ) ≤ key.p * key.q := by nlinarith
  have hpp : (key.p : ℤ) ^ 2 ≤ ((key.p : ℤ) * key.q) ^ 2 := pow_le_pow_left₀ hp0.le hpn 2
  have hqq : (key.q : ℤ) ^ 2 ≤ ((key.p : ℤ) * key.q) ^ 2 := pow_le_pow_left₀ hq0.le hqn 2
  have hres : ∀ {r : ℕ} {x m : ℤ}, (r : ℤ) ∣ m → 0 < m → m ≤ ((key.p : ℤ) * key.q) ^ 2 →
      ¬ (r : ℤ) ∣ x → 0 < x % m ∧ x % m ≤ ((key.p : ℤ) * key.q) ^ 2 := by
    intro r x m hrm hm hmn hx
    have hbounds := emod_bounds hrm hm hx
    exact ⟨hbounds.1, hbounds.2.le.trans hmn⟩
  cases s
  all_goals simp only [Key.param]
  case n => exact ⟨by positivity, hn⟩
  case nsquare => exact ⟨by positivity, le_rfl⟩
  case nsR2m | nsR1m =>
    exact hres (Dvd.intro _ rfl |>.trans (dvd_pow_self _ two_ne_zero)) (by positivity) le_rfl
      (not_dvd_two_pow key.p_prime hodd _)
  case q => exact ⟨hq0, hqn.trans hn⟩
  case p => exact ⟨hp0, hpn.trans hn⟩
  case qsquare => exact ⟨by positivity, hqq⟩
  case psquare => exact ⟨by positivity, hpp⟩
  case qR2m => exact hres dvd_rfl hq0 (hqn.trans hn) (not_dvd_two_pow key.q_prime key.q_ne_two _)
  case pR2m => exact hres dvd_rfl hp0 (hpn.trans hn) (not_dvd_two_pow key.p_prime hodd _)
  case qsR3m | qsR1m =>
    exact hres (dvd_pow_self _ two_ne_zero) (by positivity) hqq
      (not_dvd_two_pow key.q_prime key.q_ne_two _)
  case psR3m | psR1m =>
    exact hres (dvd_pow_self _ two_ne_zero) (by positivity) hpp
      (not_dvd_two_pow key.p_prime hodd _)
  case pInverseMont =>
    exact hres dvd_rfl hq0 (hqn.trans hn)
      (not_dvd_mont key.q_prime key.q_ne_two key.pInverse_spec.1 key.pInverse_spec.2.1 _)
  case hqMont =>
    exact hres dvd_rfl hq0 (hqn.trans hn)
      (not_dvd_mont key.q_prime key.q_ne_two key.hq_spec.1 key.hq_spec.2.1 _)
  case hpMont =>
    exact hres dvd_rfl hp0 (hpn.trans hn)
      (not_dvd_mont key.p_prime hodd key.hp_spec.1 key.hp_spec.2.1 _)

/-- `smallConfig` is right for every key of odd primes with `n * n` in one word. -/
theorem smallConfig_total (key : Key) (hodd : key.p ≠ 2)
    (hfits : ((key.p : ℤ) * key.q) ^ 2 < 2 ^ 64) (up : ℕ → Word) :
    ∃ dst, Paillier.keyGenParam smallConfig key.obj up = .ok (dst, 22) := by
  apply keyGenParam_total
  · intro s
    have hbounds := key.param_bounds hodd s
    exact size_eq_one hbounds.1 (by omega)
  · decide

end HardApi
