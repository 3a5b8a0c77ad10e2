import HardApi.Paillier.Correctness
import HardApi.Pynq.Independence
import HardApi.Pynq.Operand

/-!
# The board and the base class

`PynqPaillier` overrides `encrypt` and `decrypt`; `add` and `mul` stay those of `Paillier`. When
the cores compute what the base class computes (`Board.Computes`), a call on the board returns what
the base class returns (`crypt_agrees`), as long as the registers and the parameters are those of
the object and the words above the operand are zero. So an expression evaluated with the board has
the base class's ciphertext, and its decryption on the board is the value (`evalOn_decrypt`).
-/

namespace HardApi

open Runs

/-- The method that a core replaces. -/
def Core.base (key : Paillier) : Core → ℤ → Except Fault ℤ
  | .encrypt => key.encrypt
  | .decrypt => key.decrypt

/-- With the parameters of `key`, the cores write the words of what the base class returns, and
return their number. A number below zero has no words. -/
def Board.Computes (board : Board) (key : Key) : Prop :=
  ∀ core loaded (operand : ℕ) res, Loads board.config key loaded →
    Core.base key.obj core operand = .ok res → 0 ≤ res → res < key.obj.nsquare →
      (board.result core loaded operand).1.length = (board.result core loaded operand).2.toNat ∧
      (Words.value (fun i => (board.result core loaded operand).1.getD i 0)
        (board.result core loaded operand).1.length : ℤ) = res

variable {board : Board} {w w' w'' w₀ : World board} {o : ℕ} {core : Core} {v res c m : ℤ}
  {start : Start board} {key : Key} {obj : PynqPaillier board} {e : Expr}
  {ts ts₀ : List (Transition (World board) Call (Option (Start board)))}

/-! ## One call -/

/-- Words that were written to a buffer, wherever its pointer points; from `NULL` none is read. -/
theorem importFrom_writeWords {memory : SharedMemory board.toPlatform} {dram : ℕ → Word}
    {ws : List Word}
    (h : World.importFrom (World.writeWords dram (memory.physicalAddress / 8) ws) memory
      ws.length = some res) : res = Words.value (fun i => ws.getD i 0) ws.length := by
  unfold World.importFrom at h
  split at h
  case h_1 page hpage =>
    rw [SharedMemory.index_eq hpage] at h
    obtain rfl := Option.some.inj h
    unfold mpzImport
    congr 1
    apply Words.value_congr
    intro i hi
    unfold World.writeWords
    rw [if_pos (by omega), Nat.add_sub_cancel_left, List.getD_eq_getElem _ _ hi,
      List.getD_eq_getElem _ _ hi]
  case h_2 =>
    by_cases hempty : ws.length = 0
    · rw [if_pos hempty] at h
      obtain rfl := Option.some.inj h
      rw [hempty]
      rfl
    · rw [if_neg hempty] at h
      cases h

/-- What a call imports. -/
theorem crypt_import (h : w.crypt core o v = some (w', start, res)) (hwired : w.Wired o)
    (hlength : (board.result core w.loaded (start.world.operand core)).1.length =
      (board.result core w.loaded (start.world.operand core)).2.toNat) :
    res = Words.value
      (fun i => (board.result core w.loaded (start.world.operand core)).1.getD i 0)
      (board.result core w.loaded (start.world.operand core)).1.length := by
  obtain ⟨obj, hobj, hstarted, himport, rfl⟩ := crypt_cases h
  have htarget : w.target (core.rpRegister board) = (obj.buffer core.rp).physicalAddress / 8 := by
    show (w.regs _).toNat / 8 = _
    rw [(hwired obj hobj).rp core]
  rw [htarget, ← hlength] at himport
  exact importFrom_writeWords himport

/-- **One call agrees.** -/
theorem crypt_eq_base (h : w.crypt core o v = some (w', start, res)) (hwired : w.Wired o)
    (hkeyed : w.Keyed o key) (hcomputes : board.Computes key) (hv : 0 ≤ v)
    (hfits : v < 2 ^ (64 * board.words core)) (hcleared : w.Cleared core o v) {r : ℤ}
    (hbase : Core.base key.obj core v = .ok r) (hr : 0 ≤ r) (hlt : r < key.obj.nsquare) :
    res = r := by
  obtain ⟨obj, hobj, hstarted, -⟩ := crypt_cases h
  have hexact : (start.world.operand core : ℤ) = v := by
    have hexact' := (started_exact_iff hstarted hwired hv hfits).mpr hcleared
    obtain ⟨_, -, rfl⟩ := started_eq_some_iff.mp hstarted
    exact hexact'
  obtain ⟨hlength, hvalue⟩ := hcomputes core w.loaded (start.world.operand core) r
    (hkeyed.loads obj hobj) (by rw [hexact]; exact hbase) hr hlt
  rw [crypt_import h hwired hlength]
  exact hvalue

/-- The registers and the parameters are those of `o`. -/
structure World.Ready (w : World board) (o : ℕ) (key : Key) : Prop where
  wired : w.Wired o
  keyed : w.Keyed o key

theorem ready_of_run (hrun : Run step w₀ ts w) (hconstructed : LastConstructed o ts)
    (hlastKeyed : LastKeyed o ts) (hobj : w.objects o = .live obj) (hkey : obj.key = some key) :
    w.Ready o key := by
  obtain ⟨key', hkeyed⟩ := keyed_of_lastKeyed hrun hlastKeyed
  obtain rfl : key = key' := Option.some.inj (hkey.symm.trans (hkeyed.current obj hobj))
  exact ⟨wired_of_lastConstructed hrun hconstructed, hkeyed⟩

/-- **The board agrees with the base class**, in any run of any objects. -/
theorem crypt_agrees (hrun : Run step w₀ ts w) (hconstructed : LastConstructed o ts)
    (hlastKeyed : LastKeyed o ts) (hobj : w.objects o = .live obj) (hkey : obj.key = some key)
    (hcomputes : board.Computes key) (hcrypt : w.crypt core o v = some (w', start, res))
    (hv : 0 ≤ v) (hfits : v < 2 ^ (64 * board.words core)) (hcleared : w.Cleared core o v) {r : ℤ}
    (hbase : Core.base key.obj core v = .ok r) (hr : 0 ≤ r) (hlt : r < key.obj.nsquare) :
    res = r := by
  have hready := ready_of_run hrun hconstructed hlastKeyed hobj hkey
  exact crypt_eq_base hcrypt hready.wired hready.keyed hcomputes hv hfits hcleared hbase hr
    hlt

/-! ## Expressions -/

/-- The ciphertext of an expression whose encryptions are calls of `o`, and these calls. -/
def evalOn (mpz : MpzCmp) (key : Paillier) (o : ℕ) : Expr → World board →
    Option (World board × List (Transition (World board) Call (Option (Start board))) × ℤ)
  | .encrypt m, w => do
    let (w', start, c) ← w.encrypt o m
    return (w', [⟨w, .encrypt o m, some start, w'⟩], c)
  | .add e₁ e₂, w => do
    let (w₁, ts₁, c₁) ← evalOn mpz key o e₁ w
    let (w₂, ts₂, c₂) ← evalOn mpz key o e₂ w₁
    let c ← (key.add c₁ c₂).toOption
    return (w₂, ts₁ ++ ts₂, c)
  | .mul e k, w => do
    let (w₁, ts₁, c₁) ← evalOn mpz key o e w
    let c ← (key.mul mpz c₁ k).toOption
    return (w₁, ts₁, c)

theorem step_encrypt (h : w.encrypt o m = some (w', start, c)) :
    step w (.encrypt o m) = some (w', some start) := by
  simp only [step, h, Option.map_some]

theorem World.Ready.encrypt (hready : w.Ready o key) (h : w.encrypt o m = some (w', start, c)) :
    w'.Ready o key := by
  have hstep := step_encrypt h
  refine ⟨step_wired hstep hready.wired id, ?_⟩
  exact step_keyed (t := ⟨w, .encrypt o m, some start, w'⟩) hstep hready.keyed id

/-- The board's ciphertext of an expression is the base class's. -/
theorem evalOn_spec (mpz : MpzCmp) (hbase : ¬ (65537 : ℤ) ∣ key.obj.n)
    (hcomputes : board.Computes key) (hready : w.Ready o key)
    (h : evalOn mpz key.obj o e w = some (w', ts, c))
    (hcalls : ∀ t ∈ ts, t.input.On board o ∧ t.input.Cleared t.pre) :
    e.eval mpz key.obj = .ok c ∧ Run step w ts w' ∧ w'.Ready o key := by
  induction e generalizing w w' ts c with
  | encrypt m =>
    simp only [evalOn, Option.bind_eq_bind, Option.bind_eq_some_iff, Prod.exists] at h
    obtain ⟨w₁, start, c₁, hencrypt, hend⟩ := h
    obtain ⟨rfl, rfl, rfl⟩ := by simpa using hend
    obtain ⟨⟨-, hm, hfits⟩, hcleared⟩ := hcalls _ List.mem_cons_self
    obtain ⟨r, hr, hcarries⟩ := encrypt_carries hbase m
    have heq := crypt_eq_base hencrypt hready.wired hready.keyed hcomputes hm hfits hcleared
      hr hcarries.pos.le hcarries.lt
    refine ⟨?_, ⟨rfl, step_encrypt hencrypt, rfl⟩, hready.encrypt hencrypt⟩
    rw [heq]
    exact hr
  | add e₁ e₂ ih₁ ih₂ =>
    simp only [evalOn, Option.bind_eq_bind, Option.bind_eq_some_iff, Prod.exists] at h
    obtain ⟨w₁, ts₁, c₁, h₁, w₂, ts₂, c₂, h₂, c₃, hadd, hend⟩ := h
    obtain ⟨rfl, rfl, rfl⟩ := by simpa using hend
    obtain ⟨heval₁, hrun₁, hready₁⟩ := ih₁ hready h₁ fun t ht =>
      hcalls t (List.mem_append_left _ ht)
    obtain ⟨heval₂, hrun₂, hready₂⟩ := ih₂ hready₁ h₂ fun t ht =>
      hcalls t (List.mem_append_right _ ht)
    refine ⟨?_, run_append.mpr ⟨w₁, hrun₁, hrun₂⟩, hready₂⟩
    rw [Expr.eval, heval₁, heval₂]
    exact toOption_eq_some hadd
  | mul e k ih =>
    simp only [evalOn, Option.bind_eq_bind, Option.bind_eq_some_iff, Prod.exists] at h
    obtain ⟨w₁, ts₁, c₁, h₁, c₂, hmul, hend⟩ := h
    obtain ⟨rfl, rfl, rfl⟩ := by simpa using hend
    obtain ⟨heval, hrun, hready'⟩ := ih hready h₁ hcalls
    refine ⟨?_, hrun, hready'⟩
    rw [Expr.eval, heval]
    exact toOption_eq_some hmul

/-- **An expression on the board.** -/
theorem evalOn_decrypt (mpz : MpzCmp) (hbase : ¬ (65537 : ℤ) ∣ key.obj.n)
    (hrun : Run step w₀ ts₀ w) (hconstructed : LastConstructed o ts₀)
    (hlastKeyed : LastKeyed o ts₀) (hobj : w.objects o = .live obj) (hkey : obj.key = some key)
    (hcomputes : board.Computes key) (heval : evalOn mpz key.obj o e w = some (w', ts, c))
    (hcalls : ∀ t ∈ ts, t.input.On board o ∧ t.input.Cleared t.pre)
    (hdecrypt : w'.decrypt o c = some (w'', start, m))
    (hfits : c < 2 ^ (64 * board.words .decrypt)) (hcleared : w'.Cleared .decrypt o c) :
    e.eval mpz key.obj = .ok c ∧
      (e.value % key.obj.p ≤ e.value % key.obj.q → m = e.value % key.obj.n) := by
  have hready := ready_of_run hrun hconstructed hlastKeyed hobj hkey
  obtain ⟨hc, -, hready'⟩ := evalOn_spec mpz hbase hcomputes hready heval hcalls
  refine ⟨hc, fun hle => ?_⟩
  obtain ⟨c', hc', hcarries⟩ := e.eval_carries mpz hbase
  obtain rfl : c = c' := Except.ok.inj (hc.symm.trans hc')
  have hvalue : key.recombine e.value = e.value % key.obj.n := (key.recombine_eq_emod_iff _).mpr hle
  have hn := key.n_pos
  have hlt : e.value % key.obj.n < key.obj.n := Int.emod_lt_of_pos _ hn
  have hnsquare : key.obj.n ≤ key.obj.nsquare := by
    rw [key.nsquare_eq]
    exact le_mul_of_one_le_left hn.le (by omega)
  apply crypt_eq_base hdecrypt hready'.wired hready'.keyed hcomputes hcarries.pos.le hfits
    hcleared
  · show key.obj.decrypt c = _
    rw [decrypt_of_carries hcarries, hvalue]
  · exact Int.emod_nonneg _ hn.ne'
  · omega

/-! ## A board that computes -/

/-- The small board with cores for one key. -/
def softBoard : Board :=
  { smallBoard 16 with
    result := fun core _ operand =>
      match Core.base smallKey.obj core operand with
      | .ok r => if 0 ≤ r ∧ r < 225 then ([BitVec.ofInt 64 r], 1) else ([], 0)
      | .error _ => ([], 0) }

theorem softBoard_computes : softBoard.Computes smallKey := by
  intro core loaded operand r _ hbase hr hlt
  rw [show smallKey.obj.nsquare = 225 from smallKey.obj_nsquare] at hlt
  have hresult : softBoard.result core loaded operand = ([BitVec.ofInt 64 r], 1) := by
    simp only [softBoard, hbase, if_pos (And.intro hr hlt)]
  rw [hresult]
  refine ⟨rfl, ?_⟩
  have hword : ((BitVec.ofInt 64 r).toNat : ℤ) = r := by
    rw [BitVec.toNat_ofInt]
    omega
  simpa [Words.value] using hword

def softWorld : World softBoard where
  cma := .empty
  dram _ := 0
  regs _ := 0
  loaded _ := 0
  objects _ := .unborn

/-- One object and its first key. -/
theorem softBoard_keyed :
    ∃ w : World softBoard, ∃ obj ts, Run step softWorld ts w ∧ LastConstructed 0 ts ∧
      LastKeyed 0 ts ∧ w.objects 0 = .live obj ∧ obj.key = some smallKey ∧
      obj.memory1.pointer = some 16 ∧ obj.memory2.pointer = some 17 := by
  obtain ⟨w₁, obj, h₁, hobj, hsize, hmemory1, hmemory2, hparam⟩ :
      ∃ w₁ : World softBoard, ∃ obj,
        step softWorld (.construct 0 4 (answers 16 17 18)) = some (w₁, none) ∧
        w₁.objects 0 = .live obj ∧ obj.keySize = 4 ∧ obj.memory1.pointer = some 16 ∧
        obj.memory2.pointer = some 17 ∧ obj.memoryParam.pointer = some 18 :=
    ⟨_, _, rfl, rfl, rfl, rfl, rfl, rfl⟩
  obtain ⟨up, hup⟩ := smallConfig_total smallKey (by decide) (by decide) fun i =>
    w₁.dram (18 * softBoard.pageSize / 8 + i)
  have hsize' : smallKey.obj.keySize = obj.keySize := hsize.symm
  obtain ⟨w₂, h₂⟩ := keyGen_total hobj hsize' hparam hup
  obtain ⟨obj', _, _, _, hobj', -, -, -, -, hobjects, -⟩ := keyGen_spec h₂
  obtain rfl : obj = obj' := by simpa [hobj] using hobj'
  have hstep : step w₁ (.keyGen 0 smallKey) = some (w₂, none) := by simp [step, h₂]
  have hconstructed : LastConstructed 0
      [⟨softWorld, .construct 0 4 (answers 16 17 18), none, w₁⟩] :=
    ⟨[], _, [], rfl, ⟨_, _, rfl⟩, by simp⟩
  refine ⟨w₂, { obj with key := some smallKey },
    [⟨softWorld, .construct 0 4 (answers 16 17 18), none, w₁⟩, ⟨w₁, .keyGen 0 smallKey, none, w₂⟩],
    ⟨rfl, h₁, rfl, hstep, rfl⟩, ?_, ?_, ?_, rfl, hmemory1, hmemory2⟩
  · exact ⟨[], _, [_], rfl, ⟨_, _, rfl⟩, by simp [Call.IsConstruct]⟩
  · exact ⟨[_], _, [], [], rfl, ⟨_, rfl⟩, hconstructed, by simp, by simp⟩
  · rw [hobjects, Function.update_self]

theorem crypt_agrees_softBoard :
    ∃ w w' : World softBoard, ∃ start, ∃ c : ℤ,
      w.crypt .encrypt 0 2 = some (w', start, c) ∧ smallKey.obj.encrypt 2 = .ok c := by
  obtain ⟨w, obj, ts, hrun, hconstructed, hkeyed, hobj, hkey, hmemory1, hmemory2⟩ :=
    softBoard_keyed
  obtain ⟨⟨w', start, c⟩, hcrypt⟩ : ∃ r, w.crypt .encrypt 0 2 = some r :=
    crypt_total hobj hmemory2
  obtain ⟨r, hr, hcarries⟩ := encrypt_carries smallKey_base 2
  have hc : c = r := crypt_agrees hrun hconstructed hkeyed hobj hkey softBoard_computes hcrypt
    (by norm_num) (by norm_num [softBoard, smallBoard])
    (cleared_of_fills hobj hmemory1 (one_le_size (by norm_num))) hr hcarries.pos.le hcarries.lt
  exact ⟨w, w', start, c, hcrypt, hc ▸ hr⟩

/-- Twice two is four on the board, too. -/
theorem evalOn_decrypt_softBoard :
    ∃ w w' w'' : World softBoard, ∃ ts c start, ∃ m : ℤ,
      evalOn MpzCmp.sign smallKey.obj 0 ((Expr.encrypt 1).mul 2) w = some (w', ts, c) ∧
      w'.decrypt 0 c = some (w'', start, m) ∧ m = 2 := by
  obtain ⟨w, obj, ts₀, hrun, hconstructed, hkeyed, hobj, hkey, hmemory1, hmemory2⟩ :=
    softBoard_keyed
  obtain ⟨⟨w₁, start₁, c₁⟩, hencrypt⟩ : ∃ r, w.encrypt 0 1 = some r :=
    crypt_total hobj hmemory2
  have hfits : ∀ v : ℤ, v < 225 → v < 2 ^ (64 * softBoard.words .decrypt) := by
    intro v hv
    exact hv.trans (by norm_num [softBoard, smallBoard])
  have hready := ready_of_run hrun hconstructed hkeyed hobj hkey
  have hcalls : ∀ t ∈ [(⟨w, .encrypt 0 1, some start₁, w₁⟩ :
      Transition (World softBoard) Call (Option (Start softBoard)))],
      t.input.On softBoard 0 ∧ t.input.Cleared t.pre := by
    intro t ht
    obtain rfl := List.mem_singleton.mp ht
    exact ⟨⟨rfl, by norm_num, hfits 1 (by norm_num)⟩,
      cleared_of_fills hobj hmemory1 (one_le_size (by norm_num))⟩
  have heval₁ : evalOn MpzCmp.sign smallKey.obj 0 (Expr.encrypt 1) w =
      some (w₁, [⟨w, .encrypt 0 1, some start₁, w₁⟩], c₁) := by
    simp only [evalOn, hencrypt]
    rfl
  obtain ⟨hbase₁, -⟩ :=
    evalOn_spec MpzCmp.sign smallKey_base softBoard_computes hready heval₁ hcalls
  obtain ⟨c₂, hc₂, hcarries₁⟩ := (Expr.encrypt 1).eval_carries MpzCmp.sign smallKey_base
  obtain rfl : c₁ = c₂ := Except.ok.inj (hbase₁.symm.trans hc₂)
  obtain ⟨c, hmul, hcarries⟩ := mul_carries MpzCmp.sign hcarries₁ 2
  have heval : evalOn MpzCmp.sign smallKey.obj 0 ((Expr.encrypt 1).mul 2) w =
      some (w₁, [⟨w, .encrypt 0 1, some start₁, w₁⟩], c) := by
    rw [evalOn, heval₁]
    simp only [Option.bind_eq_bind, Option.bind_some, hmul]
    rfl
  have hobj₁ : w₁.objects 0 = .live obj := by
    obtain ⟨-, hobjects, -⟩ := crypt_spec hencrypt
    rw [hobjects, hobj]
  obtain ⟨⟨w₂, start₂, m⟩, hdecrypt⟩ : ∃ r, w₁.decrypt 0 c = some r :=
    crypt_total hobj₁ hmemory1
  have hlt : c < 225 := hcarries.lt.trans_eq smallKey.obj_nsquare
  obtain ⟨-, hvalue⟩ := evalOn_decrypt MpzCmp.sign smallKey_base hrun hconstructed hkeyed hobj hkey
    softBoard_computes heval hcalls hdecrypt (hfits c hlt)
    (cleared_of_fills hobj₁ hmemory2 (one_le_size hcarries.pos))
  refine ⟨w, w₁, w₂, _, c, start₂, m, heval, hdecrypt, ?_⟩
  rw [hvalue (by rw [smallKey.obj_p, smallKey.obj_q]; decide), smallKey.obj_n]
  rfl

end HardApi
