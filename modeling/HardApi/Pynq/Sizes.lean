import HardApi.Paillier.Balance
import HardApi.Pynq.Params

/-!
# The sizes of the parameters

`PARAM_EXPORT` asserts that a parameter has as many words as its modulus. The six moduli have, for
a key whose primes have half the bits of `n`. The other eleven parameters are residues, and
`mpz_export` does not write leading zero words: the assertions hold exactly if no residue has a
zero top word (`loadParam_asserts_iff`). The condition is put on the primes alone: a residue is
the least solution of a congruence (`SolvesSlot`), so its top word is zero exactly if the
congruence has a solution of fewer words (`NoShortSolution`).
-/

namespace HardApi

/-- The modulus that a slot holds, or that its residue belongs to. -/
def slotModulus (p q : ℕ) : Slot → ℕ
  | .n => p * q
  | .nsquare | .nsR2m | .nsR1m => (p * q) ^ 2
  | .q | .qR2m | .pInverseMont | .hqMont => q
  | .p | .pR2m | .hpMont => p
  | .qsquare | .qsR3m | .qsR1m => q ^ 2
  | .psquare | .psR3m | .psR1m => p ^ 2

/-- The words of the modulus of a slot when `n` has `K` bits and its primes half of them. -/
def nominalSize (K : ℕ) : Slot → ℕ
  | .n => K / 64
  | .nsquare | .nsR2m | .nsR1m => 2 * K / 64
  | .q | .p | .qR2m | .pR2m | .pInverseMont | .hqMont | .hpMont => K / 128
  | .qsquare | .psquare | .qsR3m | .psR3m | .qsR1m | .psR1m => K / 64

/-- The congruence whose least solution a residue slot holds. -/
def SolvesSlot (p q K : ℕ) (s : ℤ) : Slot → Prop
  | .nsR2m => s ≡ 2 ^ (4 * K) [ZMOD ((p : ℤ) * q) ^ 2]
  | .nsR1m => s ≡ 2 ^ (2 * K) [ZMOD ((p : ℤ) * q) ^ 2]
  | .qR2m => s ≡ 2 ^ K [ZMOD q]
  | .pR2m => s ≡ 2 ^ K [ZMOD p]
  | .qsR3m => s ≡ 2 ^ (3 * K) [ZMOD (q : ℤ) ^ 2]
  | .psR3m => s ≡ 2 ^ (3 * K) [ZMOD (p : ℤ) ^ 2]
  | .qsR1m => s ≡ 2 ^ K [ZMOD (q : ℤ) ^ 2]
  | .psR1m => s ≡ 2 ^ K [ZMOD (p : ℤ) ^ 2]
  | .pInverseMont => p * s ≡ 2 ^ (K / 2) [ZMOD q]
  | .hqMont => p * s ≡ -2 ^ (K / 2) [ZMOD q]
  | .hpMont => q * s ≡ -2 ^ (K / 2) [ZMOD p]
  -- the moduli
  | .n | .nsquare | .q | .p | .qsquare | .psquare => False

/-- No number of fewer words than the modulus solves the congruence of a residue slot. -/
def NoShortSolution (p q K : ℕ) : Prop :=
  ∀ slot, ∀ s : ℕ, SolvesSlot p q K s slot → 2 ^ (64 * (nominalSize K slot - 1)) ≤ s

/-! ## Least solutions -/

theorem forall_le_iff_le_emod {m x : ℤ} (hm : 0 < m) (B : ℕ) :
    (∀ s : ℕ, s ≡ x [ZMOD m] → B ≤ s) ↔ B ≤ (x % m).natAbs := by
  have hnonneg := Int.emod_nonneg x hm.ne'
  constructor
  · intro h
    apply h
    rw [Int.natAbs_of_nonneg hnonneg]
    exact Int.mod_modEq x m
  · intro h s hs
    have hsplit := Int.mul_ediv_add_emod s m
    have hquot := mul_nonneg hm.le (Int.ediv_nonneg (Int.natCast_nonneg s) hm.le)
    rw [hs.eq] at hsplit
    omega

/-- A factor with an inverse can be moved to the other side. -/
theorem mul_modEq_iff {a i m s b : ℤ} (h : a * i ≡ 1 [ZMOD m]) :
    a * s ≡ b [ZMOD m] ↔ s ≡ i * b [ZMOD m] := by
  constructor
  · intro hs
    calc s = 1 * s := (one_mul s).symm
      _ ≡ a * i * s [ZMOD m] := h.symm.mul_right s
      _ = i * (a * s) := by ring
      _ ≡ i * b [ZMOD m] := hs.mul_left i
  · intro hs
    calc a * s ≡ a * (i * b) [ZMOD m] := hs.mul_left a
      _ = a * i * b := by ring
      _ ≡ 1 * b [ZMOD m] := h.mul_right b
      _ = b := one_mul b

/-! ## The parameters against their moduli -/

/-- The number of words of a power, from the bits of its base. -/
theorem pow_bounds_of_size {x b : ℕ} (hx : x.size = b) (hb : 0 < b) {k W : ℕ} (hk : k ≠ 0)
    (hlo : 64 * (W - 1) ≤ (b - 1) * k) (hhi : b * k ≤ 64 * W) :
    2 ^ (64 * (W - 1)) ≤ x ^ k ∧ x ^ k < 2 ^ (64 * W) := by
  obtain ⟨hle, hlt⟩ := (size_eq_iff hb).mp hx
  constructor
  · calc 2 ^ (64 * (W - 1)) ≤ 2 ^ ((b - 1) * k) := Nat.pow_le_pow_right (by norm_num) hlo
      _ = (2 ^ (b - 1)) ^ k := pow_mul _ _ _
      _ ≤ x ^ k := Nat.pow_le_pow_left hle k
  · calc x ^ k < (2 ^ b) ^ k := Nat.pow_lt_pow_left hlt hk
      _ = 2 ^ (b * k) := (pow_mul _ _ _).symm
      _ ≤ 2 ^ (64 * W) := Nat.pow_le_pow_right (by norm_num) hhi

namespace Key

variable (key : Key)

/-- `n` has `K` bits, a multiple of 128, and its primes have half of them. -/
structure HasSize (K : ℕ) : Prop where
  dvd : 128 ∣ K
  n : (key.p * key.q).size = K
  p : key.p.size = K / 2
  q : key.q.size = K / 2

variable {key} {K : ℕ}

theorem HasSize.pos (h : key.HasSize K) : 0 < K := by
  rw [← h.n]
  exact Nat.size_pos.mpr (Nat.mul_pos key.p_prime.pos key.q_prime.pos)

theorem HasSize.nominalSize_pos (h : key.HasSize K) (slot : Slot) : 0 < nominalSize K slot := by
  have hdvd := h.dvd
  have hpos := h.pos
  cases slot
  all_goals simp only [nominalSize]
  all_goals omega

/-- The moduli have the nominal sizes. -/
theorem HasSize.modulus_bounds (h : key.HasSize K) (slot : Slot) :
    2 ^ (64 * (nominalSize K slot - 1)) ≤ slotModulus key.p key.q slot ∧
      slotModulus key.p key.q slot < 2 ^ (64 * nominalSize K slot) := by
  have hdvd := h.dvd
  have hpos := h.pos
  have hhalf : 0 < K / 2 := by omega
  cases slot
  all_goals simp only [nominalSize, slotModulus]
  case n =>
    simpa only [pow_one] using
      pow_bounds_of_size (W := K / 64) h.n hpos one_ne_zero (by omega) (by omega)
  case nsquare | nsR2m | nsR1m =>
    exact pow_bounds_of_size h.n hpos two_ne_zero (by omega) (by omega)
  case q | qR2m | pInverseMont | hqMont =>
    simpa only [pow_one] using
      pow_bounds_of_size (W := K / 128) h.q hhalf one_ne_zero (by omega) (by omega)
  case p | pR2m | hpMont =>
    simpa only [pow_one] using
      pow_bounds_of_size (W := K / 128) h.p hhalf one_ne_zero (by omega) (by omega)
  case qsquare | qsR3m | qsR1m =>
    exact pow_bounds_of_size h.q hhalf two_ne_zero (by omega) (by omega)
  case psquare | psR3m | psR1m =>
    exact pow_bounds_of_size h.p hhalf two_ne_zero (by omega) (by omega)

theorem param_le_slotModulus (key : Key) (slot : Slot) :
    key.param slot ≤ slotModulus key.p key.q slot := by
  have hp : (0 : ℤ) < key.p := by exact_mod_cast key.p_prime.pos
  have hq : (0 : ℤ) < key.q := by exact_mod_cast key.q_prime.pos
  cases slot
  all_goals
    simp only [param, slotModulus]
    push_cast
  case n | nsquare | q | p | qsquare | psquare => exact le_rfl
  all_goals exact (Int.emod_lt_of_pos _ (by positivity)).le

theorem mul_neg_hq_modEq (key : Key) : (key.p : ℤ) * -key.obj.hq ≡ 1 [ZMOD key.q] := by
  rw [mul_neg, ← neg_neg (1 : ℤ)]
  exact key.hq_modEq.neg

theorem mul_neg_hp_modEq (key : Key) : (key.q : ℤ) * -key.obj.hp ≡ 1 [ZMOD key.p] := by
  rw [mul_neg, ← neg_neg (1 : ℤ)]
  exact key.hp_modEq.neg

/-- A residue slot holds the least solution of its congruence. -/
theorem HasSize.forall_le_iff (h : key.HasSize K) (slot : Slot) :
    (∀ s : ℕ, SolvesSlot key.p key.q K s slot → 2 ^ (64 * (nominalSize K slot - 1)) ≤ s) ↔
      2 ^ (64 * (nominalSize K slot - 1)) ≤ (key.param slot).natAbs := by
  have hp : (0 : ℤ) < key.p := by exact_mod_cast key.p_prime.pos
  have hq : (0 : ℤ) < key.q := by exact_mod_cast key.q_prime.pos
  have hdvd := h.dvd
  have htwo : 2 * (K / 2) = K := by omega
  have hsix : 6 * (K / 2) = 3 * K := by omega
  cases slot
  case n | nsquare | q | p | qsquare | psquare =>
    refine iff_of_true (fun s hs => hs.elim) ?_
    unfold param
    exact_mod_cast (h.modulus_bounds _).1
  all_goals simp only [SolvesSlot, param, h.n, h.p, h.q, htwo, hsix]
  case pInverseMont =>
    simp only [mul_modEq_iff key.pInverse_spec.2.2]
    exact forall_le_iff_le_emod hq _
  case hqMont =>
    simp only [mul_modEq_iff key.mul_neg_hq_modEq, neg_mul_neg]
    exact forall_le_iff_le_emod hq _
  case hpMont =>
    simp only [mul_modEq_iff key.mul_neg_hp_modEq, neg_mul_neg]
    exact forall_le_iff_le_emod hp _
  all_goals exact forall_le_iff_le_emod (by positivity) _

theorem HasSize.size_param_iff (h : key.HasSize K) (slot : Slot) :
    Words.size 64 (key.param slot).natAbs = nominalSize K slot ↔
      2 ^ (64 * (nominalSize K slot - 1)) ≤ (key.param slot).natAbs := by
  have hle := key.param_le_slotModulus slot
  have hlt := (h.modulus_bounds slot).2
  have hnonneg := key.param_nonneg slot
  rw [Words.size_eq_iff (by norm_num) (h.nominalSize_pos slot), and_iff_left]
  omega

end Key

/-! ## The assertions -/

section
variable {cfg : Config} {key : Paillier}

theorem storeTarget_tWord_ne (name : TWord) (dst : ℕ → Word) :
    Paillier.storeTarget cfg key dst (.tWord name) ≠ .error .assertion := by
  simp only [Paillier.storeTarget, generateT]
  split_ifs
  all_goals
    intro h
    cases h

theorem loadParam_eq_error_iff {dst : ℕ → Word} {e : Fault} :
    Paillier.loadParam cfg key dst = .error e ↔
      Paillier.loadOrder.foldlM (Paillier.storeTarget cfg key) dst = .error e := by
  cases hfold : Paillier.loadOrder.foldlM (Paillier.storeTarget cfg key) dst with
  | error e' => simp only [Paillier.loadParam, hfold, bind, Except.bind, Except.error.injEq]
  | ok d =>
    simp only [Paillier.loadParam, hfold, bind, Except.bind]
    refine iff_of_false (fun h => ?_) (fun h => ?_)
    all_goals cases h

end

/-- The slots are written before the words of `generate_t`. -/
theorem slot_mem_take (slot : Slot) : .slot slot ∈ Paillier.loadOrder.take 17 := by
  cases slot <;> decide

theorem eq_slot_of_mem_take {a : Target} (ha : a ∈ Paillier.loadOrder.take 17) :
    ∃ slot, a = .slot slot := by
  cases a with
  | slot s => exact ⟨s, rfl⟩
  | tWord name =>
    have hnot : .tWord name ∉ Paillier.loadOrder.take 17 := by cases name <;> decide
    exact absurd ha hnot

/-- `load_param` stops at an assertion exactly if a parameter does not have its declared size. -/
theorem loadParam_assertion_iff (cfg : Config) (key : Key) (dst : ℕ → Word) :
    Paillier.loadParam cfg key.obj dst = .error .assertion ↔
      ∃ slot, Words.size 64 (key.param slot).natAbs ≠ cfg.size slot := by
  rw [loadParam_eq_error_iff]
  constructor
  · intro h
    by_contra hex
    have hall : ∀ s, Words.size 64 (key.param s).natAbs = cfg.size s :=
      fun s => not_not.mp fun hne => hex ⟨s, hne⟩
    refine Windows.foldlM_ne_error (fun d a _ => ?_) dst h
    cases a with
    | slot s =>
      rw [storeTarget_slot_of_eq (key.paramValue_eq s) (hall s)]
      intro he
      cases he
    | tWord name => exact storeTarget_tWord_ne name d
  · rintro ⟨slot, hslot⟩
    rw [← List.take_append_drop 17 Paillier.loadOrder]
    refine Windows.foldlM_eq_error (fun d a ha => ?_)
      ⟨.slot slot, slot_mem_take slot, storeTarget_slot_of_ne (key.paramValue_eq slot) hslot⟩ _ dst
    obtain ⟨s, rfl⟩ := eq_slot_of_mem_take ha
    by_cases hs : Words.size 64 (key.param s).natAbs = cfg.size s
    · exact Or.inl ⟨_, storeTarget_slot_of_eq (key.paramValue_eq s) hs d⟩
    · exact Or.inr (storeTarget_slot_of_ne (key.paramValue_eq s) hs d)

/-- **When a key passes the assertions.** -/
theorem loadParam_asserts_iff {cfg : Config} {key : Key} {K : ℕ} (hsize : key.HasSize K)
    (hcfg : ∀ slot, cfg.size slot = nominalSize K slot) :
    ((∀ slot dst, ∃ v dst', key.obj.paramValue slot = .ok v ∧
        (mpzExport dst (cfg.addr slot) v).2 = nominalSize K slot ∧
        Paillier.paramExport cfg dst v slot = .ok dst') ↔ NoShortSolution key.p key.q K) ∧
    ∀ dst, Paillier.loadParam cfg key.obj dst ≠ .error .assertion ↔
      NoShortSolution key.p key.q K := by
  have hcond : NoShortSolution key.p key.q K ↔
      ∀ slot, Words.size 64 (key.param slot).natAbs = nominalSize K slot := by
    apply forall_congr'
    intro slot
    rw [hsize.forall_le_iff, hsize.size_param_iff]
  rw [hcond]
  refine ⟨⟨fun h slot => ?_, fun h slot dst => ?_⟩, fun dst => ?_⟩
  · obtain ⟨v, -, hv, hwords, -⟩ := h slot fun _ => 0
    obtain rfl := Except.ok.inj ((key.paramValue_eq slot).symm.trans hv)
    exact hwords
  · refine ⟨key.param slot, Words.storeAt dst (cfg.addr slot) (key.param slot).natAbs,
      key.paramValue_eq slot, h slot, ?_⟩
    rw [paramExport_eq, if_pos ((h slot).trans (hcfg slot).symm)]
  · rw [Ne, loadParam_assertion_iff]
    simp only [hcfg, not_exists, not_not]

/-! ## Two keys of 128 bits -/

theorem fullKey_q_prime : Nat.Prime 16000000000000000001 := by
  apply prime_of_lucas [2, 5] 22 3
  · norm_num
  · norm_num
  · norm_num
    reduce_mod_char
  · simp only [List.forall_mem_cons, List.not_mem_nil]
    norm_num
    refine ⟨?_, ?_⟩
    all_goals
      reduce_mod_char
      decide

/-- A key without a short residue. -/
def fullKey : Key :=
  PrimePair.key ⟨15252032774857555969, 16000000000000000001, largeKey_p_prime, fullKey_q_prime,
    by decide⟩ 128

theorem fullKey_hasSize : fullKey.HasSize 128 where
  dvd := by decide
  n := (size_eq_iff (by decide)).mpr (by decide)
  p := (size_eq_iff (by decide)).mpr (by decide)
  q := (size_eq_iff (by decide)).mpr (by decide)

theorem largeKey_hasSize : largeKey.HasSize 128 where
  dvd := by decide
  n := (size_eq_iff (by decide)).mpr (by decide)
  p := (size_eq_iff (by decide)).mpr (by decide)
  q := (size_eq_iff (by decide)).mpr (by decide)

/-- Slots of four words, with the nominal sizes of a 128-bit key. -/
def wideConfig : Config where
  addr slot := 4 * Paillier.loadOrder.idxOf (.slot slot)
  size := nominalSize 128
  tAddr name := 4 * Paillier.loadOrder.idxOf (.tWord name)
  radix := 16

theorem fullKey_noShortSolution : NoShortSolution fullKey.p fullKey.q 128 := by
  intro slot
  rw [fullKey_hasSize.forall_le_iff]
  have hpos := (fullKey.param_bounds (by decide) slot).1
  cases slot
  case q | p | qR2m | pR2m | pInverseMont | hqMont | hpMont =>
    have hone : 2 ^ (64 * (128 / 128 - 1)) = 1 := by decide
    simp only [nominalSize, hone]
    omega
  case n | nsquare | nsR2m | nsR1m =>
    simp only [Key.param, nominalSize, fullKey_hasSize.n]
    decide +kernel
  all_goals
    simp only [Key.param, nominalSize, fullKey_hasSize.p, fullKey_hasSize.q]
    decide +kernel

theorem loadParam_asserts_iff_fullKey :
    (∀ slot dst, ∃ v dst', fullKey.obj.paramValue slot = .ok v ∧
      (mpzExport dst (wideConfig.addr slot) v).2 = nominalSize 128 slot ∧
      Paillier.paramExport wideConfig dst v slot = .ok dst') ∧
    ∀ dst, Paillier.loadParam wideConfig fullKey.obj dst ≠ .error .assertion := by
  have hcfg : ∀ slot, wideConfig.size slot = nominalSize 128 slot := fun _ => rfl
  obtain ⟨hexports, hloads⟩ := loadParam_asserts_iff fullKey_hasSize hcfg
  exact ⟨hexports.mpr fullKey_noShortSolution,
    fun dst => (hloads dst).mpr fullKey_noShortSolution⟩

/-- `NS_R1M` of this key is below `2 ^ 192`: `mpz_export` writes three words of its four. -/
theorem largeKey_asserts :
    Paillier.keyGen 128 [⟨15252032774857555968, by decide⟩, ⟨15775993450830471850, by decide⟩] =
      some (.ok largeKey.obj) ∧ largeKey.HasSize 128 ∧
    nominalSize 128 .nsR1m = 4 ∧ ∃ v, largeKey.obj.paramValue .nsR1m = .ok v ∧
      ∀ cfg : Config, (∀ slot, cfg.size slot = nominalSize 128 slot) → ∀ dst,
        (mpzExport dst (cfg.addr .nsR1m) v).2 = 3 ∧
        Paillier.paramExport cfg dst v .nsR1m = .error .assertion ∧
        Paillier.loadParam cfg largeKey.obj dst = .error .assertion := by
  have hwords : Words.size 64 (largeKey.param .nsR1m).natAbs = 3 := by
    simp only [Key.param, largeKey_hasSize.n]
    exact (Words.size_eq_iff (by decide) (by decide)).mpr (by decide)
  refine ⟨keyGen_largeKey, largeKey_hasSize, rfl, _, largeKey.paramValue_eq .nsR1m,
    fun cfg hcfg dst => ?_⟩
  have hne : Words.size 64 (largeKey.param .nsR1m).natAbs ≠ cfg.size .nsR1m := by
    rw [hwords, hcfg]
    decide
  refine ⟨hwords, ?_, (loadParam_assertion_iff cfg largeKey dst).mpr ⟨.nsR1m, hne⟩⟩
  rw [paramExport_eq, if_neg hne]

end HardApi
