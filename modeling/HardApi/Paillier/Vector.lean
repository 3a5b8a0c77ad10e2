import HardApi.Paillier.Correctness
import HardApi.Lib.Fill

/-!
# The vector operations

`vector_mul` and `vector_decrypt` work on a range of indices, so that a caller can split a vector.
One call over a range inside the vector fills it (`vectorMul_fills`, `vectorDecrypt_fills`):
`vector_mul` reads its scalars at `i - startIndex`, which is right for a vector that begins at
`startIndex` of the whole one (`VectorArg.IsPart`), and `vector_decrypt` reads at `i`, from the
vector it writes if need be. By the rules of `Fill` the calls of a split fill the union of their
ranges (`vector_ranges`), so a ciphertext times a vector decrypts to the products on every range
that both operations were called on (`vectorMul_vectorDecrypt`).
-/

namespace HardApi

open Fill

/-- `[startIndex, endIndex)`. -/
structure IndexRange where
  startIndex : ℤ
  endIndex : ℤ

namespace IndexRange

variable {len : ℕ}

/-- The indices of the range in a vector of `len` elements. -/
def indices (len : ℕ) (range : IndexRange) : Set (Fin len) :=
  {i | range.startIndex ≤ i ∧ i < range.endIndex}

structure Inside (len : ℕ) (range : IndexRange) : Prop where
  start_nonneg : 0 ≤ range.startIndex
  end_le : range.endIndex ≤ len

/-- The indices of all the ranges. -/
def covered (len : ℕ) (ranges : List IndexRange) : Set (Fin len) :=
  {i | ∃ range ∈ ranges, i ∈ range.indices len}

end IndexRange

section
variable {len : ℕ}

/-- Element `k` of the argument is `m[startIndex + k]`, as far as the range goes. The vector that the
call writes can be the argument only at offset `0`. -/
def VectorArg.IsPart (res m : Fin len → ℤ) (range : IndexRange) : VectorArg len → Prop
  | .res => range.startIndex = 0 ∧ ∀ i ∈ range.indices len, res i = m i
  | .other v => ∀ k : ℕ, range.startIndex + k < range.endIndex →
      vectorAt v k = vectorAt m (range.startIndex + k)

/-- The elements of `m` from `startIndex` on. -/
def suffix (m : Fin len → ℤ) (startIndex : ℕ) : Fin (len - startIndex) → ℤ :=
  fun k => m ⟨startIndex + k, by omega⟩

/-! ## One element -/

theorem vectorAt_fin (v : Fin len → ℤ) (i : Fin len) : vectorAt v i = .ok (v i) := by
  have h : 0 ≤ (i : ℤ) ∧ (i : ℤ).toNat < len := by omega
  rw [vectorAt, dif_pos h]
  rfl

theorem vectorSet_fin (v : Fin len → ℤ) (i : Fin len) (x : ℤ) :
    vectorSet v i x = .ok (Function.update v i x) := by
  have h : 0 ≤ (i : ℤ) ∧ (i : ℤ).toNat < len := by omega
  rw [vectorSet, dif_pos h]
  rfl

/-- An argument sees only the element it is asked for. -/
theorem VectorArg.at_congr {res res' : Fin len → ℤ} {i : Fin len} (h : res' i = res i)
    (arg : VectorArg len) : arg.at res' i = arg.at res i := by
  cases arg with
  | res => rw [VectorArg.at, VectorArg.at, vectorAt_fin, vectorAt_fin, h]
  | other v => rfl

theorem VectorArg.IsPart.congr {res res' m : Fin len → ℤ} {range : IndexRange}
    {arg : VectorArg len} (h : arg.IsPart res m range)
    (hres : ∀ i ∈ range.indices len, res' i = res i) : arg.IsPart res' m range := by
  cases arg with
  | res => exact ⟨h.1, fun i hi => (hres i hi).trans (h.2 i hi)⟩
  | other v => exact h

/-- What `vector_mul` reads at `i - startIndex` is `m[i]`, when the iterations before have not
written element `i`. -/
theorem VectorArg.IsPart.at_eq {res res' m : Fin len → ℤ} {range : IndexRange}
    {arg : VectorArg len} (h : arg.IsPart res m range) {i : Fin len} (hi : i ∈ range.indices len)
    (hres : res' i = res i) : arg.at res' (i - range.startIndex) = .ok (m i) := by
  cases arg with
  | res => rw [h.1, sub_zero, VectorArg.at, vectorAt_fin, hres, h.2 i hi]
  | other v =>
    obtain ⟨hlo, hhi⟩ := hi
    obtain ⟨k, hk⟩ := Int.eq_ofNat_of_zero_le (sub_nonneg.mpr hlo)
    have hindex : range.startIndex + k = i := by omega
    have hpart := h k (by omega)
    rw [hindex, vectorAt_fin] at hpart
    rw [hk]
    exact hpart

theorem isPart_suffix {range : IndexRange} (hrange : range.Inside len) (res m : Fin len → ℤ) :
    (VectorArg.other (suffix m range.startIndex.toNat)).IsPart res m range := by
  intro k hk
  have hstart := hrange.start_nonneg
  have hend := hrange.end_le
  have hindex : range.startIndex + k = (range.startIndex.toNat + k : ℕ) := by omega
  have hlt : range.startIndex.toNat + k < len := by omega
  rw [hindex]
  exact (vectorAt_fin (suffix m range.startIndex.toNat) ⟨k, by omega⟩).trans
    (vectorAt_fin m ⟨range.startIndex.toNat + k, hlt⟩).symm

theorem mul_ne_undefined (mpz : MpzCmp) (key : Paillier) (c m : ℤ) :
    key.mul mpz c m ≠ .error .undefined := by
  unfold Paillier.mul
  dsimp only
  split_ifs
  · exact bind_ne_error (mpzInvert_ne_undefined _ _) fun _ => mpzPowm_ne_undefined _ _ _
  · exact mpzPowm_ne_undefined _ _ _

theorem decrypt_ne_undefined (key : Paillier) (c : ℤ) : key.decrypt c ≠ .error .undefined := by
  have hlFunc (x p : ℤ) : lFunc x p ≠ .error .undefined := mpzDivexact_ne_undefined _ _
  unfold Paillier.decrypt
  refine bind_ne_error (mpzPowm_ne_undefined _ _ _) fun pmp => ?_
  refine bind_ne_error (mpzPowm_ne_undefined _ _ _) fun pmq => ?_
  refine bind_ne_error (hlFunc _ _) fun lp => ?_
  refine bind_ne_error (hlFunc _ _) fun lq => ?_
  refine bind_ne_error (mpzTdivR_ne_undefined _ _) fun dep => ?_
  refine bind_ne_error (mpzTdivR_ne_undefined _ _) fun deq => ?_
  refine bind_ne_error (mpzTdivR_ne_undefined _ _) fun u h => ?_
  cases h

/-! ## One call -/

theorem indices_eq (range : IndexRange) : range.indices len =
    {i | ∃ j ∈ Int.range range.startIndex range.endIndex, i ∈ {k : Fin len | (k : ℤ) = j}} := by
  ext i
  constructor
  · intro hi
    exact ⟨i, Int.mem_range_iff.mpr hi, rfl⟩
  · rintro ⟨j, hj, rfl⟩
    exact Int.mem_range_iff.mp hj

theorem range_pairwise (a b : ℤ) : (Int.range a b).Pairwise fun i j =>
    Disjoint {k : Fin len | (k : ℤ) = i} {k : Fin len | (k : ℤ) = j} := by
  have hnodup : (Int.range a b).Nodup := List.nodup_range.map fun i j h => by simpa using h
  refine hnodup.imp fun {i j} hne => Set.disjoint_left.mpr ?_
  rintro k rfl hk
  exact hne hk

/-- A loop over a range inside the vector, of which iteration `i` writes `f i` to element `i`. -/
theorem fills_range {range : IndexRange} (hrange : range.Inside len) {f : Fin len → Except Fault ℤ}
    {body : (Fin len → ℤ) → ℤ → Except Fault (Fin len → ℤ)} {res : Fin len → ℤ}
    (hbody : ∀ i ∈ range.indices len, ∀ res', res' i = res i →
      body res' i = f i >>= fun x => .ok (Function.update res' i x)) :
    Fills ((Int.range range.startIndex range.endIndex).foldlM body res) (range.indices len) f
      res := by
  have hstart := hrange.start_nonneg
  have hend := hrange.end_le
  rw [indices_eq]
  apply fills_foldlM (range_pairwise _ _)
  intro j hj res' hres'
  have hindices := Int.mem_range_iff.mp hj
  obtain ⟨i, rfl⟩ : ∃ i : Fin len, (i : ℤ) = j :=
    ⟨⟨j.toNat, by omega⟩, Int.toNat_of_nonneg (by omega)⟩
  have hsingle : {k : Fin len | (k : ℤ) = i} = {i} := by
    ext k
    simp [Fin.ext_iff]
  rw [hsingle, hbody i hindices res' (hres' i rfl)]
  exact fills_update f res' i

theorem vectorMul_fills (mpz : MpzCmp) (key : Paillier) {range : IndexRange}
    (hrange : range.Inside len) {res m : Fin len → ℤ} (c : ℤ) {arg : VectorArg len}
    (harg : arg.IsPart res m range) :
    Fills (key.vectorMul mpz res c arg range.startIndex range.endIndex) (range.indices len)
      (fun i => key.mul mpz c (m i)) res := by
  unfold Paillier.vectorMul
  apply fills_range hrange
  intro i hi res' hres
  simp only [vectorAt_fin, vectorSet_fin, harg.at_eq hi hres, bind, Except.bind]

theorem vectorDecrypt_fills (key : Paillier) {range : IndexRange} (hrange : range.Inside len)
    {res cs : Fin len → ℤ} {c : VectorArg len}
    (hc : ∀ i ∈ range.indices len, c.at res i = .ok (cs i)) :
    Fills (key.vectorDecrypt res c range.startIndex range.endIndex) (range.indices len)
      (fun i => key.decrypt (cs i)) res := by
  unfold Paillier.vectorDecrypt
  apply fills_range hrange
  intro i hi res' hres
  simp only [vectorSet_fin, c.at_congr hres, hc i hi, bind, Except.bind]

/-! ## A split

The calls over the ranges of a list, in its order. `part range` is the scalar vector of the call
over `range`. -/

def Paillier.vectorMulRanges (mpz : MpzCmp) (key : Paillier) (res : Fin len → ℤ) (c : ℤ)
    (part : IndexRange → VectorArg len) (ranges : List IndexRange) :
    Except Fault (Fin len → ℤ) :=
  ranges.foldlM
    (fun res range => key.vectorMul mpz res c (part range) range.startIndex range.endIndex) res

def Paillier.vectorDecryptRanges (key : Paillier) (res : Fin len → ℤ) (c : VectorArg len)
    (ranges : List IndexRange) : Except Fault (Fin len → ℤ) :=
  ranges.foldlM (fun res range => key.vectorDecrypt res c range.startIndex range.endIndex) res

open IndexRange

variable {ranges : List IndexRange} (hinside : ∀ range ∈ ranges, range.Inside len)
  (hdisj : ranges.Pairwise fun r s => Disjoint (r.indices len) (s.indices len))

include hinside hdisj

theorem vectorMulRanges_fills (mpz : MpzCmp) (key : Paillier) {res m : Fin len → ℤ} (c : ℤ)
    {part : IndexRange → VectorArg len}
    (hpart : ∀ range ∈ ranges, (part range).IsPart res m range) :
    Fills (key.vectorMulRanges mpz res c part ranges) (covered len ranges)
      (fun i => key.mul mpz c (m i)) res := by
  apply fills_foldlM hdisj
  intro range hmem res' hres
  exact vectorMul_fills mpz key (hinside range hmem) c ((hpart range hmem).congr hres)

theorem vectorDecryptRanges_fills (key : Paillier) {res cs : Fin len → ℤ} {c : VectorArg len}
    (hc : ∀ i ∈ covered len ranges, c.at res i = .ok (cs i)) :
    Fills (key.vectorDecryptRanges res c ranges) (covered len ranges)
      (fun i => key.decrypt (cs i)) res := by
  apply fills_foldlM hdisj
  intro range hmem res' hres
  apply vectorDecrypt_fills key (hinside range hmem)
  intro i hi
  rw [c.at_congr (hres i hi)]
  exact hc i ⟨range, hmem, hi⟩

end

/-- **Range splitting.** The calls over disjoint ranges, in any order, fill the ranges, as one call
does when they make up one range. -/
theorem vector_ranges (mpz : MpzCmp) (key : Paillier) {len : ℕ} {ranges : List IndexRange}
    (hinside : ∀ range ∈ ranges, range.Inside len)
    (hdisj : ranges.Pairwise fun r s => Disjoint (r.indices len) (s.indices len))
    (res : Fin len → ℤ) :
    (∀ (c : ℤ) (m : Fin len → ℤ) (part : IndexRange → VectorArg len),
      (∀ range ∈ ranges, (part range).IsPart res m range) →
      (∀ res', key.vectorMulRanges mpz res c part ranges = .ok res' ↔
        Filled (IndexRange.covered len ranges) (fun i => key.mul mpz c (m i)) res res') ∧
      key.vectorMulRanges mpz res c part ranges ≠ .error .undefined ∧
      ∀ whole : IndexRange, whole.Inside len →
        whole.indices len = IndexRange.covered len ranges →
        ∀ arg : VectorArg len, arg.IsPart res m whole →
        ∀ res', key.vectorMulRanges mpz res c part ranges = .ok res' ↔
          key.vectorMul mpz res c arg whole.startIndex whole.endIndex = .ok res') ∧
    (∀ (cs : Fin len → ℤ) (c : VectorArg len), (∀ i : Fin len, c.at res i = .ok (cs i)) →
      (∀ res', key.vectorDecryptRanges res c ranges = .ok res' ↔
        Filled (IndexRange.covered len ranges) (fun i => key.decrypt (cs i)) res res') ∧
      key.vectorDecryptRanges res c ranges ≠ .error .undefined ∧
      ∀ whole : IndexRange, whole.Inside len →
        whole.indices len = IndexRange.covered len ranges →
        ∀ res', key.vectorDecryptRanges res c ranges = .ok res' ↔
          key.vectorDecrypt res c whole.startIndex whole.endIndex = .ok res') := by
  refine ⟨fun c m part hpart => ?_, fun cs c hc => ?_⟩
  · have hsplit := vectorMulRanges_fills hinside hdisj mpz key c hpart
    refine ⟨hsplit.ok_iff, hsplit.ne_error fun i _ => mul_ne_undefined mpz key c (m i), ?_⟩
    intro whole hwhole hcover arg harg res'
    have hcall := vectorMul_fills mpz key hwhole c harg
    rw [hcover] at hcall
    exact hsplit.ok_iff_ok hcall res'
  · have hsplit := vectorDecryptRanges_fills hinside hdisj key fun i _ => hc i
    refine ⟨hsplit.ok_iff, hsplit.ne_error fun i _ => decrypt_ne_undefined key (cs i), ?_⟩
    intro whole hwhole hcover res'
    have hcall := vectorDecrypt_fills key hwhole fun i _ => hc i
    rw [hcover] at hcall
    exact hsplit.ok_iff_ok hcall res'

/-- Three of four elements in two calls, the later one first. -/
theorem vector_ranges_smallKey :
    smallKey.obj.vectorMulRanges .sign ![0, 0, 0, 7] 2
        (fun range => .other (suffix ![1, 14, 3, 4] range.startIndex.toNat)) [⟨2, 3⟩, ⟨0, 2⟩] =
      .ok ![2, 113, 8, 7] ∧
    smallKey.obj.vectorDecryptRanges ![16, 31, 76, 7] .res [⟨2, 3⟩, ⟨0, 2⟩] =
      .ok ![1, 2, -10, 7] := by
  have hinside : ∀ range ∈ [⟨2, 3⟩, ⟨0, 2⟩], IndexRange.Inside 4 range := by
    intro range hmem
    rcases List.mem_pair.mp hmem with rfl | rfl <;> exact ⟨by norm_num, by norm_num⟩
  have hdisj : [(⟨2, 3⟩ : IndexRange), ⟨0, 2⟩].Pairwise
      fun r s => Disjoint (r.indices 4) (s.indices 4) := by
    rw [List.pairwise_pair, Set.disjoint_left]
    rintro i ⟨hlo, -⟩ ⟨-, hhi⟩
    exact absurd hlo (not_le.mpr hhi)
  have hcovered (i : Fin 4) : i ∈ IndexRange.covered 4 [⟨2, 3⟩, ⟨0, 2⟩] ↔ i.val < 3 := by
    simp only [IndexRange.covered, IndexRange.indices, List.mem_pair, exists_eq_or_imp,
      exists_eq_left, Set.mem_ofPred_eq]
    omega
  have hn : smallKey.obj.n = 15 := smallKey.obj_n
  have hnsquare : smallKey.obj.nsquare = 225 := smallKey.obj_nsquare
  obtain ⟨hmul, -⟩ := vector_ranges .sign smallKey.obj hinside hdisj ![0, 0, 0, 7]
  obtain ⟨-, hdecrypt⟩ := vector_ranges .sign smallKey.obj hinside hdisj ![16, 31, 76, 7]
  constructor
  · apply ((hmul 2 ![1, 14, 3, 4] _ fun range hmem => isPart_suffix (hinside range hmem) _ _).1
      ![2, 113, 8, 7]).mpr
    intro i
    simp only [hcovered, Paillier.mul, hn, hnsquare]
    revert i
    decide +kernel
  · have hnude (m : ℤ) : smallKey.obj.decrypt ((15 * m + 1) % 225) =
        .ok (if m % 3 ≤ m % 5 then m % 15 else m % 15 - 15) := by
      have h := decrypt_of_carries (nude_carries smallKey m)
      rw [hn, hnsquare] at h
      rw [h, Key.recombine, hn, smallKey.obj_p, smallKey.obj_q]
      rfl
    apply ((hdecrypt ![16, 31, 76, 7] .res (vectorAt_fin _)).1 ![1, 2, -10, 7]).mpr
    intro i
    rw [hcovered]
    fin_cases i
    · exact ⟨fun _ => hnude 1, fun h => absurd (by decide) h⟩
    · exact ⟨fun _ => hnude 2, fun h => absurd (by decide) h⟩
    · exact ⟨fun _ => hnude 5, fun h => absurd (by decide) h⟩
    · exact ⟨fun h => absurd h (by decide), fun _ => rfl⟩

/-! ## Vectors of ciphertexts -/

section
variable {key : Key} {len : ℕ} {ranges : List IndexRange}
  (hinside : ∀ range ∈ ranges, range.Inside len)
  (hdisj : ranges.Pairwise fun r s => Disjoint (r.indices len) (s.indices len))

include hinside hdisj

open IndexRange

theorem vectorMulRanges_carries (mpz : MpzCmp) {res m : Fin len → ℤ} {c v : ℤ}
    (hc : Carries key c v) {part : IndexRange → VectorArg len}
    (hpart : ∀ range ∈ ranges, (part range).IsPart res m range) :
    ∃ res', key.obj.vectorMulRanges mpz res c part ranges = .ok res' ∧
      (∀ i ∈ covered len ranges, Carries key (res' i) (v * m i)) ∧
      ∀ i ∉ covered len ranges, res' i = res i := by
  apply (vectorMulRanges_fills hinside hdisj mpz key.obj c hpart).post
    fun i d => Carries key d (v * m i)
  intro i _
  exact mul_carries mpz hc (m i)

theorem vectorDecryptRanges_carries {res cs v : Fin len → ℤ} {c : VectorArg len}
    (hat : ∀ i ∈ covered len ranges, c.at res i = .ok (cs i))
    (hcs : ∀ i ∈ covered len ranges, Carries key (cs i) (v i)) :
    ∃ res', key.obj.vectorDecryptRanges res c ranges = .ok res' ∧
      (∀ i ∈ covered len ranges, res' i = key.recombine (v i)) ∧
      ∀ i ∉ covered len ranges, res' i = res i := by
  apply (vectorDecryptRanges_fills hinside hdisj key.obj hat).post
    fun i x => x = key.recombine (v i)
  intro i hi
  exact ⟨_, decrypt_of_carries (hcs i hi), rfl⟩

end

/-- A ciphertext times a vector of scalars, decrypted in place: the two loops may be split in two
ways. -/
theorem vectorMul_vectorDecrypt (mpz : MpzCmp) {key : Key} {len : ℕ} {mulRanges decRanges}
    (hmul : ∀ range ∈ mulRanges, IndexRange.Inside len range)
    (hmulDisj : mulRanges.Pairwise fun r s => Disjoint (r.indices len) (s.indices len))
    (hdec : ∀ range ∈ decRanges, IndexRange.Inside len range)
    (hdecDisj : decRanges.Pairwise fun r s => Disjoint (r.indices len) (s.indices len))
    (hsub : IndexRange.covered len decRanges ⊆ IndexRange.covered len mulRanges)
    {res m : Fin len → ℤ} {c v : ℤ} (hc : Carries key c v) {part : IndexRange → VectorArg len}
    (hpart : ∀ range ∈ mulRanges, (part range).IsPart res m range) :
    ∃ cs res', key.obj.vectorMulRanges mpz res c part mulRanges = .ok cs ∧
      key.obj.vectorDecryptRanges cs .res decRanges = .ok res' ∧
      ∀ i ∈ IndexRange.covered len decRanges, res' i = key.recombine (v * m i) := by
  obtain ⟨cs, hcs, hcarries, -⟩ := vectorMulRanges_carries hmul hmulDisj mpz hc hpart
  have hat (i : Fin len) : VectorArg.res.at cs i = .ok (cs i) := vectorAt_fin cs i
  obtain ⟨res', hres', hvalue, -⟩ := vectorDecryptRanges_carries hdec hdecDisj
    (fun i _ => hat i) fun i hi => hcarries i (hsub hi)
  exact ⟨cs, res', hcs, hres', hvalue⟩

/-- Both loops in one call. -/
theorem vectorMul_vectorDecrypt_smallKey :
    ∃ cs res', smallKey.obj.vectorMulRanges .sign ![0, 0] 16
        (fun range => .other (suffix ![2, 3] range.startIndex.toNat)) [⟨0, 2⟩] = .ok cs ∧
      smallKey.obj.vectorDecryptRanges cs .res [⟨0, 2⟩] = .ok res' ∧ res' 1 = 3 := by
  have hn : smallKey.obj.n = 15 := smallKey.obj_n
  have hc : Carries smallKey 16 1 := by
    have h := nude_carries smallKey 1
    rw [hn, smallKey.obj_nsquare] at h
    exact h
  have hinside : ∀ range ∈ [⟨0, 2⟩], IndexRange.Inside 2 range := by
    intro range hmem
    rw [List.mem_singleton.mp hmem]
    exact ⟨by norm_num, by norm_num⟩
  have hdisj : [(⟨0, 2⟩ : IndexRange)].Pairwise
      fun r s => Disjoint (r.indices 2) (s.indices 2) := List.pairwise_singleton _ _
  have hpart : ∀ range ∈ [(⟨0, 2⟩ : IndexRange)],
      (VectorArg.other (suffix ![2, 3] range.startIndex.toNat)).IsPart ![0, 0] ![2, 3] range :=
    fun range hmem => isPart_suffix (hinside range hmem) _ _
  obtain ⟨cs, res', hcs, hres', hvalue⟩ := vectorMul_vectorDecrypt .sign hinside hdisj hinside
    hdisj subset_rfl hc hpart
  refine ⟨cs, res', hcs, hres', ?_⟩
  have hmem : (1 : Fin 2) ∈ IndexRange.covered 2 [⟨0, 2⟩] := by
    simp [IndexRange.covered, IndexRange.indices]
  rw [hvalue 1 hmem, Key.recombine, hn, smallKey.obj_p, smallKey.obj_q]
  rfl

end HardApi
