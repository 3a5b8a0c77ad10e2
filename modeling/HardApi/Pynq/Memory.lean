import HardApi.Lib.Ownership
import Mathlib.Data.Finset.Union
import Mathlib.Data.Set.Pairwise.Lattice
import Mathlib.Order.Interval.Finset.Nat
import Mathlib.Tactic.Linarith

/-!
# Shared memory

The contiguous memory allocator (`cma`) hands out runs of physical pages. It is not in the
repository: an answer of `cma_alloc` is an input of the model, `none` for `NULL`, and
`Cma.Grants` is what is promised of a region it returns. The state of the allocator is a family of
disjoint regions by construction.

`PYNQ_allocatedSharedMemory` has three ends, the plain path, the path that resets the link and the
error paths; `allocatedSharedMemory_cases` says what each leaves.
-/

namespace HardApi

/-- A run of physical pages. -/
structure Region where
  first : ℕ
  count : ℕ
  deriving DecidableEq, Repr

namespace Region

def pages (r : Region) : Finset ℕ := Finset.Ico r.first (r.first + r.count)

@[simp] theorem card_pages (r : Region) : r.pages.card = r.count := by
  simp [pages]

theorem first_mem_pages {r : Region} (h : 0 < r.count) : r.first ∈ r.pages := by
  simp [pages, h]

end Region

/-- The board as the host sees it. Physical addresses have 32 bits, a page divides the 64 KiB at
whose multiples the cores are mapped, and where they are mapped there is no memory. -/
structure Platform where
  pageSize : ℕ
  pool : Finset ℕ
  eight_dvd : 8 ∣ pageSize
  pageSize_dvd : pageSize ∣ 2 ^ 16
  pool_lt : ∀ page ∈ pool, page * pageSize < 2 ^ 32
  core_notMem : 0x80000000 / pageSize ∉ pool

variable {plat : Platform}

theorem Platform.pageSize_pos (plat : Platform) : 0 < plat.pageSize :=
  Nat.pos_of_dvd_of_pos plat.pageSize_dvd (by norm_num)

/-- The pool has fewer bytes than there are addresses. -/
theorem Platform.pool_bytes_lt (plat : Platform) : plat.pageSize * plat.pool.card < 2 ^ 32 := by
  obtain ⟨pages, hpages⟩ : plat.pageSize ∣ 2 ^ 32 := plat.pageSize_dvd.trans (by norm_num)
  have hlt : ∀ page, page * plat.pageSize < 2 ^ 32 → page < pages := by
    intro page hpage
    rw [hpages, Nat.mul_comm] at hpage
    exact Nat.lt_of_mul_lt_mul_left hpage
  have hsub : plat.pool ⊂ Finset.range pages := by
    refine ⟨fun page hpage => Finset.mem_range.mpr (hlt page (plat.pool_lt page hpage)), ?_⟩
    intro hall
    have hcore : 0x80000000 / plat.pageSize < pages :=
      hlt _ ((Nat.div_mul_le_self _ _).trans_lt (by norm_num))
    exact plat.core_notMem (hall (Finset.mem_range.mpr hcore))
  have hcard := Finset.card_lt_card hsub
  rw [Finset.card_range] at hcard
  rw [hpages]
  exact Nat.mul_lt_mul_of_pos_left hcard plat.pageSize_pos

/-- The state of the allocator. -/
structure Cma (plat : Platform) where
  allocs : Finset Region
  count_pos : ∀ r ∈ allocs, 0 < r.count
  inside : ∀ r ∈ allocs, r.pages ⊆ plat.pool
  disjoint : (allocs : Set Region).PairwiseDisjoint Region.pages

namespace Cma

variable (cma : Cma plat)

def freePages : Finset ℕ := plat.pool \ cma.allocs.biUnion Region.pages

/-- `cma_pages_available`. -/
def pagesAvailable : ℕ := cma.freePages.card

/-- `page_size*cma_pages_available()`, a product of 32-bit words. -/
def freeBytes : ℕ := plat.pageSize * cma.pagesAvailable % 2 ^ 32

/-- What `cma_alloc` promises of a region it returns for `length` bytes. -/
structure Grants (length : ℕ) (r : Region) : Prop where
  count_pos : 0 < r.count
  fits : length ≤ r.count * plat.pageSize
  free : r.pages ⊆ cma.freePages

instance (length : ℕ) (r : Region) : Decidable (cma.Grants length r) :=
  decidable_of_iff (0 < r.count ∧ length ≤ r.count * plat.pageSize ∧ r.pages ⊆ cma.freePages)
    ⟨fun h => ⟨h.1, h.2.1, h.2.2⟩, fun h => ⟨h.1, h.2, h.3⟩⟩

variable {cma} {length : ℕ} {r r' : Region}

/-- The product does not wrap around. -/
theorem freeBytes_eq : cma.freeBytes = plat.pageSize * cma.pagesAvailable := by
  have hcard : cma.pagesAvailable ≤ plat.pool.card := Finset.card_le_card Finset.sdiff_subset
  exact Nat.mod_eq_of_lt ((Nat.mul_le_mul_left _ hcard).trans_lt plat.pool_bytes_lt)

theorem Grants.inside (h : cma.Grants length r) : r.pages ⊆ plat.pool :=
  h.free.trans Finset.sdiff_subset

theorem Grants.disjoint (h : cma.Grants length r) (hr' : r' ∈ cma.allocs) :
    Disjoint r.pages r'.pages := by
  rw [Finset.disjoint_left]
  intro page hpage hpage'
  have hfree := h.free hpage
  rw [freePages, Finset.mem_sdiff] at hfree
  exact hfree.2 (Finset.mem_biUnion.mpr ⟨r', hr', hpage'⟩)

theorem Grants.notMem (h : cma.Grants length r) : r ∉ cma.allocs := by
  intro hr
  have hfirst := Region.first_mem_pages h.count_pos
  exact Finset.disjoint_left.mp (h.disjoint hr) hfirst hfirst

/-- The allocator after handing out `r`. -/
def mark (cma : Cma plat) (r : Region) (h : cma.Grants length r) : Cma plat where
  allocs := insert r cma.allocs
  count_pos r' hr' := by
    rcases Finset.mem_insert.mp hr' with rfl | hr'
    · exact h.count_pos
    · exact cma.count_pos r' hr'
  inside r' hr' := by
    rcases Finset.mem_insert.mp hr' with rfl | hr'
    · exact h.inside
    · exact cma.inside r' hr'
  disjoint := by
    rw [Finset.coe_insert]
    exact cma.disjoint.insert fun r' hr' _ => h.disjoint hr'

@[simp] theorem mark_allocs (h : cma.Grants length r) :
    (cma.mark r h).allocs = insert r cma.allocs := rfl

/-- `cma'` is the allocator after handing out `r` for `length` bytes. -/
def HandsOut (cma : Cma plat) (length : ℕ) (r : Region) (cma' : Cma plat) : Prop :=
  ∃ h : cma.Grants length r, cma' = cma.mark r h

variable {cma' : Cma plat}

theorem HandsOut.allocs (h : cma.HandsOut length r cma') : cma'.allocs = insert r cma.allocs := by
  obtain ⟨hr, rfl⟩ := h
  rfl

theorem HandsOut.notMem (h : cma.HandsOut length r cma') : r ∉ cma.allocs := h.1.notMem

theorem HandsOut.pagesAvailable (h : cma.HandsOut length r cma') :
    cma'.pagesAvailable = cma.pagesAvailable - r.count := by
  obtain ⟨hr, rfl⟩ := h
  have hfree : (cma.mark r hr).freePages = cma.freePages \ r.pages := by
    rw [freePages, freePages, mark_allocs, Finset.biUnion_insert, Finset.sdiff_sdiff_left',
      Finset.union_comm, Finset.sdiff_union_distrib]
  rw [Cma.pagesAvailable, hfree, Finset.card_sdiff_of_subset hr.free, Region.card_pages,
    Cma.pagesAvailable]

/-- `cma_free`: the region that starts at the pointer, if there is one. -/
def cmaFree (cma : Cma plat) (pointer : Option ℕ) : Cma plat where
  allocs := cma.allocs.filter fun r => some r.first ≠ pointer
  count_pos r hr := cma.count_pos r (Finset.mem_of_mem_filter r hr)
  inside r hr := cma.inside r (Finset.mem_of_mem_filter r hr)
  disjoint := cma.disjoint.subset (Finset.coe_subset.mpr (Finset.filter_subset _ _))

/-- The start of a region determines it. -/
theorem eq_of_first_eq (hr : r ∈ cma.allocs) (hr' : r' ∈ cma.allocs) (h : r.first = r'.first) :
    r = r' := by
  by_contra hne
  have hdisj := cma.disjoint hr hr' hne
  have hfirst := Region.first_mem_pages (cma.count_pos r' hr')
  refine Finset.disjoint_left.mp hdisj ?_ hfirst
  rw [← h]
  exact Region.first_mem_pages (cma.count_pos r hr)

theorem cmaFree_allocs (hr : r ∈ cma.allocs) :
    (cma.cmaFree (some r.first)).allocs = cma.allocs.erase r := by
  ext r'
  simp only [cmaFree, Finset.mem_filter, Finset.mem_erase, ne_eq, Option.some.injEq]
  constructor
  · rintro ⟨hr', hne⟩
    exact ⟨fun heq => hne (heq ▸ rfl), hr'⟩
  · rintro ⟨hne, hr'⟩
    exact ⟨hr', fun heq => hne (eq_of_first_eq hr' hr heq)⟩

/-- Nothing is allocated. -/
def empty : Cma plat where
  allocs := ∅
  count_pos := by simp
  inside := by simp
  disjoint := by simp

/-- `_xlnk_reset`: every allocation is released, whoever made it. -/
def xlnkReset (_ : Cma plat) : Cma plat := empty

@[simp] theorem xlnkReset_allocs : cma.xlnkReset.allocs = ∅ := rfl

theorem pagesAvailable_xlnkReset : cma.xlnkReset.pagesAvailable = plat.pool.card := by
  simp [pagesAvailable, freePages]

end Cma

/-! ## `PYNQ_SHARED_MEMORY` -/

/-- `PYNQ_SHARED_MEMORY`; a pointer is the page it points to. -/
structure SharedMemory (plat : Platform) where
  pointer : Option ℕ
  physicalAddress : ℕ
  physicalAddress_lt : physicalAddress < 2 ^ 32
  coherent : ∀ page, pointer = some page → physicalAddress = page * plat.pageSize

namespace SharedMemory

/-- `new PYNQ_SHARED_MEMORY()`. -/
def new : SharedMemory plat := ⟨none, 0, by norm_num, by simp⟩

def setNull (state : SharedMemory plat) : SharedMemory plat :=
  ⟨none, state.physicalAddress, state.physicalAddress_lt, by simp⟩

/-- `pointer` and `cma_get_phy_addr (pointer)` for a region of the pool. -/
def ofRegion (r : Region) (hpos : 0 < r.count) (hpool : r.pages ⊆ plat.pool) :
    SharedMemory plat where
  pointer := some r.first
  physicalAddress := r.first * plat.pageSize
  physicalAddress_lt := plat.pool_lt r.first (hpool (Region.first_mem_pages hpos))
  coherent := by simp

end SharedMemory

/-- The end of `PYNQ_allocatedSharedMemory`, from `cma_alloc` on. -/
def cmaAlloc (cma : Cma plat) (state : SharedMemory plat) (length : ℕ) :
    Option Region → Option (Cma plat × SharedMemory plat × Bool)
  | none => some (cma, state.setNull, false)
  | some r =>
    if h : cma.Grants length r then
      some (cma.mark r h, .ofRegion r h.count_pos h.inside, true)
    else none

/-- `PYNQ_allocatedSharedMemory`: the allocator, the handle and the return code; `none` when the
allocator cannot give this answer. -/
def allocatedSharedMemory (cma : Cma plat) (state : SharedMemory plat) (length : ℕ)
    (allowReset : Bool) (answer : Option Region) :
    Option (Cma plat × SharedMemory plat × Bool) :=
  if cma.freeBytes ≤ length then
    let cma := if allowReset then cma.xlnkReset else cma
    if cma.freeBytes ≤ length then some (cma, state, false)
    else cmaAlloc cma state length answer
  else cmaAlloc cma state length answer

namespace Cma

variable (cma : Cma plat) (length : ℕ)

/-- More than the request is free, so that the plain path is taken. -/
def Roomy : Prop := length < plat.pageSize * cma.pagesAvailable

instance : Decidable (cma.Roomy length) := inferInstanceAs (Decidable (_ < _))

/-- The allocator that `cma_alloc` is asked, after the reset if there is one. -/
def base : Cma plat := if cma.Roomy length then cma else cma.xlnkReset

variable {cma length}

theorem base_of_roomy (h : cma.Roomy length) : cma.base length = cma := if_pos h

theorem base_of_not_roomy (h : ¬ cma.Roomy length) : cma.base length = cma.xlnkReset := if_neg h

end Cma

variable {cma cma' : Cma plat} {state state' : SharedMemory plat} {length : ℕ} {ok : Bool}
  {answer : Option Region}

theorem cmaAlloc_cases (h : cmaAlloc cma state length answer = some (cma', state', ok)) :
    (∃ r, cma.HandsOut length r cma' ∧ answer = some r ∧ state'.pointer = some r.first) ∨
    (answer = none ∧ cma' = cma ∧ state'.pointer = none) := by
  cases answer with
  | none =>
    simp only [cmaAlloc, Option.some.injEq, Prod.mk.injEq] at h
    obtain ⟨rfl, rfl, -⟩ := h
    exact Or.inr ⟨rfl, rfl, rfl⟩
  | some r =>
    by_cases hr : cma.Grants length r
    · simp only [cmaAlloc, dif_pos hr, Option.some.injEq, Prod.mk.injEq] at h
      obtain ⟨rfl, rfl, -⟩ := h
      exact Or.inl ⟨r, ⟨hr, rfl⟩, rfl, rfl⟩
    · simp [cmaAlloc, hr] at h

/-- The first test only decides whether the link is reset. -/
theorem allocatedSharedMemory_eq (cma : Cma plat) (state : SharedMemory plat) (length : ℕ)
    (answer : Option Region) :
    allocatedSharedMemory cma state length true answer =
      if (cma.base length).Roomy length then cmaAlloc (cma.base length) state length answer
      else some (cma.base length, state, false) := by
  unfold allocatedSharedMemory
  simp only [Cma.freeBytes_eq]
  by_cases hroom : cma.Roomy length
  · rw [if_neg (not_le.mpr hroom), Cma.base_of_roomy hroom, if_pos hroom]
  · rw [if_pos (not_lt.mp hroom), Cma.base_of_not_roomy hroom]
    by_cases hreset : cma.xlnkReset.Roomy length
    · simp only [if_true, if_neg (not_le.mpr hreset), if_pos hreset]
    · simp only [if_true, if_pos (not_lt.mp hreset), if_neg hreset]

/-- A request that may reset ends with a region of the allocator it asks last, or with an error
that leaves the pointer of a new handle `NULL`. -/
theorem allocatedSharedMemory_cases
    (h : allocatedSharedMemory cma .new length true answer = some (cma', state', ok)) :
    (∃ r, (cma.base length).HandsOut length r cma' ∧ (cma.base length).Roomy length ∧
      answer = some r ∧ state'.pointer = some r.first) ∨
    ((answer = none ∨ ¬ (cma.base length).Roomy length) ∧ cma' = cma.base length ∧
      state'.pointer = none) := by
  rw [allocatedSharedMemory_eq] at h
  by_cases hroom : (cma.base length).Roomy length
  · rw [if_pos hroom] at h
    rcases cmaAlloc_cases h with ⟨r, hr, hans, hptr⟩ | ⟨hans, hcma, hptr⟩
    · exact Or.inl ⟨r, hr, hroom, hans, hptr⟩
    · exact Or.inr ⟨Or.inl hans, hcma, hptr⟩
  · rw [if_neg hroom] at h
    simp only [Option.some.injEq, Prod.mk.injEq] at h
    obtain ⟨rfl, rfl, -⟩ := h
    exact Or.inr ⟨Or.inr hroom, rfl, rfl⟩

end HardApi
