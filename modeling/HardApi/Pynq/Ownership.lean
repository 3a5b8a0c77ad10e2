import HardApi.Pynq.Calls

/-!
# Who owns the buffers

A constructor ignores the return codes of its three allocations and allows each of them to reset
the link, which releases every allocation of the board, its own earlier ones included. The buffers
of all live objects are allocated and pairwise disjoint (`World.Owned`) after a constructor exactly
when its three requests are granted without a reset, or with a reset on the first one while no
object is alive (`construct_owned_iff`); destructors and the other calls keep them so. Over whole
runs: `buffers_owned_iff`.
-/

namespace HardApi

open Runs Ownership

variable {board : Board}

/-- The pages that are free before each request are more than it asks for. -/
structure Board.Suffices (board : Board) (free : ℕ) (r₁ r₂ : Region) : Prop where
  memory1 : 8 * 257 < board.pageSize * free
  memory2 : 8 * 257 < board.pageSize * (free - r₁.count)
  memoryParam : 8 * 1024 < board.pageSize * (free - r₁.count - r₂.count)

namespace World

variable (w : World board)

/-- The pointer of a buffer of a live object. -/
def pointer (k : ℕ × Buffer) : Option (Option ℕ) :=
  match w.objects k.1 with
  | .live obj => some (obj.buffer k.2).pointer
  | _ => none

/-- The region of a buffer, which the allocator considers allocated. -/
def Holds (k : ℕ × Buffer) (r : Region) : Prop :=
  r ∈ w.cma.allocs ∧ w.pointer k = some (some r.first)

/-- Every buffer of a live object is allocated, and different buffers are disjoint. -/
structure Owned : Prop where
  allocated : ∀ k, w.pointer k ≠ none → ∃ r, w.Holds k r
  disjoint : ∀ k k' r r', k ≠ k' → w.Holds k r → w.Holds k' r' → Disjoint r.pages r'.pages

/-- `cma_alloc` answers no request with `NULL`, and either enough is free for all three, or too
little for the first, no object is alive and the whole pool is enough. -/
def Granted (answer : Buffer → Option Region) : Prop :=
  ∃ r₁ r₂ r₃, answer .memory1 = some r₁ ∧ answer .memory2 = some r₂ ∧
    answer .memoryParam = some r₃ ∧
    (board.Suffices w.cma.pagesAvailable r₁ r₂ ∨
      ¬ w.cma.Roomy (8 * 257) ∧ (∀ o obj, w.objects o ≠ .live obj) ∧
        board.Suffices board.pool.card r₁ r₂)

end World

/-- The condition on a call: only constructors have one. -/
def Call.Granted (w : World board) : Call → Prop
  | .construct _ _ answer => w.Granted answer
  | _ => True

/-! ## Ownership as a map -/

variable {w w' : World board} {o keySize : ℕ} {answer : Buffer → Option Region}
  {k k' : ℕ × Buffer} {r : Region}

/-- The buffers that must be owned. -/
def World.buffers (w : World board) : Set (ℕ × Buffer) := {k | w.pointer k ≠ none}

theorem pointer_of_live {obj : PynqPaillier board} (h : w.objects o = .live obj) (b : Buffer) :
    w.pointer (o, b) = some (obj.buffer b).pointer := by
  simp only [World.pointer, h]

theorem exists_of_mem_buffers (h : k ∈ w.buffers) :
    ∃ obj, w.objects k.1 = .live obj ∧ w.pointer k = some (obj.buffer k.2).pointer := by
  cases hobj : w.objects k.1 with
  | live obj => exact ⟨obj, rfl, pointer_of_live hobj k.2⟩
  | unborn | destroyed => simp [World.buffers, World.pointer, hobj] at h

theorem World.Owned.unique (h : w.Owned) (hk : w.Holds k r) (hk' : w.Holds k' r) : k = k' := by
  by_contra hne
  have hfirst := Region.first_mem_pages (w.cma.count_pos r hk.1)
  exact Finset.disjoint_left.mp (h.disjoint k k' r r hne hk hk') hfirst hfirst

/-- `Owned` is an exclusive map from buffers to allocated regions. -/
theorem owned_iff : w.Owned ↔ ∃ own : ℕ × Buffer → Region,
    Exclusive w.buffers own w.cma.allocs ∧
      ∀ k ∈ w.buffers, w.pointer k = some (some (own k).first) := by
  constructor
  · intro h
    have hholds : ∀ k, ∃ r, k ∈ w.buffers → w.Holds k r := by
      intro k
      by_cases hk : k ∈ w.buffers
      · obtain ⟨r, hr⟩ := h.allocated k hk
        exact ⟨r, fun _ => hr⟩
      · exact ⟨⟨0, 0⟩, fun hk' => absurd hk' hk⟩
    choose own hown using hholds
    refine ⟨own, ⟨fun k hk => (hown k hk).1, fun k hk k' hk' heq => ?_⟩, fun k hk => (hown k hk).2⟩
    have hk'' := hown k' hk'
    rw [← heq] at hk''
    exact h.unique (hown k hk) hk''
  · rintro ⟨own, hexcl, hpointer⟩
    have hregion : ∀ {k r}, w.Holds k r → k ∈ w.buffers ∧ r = own k := by
      intro k r hk
      have hmem : k ∈ w.buffers := by simp [World.buffers, hk.2]
      refine ⟨hmem, Cma.eq_of_first_eq hk.1 (hexcl.mem k hmem) ?_⟩
      have hfirst := hk.2.symm.trans (hpointer k hmem)
      simpa using hfirst
    refine ⟨fun k hk => ⟨own k, hexcl.mem k hk, hpointer k hk⟩, ?_⟩
    intro k k' r r' hne hk hk'
    obtain ⟨hmem, rfl⟩ := hregion hk
    obtain ⟨hmem', rfl⟩ := hregion hk'
    exact hexcl.disjoint w.cma.disjoint hmem hmem' hne

/-- A call that changes neither the allocator nor a pointer keeps ownership. -/
theorem World.Owned.congr (h : w.Owned) (hcma : w'.cma = w.cma)
    (hpointer : w'.pointer = w.pointer) : w'.Owned := by
  have hholds : w'.Holds = w.Holds := by
    funext k r
    simp [World.Holds, hcma, hpointer]
  refine ⟨fun k hk => ?_, fun k k' r r' hne hk hk' => ?_⟩
  · rw [hpointer] at hk
    rw [hholds]
    exact h.allocated k hk
  · rw [hholds] at hk hk'
    exact h.disjoint k k' r r' hne hk hk'

/-! ## The constructor -/

variable {obj : PynqPaillier board}

theorem pointer_of_update {life : Life board} (h : w'.objects = Function.update w.objects o life)
    (hk : k.1 ≠ o) : w'.pointer k = w.pointer k := by
  simp only [World.pointer, h, Function.update_of_ne hk]

theorem pointer_of_update_live (h : w'.objects = Function.update w.objects o (.live obj))
    (b : Buffer) : w'.pointer (o, b) = some (obj.buffer b).pointer := by
  apply pointer_of_live
  rw [h, Function.update_self]

theorem buffers_of_construct (h : w'.objects = Function.update w.objects o (.live obj)) :
    w'.buffers =
      insert (o, .memoryParam) (insert (o, .memory2) (insert (o, .memory1) w.buffers)) := by
  ext ⟨o', b⟩
  by_cases ho : o' = o
  · subst ho
    cases b <;> simp [World.buffers, pointer_of_update_live h]
  · have hpointer : w'.pointer (o', b) = w.pointer (o', b) := pointer_of_update h ho
    simp [World.buffers, hpointer, ho]

theorem exclusive_handsOut {live : Set (ℕ × Buffer)} {own : ℕ × Buffer → Region}
    {cma cma' : Cma board.toPlatform} {length : ℕ} (hexcl : Exclusive live own cma.allocs)
    (h : cma.HandsOut length r cma') (hk : k ∉ live) :
    Exclusive (insert k live) (Function.update own k r) cma'.allocs := by
  rw [h.allocs]
  exact hexcl.acquire hk h.notMem

/-- Three regions handed out one after the other. -/
theorem owned_of_handsOut {base cma₁ cma₂ : Cma board.toPlatform} {own : ℕ × Buffer → Region}
    {r₁ r₂ r₃ : Region} {l₁ l₂ l₃ : ℕ} (hexcl : Exclusive w.buffers own base.allocs)
    (hpointer : ∀ k ∈ w.buffers, w.pointer k = some (some (own k).first))
    (hunborn : w.objects o = .unborn) (h₁ : base.HandsOut l₁ r₁ cma₁)
    (h₂ : cma₁.HandsOut l₂ r₂ cma₂) (h₃ : cma₂.HandsOut l₃ r₃ w'.cma)
    (hobjects : w'.objects = Function.update w.objects o (.live obj))
    (hptr₁ : obj.memory1.pointer = some r₁.first) (hptr₂ : obj.memory2.pointer = some r₂.first)
    (hptr₃ : obj.memoryParam.pointer = some r₃.first) : w'.Owned := by
  have hnew : ∀ b, (o, b) ∉ w.buffers := by
    intro b
    simp [World.buffers, World.pointer, hunborn]
  have hexcl₁ := exclusive_handsOut hexcl h₁ (hnew .memory1)
  have hexcl₂ := exclusive_handsOut (k := (o, .memory2)) hexcl₁ h₂ (by simp [hnew])
  have hexcl₃ := exclusive_handsOut (k := (o, .memoryParam)) hexcl₂ h₃ (by simp [hnew])
  rw [← buffers_of_construct hobjects] at hexcl₃
  refine owned_iff.mpr ⟨_, hexcl₃, ?_⟩
  rintro ⟨o', b⟩ hk
  by_cases ho : o' = o
  · subst ho
    rw [pointer_of_update_live hobjects]
    cases b
    · simp [PynqPaillier.buffer, hptr₁]
    · simp [PynqPaillier.buffer, hptr₂]
    · simp [PynqPaillier.buffer, hptr₃]
  · have hold : w'.pointer (o', b) = w.pointer (o', b) := pointer_of_update hobjects ho
    have hmem : (o', b) ∈ w.buffers := by
      intro hnone
      exact hk (hold.trans hnone)
    rw [hold, hpointer _ hmem]
    simp [ho]

/-- A request with an answer, when the allocator it asks last has enough. -/
theorem handsOut_base {cma cma' : Cma board.toPlatform} {state : SharedMemory board.toPlatform}
    {length : ℕ} {ok : Bool}
    (h : allocatedSharedMemory cma .new length true (some r) = some (cma', state, ok))
    (hroom : (cma.base length).Roomy length) :
    (cma.base length).HandsOut length r cma' ∧ state.pointer = some r.first := by
  rcases allocatedSharedMemory_cases h with ⟨r', hr, -, hans, hptr⟩ | ⟨hfail, -⟩
  · obtain rfl := Option.some.inj hans
    exact ⟨hr, hptr⟩
  · simp [hroom] at hfail

/-- A request with an answer on the plain path. -/
theorem handsOut_of_roomy {cma cma' : Cma board.toPlatform} {state : SharedMemory board.toPlatform}
    {length : ℕ} {ok : Bool}
    (h : allocatedSharedMemory cma .new length true (some r) = some (cma', state, ok))
    (hroom : cma.Roomy length) : cma.HandsOut length r cma' ∧ state.pointer = some r.first := by
  have hbase := handsOut_base h
  rw [Cma.base_of_roomy hroom] at hbase
  exact hbase hroom

theorem owned_of_granted (h : w.construct o keySize answer = some w') (howned : w.Owned)
    (hgranted : w.Granted answer) : w'.Owned := by
  obtain ⟨hunborn, obj, cma₁, cma₂, ok₁, ok₂, ok₃, h₁, h₂, h₃, hobjects, -⟩ := construct_spec h
  obtain ⟨r₁, r₂, r₃, ha₁, ha₂, ha₃, hroom⟩ := hgranted
  rw [ha₁] at h₁
  rw [ha₂] at h₂
  rw [ha₃] at h₃
  -- The allocator that the first request asks has enough for all three.
  have hbase : board.Suffices (w.cma.base (8 * 257)).pagesAvailable r₁ r₂ ∧
      ∃ own, Exclusive w.buffers own (w.cma.base (8 * 257)).allocs ∧
        ∀ k ∈ w.buffers, w.pointer k = some (some (own k).first) := by
    rcases hroom with hfree | ⟨hfull, hlone, hpool⟩
    · have hplain : w.cma.base (8 * 257) = w.cma := Cma.base_of_roomy hfree.memory1
      rw [hplain]
      exact ⟨hfree, owned_iff.mp howned⟩
    · have hempty : w.buffers = ∅ := Set.eq_empty_of_forall_notMem fun k hk => by
        obtain ⟨obj', hobj', -⟩ := exists_of_mem_buffers hk
        exact hlone k.1 obj' hobj'
      rw [Cma.base_of_not_roomy hfull, Cma.pagesAvailable_xlnkReset, hempty]
      exact ⟨hpool, fun _ => ⟨0, 0⟩, Exclusive.empty _ _, by simp⟩
  obtain ⟨hsuff, own, hexcl, hpointer⟩ := hbase
  obtain ⟨hout₁, hptr₁⟩ := handsOut_base h₁ hsuff.memory1
  have hroom₂ : cma₁.Roomy (8 * 257) := by
    rw [Cma.Roomy, hout₁.pagesAvailable]
    exact hsuff.memory2
  obtain ⟨hout₂, hptr₂⟩ := handsOut_of_roomy h₂ hroom₂
  have hroom₃ : cma₂.Roomy (8 * 1024) := by
    rw [Cma.Roomy, hout₂.pagesAvailable, hout₁.pagesAvailable]
    exact hsuff.memoryParam
  obtain ⟨hout₃, hptr₃⟩ := handsOut_of_roomy h₃ hroom₃
  exact owned_of_handsOut hexcl hpointer hunborn hout₁ hout₂ hout₃ hobjects hptr₁ hptr₂ hptr₃

/-- When every allocated region is the buffer of one object, no other object is alive. -/
theorem mem_buffers_of_owned (howned : w'.Owned)
    (hobjects : w'.objects = Function.update w.objects o (.live obj)) {P : Buffer → Prop}
    (hall : ∀ r ∈ w'.cma.allocs, ∃ b, P b ∧ (obj.buffer b).pointer = some r.first)
    (hk : k ∈ w'.buffers) : ∃ b, P b ∧ k = (o, b) := by
  obtain ⟨r, hr⟩ := howned.allocated k hk
  obtain ⟨b, hb, hptr⟩ := hall r hr.1
  refine ⟨b, hb, howned.unique hr ⟨hr.1, ?_⟩⟩
  rw [pointer_of_update_live hobjects, hptr]

section
variable {cma cma₁ cma₂ : Cma board.toPlatform} {r₁ r₂ r₃ : Region} {l₁ l₂ l₃ : ℕ}

theorem mem_buffers_of_construct (hobjects : w'.objects = Function.update w.objects o (.live obj))
    (b : Buffer) : (o, b) ∈ w'.buffers := by
  simp [World.buffers, pointer_of_update_live hobjects]

/-- A request whose buffer is there was answered. -/
theorem handsOut_of_owned {cma cma' : Cma board.toPlatform} {ans : Option Region} {length : ℕ}
    {ok : Bool} {b : Buffer} (howned : w'.Owned)
    (hobjects : w'.objects = Function.update w.objects o (.live obj))
    (h : allocatedSharedMemory cma .new length true ans = some (cma', obj.buffer b, ok)) :
    ∃ r, (cma.base length).HandsOut length r cma' ∧ (cma.base length).Roomy length ∧
      ans = some r ∧ (obj.buffer b).pointer = some r.first := by
  apply (allocatedSharedMemory_cases h).resolve_right
  intro hfail
  obtain ⟨r, -, hr⟩ := howned.allocated (o, b) (mem_buffers_of_construct hobjects b)
  simp [pointer_of_update_live hobjects, hfail.2.2] at hr

/-- A reset on the third request would release `memory1`. -/
theorem roomy_of_owned_memoryParam (howned : w'.Owned)
    (hobjects : w'.objects = Function.update w.objects o (.live obj))
    (hout₃ : (cma₂.base l₃).HandsOut l₃ r₃ w'.cma)
    (hptr₃ : (obj.buffer .memoryParam).pointer = some r₃.first) : cma₂.Roomy l₃ := by
  by_contra hfull
  rw [Cma.base_of_not_roomy hfull] at hout₃
  have hall : ∀ r ∈ w'.cma.allocs,
      ∃ b, b = .memoryParam ∧ (obj.buffer b).pointer = some r.first := by
    intro r hr
    simp only [hout₃.allocs, Cma.xlnkReset_allocs, insert_empty_eq, Finset.mem_singleton] at hr
    exact ⟨_, rfl, hr ▸ hptr₃⟩
  obtain ⟨b, rfl, hk⟩ := mem_buffers_of_owned howned hobjects hall
    (mem_buffers_of_construct hobjects .memory1)
  simp at hk

/-- A reset on the second request would release it as well. -/
theorem roomy_of_owned_memory2 (howned : w'.Owned)
    (hobjects : w'.objects = Function.update w.objects o (.live obj))
    (hout₂ : (cma₁.base l₂).HandsOut l₂ r₂ cma₂) (hout₃ : cma₂.HandsOut l₃ r₃ w'.cma)
    (hptr₂ : (obj.buffer .memory2).pointer = some r₂.first)
    (hptr₃ : (obj.buffer .memoryParam).pointer = some r₃.first) : cma₁.Roomy l₂ := by
  by_contra hfull
  rw [Cma.base_of_not_roomy hfull] at hout₂
  have hall : ∀ r ∈ w'.cma.allocs, ∃ b, b ≠ .memory1 ∧ (obj.buffer b).pointer = some r.first := by
    intro r hr
    simp only [hout₃.allocs, hout₂.allocs, Cma.xlnkReset_allocs, insert_empty_eq,
      Finset.mem_insert, Finset.mem_singleton] at hr
    rcases hr with rfl | rfl
    · exact ⟨.memoryParam, by simp, hptr₃⟩
    · exact ⟨.memory2, by simp, hptr₂⟩
  obtain ⟨b, hb, hk⟩ := mem_buffers_of_owned howned hobjects hall
    (mem_buffers_of_construct hobjects .memory1)
  exact hb (Prod.ext_iff.mp hk).2.symm

/-- A reset on the first request would release the buffers of every live object. -/
theorem lone_of_owned_reset (hunborn : w.objects o = .unborn) (howned : w'.Owned)
    (hobjects : w'.objects = Function.update w.objects o (.live obj))
    (hout₁ : cma.xlnkReset.HandsOut l₁ r₁ cma₁) (hout₂ : cma₁.HandsOut l₂ r₂ cma₂)
    (hout₃ : cma₂.HandsOut l₃ r₃ w'.cma)
    (hptr₁ : (obj.buffer .memory1).pointer = some r₁.first)
    (hptr₂ : (obj.buffer .memory2).pointer = some r₂.first)
    (hptr₃ : (obj.buffer .memoryParam).pointer = some r₃.first) :
    ∀ o' obj', w.objects o' ≠ .live obj' := by
  intro o' obj' hobj'
  have hne : o' ≠ o := by
    rintro rfl
    simp [hunborn] at hobj'
  have hpointer : w'.pointer (o', .memory1) = w.pointer (o', .memory1) :=
    pointer_of_update hobjects hne
  have hlive : (o', .memory1) ∈ w'.buffers := by
    show w'.pointer (o', .memory1) ≠ none
    rw [hpointer, pointer_of_live hobj']
    simp
  have hall : ∀ r ∈ w'.cma.allocs, ∃ b, True ∧ (obj.buffer b).pointer = some r.first := by
    intro r hr
    simp only [hout₃.allocs, hout₂.allocs, hout₁.allocs, Cma.xlnkReset_allocs, insert_empty_eq,
      Finset.mem_insert, Finset.mem_singleton] at hr
    rcases hr with rfl | rfl | rfl
    · exact ⟨.memoryParam, trivial, hptr₃⟩
    · exact ⟨.memory2, trivial, hptr₂⟩
    · exact ⟨.memory1, trivial, hptr₁⟩
  obtain ⟨b, -, hk⟩ := mem_buffers_of_owned howned hobjects hall hlive
  exact hne (Prod.ext_iff.mp hk).1

end

/-- If the buffers of all live objects are there, no request failed, and a reset took nobody's
buffers. -/
theorem granted_of_owned (h : w.construct o keySize answer = some w') (howned : w'.Owned) :
    w.Granted answer := by
  obtain ⟨hunborn, obj, cma₁, cma₂, ok₁, ok₂, ok₃, h₁, h₂, h₃, hobjects, -⟩ := construct_spec h
  obtain ⟨r₁, hout₁, hroom₁, ha₁, hptr₁⟩ := handsOut_of_owned (b := .memory1) howned hobjects h₁
  obtain ⟨r₂, hout₂, hroom₂, ha₂, hptr₂⟩ := handsOut_of_owned (b := .memory2) howned hobjects h₂
  obtain ⟨r₃, hout₃, hroom₃, ha₃, hptr₃⟩ :=
    handsOut_of_owned (b := .memoryParam) howned hobjects h₃
  have hroomy₃ := roomy_of_owned_memoryParam howned hobjects hout₃ hptr₃
  rw [Cma.base_of_roomy hroomy₃] at hout₃
  have hroomy₂ := roomy_of_owned_memory2 howned hobjects hout₂ hout₃ hptr₂ hptr₃
  rw [Cma.base_of_roomy hroomy₂] at hout₂
  have hsuff : board.Suffices (w.cma.base (8 * 257)).pagesAvailable r₁ r₂ := by
    refine ⟨hroom₁, ?_, ?_⟩
    · rw [← hout₁.pagesAvailable]
      exact hroomy₂
    · rw [← hout₁.pagesAvailable, ← hout₂.pagesAvailable]
      exact hroomy₃
  refine ⟨r₁, r₂, r₃, ha₁, ha₂, ha₃, ?_⟩
  by_cases hroomy₁ : w.cma.Roomy (8 * 257)
  · rw [Cma.base_of_roomy hroomy₁] at hsuff
    exact Or.inl hsuff
  · rw [Cma.base_of_not_roomy hroomy₁] at hsuff hout₁
    rw [Cma.pagesAvailable_xlnkReset] at hsuff
    exact Or.inr ⟨hroomy₁,
      lone_of_owned_reset hunborn howned hobjects hout₁ hout₂ hout₃ hptr₁ hptr₂ hptr₃, hsuff⟩

theorem construct_owned_iff (h : w.construct o keySize answer = some w') (howned : w.Owned) :
    w'.Owned ↔ w.Granted answer :=
  ⟨granted_of_owned h, owned_of_granted h howned⟩

/-! ## The other calls -/

theorem exclusive_cmaFree {live : Set (ℕ × Buffer)} {own : ℕ × Buffer → Region}
    {cma : Cma board.toPlatform} {pointer : Option ℕ} (hexcl : Exclusive live own cma.allocs)
    (hk : k ∈ live) (hpointer : pointer = some (own k).first) :
    Exclusive (live \ {k}) own (cma.cmaFree pointer).allocs := by
  rw [hpointer, Cma.cmaFree_allocs (hexcl.mem k hk)]
  exact hexcl.release hk

theorem buffers_of_destroy (h : w'.objects = Function.update w.objects o .destroyed) :
    w'.buffers = ((w.buffers \ {(o, .memory1)}) \ {(o, .memory2)}) \ {(o, .memoryParam)} := by
  ext ⟨o', b⟩
  by_cases ho : o' = o
  · subst ho
    have hpointer : w'.pointer (o', b) = none := by
      simp only [World.pointer, h, Function.update_self]
    cases b <;> simp [World.buffers, hpointer]
  · have hpointer : w'.pointer (o', b) = w.pointer (o', b) := pointer_of_update h ho
    simp [World.buffers, hpointer, ho]

theorem owned_of_destroy (h : w.destroy o = some w') (howned : w.Owned) : w'.Owned := by
  obtain ⟨obj, hobj, hcma, hobjects, -⟩ := destroy_spec h
  obtain ⟨own, hexcl, hpointer⟩ := owned_iff.mp howned
  have hmem : ∀ b, (o, b) ∈ w.buffers := by
    intro b
    simp [World.buffers, pointer_of_live hobj]
  have hptr : ∀ b, (obj.buffer b).pointer = some (own (o, b)).first := by
    intro b
    have hown := hpointer (o, b) (hmem b)
    rwa [pointer_of_live hobj, Option.some.injEq] at hown
  have hexcl₁ := exclusive_cmaFree hexcl (hmem .memory1) (hptr .memory1)
  have hexcl₂ := exclusive_cmaFree (k := (o, .memory2)) hexcl₁ (by simp [hmem]) (hptr .memory2)
  have hexcl₃ := exclusive_cmaFree (k := (o, .memoryParam)) hexcl₂ (by simp [hmem])
    (hptr .memoryParam)
  rw [← buffers_of_destroy hobjects] at hexcl₃
  refine owned_iff.mpr ⟨own, hcma ▸ hexcl₃, fun k hk => ?_⟩
  have hne : k.1 ≠ o := by
    intro ho
    exact hk (by simp only [World.pointer, hobjects, ho, Function.update_self])
  have hold := pointer_of_update hobjects hne
  rw [hold]
  apply hpointer
  intro hnone
  exact hk (hold.trans hnone)

theorem owned_of_keyGen {key : Key} (h : w.keyGen o key = some w') (howned : w.Owned) :
    w'.Owned := by
  obtain ⟨obj, _, _, _, hobj, -, -, -, -, hobjects, -, hcma⟩ := keyGen_spec h
  apply howned.congr hcma
  funext ⟨o', b⟩
  by_cases ho : o' = o
  · subst ho
    rw [pointer_of_update_live hobjects]
    cases b <;> simp [World.pointer, hobj, PynqPaillier.buffer]
  · exact pointer_of_update hobjects ho

theorem owned_of_crypt {core : Core} {v res : ℤ} {start : Start board}
    (h : w.crypt core o v = some (w', start, res)) (howned : w.Owned) : w'.Owned := by
  obtain ⟨-, hobjects, -, -, hcma, -⟩ := crypt_spec h
  apply howned.congr hcma
  funext k
  simp only [World.pointer, hobjects]

theorem step_owned {call : Call} {out : Option (Start board)} (h : step w call = some (w', out))
    (howned : w.Owned) (hgranted : call.Granted w) : w'.Owned := by
  have hspec := step_spec h
  cases call with
  | construct => exact owned_of_granted hspec.1 howned hgranted
  | destroy => exact owned_of_destroy hspec.1 howned
  | keyGen => exact owned_of_keyGen hspec.1 howned
  | encrypt | decrypt =>
    obtain ⟨start, res, hcrypt, -⟩ := hspec
    exact owned_of_crypt hcrypt howned

theorem step_owned_iff {call : Call} {out : Option (Start board)}
    (h : step w call = some (w', out)) (howned : w.Owned) :
    (call.IsConstruct → w'.Owned) ↔ call.Granted w := by
  have hspec := step_spec h
  cases call with
  | construct => exact true_imp_iff.trans (construct_owned_iff hspec.1 howned)
  | destroy | keyGen | encrypt | decrypt => simp [Call.IsConstruct, Call.Granted]

/-- **Ownership over whole runs.** -/
theorem buffers_owned_iff {ts : List (Transition (World board) Call (Option (Start board)))}
    (hrun : Run step w ts w') (hnone : ∀ o obj, w.objects o ≠ .live obj) :
    (∀ t ∈ ts, t.input.IsConstruct → t.post.Owned) ↔ ∀ t ∈ ts, t.input.Granted t.pre := by
  refine hrun.forall_iff World.Owned (fun t ht => step_owned_iff ht) (fun t ht => step_owned ht) ?_
  have hempty : ∀ k, w.pointer k = none := by
    intro k
    by_contra hk
    obtain ⟨obj, hobj, -⟩ := exists_of_mem_buffers hk
    exact hnone k.1 obj hobj
  refine ⟨fun k hk => absurd (hempty k) hk, fun k k' r r' _ hk => ?_⟩
  simp [World.Holds, hempty] at hk

/-- Two objects on a board with sixteen free pages. -/
theorem buffers_owned_smallBoard :
    ∃ w₁ w₂, Run step (smallWorld 16)
      [⟨smallWorld 16, .construct 0 4 (answers 16 17 18), none, w₁⟩,
        ⟨w₁, .construct 1 4 (answers 20 21 22), none, w₂⟩] w₂ ∧ w₁.Owned ∧ w₂.Owned := by
  obtain ⟨w₁, w₂, h₁, h₂, hfree₁, hfree₂⟩ : ∃ w₁ w₂ : World (smallBoard 16),
      step (smallWorld 16) (.construct 0 4 (answers 16 17 18)) = some (w₁, none) ∧
      step w₁ (.construct 1 4 (answers 20 21 22)) = some (w₂, none) ∧
      (smallWorld 16).cma.pagesAvailable = 16 ∧ w₁.cma.pagesAvailable = 12 :=
    ⟨_, _, rfl, rfl, rfl, rfl⟩
  have hrun : Run step (smallWorld 16)
      [⟨smallWorld 16, .construct 0 4 (answers 16 17 18), none, w₁⟩,
        ⟨w₁, .construct 1 4 (answers 20 21 22), none, w₂⟩] w₂ := ⟨rfl, h₁, rfl, h₂, rfl⟩
  have hgranted : ∀ {w : World (smallBoard 16)} {m₁ m₂ mp : ℕ}, 12 ≤ w.cma.pagesAvailable →
      w.Granted (answers m₁ m₂ mp) := by
    intro w m₁ m₂ mp hfree
    have hpage : (smallBoard 16).pageSize = 4096 := rfl
    refine ⟨⟨m₁, 1⟩, ⟨m₂, 1⟩, ⟨mp, 2⟩, rfl, rfl, rfl, Or.inl ⟨?_, ?_, ?_⟩⟩
    all_goals
      simp only [hpage]
      omega
  have howned := (buffers_owned_iff hrun fun o obj => by simp [smallWorld]).mpr ?_
  · rw [List.forall_mem_cons, List.forall_mem_singleton] at howned
    exact ⟨w₁, w₂, hrun, howned.1 trivial, howned.2 trivial⟩
  · rw [List.forall_mem_cons, List.forall_mem_singleton]
    exact ⟨hgranted (by rw [hfree₁]; decide), hgranted hfree₂.ge⟩

/-- With four free pages the request for `memory_param` resets the link, and the object's own
`memory_1` is released. -/
theorem construct_releases_memory1 :
    ∃ w, step (smallWorld 4) (.construct 0 4 (answers 16 17 18)) = some (w, none) ∧ ¬ w.Owned := by
  obtain ⟨w, h, hallocs, hpointer⟩ : ∃ w : World (smallBoard 4),
      step (smallWorld 4) (.construct 0 4 (answers 16 17 18)) = some (w, none) ∧
      w.cma.allocs = {⟨18, 2⟩} ∧ w.pointer (0, .memory1) = some (some 16) :=
    ⟨_, rfl, by decide, rfl⟩
  refine ⟨w, h, fun howned => ?_⟩
  obtain ⟨r, hr, hfirst⟩ := howned.allocated (0, .memory1) (by simp [hpointer])
  rw [hallocs, Finset.mem_singleton] at hr
  rw [hr, hpointer] at hfirst
  simp at hfirst

end HardApi
