import ZeldaOS.Malloc.Null

/-!
# Lengths and alignments at their limits

A length close to 2^32 wraps around with the headers, and a padding of 65536 bytes or more does not fit in its 16
bits.

* `malloc_extreme_iff`: when extreme lengths are refused.
* `free_undoes_iff`: when `free` undoes `malloc_align`.
-/

namespace ZeldaOS

open Machine List

variable {b : Bins} {m m' : Mem} {cs l r rest : List Chunk} {bin : ℕ → List ℕ} {c : Chunk} {len k size padding : ℕ}

theorem LeftOver.settled {left : ℕ} (h : LeftOver c r left size rest) (hr : ∀ d ∈ r, d.use ≠ .loose) :
    ∀ d ∈ rest, d.use ≠ .loose := by
  rcases h with ⟨-, -, rfl⟩ | ⟨-, -, size', r', rfl, hcase⟩
  · exact hr
  rw [forall_mem_cons]
  exact ⟨by simp, (rest_of_coalesced hr hcase).2⟩

theorem SettledHeap.take (h : SettledHeap b m (l ++ c :: r) bin) (hfree : c.use = .free)
    (hroom : len + 20 + alignPadding c.addr (2 ^ k) ≤ c.size) : ∃ m' size rest bin',
      takeChunk (freeOfNull b) b m len (2 ^ k) c = .ok (m', c.addr + 20 + alignPadding c.addr (2 ^ k)) ∧
      Inv b m' (l ++ ⟨c.addr, size, .loose⟩ :: rest) bin' ∧ Occupied m' c.addr (alignPadding c.addr (2 ^ k)) ∧
      kernelHeapTop ≤ hdrSize m' 0 ∧ (∀ d ∈ rest, d.use ≠ .loose) ∧ 20 + alignPadding c.addr (2 ^ k) + len ≤ size := by
  have hbound := (h.inv.tiles.bounds (c := c) (by simp)).2
  unfold kernelHeapTop at hbound
  set padding := alignPadding c.addr (2 ^ k)
  have hleft : u32 ((c.size : ℤ) - 16 - 4 - padding - len) = c.size - 20 - padding - len := by
    unfold u32
    omega
  obtain ⟨m', size, rest, bin', hm', h', ho, hnull, hover, -⟩ :=
    h.carve hfree padding (c.size - 20 - padding - len) (by omega)
  refine ⟨m', size, rest, bin', ?_, h', ho, hnull, hover.settled fun d hd => h.settled d (by simp [hd]),
    (hover.carved l padding len (2 ^ k) (by omega)).2⟩
  rw [takeChunk, hleft, hm']
  rfl

theorem SettledHeap.of_taken (h : SettledHeap b m (l ++ c :: r) bin) (align : ℕ) {bin' : ℕ → List ℕ}
    (h' : Inv b m' (l ++ ⟨c.addr, size, .loose⟩ :: rest) bin') (ho : Occupied m' c.addr padding)
    (hnull : kernelHeapTop ≤ hdrSize m' 0) (hrest : ∀ d ∈ rest, d.use ≠ .loose) (hpad : padding < 65536)
    (hfit : 20 + padding + len ≤ size) (halign : align ∣ c.addr + 20 + padding) :
    SettledHeap b m' (l ++ ⟨c.addr, size, .used padding len align⟩ :: rest) bin' := by
  refine ⟨h'.settle rfl ho hpad len hfit halign, fun d hd => ?_, h.bins_above, hnull⟩
  rcases mem_append.1 hd with hd | hd
  · exact h.settled d (by simp [hd])
  rcases mem_cons.1 hd with rfl | hd
  · simp
  · exact hrest d hd

/-! ## Lengths -/

def Bins.malloc (b : Bins) (m : Mem) (len : ℕ) : Except Fault (Mem × ℕ) := mallocAlign (freeOfNull b) b m len 1

/-- `malloc` changes nothing, or returns a pointer with `len` bytes up to the end of its chunk. -/
def RefusedOrServed (b : Bins) (m : Mem) (len : ℕ) : Prop :=
  b.malloc m len = .ok (m, 0) ∨ ∃ m' cs' bin', ∃ c ∈ cs', b.malloc m len = .ok (m', c.addr + 20) ∧
    SettledHeap b m' cs' bin' ∧ c.use = .used 0 len 1 ∧ c.addr + 20 + len ≤ c.addr + c.size

theorem SettledHeap.malloc_eq (h : SettledHeap b m cs bin) (hlen : len < 2 ^ 32) :
    b.malloc m len = firstFit (freeOfNull b) b m len (2 ^ 0) (searchOrder cs bin) :=
  h.inv.malloc_align_eq (freeOfNull b) (k := 0) hlen (by omega)

theorem SettledHeap.served (h : SettledHeap b m cs bin) (hlen : len < 2 ^ 31) : RefusedOrServed b m len := by
  unfold RefusedOrServed
  rw [h.malloc_eq (by omega)]
  cases hfind : (searchOrder cs bin).find? (hasRoom len (2 ^ 0)) with
  | none =>
    rw [firstFit, hfind]
    exact .inl rfl
  | some c =>
    obtain ⟨hc, hfree⟩ := h.inv.mem_searchOrder.1 (mem_of_find?_eq_some hfind)
    have hroom := (h.inv.hasRoom_iff hlen (by omega) hc).1 (find?_some hfind)
    have hbound := (h.inv.tiles.bounds hc).2
    have hpad : alignPadding c.addr (2 ^ 0) = 0 := alignPadding_one c.addr (by unfold kernelHeapTop at hbound; omega)
    obtain ⟨l, r, rfl⟩ := append_of_mem hc
    obtain ⟨m', size, rest, bin', htake, h', ho, hnull, hrest, hfit⟩ := h.take hfree hroom
    rw [hpad] at htake ho hfit
    have hheap := h.of_taken 1 h' ho hnull hrest (by omega) hfit (one_dvd _)
    rw [firstFit_of_some _ hfind]
    refine .inr ⟨m', _, bin', ⟨c.addr, size, .used 0 len 1⟩, by simp, htake, hheap, rfl, ?_⟩
    show c.addr + 20 + len ≤ c.addr + size
    omega

theorem SettledHeap.refused (h : SettledHeap b m cs bin) (hlo : 2 ^ 31 ≤ len) (hhi : len < 2 ^ 32 - 20) :
    RefusedOrServed b m len := by
  refine .inl ?_
  rw [h.malloc_eq (by omega)]
  refine firstFit_of_none _ fun d hd => ?_
  have hbound := (h.inv.tiles.bounds (h.inv.mem_searchOrder.1 hd).1).2
  unfold kernelHeapTop at hbound
  have hword : u32 ((len : ℤ) + 16 + 4) = len + 20 := by
    unfold u32
    omega
  rw [hasRoom, hword, Bool.and_eq_false_iff]
  exact .inl (decide_eq_false (by omega))

theorem SettledHeap.not_served (h : SettledHeap b m cs bin) (hlo : 2 ^ 32 - 20 ≤ len) (hhi : len < 2 ^ 32) (hc : c ∈ cs)
    (hfree : c.use = .free) : ¬RefusedOrServed b m len := by
  have hroom : ∀ d ∈ cs, hasRoom len (2 ^ 0) d = true := by
    intro d hd
    have hbound := (h.inv.tiles.bounds hd).2
    have h20 := (h.inv.hdr d hd).size_ge
    unfold kernelHeapTop at hbound
    have hpad : alignPadding d.addr (2 ^ 0) = 0 := alignPadding_one d.addr (by omega)
    rw [hasRoom, hpad, Bool.and_eq_true, decide_eq_true_eq, decide_eq_true_eq]
    unfold u32
    omega
  rintro (hnull | ⟨m', cs', bin', d, hd, -, h', -, hfit⟩)
  · rw [h.malloc_eq hhi] at hnull
    cases hfind : (searchOrder cs bin).find? (hasRoom len (2 ^ 0)) with
    | none =>
      exact find?_eq_none.1 hfind c (h.inv.mem_searchOrder.2 ⟨hc, hfree⟩) (hroom c hc)
    | some d =>
      rw [firstFit_of_some _ hfind] at hnull
      obtain ⟨m1, -, hptr⟩ := bind_eq_ok hnull
      simp only [Except.ok.injEq, Prod.mk.injEq] at hptr
      omega
  · have hbound := (h'.inv.tiles.bounds hd).2
    unfold kernelHeapTop at hbound
    omega

/-- **When extreme lengths are refused.** -/
theorem malloc_extreme_iff (b : Bins) (m : Mem) (cs : List Chunk) (bin : ℕ → List ℕ) (h : SettledHeap b m cs bin)
    (len : UInt32) : RefusedOrServed b m len.toNat ↔ len.toNat < 2 ^ 32 - 20 ∨ ∀ c ∈ cs, c.use ≠ .free := by
  have hword : len.toNat < 2 ^ 32 := len.toNat_lt
  constructor
  · intro hok
    by_contra hc
    push Not at hc
    obtain ⟨hlo, c, hmem, hfree⟩ := hc
    exact h.not_served hlo hword hmem hfree hok
  rintro (hlen | hnone)
  · by_cases hneg : len.toNat < 2 ^ 31
    · exact h.served hneg
    · exact h.refused (by omega) hlen
  refine .inl ?_
  rw [h.malloc_eq hword]
  refine firstFit_of_none _ fun d hd => ?_
  obtain ⟨hd, hfree⟩ := h.inv.mem_searchOrder.1 hd
  exact absurd hfree (hnone d hd)

theorem malloc_extreme_iff_page : RefusedOrServed imageBins (mallocInit imageBins vectorMem) 4096 :=
  (malloc_extreme_iff imageBins _ _ _ (heap_init imageBins (by decide) vectorMem (by decide)) 4096).2 (.inl (by decide))

/-- **`malloc(-1)` returns a pointer into a chunk of 19 bytes.** -/
theorem malloc_minus_one : ((imageBins.malloc (mallocInit imageBins vectorMem) 0xFFFFFFFF).toOption.map fun r =>
      (r.2, hdrSize r.1 kernelHeapBottom)) = some (kernelHeapBottom + 20, 19) ∧
    ¬RefusedOrServed imageBins (mallocInit imageBins vectorMem) 0xFFFFFFFF := by
  have hheap := heap_init imageBins (by decide) vectorMem (by decide)
  exact ⟨by decide +kernel, hheap.not_served (by decide) (by decide) (mem_singleton_self _) rfl⟩

/-! ## Alignments -/

def headerOf (m : Mem) (mem : ℕ) : ℕ := u32 (u32 (mem - 4) - padPadding m (u32 (mem - 4)) - 16)

/-- `free` finds the header of the chunk that `malloc_align` carved the pointer from, and leaves it free. -/
def FreeUndoes (b : Bins) (m : Mem) (cs : List Chunk) (len align : ℕ) : Prop :=
  ∀ m' p, mallocAlign (freeOfNull b) b m len align = .ok (m', p) → p ≠ 0 →
    ∃ c ∈ cs, c.use = .free ∧ c.addr + 20 ≤ p ∧ p ≤ c.addr + c.size ∧ headerOf m' p = c.addr ∧
      ∃ m'' cs'' bin'', free b m' p = .ok m'' ∧ SettledHeap b m'' cs'' bin'' ∧
        ∃ d ∈ cs'', d.addr = c.addr ∧ d.use = .free

variable {align : ℕ}

theorem exists_two_pow_of_validate (hword : align < 2 ^ 32) (h : validateAlignment align = true) :
    ∃ k < 32, align = 2 ^ k := by
  unfold validateAlignment at h
  rw [Bool.and_eq_true, bne_iff_ne] at h
  obtain ⟨hne, hbit⟩ := h
  cases hfind : (List.range 32).find? fun idx => align.testBit idx with
  | none =>
    refine absurd (Nat.eq_of_testBit_eq fun i => ?_) hne
    rw [Nat.zero_testBit]
    by_cases hi : i < 32
    · simpa using find?_eq_none.1 hfind i (mem_range.2 hi)
    · exact Nat.testBit_lt_two_pow (hword.trans_le (Nat.pow_le_pow_right (by omega) (by omega)))
  | some k =>
    rw [hfind] at hbit
    exact ⟨k, mem_range.1 (mem_of_find?_eq_some hfind), by simpa using hbit⟩

theorem Occupied.headerOf_eq (h : Occupied m c.addr padding) (hlt : c.addr + 20 + padding < 2 ^ 32) :
    headerOf m (c.addr + 20 + padding) = c.addr + (padding - padding % 65536) := by
  rw [headerOf, u32_padding hlt, h.padding_eq]
  unfold u32
  omega

theorem SettledHeap.free_used (h : SettledHeap b m (l ++ c :: r) bin) (hu : c.use = .used padding len align) :
    ∃ m' size r' bin', free b m (c.addr + 20 + padding) = .ok m' ∧
      SettledHeap b m' (l ++ ⟨c.addr, size, .free⟩ :: r') bin' := by
  obtain ⟨m', size, r', bin', hm', hfree, hinv, -, hloose, -⟩ := h.inv.free_alloc h.settled hu
  refine ⟨m', size, r', bin', hm', hinv, hloose, h.bins_above, ?_⟩
  have hbase := h.bins_above
  have hlow := (h.inv.tiles.bounds (c := c) (by simp)).1
  have hsame : hdrSize m' 0 = hdrSize m 0 := Mem.read_congr fun x _ hx =>
    h.inv.free_frame (by simp [hu]) (fun d hd => h.settled d (by simp [hd])) hfree
      (fun y hy => .inl (by have hle := h.inv.layout.base_le_site hy; omega)) (.inl (by omega))
  rw [hsame]
  exact h.null_size

theorem SettledHeap.undone (h : SettledHeap b m (l ++ c :: r) bin) (hfree : c.use = .free) (hk : k < 32)
    (hroom : len + 20 + alignPadding c.addr (2 ^ k) ≤ c.size) (hpad : alignPadding c.addr (2 ^ k) < 65536)
    (hmalloc : mallocAlign (freeOfNull b) b m len (2 ^ k) = takeChunk (freeOfNull b) b m len (2 ^ k) c) :
    FreeUndoes b m (l ++ c :: r) len (2 ^ k) := by
  intro m' p hp _
  have hbound := (h.inv.tiles.bounds (c := c) (by simp)).2
  unfold kernelHeapTop at hbound
  have halign := (alignPadding_spec c.addr hk (by omega)).2
  obtain ⟨m1, size, rest, bin', htake, h', ho, hnull, hrest, hfit⟩ := h.take hfree hroom
  rw [hmalloc, htake] at hp
  cases hp
  have hheap := h.of_taken (2 ^ k) h' ho hnull hrest hpad hfit halign
  obtain ⟨m'', size'', r'', bin'', hm'', h''⟩ := hheap.free_used rfl
  refine ⟨c, by simp, hfree, by omega, by omega, ?_, m'', _, bin'', hm'', h'', ⟨c.addr, size'', .free⟩, by simp, rfl,
    rfl⟩
  rw [ho.headerOf_eq (by omega), Nat.mod_eq_of_lt hpad]
  omega

theorem SettledHeap.not_undone (h : SettledHeap b m (l ++ c :: r) bin) (hfree : c.use = .free)
    (hroom : len + 20 + alignPadding c.addr (2 ^ k) ≤ c.size) (hpad : 65536 ≤ alignPadding c.addr (2 ^ k))
    (hmalloc : mallocAlign (freeOfNull b) b m len (2 ^ k) = takeChunk (freeOfNull b) b m len (2 ^ k) c) :
    ¬FreeUndoes b m (l ++ c :: r) len (2 ^ k) := by
  intro hundo
  have hc : c ∈ l ++ c :: r := by simp
  have hbound := (h.inv.tiles.bounds hc).2
  unfold kernelHeapTop at hbound
  obtain ⟨m1, size, rest, bin', htake, -, ho, -⟩ := h.take hfree hroom
  obtain ⟨d, hd, -, hge, hle, hhdr, -⟩ := hundo m1 _ (hmalloc.trans htake) (by omega)
  -- the pointer lies in one chunk only
  have heq : d = c := by
    rcases h.inv.tiles.apart hd hc with heq | hlt | hlt
    · exact heq
    · omega
    · omega
  rw [heq, ho.headerOf_eq (by omega)] at hhdr
  omega

/-- **When `free` undoes `malloc_align`.** -/
theorem free_undoes_iff (b : Bins) (m : Mem) (cs : List Chunk) (bin : ℕ → List ℕ) (h : SettledHeap b m cs bin)
    (len align : ℕ) (hlen : len < 2 ^ 31) (hword : align < 2 ^ 32) (hvalid : validateAlignment align = true) :
    FreeUndoes b m cs len align ↔
      ∀ c, (searchOrder cs bin).find? (hasRoom len align) = some c → alignPadding c.addr align < 65536 := by
  obtain ⟨k, hk, rfl⟩ := exists_two_pow_of_validate hword hvalid
  have heq := h.inv.malloc_align_eq (freeOfNull b) (show len < 2 ^ 32 by omega) hk
  cases hfind : (searchOrder cs bin).find? (hasRoom len (2 ^ k)) with
  | none =>
    refine iff_of_true (fun m' p hp hne => ?_) (fun c hc => by cases hc)
    rw [heq, firstFit, hfind] at hp
    cases hp
    exact absurd rfl hne
  | some c =>
    obtain ⟨hc, hfree⟩ := h.inv.mem_searchOrder.1 (mem_of_find?_eq_some hfind)
    have hroom := (h.inv.hasRoom_iff hlen hk hc).1 (find?_some hfind)
    rw [firstFit_of_some _ hfind] at heq
    obtain ⟨l, r, rfl⟩ := append_of_mem hc
    constructor
    · intro hundo d hd
      cases hd
      by_contra hpad
      exact h.not_undone hfree hroom (by omega) heq hundo
    · intro hpad
      exact h.undone hfree hk hroom (hpad c rfl) heq

theorem free_undoes_iff_page : FreeUndoes imageBins (mallocInit imageBins vectorMem)
      [⟨kernelHeapBottom, kernelHeapTop - kernelHeapBottom, .free⟩] 64 4096 := by
  refine (free_undoes_iff imageBins _ _ _ (heap_init imageBins (by decide) vectorMem (by decide)) 64 4096 (by decide)
    (by decide) (by decide)).2 fun c hc => ?_
  obtain rfl := mem_singleton.1 (mem_of_find?_eq_some hc)
  decide

/-- **An allocation aligned to 128 kB**: `free` finds a header 64 kB behind its own. -/
theorem wide_padding_lost :
    ((mallocAlign (freeOfNull imageBins) imageBins (mallocInit imageBins vectorMem) 64 0x20000).toOption.map fun r =>
      (r.2, headerOf r.1 r.2, free imageBins r.1 r.2 |>.toOption.isNone)) =
      some (0x8020000, kernelHeapBottom + 0x10000, true) ∧ ¬FreeUndoes imageBins (mallocInit imageBins vectorMem)
      [⟨kernelHeapBottom, kernelHeapTop - kernelHeapBottom, .free⟩] 64 0x20000 := by
  have hheap := heap_init imageBins (by decide) vectorMem (by decide)
  refine ⟨by decide +kernel, SettledHeap.not_undone (k := 17) (l := []) hheap rfl (by decide) (by decide) ?_⟩
  rw [hheap.inv.malloc_align_eq (freeOfNull imageBins) (by decide) (by decide)]
  exact firstFit_of_some _ rfl

end ZeldaOS
