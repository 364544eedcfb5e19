import ZeldaOS.Malloc.Run

/-!
# The header at address 0

When nothing is split off, `__malloc` calls `__free(NULL)`, which takes the first 16 bytes of the memory for a header
with a size that the kernel never sets.

* `no_split_touches_null`: an allocation without a split stores to address 0.
-/

namespace ZeldaOS

open Machine

def freeOfNull (b : Bins) (m : Mem) : Except Fault Mem := __free b m 0

/-! ## `__free(NULL)` -/

/-- The heap invariant, in a memory where the word at address 8 is not the size of a block. -/
structure SettledHeap (b : Bins) (m : Mem) (cs : List Chunk) (bin : ℕ → List ℕ) : Prop where
  inv : Inv b m cs bin
  settled : ∀ c ∈ cs, c.use ≠ .loose
  bins_above : 16 ≤ b.base
  null_size : kernelHeapTop ≤ hdrSize m 0

variable {b : Bins} {m : Mem} {cs : List Chunk} {bin : ℕ → List ℕ} {c : Chunk} {x : ℕ}

section
variable {m' : Mem} {l r : List Chunk}

theorem Inv.of_agree_low (h : Inv b m cs bin) (hbase : 16 ≤ b.base) (hag : Agree m m' 0 16) : Inv b m' cs bin := by
  have hhdr : ∀ c ∈ cs, HeaderOk m' c := by
    intro c hc
    have hlow := (h.tiles.bounds hc).1
    unfold kernelHeapBottom at hlow
    exact (h.hdr c hc).congr hag (.inl (by omega))
  have hsite : ∀ i < recycleBinSize, ∀ x ∈ b.addr i :: bin i, 16 ≤ x := fun i hi x hx =>
    hbase.trans (h.layout.base_le_site (h.site_of_mem hi hx))
  refine ⟨h.tiles, hhdr, fun i hi => ?_, h.mem_bin, h.nodup, fun i hi => ?_⟩
  · refine (h.linked i hi).congr (fun x hx => hag.read (.inr ?_)) (fun x hx => hag.read (.inr ?_))
    · exact (hsite i hi x hx).trans (by omega)
    · exact hsite i hi x hx
  · exact h.sorted_congr hi fun c hc _ => (hhdr c hc).size

theorem agree_markFree_null (m : Mem) : Agree m (markFree m 0) 0 16 := (agree_markFree m 0).mono (by omega) le_rfl

theorem next_getLastD {next prev : ℕ → ℕ} {e p : ℕ} {zs : List ℕ} (h : Seg next prev e (p :: zs) 0) :
    next (zs.getLastD p) = 0 := by
  induction zs generalizing e p with
  | nil => exact h.2.1
  | cons z zs ih =>
    rw [List.getLastD_cons]
    exact ih h.2.2

theorem setNext_zero (h : hdrNext m x = 0) : setNext m x 0 = m := Mem.write_zero h

/-- **`__free(NULL)` where the word at address 8 is not the size of a block**: the header at address 0 is marked free,
and nothing points to it. -/
theorem Inv.free_null (h : Inv b m cs bin) (hbase : 16 ≤ b.base) (hnull : kernelHeapTop ≤ hdrSize m 0) :
    ∃ m', freeOfNull b m = .ok m' ∧ Agree m m' 0 16 ∧ hdrSize m' 0 = hdrSize m 0 ∧ hdrFree m' 0 = 1 := by
  have hword : hdrSize m 0 < 2 ^ 32 := m.read_lt 8 4
  have hcoalesce : coalesce m 0 = .ok m := by
    have hnext : nextBlock m 0 = 0 := by
      rw [nextBlock, if_neg]
      unfold u32
      omega
    have hge : 16 ≤ hdrSize m 0 := le_trans (by decide) hnull
    simp only [coalesce, hnext, ensure_of hge, bind, Except.bind, ne_eq, not_true_eq_false, false_and, if_false]
  set i := lengthToRecycleBinIndex (i32 (u32 ((hdrSize m 0 : ℤ) - 16 - 4))) with hidef
  have hi : i < recycleBinSize := lengthToRecycleBinIndex_lt _
  have hpos : ∀ z ∈ bin i, z ≠ 0 := fun z hz =>
    (h.layout.site_pos (h.site_of_mem hi (List.mem_cons_of_mem _ hz))).1.ne'
  -- every chunk is smaller
  have hfind : findNotSmaller m (hdrSize m 0) walkFuel (hdrNext m (b.addr i)) = .ok 0 := by
    obtain ⟨-, hhead, hseg⟩ := h.linked i hi
    obtain ⟨xs, ys, hbin, hfound, -, hys⟩ :=
      findNotSmaller_spec (hdrSize m 0) hseg hpos hhead _ (h.bin_length_lt hi)
    cases ys with
    | nil => exact hfound
    | cons y ys =>
      obtain ⟨d, hd, rfl, -⟩ := (h.mem_bin i hi y).1 (by simp [hbin])
      have hle := hys d.addr rfl
      have hbound := h.tiles.bounds hd
      rw [(h.hdr d hd).size] at hle
      unfold kernelHeapTop kernelHeapBottom at *
      omega
  have h1 := h.of_agree_low hbase (agree_markFree_null m)
  have hlast := findLast_spec (h1.linked i hi) hpos _ (h.bin_length_lt hi)
  set last := (bin i).getLastD (b.addr i)
  have hmem : last ∈ b.addr i :: bin i := List.getLastD_mem_cons
  have hsite := hbase.trans (h.layout.base_le_site (h.site_of_mem hi hmem))
  set m2 := setNext (setPrev (markFree m 0) 0 last) 0 0
  have hag2 : Agree (markFree m 0) m2 0 8 := (agree_setPrev _ _ _).trans (agree_setNext _ _ _)
  have hend : hdrNext m2 last = 0 := (hag2.read (.inr (by omega))).trans (next_getLastD (h1.linked i hi))
  have hrecycle : recycle b m 0 = .ok m2 := by
    unfold markFree at hlast
    simp only [recycle, ← hidef, hfind, hlast, bind, Except.bind, ne_eq, not_true_eq_false, if_false]
    exact congrArg Except.ok (setNext_zero hend)
  refine ⟨m2, ?_, (agree_markFree_null m).trans (hag2.mono le_rfl (by omega)), ?_, ?_⟩
  · simp only [freeOfNull, __free, hcoalesce, bind, Except.bind, hrecycle]
  · rw [hdrSize, hag2.read (by omega), (agree_markFree m 0).read (by omega), hdrSize]
  have hmark : hdrFree (markFree m 0) 0 = 1 := by
    simp only [hdrFree, markFree, setPadding, setFree]
    rw [padFree_setPadPadding, padFree_setPadFree (by omega)]
  rw [← hmark, hdrFree, padFree, hag2.read (by omega), hdrFree, padFree]

theorem free_null_assertion (b : Bins) (hsmall : hdrSize m 0 < 16) : freeOfNull b m = .error .assertion := by
  have hensure : ensure (16 ≤ hdrSize m 0) = .error .assertion := if_neg (by omega)
  rw [freeOfNull, __free, coalesce, hensure]
  rfl

/-- **Steps 4 to 6 of `__malloc`**: when nothing is split off, the header at address 0 is marked free. -/
theorem SettledHeap.carve (h : SettledHeap b m (l ++ c :: r) bin) (hfree : c.use = .free) (padding left : ℕ)
    (hfit : 20 + padding + left ≤ c.size) :
    ∃ m' size rest bin', carveChunk (freeOfNull b) b m c.addr padding left = .ok m' ∧
      Inv b m' (l ++ ⟨c.addr, size, .loose⟩ :: rest) bin' ∧ Occupied m' c.addr padding ∧
      kernelHeapTop ≤ hdrSize m' 0 ∧ LeftOver c r left size rest ∧ (left ≤ 20 → hdrFree m' 0 = 1) := by
  have hr : ∀ d ∈ r, d.use ≠ .loose := fun d hd => h.settled d (by simp [hd])
  have hlow := (h.inv.tiles.bounds (c := c) (by simp)).1
  unfold kernelHeapBottom at hlow
  obtain ⟨m1, size, rest, bin', hm1, h1, ho, hbelow, hleft⟩ := h.inv.carve_loose hfree hr padding left hfit
  have hbase := h.bins_above
  have hnull : hdrSize m1 0 = hdrSize m 0 := Mem.read_congr fun x _ hx => hbelow x (by omega)
  rw [h.inv.carveChunk_eq hfree (freeOfNull b) (by omega), hm1]
  by_cases hlt : left > 20
  · exact ⟨m1, size, rest, bin', if_pos hlt, h1, ho, hnull ▸ h.null_size, hleft, fun hle => by omega⟩
  obtain ⟨m2, hm2, hag, hsize, hmarked⟩ := h1.free_null hbase (hnull ▸ h.null_size)
  refine ⟨m2, size, rest, bin', (if_neg hlt).trans hm2, h1.of_agree_low hbase hag,
    ho.congr fun a ha _ => hag a (by omega), ?_, hleft, fun _ => hmarked⟩
  rw [hsize, hnull]
  exact h.null_size

theorem Inv.carve_whole (h : Inv b m cs bin) (hc : c ∈ cs) (hfree : c.use = .free) (freeNull : Mem → Except Fault Mem)
    {padding left : ℕ} (hle : left ≤ 20) (hlt : c.addr + 16 + padding < 2 ^ 32) : ∃ m1, detachChunk m c.addr = .ok m1 ∧
      carveChunk freeNull b m c.addr padding left = freeNull (occupyChunk m1 c.addr padding) ∧
      ∀ x < b.base, occupyChunk m1 c.addr padding x = m x := by
  obtain ⟨l, r, rfl⟩ := List.append_of_mem hc
  obtain ⟨m1, hm1, -⟩ := h.detach hfree
  have hbase : b.base + 16 ≤ kernelHeapBottom := b.addr_add_le (i := 0) (by decide)
  have hlow := (h.tiles.bounds hc).1
  refine ⟨m1, hm1, ?_, fun x hx => ?_⟩
  · simp only [carveChunk, hm1, bind, Except.bind, if_neg (show ¬left > 16 + 4 by omega), if_true]
  rw [(occupyChunk_spec m1 c.addr padding hlt).2.1 x (.inl (by omega))]
  exact h.detach_onlyLinks hc hfree hm1 x fun y hy => .inl (hx.trans_le (h.layout.base_le_site hy))

/-! ## Allocations without a split -/

theorem mallocInit_below (b : Bins) (m : Mem) (hx : x < b.base) : mallocInit b m x = m x := by
  have hbase : b.base + 16 ≤ kernelHeapBottom := b.addr_add_le (i := 0) (by decide)
  have hmisc : b.base ≤ b.addr miscBin := Nat.le_add_right _ _
  simp only [mallocInit, setNext, setPrev, setSize, setPadding, setFree, setMagic, setPadPadding, setPadFree,
    setPadMagic]
  rw [Mem.write_apply_of_lt (by omega), Mem.write_apply_of_lt (by omega), Mem.write_apply_of_lt (by omega),
    Mem.write_apply_of_lt (by omega), Mem.write_apply_of_lt (by omega), Mem.write_apply_of_lt (by omega),
    Mem.write_apply_of_lt (by omega), Mem.write_apply_of_lt (by omega), Mem.fill_apply_of_lt (by omega),
    Mem.fill_apply_of_lt (by omega)]

theorem mallocInit_read_low (b : Bins) (hbase : 16 ≤ b.base) (m : Mem) {a n : ℕ} (ha : a + n ≤ 16) :
    (mallocInit b m).read a n = m.read a n :=
  Mem.read_congr fun _ _ hx => mallocInit_below b m (by omega)

theorem heap_init (b : Bins) (hbase : 16 ≤ b.base) (m : Mem) (hnull : kernelHeapTop ≤ hdrSize m 0) :
    SettledHeap b (mallocInit b m) [⟨kernelHeapBottom, kernelHeapTop - kernelHeapBottom, .free⟩]
      fun i => if i = miscBin then [kernelHeapBottom] else [] := by
  refine ⟨mallocInit_spec b m, by simp, hbase, ?_⟩
  rw [hdrSize, mallocInit_read_low b hbase m (by omega)]
  exact hnull

end

def withLow (m low : Mem) : Mem := fun x => if x < 16 then low x else m x

theorem agree_withLow (m low : Mem) : Agree m (withLow m low) 0 16 := fun x hx => if_neg (by omega)

/-- `__malloc` takes the chunk out of its bin and writes its headers, and the first 16 bytes of the memory stay. -/
def OnlyOwnHeaders (b : Bins) (m : Mem) (hdr len align : ℕ) : Prop :=
  ∃ m₁, detachChunk m hdr = .ok m₁ ∧ ∀ low, __malloc (freeOfNull b) b (withLow m low) hdr len align =
    .ok (withLow (occupyChunk m₁ hdr (alignPadding hdr align)) low, hdr + 20 + alignPadding hdr align)

theorem Inv.malloc_whole (h : Inv b m cs bin) (hc : c ∈ cs) (hfree : c.use = .free) {len k : ℕ} (hk : k < 32)
    (hroom : hasRoom len (2 ^ k) c = true) (hleft : u32 (c.size - 16 - 4 - alignPadding c.addr (2 ^ k) - len) ≤ 20) :
    ∃ m3, (∀ x < b.base, m3 x = m x) ∧ __malloc (freeOfNull b) b m c.addr len (2 ^ k) =
      freeOfNull b m3 >>= fun m' => .ok (m', c.addr + 20 + alignPadding c.addr (2 ^ k)) := by
  have hbound := (h.tiles.bounds hc).2
  unfold kernelHeapTop at hbound
  have hpad := (alignPadding_spec c.addr hk (by omega)).1
  have hpow : 2 ^ k ≤ 2 ^ 31 := Nat.pow_le_pow_right (by omega) (by omega)
  obtain ⟨m1, -, hcarve, hbelow⟩ := h.carve_whole hc hfree (freeOfNull b) hleft
    (show c.addr + 16 + alignPadding c.addr (2 ^ k) < 2 ^ 32 by omega)
  refine ⟨_, hbelow, ?_⟩
  rw [h.malloc_chunk_eq (freeOfNull b) hk hc hfree, if_pos hroom, takeChunk, hcarve]

/-- **An allocation without a split never leaves the memory at address 0 alone.** -/
theorem no_split_touches_null (b : Bins) (hbase : 16 ≤ b.base) (m : Mem) (cs : List Chunk) (bin : ℕ → List ℕ)
    (h : Inv b m cs bin) (c : Chunk) (hc : c ∈ cs) (hfree : c.use = .free) (len k : ℕ) (hk : k < 32)
    (hroom : hasRoom len (2 ^ k) c = true) (hleft : u32 (c.size - 16 - 4 - alignPadding c.addr (2 ^ k) - len) ≤ 20) :
    ¬OnlyOwnHeaders b m c.addr len (2 ^ k) := by
  rintro ⟨m1, -, hall⟩
  -- a word of zeros at address 8
  have h0 := h.of_agree_low hbase (agree_withLow m fun _ => 0)
  obtain ⟨m3, hbelow, hmalloc⟩ := h0.malloc_whole hc hfree hk hroom hleft
  have hsize : hdrSize m3 0 = 0 := by
    rw [hdrSize, Mem.read_congr fun x _ hx => hbelow x (by omega)]
    rfl
  rw [hall fun _ => 0, free_null_assertion b (by omega)] at hmalloc
  cases hmalloc

def clearMem : Mem := fun _ => 0

theorem no_split_touches_null_all : ¬OnlyOwnHeaders imageBins (mallocInit imageBins clearMem) kernelHeapBottom
      (kernelHeapTop - kernelHeapBottom - 20) (2 ^ 0) :=
  no_split_touches_null imageBins (by decide) _ _ _ (mallocInit_spec imageBins clearMem)
    ⟨kernelHeapBottom, kernelHeapTop - kernelHeapBottom, .free⟩ (by simp) rfl _ 0 (by decide) (by decide) (by decide)

def vectorMem : Mem := clearMem.write 8 4 0xF000E2C3

/-- **The whole heap as one allocation**: the kernel stops, or the header at address 0 is marked free. -/
theorem null_header_written : __malloc (freeOfNull imageBins) imageBins (mallocInit imageBins clearMem) kernelHeapBottom
      (kernelHeapTop - kernelHeapBottom - 20) (2 ^ 0) = .error .assertion ∧
    hdrFree (mallocInit imageBins vectorMem) 0 = 0 ∧
    ∃ m', __malloc (freeOfNull imageBins) imageBins (mallocInit imageBins vectorMem) kernelHeapBottom
      (kernelHeapTop - kernelHeapBottom - 20) (2 ^ 0) = .ok (m', kernelHeapBottom + 20) ∧ hdrFree m' 0 = 1 := by
  set c : Chunk := ⟨kernelHeapBottom, kernelHeapTop - kernelHeapBottom, .free⟩
  have hroom : hasRoom (kernelHeapTop - kernelHeapBottom - 20) (2 ^ 0) c = true := by decide
  refine ⟨?_, ?_, ?_⟩
  · obtain ⟨m3, hbelow, hmalloc⟩ := (mallocInit_spec imageBins clearMem).malloc_whole (by simp [c]) rfl
      (by decide) hroom (by decide)
    have hsize : hdrSize m3 0 = 0 := by
      rw [hdrSize, Mem.read_congr fun x _ hx => hbelow x (lt_trans hx (by decide)),
        mallocInit_read_low imageBins (by decide) clearMem (by decide)]
      rfl
    rfl
  · decide
  have hheap := heap_init imageBins (by decide) vectorMem (by decide)
  obtain ⟨m', -, -, -, hm', -, -, -, -, hmarked⟩ :=
    SettledHeap.carve (l := []) hheap rfl 0 0 (by decide)
  refine ⟨m', ?_, hmarked (by decide)⟩
  have hpad : alignPadding c.addr (2 ^ 0) = 0 := by decide
  have hleft : u32 (c.size - 16 - 4 - (0 : ℕ) - (kernelHeapTop - kernelHeapBottom - 20 : ℕ)) = 0 := by decide
  rw [show kernelHeapBottom = c.addr from rfl,
    hheap.inv.malloc_chunk_eq (freeOfNull imageBins) (by decide) (by simp [c]) rfl,
    if_pos hroom, takeChunk, hpad, hleft]
  exact bind_of_ok hm' rfl

end ZeldaOS
