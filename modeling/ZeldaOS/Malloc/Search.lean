import ZeldaOS.Machine.BestFit
import ZeldaOS.Malloc.Alloc

/-!
# The search for a chunk

`malloc_align` tries the free chunks in the order of their bins, which is the order of their sizes.

* `Inv.malloc_align_eq`: the first chunk with room is taken.
* `malloc_align_complete`: allocation is complete and best fit.
-/

namespace ZeldaOS

open Machine List

/-! ## The order of the bins -/

def chunkAt (cs : List Chunk) (x : ℕ) : Option Chunk := cs.find? fun c => c.addr == x

def binChunks (cs : List Chunk) (zs : List ℕ) : List Chunk := zs.filterMap (chunkAt cs)

/-- The free chunks, bin after bin. -/
def searchOrder (cs : List Chunk) (bin : ℕ → List ℕ) : List Chunk :=
  (List.range recycleBinSize).flatMap fun i => binChunks cs (bin i)

def hasRoom (len align : ℕ) (c : Chunk) : Bool :=
  decide (u32 (len + 16 + 4) ≤ c.size) && decide (u32 (len + 16 + 4 + alignPadding c.addr align) ≤ c.size)

def takeChunk (freeNull : Mem → Except Fault Mem) (b : Bins) (m : Mem) (len align : ℕ) (c : Chunk) :
    Except Fault (Mem × ℕ) := do
  let m₁ ← carveChunk freeNull b m c.addr (alignPadding c.addr align)
    (u32 (c.size - 16 - 4 - alignPadding c.addr align - len))
  .ok (m₁, c.addr + 20 + alignPadding c.addr align)

def firstFit (freeNull : Mem → Except Fault Mem) (b : Bins) (m : Mem) (len align : ℕ) (ds : List Chunk) :
    Except Fault (Mem × ℕ) :=
  ((ds.find? (hasRoom len align)).map (takeChunk freeNull b m len align)).getD (.ok (m, 0))

theorem lengthToRecycleBinIndex_mono {x y : ℤ} (h : x ≤ y) : lengthToRecycleBinIndex x ≤ lengthToRecycleBinIndex y := by
  refine findIdx_le_findIdx fun l _ hl => ?_
  rw [decide_eq_true_eq] at hl ⊢
  exact h.trans hl

theorem lt_of_homeBin_lt {x y : ℕ} (h : homeBin x < homeBin y) : x < y := by
  by_contra hc
  have hle : homeBin y ≤ homeBin x := lengthToRecycleBinIndex_mono (by omega)
  omega

variable {b : Bins} {m : Mem} {cs : List Chunk} {bin : ℕ → List ℕ} {c : Chunk} {i : ℕ}

section Order

theorem Layout.chunkAt_eq (h : Layout cs) (hc : c ∈ cs) : chunkAt cs c.addr = some c := by
  unfold chunkAt
  cases hfind : cs.find? fun d => d.addr == c.addr with
  | none =>
    have hnot := find?_eq_none.1 hfind c hc
    simp at hnot
  | some d =>
    have hd := find?_some hfind
    rw [beq_iff_eq] at hd
    rw [h.chunk_ext (mem_of_find?_eq_some hfind) hc hd]

theorem Inv.mem_binChunks (h : Inv b m cs bin) (hi : i < recycleBinSize) :
    c ∈ binChunks cs (bin i) ↔ c ∈ cs ∧ c.use = .free ∧ homeBin c.size = i := by
  rw [binChunks, mem_filterMap]
  constructor
  · rintro ⟨x, hx, hat⟩
    obtain ⟨d, hd, rfl, hfree, hhome⟩ := (h.mem_bin i hi x).1 hx
    rw [h.layout.chunkAt_eq hd] at hat
    cases hat
    exact ⟨hd, hfree, hhome⟩
  · rintro ⟨hc, hfree, hhome⟩
    exact ⟨c.addr, (h.mem_bin i hi _).2 ⟨c, hc, rfl, hfree, hhome⟩, h.layout.chunkAt_eq hc⟩

theorem Inv.mem_searchOrder (h : Inv b m cs bin) : c ∈ searchOrder cs bin ↔ c ∈ cs ∧ c.use = .free := by
  rw [searchOrder, mem_flatMap]
  constructor
  · rintro ⟨i, hi, hc⟩
    obtain ⟨hmem, hfree, -⟩ := (h.mem_binChunks (mem_range.1 hi)).1 hc
    exact ⟨hmem, hfree⟩
  · rintro ⟨hc, hfree⟩
    exact ⟨homeBin c.size, mem_range.2 (homeBin_lt _), (h.mem_binChunks (homeBin_lt _)).2 ⟨hc, hfree, rfl⟩⟩

theorem Inv.sorted_binChunks (h : Inv b m cs bin) (hi : i < recycleBinSize) :
    (binChunks cs (bin i)).Pairwise fun x y => x.size ≤ y.size := by
  rw [binChunks, pairwise_filterMap]
  refine (h.sorted i hi).imp_of_mem fun {x y} hx hy hle => ?_
  obtain ⟨c, hc, rfl, -⟩ := (h.mem_bin i hi x).1 hx
  obtain ⟨d, hd, rfl, -⟩ := (h.mem_bin i hi y).1 hy
  rw [h.layout.chunkAt_eq hc, h.layout.chunkAt_eq hd]
  rw [(h.hdr c hc).size, (h.hdr d hd).size] at hle
  intro c' hc' d' hd'
  cases hc'
  cases hd'
  exact hle

theorem Inv.sorted_searchOrder (h : Inv b m cs bin) : (searchOrder cs bin).Pairwise fun x y => x.size ≤ y.size := by
  rw [searchOrder, pairwise_flatMap]
  refine ⟨fun i hi => h.sorted_binChunks (mem_range.1 hi), ?_⟩
  refine pairwise_lt_range.imp_of_mem fun {i j} hi hj hij x hx y hy => ?_
  obtain ⟨-, -, hxi⟩ := (h.mem_binChunks (mem_range.1 hi)).1 hx
  obtain ⟨-, -, hyj⟩ := (h.mem_binChunks (mem_range.1 hj)).1 hy
  exact (lt_of_homeBin_lt (by omega)).le

end Order

variable {len k : ℕ}

section Loops
variable {ds es : List Chunk} (freeNull : Mem → Except Fault Mem)

theorem Inv.malloc_chunk_eq (h : Inv b m cs bin) (hk : k < 32) (hc : c ∈ cs) (hfree : c.use = .free) :
    __malloc freeNull b m c.addr len (2 ^ k) =
      if hasRoom len (2 ^ k) c then takeChunk freeNull b m len (2 ^ k) c else .ok (m, 0) := by
  have hcok := h.hdr c hc
  have hbound := (h.tiles.bounds hc).2
  unfold kernelHeapTop at hbound
  obtain ⟨hpad, halign⟩ := alignPadding_spec c.addr hk (by omega)
  have hpow : 2 ^ k ≤ 2 ^ 31 := Nat.pow_le_pow_right (by omega) (by omega)
  have hf : hdrFree m c.addr = 1 := by
    have huse := hcok.use
    rwa [UseOk, hfree] at huse
  unfold hasRoom takeChunk
  set padding := alignPadding c.addr (2 ^ k) with hpaddef
  have husr : u32 ((u32 ((c.addr : ℤ) + 16 + 4) : ℕ) + padding) = c.addr + 20 + padding := by
    unfold u32
    omega
  have hmask : c.addr + 20 + padding &&& u32 ((2 ^ k : ℕ) - 1) = 0 := by
    rw [mask_two_pow hk, Nat.and_two_pow_sub_one_eq_mod]
    exact Nat.mod_eq_zero_of_dvd halign
  simp only [__malloc, hf, hcok.magic, validateAlignment_two_pow k hk, hcok.size, ← hpaddef, husr, hmask]
  by_cases h1 : u32 ((len : ℤ) + 16 + 4) ≤ c.size
  · rw [if_neg (by omega)]
    by_cases h2 : u32 ((len : ℤ) + 16 + 4 + padding) ≤ c.size
    · rw [if_neg (by omega), if_pos (by simp [h1, h2])]
      simp [bind, Except.bind, pure, Except.pure]
    rw [if_pos (by omega), if_neg (by simp [h2])]
    simp [bind, Except.bind, pure, Except.pure]
  · rw [if_pos (by omega), if_neg (by simp [h1])]
    simp [bind, Except.bind, pure, Except.pure]

/-! ## The search -/

theorem firstFit_of_none (hnone : ∀ d ∈ ds, hasRoom len (2 ^ k) d = false) :
    firstFit freeNull b m len (2 ^ k) ds = .ok (m, 0) := by
  have hfind : ds.find? (hasRoom len (2 ^ k)) = none :=
    find?_eq_none.2 fun d hd => by simp [hnone d hd]
  rw [firstFit, hfind]
  rfl

theorem firstFit_of_some (hfind : ds.find? (hasRoom len (2 ^ k)) = some c) :
    firstFit freeNull b m len (2 ^ k) ds = takeChunk freeNull b m len (2 ^ k) c := by
  rw [firstFit, hfind]
  rfl

theorem firstFit_append_of_none (hnone : ∀ d ∈ ds, hasRoom len (2 ^ k) d = false) :
    firstFit freeNull b m len (2 ^ k) (ds ++ es) = firstFit freeNull b m len (2 ^ k) es := by
  have hfind : ds.find? (hasRoom len (2 ^ k)) = none :=
    find?_eq_none.2 fun d hd => by simp [hnone d hd]
  rw [firstFit, find?_append, hfind, Option.none_or, firstFit]

theorem takeChunk_bind (len align : ℕ) (c : Chunk) (g : Mem × ℕ → Except Fault (Mem × ℕ)) :
    (takeChunk freeNull b m len align c >>= fun r => if r.2 ≠ 0 then .ok r else g r) =
      takeChunk freeNull b m len align c := by
  unfold takeChunk
  cases carveChunk freeNull b m c.addr (alignPadding c.addr align)
      (u32 (c.size - 16 - 4 - alignPadding c.addr align - len)) with
  | error e => rfl
  | ok m1 =>
    have hne : c.addr + 20 + alignPadding c.addr align ≠ 0 := by omega
    simp only [bind, Except.bind, ne_eq, hne, not_false_eq_true, if_true]

theorem Inv.malloc_bin_eq (h : Inv b m cs bin) (hk : k < 32) {e : ℕ} {zs : List ℕ}
    (hseg : Seg (hdrNext m) (hdrPrev m) e zs 0) (hzs : ∀ z ∈ zs, ∃ c ∈ cs, c.addr = z ∧ c.use = .free) (fuel : ℕ)
    (hfuel : zs.length < fuel) : mallocFromBin freeNull b len (2 ^ k) m fuel (zs.headD 0) =
      firstFit freeNull b m len (2 ^ k) (binChunks cs zs) := by
  induction zs generalizing fuel e with
  | nil =>
    obtain ⟨fuel, rfl⟩ := Nat.exists_eq_add_of_lt hfuel
    simp [mallocFromBin, binChunks, firstFit]
  | cons z zs ih =>
    obtain ⟨fuel, rfl⟩ := Nat.exists_eq_add_of_lt hfuel
    obtain ⟨c, hc, rfl, hfree⟩ := hzs z mem_cons_self
    have hz : c.addr ≠ 0 := (h.layout.site_pos (b := b) (Or.inr ⟨c, hc, rfl⟩)).1.ne'
    have hchunks : binChunks cs (c.addr :: zs) = c :: binChunks cs zs := by
      rw [binChunks, filterMap_cons_some (h.layout.chunkAt_eq hc)]
      rfl
    rw [headD_cons, mallocFromBin, if_neg hz, h.malloc_chunk_eq freeNull hk hc hfree, hchunks]
    cases hroom : hasRoom len (2 ^ k) c with
    | true =>
      rw [firstFit_of_some freeNull (find?_cons_of_pos hroom), if_pos rfl]
      exact takeChunk_bind freeNull len (2 ^ k) c _
    | false =>
      have hnext := ih hseg.2.2 (fun x hx => hzs x (mem_cons_of_mem _ hx)) ((c.addr :: zs).length + fuel)
        (by rw [length_cons]; omega)
      rw [firstFit, find?_cons_of_neg (by simp [hroom]), ← firstFit, ← hnext, ← hseg.2.1]
      rfl

theorem Inv.malloc_bins_eq (h : Inv b m cs bin) (hk : k < 32) {n : ℕ} (hn : i + n ≤ recycleBinSize) :
    mallocFromBins freeNull b len (2 ^ k) m n i =
      firstFit freeNull b m len (2 ^ k) ((List.range' i n).flatMap fun j => binChunks cs (bin j)) := by
  induction n generalizing i with
  | zero => rfl
  | succ n ih =>
    have hi : i < recycleBinSize := by omega
    have hzs : ∀ z ∈ bin i, ∃ c ∈ cs, c.addr = z ∧ c.use = .free := by
      intro z hz
      obtain ⟨c, hc, hca, hcf, -⟩ := (h.mem_bin i hi z).mp hz
      exact ⟨c, hc, hca, hcf⟩
    obtain ⟨-, hhead, hseg⟩ := h.linked i hi
    rw [mallocFromBins, hhead, h.malloc_bin_eq freeNull hk hseg hzs _ (h.bin_length_lt hi), range'_succ, flatMap_cons]
    cases hfind : (binChunks cs (bin i)).find? (hasRoom len (2 ^ k)) with
    | some c =>
      rw [firstFit_of_some freeNull hfind, firstFit_of_some freeNull (by rw [find?_append, hfind]; rfl)]
      exact takeChunk_bind freeNull len (2 ^ k) c _
    | none =>
      have hnone : ∀ d ∈ binChunks cs (bin i), hasRoom len (2 ^ k) d = false := fun d hd => by
        simpa using find?_eq_none.1 hfind d hd
      rw [firstFit_of_none freeNull hnone, firstFit_append_of_none freeNull hnone, ← ih (by omega)]
      rfl

theorem hasRoom_of_bin_lt (hlen : len < 2 ^ 31) (hlt : homeBin c.size < lengthToRecycleBinIndex len) :
    hasRoom len (2 ^ k) c = false := by
  have hsize : c.size < len + 20 := by
    by_contra hc
    have hle : lengthToRecycleBinIndex len ≤ homeBin c.size := lengthToRecycleBinIndex_mono (by omega)
    omega
  have hword : u32 ((len : ℤ) + 16 + 4) = len + 20 := by
    unfold u32
    omega
  rw [hasRoom, hword, Bool.and_eq_false_iff]
  exact .inl (decide_eq_false (by omega))

/-- **`malloc_align` takes the first chunk with room in the order of the bins.** -/
theorem Inv.malloc_align_eq (h : Inv b m cs bin) (hlen : len < 2 ^ 32) (hk : k < 32) :
    mallocAlign freeNull b m len (2 ^ k) = firstFit freeNull b m len (2 ^ k) (searchOrder cs bin) := by
  set idx := lengthToRecycleBinIndex (i32 len) with hidx
  have hlt : idx < recycleBinSize := lengthToRecycleBinIndex_lt _
  have hsplit : List.range recycleBinSize = List.range idx ++ List.range' idx (recycleBinSize - idx) := by
    rw [range_eq_range', range_eq_range']
    have happend := range'_append_1 (s := 0) (m := idx) (n := recycleBinSize - idx)
    rw [zero_add, Nat.add_sub_of_le hlt.le] at happend
    exact happend.symm
  have hskip : ∀ d ∈ (List.range idx).flatMap fun j => binChunks cs (bin j), hasRoom len (2 ^ k) d = false := by
    intro d hd
    obtain ⟨i, hi, hdi⟩ := mem_flatMap.1 hd
    have hi := mem_range.1 hi
    obtain ⟨-, -, hhome⟩ := (h.mem_binChunks (hi.trans hlt)).1 hdi
    by_cases hneg : len < 2 ^ 31
    · rw [hidx, i32_of_lt hneg, ← hhome] at hi
      exact hasRoom_of_bin_lt hneg hi
    -- a negative length begins with the lowest bin
    have hle : i32 len ≤ 16 := by
      unfold i32
      split <;> omega
    have hzero : idx ≤ lengthToRecycleBinIndex 16 := lengthToRecycleBinIndex_mono hle
    have h16 : lengthToRecycleBinIndex 16 = 0 := by decide
    omega
  rw [mallocAlign, h.malloc_bins_eq freeNull hk (by omega), searchOrder, hsplit, flatMap_append,
    firstFit_append_of_none freeNull hskip]

end Loops

/-! ## Chunks with room -/

/-- The free chunk `c` has room for `len` bytes behind its headers and the padding. -/
structure Fits (c : Chunk) (len align : ℕ) : Prop where
  free : c.use = .free
  room : len + 20 + alignPadding c.addr align ≤ c.size

theorem alignPadding_one (hdr : ℕ) (hhdr : hdr + 20 < 2 ^ 32) : alignPadding hdr 1 = 0 :=
  Nat.lt_one_iff.1 (alignPadding_spec hdr (k := 0) (by omega) hhdr).1

theorem Inv.hasRoom_iff (h : Inv b m cs bin) (hlen : len < 2 ^ 31) (hk : k < 32) (hc : c ∈ cs) :
    hasRoom len (2 ^ k) c = true ↔ len + 20 + alignPadding c.addr (2 ^ k) ≤ c.size := by
  have hbound := (h.tiles.bounds hc).2
  unfold kernelHeapTop at hbound
  have hpad := (alignPadding_spec c.addr hk (by omega)).1
  have hpow : 2 ^ k ≤ 2 ^ 31 := Nat.pow_le_pow_right (by omega) (by omega)
  have hword : u32 ((len : ℤ) + 16 + 4) = len + 20 := by
    unfold u32
    omega
  rw [hasRoom, Bool.and_eq_true, decide_eq_true_eq, decide_eq_true_eq, hword]
  unfold u32
  omega

def AllocSpec (b : Bins) (m : Mem) (cs : List Chunk) (len align : ℕ)
    (res : Except Fault (Mem × ℕ)) : Prop :=
  res = .ok (m, 0) ∨
  ∃ l c r m' cs' bin', cs = l ++ c :: r ∧ c.use = .free ∧ 20 + alignPadding c.addr align + len ≤ c.size ∧
    res = .ok (m', c.addr + 20 + alignPadding c.addr align) ∧
    Carved l c r (alignPadding c.addr align) len align cs' ∧ Inv b m' cs' bin'

theorem Inv.malloc_align (h : Inv b m cs bin) (hcs : ∀ d ∈ cs, d.use ≠ .loose) (hlen : len < 2 ^ 31)
    (hk : k ≤ 16) : AllocSpec b m cs len (2 ^ k) (mallocAlign freeNullNop b m len (2 ^ k)) := by
  rw [h.malloc_align_eq freeNullNop (by omega) (by omega)]
  cases hfind : (searchOrder cs bin).find? (hasRoom len (2 ^ k)) with
  | none =>
    rw [firstFit, hfind]
    exact .inl rfl
  | some c =>
    obtain ⟨hc, hfree⟩ := h.mem_searchOrder.1 (mem_of_find?_eq_some hfind)
    have hroom := (h.hasRoom_iff hlen (by omega) hc).1 (find?_some hfind)
    have hbound := (h.tiles.bounds hc).2
    unfold kernelHeapTop at hbound
    obtain ⟨hpad, halign⟩ := alignPadding_spec c.addr (k := k) (by omega) (by omega)
    have hpow : 2 ^ k ≤ 2 ^ 16 := Nat.pow_le_pow_right (by omega) hk
    have hleft : u32 ((c.size : ℤ) - 16 - 4 - alignPadding c.addr (2 ^ k) - len) =
        c.size - 20 - alignPadding c.addr (2 ^ k) - len := by
      unfold u32
      omega
    obtain ⟨l, r, rfl⟩ := append_of_mem hc
    obtain ⟨m', cs', bin', hm', hcarved, hinv⟩ := h.carve hfree (fun d hd => hcs d (by simp [hd]))
      (by omega) (show 20 + alignPadding c.addr (2 ^ k) + len ≤ c.size by omega) halign
    rw [firstFit_of_some freeNullNop hfind, takeChunk, hleft, hm']
    exact .inr ⟨l, c, r, m', cs', bin', rfl, hfree, by omega, rfl, hcarved, hinv⟩

/-- **Allocation is complete and best fit.** -/
theorem malloc_align_complete (freeNull : Mem → Except Fault Mem) (b : Bins) (m : Mem) (cs : List Chunk)
    (bin : ℕ → List ℕ) (h : Inv b m cs bin) (len k : ℕ) (hlen : len < 2 ^ 31) (hk : k ≤ 16) :
    ((∃ m', mallocAlign freeNull b m len (2 ^ k) = .ok (m', 0)) ↔ ¬∃ c ∈ cs, Fits c len (2 ^ k)) ∧
    ((∃ c ∈ cs, Fits c len (2 ^ k)) → ∃ c ∈ cs, Fits c len (2 ^ k) ∧
      mallocAlign freeNull b m len (2 ^ k) = takeChunk freeNull b m len (2 ^ k) c ∧
      (k = 0 → ∀ d ∈ cs, d.use = .free → len + 20 ≤ d.size → c.size ≤ d.size)) := by
  rw [h.malloc_align_eq freeNull (by omega) (by omega)]
  have hroom : ∀ c ∈ cs, (hasRoom len (2 ^ k) c = true ↔ len + 20 + alignPadding c.addr (2 ^ k) ≤ c.size) :=
    fun c hc => h.hasRoom_iff hlen (by omega) hc
  cases hfind : (searchOrder cs bin).find? (hasRoom len (2 ^ k)) with
  | none =>
    have hnone : ¬∃ c ∈ cs, Fits c len (2 ^ k) := by
      rintro ⟨c, hc, hfits⟩
      exact find?_eq_none.1 hfind c (h.mem_searchOrder.2 ⟨hc, hfits.free⟩) ((hroom c hc).2 hfits.room)
    rw [firstFit, hfind]
    exact ⟨⟨fun _ => hnone, fun _ => ⟨m, rfl⟩⟩, fun hsome => absurd hsome hnone⟩
  | some c =>
    obtain ⟨hc, hfree⟩ := h.mem_searchOrder.1 (mem_of_find?_eq_some hfind)
    have hfits : Fits c len (2 ^ k) := ⟨hfree, (hroom c hc).1 (find?_some hfind)⟩
    rw [firstFit_of_some freeNull hfind]
    refine ⟨⟨?_, fun hnone => absurd ⟨c, hc, hfits⟩ hnone⟩, fun _ => ⟨c, hc, hfits, rfl, ?_⟩⟩
    · rintro ⟨m', hnull⟩
      obtain ⟨m1, -, hptr⟩ := bind_eq_ok hnull
      simp only [Except.ok.injEq, Prod.mk.injEq] at hptr
      omega
    rintro rfl d hd hdfree hle
    refine le_of_find?_sorted h.sorted_searchOrder hfind (h.mem_searchOrder.2 ⟨hd, hdfree⟩) ((hroom d hd).2 ?_)
    have hbound := (h.tiles.bounds hd).2
    unfold kernelHeapTop at hbound
    rw [pow_zero, alignPadding_one d.addr (by omega)]
    exact hle

def imageBins : Bins := ⟨0x180000, by decide, by decide⟩

theorem Inv.malloc_ne_null {b : Bins} {m m' : Mem} {cs : List Chunk} {bin : ℕ → List ℕ} {c : Chunk} {len k ptr : ℕ}
    (h : Inv b m cs bin) (hlen : len < 2 ^ 31) (hk : k < 32) (hc : c ∈ cs) (hfits : Fits c len (2 ^ k))
    (hm : mallocAlign freeNullNop b m len (2 ^ k) = .ok (m', ptr)) : ptr ≠ 0 := by
  rw [h.malloc_align_eq freeNullNop (by omega) hk] at hm
  cases hfind : (searchOrder cs bin).find? (hasRoom len (2 ^ k)) with
  | none =>
    have hno := find?_eq_none.1 hfind c (h.mem_searchOrder.2 ⟨hc, hfits.free⟩)
    exact absurd ((h.hasRoom_iff hlen hk hc).2 hfits.room) hno
  | some d =>
    rw [firstFit_of_some freeNullNop hfind] at hm
    obtain ⟨m1, -, hptr⟩ := bind_eq_ok hm
    obtain ⟨-, rfl⟩ := Prod.mk.inj (Except.ok.inj hptr)
    omega

/-- Where only the last chunk is free, 64 bytes are carved from it. -/
theorem Inv.malloc_last {b : Bins} {m : Mem} {l : List Chunk} {bin : ℕ → List ℕ} {a size : ℕ}
    (h : Inv b m (l ++ [⟨a, size, .free⟩]) bin) (hl : ∀ d ∈ l, d.use ≠ .free ∧ d.use ≠ .loose) (hsize : 104 < size) :
    ∃ m' bin', mallocAlign freeNullNop b m 64 (2 ^ 0) = .ok (m', a + 20) ∧
      Inv b m' (l ++ [⟨a, 84, .used 0 64 (2 ^ 0)⟩, ⟨a + 84, size - 84, .free⟩]) bin' := by
  have hmem : (⟨a, size, .free⟩ : Chunk) ∈ l ++ [⟨a, size, .free⟩] := mem_append_right _ mem_cons_self
  have hbound : a + size ≤ kernelHeapTop := (h.tiles.bounds hmem).2
  unfold kernelHeapTop at hbound
  have hpad : alignPadding a (2 ^ 0) = 0 := alignPadding_one a (by omega)
  have hfits : Fits ⟨a, size, .free⟩ 64 (2 ^ 0) := ⟨rfl, by dsimp only; omega⟩
  have hcs : ∀ d ∈ l ++ [⟨a, size, .free⟩], d.use ≠ .loose :=
    forall_mem_append.2 ⟨fun d hd => (hl d hd).2, forall_mem_singleton.2 nofun⟩
  rcases h.malloc_align hcs (show 64 < 2 ^ 31 by decide) (show 0 ≤ 16 by decide) with hnull | hsome
  · exact absurd rfl (h.malloc_ne_null (by decide) (by decide) hmem hfits hnull)
  obtain ⟨l', c, r, m', cs', bin', hsplit, hfree, -, hres, hcarved, hinv⟩ := hsome
  obtain rfl : c = ⟨a, size, .free⟩ := by
    have hc : c ∈ l ++ [⟨a, size, .free⟩] := by simp [hsplit]
    exact (mem_append.1 hc).elim (fun hc => absurd hfree (hl c hc).1) mem_singleton.1
  obtain ⟨rfl, rfl⟩ : l' = l ∧ r = [] := by
    rcases eq_nil_or_concat r with rfl | ⟨r, d, rfl⟩
    · exact ⟨(append_inj_left' hsplit rfl).symm, rfl⟩
    rw [concat_eq_append, ← cons_append, ← append_assoc] at hsplit
    have hin : (⟨a, size, .free⟩ : Chunk) ∈ l := by
      rw [append_inj_left' hsplit rfl]
      exact mem_append_right _ mem_cons_self
    exact absurd rfl (hl _ hin).1
  rw [hpad] at hcarved hres
  refine ⟨m', bin', hres, ?_⟩
  rcases hcarved with ⟨hsmall, -⟩ | ⟨left, size', r', -, hleft, rfl, ⟨rfl, rfl⟩ | ⟨d, hd, -⟩⟩
  · dsimp only at hsmall
    omega
  · dsimp only at hleft hinv
    rwa [show size - size' = 84 by omega, show size' = size - 84 by omega] at hinv
  · cases hd

/-- Two blocks of 64 bytes at the bottom of the heap. -/
theorem malloc_two : ∃ m₁ m₂ bin, mallocAlign freeNullNop imageBins (mallocInit imageBins fun _ => 0) 64 (2 ^ 0) =
        .ok (m₁, kernelHeapBottom + 20) ∧
      mallocAlign freeNullNop imageBins m₁ 64 (2 ^ 0) = .ok (m₂, kernelHeapBottom + 104) ∧
      Inv imageBins m₂ [⟨kernelHeapBottom, 84, .used 0 64 (2 ^ 0)⟩, ⟨kernelHeapBottom + 84, 84, .used 0 64 (2 ^ 0)⟩,
        ⟨kernelHeapBottom + 168, kernelHeapTop - kernelHeapBottom - 168, .free⟩] bin := by
  obtain ⟨m₁, bin₁, hm₁, h₁⟩ := Inv.malloc_last (l := []) (mallocInit_spec imageBins fun _ => 0) nofun (by decide)
  obtain ⟨m₂, bin₂, hm₂, h₂⟩ := Inv.malloc_last (l := [⟨kernelHeapBottom, 84, .used 0 64 (2 ^ 0)⟩]) h₁
    (forall_mem_singleton.2 ⟨nofun, nofun⟩) (by decide)
  exact ⟨m₁, m₂, bin₂, hm₁, hm₂, h₂⟩

/-- With the first of the two blocks free again, it is taken, although the chunk behind them is free as well. -/
theorem malloc_align_complete_freed : ∃ m cs bin, Inv imageBins m cs bin ∧ cs.map Chunk.size =
        [84, 84, kernelHeapTop - kernelHeapBottom - 168] ∧
      ∃ c ∈ cs, c.size = 84 ∧ mallocAlign freeNullNop imageBins m 64 (2 ^ 0) =
        takeChunk freeNullNop imageBins m 64 (2 ^ 0) c := by
  obtain ⟨m₁, m₂, bin, -, -, h⟩ := malloc_two
  obtain ⟨m, size, r', bin', -, hinv, hcase⟩ := Inv.free_chunk (l := []) h nofun (by simp)
  obtain ⟨rfl, rfl⟩ := hcase.resolve_right fun ⟨d, hd, hfree, _⟩ => by
    cases hd
    cases hfree
  have hfits : Fits ⟨kernelHeapBottom, 84, .free⟩ 64 (2 ^ 0) := ⟨rfl, by decide⟩
  obtain ⟨c, hc, hcfits, htake, hbest⟩ := (malloc_align_complete freeNullNop imageBins m _ bin' hinv 64 0 (by decide)
    (by decide)).2 ⟨_, mem_cons_self, hfits⟩
  have hle : c.size ≤ 84 := hbest rfl ⟨kernelHeapBottom, 84, .free⟩ mem_cons_self rfl (by decide)
  have hroom := hcfits.room
  exact ⟨m, _, bin', hinv, rfl, c, hc, by omega, htake⟩

end ZeldaOS
