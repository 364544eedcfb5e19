import ZeldaOS.Machine.Links
import ZeldaOS.Malloc.Header

/-!
# The heap invariant

The heap as a list of chunks in address order: free, in use, or `loose` while a call works on it.

* `Inv`: the invariant.
* `Inv.replace`: chunks in no bin may be rewritten.
* `mallocInit_spec`: it holds at the start.
-/

namespace ZeldaOS

open Machine List

/-! ## Chunks -/

/-- Nothing, `len` bytes for a client behind `padding`, or nothing yet. -/
inductive Use where
  | free
  | used (padding len align : ℕ)
  | loose

structure Chunk where
  addr : ℕ
  size : ℕ
  use : Use

/-- The chunks follow each other from `a` to `e`. -/
def Tiles : ℕ → List Chunk → ℕ → Prop
  | a, [], e => a = e
  | a, c :: cs, e => c.addr = a ∧ Tiles (a + c.size) cs e

def UseOk (m : Mem) (c : Chunk) : Prop :=
  match c.use with
  | .free => hdrFree m c.addr = 1
  | .used padding len align =>
    hdrFree m c.addr = 0 ∧ padPadding m (c.addr + 16 + padding) = padding ∧
      padMagic m (c.addr + 16 + padding) = mallocMagic ∧ 20 + padding + len ≤ c.size ∧
      align ∣ c.addr + 20 + padding
  | .loose => True

structure HeaderOk (m : Mem) (c : Chunk) : Prop where
  size_ge : 20 ≤ c.size
  size : hdrSize m c.addr = c.size
  magic : hdrMagic m c.addr = mallocMagic
  use : UseOk m c

def homeBin (size : ℕ) : ℕ := lengthToRecycleBinIndex (size - 20)

/-- A free chunk at `x` that belongs in bin `i`. -/
def FreeAt (cs : List Chunk) (i x : ℕ) : Prop :=
  ∃ c ∈ cs, c.addr = x ∧ c.use = .free ∧ homeBin c.size = i

/-- The chunks tile the heap, and each bin is a sorted list of the free chunks that belong there. -/
structure Inv (b : Bins) (m : Mem) (cs : List Chunk) (bin : ℕ → List ℕ) : Prop where
  tiles : Tiles kernelHeapBottom cs kernelHeapTop
  hdr : ∀ c ∈ cs, HeaderOk m c
  linked : ∀ i < recycleBinSize, Seg (hdrNext m) (hdrPrev m) 0 (b.addr i :: bin i) 0
  mem_bin : ∀ i < recycleBinSize, ∀ x, x ∈ bin i ↔ FreeAt cs i x
  nodup : ∀ i < recycleBinSize, (bin i).Nodup
  sorted : ∀ i < recycleBinSize, (bin i).Pairwise fun x y => hdrSize m x ≤ hdrSize m y

variable {a e : ℕ} {cs ds : List Chunk}

theorem tiles_append : Tiles a (cs ++ ds) e ↔ ∃ k, Tiles a cs k ∧ Tiles k ds e := by
  induction cs generalizing a with
  | nil => simp [Tiles]
  | cons c cs ih => simp [Tiles, ih, and_assoc]

theorem Tiles.le (h : Tiles a cs e) : a ≤ e := by
  induction cs generalizing a with
  | nil => exact le_of_eq h
  | cons c cs ih =>
    have := ih h.2
    omega

variable {c : Chunk}

theorem Tiles.bounds (h : Tiles a cs e) (hc : c ∈ cs) : a ≤ c.addr ∧ c.addr + c.size ≤ e := by
  induction cs generalizing a with
  | nil => cases hc
  | cons d cs ih =>
    obtain ⟨hd, ht⟩ := h
    rcases mem_cons.mp hc with rfl | hc
    · have := ht.le
      omega
    have := ih ht hc
    omega

theorem Tiles.pairwise (h : Tiles a cs e) : cs.Pairwise fun c d => c.addr + c.size ≤ d.addr := by
  induction cs generalizing a with
  | nil => exact List.Pairwise.nil
  | cons c cs ih =>
    obtain ⟨rfl, ht⟩ := h
    exact List.Pairwise.cons (fun d hd => (ht.bounds hd).1) (ih ht)

theorem Tiles.length_le (h : Tiles a cs e) (hsize : ∀ c ∈ cs, 20 ≤ c.size) : 20 * cs.length ≤ e - a := by
  induction cs generalizing a with
  | nil => simp
  | cons c cs ih =>
    have h1 := ih h.2 fun d hd => hsize d (mem_cons_of_mem _ hd)
    have h2 := hsize c mem_cons_self
    have h3 := h.2.le
    simp only [length_cons]
    omega

variable {d : Chunk}

theorem Tiles.apart (h : Tiles a cs e) (hc : c ∈ cs) (hd : d ∈ cs) :
    c = d ∨ c.addr + c.size ≤ d.addr ∨ d.addr + d.size ≤ c.addr := by
  induction cs generalizing a with
  | nil => cases hc
  | cons k cs ih =>
    obtain ⟨rfl, ht⟩ := h
    rcases mem_cons.mp hc with rfl | hc' <;> rcases mem_cons.mp hd with rfl | hd'
    · exact Or.inl rfl
    · exact Or.inr (Or.inl (ht.bounds hd').1)
    · exact Or.inr (Or.inr (ht.bounds hc').1)
    · exact ih ht hc' hd'

variable {m m' : Mem} {lo hi : ℕ}

theorem HeaderOk.congr (h : HeaderOk m c) (hag : Agree m m' lo hi) (hoff : hi ≤ c.addr + 8 ∨ c.addr + c.size ≤ lo) :
    HeaderOk m' c := by
  obtain ⟨h20, hsize, hmagic, huse⟩ := h
  refine ⟨h20, ?_, ?_, ?_⟩
  · rw [← hsize]
    exact hag.read (by omega)
  · rw [← hmagic]
    simp only [hdrMagic, padMagic]
    rw [hag.read (by omega)]
  unfold UseOk at huse ⊢
  cases hu : c.use with
  | loose => trivial
  | free =>
    rw [hu] at huse
    simp only [hdrFree, padFree] at huse ⊢
    rw [hag.read (by omega), huse]
  | used padding len align =>
    rw [hu] at huse
    simp only [hdrFree, padFree, padPadding, padMagic] at huse ⊢
    obtain ⟨h1, h2, h3, h4, h5⟩ := huse
    rw [hag.read (by omega), hag.read (by omega), hag.read (by omega)]
    exact ⟨h1, h2, h3, h4, h5⟩

/-! ## Sites

A site is the address of a bin or of a chunk: the headers that can be linked. -/

def IsSite (b : Bins) (cs : List Chunk) (x : ℕ) : Prop :=
  (∃ i < recycleBinSize, x = b.addr i) ∨ ∃ c ∈ cs, x = c.addr

structure Layout (cs : List Chunk) : Prop where
  tiles : Tiles kernelHeapBottom cs kernelHeapTop
  size_ge : ∀ c ∈ cs, 20 ≤ c.size

variable {i : ℕ}

theorem Bins.addr_add_le (b : Bins) (hi : i < recycleBinSize) : b.addr i + 16 ≤ kernelHeapBottom := by
  have := b.below
  unfold Bins.addr
  omega

variable {b : Bins} {x v : ℕ}

section Sites
variable (h : Layout cs)
include h

theorem Layout.site_off (hx : IsSite b cs x) (hc : c ∈ cs) : x = c.addr ∨ x + 16 ≤ c.addr ∨ c.addr + c.size ≤ x := by
  rcases hx with ⟨i, hi, rfl⟩ | ⟨d, hd, rfl⟩
  · have h1 := b.addr_add_le hi
    have h2 := (h.tiles.bounds hc).1
    omega
  · have h20 := h.size_ge d hd
    rcases h.tiles.apart hd hc with rfl | hlt | hlt <;> omega

theorem Layout.site_apart {y : ℕ} (hx : IsSite b cs x) (hy : IsSite b cs y) (hne : y ≠ x) : Apart x y := by
  rcases hy with ⟨j, hj, rfl⟩ | ⟨c, hc, rfl⟩
  · rcases hx with ⟨i, hi, rfl⟩ | ⟨d, hd, rfl⟩
    · unfold Apart Bins.addr at *
      omega
    have h1 := b.addr_add_le hj
    have h2 := (h.tiles.bounds hd).1
    exact Or.inr (by omega)
  · have h20 := h.size_ge c hc
    unfold Apart
    rcases h.site_off hx hc with he | hlt | hlt <;> omega

theorem Layout.site_pos (hx : IsSite b cs x) : 0 < x ∧ x < 256 ^ 4 := by
  rcases hx with ⟨i, hi, rfl⟩ | ⟨c, hc, rfl⟩
  · have h1 := b.addr_add_le hi
    have h2 := b.pos
    unfold Bins.addr kernelHeapBottom at *
    omega
  · have h1 := h.tiles.bounds hc
    unfold kernelHeapBottom kernelHeapTop at h1
    omega

theorem Layout.base_le_site (hx : IsSite b cs x) : b.base ≤ x := by
  rcases hx with ⟨i, -, rfl⟩ | ⟨c, hc, rfl⟩
  · exact Nat.le_add_right _ _
  have hlow := (h.tiles.bounds hc).1
  have hbelow := b.below
  omega

theorem Layout.chunk_ext (hc : c ∈ cs) (hd : d ∈ cs) (he : c.addr = d.addr) : c = d := by
  have h1 := h.size_ge c hc
  have h2 := h.size_ge d hd
  rcases h.tiles.apart hc hd with rfl | hlt | hlt
  · rfl
  all_goals omega

theorem Layout.header_setNext (hx : IsSite b cs x) (hc : c ∈ cs) (hok : HeaderOk m c) : HeaderOk (setNext m x v) c := by
  refine hok.congr (agree_setNext m x v) ?_
  rcases h.site_off hx hc with he | hlt | hlt <;> omega

theorem Layout.header_setPrev (hx : IsSite b cs x) (hc : c ∈ cs) (hok : HeaderOk m c) : HeaderOk (setPrev m x v) c := by
  refine hok.congr (agree_setPrev m x v) ?_
  rcases h.site_off hx hc with he | hlt | hlt <;> omega

end Sites

variable {bin : ℕ → List ℕ}

section Bins

theorem lengthToRecycleBinIndex_lt (len : ℤ) : lengthToRecycleBinIndex len < recycleBinSize := by
  have h : lengthToRecycleBinIndex len ≤ binLen.length := findIdx_le_length
  exact lt_of_le_of_lt h (by decide)

theorem homeBin_lt (size : ℕ) : homeBin size < recycleBinSize := lengthToRecycleBinIndex_lt _

variable (h : Inv b m cs bin)
include h

theorem Inv.layout : Layout cs := ⟨h.tiles, fun c hc => (h.hdr c hc).size_ge⟩

theorem Inv.site_of_mem (hi : i < recycleBinSize) (hx : x ∈ b.addr i :: bin i) :
    IsSite b cs x := by
  rcases mem_cons.mp hx with rfl | hx
  · exact Or.inl ⟨i, hi, rfl⟩
  obtain ⟨c, hc, rfl, -⟩ := (h.mem_bin i hi x).mp hx
  exact Or.inr ⟨c, hc, rfl⟩

theorem Inv.site_nodup (hi : i < recycleBinSize) : (b.addr i :: bin i).Nodup := by
  refine nodup_cons.mpr ⟨fun hx => ?_, h.nodup i hi⟩
  obtain ⟨c, hc, hca, -⟩ := (h.mem_bin i hi _).mp hx
  have h1 := b.addr_add_le hi
  have h2 := (h.tiles.bounds hc).1
  omega

theorem Inv.bin_disjoint {j : ℕ} (hi : i < recycleBinSize) (hj : j < recycleBinSize) (hij : j ≠ i)
    (hx : x ∈ b.addr i :: bin i) : x ∉ b.addr j :: bin j := by
  intro hx'
  have hlow : ∀ k < recycleBinSize, ∀ c ∈ cs, b.addr k ≠ c.addr := by
    intro k hk c hc he
    have h1 := b.addr_add_le hk
    have h2 := (h.tiles.bounds hc).1
    omega
  rcases mem_cons.mp hx with rfl | hx <;> rcases mem_cons.mp hx' with he | hx'
  · unfold Bins.addr at he
    omega
  · obtain ⟨c, hc, hca, -⟩ := (h.mem_bin j hj _).mp hx'
    exact hlow i hi c hc hca.symm
  · obtain ⟨c, hc, hca, -⟩ := (h.mem_bin i hi _).mp hx
    exact hlow j hj c hc (he.symm.trans hca.symm)
  obtain ⟨c, hc, hca, -, hci⟩ := (h.mem_bin i hi _).mp hx
  obtain ⟨d, hd, hda, -, hdj⟩ := (h.mem_bin j hj _).mp hx'
  rw [h.layout.chunk_ext hc hd (hca.trans hda.symm)] at hci
  exact hij (hdj.symm.trans hci)

theorem Inv.sorted_congr (hi : i < recycleBinSize)
    (hsize : ∀ c ∈ cs, c.use = .free → hdrSize m' c.addr = c.size) :
    (bin i).Pairwise fun x y => hdrSize m' x ≤ hdrSize m' y := by
  refine (h.sorted i hi).imp_of_mem fun {x y} hx hy hle => ?_
  obtain ⟨c, hc, rfl, hcf, -⟩ := (h.mem_bin i hi x).mp hx
  obtain ⟨d, hd, rfl, hdf, -⟩ := (h.mem_bin i hi y).mp hy
  rw [hsize c hc hcf, hsize d hd hdf, ← (h.hdr c hc).size, ← (h.hdr d hd).size]
  exact hle

end Bins

section Replace
variable {l es r : List Chunk}

theorem Tiles.end_unique {e' : ℕ} (h : Tiles a cs e) (h' : Tiles a cs e') : e = e' := by
  induction cs generalizing a with
  | nil => exact h.symm.trans h'
  | cons c cs ih => exact ih h.2 h'.2

theorem tiles_around (h : Tiles a (l ++ (c :: ds) ++ r) e) (hT : Tiles lo (c :: ds) hi) :
    Tiles a l lo ∧ Tiles hi r e := by
  rw [append_assoc, tiles_append] at h
  obtain ⟨k, hl, h⟩ := h
  obtain ⟨k', hd, hr⟩ := tiles_append.mp h
  obtain rfl : k = lo := hd.1.symm.trans hT.1
  rw [hT.end_unique hd]
  exact ⟨hl, hr⟩

theorem Inv.site_outside (h : Inv b m (l ++ (c :: ds) ++ r) bin) (hT : Tiles lo (c :: ds) hi)
    (hds : ∀ d ∈ c :: ds, d.use ≠ .free) (hi' : i < recycleBinSize) (hx : x ∈ b.addr i :: bin i) :
    x + 16 ≤ lo ∨ hi ≤ x := by
  obtain ⟨hl, hr⟩ := tiles_around h.tiles hT
  rcases mem_cons.mp hx with rfl | hx
  · have h1 := b.addr_add_le hi'
    have h2 := hl.le
    omega
  obtain ⟨d, hd, rfl, hfree, -⟩ := (h.mem_bin i hi' x).mp hx
  have h20 := (h.hdr d hd).size_ge
  rcases mem_append.mp hd with hd | hd
  · rcases mem_append.mp hd with hd | hd
    · have := hl.bounds hd
      omega
    · exact absurd hfree (hds d hd)
  · have := hr.bounds hd
    omega

/-- **Chunks in no bin may be rewritten, as long as they tile the same range.** -/
theorem Inv.replace (h : Inv b m (l ++ (c :: ds) ++ r) bin) (lo hi : ℕ) (hT : Tiles lo (c :: ds) hi)
    (hT' : Tiles lo es hi) (hds : ∀ d ∈ c :: ds, d.use ≠ .free)
    (hes : ∀ d ∈ es, d.use ≠ .free ∧ HeaderOk m' d) (hag : Agree m m' lo hi) : Inv b m' (l ++ es ++ r) bin := by
  obtain ⟨hl, hr⟩ := tiles_around h.tiles hT
  have hkeep : ∀ d ∈ l ++ r, HeaderOk m d → HeaderOk m' d := by
    intro d hd hok
    refine hok.congr hag ?_
    rcases mem_append.mp hd with hd | hd
    · exact Or.inr (hl.bounds hd).2
    · exact Or.inl (by have := hr.bounds hd; omega)
  have hmem : ∀ i < recycleBinSize, ∀ x, x ∈ bin i ↔ FreeAt (l ++ es ++ r) i x := by
    intro i hi' x
    rw [h.mem_bin i hi' x]
    constructor
    · rintro ⟨d, hd, hx, hf, hi''⟩
      refine ⟨d, ?_, hx, hf, hi''⟩
      simp only [mem_append] at hd ⊢
      tauto
    rintro ⟨d, hd, hx, hf, hi''⟩
    refine ⟨d, ?_, hx, hf, hi''⟩
    have : d ∉ es := fun hd' => (hes d hd').1 hf
    simp only [mem_append] at hd ⊢
    tauto
  refine ⟨?_, ?_, fun i hi' => ?_, hmem, h.nodup, fun i hi' => ?_⟩
  · exact tiles_append.mpr ⟨hi, tiles_append.mpr ⟨lo, hl, hT'⟩, hr⟩
  · intro d hd
    simp only [mem_append] at hd
    rcases hd with (hd | hd) | hd
    · exact hkeep d (by simp [hd]) (h.hdr d (by simp [hd]))
    · exact (hes d hd).2
    · exact hkeep d (by simp [hd]) (h.hdr d (by simp [hd]))
  · refine (h.linked i hi').congr (fun x hx => ?_) (fun x hx => ?_)
    · have := h.site_outside hT hds hi' hx
      exact hag.read (by omega)
    have := h.site_outside hT hds hi' hx
    exact hag.read (by omega)
  · refine h.sorted_congr hi' fun d hd hf => ?_
    have hd' : d ∈ l ++ r := by
      simp only [mem_append] at hd ⊢
      tauto
    exact (hkeep d hd' (h.hdr d hd)).size

end Replace

/-! ## The start -/

theorem mallocInit_fields (b : Bins) (m : Mem) :
    hdrSize (mallocInit b m) kernelHeapBottom = kernelHeapTop - kernelHeapBottom ∧
    hdrMagic (mallocInit b m) kernelHeapBottom = mallocMagic ∧ hdrFree (mallocInit b m) kernelHeapBottom = 1 ∧
    hdrPrev (mallocInit b m) kernelHeapBottom = b.addr miscBin ∧ hdrNext (mallocInit b m) kernelHeapBottom = 0 ∧
    (∀ i < recycleBinSize, hdrPrev (mallocInit b m) (b.addr i) = 0) ∧ ∀ i < recycleBinSize,
      hdrNext (mallocInit b m) (b.addr i) = if i = miscBin then kernelHeapBottom else 0 := by
  unfold mallocInit
  set m1 := (m.fill b.base (recycleBinSize * 16) 0).fill kernelHeapBottom 16 0
  set m2 := setNext (setPrev m1 kernelHeapBottom 0) kernelHeapBottom 0
  set m3 := setPadding (setSize m2 kernelHeapBottom (kernelHeapTop - kernelHeapBottom)) kernelHeapBottom 0
  set m4 := setMagic (setFree m3 kernelHeapBottom 1) kernelHeapBottom mallocMagic
  set m5 := setPrev m4 kernelHeapBottom (b.addr miscBin)
  have hmisc := b.addr_add_le (i := miscBin) (by decide)
  have hlt : b.addr miscBin < 256 ^ 4 := by
    unfold kernelHeapBottom at hmisc
    omega
  have h2 : Agree m1 m2 kernelHeapBottom (kernelHeapBottom + 8) :=
    (agree_setPrev _ _ _).trans (agree_setNext _ _ _)
  have h3 : Agree m2 m3 (kernelHeapBottom + 8) (kernelHeapBottom + 16) :=
    (agree_write (by omega) (by omega)).trans (agree_setPadPadding (by omega) (by omega))
  have h4 : Agree m3 m4 (kernelHeapBottom + 12) (kernelHeapBottom + 16) :=
    (agree_setPadFree (by omega) (by omega)).trans (agree_setPadMagic (by omega) (by omega))
  have h5 : Agree m4 m5 kernelHeapBottom (kernelHeapBottom + 4) := agree_write (by omega) (by omega)
  have h6 : Agree m5 (setNext m5 (b.addr miscBin) kernelHeapBottom) (b.addr miscBin + 4)
      (b.addr miscBin + 8) := agree_write (by omega) (by omega)
  have hbins : ∀ i < recycleBinSize, ∀ off n, off + n ≤ 16 → m5.read (b.addr i + off) n = 0 := by
    intro i hi off n hoff
    have hlow := b.addr_add_le hi
    have hspan : b.base ≤ b.addr i ∧ b.addr i + 16 ≤ b.base + recycleBinSize * 16 := by
      unfold Bins.addr
      omega
    rw [h5.read (by omega), h4.read (by omega), h3.read (by omega), h2.read (by omega),
      Mem.read_fill_of_disjoint (by omega), Mem.read_fill_zero (by omega) (by omega)]
  refine ⟨?_, ?_, ?_, ?_, ?_, ?_, ?_⟩
  · rw [hdrSize, h6.read (by omega), h5.read (by omega), h4.read (by omega)]
    have := agree_setPadPadding (m := setSize m2 kernelHeapBottom (kernelHeapTop - kernelHeapBottom))
      (p := kernelHeapBottom + 12) (v := 0) le_rfl le_rfl
    exact (this.read (by omega)).trans (Mem.read_write_self (by decide))
  · rw [hdrMagic, padMagic, h6.read (by omega), h5.read (by omega)]
    exact padMagic_setPadMagic (by decide)
  · rw [hdrFree, padFree, h6.read (by omega), h5.read (by omega)]
    exact (padFree_setPadMagic (by decide)).trans (padFree_setPadFree (by omega))
  · rw [hdrPrev, h6.read (by omega)]
    exact Mem.read_write_self hlt
  · rw [hdrNext, h6.read (by omega), h5.read (by omega), h4.read (by omega), h3.read (by omega)]
    exact Mem.read_write_self (by norm_num)
  · intro i hi
    have hne : b.addr i + 4 ≤ b.addr miscBin + 4 ∨ b.addr miscBin + 8 ≤ b.addr i := by
      unfold Bins.addr
      omega
    rw [hdrPrev, h6.read hne]
    exact hbins i hi 0 4 (by omega)
  intro i hi
  split_ifs with he
  · subst he
    exact Mem.read_write_self (by decide)
  have hne : b.addr i + 4 + 4 ≤ b.addr miscBin + 4 ∨ b.addr miscBin + 8 ≤ b.addr i + 4 := by
    unfold Bins.addr
    omega
  rw [hdrNext, h6.read hne]
  exact hbins i hi 4 4 (by omega)

theorem mallocInit_spec (b : Bins) (m : Mem) :
    Inv b (mallocInit b m) [⟨kernelHeapBottom, kernelHeapTop - kernelHeapBottom, .free⟩]
      fun i => if i = miscBin then [kernelHeapBottom] else [] := by
  obtain ⟨hsize, hmagic, hfree, hprev, hnext, hbprev, hbnext⟩ := mallocInit_fields b m
  have hhome : homeBin (kernelHeapTop - kernelHeapBottom) = miscBin := by decide
  refine ⟨⟨rfl, rfl⟩, ?_, fun i hi => ?_, fun i hi x => ?_, fun i hi => ?_, fun i hi => ?_⟩
  · simp only [mem_singleton, forall_eq]
    exact ⟨by decide, hsize, hmagic, hfree⟩
  · have h1 := hbprev i hi
    have h2 := hbnext i hi
    split_ifs at h2 ⊢ with he
    · subst he
      exact ⟨h1, h2, hprev, hnext, trivial⟩
    · exact ⟨h1, h2, trivial⟩
  · simp only [FreeAt, mem_singleton, exists_eq_left, hhome, true_and]
    split_ifs with he
    · simp [he, eq_comm]
    · simp [Ne.symm he]
  · split_ifs <;> simp
  · split_ifs <;> simp

end ZeldaOS
