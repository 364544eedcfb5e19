import ZeldaOS.Malloc.Search

/-!
# Runs of the kernel heap

Any sequence of allocations, frees of live pointers and client stores, from the state left by
`malloc_init`.

* `tracked_step`: a call keeps the invariant.
* `heapOk_run`: no call of a run fails.
-/

namespace ZeldaOS

open Machine List

/-! ## Runs -/

structure Alloc where
  ptr : ℕ
  len : ℕ
  align : ℕ
  deriving DecidableEq, Repr

structure HeapState where
  mem : Mem
  live : List Alloc

inductive HeapOp where
  | malloc (len align : ℕ)
  | free (ptr : ℕ)
  | store (addr : ℕ) (byte : UInt8)

/-- `len` is not negative and `align` a power of two up to 65536, and clients keep to their live allocations. -/
def HeapOp.Allowed (s : HeapState) : HeapOp → Prop
  | .malloc len align => len < 2 ^ 31 ∧ ∃ k < 17, align = 2 ^ k
  | .free ptr => ∃ a ∈ s.live, a.ptr = ptr
  | .store addr _ => ∃ a ∈ s.live, a.ptr ≤ addr ∧ addr < a.ptr + a.len

instance HeapOp.decidableAllowed (s : HeapState) : (op : HeapOp) → Decidable (op.Allowed s)
  | .malloc _ _ => inferInstanceAs (Decidable (_ ∧ _))
  | .free _ => inferInstanceAs (Decidable (∃ _ ∈ s.live, _))
  | .store _ _ => inferInstanceAs (Decidable (∃ _ ∈ s.live, _))

def HeapState.step (b : Bins) (s : HeapState) (op : HeapOp) : Except Fault HeapState :=
  if op.Allowed s then
    match op with
    | .malloc len align => do
      let (m, ptr) ← mallocAlign freeNullNop b s.mem len align
      .ok ⟨m, if ptr = 0 then s.live else ⟨ptr, len, align⟩ :: s.live⟩
    | .free ptr => do
      let m ← free b s.mem ptr
      .ok ⟨m, s.live.filter fun a => a.ptr ≠ ptr⟩
    | .store addr byte => .ok { s with mem := s.mem.fill addr 1 byte }
  else .ok s

def HeapState.run (b : Bins) (m : Mem) (ops : List HeapOp) : Except Fault HeapState :=
  ops.foldlM (HeapState.step b) ⟨mallocInit b m, []⟩

/-- Stepping from `a` by `hdr.size` visits `cs` and ends at `KERNEL_HEAP_TOP`. -/
def Walk (m : Mem) : ℕ → List ℕ → Prop
  | a, [] => a = kernelHeapTop
  | a, c :: cs => c = a ∧ a < kernelHeapTop ∧ Walk m (a + hdrSize m a) cs

/-- The chunk at `c` is in use, with the user range of `a` behind its headers. -/
structure Holds (m : Mem) (c : ℕ) (a : Alloc) : Prop where
  notFree : hdrFree m c = 0
  behind : c + 16 + 4 ≤ a.ptr
  within : a.ptr + a.len ≤ c + hdrSize m c

/-- The heap with chunks at `chunks` and the free ones of bin `i` in `bin i`. -/
structure HeapOk (b : Bins) (s : HeapState) (chunks : List ℕ) (bin : ℕ → List ℕ) : Prop where
  tile : Walk s.mem kernelHeapBottom chunks
  free_iff : ∀ c ∈ chunks, hdrFree s.mem c = 1 ↔ ∃! i, i < recycleBinSize ∧ c ∈ bin i
  home : ∀ i < recycleBinSize, ∀ c ∈ bin i, c ∈ chunks ∧ lengthToRecycleBinIndex (hdrSize s.mem c - 20) = i
  linked : ∀ i < recycleBinSize, Seg (hdrNext s.mem) (hdrPrev s.mem) 0 (b.addr i :: bin i) 0
  nodup : ∀ i < recycleBinSize, (bin i).Nodup
  sorted : ∀ i < recycleBinSize, (bin i).Pairwise fun x y => hdrSize s.mem x ≤ hdrSize s.mem y
  aligned : ∀ a ∈ s.live, a.align ∣ a.ptr
  held : ∀ a ∈ s.live, ∃ c ∈ chunks, Holds s.mem c a
  own : s.live.Pairwise fun x y => ∀ c ∈ chunks, Holds s.mem c x → ¬ Holds s.mem c y
  disjoint : s.live.Pairwise fun x y => x.ptr + x.len ≤ y.ptr ∨ y.ptr + y.len ≤ x.ptr

/-! ## Live blocks -/

def Chunk.alloc? (c : Chunk) : Option Alloc :=
  match c.use with
  | .used padding len align => some ⟨c.addr + 20 + padding, len, align⟩
  | _ => none

def allocs (cs : List Chunk) : List Alloc := cs.filterMap Chunk.alloc?

/-- The invariant of a run: the live allocations are those of the chunks in use. -/
def Tracked (b : Bins) (s : HeapState) : Prop :=
  ∃ cs bin, Inv b s.mem cs bin ∧ (∀ c ∈ cs, c.use ≠ .loose) ∧ s.live.Perm (allocs cs)

theorem tracked_init (b : Bins) (m : Mem) : Tracked b ⟨mallocInit b m, []⟩ :=
  ⟨_, _, mallocInit_spec b m, by simp, List.Perm.refl []⟩

variable {b : Bins} {s : HeapState} {r cs : List Chunk} {c : Chunk} {padding len align addr : ℕ} {a : Alloc} {m : Mem}
  {bin : ℕ → List ℕ}

section Steps
variable {l : List Chunk}

theorem allocs_append (l r : List Chunk) : allocs (l ++ r) = allocs l ++ allocs r :=
  filterMap_append

theorem allocs_cons_free (h : c.use = .free) : allocs (c :: r) = allocs r :=
  filterMap_cons_none (by simp [Chunk.alloc?, h])

theorem allocs_cons_used (h : c.use = .used padding len align) :
    allocs (c :: r) = ⟨c.addr + 20 + padding, len, align⟩ :: allocs r :=
  filterMap_cons_some (by simp [Chunk.alloc?, h])

theorem rest_of_coalesced {r' : List Chunk} {size left : ℕ} (hr : ∀ d ∈ r, d.use ≠ .loose)
    (h : r' = r ∧ size = left ∨ ∃ d, r = d :: r' ∧ d.use = .free ∧ size = left + d.size) :
    allocs r' = allocs r ∧ ∀ d ∈ r', d.use ≠ .loose := by
  rcases h with ⟨rfl, -⟩ | ⟨d, rfl, hd, -⟩
  · exact ⟨rfl, hr⟩
  · exact ⟨(allocs_cons_free hd).symm, fun e he => hr e (mem_cons_of_mem _ he)⟩

theorem Carved.allocs_perm {cs' : List Chunk} (h : Carved l c r padding len align cs') (hc : c.use = .free)
    (hcs : ∀ d ∈ l ++ c :: r, d.use ≠ .loose) :
    (⟨c.addr + 20 + padding, len, align⟩ :: allocs (l ++ c :: r)).Perm (allocs cs') ∧ ∀ d ∈ cs', d.use ≠ .loose := by
  have hl : ∀ d ∈ l, d.use ≠ .loose := fun d hd => hcs d (by simp [hd])
  have hr : ∀ d ∈ r, d.use ≠ .loose := fun d hd => hcs d (by simp [hd])
  rw [allocs_append, allocs_cons_free hc]
  rcases h with ⟨-, rfl⟩ | ⟨left, size, r', -, -, rfl, hcase⟩
  · rw [allocs_append, allocs_cons_used rfl]
    refine ⟨perm_middle.symm, fun d hd => ?_⟩
    simp only [mem_append, mem_cons] at hd
    rcases hd with hd | rfl | hd
    · exact hl d hd
    · simp
    · exact hr d hd
  obtain ⟨hallocs, hr'⟩ := rest_of_coalesced hr hcase
  rw [allocs_append, allocs_cons_used rfl, allocs_cons_free rfl, hallocs]
  refine ⟨perm_middle.symm, fun d hd => ?_⟩
  simp only [mem_append, mem_cons] at hd
  rcases hd with hd | rfl | rfl | hd
  · exact hl d hd
  · simp
  · simp
  · exact hr' d hd

theorem tracked_malloc (h : Tracked b s) {k : ℕ} (hlen : len < 2 ^ 31) (hk : k < 17) :
    ∃ m ptr, mallocAlign freeNullNop b s.mem len (2 ^ k) = .ok (m, ptr) ∧
      Tracked b ⟨m, if ptr = 0 then s.live else ⟨ptr, len, 2 ^ k⟩ :: s.live⟩ := by
  obtain ⟨cs, bin, hinv, hcs, hlive⟩ := h
  rcases hinv.malloc_align hcs hlen (k := k) (by omega) with hnull | hsome
  · exact ⟨_, _, hnull, cs, bin, hinv, hcs, by simpa using hlive⟩
  obtain ⟨l, c, r, m', cs', bin', rfl, hfree, -, hres, hcarved, hinv'⟩ := hsome
  obtain ⟨hperm, hloose⟩ := hcarved.allocs_perm hfree hcs
  refine ⟨_, _, hres, cs', bin', hinv', hloose, ?_⟩
  rw [if_neg (by omega)]
  exact (hlive.cons _).trans hperm

theorem exists_chunk_of_mem_allocs (ha : a ∈ allocs cs) :
    ∃ c ∈ cs, ∃ padding, c.use = .used padding a.len a.align ∧ a.ptr = c.addr + 20 + padding := by
  obtain ⟨c, hc, hca⟩ := mem_filterMap.mp ha
  refine ⟨c, hc, ?_⟩
  unfold Chunk.alloc? at hca
  split at hca
  · rename_i padding len align hu
    cases hca
    exact ⟨padding, hu, rfl⟩
  · cases hca

theorem u32_padding {a p : ℕ} (h : a + 20 + p < 2 ^ 32) : u32 (((a + 20 + p : ℕ) : ℤ) - 4) = a + 16 + p := by
  unfold u32
  omega

theorem u32_header {a p : ℕ} (h : a + 20 + p < 2 ^ 32) : u32 (((a + 16 + p : ℕ) : ℤ) - p - 16) = a := by
  unfold u32
  omega

theorem Inv.free_eq (h : Inv b m cs bin) (hc : c ∈ cs) (hu : c.use = .used padding len align) :
    free b m (c.addr + 20 + padding) = __free b m c.addr := by
  have hok := (h.hdr c hc).use
  rw [UseOk, hu] at hok
  obtain ⟨hfree, hpad, hmagic, hfit, -⟩ := hok
  have hbound := (h.tiles.bounds hc).2
  unfold kernelHeapTop at hbound
  have hlt : c.addr + 20 + padding < 2 ^ 32 := by omega
  simp only [free, u32_padding hlt, hmagic, hpad, u32_header hlt, hfree]
  simp [bind, Except.bind]

theorem Inv.ptr_ne (h : Inv b m (l ++ c :: r) bin) (hu : c.use = .used padding len align)
    (ha : a ∈ allocs l ++ allocs r) : a.ptr ≠ c.addr + 20 + padding := by
  rw [← allocs_append] at ha
  obtain ⟨d, hd, padding', hdu, hptr⟩ := exists_chunk_of_mem_allocs ha
  have hd' : d ∈ l ++ c :: r := by
    simp only [mem_append, mem_cons] at hd ⊢
    tauto
  have hok := (h.hdr c (by simp)).use
  have hok' := (h.hdr d hd').use
  rw [UseOk, hu] at hok
  rw [UseOk, hdu] at hok'
  have hne : d ≠ c := by
    rintro rfl
    have hnd : (l ++ d :: r).Nodup := by
      refine h.tiles.pairwise.imp_of_mem fun {x y} hx _ hlt he => ?_
      have := h.layout.size_ge x hx
      rw [he] at hlt this
      omega
    rw [nodup_middle, nodup_cons] at hnd
    exact hnd.1 hd
  rcases h.tiles.apart hd' (by simp : c ∈ l ++ c :: r) with he | hlt | hlt
  · exact absurd he hne
  all_goals omega

theorem Inv.free_alloc (h : Inv b m (l ++ c :: r) bin) (hcs : ∀ d ∈ l ++ c :: r, d.use ≠ .loose)
    (hu : c.use = .used padding len align) :
    ∃ m' size r' bin', free b m (c.addr + 20 + padding) = .ok m' ∧ __free b m c.addr = .ok m' ∧
      Inv b m' (l ++ ⟨c.addr, size, .free⟩ :: r') bin' ∧
      (r' = r ∧ size = c.size ∨ ∃ d, r = d :: r' ∧ d.use = .free ∧ size = c.size + d.size) ∧
      (∀ d ∈ l ++ ⟨c.addr, size, .free⟩ :: r', d.use ≠ .loose) ∧
      allocs (l ++ ⟨c.addr, size, .free⟩ :: r') = allocs l ++ allocs r := by
  have hr : ∀ d ∈ r, d.use ≠ .loose := fun d hd => hcs d (by simp [hd])
  obtain ⟨m', size, r', bin', hm', hinv', hcase⟩ := h.free_chunk (by simp [hu]) hr
  obtain ⟨hallocs, hr'⟩ := rest_of_coalesced hr hcase
  refine ⟨m', size, r', bin', ?_, hm', hinv', hcase, ?_, ?_⟩
  · rw [h.free_eq (by simp) hu, hm']
  · intro d hd
    simp only [mem_append, mem_cons] at hd
    rcases hd with hd | rfl | hd
    · exact hcs d (by simp [hd])
    · simp
    · exact hr' d hd
  · rw [allocs_append, allocs_cons_free rfl, hallocs]

theorem Inv.live_erase (h : Inv b m (l ++ c :: r) bin) (hu : c.use = .used padding len align) {live : List Alloc}
    (hlive : live.Perm (allocs (l ++ c :: r))) :
    (live.filter fun a => a.ptr ≠ c.addr + 20 + padding).Perm (allocs l ++ allocs r) := by
  refine (hlive.filter _).trans (List.Perm.of_eq ?_)
  rw [allocs_append, allocs_cons_used hu, filter_append, filter_cons_of_neg (by simp), ← filter_append, filter_eq_self]
  exact fun x hx => by simpa using h.ptr_ne hu hx

theorem tracked_free (h : Tracked b s) {ptr : ℕ} (hptr : ∃ a ∈ s.live, a.ptr = ptr) :
    ∃ m, free b s.mem ptr = .ok m ∧ Tracked b ⟨m, s.live.filter fun a => a.ptr ≠ ptr⟩ := by
  obtain ⟨cs, bin, hinv, hcs, hlive⟩ := h
  obtain ⟨a, ha, rfl⟩ := hptr
  obtain ⟨c, hc, padding, hu, hptr⟩ := exists_chunk_of_mem_allocs (hlive.mem_iff.mp ha)
  obtain ⟨l, r, rfl⟩ := append_of_mem hc
  obtain ⟨m', size, r', bin', hm', -, hinv', -, hloose, hallocs⟩ := hinv.free_alloc hcs hu
  rw [hptr]
  exact ⟨m', hm', _, bin', hinv', hloose, hallocs ▸ hinv.live_erase hu hlive⟩

theorem HeaderOk.store {m' : Mem} {lo hi : ℕ} (h : HeaderOk m c) (hu : c.use = .used padding len align)
    (hag : Agree m m' lo hi) (hlo : c.addr + 20 + padding ≤ lo) : HeaderOk m' c := by
  have hok := h.use
  rw [UseOk, hu] at hok
  obtain ⟨hfree, hpad, hmagic, hfit, halign⟩ := hok
  refine ⟨h.size_ge, (hag.read (by omega)).trans h.size, ?_, ?_⟩
  · rw [← h.magic]
    simp only [hdrMagic, padMagic]
    rw [hag.read (by omega)]
  simp only [UseOk, hu, hdrFree, padFree, padPadding, padMagic]
  rw [hag.read (by omega), hag.read (by omega), hag.read (by omega)]
  exact ⟨hfree, hpad, hmagic, hfit, halign⟩

theorem Inv.store_alloc (h : Inv b m cs bin) (hc : c ∈ cs) (hu : c.use = .used padding len align)
    (hge : c.addr + 20 + padding ≤ addr) (hlt : addr < c.addr + 20 + padding + len) (byte : UInt8) :
    Inv b (m.fill addr 1 byte) cs bin := by
  obtain ⟨l, r, rfl⟩ := append_of_mem hc
  have hok := h.hdr c hc
  have hfit := hok.use
  rw [UseOk, hu] at hfit
  have hag : Agree m (m.fill addr 1 byte) addr (addr + 1) := fun x hx => Mem.fill_apply_of_lt hx
  rw [← singleton_append, ← append_assoc] at h ⊢
  refine h.replace c.addr (c.addr + c.size) ⟨rfl, rfl⟩ ⟨rfl, rfl⟩ (by simp [hu]) ?_ (hag.mono (by omega) (by omega))
  simp only [mem_singleton, forall_eq]
  exact ⟨by simp [hu], hok.store hu hag (by omega)⟩

theorem tracked_store (h : Tracked b s) {byte : UInt8} (haddr : ∃ a ∈ s.live, a.ptr ≤ addr ∧ addr < a.ptr + a.len) :
    Tracked b { s with mem := s.mem.fill addr 1 byte } := by
  obtain ⟨cs, bin, hinv, hcs, hlive⟩ := h
  obtain ⟨a, ha, hge, hlt⟩ := haddr
  obtain ⟨c, hc, padding, hu, hptr⟩ := exists_chunk_of_mem_allocs (hlive.mem_iff.mp ha)
  exact ⟨cs, bin, hinv.store_alloc hc hu (by omega) (by omega) byte, hcs, hlive⟩

/-- **No call fails, and each keeps the invariant.** -/
theorem tracked_step (h : Tracked b s) (op : HeapOp) : ∃ s', s.step b op = .ok s' ∧ Tracked b s' := by
  unfold HeapState.step
  split_ifs with hop
  · cases op with
    | malloc len align =>
      obtain ⟨hlen, k, hk, rfl⟩ := hop
      obtain ⟨m, ptr, hm, ht⟩ := tracked_malloc h hlen hk
      exact ⟨_, by simp only [hm]; rfl, ht⟩
    | free ptr =>
      obtain ⟨m, hm, ht⟩ := tracked_free h hop
      exact ⟨_, by simp only [hm]; rfl, ht⟩
    | store addr byte => exact ⟨_, rfl, tracked_store h hop⟩
  · exact ⟨s, rfl, h⟩

end Steps

theorem tracked_run (b : Bins) (m : Mem) (ops : List HeapOp) : ∃ s, HeapState.run b m ops = .ok s ∧ Tracked b s := by
  induction ops using List.reverseRecOn with
  | nil => exact ⟨_, rfl, tracked_init b m⟩
  | append_singleton ops op ih =>
    obtain ⟨s, hs, ht⟩ := ih
    obtain ⟨s', hs', ht'⟩ := tracked_step ht op
    refine ⟨s', ?_, ht'⟩
    unfold HeapState.run at hs ⊢
    rw [foldlM_append, hs]
    simp [bind, Except.bind, hs', pure, Except.pure]

/-! ## What holds in every state -/

theorem Tiles.walk {a : ℕ} (hT : Tiles a cs kernelHeapTop) (hok : ∀ c ∈ cs, HeaderOk m c) :
    Walk m a (cs.map Chunk.addr) := by
  induction cs generalizing a with
  | nil => exact hT
  | cons c cs ih =>
    obtain ⟨rfl, hT⟩ := hT
    have hc := hok c mem_cons_self
    have h1 := hc.size_ge
    have h2 := hT.le
    refine ⟨rfl, by omega, ?_⟩
    rw [hc.size]
    exact ih hT fun d hd => hok d (mem_cons_of_mem _ hd)

theorem Inv.hdrFree_iff (h : Inv b m cs bin) (hcs : ∀ c ∈ cs, c.use ≠ .loose) (hc : c ∈ cs) :
    hdrFree m c.addr = 1 ↔ c.use = .free := by
  have hok := (h.hdr c hc).use
  unfold UseOk at hok
  cases hu : c.use with
  | free => rw [hu] at hok; simpa using hok
  | used padding len align => rw [hu] at hok; simp [hok.1]
  | loose => exact absurd hu (hcs c hc)

theorem Inv.mem_bin_iff (h : Inv b m cs bin) (hc : c ∈ cs) {i : ℕ} (hi : i < recycleBinSize) :
    c.addr ∈ bin i ↔ c.use = .free ∧ homeBin c.size = i := by
  rw [h.mem_bin i hi]
  constructor
  · rintro ⟨d, hd, he, hu, hi'⟩
    rw [← h.layout.chunk_ext hd hc he]
    exact ⟨hu, hi'⟩
  · rintro ⟨hu, hi'⟩
    exact ⟨c, hc, rfl, hu, hi'⟩

theorem Inv.holds (h : Inv b m cs bin) (hc : c ∈ cs) (hca : c.alloc? = some a) :
    Holds m c.addr a ∧ a.align ∣ a.ptr := by
  have hok := h.hdr c hc
  have huse := hok.use
  unfold Chunk.alloc? at hca
  split at hca
  · rename_i padding len align hu
    cases hca
    rw [UseOk, hu] at huse
    obtain ⟨hfree, -, -, hfit, halign⟩ := huse
    refine ⟨⟨hfree, ?_, ?_⟩, halign⟩
    · show c.addr + 16 + 4 ≤ c.addr + 20 + padding
      omega
    rw [hok.size]
    show c.addr + 20 + padding + len ≤ c.addr + c.size
    omega
  · cases hca

theorem Inv.holds_unique (h : Inv b m cs bin) {d : Chunk} (hc : c ∈ cs) (hd : d ∈ cs) (hca : Holds m c.addr a)
    (hda : Holds m d.addr a) : c = d := by
  have h1 := hca.behind
  have h2 := hca.within
  have h3 := hda.behind
  have h4 := hda.within
  rw [(h.hdr c hc).size] at h2
  rw [(h.hdr d hd).size] at h4
  rcases h.tiles.apart hc hd with he | hlt | hlt
  · exact he
  all_goals omega

theorem Inv.allocs_pairwise (h : Inv b m cs bin) : (allocs cs).Pairwise fun x y =>
    (∀ c ∈ cs.map Chunk.addr, Holds m c x → ¬ Holds m c y) ∧ (x.ptr + x.len ≤ y.ptr ∨ y.ptr + y.len ≤ x.ptr) := by
  refine pairwise_filterMap.mpr (h.tiles.pairwise.imp_of_mem fun {c d} hc hd hlt => ?_)
  intro x hx y hy
  obtain ⟨hcx, -⟩ := h.holds hc hx
  obtain ⟨hdy, -⟩ := h.holds hd hy
  constructor
  · intro e he hex hey
    obtain ⟨k, hk, rfl⟩ := mem_map.mp he
    rw [h.holds_unique hc hk hcx hex, h.holds_unique hd hk hdy hey] at hlt
    have := (h.hdr k hk).size_ge
    omega
  · have h1 := hcx.within
    have h2 := hdy.behind
    rw [(h.hdr c hc).size] at h1
    exact Or.inl (by omega)

theorem Tracked.heapOk (h : Tracked b s) : ∃ chunks bin, HeapOk b s chunks bin := by
  obtain ⟨cs, bin, hinv, hcs, hlive⟩ := h
  have hpair := (hlive.pairwise_iff
    (fun hxy => ⟨fun c hc hy hx => hxy.1 c hc hx hy, hxy.2.symm⟩)).mpr hinv.allocs_pairwise
  refine ⟨cs.map Chunk.addr, bin, hinv.tiles.walk hinv.hdr, ?_, ?_, hinv.linked, hinv.nodup,
    hinv.sorted, ?_, ?_, hpair.imp And.left, hpair.imp And.right⟩
  · simp only [mem_map, forall_exists_index, and_imp, forall_apply_eq_imp_iff₂]
    intro c hc
    rw [hinv.hdrFree_iff hcs hc]
    constructor
    · intro hu
      refine ⟨homeBin c.size, ⟨homeBin_lt _, ?_⟩, ?_⟩
      · exact (hinv.mem_bin_iff hc (homeBin_lt _)).mpr ⟨hu, rfl⟩
      rintro i ⟨hi, hmem⟩
      exact ((hinv.mem_bin_iff hc hi).mp hmem).2.symm
    · rintro ⟨i, ⟨hi, hmem⟩, -⟩
      exact ((hinv.mem_bin_iff hc hi).mp hmem).1
  · intro i hi x hx
    obtain ⟨c, hc, rfl, -, hhome⟩ := (hinv.mem_bin i hi x).mp hx
    refine ⟨mem_map_of_mem hc, ?_⟩
    rw [(hinv.hdr c hc).size]
    exact hhome
  · intro a ha
    obtain ⟨c, hc, hca⟩ := mem_filterMap.mp (hlive.mem_iff.mp ha)
    exact (hinv.holds hc hca).2
  · intro a ha
    obtain ⟨c, hc, hca⟩ := mem_filterMap.mp (hlive.mem_iff.mp ha)
    exact ⟨c.addr, mem_map_of_mem hc, (hinv.holds hc hca).1⟩

/-- **No call of a run of the kernel heap fails, and in every state the chunks tile the heap, the bins hold the free
chunks, and the live ranges are aligned, disjoint and inside their chunks.** -/
theorem heapOk_run (b : Bins) (m : Mem) (ops : List HeapOp) :
    ∃ s chunks bin, HeapState.run b m ops = .ok s ∧ HeapOk b s chunks bin := by
  obtain ⟨s, hs, ht⟩ := tracked_run b m ops
  obtain ⟨chunks, bin, hok⟩ := ht.heapOk
  exact ⟨s, chunks, bin, hs, hok⟩

end ZeldaOS
