import ZeldaOS.Malloc.Run

/-!
# The contents of a block

Allocations and frees write headers, never a byte of a live block: it holds what its owner stored last.

* `heap_contents_run`: a live block holds what was stored in it last.
-/

namespace ZeldaOS

open Machine List

section
variable {b : Bins} {m m' : Mem} {bin : ℕ → List ℕ} {l r cs : List Chunk} {c d : Chunk} {x : ℕ}
  (hx : d.addr + 16 ≤ x ∧ x < d.addr + d.size)
include hx

/-! ## One call -/

theorem Layout.off_sites (h : Layout cs) (hd : d ∈ cs) {y : ℕ} (hy : IsSite b cs y) : x < y ∨ y + 12 ≤ x := by
  rcases h.site_off hy hd with rfl | hbefore | hafter <;> omega

theorem Inv.free_keeps (h : Inv b m (l ++ c :: r) bin) (hu : c.use ≠ .free) (hr : ∀ e ∈ r, e.use ≠ .loose)
    (hm' : __free b m c.addr = .ok m') (hd : d ∈ l ++ c :: r) : m' x = m x := by
  have h20 := h.layout.size_ge c (by simp)
  refine h.free_frame hu hr hm' (fun y => h.layout.off_sites hx hd) ?_
  rcases h.tiles.apart hd (by simp : c ∈ l ++ c :: r) with rfl | hlt | hlt <;> omega

theorem Inv.carve_keeps (h : Inv b m (l ++ c :: r) bin) (hfree : c.use = .free) (hr : ∀ e ∈ r, e.use ≠ .loose)
    {padding left : ℕ} (hfit : 20 + padding + left ≤ c.size)
    (hm' : carveChunk freeNullNop b m c.addr padding left = .ok m') (hd : d ∈ l ++ c :: r) (hne : d ≠ c) :
    m' x = m x := by
  have hc : c ∈ l ++ c :: r := by simp
  have hbound := (h.tiles.bounds hc).2
  unfold kernelHeapTop at hbound
  have hout : x < c.addr ∨ c.addr + c.size ≤ x := by
    rcases h.tiles.apart hd hc with he | hlt | hlt
    · exact absurd he hne
    all_goals omega
  obtain ⟨m1, hm1, h1⟩ := h.detach hfree
  have hdetach : m1 x = m x := h.detach_onlyLinks hc hfree hm1 x fun y => h.layout.off_sites hx hd
  have hoccupy : ∀ m2, occupyChunk m2 c.addr padding x = m2 x := fun m2 =>
    (occupyChunk_spec m2 c.addr padding (by omega)).2.1 x (by omega)
  simp only [carveChunk, hm1, bind, Except.bind] at hm'
  by_cases hlt : left > 20
  · have hsize : hdrSize m1 c.addr = c.size := (h1.hdr { c with use := .loose } (by simp)).size
    have hhdr1 : u32 ((c.addr : ℤ) + c.size - left) = c.addr + (c.size - left) := by
      unfold u32
      omega
    simp only [hsize, hlt, if_true, hhdr1, show c.addr + (c.size - left) ≠ 0 by omega, if_false] at hm'
    have h2 := (h1.split rfl left (by omega) (by simp; omega)).occupy_loose rfl padding (by simp; omega)
    rw [append_cons] at h2
    have hd2 : d ∈ l ++ [⟨c.addr, c.size - left, .loose⟩] ++ ⟨c.addr + (c.size - left), left, .loose⟩ :: r := by
      rcases (by simpa [hne] using hd : d ∈ l ∨ d ∈ r) with hd | hd <;> simp [hd]
    rw [h2.free_keeps hx (by simp) hr hm' hd2, hoccupy, ← hdetach]
    exact agree_splitChunk m1 c.addr (c.addr + (c.size - left)) left (by omega) x (by omega)
  · simp only [hlt, if_false, if_true] at hm'
    cases hm'
    rw [hoccupy, hdetach]

theorem Inv.malloc_keeps (h : Inv b m cs bin) (hcs : ∀ e ∈ cs, e.use ≠ .loose) {len k p : ℕ} (hlen : len < 2 ^ 31)
    (hk : k < 17) (hm' : mallocAlign freeNullNop b m len (2 ^ k) = .ok (m', p)) (hd : d ∈ cs) (hu : d.use ≠ .free) :
    m' x = m x := by
  rw [h.malloc_align_eq freeNullNop (by omega) (by omega)] at hm'
  cases hfind : (searchOrder cs bin).find? (hasRoom len (2 ^ k)) with
  | none =>
    rw [firstFit, hfind] at hm'
    cases hm'
    rfl
  | some c =>
    obtain ⟨hc, hfree⟩ := h.mem_searchOrder.1 (mem_of_find?_eq_some hfind)
    have hroom := (h.hasRoom_iff hlen (by omega) hc).1 (find?_some hfind)
    have hbound := (h.tiles.bounds hc).2
    unfold kernelHeapTop at hbound
    rw [firstFit_of_some freeNullNop hfind] at hm'
    obtain ⟨m1, hm1, hm'⟩ := bind_eq_ok hm'
    cases hm'
    obtain ⟨l, r, rfl⟩ := append_of_mem hc
    exact h.carve_keeps hx hfree (fun e he => hcs e (by simp [he])) (by unfold u32; omega) hm1 hd
      fun he => hu (he ▸ hfree)

end

/-! ## Runs -/

/-- The byte at `x`, which was `v`. -/
def HeapOp.overwrite (x : ℕ) (v : UInt8) : HeapOp → UInt8
  | .store addr byte => if addr = x then byte else v
  | _ => v

variable {b : Bins} {s : HeapState} {a : Alloc}

theorem contents_step (h : Tracked b s) (ha : a ∈ s.live) {op : HeapOp} (hop : op ≠ .free a.ptr) {s' : HeapState}
    (hs' : s.step b op = .ok s') :
    a ∈ s'.live ∧ ∀ x, a.ptr ≤ x → x < a.ptr + a.len → s'.mem x = op.overwrite x (s.mem x) := by
  obtain ⟨cs, bin, hinv, hcs, hlive⟩ := h
  obtain ⟨d, hd, padding, hu, hptr⟩ := exists_chunk_of_mem_allocs (hlive.mem_iff.mp ha)
  have huse := (hinv.hdr d hd).use
  rw [UseOk, hu] at huse
  unfold HeapState.step at hs'
  split_ifs at hs' with hallowed
  · cases op with
    | malloc len align =>
      obtain ⟨hlen, k, hk, rfl⟩ := hallowed
      obtain ⟨⟨m', p⟩, hm', hs'⟩ := bind_eq_ok hs'
      cases hs'
      refine ⟨?_, fun x hlo hhi => hinv.malloc_keeps (by omega) hcs hlen hk hm' hd (by simp [hu])⟩
      dsimp only
      split_ifs
      · exact ha
      · exact mem_cons_of_mem _ ha
    | free ptr =>
      obtain ⟨a', ha', rfl⟩ := hallowed
      obtain ⟨c, hc, padding', hu', hptr'⟩ := exists_chunk_of_mem_allocs (hlive.mem_iff.mp ha')
      obtain ⟨m', hm', hs'⟩ := bind_eq_ok hs'
      cases hs'
      rw [hptr', hinv.free_eq hc hu'] at hm'
      obtain ⟨l, r, rfl⟩ := append_of_mem hc
      have hne : a.ptr ≠ a'.ptr := fun he => hop (congrArg HeapOp.free he.symm)
      exact ⟨mem_filter.2 ⟨ha, decide_eq_true hne⟩, fun x hlo hhi =>
        hinv.free_keeps (by omega) (by simp [hu']) (fun e he => hcs e (by simp [he])) hm' hd⟩
    | store addr byte =>
      cases hs'
      refine ⟨ha, fun x _ _ => if_congr ?_ rfl rfl⟩
      omega
  · cases hs'
    refine ⟨ha, fun x hlo hhi => ?_⟩
    cases op with
    | malloc | free => rfl
    | store addr byte =>
      refine (if_neg ?_).symm
      rintro rfl
      exact hallowed ⟨a, ha, hlo, hhi⟩

/-- After `ops` the block `a` is live, and its bytes are those stored last. -/
def KeptBy (b : Bins) (s : HeapState) (a : Alloc) (ops : List HeapOp) : Prop :=
  ∃ s', runSteps (HeapState.step b) s ops = .ok s' ∧ a ∈ s'.live ∧
    ∀ x, a.ptr ≤ x → x < a.ptr + a.len → s'.mem x = ops.foldl (HeapOp.overwrite x) (s.mem x)

theorem keptBy_of_live (h : Tracked b s) (ha : a ∈ s.live) {ops : List HeapOp} (hops : .free a.ptr ∉ ops) :
    KeptBy b s a ops := by
  induction ops generalizing s with
  | nil => exact ⟨s, rfl, ha, fun _ _ _ => rfl⟩
  | cons op ops ih =>
    obtain ⟨hop, hops⟩ := not_or.1 (mt mem_cons.2 hops)
    obtain ⟨s1, hs1, h1⟩ := tracked_step h op
    obtain ⟨ha1, hmem1⟩ := contents_step h ha (Ne.symm hop) hs1
    obtain ⟨s', hs', ha', hmem'⟩ := ih h1 ha1 hops
    refine ⟨s', ?_, ha', fun x hlo hhi => ?_⟩
    · rw [runSteps, hs1]
      exact hs'
    · rw [hmem' x hlo hhi, hmem1 x hlo hhi, foldl_cons]

/-- **Until it is freed, a block holds what was stored in it last.** -/
theorem heap_contents_run (b : Bins) (m : Mem) (ops₁ : List HeapOp) : ∃ s, HeapState.run b m ops₁ = .ok s ∧
    ∀ a ∈ s.live, ∀ ops₂, .free a.ptr ∉ ops₂ → KeptBy b s a ops₂ := by
  obtain ⟨s, hs, h⟩ := tracked_run b m ops₁
  exact ⟨s, hs, fun a ha ops₂ => keptBy_of_live h ha⟩

end ZeldaOS
