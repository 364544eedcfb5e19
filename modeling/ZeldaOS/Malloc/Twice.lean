import ZeldaOS.Malloc.Run

/-!
# Freeing twice

A pointer that was freed may be freed again, until the next allocation: its old headers stay as they were.

* `free_twice`: a repeated free is harmless until the next allocation.
-/

namespace ZeldaOS

open Machine List

/-! ## Old headers -/

/-- The headers of `c`, now inside a free chunk, are as `__free` left them. -/
structure Stale (m : Mem) (cs : List Chunk) (c : Chunk) (padding : ℕ) : Prop where
  inside : ∃ f ∈ cs, f.use = .free ∧ (f.addr = c.addr ∨ f.addr + 20 ≤ c.addr) ∧ c.addr + c.size ≤ f.addr + f.size
  room : 20 + padding ≤ c.size
  isFree : hdrFree m c.addr = 1
  padding_eq : padPadding m (c.addr + 16 + padding) = padding
  magic : padMagic m (c.addr + 16 + padding) = mallocMagic

def HeapOp.KeepsFree : HeapOp → Prop
  | .malloc _ _ => False
  | .free _ => True
  | .store _ _ => True

section
variable {b : Bins} {m m' : Mem} {cs cs' : List Chunk} {bin : ℕ → List ℕ} {l r : List Chunk} {c d : Chunk} {padding : ℕ}

theorem Stale.free_eq (h : Stale m cs c padding) (hbound : c.addr + c.size < 2 ^ 32) :
    free b m (c.addr + 20 + padding) = .ok m := by
  have hroom := h.room
  have hlt : c.addr + 20 + padding < 2 ^ 32 := by omega
  simp only [free, u32_padding hlt, h.magic, h.padding_eq, u32_header hlt, h.isFree, bind, Except.bind]
  rfl

theorem Stale.bound (h : Stale m cs c padding) (hL : Layout cs) : c.addr + c.size < 2 ^ 32 := by
  obtain ⟨f, hf, -, -, hend⟩ := h.inside
  have hbound := (hL.tiles.bounds hf).2
  unfold kernelHeapTop at hbound
  omega

theorem Stale.congr (h : Stale m cs c padding) (hsame : ∀ a, c.addr + 12 ≤ a → a < c.addr + c.size → m' a = m a)
    (hinside : ∃ f ∈ cs', f.use = .free ∧ (f.addr = c.addr ∨ f.addr + 20 ≤ c.addr) ∧
      c.addr + c.size ≤ f.addr + f.size) : Stale m' cs' c padding := by
  have hroom := h.room
  have hread : ∀ a n, c.addr + 12 ≤ a → a + n ≤ c.addr + c.size → m'.read a n = m.read a n :=
    fun a n h1 h2 => Mem.read_congr fun x hx1 hx2 => hsame x (by omega) (by omega)
  refine ⟨hinside, hroom, ?_, ?_, ?_⟩
  · rw [← h.isFree, hdrFree, padFree, hread _ _ (by omega) (by omega), hdrFree, padFree]
  · rw [padPadding, hread _ _ (by omega) (by omega)]
    exact h.padding_eq
  · rw [← h.magic, padMagic, hread _ _ (by omega) (by omega), padMagic]

theorem Stale.site_off (h : Stale m cs c padding) (hL : Layout cs) {y a : ℕ} (hy : IsSite b cs y)
    (hge : c.addr + 12 ≤ a) (hlt : a < c.addr + c.size) : a < y ∨ y + 12 ≤ a := by
  obtain ⟨f, hf, -, hstart, hend⟩ := h.inside
  rcases hL.site_off hy hf with rfl | hbefore | hafter <;> omega

theorem Inv.stale_of_free (h : Inv b m (l ++ c :: r) bin) (hr : ∀ d ∈ r, d.use ≠ .loose) {len align size : ℕ}
    {r' : List Chunk} {bin' : ℕ → List ℕ} (hu : c.use = .used padding len align) (hm' : __free b m c.addr = .ok m')
    (h' : Inv b m' (l ++ ⟨c.addr, size, .free⟩ :: r') bin') (hsize : c.size ≤ size) :
    Stale m' (l ++ ⟨c.addr, size, .free⟩ :: r') c padding := by
  have hc : c ∈ l ++ c :: r := by simp
  have huse := (h.hdr c hc).use
  rw [UseOk, hu] at huse
  obtain ⟨-, hpad, hmagic, hfit, -⟩ := huse
  have hsame : ∀ a, c.addr + 16 ≤ a → a < c.addr + c.size → m' a = m a := by
    intro a h1 h2
    refine h.free_frame (by simp [hu]) hr hm' (fun y hy => ?_) (.inr h1)
    rcases h.layout.site_off hy hc with rfl | hbefore | hafter <;> omega
  have hread : ∀ a n, c.addr + 16 ≤ a → a + n ≤ c.addr + c.size → m'.read a n = m.read a n :=
    fun a n h1 h2 => Mem.read_congr fun x hx1 hx2 => hsame x (by omega) (by omega)
  have hnew : (⟨c.addr, size, .free⟩ : Chunk) ∈ l ++ ⟨c.addr, size, .free⟩ :: r' := by simp
  refine ⟨⟨_, hnew, rfl, .inl rfl, Nat.add_le_add_left hsize _⟩, by omega, (h'.hdr _ hnew).use, ?_, ?_⟩
  · rw [padPadding, hread _ _ (by omega) (by omega)]
    exact hpad
  · rw [← hmagic, padMagic, hread _ _ (by omega) (by omega), padMagic]

theorem Stale.free_other (hs : Stale m (l ++ d :: r) c padding) (h : Inv b m (l ++ d :: r) bin) (hu : d.use ≠ .free)
    (hr : ∀ e ∈ r, e.use ≠ .loose) {size : ℕ} {r' : List Chunk} (hm' : __free b m d.addr = .ok m')
    (hcase : r' = r ∧ size = d.size ∨ ∃ e, r = e :: r' ∧ e.use = .free ∧ size = d.size + e.size) :
    Stale m' (l ++ ⟨d.addr, size, .free⟩ :: r') c padding := by
  have hd : d ∈ l ++ d :: r := by simp
  have h20 := (h.hdr d hd).size_ge
  obtain ⟨f, hf, hfree, hstart, hend⟩ := hs.inside
  have hne : f ≠ d := by
    rintro rfl
    exact hu hfree
  refine hs.congr (fun a h1 h2 => h.free_frame hu hr hm' (fun y hy => hs.site_off h.layout hy h1 h2) ?_) ?_
  · rcases h.tiles.apart hf hd with heq | hlt | hlt
    · exact absurd heq hne
    · exact .inl (by omega)
    · exact .inr (by omega)
  rcases mem_append.1 hf with hf | hf
  · exact ⟨f, by simp [hf], hfree, hstart, hend⟩
  rcases mem_cons.1 hf with heq | hf
  · exact absurd heq hne
  rcases hcase with ⟨rfl, -⟩ | ⟨e, rfl, -, rfl⟩
  · exact ⟨f, by simp [hf], hfree, hstart, hend⟩
  rcases mem_cons.1 hf with rfl | hf
  · have hadj := h.next_addr
    refine ⟨⟨d.addr, d.size + f.size, .free⟩, by simp, rfl, .inr ?_, ?_⟩
    · show d.addr + 20 ≤ c.addr
      omega
    show c.addr + c.size ≤ d.addr + (d.size + f.size)
    omega
  · exact ⟨f, by simp [hf], hfree, hstart, hend⟩

theorem Stale.store (hs : Stale m cs c padding) (hL : Layout cs) (hd : d ∈ cs) (hu : d.use ≠ .free) {addr : ℕ}
    (hge : d.addr ≤ addr) (hlt : addr < d.addr + d.size) (byte : UInt8) : Stale (m.fill addr 1 byte) cs c padding := by
  obtain ⟨f, hf, hfree, hstart, hend⟩ := hs.inside
  refine hs.congr (fun a h1 h2 => Mem.fill_apply_of_lt ?_) hs.inside
  rcases hL.tiles.apart hf hd with rfl | hbefore | hafter
  · exact absurd hfree hu
  · omega
  · omega

end

/-! ## Runs -/

def StaleState (b : Bins) (c : Chunk) (padding : ℕ) (s : HeapState) : Prop :=
  ∃ cs bin, Inv b s.mem cs bin ∧ (∀ d ∈ cs, d.use ≠ .loose) ∧ s.live.Perm (allocs cs) ∧ Stale s.mem cs c padding

theorem staleState_step (b : Bins) (c : Chunk) (padding : ℕ) (s : HeapState) (op : HeapOp)
    (h : StaleState b c padding s) (hop : op.KeepsFree) : ∃ s', s.step b op = .ok s' ∧ StaleState b c padding s' := by
  unfold HeapState.step
  split_ifs with hallowed
  · obtain ⟨cs, bin, hinv, hcs, hlive, hstale⟩ := h
    cases op with
    | malloc len align => exact hop.elim
    | free ptr =>
      obtain ⟨a, ha, rfl⟩ := hallowed
      obtain ⟨d, hd, padding', hu, hptr⟩ := exists_chunk_of_mem_allocs (hlive.mem_iff.mp ha)
      obtain ⟨l, r, rfl⟩ := append_of_mem hd
      have hr : ∀ e ∈ r, e.use ≠ .loose := fun e he => hcs e (by simp [he])
      obtain ⟨m', size, r', bin', hfree, hm', hinv', hcase, hloose, hallocs⟩ := hinv.free_alloc hcs hu
      rw [hptr]
      exact ⟨_, bind_of_ok hfree rfl, _, bin', hinv', hloose, hallocs ▸ hinv.live_erase hu hlive,
        hstale.free_other hinv (by simp [hu]) hr hm' hcase⟩
    | store addr byte =>
      obtain ⟨a, ha, hge, hlt⟩ := hallowed
      obtain ⟨d, hd, padding', hu, hptr⟩ := exists_chunk_of_mem_allocs (hlive.mem_iff.mp ha)
      have huse := (hinv.hdr d hd).use
      rw [UseOk, hu] at huse
      exact ⟨_, rfl, cs, bin, hinv.store_alloc hd hu (by omega) (by omega) byte, hcs, hlive,
        hstale.store hinv.layout hd (by simp [hu]) (by omega) (by omega) byte⟩
  · exact ⟨s, rfl, h⟩

theorem staleState_of_free {b : Bins} {s : HeapState} (h : Tracked b s) {p : ℕ} (hp : ∃ a ∈ s.live, a.ptr = p) :
    ∃ s1 c padding, s.step b (.free p) = .ok s1 ∧ p = c.addr + 20 + padding ∧ StaleState b c padding s1 := by
  have hallowed : (HeapOp.free p).Allowed s := hp
  obtain ⟨cs, bin, hinv, hcs, hlive⟩ := h
  obtain ⟨a, ha, rfl⟩ := hp
  obtain ⟨c, hc, padding, hu, hptr⟩ := exists_chunk_of_mem_allocs (hlive.mem_iff.mp ha)
  obtain ⟨l, r, rfl⟩ := append_of_mem hc
  have hr : ∀ e ∈ r, e.use ≠ .loose := fun e he => hcs e (by simp [he])
  obtain ⟨m', size, r', bin', hfree, hm', hinv', hcase, hloose, hallocs⟩ := hinv.free_alloc hcs hu
  have hsize : c.size ≤ size := by
    rcases hcase with ⟨-, rfl⟩ | ⟨e, -, -, rfl⟩ <;> omega
  rw [HeapState.step, if_pos hallowed, hptr]
  exact ⟨_, c, padding, bind_of_ok hfree rfl, rfl, _, bin', hinv', hloose, hallocs ▸ hinv.live_erase hu hlive,
    hinv.stale_of_free hr hu hm' hinv' hsize⟩

/-- **A repeated free is harmless until the next allocation.** -/
theorem free_twice (b : Bins) (s : HeapState) (h : Tracked b s) (p : ℕ) (hp : ∃ a ∈ s.live, a.ptr = p)
    (ops : List HeapOp) (hops : ∀ op ∈ ops, op.KeepsFree) :
    ∃ s₁ s₂, s.step b (.free p) = .ok s₁ ∧ runSteps (HeapState.step b) s₁ ops = .ok s₂ ∧
      free b s₂.mem p = .ok s₂.mem := by
  obtain ⟨s₁, c, padding, hfree, rfl, hstale⟩ := staleState_of_free h hp
  obtain ⟨s₂, hrun, cs, bin, hinv, -, -, hs⟩ :=
    inv_run_total (staleState_step b c padding) hstale (along_of_forall hops)
  exact ⟨s₁, s₂, hfree, hrun, hs.free_eq (hs.bound hinv.layout)⟩

/-- Two adjacent blocks are live. The second is freed, the first absorbs its chunk, and the second is freed again. -/
theorem free_twice_absorbed : ∃ m₁ m₂, mallocAlign freeNullNop imageBins (mallocInit imageBins fun _ => 0) 64 (2 ^ 0) =
        .ok (m₁, kernelHeapBottom + 20) ∧
      mallocAlign freeNullNop imageBins m₁ 64 (2 ^ 0) = .ok (m₂, kernelHeapBottom + 104) ∧
      ∃ s₁ s₂, HeapState.step imageBins ⟨m₂, [⟨kernelHeapBottom + 20, 64, 2 ^ 0⟩, ⟨kernelHeapBottom + 104, 64, 2 ^ 0⟩]⟩
          (.free (kernelHeapBottom + 104)) = .ok s₁ ∧ s₁.live = [⟨kernelHeapBottom + 20, 64, 2 ^ 0⟩] ∧
        runSteps (HeapState.step imageBins) s₁ [.free (kernelHeapBottom + 20)] = .ok s₂ ∧
        free imageBins s₂.mem (kernelHeapBottom + 104) = .ok s₂.mem := by
  obtain ⟨m₁, m₂, bin, hm₁, hm₂, h⟩ := malloc_two
  have ht : Tracked imageBins ⟨m₂, [⟨kernelHeapBottom + 20, 64, 2 ^ 0⟩, ⟨kernelHeapBottom + 104, 64, 2 ^ 0⟩]⟩ :=
    ⟨_, bin, h, by simp, Perm.refl _⟩
  obtain ⟨s₁, s₂, hfree, hrun, hagain⟩ := free_twice imageBins _ ht (kernelHeapBottom + 104)
    ⟨_, mem_cons_of_mem _ mem_cons_self, rfl⟩ [.free (kernelHeapBottom + 20)] (forall_mem_singleton.2 trivial)
  refine ⟨m₁, m₂, hm₁, hm₂, s₁, s₂, hfree, ?_, hrun, hagain⟩
  rw [HeapState.step, if_pos ⟨_, mem_cons_of_mem _ mem_cons_self, rfl⟩] at hfree
  obtain ⟨m₃, -, hret⟩ := bind_eq_ok hfree
  cases hret
  rfl

end ZeldaOS
