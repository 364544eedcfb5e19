import ZeldaOS.Malloc.Inv

/-!
# Freeing

`__free` keeps the heap invariant.

* `Inv.detach`: a chunk leaves its bin.
* `Inv.insert`: a chunk enters its bin.
* `Inv.free_chunk`: `__free`.
-/

namespace ZeldaOS

open Machine List Function

variable {b : Bins} {m m' : Mem} {bin : ℕ → List ℕ} {l r : List Chunk} {c : Chunk}

variable {cs : List Chunk}

theorem cons_bin_eq {l l1 xs ys : List ℕ} {x q : ℕ} (hbin : l = xs ++ ys) (hq : x :: xs = l1 ++ [q]) :
    x :: l = l1 ++ q :: ys := by
  rw [hbin, ← cons_append, hq, append_assoc]
  rfl

theorem Inv.bin_split (h : Inv b m cs bin) (hc : c ∈ cs) (hfree : c.use = .free) :
    ∃ l1 q xs ys, bin (homeBin c.size) = xs ++ c.addr :: ys ∧ b.addr (homeBin c.size) :: xs = l1 ++ [q] := by
  obtain ⟨xs, ys, hxy⟩ := append_of_mem ((h.mem_bin _ (homeBin_lt _) _).mpr ⟨c, hc, rfl, hfree, rfl⟩)
  exact ⟨_, _, xs, ys, hxy, (dropLast_concat_getLast (cons_ne_nil _ _)).symm⟩

/-! ## Unlinking -/

structure Relinked (b : Bins) (cs : List Chunk) (m m' : Mem) (nx pv : ℕ → ℕ) : Prop where
  next : ∀ y, IsSite b cs y → hdrNext m' y = nx y
  prev : ∀ y, IsSite b cs y → hdrPrev m' y = pv y
  hdr : ∀ d ∈ cs, HeaderOk m d → HeaderOk m' d

theorem Relinked.refl (b : Bins) (cs : List Chunk) (m : Mem) : Relinked b cs m m (hdrNext m) (hdrPrev m) :=
  ⟨fun _ _ => rfl, fun _ _ => rfl, fun _ _ h => h⟩

variable {nx pv : ℕ → ℕ} {x v : ℕ}

theorem Relinked.setNext (hL : Layout cs) (h : Relinked b cs m m' nx pv) (hx : IsSite b cs x) (hv : v < 256 ^ 4) :
    Relinked b cs m (setNext m' x v) (update nx x v) pv := by
  refine ⟨fun y hy => ?_, fun y hy => ?_, fun d hd hok => ?_⟩
  · rw [hdrNext_setNext (hL.site_apart hx hy) hv, update_apply, h.next y hy]
  · rw [hdrPrev_setNext (hL.site_apart hx hy), h.prev y hy]
  · exact hL.header_setNext hx hd (h.hdr d hd hok)

theorem Relinked.setPrev (hL : Layout cs) (h : Relinked b cs m m' nx pv) (hx : IsSite b cs x) (hv : v < 256 ^ 4) :
    Relinked b cs m (setPrev m' x v) nx (update pv x v) := by
  refine ⟨fun y hy => ?_, fun y hy => ?_, fun d hd hok => ?_⟩
  · rw [hdrNext_setPrev (hL.site_apart hx hy), h.next y hy]
  · rw [hdrPrev_setPrev (hL.site_apart hx hy) hv, update_apply, h.prev y hy]
  · exact hL.header_setPrev hx hd (h.hdr d hd hok)

def backTo (ys : List ℕ) (q : ℕ) (pv : ℕ → ℕ) : ℕ → ℕ :=
  match ys with
  | [] => pv
  | y :: _ => update pv y q

variable {ys : List ℕ} {q a : ℕ}

theorem backTo_of_notMem (h : a ∉ ys) : backTo ys q pv a = pv a := by
  cases ys with
  | nil => rfl
  | cons y ys => exact update_of_ne (fun he => h (by simp [he])) _ _

variable {l1 : List ℕ}

theorem backTo_of_mem (v : ℕ) (pv : ℕ → ℕ) (hnd : (l1 ++ q :: ys).Nodup) (ha : a ∈ l1 ++ q :: ys.tail) :
    a ∈ l1 ++ q :: ys ∧ backTo ys v pv a = pv a := by
  cases ys with
  | nil => exact ⟨ha, rfl⟩
  | cons y ys =>
    refine ⟨?_, update_of_ne ?_ _ _⟩
    · simp only [mem_append, mem_cons] at ha ⊢
      tauto
    rintro rfl
    rw [← singleton_append, ← append_assoc, nodup_middle, append_assoc, nodup_cons] at hnd
    exact hnd.1 ha

theorem detachChunk_relinked (hL : Layout cs) (hseg : Seg (hdrNext m) (hdrPrev m) 0 (l1 ++ q :: x :: ys) 0)
    (hsite : ∀ y ∈ l1 ++ q :: x :: ys, IsSite b cs y) :
    ∃ m', detachChunk m x = .ok m' ∧ Relinked b cs m m' (update (hdrNext m) q (ys.headD 0))
        (backTo ys q (hdrPrev m)) := by
  obtain ⟨-, -, -, hprev, hnext, -⟩ := seg_append.mp hseg
  have hq : IsSite b cs q := hsite q (by simp)
  have hx : IsSite b cs x := hsite x (by simp)
  have hq0 : q ≠ 0 := (hL.site_pos hq).1.ne'
  have hv : ys.headD 0 < 256 ^ 4 := hnext ▸ m.read_lt _ _
  have hm1 := (Relinked.refl b cs m).setNext hL hq hv
  cases ys with
  | nil =>
    refine ⟨_, ?_, hm1⟩
    simp [detachChunk, hprev, hnext, hq0, bind, Except.bind]
  | cons y ys =>
    have hy : IsSite b cs y := hsite y (by simp)
    refine ⟨_, ?_, hm1.setPrev hL hy (hL.site_pos hq).2⟩
    have hprev' : hdrPrev (setNext m q y) x = q := (hm1.prev x hx).trans hprev
    simp [detachChunk, hprev, hnext, hq0, (hL.site_pos hy).1.ne', bind, Except.bind, hprev']

theorem Relinked.seg_unlink (h : Relinked b cs m m' (update (hdrNext m) q (ys.headD 0)) (backTo ys q (hdrPrev m)))
    (hseg : Seg (hdrNext m) (hdrPrev m) 0 (l1 ++ q :: x :: ys) 0) (hnd : (l1 ++ q :: x :: ys).Nodup)
    (hsite : ∀ y ∈ l1 ++ q :: x :: ys, IsSite b cs y) : Seg (hdrNext m') (hdrPrev m') 0 (l1 ++ q :: ys) 0 := by
  have hnd' : (l1 ++ q :: ys).Nodup := hnd.sublist (by simp)
  have hsite' : ∀ y ∈ l1 ++ q :: ys, IsSite b cs y := fun y hy => hsite y (by
    simp only [mem_append, mem_cons] at hy ⊢
    tauto)
  have hq := (nodup_cons.mp (nodup_middle.mp hnd')).1
  refine hseg.unlink (fun a ha => ?_) ?_ (fun a ha => ?_) (fun y hy => ?_)
  · rw [h.next a (hsite' a (by simp only [mem_append, mem_cons] at ha ⊢; tauto)), update_of_ne]
    rintro rfl
    exact hq ha
  · rw [h.next q (hsite' q (by simp)), update_self]
  · obtain ⟨ha', hb⟩ := backTo_of_mem q (hdrPrev m) hnd' ha
    rw [h.prev a (hsite' a ha'), hb]
  cases ys with
  | nil => cases hy
  | cons z ys =>
    obtain rfl : z = y := by simpa using hy
    rw [h.prev z (hsite' z (by simp)), backTo, update_self]

variable {zs : List ℕ}

theorem Relinked.seg_other (h : Relinked b cs m m' nx pv) (hseg : Seg (hdrNext m) (hdrPrev m) 0 zs 0)
    (hsite : ∀ y ∈ zs, IsSite b cs y) (hnx : ∀ y ∈ zs, nx y = hdrNext m y) (hpv : ∀ y ∈ zs, pv y = hdrPrev m y) :
    Seg (hdrNext m') (hdrPrev m') 0 zs 0 :=
  hseg.congr (fun y hy => (h.next y (hsite y hy)).trans (hnx y hy))
    (fun y hy => (h.prev y (hsite y hy)).trans (hpv y hy))

variable {e : ℕ}

theorem tiles_use (u : Use) (h : Tiles a (l ++ c :: r) e) : Tiles a (l ++ { c with use := u } :: r) e := by
  simpa only [tiles_append, Tiles] using h

theorem freeAt_around (l : List Chunk) (c : Chunk) (r : List Chunk) (i x : ℕ) : FreeAt (l ++ c :: r) i x ↔
      (c.addr = x ∧ c.use = .free ∧ homeBin c.size = i) ∨ FreeAt (l ++ r) i x := by
  simp only [FreeAt, mem_append, mem_cons]
  grind

theorem Layout.not_freeAt (h : Layout (l ++ c :: r)) (i : ℕ) : ¬ FreeAt (l ++ r) i c.addr := by
  rintro ⟨d, hd, he, -⟩
  have hmem : d ∈ l ++ c :: r := by
    simp only [mem_append, mem_cons] at hd ⊢
    tauto
  have hnd : (l ++ c :: r).Nodup := by
    refine h.tiles.pairwise.imp_of_mem fun {x y} hx _ hlt he => ?_
    have := h.size_ge x hx
    rw [he] at hlt this
    omega
  rw [nodup_middle, nodup_cons] at hnd
  exact hnd.1 (h.chunk_ext hmem (by simp) he ▸ hd)

theorem Inv.detach (h : Inv b m (l ++ c :: r) bin) (hfree : c.use = .free) : ∃ m', detachChunk m c.addr = .ok m' ∧
      Inv b m' (l ++ { c with use := .loose } :: r) fun i => (bin i).erase c.addr := by
  have hL := h.layout
  have hc : c ∈ l ++ c :: r := by simp
  have hi := homeBin_lt c.size
  obtain ⟨l1, q, xs, ys, hbin, hq⟩ := h.bin_split hc hfree
  have hsplit := cons_bin_eq hbin hq
  have hsite : ∀ y ∈ l1 ++ q :: c.addr :: ys, IsSite b (l ++ c :: r) y := by
    rw [← hsplit]
    exact fun y hy => h.site_of_mem hi hy
  have hseg := hsplit ▸ h.linked _ hi
  obtain ⟨m', hm', hre⟩ := detachChunk_relinked hL hseg hsite
  have hnd : (l1 ++ q :: c.addr :: ys).Nodup := hsplit ▸ h.site_nodup hi
  refine ⟨m', hm', tiles_use _ h.tiles, ?_, ?_, ?_, ?_, ?_⟩
  · intro d hd
    rcases mem_append.mp hd with hd | hd
    · exact hre.hdr d (by simp [hd]) (h.hdr d (by simp [hd]))
    rcases mem_cons.mp hd with rfl | hd
    · have hok := hre.hdr c hc (h.hdr c hc)
      exact ⟨hok.size_ge, hok.size, hok.magic, trivial⟩
    · exact hre.hdr d (by simp [hd]) (h.hdr d (by simp [hd]))
  · intro i hi'
    by_cases he : i = homeBin c.size
    · subst he
      have hx : c.addr ∉ xs := by
        have := h.nodup _ hi
        rw [hbin, nodup_middle, nodup_cons] at this
        exact fun hx => this.1 (by simp [hx])
      rw [hbin, erase_append_right _ hx, erase_cons_head, ← cons_append, hq, append_assoc]
      exact hre.seg_unlink hseg hnd hsite
    · have hother : ∀ y ∈ b.addr i :: bin i, y ∉ l1 ++ q :: c.addr :: ys := fun y hy hy' =>
        h.bin_disjoint hi hi' he (hsplit ▸ hy') hy
      rw [erase_of_not_mem fun hx => hother _ (mem_cons_of_mem _ hx) (by simp)]
      refine hre.seg_other (h.linked i hi') (fun y hy => h.site_of_mem hi' hy) (fun y hy => ?_)
        (fun y hy => backTo_of_notMem fun hy' => hother y hy (by simp [hy']))
      exact update_of_ne (fun he => hother y hy (by simp [he])) _ _
  · intro i hi' x
    rw [(h.nodup i hi').mem_erase_iff, h.mem_bin i hi' x, freeAt_around, freeAt_around]
    have := hL.not_freeAt i
    grind
  · exact fun i hi' => (h.nodup i hi').erase _
  · intro i hi'
    refine List.Pairwise.sublist erase_sublist (h.sorted_congr hi' fun d hd _ => ?_)
    exact (hre.hdr d hd (h.hdr d hd)).size

variable {p : ℕ}

/-! ## The place in a bin -/

theorem findNotSmaller_spec (size : ℕ) (hseg : Seg (hdrNext m) (hdrPrev m) e zs 0) (hpos : ∀ z ∈ zs, z ≠ 0)
    (hp : p = zs.headD 0) (fuel : ℕ) (hfuel : zs.length < fuel) :
    ∃ xs ys, zs = xs ++ ys ∧ findNotSmaller m size fuel p = .ok (ys.headD 0) ∧
      (∀ x ∈ xs, hdrSize m x < size) ∧ ∀ y, ys.head? = some y → size ≤ hdrSize m y := by
  induction zs generalizing fuel p e with
  | nil =>
    obtain ⟨fuel, rfl⟩ := Nat.exists_eq_add_of_lt hfuel
    refine ⟨[], [], rfl, ?_, by simp, by simp⟩
    simp [findNotSmaller, hp]
  | cons z zs ih =>
    obtain ⟨fuel, rfl⟩ := Nat.exists_eq_add_of_lt hfuel
    have hz : z ≠ 0 := hpos z mem_cons_self
    subst hp
    by_cases hle : size ≤ hdrSize m p
    · refine ⟨[], p :: zs, rfl, ?_, by simp, by simpa using hle⟩
      simp [findNotSmaller, hz, hle]
    obtain ⟨xs, ys, rfl, hfind, hxs, hys⟩ := ih hseg.2.2 (fun x hx => hpos x (mem_cons_of_mem _ hx)) hseg.2.1
      ((p :: zs).length + fuel) (by rw [length_cons]; omega)
    refine ⟨p :: xs, ys, rfl, ?_, ?_, hys⟩
    · rw [findNotSmaller, if_neg hz, if_neg hle, hfind]
    · simpa [Nat.not_le.mp hle] using hxs

theorem findLast_spec (hseg : Seg (hdrNext m) (hdrPrev m) e (p :: zs) 0) (hpos : ∀ z ∈ zs, z ≠ 0) (fuel : ℕ)
    (hfuel : zs.length < fuel) : findLast m fuel p = .ok (zs.getLastD p) := by
  induction zs generalizing fuel p e with
  | nil =>
    obtain ⟨fuel, rfl⟩ := Nat.exists_eq_add_of_lt hfuel
    have h0 : hdrNext m p = 0 := hseg.2.1
    simp [findLast, h0]
  | cons z zs ih =>
    obtain ⟨fuel, rfl⟩ := Nat.exists_eq_add_of_lt hfuel
    have hz : hdrNext m p = z := hseg.2.1
    have := ih hseg.2.2 (fun x hx => hpos x (mem_cons_of_mem _ hx))
      ((z :: zs).length + fuel) (by rw [length_cons]; omega)
    rw [findLast, hz, if_neg (hpos z mem_cons_self), this, getLastD_cons]

theorem Inv.bin_length_lt (h : Inv b m cs bin) {i : ℕ} (hi : i < recycleBinSize) : (bin i).length < walkFuel := by
  have hsub : bin i ⊆ cs.map Chunk.addr := by
    intro x hx
    obtain ⟨c, hc, rfl, -⟩ := (h.mem_bin i hi x).mp hx
    exact mem_map_of_mem hc
  have h1 := (subperm_of_subset (h.nodup i hi) hsub).length_le
  have h2 := h.tiles.length_le h.layout.size_ge
  rw [length_map] at h1
  unfold walkFuel kernelHeapTop kernelHeapBottom at *
  omega

theorem Relinked.seg_insert
    (h : Relinked b cs m m' (update (update (hdrNext m) x (ys.headD 0)) q x) (backTo ys x (update (hdrPrev m) x q)))
    (hseg : Seg (hdrNext m) (hdrPrev m) 0 (l1 ++ q :: ys) 0) (hnd : (l1 ++ q :: ys).Nodup) (hx : x ∉ l1 ++ q :: ys)
    (hsx : IsSite b cs x) (hsite : ∀ y ∈ l1 ++ q :: ys, IsSite b cs y) :
    Seg (hdrNext m') (hdrPrev m') 0 (l1 ++ q :: x :: ys) 0 := by
  have hq := (nodup_cons.mp (nodup_middle.mp hnd)).1
  have hxq : x ≠ q := fun he => hx (by simp [he])
  refine hseg.insert (fun a ha => ?_) ?_ ?_ (fun a ha => ?_) ?_ (fun y hy => ?_)
  · have ha' : a ∈ l1 ++ q :: ys := by
      simp only [mem_append, mem_cons] at ha ⊢
      tauto
    rw [h.next a (hsite a ha'), update_of_ne, update_of_ne]
    · rintro rfl
      exact hx ha'
    rintro rfl
    exact hq ha
  · rw [h.next q (hsite q (by simp)), update_self]
  · rw [h.next x hsx, update_of_ne hxq, update_self]
  · obtain ⟨ha', hb⟩ := backTo_of_mem x (update (hdrPrev m) x q) hnd ha
    rw [h.prev a (hsite a ha'), hb, update_of_ne]
    rintro rfl
    exact hx ha'
  · rw [h.prev x hsx, backTo_of_notMem fun hy => hx (by simp [hy]), update_self]
  · cases ys with
    | nil => cases hy
    | cons z ys =>
      obtain rfl : z = y := by simpa using hy
      rw [h.prev z (hsite z (by simp)), backTo, update_self]

/-! ## Linking -/

def markFree (m : Mem) (hdr : ℕ) : Mem := setPadding (setFree m hdr 1) hdr 0

theorem agree_markFree (m : Mem) (hdr : ℕ) : Agree m (markFree m hdr) (hdr + 12) (hdr + 16) :=
  (agree_setPadFree (by omega) (by omega)).trans (agree_setPadPadding (by omega) (by omega))

theorem headerOk_markFree (h : HeaderOk m c) (u : Use) (hu : u = .free ∨ u = .loose) :
    HeaderOk (markFree m c.addr) { c with use := u } := by
  have hsize : hdrSize (markFree m c.addr) c.addr = hdrSize m c.addr :=
    (agree_markFree m c.addr).read (by omega)
  refine ⟨h.size_ge, hsize.trans h.size, ?_, ?_⟩
  · rw [← h.magic]
    simp only [hdrMagic, markFree, setPadding, setFree]
    rw [padMagic_setPadPadding, padMagic_setPadFree (by omega)]
  rcases hu with rfl | rfl
  · simp only [UseOk, hdrFree, markFree, setPadding, setFree]
    rw [padFree_setPadPadding, padFree_setPadFree (by omega)]
  · trivial

theorem Inv.mark (h : Inv b m (l ++ c :: r) bin) (hu : c.use = .loose) :
    Inv b (markFree m c.addr) (l ++ c :: r) bin := by
  have hc : HeaderOk m c := h.hdr c (by simp)
  have h20 := hc.size_ge
  have hself : ({ c with use := .loose } : Chunk) = c := by rw [← hu]
  rw [← singleton_append, ← append_assoc] at h ⊢
  refine h.replace c.addr (c.addr + c.size) ⟨rfl, rfl⟩ ⟨rfl, rfl⟩ ?_ ?_ ?_
  · simp [hu]
  · simp only [mem_singleton, forall_eq]
    exact ⟨by simp [hu], hself ▸ headerOk_markFree hc .loose (Or.inr rfl)⟩
  · exact (agree_markFree m c.addr).mono (by omega) (by omega)

def linkIn (m : Mem) (x ptr last : ℕ) : Mem :=
  if ptr ≠ 0 then
    let m₂ := setNext (setPrev m x (hdrPrev m ptr)) x ptr
    let m₃ := setPrev m₂ ptr x
    setNext m₃ (hdrPrev m₃ x) x
  else setNext (setNext (setPrev m x last) x 0) last x

theorem linkIn_cons_eq (hL : Layout cs) {y : ℕ} (hseg : Seg (hdrNext m) (hdrPrev m) 0 (l1 ++ q :: y :: ys) 0)
    (hsite : ∀ z ∈ l1 ++ q :: y :: ys, IsSite b cs z) (hsx : IsSite b cs x) (hxy : x ≠ y) :
    linkIn m x y q = setNext (setPrev (setNext (setPrev m x q) x y) y x) q x := by
  have hy : IsSite b cs y := hsite y (by simp)
  have hyv := hL.site_pos hy
  have hprev : hdrPrev m y = q := ((seg_append.mp hseg).2.2.2).1
  have hqv := (hL.site_pos (hsite q (by simp))).2
  have h1 := ((Relinked.refl b cs m).setPrev hL hsx hqv).setNext hL hsx hyv.2
  have hpx := (h1.setPrev hL hy (hL.site_pos hsx).2).prev x hsx
  rw [update_of_ne hxy, update_self] at hpx
  simp only [linkIn, ne_eq, hyv.1.ne', not_false_eq_true, if_true, hprev, hpx]

theorem linkIn_relinked (hL : Layout cs) (hseg : Seg (hdrNext m) (hdrPrev m) 0 (l1 ++ q :: ys) 0)
    (hsite : ∀ y ∈ l1 ++ q :: ys, IsSite b cs y) (hsx : IsSite b cs x) (hx : x ∉ l1 ++ q :: ys) :
    Relinked b cs m (linkIn m x (ys.headD 0) q) (update (update (hdrNext m) x (ys.headD 0)) q x)
      (backTo ys x (update (hdrPrev m) x q)) := by
  have hq : IsSite b cs q := hsite q (by simp)
  have hqv := (hL.site_pos hq).2
  have hxv := (hL.site_pos hsx).2
  have h1 := (Relinked.refl b cs m).setPrev hL hsx hqv
  cases ys with
  | nil => exact (h1.setNext hL hsx (by norm_num)).setNext hL hq hxv
  | cons y ys =>
    have hy : IsSite b cs y := hsite y (by simp)
    have hxy : x ≠ y := fun he => hx (by simp [he])
    rw [headD_cons, linkIn_cons_eq hL hseg hsite hsx hxy]
    exact ((h1.setNext hL hsx (hL.site_pos hy).2).setPrev hL hy hxv).setNext hL hq hxv

theorem isSite_use (u : Use) (h : IsSite b (l ++ c :: r) x) : IsSite b (l ++ { c with use := u } :: r) x := by
  refine h.imp_right ?_
  rintro ⟨d, hd, rfl⟩
  simp only [mem_append, mem_cons] at hd ⊢
  rcases hd with hd | rfl | hd
  · exact ⟨d, Or.inl hd, rfl⟩
  · exact ⟨_, Or.inr (Or.inl rfl), rfl⟩
  · exact ⟨d, Or.inr (Or.inr hd), rfl⟩

theorem homeBin_eq {size : ℕ} (h1 : 20 ≤ size) (h2 : size ≤ kernelHeapTop) :
    lengthToRecycleBinIndex (i32 (u32 (size - 16 - 4))) = homeBin size := by
  have hu : u32 ((size : ℤ) - 16 - 4) = size - 20 := by
    unfold u32 kernelHeapTop at *
    omega
  rw [hu, i32_of_lt (by unfold kernelHeapTop at h2; omega), homeBin]
  congr 1
  omega

section
variable (h : Inv b m (l ++ c :: r) bin)
include h

theorem Inv.insert (hu : c.use = .loose) (hok : HeaderOk m { c with use := .free })
    {xs : List ℕ} (hbin : bin (homeBin c.size) = xs ++ ys) (hq : b.addr (homeBin c.size) :: xs = l1 ++ [q])
    (hxs : ∀ x ∈ xs, hdrSize m x ≤ c.size) (hys : ∀ y ∈ ys, c.size ≤ hdrSize m y) :
    Inv b (linkIn m c.addr (ys.headD 0) q) (l ++ { c with use := .free } :: r)
      (update bin (homeBin c.size) (xs ++ c.addr :: ys)) := by
  have hi := homeBin_lt c.size
  have hsplit := cons_bin_eq hbin hq
  have hL : Layout (l ++ { c with use := .free } :: r) := by
    refine ⟨tiles_use _ h.tiles, fun d hd => ?_⟩
    have := h.layout.size_ge
    simp only [mem_append, mem_cons] at hd this
    rcases hd with hd | rfl | hd
    · exact this d (Or.inl hd)
    · exact this c (Or.inr (Or.inl rfl))
    · exact this d (Or.inr (Or.inr hd))
  have hsite : ∀ j < recycleBinSize, ∀ y ∈ b.addr j :: bin j, IsSite b (l ++ { c with use := .free } :: r) y :=
    fun j hj y hy => isSite_use _ (h.site_of_mem hj hy)
  have hsx : IsSite b (l ++ { c with use := .free } :: r) c.addr :=
    Or.inr ⟨{ c with use := .free }, by simp, rfl⟩
  have hnew : ∀ j < recycleBinSize, c.addr ∉ b.addr j :: bin j := by
    intro j hj hx
    rcases mem_cons.mp hx with he | hx
    · have h1 := b.addr_add_le hj
      have h2 := (h.tiles.bounds (c := c) (by simp)).1
      omega
    rw [h.mem_bin j hj, freeAt_around] at hx
    rcases hx with ⟨-, hx, -⟩ | hx
    · rw [hu] at hx
      cases hx
    · exact h.layout.not_freeAt j hx
  have hseg := h.linked _ hi
  have hsites := hsite _ hi
  have hx := hnew _ hi
  have hnd := h.site_nodup hi
  rw [hsplit] at hseg hsites hx hnd
  have hre := linkIn_relinked hL hseg hsites hsx hx
  have hhdr : ∀ d ∈ l ++ { c with use := .free } :: r, HeaderOk (linkIn m c.addr (ys.headD 0) q) d := by
    intro d hd
    refine hre.hdr d hd ?_
    rcases mem_append.mp hd with hd | hd
    · exact h.hdr d (by simp [hd])
    rcases mem_cons.mp hd with rfl | hd
    · exact hok
    · exact h.hdr d (by simp [hd])
  refine ⟨hL.tiles, hhdr, ?_, ?_, ?_, ?_⟩
  · intro j hj
    by_cases he : j = homeBin c.size
    · subst he
      rw [update_self, ← cons_append, hq, append_assoc]
      exact hre.seg_insert hseg hnd hx hsx hsites
    rw [update_of_ne he]
    have hother : ∀ y ∈ b.addr j :: bin j, y ∉ l1 ++ q :: ys := fun y hy hy' =>
      h.bin_disjoint hi hj he (hsplit ▸ hy') hy
    have hne : ∀ y ∈ b.addr j :: bin j, y ≠ c.addr := fun y hy he => hnew j hj (he ▸ hy)
    refine hre.seg_other (h.linked j hj) (hsite j hj) (fun y hy => ?_) (fun y hy => ?_)
    · rw [update_of_ne fun he => hother y hy (by simp [he]), update_of_ne (hne y hy)]
    · rw [backTo_of_notMem fun hy' => hother y hy (by simp [hy']), update_of_ne (hne y hy)]
  · intro j hj x
    have hmem := h.mem_bin j hj x
    rw [freeAt_around] at hmem ⊢
    by_cases he : j = homeBin c.size
    · subst he
      grind
    · grind
  · intro j hj
    by_cases he : j = homeBin c.size
    · subst he
      rw [update_self, nodup_middle, nodup_cons, ← hbin]
      exact ⟨fun hx => hnew _ hj (mem_cons_of_mem _ hx), h.nodup _ hj⟩
    · rw [update_of_ne he]
      exact h.nodup j hj
  intro j hj
  have hsz : ∀ d ∈ l ++ c :: r, d.use = .free → hdrSize (linkIn m c.addr (ys.headD 0) q) d.addr = d.size := by
    intro d hd hf
    refine (hhdr d ?_).size
    simp only [mem_append, mem_cons] at hd ⊢
    rcases hd with hd | rfl | hd
    · exact Or.inl hd
    · rw [hu] at hf
      cases hf
    · exact Or.inr (Or.inr hd)
  have hsorted := h.sorted_congr hj hsz
  by_cases he : j = homeBin c.size
  · subst he
    have hself := (hhdr { c with use := .free } (by simp)).size
    have hsame : ∀ x ∈ xs ++ ys, hdrSize (linkIn m c.addr (ys.headD 0) q) x = hdrSize m x := by
      intro x hx'
      obtain ⟨d, hd, rfl, hf, -⟩ := (h.mem_bin _ hj x).mp (hbin ▸ hx')
      rw [hsz d hd hf, (h.hdr d hd).size]
    rw [hbin, pairwise_append] at hsorted
    rw [update_self, pairwise_append, pairwise_cons]
    refine ⟨hsorted.1, ⟨fun y hy => ?_, hsorted.2.1⟩, fun x hx' y hy => ?_⟩
    · rw [hself, hsame y (by simp [hy])]
      exact hys y hy
    rcases mem_cons.mp hy with rfl | hy
    · rw [hself, hsame x (by simp [hx'])]
      exact hxs x hx'
    · exact hsorted.2.2 x hx' y hy
  · rw [update_of_ne he]
    exact hsorted

theorem Inv.recycle_eq (hu : c.use = .loose) :
    ∃ xs ys l1 q, bin (homeBin c.size) = xs ++ ys ∧ b.addr (homeBin c.size) :: xs = l1 ++ [q] ∧
      recycle b m c.addr = .ok (linkIn (markFree m c.addr) c.addr (ys.headD 0) q) ∧
      (∀ x ∈ xs, hdrSize m x < c.size) ∧ ∀ y ∈ ys, c.size ≤ hdrSize m y := by
  have hc : c ∈ l ++ c :: r := by simp
  have hok := h.hdr c hc
  have hi := homeBin_lt c.size
  have hsize : c.size ≤ kernelHeapTop := by
    have := (h.tiles.bounds hc).2
    omega
  have hpos : ∀ z ∈ bin (homeBin c.size), z ≠ 0 := fun z hz =>
    (h.layout.site_pos (h.site_of_mem hi (mem_cons_of_mem _ hz))).1.ne'
  obtain ⟨-, hhead, hseg⟩ := h.linked _ hi
  obtain ⟨xs, ys, hbin, hfind, hxs, hys⟩ :=
    findNotSmaller_spec c.size hseg hpos hhead _ (h.bin_length_lt hi)
  obtain ⟨l1, q, hq⟩ : ∃ l1 q, b.addr (homeBin c.size) :: xs = l1 ++ [q] :=
    ⟨_, _, (dropLast_concat_getLast (cons_ne_nil _ _)).symm⟩
  refine ⟨xs, ys, l1, q, hbin, hq, ?_, hxs, ?_⟩
  · unfold recycle
    simp only [hok.size, homeBin_eq hok.size_ge hsize, hfind]
    cases ys with
    | nil =>
      have hlast := findLast_spec ((h.mark hu).linked _ hi) hpos _ (h.bin_length_lt hi)
      rw [hbin, append_nil, ← getLastD_cons (a := 0), hq, getLastD_concat] at hlast
      unfold markFree at hlast
      simp [linkIn, markFree, hlast, bind, Except.bind]
    | cons y ys =>
      have hy : y ≠ 0 := hpos y (by simp [hbin])
      simp [linkIn, markFree, hy, bind, Except.bind]
  · have hsorted := h.sorted _ hi
    rw [hbin, pairwise_append] at hsorted
    cases ys with
    | nil => simp
    | cons z ys =>
      have hz := hys z rfl
      intro y hy
      rcases mem_cons.mp hy with rfl | hy
      · exact hz
      · exact hz.trans ((pairwise_cons.mp hsorted.2.1).1 y hy)

theorem Inv.recycle_chunk (hu : c.use = .loose) :
    ∃ m' bin', recycle b m c.addr = .ok m' ∧ Inv b m' (l ++ { c with use := .free } :: r) bin' := by
  obtain ⟨xs, ys, l1, q, hbin, hq, heq, hxs, hys⟩ := h.recycle_eq hu
  have h1 := h.mark hu
  have hsame : ∀ x ∈ xs ++ ys, hdrSize (markFree m c.addr) x = hdrSize m x := by
    intro x hx
    obtain ⟨d, hd, rfl, -⟩ := (h.mem_bin _ (homeBin_lt _) x).mp (hbin ▸ hx)
    rw [(h1.hdr d hd).size, (h.hdr d hd).size]
  refine ⟨_, _, heq, h1.insert hu (headerOk_markFree (h.hdr c (by simp)) .free (Or.inl rfl)) hbin hq
    (fun x hx => ?_) (fun y hy => ?_)⟩
  · rw [hsame x (by simp [hx])]
    exact (hxs x hx).le
  rw [hsame y (by simp [hy])]
  exact hys y hy

/-! ## Coalescing -/

theorem Inv.nextBlock_eq :
    nextBlock m c.addr = if c.addr + c.size < kernelHeapTop then c.addr + c.size else 0 := by
  have hc : c ∈ l ++ c :: r := by simp
  have hu : u32 (c.size + c.addr) = c.addr + c.size := by
    have := (h.tiles.bounds hc).2
    unfold u32 kernelHeapTop at *
    omega
  rw [nextBlock, (h.hdr c hc).size, hu]

end

variable {d : Chunk}

theorem Inv.next_addr (h : Inv b m (l ++ c :: d :: r) bin) : d.addr = c.addr + c.size := by
  obtain ⟨k, -, rfl, hd, -⟩ := tiles_append.mp h.tiles
  exact hd

theorem Inv.absorb (h : Inv b m (l ++ c :: d :: r) bin) (hc : c.use = .loose) (hd : d.use = .loose) :
    Inv b (setSize m c.addr (c.size + d.size)) (l ++ { c with size := c.size + d.size } :: r) bin := by
  have hcok : HeaderOk m c := h.hdr c (by simp)
  have hbound := (h.tiles.bounds (c := d) (by simp)).2
  have hadj := h.next_addr
  have h20 := hcok.size_ge
  have hag : Agree m (setSize m c.addr (c.size + d.size)) (c.addr + 8) (c.addr + 12) :=
    agree_write (by omega) (by omega)
  have hsplit : l ++ c :: d :: r = l ++ [c, d] ++ r := by simp
  rw [hsplit] at h
  rw [← singleton_append, ← append_assoc]
  refine h.replace c.addr (c.addr + (c.size + d.size)) ⟨rfl, hadj, ?_⟩ ⟨rfl, rfl⟩ ?_ ?_ (hag.mono (by omega) (by omega))
  · exact add_assoc _ _ _
  · simp [hc, hd]
  simp only [mem_singleton, forall_eq]
  refine ⟨by simp [hc], by simp; omega, ?_, ?_, by simp [UseOk, hc]⟩
  · unfold kernelHeapTop at hbound
    exact Mem.read_write_self (by omega)
  have hmagic : hdrMagic (setSize m c.addr (c.size + d.size)) c.addr = hdrMagic m c.addr := by
    simp only [hdrMagic, padMagic]
    rw [hag.read (by omega)]
  exact hmagic.trans hcok.magic

theorem Inv.coalesce_chunk (h : Inv b m (l ++ c :: r) bin) (hu : c.use = .loose) (hr : ∀ d ∈ r, d.use ≠ .loose) :
    ∃ m' size r' bin', coalesce m c.addr = .ok m' ∧ Inv b m' (l ++ { c with size := size } :: r') bin' ∧
      (r' = r ∧ size = c.size ∨ ∃ d, r = d :: r' ∧ d.use = .free ∧ size = c.size + d.size) := by
  have hcok : HeaderOk m c := h.hdr c (by simp)
  have hge : 16 ≤ hdrSize m c.addr := by
    rw [hcok.size]
    exact le_trans (by omega) hcok.size_ge
  cases r with
  | nil =>
    have hend : nextBlock m c.addr = 0 := by
      obtain ⟨k, -, rfl, hk⟩ := tiles_append.mp h.tiles
      rw [h.nextBlock_eq, if_neg (by rw [show c.addr + c.size = kernelHeapTop from hk]; omega)]
    refine ⟨m, c.size, [], bin, ?_, h, Or.inl ⟨rfl, rfl⟩⟩
    simp [coalesce, hge, hend, bind, Except.bind]
  | cons d r =>
    have hdok : HeaderOk m d := h.hdr d (by simp)
    have hadj := h.next_addr
    have hbound := (h.tiles.bounds (c := d) (by simp)).2
    have h20 := hdok.size_ge
    have hnext : nextBlock m c.addr = d.addr := by
      rw [h.nextBlock_eq, if_pos (by omega), hadj]
    have hd0 : d.addr ≠ 0 := by
      have := hcok.size_ge
      omega
    cases hdu : d.use with
    | loose => exact absurd hdu (hr d mem_cons_self)
    | used padding len align =>
      have hf : hdrFree m d.addr = 0 := by
        have := hdok.use
        rw [UseOk, hdu] at this
        exact this.1
      refine ⟨m, c.size, d :: r, bin, ?_, h, Or.inl ⟨rfl, rfl⟩⟩
      simp [coalesce, hge, hnext, hf, bind, Except.bind]
    | free =>
      have hf : hdrFree m d.addr = 1 := by
        have := hdok.use
        rwa [UseOk, hdu] at this
      have h' : Inv b m (l ++ [c] ++ d :: r) bin := by simpa using h
      obtain ⟨m1, hm1, hinv⟩ := h'.detach hdu
      have hinv' : Inv b m1 (l ++ c :: { d with use := .loose } :: r)
          fun i => (bin i).erase d.addr := by simpa using hinv
      have hs1 := (hinv'.hdr c (by simp)).size
      have hs2 : hdrSize m1 d.addr = d.size := (hinv'.hdr { d with use := .loose } (by simp)).size
      have hu32 : u32 (c.size + d.size) = c.size + d.size := by
        unfold u32 kernelHeapTop at *
        omega
      refine ⟨_, c.size + d.size, r, _, ?_, hinv'.absorb hu rfl, Or.inr ⟨d, rfl, hdu, rfl⟩⟩
      simp [coalesce, hge, hnext, hf, hd0, hdok.magic, hm1, hs1, hs2, hu32, bind, Except.bind]

theorem Inv.loosen (h : Inv b m (l ++ c :: r) bin) (hu : c.use ≠ .free) :
    Inv b m (l ++ { c with use := .loose } :: r) bin := by
  have hc : HeaderOk m c := h.hdr c (by simp)
  rw [← singleton_append, ← append_assoc] at h ⊢
  refine h.replace c.addr (c.addr + c.size) ⟨rfl, rfl⟩ ⟨rfl, rfl⟩ (by simp [hu]) ?_ (Agree.refl m _ _)
  simp only [mem_singleton, forall_eq]
  exact ⟨by simp, hc.size_ge, hc.size, hc.magic, trivial⟩

/-- **`__free` makes a chunk free, together with the next one if that is free.** -/
theorem Inv.free_chunk (h : Inv b m (l ++ c :: r) bin) (hu : c.use ≠ .free) (hr : ∀ d ∈ r, d.use ≠ .loose) :
    ∃ m' size r' bin', __free b m c.addr = .ok m' ∧ Inv b m' (l ++ ⟨c.addr, size, .free⟩ :: r') bin' ∧
      (r' = r ∧ size = c.size ∨ ∃ d, r = d :: r' ∧ d.use = .free ∧ size = c.size + d.size) := by
  obtain ⟨m1, size, r', bin1, hm1, h1, hcase⟩ := (h.loosen hu).coalesce_chunk rfl hr
  obtain ⟨m2, bin2, hm2, h2⟩ := h1.recycle_chunk rfl
  refine ⟨m2, size, r', bin2, ?_, h2, hcase⟩
  have hm1' : coalesce m c.addr = .ok m1 := hm1
  have hm2' : recycle b m1 c.addr = .ok m2 := hm2
  simp only [__free, hm1', bind, Except.bind, hm2']

end ZeldaOS
