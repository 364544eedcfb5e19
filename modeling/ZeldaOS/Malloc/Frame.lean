import ZeldaOS.Machine.Runs
import ZeldaOS.Malloc.Free

/-!
# What freeing writes

`__free` writes links and sizes of bins and chunks and the header of its chunk, and nothing else.

* `Inv.free_frame`: the bytes that `__free` leaves alone.
-/

namespace ZeldaOS

open Machine List

def OnlyLinks (b : Bins) (cs : List Chunk) (m m' : Mem) : Prop :=
  ∀ a, (∀ y, IsSite b cs y → a < y ∨ y + 12 ≤ a) → m' a = m a

section
variable {b : Bins} {m m' m'' : Mem} {cs cs' : List Chunk} {bin : ℕ → List ℕ} {l r : List Chunk} {c : Chunk}

theorem OnlyLinks.refl (b : Bins) (cs : List Chunk) (m : Mem) : OnlyLinks b cs m m := fun _ _ => rfl

theorem OnlyLinks.trans (h : OnlyLinks b cs m m') (h' : OnlyLinks b cs m' m'') : OnlyLinks b cs m m'' :=
  fun a ha => (h' a ha).trans (h a ha)

theorem OnlyLinks.mono (hsub : ∀ y, IsSite b cs' y → IsSite b cs y) (h : OnlyLinks b cs' m m') :
    OnlyLinks b cs m m' := fun a ha => h a fun y hy => ha y (hsub y hy)

theorem OnlyLinks.store {x : ℕ} (h : OnlyLinks b cs m m') (hx : IsSite b cs x) (hag : Agree m' m'' x (x + 12)) :
    OnlyLinks b cs m m'' :=
  h.trans fun a ha => hag a (ha x hx)

theorem OnlyLinks.setNext {x : ℕ} (h : OnlyLinks b cs m m') (hx : IsSite b cs x) (v : ℕ) :
    OnlyLinks b cs m (setNext m' x v) := h.store hx ((agree_setNext m' x v).mono le_rfl (by omega))

theorem OnlyLinks.setPrev {x : ℕ} (h : OnlyLinks b cs m m') (hx : IsSite b cs x) (v : ℕ) :
    OnlyLinks b cs m (setPrev m' x v) := h.store hx ((agree_setPrev m' x v).mono le_rfl (by omega))

theorem OnlyLinks.setSize {x : ℕ} (h : OnlyLinks b cs m m') (hx : IsSite b cs x) (v : ℕ) :
    OnlyLinks b cs m (setSize m' x v) := h.store hx (agree_write (by omega) (by omega))

theorem Inv.detach_onlyLinks (h : Inv b m cs bin) (hc : c ∈ cs) (hfree : c.use = .free)
    (hm' : detachChunk m c.addr = .ok m') : OnlyLinks b cs m m' := by
  have hi := homeBin_lt c.size
  obtain ⟨l1, q, xs, ys, hbin, hq⟩ := h.bin_split hc hfree
  have hsplit := cons_bin_eq hbin hq
  have hsite : ∀ y ∈ l1 ++ q :: c.addr :: ys, IsSite b cs y := by
    rw [← hsplit]
    exact fun y hy => h.site_of_mem hi hy
  obtain ⟨-, -, -, hprev, hnext, -⟩ := seg_append.mp (hsplit ▸ h.linked _ hi)
  have hqs : IsSite b cs q := hsite q (by simp)
  have hq0 : q ≠ 0 := (h.layout.site_pos hqs).1.ne'
  have h1 := (OnlyLinks.refl b cs m).setNext hqs (ys.headD 0)
  simp only [detachChunk, hprev, hnext, ensure_of hq0, bind, Except.bind, Except.ok.injEq] at hm'
  subst hm'
  cases ys with
  | nil => exact h1
  | cons y ys =>
    have hy : IsSite b cs y := hsite y (by simp)
    rw [headD_cons, if_pos (h.layout.site_pos hy).1.ne']
    exact h1.setPrev hy _

theorem Inv.coalesce_onlyLinks (h : Inv b m (l ++ c :: r) bin) (hr : ∀ d ∈ r, d.use ≠ .loose)
    (hm' : coalesce m c.addr = .ok m') : OnlyLinks b (l ++ c :: r) m m' := by
  have hc : IsSite b (l ++ c :: r) c.addr := .inr ⟨c, by simp, rfl⟩
  obtain ⟨-, -, hm'⟩ := bind_eq_ok hm'
  split_ifs at hm' with hnext
  · obtain ⟨-, -, hm'⟩ := bind_eq_ok hm'
    obtain ⟨m1, hdetach, hm'⟩ := bind_eq_ok hm'
    cases hm'
    rw [h.nextBlock_eq] at hnext hdetach ⊢
    cases r with
    | nil =>
      obtain ⟨k, -, rfl, hk⟩ := tiles_append.mp h.tiles
      exact absurd (if_neg (by rw [show c.addr + c.size = kernelHeapTop from hk]; omega)) hnext.1
    | cons d r =>
      have hadj := h.next_addr
      have hlt : c.addr + c.size < kernelHeapTop := by
        by_contra hc
        exact hnext.1 (if_neg hc)
      rw [if_pos hlt, ← hadj] at hnext hdetach ⊢
      have hd : d ∈ l ++ c :: d :: r := by simp
      have hfree : d.use = .free := by
        cases hu : d.use with
        | free => rfl
        | loose => exact absurd hu (hr d mem_cons_self)
        | used padding len align =>
          have huse := (h.hdr d hd).use
          rw [UseOk, hu] at huse
          exact absurd huse.1 hnext.2
      exact (h.detach_onlyLinks hd hfree hdetach).setSize hc _
  · cases hm'
    exact OnlyLinks.refl b _ m

theorem Inv.recycle_onlyLinks (h : Inv b m (l ++ c :: r) bin) (hu : c.use = .loose)
    (hm' : recycle b m c.addr = .ok m') : OnlyLinks b (l ++ c :: r) (markFree m c.addr) m' := by
  have hi := homeBin_lt c.size
  have h1 := h.mark hu
  obtain ⟨xs, ys, l1, q, hbin, hq, heq, -, -⟩ := h.recycle_eq hu
  rw [heq] at hm'
  cases hm'
  have hsplit := cons_bin_eq hbin hq
  have hsite : ∀ y ∈ l1 ++ q :: ys, IsSite b (l ++ c :: r) y := by
    rw [← hsplit]
    exact fun y hy => h.site_of_mem hi hy
  have hqs := hsite q (by simp)
  have hc : IsSite b (l ++ c :: r) c.addr := .inr ⟨c, by simp, rfl⟩
  have hrefl := OnlyLinks.refl b (l ++ c :: r) (markFree m c.addr)
  cases ys with
  | nil => exact ((hrefl.setPrev hc _).setNext hc _).setNext hqs _
  | cons y ys =>
    have hy := hsite y (by simp)
    have hne : c.addr ≠ y := by
      rintro rfl
      obtain ⟨d, hd, hda, hfree, -⟩ := (h.mem_bin _ hi c.addr).1 (by simp [hbin])
      rw [h.layout.chunk_ext hd (by simp : c ∈ l ++ c :: r) hda, hu] at hfree
      cases hfree
    rw [headD_cons, linkIn_cons_eq h.layout (hsplit ▸ h1.linked _ hi) hsite hc hne]
    exact (((hrefl.setPrev hc _).setNext hc _).setPrev hy _).setNext hqs _

theorem Inv.free_frame (h : Inv b m (l ++ c :: r) bin) (hu : c.use ≠ .free) (hr : ∀ d ∈ r, d.use ≠ .loose)
    (hm' : __free b m c.addr = .ok m') {a : ℕ} (hsites : ∀ y, IsSite b (l ++ c :: r) y → a < y ∨ y + 12 ≤ a)
    (hflags : a < c.addr + 12 ∨ c.addr + 16 ≤ a) : m' a = m a := by
  have hloose := h.loosen hu
  obtain ⟨m1, size, r', bin1, hm1, h1, hcase⟩ := hloose.coalesce_chunk rfl hr
  have hm1' : coalesce m c.addr = .ok m1 := hm1
  rw [__free, hm1'] at hm'
  have hsub : ∀ y, IsSite b (l ++ ⟨c.addr, size, .loose⟩ :: r') y → IsSite b (l ++ c :: r) y := by
    rintro y (hbin | ⟨d, hd, rfl⟩)
    · exact .inl hbin
    rcases mem_append.1 hd with hd | hd
    · exact .inr ⟨d, by simp [hd], rfl⟩
    rcases mem_cons.1 hd with rfl | hd
    · exact .inr ⟨c, by simp, rfl⟩
    rcases hcase with ⟨rfl, -⟩ | ⟨e, rfl, -⟩
    · exact .inr ⟨d, by simp [hd], rfl⟩
    · exact .inr ⟨d, by simp [hd], rfl⟩
  have hlinks := (h1.recycle_onlyLinks rfl hm').mono hsub
  have hfirst := hloose.coalesce_onlyLinks hr hm1
  rw [hlinks a hsites, agree_markFree m1 c.addr a hflags]
  exact hfirst a fun y hy => hsites y (isSite_use (c := { c with use := .loose }) c.use hy)

end

end ZeldaOS
