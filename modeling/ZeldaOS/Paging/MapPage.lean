import ZeldaOS.Paging.Area

/-!
# A page of an area gets a frame

What the callers of `userspace_map_page` do for one page of an area, with the reasons for a failure.

* `mapAreaPage_cases`: the outcomes for a page.
-/

namespace ZeldaOS

open Machine

structure MapsFrame {τ : Type} (p : PhysicalMemory) (dir : τ → ℕ) (t : τ) (vma : VmArea) (page : ℕ)
    (r r' : FrameState) (f : ℕ) : Prop where
  frame : IsFrame p f
  free : isPageFree r.paging.freePageBitmap f = true
  bitmap : r'.paging.freePageBitmap = r.paging.freePageBitmap.set (f >>> 12)
  handed : r'.handed = f :: r.handed
  entry : MapsTo r'.paging.mem (dir t) page
    (createPte32 vma.writePermission.toNat 1 vma.pageWritethrough.toNat vma.pageCachedisable.toNat f)
  other : ∀ t', ∀ page' < 2 ^ 20, t' ≠ t ∨ page' ≠ page →
    lookup r'.paging.mem (dir t') page' = lookup r.paging.mem (dir t') page'
  table : ProvidesTable r.paging.mem (dir t) (page / 1024) r.paging.base r'.paging.base

structure MapsNothing (r r' : FrameState) : Prop where
  mem : r'.paging.mem = r.paging.mem
  handed : r'.handed = r.handed
  frames : ∀ g, isPageFree r'.paging.freePageBitmap g = isPageFree r.paging.freePageBitmap g
  base : r'.paging.base.bitmap = r.paging.base.bitmap

section
variable {τ : Type} {p : PhysicalMemory} {dir : τ → ℕ} {task : TaskMem} {t : τ} {r : FrameState}
  {vma : VmArea} {addr : ℕ}

theorem toNat_toUInt8 (b : Bool) : b.toUInt8.toNat = b.toNat := by cases b <;> rfl

theorem isPageFree_freePage_set {bitmap : Bitmap} {f : ℕ} (hf : isPageFree bitmap f = true) (g : ℕ) :
    isPageFree (freePage (bitmap.set (f >>> 12)) f) g = isPageFree bitmap g := by
  rw [isPageFree, freePage, Bitmap.test_clear]
  split_ifs with hg
  · rw [isPageFree] at hf ⊢
    rw [hg, hf]
    rfl
  · rw [Bitmap.test_set, if_neg hg]
    rfl

theorem frameOf_createPte32 (w s wt cd : ℕ) {f : ℕ} (hf : IsFrame p f) :
    frameOf (createPte32 w s wt cd f) = some f := by
  have hlt : f < 2 ^ 32 := by
    have := hf.lt_boundary
    have := p.boundary_le
    omega
  rw [frameOf, createPte32, if_pos (present_createEntry32 w s wt cd f), frameAddr_createEntry32 w s wt cd hlt,
    Nat.div_mul_cancel hf.aligned]

theorem MapsFrame.self {page f : ℕ} {r' : FrameState} (h : MapsFrame p dir t vma page r r' f) :
    lookup r'.paging.mem (dir t) page = some f :=
  h.entry.lookup_eq.trans (frameOf_createPte32 _ _ _ _ h.frame)

/-- The frame that `get_page` hands out for a page of an area that is not exact. -/
def nextFrame (p : PhysicalMemory) (r : FrameState) : Option ℕ :=
  match r.getPage p with
  | .ok (_, page) => if page = 0 then none else some page
  | .error _ => none

theorem mapAreaPage_cases (h : Sound dir r.paging.mem r.paging.base r.paging.calls)
    (hcursor : 4096 ∣ r.fastPageAddr) (ht : task.pageDirectory = dir t) (hx : vma.isExact = false)
    (haddr : addr < 2 ^ 32) : ∃ r' rc, mapAreaPage p r task vma addr = .ok (r', rc) ∧
      Sound dir r'.paging.mem r'.paging.base r'.paging.calls ∧ 4096 ∣ r'.fastPageAddr ∧
      (rc ≠ some 0 → MapsNothing r r' ∧ (userspaceBottom ≤ addr →
        (∀ f, IsFrame p f → isPageFree r.paging.freePageBitmap f = false) ∨
          NoTable r.paging (dir t) (addr / 4096 / 1024))) ∧
      (rc = some 0 → ∃ f, nextFrame p r = some f ∧ MapsFrame p dir t vma (addr / 4096) r r' f) := by
  obtain ⟨f, page, hget, hspec⟩ := getPage_spec (f := ⟨r.paging.freePageBitmap, r.fastPageAddr⟩) hcursor
  by_cases h0 : page = 0
  · obtain ⟨hsame, hfull⟩ := hspec.full h0
    refine ⟨⟨{ r.paging with freePageBitmap := f.bitmap }, f.fastPageAddr, r.handed⟩, none, ?_, h,
      hspec.cursor, fun _ => ⟨⟨rfl, rfl, fun g => ?_, rfl⟩, fun _ => .inl hfull⟩, fun hc => by cases hc⟩
    · simp only [mapAreaPage, areaPage, FrameState.getPage, hx, hget, h0, bind, Except.bind, if_true,
        Bool.false_eq_true, if_false]
    · rw [hsame]
  obtain ⟨hframe, hfree, hbitmap⟩ := hspec.found h0
  have hlt : page < 2 ^ 32 := by
    have := hframe.lt_boundary
    have := p.boundary_le
    omega
  have hnext : nextFrame p r = some page := by
    rw [nextFrame, FrameState.getPage, hget]
    exact if_neg h0
  have hvirt : (UInt32.ofNat addr).toNat = addr := by rw [UInt32.toNat_ofNat', Nat.mod_eq_of_lt haddr]
  have hphy : (UInt32.ofNat page).toNat = page := by rw [UInt32.toNat_ofNat', Nat.mod_eq_of_lt hlt]
  obtain ⟨s', rc, hmap, hm⟩ := Sound.userspaceMapPage_entry
    (s := { r.paging with freePageBitmap := f.bitmap }) h ht (.ofNat addr) (.ofNat page)
    vma.writePermission.toUInt8 vma.pageWritethrough.toUInt8 vma.pageCachedisable.toUInt8
  have hb := hm.frames.trans hbitmap
  by_cases hrc : rc = 0
  · refine ⟨⟨s', f.fastPageAddr, page :: r.handed⟩, some 0, ?_, hm.sound, hspec.cursor,
      fun hc => absurd rfl hc, fun _ => ⟨page, hnext, ?_⟩⟩
    · simp only [mapAreaPage, areaPage, FrameState.getPage, hx, hget, h0, hmap, hrc, bind, Except.bind,
        if_false, Bool.false_eq_true, or_false, if_true]
    have hentry := hm.entry hrc
    rw [hphy, toNat_toUInt8, toNat_toUInt8, toNat_toUInt8] at hentry
    rw [← pageOf_ofNat haddr]
    exact ⟨hframe, hfree, hb, rfl, hentry, hm.other, hm.table hrc⟩
  obtain ⟨hmem, hbase, hfull⟩ := hm.failed hrc
  rw [hvirt, pageOf_ofNat haddr] at hfull
  refine ⟨FrameState.freePage ⟨s', f.fastPageAddr, page :: r.handed⟩ page, some rc, ?_, hm.sound, hspec.cursor,
    fun _ => ⟨⟨hmem, ?_, fun g => ?_, hbase⟩, fun hu => .inr (hfull hu)⟩,
    fun hc => absurd (Option.some.inj hc) hrc⟩
  · simp only [mapAreaPage, areaPage, FrameState.getPage, hx, hget, h0, hmap, hrc, bind, Except.bind,
      if_false, Bool.false_eq_true, or_false]
  · exact List.erase_cons_head ..
  change isPageFree (freePage s'.freePageBitmap page) g = _
  rw [hb]
  exact isPageFree_freePage_set hfree g

end

end ZeldaOS
