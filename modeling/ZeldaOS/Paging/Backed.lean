import ZeldaOS.Paging.Reclaim

/-!
# The frames behind the pages of one task

In a task without exact areas, each present page has a frame of the task, and each frame is behind one page.

* `evict_run_frames`: evictions give the frames back.
-/

namespace ZeldaOS

open Machine List

def everything : VmArea := ⟨0, 0, 2 ^ 32, false, false, false, false⟩

theorem areas_everything (p : PhysicalMemory) : Areas p [everything] where
  virtAddr := forall_mem_singleton.2 (dvd_zero _)
  phyAddr := forall_mem_singleton.2 (dvd_zero _)
  length := forall_mem_singleton.2 (by decide)
  linear := forall_mem_singleton.2 le_rfl
  disjoint := pairwise_singleton _ _
  device := forall_mem_singleton.2 fun hx => Bool.noConfusion hx

theorem everything_covers {page : ℕ} (h : page < 2 ^ 20) : everything.Covers page :=
  ⟨Nat.zero_le _, by change page * 4096 < 0 + 2 ^ 32; omega⟩

/-- The frames handed out are different occupied frames, one behind each page. -/
def Backed (p : PhysicalMemory) (L : ℕ → Option ℕ) (bitmap : Bitmap) (handed : List ℕ) : Prop :=
  Owns p (fun _ : Unit => [everything]) (fun _ => L) bitmap fun _ => handed

section
variable {p : PhysicalMemory} {L L' : ℕ → Option ℕ} {bitmap : Bitmap} {handed : List ℕ} {page f : ℕ}

theorem update_unit {α : Type} (x y : α) : Function.update (fun _ : Unit => x) () y = fun _ => y := by
  funext t
  exact Function.update_self ..

variable (h : Backed p L bitmap handed)
include h

theorem Backed.map (hpage : page < 2 ^ 20) (hnone : L page = none)
    (hf : IsFrame p f) (hfree : isPageFree bitmap f = true) (hself : L' page = some f)
    (hother : ∀ page' < 2 ^ 20, page' ≠ page → L' page' = L page') :
    Backed p L' (bitmap.set (f >>> 12)) (f :: handed) := by
  have howns : Owns p _ (fun _ => L') _ _ := Owns.map h (t := ())
    (fun _ page' hlt hne => hother page' hlt (hne.resolve_left fun hc => hc rfl)) (fun _ => areas_everything p) hpage
    mem_cons_self (everything_covers hpage) rfl hnone hf hfree hself
  rwa [update_unit] at howns

theorem Backed.unmap (hpage : page < 2 ^ 20) (hl : L page = some f)
    (hself : L' page = none) (hother : ∀ page' < 2 ^ 20, page' ≠ page → L' page' = L page') :
    Backed p L' (freePage bitmap f) (handed.erase f) ∧ f ∈ handed := by
  have hmem : f ∈ handed := Owns.handed_of_mapped h (areas_everything p) (t := ()) hpage hl mem_cons_self
    (everything_covers hpage) rfl
  have howns : Owns p _ (fun _ => L') _ _ := Owns.unmap h (t := ())
    (fun _ page' hlt hne => hother page' hlt (hne.resolve_left fun hc => hc rfl)) hpage hl hmem hself
  exact ⟨howns, hmem⟩

theorem Backed.congr {bitmap' : Bitmap} (hL : ∀ page < 2 ^ 20, L' page = L page)
    (hb : ∀ f, isPageFree bitmap f = false → isPageFree bitmap' f = false) : Backed p L' bitmap' handed :=
  Owns.congr h (fun _ => hL) hb

theorem Backed.eq_nil (hL : ∀ page < 2 ^ 20, L page = none) : handed = [] := by
  rw [eq_nil_iff_forall_not_mem]
  intro f hf
  obtain ⟨page, hpage, hl⟩ := h.owner () f hf
  have := hL page hpage
  rw [hl] at this
  cases this

end

def freedAlong (task : TaskMem) : FrameState → List (ℕ × Bool) → List ℕ
  | _, [] => []
  | s, a :: evs =>
    (freedFrame s.paging task (.ofNat a.1)).toList ++
      match evictAt task s a with
      | .ok s' => freedAlong task s' evs
      | .error _ => []

section
variable {τ : Type} {p : PhysicalMemory} {dir : τ → ℕ} {task : TaskMem} {t : τ} {s : FrameState}

theorem evictAt_frames (h : Sound dir s.paging.mem s.paging.base s.paging.calls)
    (ht : task.pageDirectory = dir t) (hx : ∀ vma ∈ task.vmaList, vma.isExact = false)
    (hb : Backed p (lookup s.paging.mem (dir t)) s.paging.freePageBitmap s.handed) (a : ℕ × Bool) :
    ∃ s', evictAt task s a = .ok s' ∧ Sound dir s'.paging.mem s'.paging.base s'.paging.calls ∧
      Backed p (lookup s'.paging.mem (dir t)) s'.paging.freePageBitmap s'.handed ∧
      ((freedFrame s.paging task (.ofNat a.1)).toList ++ s'.handed).Perm s.handed ∧
      (∀ page < 2 ^ 20, lookup s'.paging.mem (dir t) page = none ∨
        lookup s'.paging.mem (dir t) page = lookup s.paging.mem (dir t) page) ∧
      (Visits task a → lookup s'.paging.mem (dir t) (a.1 / 4096) = none) := by
  set virt := UInt32.ofNat a.1 with hvirt
  have hpage := pageOf_lt virt
  obtain ⟨s', rc, hev, hr⟩ := h.userspaceEvictPage ht virt a.2
  refine ⟨⟨s', s.fastPageAddr, ((freedFrame s.paging task virt).map s.handed.erase).getD s.handed⟩, ?_, hr.sound, ?_⟩
  · simp only [evictAt, FrameState.evictPage, ← hvirt, hev, bind, Except.bind]
  -- a visited page is found in an area that is not exact
  have hvisit : Visits task a → pageOf virt = a.1 / 4096 ∧
      freedFrame s.paging task virt = lookup s.paging.mem (dir t) (pageOf virt) := by
    rintro ⟨hlt, hfound⟩
    have hnat : virt.toNat = a.1 := by rw [hvirt, UInt32.toNat_ofNat', Nat.mod_eq_of_lt hlt]
    obtain ⟨vma, hvma⟩ := Option.isSome_iff_exists.1 hfound
    refine ⟨pageOf_ofNat hlt, ?_⟩
    rw [freedFrame, hnat, hvma]
    dsimp only
    rw [hx vma (mem_of_find?_eq_some hvma), if_neg Bool.false_ne_true, ht]
  have hdir : task.pageDirectory ≠ 0 := ht ▸ (h.dir_base t).pos.ne'
  rcases userspaceEvictPage_cases hdir hev with ⟨hrc, hbitmap, hfreed⟩ | ⟨hrc, vma, f, hs, hl, hbitmap⟩
  · have hsame : ∀ page < 2 ^ 20, lookup s'.mem (dir t) page = lookup s.paging.mem (dir t) page :=
      fun page hlt => hr.other t page hlt (.inl hrc)
    rw [hfreed]
    refine ⟨hb.congr hsame fun g hg => by rw [hbitmap]; exact hg, .refl _, fun page hlt => .inr (hsame page hlt),
      fun hv => ?_⟩
    obtain ⟨hpageEq, hframe⟩ := hvisit hv
    rw [← hpageEq]
    exact (hsame _ hpage).trans (hframe.symm.trans hfreed)
  rw [ht] at hl
  have hgone := hr.self hrc
  have hother : ∀ page' < 2 ^ 20, page' ≠ pageOf virt →
      lookup s'.mem (dir t) page' = lookup s.paging.mem (dir t) page' :=
    fun page' hlt hne => hr.other t page' hlt (.inr (.inr hne))
  rw [hx vma (mem_of_find?_eq_some hs), if_neg Bool.false_ne_true] at hbitmap
  have hfreed : freedFrame s.paging task virt = some f := by
    rw [freedFrame, hs]
    dsimp only
    rw [hx vma (mem_of_find?_eq_some hs), if_neg Bool.false_ne_true, ht, hl]
  obtain ⟨hback, hmem⟩ := hb.unmap hpage hl hgone hother
  rw [hfreed]
  refine ⟨?_, (perm_cons_erase hmem).symm, fun page hlt => ?_, fun hv => ?_⟩
  · rw [hbitmap]
    exact hback
  · by_cases hp : page = pageOf virt
    · exact .inl (hp ▸ hgone)
    · exact .inr (hother page hlt hp)
  · rw [← (hvisit hv).1]
    exact hgone

theorem evict_run_frames (h : Sound dir s.paging.mem s.paging.base s.paging.calls)
    (ht : task.pageDirectory = dir t) (hx : ∀ vma ∈ task.vmaList, vma.isExact = false)
    (hb : Backed p (lookup s.paging.mem (dir t)) s.paging.freePageBitmap s.handed) (evs : List (ℕ × Bool)) :
    ∃ s', runSteps (evictAt task) s evs = .ok s' ∧
      Backed p (lookup s'.paging.mem (dir t)) s'.paging.freePageBitmap s'.handed ∧
      (freedAlong task s evs ++ s'.handed).Perm s.handed ∧ (∀ page < 2 ^ 20, lookup s'.paging.mem (dir t) page = none ∨
        lookup s'.paging.mem (dir t) page = lookup s.paging.mem (dir t) page) ∧
      ∀ a ∈ evs, Visits task a → lookup s'.paging.mem (dir t) (a.1 / 4096) = none := by
  induction evs generalizing s with
  | nil => exact ⟨s, rfl, hb, .refl _, fun _ _ => .inr rfl, fun a ha => absurd ha not_mem_nil⟩
  | cons a evs ih =>
    obtain ⟨s1, hstep, h1, hb1, hperm1, hpage1, hgone1⟩ := evictAt_frames h ht hx hb a
    obtain ⟨s', hrun, hb', hperm, hpage, hgone⟩ := ih h1 hb1
    refine ⟨s', by rw [runSteps, hstep]; exact hrun, hb', ?_, fun page hlt => ?_, ?_⟩
    · rw [freedAlong, hstep, append_assoc]
      exact (hperm.append_left _).trans hperm1
    · rcases hpage page hlt with h0 | heq
      · exact .inl h0
      rw [heq]
      exact hpage1 page hlt
    refine forall_mem_cons.2 ⟨fun hv => ?_, hgone⟩
    have hlt : a.1 / 4096 < 2 ^ 20 := by
      have := hv.1
      omega
    rcases hpage _ hlt with h0 | heq
    · exact h0
    · exact heq.trans (hgone1 hv)

end

end ZeldaOS
