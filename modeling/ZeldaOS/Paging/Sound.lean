import ZeldaOS.Paging.Tables

/-!
# Directories and tables do not overlap

The directories and the tables of all tasks are pairwise different occupied base pages.

* `Sound.userspaceMapPage`: mapping a page.
* `Sound.userspaceEvictPage`: evicting one.
-/

namespace ZeldaOS

open Machine

/-! ## The invariant -/

/-- The page was handed out, and not freed since. -/
def Held (page : ℕ) : List BaseCall → Prop
  | [] => False
  | .got q :: calls => q = page ∨ Held page calls
  | .freed q :: calls => q ≠ page ∧ Held page calls

/-- Every page that was freed had been returned, and was not freed in between. -/
def FreedOnce : List BaseCall → Prop
  | [] => True
  | .got _ :: calls => FreedOnce calls
  | .freed page :: calls => Held page calls ∧ FreedOnce calls

/-- An occupied base page from the allocator that is not a directory. -/
structure IsTable {τ : Type} (dir : τ → ℕ) (b : BasePages) (calls : List BaseCall) (page : ℕ) :
    Prop where
  base : IsBasePage page
  occupied : occupied b page
  ne_dir : ∀ t, page ≠ dir t
  held : Held page calls

/-- The directories and their tables are pairwise different base pages. -/
structure Sound {τ : Type} (dir : τ → ℕ) (m : Mem) (b : BasePages) (calls : List BaseCall) : Prop
    where
  cursor : 4096 ∣ b.fastBasePageAddr
  dir_base : ∀ t, IsBasePage (dir t)
  dir_occupied : ∀ t, occupied b (dir t)
  dir_inj : Function.Injective dir
  table : ∀ t, ∀ i < 1024, present (entryAt m (dir t) i) → IsTable dir b calls (tableOf m (dir t) i)
  apart : ∀ t, ∀ i < 1024, ∀ t', ∀ i' < 1024, present (entryAt m (dir t) i) →
    present (entryAt m (dir t') i') → tableOf m (dir t) i = tableOf m (dir t') i' → t = t' ∧ i = i'
  freed : FreedOnce calls

variable {m m' : Mem} {page e q i p : ℕ} {b' : BasePages} {s : PagingState} {task : TaskMem} {virt : UInt32}

section
variable {τ : Type} {dir : τ → ℕ} {b : BasePages} {calls : List BaseCall}

theorem Sound.of_dirs (h : Sound dir m b calls) (hdirs : ∀ t, ∀ i < 1024, entryAt m' (dir t) i = entryAt m (dir t) i) :
    Sound dir m' b calls where
  cursor := h.cursor
  dir_base := h.dir_base
  dir_occupied := h.dir_occupied
  dir_inj := h.dir_inj
  table t i hi hp := by
    rw [tableOf, hdirs t i hi]
    exact h.table t i hi (hdirs t i hi ▸ hp)
  apart t i hi t' i' hi' hp hp' he := by
    rw [tableOf, tableOf, hdirs t i hi, hdirs t' i' hi'] at he
    exact h.apart t i hi t' i' hi' (hdirs t i hi ▸ hp) (hdirs t' i' hi' ▸ hp') he
  freed := h.freed

/-! ## Stores -/

theorem Sound.setPte (h : Sound dir m b calls) {t : τ} (hpage : page < 2 ^ 20)
    (hp : present (entryAt m (dir t) (page / 1024))) (he : e < 2 ^ 32) :
    let m' := setEntry m (tableOf m (dir t) (page / 1024)) (page % 1024) e
    Sound dir m' b calls ∧ (∀ t', ∀ i < 1024, entryAt m' (dir t') i = entryAt m (dir t') i) ∧
      lookup m' (dir t) page = frameOf e ∧
      ∀ t', ∀ page' < 2 ^ 20, t' ≠ t ∨ page' ≠ page → lookup m' (dir t') page' = lookup m (dir t') page' := by
  intro m'
  have htable := h.table t (page / 1024) (by omega) hp
  have hentry : ∀ Q, 4096 ∣ Q → ∀ j < 1024, entryAt m' Q j =
      if Q = tableOf m (dir t) (page / 1024) ∧ j = page % 1024 then e else entryAt m Q j :=
    fun Q hQ j hj => entryAt_setEntry m htable.base.aligned hQ (by omega) hj he
  have hdirs : ∀ t', ∀ i < 1024, entryAt m' (dir t') i = entryAt m (dir t') i := fun t' i hi => by
    rw [hentry _ (h.dir_base t').aligned i hi, if_neg fun hc => htable.ne_dir t' hc.1.symm]
  have htables : ∀ t', ∀ i < 1024, tableOf m' (dir t') i = tableOf m (dir t') i :=
    fun t' i hi => congrArg frameAddr (hdirs t' i hi)
  refine ⟨h.of_dirs hdirs, hdirs, ?_, fun t' page' hpage' hne => ?_⟩
  · have hidx : page % 1024 < 1024 := by omega
    rw [lookup_of_present (hdirs t (page / 1024) (by omega) ▸ hp), htables t (page / 1024) (by omega),
      hentry _ htable.base.aligned _ hidx, if_pos ⟨rfl, rfl⟩]
  refine lookup_congr (hdirs t' (page' / 1024) (by omega)) fun hp' => ?_
  rw [hentry _ (h.table t' _ (by omega) hp').base.aligned _ (by omega), if_neg]
  rintro ⟨htab, hmod⟩
  obtain ⟨rfl, hdiv⟩ := h.apart t' _ (by omega) t _ (by omega) hp' hp htab
  exact hne.elim (fun h => h rfl) fun h => h (by omega)

theorem Sound.read_setPte (h : Sound dir m b calls) {t : τ} (hpage : page < 2 ^ 20)
    (hp : present (entryAt m (dir t) (page / 1024))) (he : e < 2 ^ 32) :
    entryAt (setEntry m (tableOf m (dir t) (page / 1024)) (page % 1024) e)
      (tableOf m (dir t) (page / 1024)) (page % 1024) = e := by
  have htable := (h.table t (page / 1024) (by omega) hp).base.aligned
  have hidx : page % 1024 < 1024 := by omega
  rw [entryAt_setEntry _ htable htable hidx hidx he, if_pos ⟨rfl, rfl⟩]

theorem Sound.setPte_mapsTo (h : Sound dir m b calls) {t : τ} (hpage : page < 2 ^ 20)
    (hp : present (entryAt m (dir t) (page / 1024))) (he : e < 2 ^ 32) :
    MapsTo (setEntry m (tableOf m (dir t) (page / 1024)) (page % 1024) e) (dir t) page e := by
  obtain ⟨-, hdirs, -, -⟩ := h.setPte hpage hp he
  have hpde := hdirs t (page / 1024) (by omega)
  have htables : tableOf (setEntry m (tableOf m (dir t) (page / 1024)) (page % 1024) e) (dir t)
      (page / 1024) = tableOf m (dir t) (page / 1024) := congrArg frameAddr hpde
  refine ⟨hpde ▸ hp, ?_⟩
  rw [htables]
  exact h.read_setPte hpage hp he

theorem Held.got (h : Held page calls) : Held page (.got q :: calls) := .inr h

theorem Held.freed (h : Held page calls) (hne : q ≠ page) : Held page (.freed q :: calls) := ⟨hne, h⟩

theorem Sound.replaceEntry (h : Sound dir m b calls) {calls' : List BaseCall} {t : τ} (hi : i < 1024)
    (hold : ∀ t', ∀ i' < 1024, ¬(t' = t ∧ i' = i) → entryAt m' (dir t') i' = entryAt m (dir t') i')
    (hcursor : 4096 ∣ b'.fastBasePageAddr) (hdir : ∀ t', occupied b' (dir t'))
    (hkeep : ∀ t', ∀ i' < 1024, ¬(t' = t ∧ i' = i) → present (entryAt m (dir t') i') →
      IsTable dir b' calls' (tableOf m (dir t') i'))
    (hnew : present (entryAt m' (dir t) i) → IsTable dir b' calls' (tableOf m' (dir t) i) ∧
      ∀ t', ∀ i' < 1024, ¬(t' = t ∧ i' = i) → present (entryAt m (dir t') i') → tableOf m (dir t') i' ≠ tableOf m'
        (dir t) i)
    (hfreed : FreedOnce calls') : Sound dir m' b' calls' where
  cursor := hcursor
  dir_base := h.dir_base
  dir_occupied := hdir
  dir_inj := h.dir_inj
  table t' i' hi' hp := by
    by_cases hc : t' = t ∧ i' = i
    · obtain ⟨rfl, rfl⟩ := hc
      exact (hnew hp).1
    rw [tableOf, hold t' i' hi' hc]
    exact hkeep t' i' hi' hc (hold t' i' hi' hc ▸ hp)
  apart t1 i1 h1 t2 i2 h2 hp1 hp2 he := by
    by_cases hc1 : t1 = t ∧ i1 = i
    · by_cases hc2 : t2 = t ∧ i2 = i
      · exact ⟨hc1.1.trans hc2.1.symm, hc1.2.trans hc2.2.symm⟩
      obtain ⟨rfl, rfl⟩ := hc1
      have hpde := hold t2 i2 h2 hc2
      refine absurd ?_ ((hnew hp1).2 t2 i2 h2 hc2 (hpde ▸ hp2))
      rw [he, tableOf, tableOf, hpde]
    have hpde1 := hold t1 i1 h1 hc1
    by_cases hc2 : t2 = t ∧ i2 = i
    · obtain ⟨rfl, rfl⟩ := hc2
      refine absurd ?_ ((hnew hp2).2 t1 i1 h1 hc1 (hpde1 ▸ hp1))
      rw [← he, tableOf, tableOf, hpde1]
    have hpde2 := hold t2 i2 h2 hc2
    refine h.apart t1 i1 h1 t2 i2 h2 (hpde1 ▸ hp1) (hpde2 ▸ hp2) ?_
    rw [tableOf, tableOf, hpde1, hpde2] at he
    exact he
  freed := hfreed

theorem Sound.addTable (h : Sound dir m b calls) {t : τ} (hi : i < 1024) (hnp : ¬present (entryAt m (dir t) i))
    (hb : GetsBasePage b b' p) (hp : p ≠ 0) (he : e < 2 ^ 32) (hpresent : present e) (hframe : frameAddr e = p) :
    let m' := setEntry (m.fill p pageSize 0) (dir t) i e
    Sound dir m' b' (.got p :: calls) ∧ present (entryAt m' (dir t) i) ∧
      ∀ t', ∀ page < 2 ^ 20, lookup m' (dir t') page = lookup m (dir t') page := by
  intro m'
  obtain ⟨hbase, hfree, hbitmap⟩ := hb.found hp
  have hdir_ne : ∀ t', dir t' ≠ p := fun t' hc => hfree (hc ▸ h.dir_occupied t')
  have hentry : ∀ Q, 4096 ∣ Q → ∀ j < 1024, entryAt m' Q j =
      if Q = dir t ∧ j = i then e else if Q = p then 0 else entryAt m Q j := fun Q hQ j hj => by
    rw [entryAt_setEntry _ (h.dir_base t).aligned hQ hi hj he, entryAt_fill m hbase.aligned hQ hj]
  have hnew : entryAt m' (dir t) i = e := by
    rw [hentry _ (h.dir_base t).aligned i hi, if_pos ⟨rfl, rfl⟩]
  have hold : ∀ t', ∀ i' < 1024, ¬(t' = t ∧ i' = i) → entryAt m' (dir t') i' = entryAt m (dir t') i' :=
    fun t' i' hi' hne => by
      rw [hentry _ (h.dir_base t').aligned i' hi', if_neg (fun hc => hne ⟨h.dir_inj hc.1, hc.2⟩), if_neg (hdir_ne t')]
  have htable_ne : ∀ t', ∀ i' < 1024, present (entryAt m (dir t') i') → tableOf m (dir t') i' ≠ p :=
    fun t' i' hi' hp' hc => hfree (hc ▸ (h.table t' i' hi' hp').occupied)
  refine ⟨?_, hnew ▸ hpresent, fun t' page hpage => ?_⟩
  · refine h.replaceEntry hi hold hb.cursor (fun t' => occupied_set hbitmap (.inl (h.dir_occupied t')))
      (fun t' i' hi' _ hp' => ?_) (fun _ => ?_) h.freed
    · have htable := h.table t' i' hi' hp'
      exact ⟨htable.base, occupied_set hbitmap (.inl htable.occupied), htable.ne_dir, htable.held.got⟩
    have hp_new : tableOf m' (dir t) i = p := by rw [tableOf, hnew, hframe]
    rw [hp_new]
    exact ⟨⟨hbase, occupied_set hbitmap (.inr rfl), fun t' hc => hdir_ne t' hc.symm, .inl rfl⟩,
      fun t' i' hi' _ hp' => htable_ne t' i' hi' hp'⟩
  by_cases hsame : t' = t ∧ page / 1024 = i
  · obtain ⟨rfl, rfl⟩ := hsame
    rw [lookup_eq_none hnp, lookup_of_present (hnew ▸ hpresent), tableOf, hnew, hframe,
      hentry _ hbase.aligned _ (by omega), if_neg fun hc => hdir_ne t' hc.1.symm, if_pos rfl]
    exact if_neg not_present_zero
  refine lookup_congr (hold t' (page / 1024) (by omega) hsame) fun hp' => ?_
  have htable := h.table t' _ (by omega) hp'
  rw [hentry _ htable.base.aligned _ (by omega), if_neg fun hc => htable.ne_dir t hc.1,
    if_neg (htable_ne t' _ (by omega) hp')]

theorem Sound.dropTable (h : Sound dir m b calls) {t : τ} (hi : i < 1024) (hp : present (entryAt m (dir t) i))
    (htab : tableOf m (dir t) i = p) (hempty : ∀ j < 1024, ¬present (entryAt m p j)) : let m' := setEntry m (dir t) i 0
    Sound dir m' (freeBasePage b p) (.freed p :: calls) ∧
      ∀ t', ∀ page < 2 ^ 20, lookup m' (dir t') page = lookup m (dir t') page := by
  subst htab
  intro m'
  have htable := h.table t i hi hp
  have hentry : ∀ Q, 4096 ∣ Q → ∀ j < 1024, entryAt m' Q j =
      if Q = dir t ∧ j = i then 0 else entryAt m Q j :=
    fun Q hQ j hj => entryAt_setEntry m (h.dir_base t).aligned hQ hi hj (by omega)
  have hnew : entryAt m' (dir t) i = 0 := by
    rw [hentry _ (h.dir_base t).aligned i hi, if_pos ⟨rfl, rfl⟩]
  have hold : ∀ t', ∀ i' < 1024, ¬(t' = t ∧ i' = i) → entryAt m' (dir t') i' = entryAt m (dir t') i' :=
    fun t' i' hi' hne => by
      rw [hentry _ (h.dir_base t').aligned i' hi', if_neg fun hc => hne ⟨h.dir_inj hc.1, hc.2⟩]
  have hgone : ¬present (entryAt m' (dir t) i) := hnew ▸ not_present_zero
  have hapart : ∀ t', ∀ i' < 1024, ¬(t' = t ∧ i' = i) → present (entryAt m (dir t') i') →
      tableOf m (dir t') i' ≠ tableOf m (dir t) i :=
    fun t' i' hi' hne hp' hc => hne (h.apart t' i' hi' t i hi hp' hp hc)
  refine ⟨?_, fun t' page hpage => ?_⟩
  · have hcursor : (freeBasePage b (tableOf m (dir t) i)).fastBasePageAddr = b.fastBasePageAddr := by
      rw [freeBasePage]
      split_ifs <;> rfl
    refine h.replaceEntry hi hold ?_ (fun t' => ?_) (fun t' i' hi' hne hp' => ?_)
      (fun hc => absurd hc hgone) ⟨htable.held, h.freed⟩
    · rw [hcursor]
      exact h.cursor
    · exact occupied_freeBasePage htable.base (h.dir_base t') (fun hc => htable.ne_dir t' hc.symm) (h.dir_occupied t')
    have ht' := h.table t' i' hi' hp'
    have hne' := hapart t' i' hi' hne hp'
    exact ⟨ht'.base, occupied_freeBasePage htable.base ht'.base hne' ht'.occupied, ht'.ne_dir, ht'.held.freed hne'.symm⟩
  · by_cases hsame : t' = t ∧ page / 1024 = i
    · obtain ⟨rfl, rfl⟩ := hsame
      rw [lookup_eq_none hgone, lookup_of_present hp]
      exact (if_neg (hempty _ (by omega))).symm
    refine lookup_congr (hold t' (page / 1024) (by omega) hsame) fun hp' => ?_
    have ht' := h.table t' _ (by omega) hp'
    rw [hentry _ ht'.base.aligned _ (by omega), if_neg fun hc => ht'.ne_dir t hc.1]

theorem frameAddr_createPde32 (supervisorPermission : ℕ) (hp : IsBasePage p) :
    frameAddr (createPde32 1 supervisorPermission 0 0 p) = p := by
  have hlt := hp.lt_top
  obtain ⟨a, rfl⟩ := hp.aligned
  rw [createPde32, frameAddr_createEntry32 1 _ 0 0 (by unfold pageSpaceTop at hlt; omega)]
  omega

/-! ## Mapping -/

def ProvidesTable (m : Mem) (d i : ℕ) (b b' : BasePages) : Prop :=
  present (entryAt m d i) ∧ b' = b ∨ ¬present (entryAt m d i) ∧
      ∃ q, IsBasePage q ∧ ¬occupied b q ∧ b'.bitmap = b.bitmap.set (basePageOffset q)

def NoTable (s : PagingState) (d i : ℕ) : Prop :=
  ¬present (entryAt s.mem d i) ∧ ∀ q, IsBasePage q → occupied s.base q

structure Provides (dir : τ → ℕ) (s s' : PagingState) (t : τ) (i : ℕ) (provided : Bool) : Prop where
  sound : Sound dir s'.mem s'.base s'.calls
  frames : s'.freePageBitmap = s.freePageBitmap
  other : ∀ t', ∀ page < 2 ^ 20, lookup s'.mem (dir t') page = lookup s.mem (dir t') page
  table : provided = true → present (entryAt s'.mem (dir t) i) ∧ ProvidesTable s.mem (dir t) i s.base s'.base
  failed : provided = false → s'.mem = s.mem ∧ s'.base.bitmap = s.base.bitmap ∧ NoTable s (dir t) i

theorem Sound.providePageTable (h : Sound dir s.mem s.base s.calls) {t : τ} (ht : task.pageDirectory = dir t)
    (virt : UInt32) : ∃ s' provided, ZeldaOS.providePageTable s task virt = .ok (s', provided) ∧
      Provides dir s s' t (pageOf virt / 1024) provided := by
  have hlt := pageOf_lt virt
  have hi : pageOf virt / 1024 < 1024 := by omega
  rw [ZeldaOS.providePageTable, ht, pdIndex_eq]
  by_cases hp : present (entryAt s.mem (dir t) (pageOf virt / 1024))
  · exact ⟨s, true, if_pos hp, h, rfl, fun _ _ _ => rfl, fun _ => ⟨hp, .inl ⟨hp, rfl⟩⟩, fun hc => Bool.noConfusion hc⟩
  rw [if_neg hp]
  obtain ⟨b', q, hget, hspec⟩ := getBasePage_spec h.cursor
  simp only [hget, bind, Except.bind]
  by_cases hzero : q = 0
  · obtain ⟨hbitmap, hfull⟩ := hspec.full hzero
    have hocc : ∀ q, occupied s.base q → occupied b' q := fun q hq => by
      rw [occupied, hbitmap]
      exact hq
    refine ⟨{ s with base := b' }, false, if_pos hzero, ?_, rfl, fun _ _ _ => rfl,
      fun hc => Bool.noConfusion hc, fun _ => ⟨rfl, hbitmap, hp, hfull⟩⟩
    exact { h with
      cursor := hspec.cursor
      dir_occupied := fun t' => hocc _ (h.dir_occupied t')
      table := fun t' i' hi' hp' =>
        { h.table t' i' hi' hp' with occupied := hocc _ (h.table t' i' hi' hp').occupied } }
  · obtain ⟨hbase, hfree, hbitmap⟩ := hspec.found hzero
    obtain ⟨hsound, hpresent, hlookup⟩ := h.addTable hi hp hspec hzero
      (createEntry32_lt 1 1 0 0 q) (present_createEntry32 1 1 0 0 q) (frameAddr_createPde32 1 hbase)
    exact ⟨_, true, if_neg hzero, hsound, rfl, hlookup,
      fun _ => ⟨hpresent, .inr ⟨hp, q, hbase, hfree, hbitmap⟩⟩, fun hc => Bool.noConfusion hc⟩

/-- The operation set the translation of one page of `t`, if it succeeded, and left everything else alone. -/
structure Remaps (dir : τ → ℕ) (s s' : PagingState) (t : τ) (page : ℕ) (frame : Option ℕ)
    (result : ℤ) : Prop where
  sound : Sound dir s'.mem s'.base s'.calls
  self : result = 0 → lookup s'.mem (dir t) page = frame
  other : ∀ t', ∀ page' < 2 ^ 20, result ≠ 0 ∨ t' ≠ t ∨ page' ≠ page →
    lookup s'.mem (dir t') page' = lookup s.mem (dir t') page'

theorem Remaps.failed (h : Sound dir s.mem s.base s.calls) {t : τ} {frame : Option ℕ} {result : ℤ}
    (hresult : result ≠ 0) : Remaps dir s s t page frame result :=
  ⟨h, fun hc => absurd hc hresult, fun _ _ _ _ => rfl⟩

structure MapsUserPage (dir : τ → ℕ) (s s' : PagingState) (t : τ) (virt : UInt32) (entry : ℕ) (result : ℤ) :
    Prop where
  sound : Sound dir s'.mem s'.base s'.calls
  frames : s'.freePageBitmap = s.freePageBitmap
  failed : result ≠ 0 → s'.mem = s.mem ∧ s'.base.bitmap = s.base.bitmap ∧
    (userspaceBottom ≤ virt.toNat → NoTable s (dir t) (pageOf virt / 1024))
  entry : result = 0 → MapsTo s'.mem (dir t) (pageOf virt) entry
  table : result = 0 → ProvidesTable s.mem (dir t) (pageOf virt / 1024) s.base s'.base
  other : ∀ t', ∀ page < 2 ^ 20, t' ≠ t ∨ page ≠ pageOf virt → lookup s'.mem (dir t') page = lookup s.mem (dir t') page

theorem Sound.userspaceMapPage_entry (h : Sound dir s.mem s.base s.calls) {t : τ} (ht : task.pageDirectory = dir t)
    (virt phy : UInt32) (writePermission writethrough cachedisable : UInt8) :
    ∃ s' result, ZeldaOS.userspaceMapPage s task virt phy writePermission writethrough cachedisable = .ok (s', result) ∧
      MapsUserPage dir s s' t virt
        (createPte32 writePermission.toNat 1 writethrough.toNat cachedisable.toNat phy.toNat) result := by
  have hdir : task.pageDirectory ≠ 0 := ht ▸ (h.dir_base t).pos.ne'
  simp only [ZeldaOS.userspaceMapPage, ensure_of hdir, bind, Except.bind]
  by_cases huser : virt.toNat < userspaceBottom
  · rw [if_pos huser]
    exact ⟨s, -errInvalidArg, rfl, h, rfl, fun _ => ⟨rfl, rfl, fun hc => absurd huser (by omega)⟩,
      fun hc => absurd hc (by decide), fun hc => absurd hc (by decide), fun _ _ _ _ => rfl⟩
  obtain ⟨s1, provided, hprov, h1⟩ := h.providePageTable ht virt
  rw [if_neg huser, hprov]
  cases provided with
  | false =>
    obtain ⟨hmem, hbase, hfull⟩ := h1.failed rfl
    exact ⟨s1, -errOutOfMemory, rfl, h1.sound, h1.frames, fun _ => ⟨hmem, hbase, fun _ => hfull⟩,
      fun hc => absurd hc (by decide), fun hc => absurd hc (by decide), fun t' page hlt _ => h1.other t' page hlt⟩
  | true =>
    obtain ⟨hpde, htable⟩ := h1.table rfl
    have hphy : phy.toNat < 2 ^ 32 := phy.toNat_lt
    set e := createPte32 writePermission.toNat 1 writethrough.toNat cachedisable.toNat phy.toNat
    have hlt : e < 2 ^ 32 := createEntry32_lt _ _ _ _ _
    have hep : present e := present_createEntry32 _ _ _ _ _
    have hframe : frameAddr e = phy.toNat / 4096 * 4096 := frameAddr_createEntry32 _ _ _ _ hphy
    obtain ⟨hsound, -, -, hother⟩ := h1.sound.setPte (pageOf_lt virt) hpde hlt
    have hread := h1.sound.read_setPte (pageOf_lt virt) hpde hlt
    rw [tableOf] at hread
    refine ⟨{ s1 with
      mem := setEntry s1.mem (tableOf s1.mem (dir t) (pageOf virt / 1024)) (pageOf virt % 1024) e }, 0, ?_, hsound,
      h1.frames, fun hc => absurd rfl hc, fun _ => h1.sound.setPte_mapsTo (pageOf_lt virt) hpde hlt,
      fun _ => htable, fun t' page hlt' hne => (hother t' page hlt' hne).trans (h1.other t' page hlt')⟩
    simp [ht, pdIndex_eq, ptIndex_eq, ensure_of hpde, hread, ensure_of hep, ensure_of hframe, tableOf]

theorem Sound.userspaceMapPage (h : Sound dir s.mem s.base s.calls) {t : τ} (ht : task.pageDirectory = dir t)
    (virt phy : UInt32) (writePermission writethrough cachedisable : UInt8) :
    ∃ s' result, ZeldaOS.userspaceMapPage s task virt phy writePermission writethrough cachedisable = .ok (s', result) ∧
      s'.freePageBitmap = s.freePageBitmap ∧
      Remaps dir s s' t (pageOf virt) (some (phy.toNat / 4096 * 4096)) result := by
  obtain ⟨s', result, hmap, hm⟩ := h.userspaceMapPage_entry ht virt phy writePermission writethrough cachedisable
  refine ⟨s', result, hmap, hm.frames, hm.sound, fun h0 => ?_, fun t' page hlt hne => ?_⟩
  · rw [(hm.entry h0).lookup_eq, frameOf, createPte32, if_pos (present_createEntry32 _ _ _ _ _),
      frameAddr_createEntry32 _ _ _ _ phy.toNat_lt]
  by_cases h0 : result = 0
  · exact hm.other t' page hlt (hne.resolve_left fun hc => hc h0)
  · rw [(hm.failed h0).1]

/-! ## Evicting -/

theorem tableInUse_eq_false (h : tableInUse m page = false) : ∀ j < 1024, ¬present (entryAt m page j) := by
  simpa [tableInUse] using h

theorem Sound.reclaimPageTable (h : Sound dir s.mem s.base s.calls) {t : τ} (ht : task.pageDirectory = dir t)
    (virt : UInt32) :
    ∃ s' result, ZeldaOS.reclaimPageTable s task virt = .ok (s', result) ∧ Sound dir s'.mem s'.base s'.calls ∧
      ∀ t', ∀ page < 2 ^ 20, lookup s'.mem (dir t') page = lookup s.mem (dir t') page := by
  have hlt := pageOf_lt virt
  have hi : pdIndex virt < 1024 := by rw [pdIndex_eq]; omega
  have hdir : dir t ≠ 0 := (h.dir_base t).pos.ne'
  simp only [ZeldaOS.reclaimPageTable, ht, ensure_of hdir, bind, Except.bind]
  by_cases hp : present (entryAt s.mem (dir t) (pdIndex virt))
  · rw [if_pos hp]
    cases huse : tableInUse s.mem (frameAddr (entryAt s.mem (dir t) (pdIndex virt))) with
    | true => exact ⟨s, -errBusy, rfl, h, fun _ _ _ => rfl⟩
    | false =>
      obtain ⟨hsound, hlookup⟩ := h.dropTable hi hp rfl (tableInUse_eq_false huse)
      refine ⟨_, 0, rfl, ?_, hlookup⟩
      dsimp only
      exact hsound
  · rw [if_neg hp]
    exact ⟨s, -errNotPresent, rfl, h, fun _ _ _ => rfl⟩

def evictedPage (s : PagingState) (vma : VmArea) (d page frame : ℕ) : PagingState :=
  { s with
    mem := setEntry s.mem (tableOf s.mem d (page / 1024)) (page % 1024) 0
    freePageBitmap := if vma.isExact then s.freePageBitmap else freePage s.freePageBitmap frame }

theorem userspaceEvictPage_present {vma : VmArea} {frame : ℕ} (hdir : task.pageDirectory ≠ 0)
    (hs : searchUserspaceVmaByAddr task.vmaList virt.toNat = some vma)
    (hl : lookup s.mem task.pageDirectory (pageOf virt) = some frame) (reclaim : Bool) :
    present (entryAt s.mem task.pageDirectory (pageOf virt / 1024)) ∧ ZeldaOS.userspaceEvictPage s task virt reclaim =
        if reclaim then
          ZeldaOS.reclaimPageTable (evictedPage s vma task.pageDirectory (pageOf virt) frame) task virt >>=
            fun r => .ok (r.1, 0) else .ok (evictedPage s vma task.pageDirectory (pageOf virt) frame, 0) := by
  have hp : present (entryAt s.mem task.pageDirectory (pageOf virt / 1024)) := by
    by_contra hc
    rw [lookup_eq_none hc] at hl
    cases hl
  rw [lookup_of_present hp, frameOf, tableOf] at hl
  split_ifs at hl with hpte
  cases hl
  refine ⟨hp, ?_⟩
  simp only [ZeldaOS.userspaceEvictPage, ensure_of hdir, hs, pdIndex_eq, ptIndex_eq, bind, Except.bind]
  rw [if_pos hp, if_pos hpte]
  rfl

theorem userspaceEvictPage_absent (hdir : task.pageDirectory ≠ 0)
    (h : searchUserspaceVmaByAddr task.vmaList virt.toNat = none ∨ lookup s.mem task.pageDirectory (pageOf virt) = none)
    (reclaim : Bool) : ZeldaOS.userspaceEvictPage s task virt reclaim = .ok (s, -errNotPresent) := by
  simp only [ZeldaOS.userspaceEvictPage, ensure_of hdir, bind, Except.bind]
  cases hs : searchUserspaceVmaByAddr task.vmaList virt.toNat with
  | none => rfl
  | some vma =>
    have hl := h.resolve_left (by rw [hs]; exact Option.some_ne_none vma)
    simp only [pdIndex_eq, ptIndex_eq]
    by_cases hp : present (entryAt s.mem task.pageDirectory (pageOf virt / 1024))
    · rw [lookup_of_present hp, frameOf, tableOf] at hl
      split_ifs at hl with hpte
      rw [if_pos hp, if_neg hpte]
    · rw [if_neg hp]

theorem evictable_or (s : PagingState) (task : TaskMem) (virt : UInt32) :
    (∃ vma frame, searchUserspaceVmaByAddr task.vmaList virt.toNat = some vma ∧
      lookup s.mem task.pageDirectory (pageOf virt) = some frame) ∨
    (searchUserspaceVmaByAddr task.vmaList virt.toNat = none ∨
      lookup s.mem task.pageDirectory (pageOf virt) = none) := by
  cases searchUserspaceVmaByAddr task.vmaList virt.toNat with
  | none => exact .inr (.inl rfl)
  | some vma =>
    cases lookup s.mem task.pageDirectory (pageOf virt) with
    | none => exact .inr (.inr rfl)
    | some frame => exact .inl ⟨vma, frame, rfl, rfl⟩

theorem Sound.userspaceEvictPage (h : Sound dir s.mem s.base s.calls) {t : τ} (ht : task.pageDirectory = dir t)
    (virt : UInt32) (reclaim : Bool) : ∃ s' result, ZeldaOS.userspaceEvictPage s task virt reclaim = .ok (s', result) ∧
      Remaps dir s s' t (pageOf virt) none result := by
  have hdir : task.pageDirectory ≠ 0 := ht ▸ (h.dir_base t).pos.ne'
  have hpage := pageOf_lt virt
  rcases evictable_or s task virt with ⟨vma, frame, hs, hl⟩ | habsent
  · obtain ⟨hp, heq⟩ := userspaceEvictPage_present hdir hs hl reclaim
    rw [heq, ht]
    rw [ht] at hp
    obtain ⟨hsound, -, hself, hother⟩ := h.setPte hpage hp (by decide : 0 < 2 ^ 32)
    cases reclaim with
    | false =>
      exact ⟨_, 0, rfl, hsound, fun _ => hself,
        fun t' page hlt hne => hother t' page hlt (hne.resolve_left fun hc => hc rfl)⟩
    | true =>
      obtain ⟨s', result, hrec, hsound', hlookup⟩ := Sound.reclaimPageTable
        (s := evictedPage s vma (dir t) (pageOf virt) frame) hsound ht virt
      rw [if_pos rfl, hrec]
      exact ⟨s', 0, rfl, hsound', fun _ => (hlookup t _ hpage).trans hself,
        fun t' page hlt hne => (hlookup t' page hlt).trans (hother t' page hlt (hne.resolve_left fun hc => hc rfl))⟩
  · exact ⟨s, _, userspaceEvictPage_absent hdir habsent reclaim, .failed h (by decide)⟩

end

end ZeldaOS
