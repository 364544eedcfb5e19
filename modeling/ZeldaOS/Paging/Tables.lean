import ZeldaOS.Paging.Model

/-!
# Base pages, entries and translation

The base page allocator, stores to entries, and the walk through a directory and a table.

* `getBasePage_spec`: `get_base_page`.
* `virt2phy_eq`: the walk is a lookup.
-/

namespace ZeldaOS

open Machine

/-! ## Base pages -/

structure IsBasePage (page : ℕ) : Prop where
  aligned : 4096 ∣ page
  bottom_le : pageSpaceBottom ≤ page
  lt_top : page < pageSpaceTop

def occupied (b : BasePages) (page : ℕ) : Prop := b.bitmap.test (basePageOffset page) = true

instance (b : BasePages) (page : ℕ) : Decidable (occupied b page) := inferInstanceAs (Decidable (_ = _))

theorem basePageOffset_eq (page : ℕ) : basePageOffset page = (page - pageSpaceBottom) / 4096 :=
  Nat.shiftRight_eq_div_pow _ 12

variable {p q : ℕ}

theorem IsBasePage.offset_inj (hp : IsBasePage p) (hq : IsBasePage q) (h : basePageOffset p = basePageOffset q) :
    p = q := by
  obtain ⟨⟨a, rfl⟩, hpb, -⟩ := hp
  obtain ⟨⟨b, rfl⟩, hqb, -⟩ := hq
  rw [basePageOffset_eq, basePageOffset_eq] at h
  omega

theorem IsBasePage.pos (hp : IsBasePage p) : 0 < p := by
  have := hp.bottom_le
  unfold pageSpaceBottom at this
  omega

theorem searchBasePage_spec (bitmap : Bitmap) (fuel page : ℕ) (haligned : 4096 ∣ page)
    (hbottom : pageSpaceBottom ≤ page) (hfuel : pageSpaceTop ≤ page + 4096 * fuel) :
    ∃ q, searchBasePage bitmap (fuel + 1) page = .ok q ∧ 4096 ∣ q ∧ pageSpaceBottom ≤ q ∧
      (q < pageSpaceTop → bitmap.test (basePageOffset q) = false) ∧
      ∀ r, IsBasePage r → page ≤ r → r < q → bitmap.test (basePageOffset r) = true := by
  induction fuel generalizing page with
  | zero =>
    refine ⟨page, ?_, haligned, hbottom, fun h => absurd h (by omega), fun r _ h1 h2 => by omega⟩
    rw [searchBasePage, if_neg (by omega)]
  | succ fuel ih =>
    rw [searchBasePage]
    by_cases hlt : page < pageSpaceTop
    · rw [if_pos hlt]
      cases htest : bitmap.test (basePageOffset page) with
      | false => exact ⟨page, by simp, haligned, hbottom, fun _ => htest, fun r _ h1 h2 => by omega⟩
      | true =>
        have hnext : 4096 ∣ page + pageSize := haligned.add (dvd_refl 4096)
        obtain ⟨q, hq, hal, hb, hfree, hall⟩ := ih (page + pageSize) hnext (by omega) (by unfold pageSize; omega)
        refine ⟨q, by simpa using hq, hal, hb, hfree, fun r hr h1 h2 => ?_⟩
        rcases Nat.eq_or_lt_of_le h1 with rfl | hpage
        · exact htest
        refine hall r hr ?_ h2
        obtain ⟨a, ha⟩ := hr.aligned
        unfold pageSize
        omega
    · exact ⟨page, by rw [if_neg hlt], haligned, hbottom, fun h => absurd h hlt, fun r _ h1 h2 => by omega⟩

theorem searchBasePage_ok (bitmap : Bitmap) (page : ℕ) (haligned : 4096 ∣ page) (hbottom : pageSpaceBottom ≤ page) :
    ∃ q, searchBasePage bitmap basePageFuel page = .ok q ∧ 4096 ∣ q ∧ pageSpaceBottom ≤ q ∧
      (q < pageSpaceTop → bitmap.test (basePageOffset q) = false) ∧
      ∀ r, IsBasePage r → page ≤ r → r < q → bitmap.test (basePageOffset r) = true := by
  refine searchBasePage_spec bitmap ((pageSpaceTop - pageSpaceBottom) / pageSize) page haligned hbottom ?_
  unfold pageSpaceTop pageSpaceBottom pageSize at *
  omega

structure GetsBasePage (b b' : BasePages) (page : ℕ) : Prop where
  cursor : 4096 ∣ b'.fastBasePageAddr
  full : page = 0 → b'.bitmap = b.bitmap ∧ ∀ q, IsBasePage q → occupied b q
  found : page ≠ 0 → IsBasePage page ∧ ¬occupied b page ∧ b'.bitmap = b.bitmap.set (basePageOffset page)

variable {b : BasePages}

theorem getBasePage_spec (hcursor : 4096 ∣ b.fastBasePageAddr) :
    ∃ b' page, getBasePage b = .ok (b', page) ∧ GetsBasePage b b' page := by
  have hbottom : 4096 ∣ pageSpaceBottom := by decide
  obtain ⟨start, hstart, hal, hle⟩ : ∃ start,
      (if b.fastBasePageAddr < pageSpaceBottom ∨ pageSpaceTop ≤ b.fastBasePageAddr then
        pageSpaceBottom else b.fastBasePageAddr) = start ∧ 4096 ∣ start ∧ pageSpaceBottom ≤ start := by
    split_ifs with h
    · exact ⟨_, rfl, hbottom, le_rfl⟩
    · exact ⟨_, rfl, hcursor, by omega⟩
  obtain ⟨q, hq, hqal, hqb, hqfree, -⟩ := searchBasePage_ok b.bitmap start hal hle
  by_cases hlt : q < pageSpaceTop
  · have hbase : IsBasePage q := ⟨hqal, hqb, hlt⟩
    refine ⟨⟨b.bitmap.set (basePageOffset q), q⟩, q, ?_, hqal, fun h => absurd h hbase.pos.ne',
      fun _ => ⟨hbase, ?_, rfl⟩⟩
    · simp [getBasePage, getBasePageFast, hstart, hq, hlt, hbase.pos.ne', bind, Except.bind]
    · simp [occupied, hqfree hlt]
  -- the cursor's search came to the end, so the fallback starts from the bottom
  obtain ⟨r, hr, hral, hrb, hrfree, hrall⟩ :=
    searchBasePage_ok b.bitmap pageSpaceBottom hbottom le_rfl
  by_cases hrlt : r < pageSpaceTop
  · have hbase : IsBasePage r := ⟨hral, hrb, hrlt⟩
    refine ⟨⟨b.bitmap.set (basePageOffset r), q⟩, r, ?_, hqal, fun h => absurd h hbase.pos.ne',
      fun _ => ⟨hbase, ?_, rfl⟩⟩
    · simp [getBasePage, getBasePageFast, getBasePageSlow, hstart, hq, hlt, hr, hrlt, bind, Except.bind]
    · simp [occupied, hrfree hrlt]
  · refine ⟨⟨b.bitmap, q⟩, 0, ?_, hqal, fun _ => ⟨rfl, fun p hp => ?_⟩, fun h => absurd rfl h⟩
    · simp [getBasePage, getBasePageFast, getBasePageSlow, hstart, hq, hlt, hr, hrlt, bind, Except.bind]
    have := hp.lt_top
    exact hrall p hp hp.bottom_le (by omega)

variable {page : ℕ}

theorem occupied_set {b' : BasePages} (h : b'.bitmap = b.bitmap.set (basePageOffset page))
    (hq : occupied b q ∨ q = page) : occupied b' q := by
  rw [occupied, h, Bitmap.test_set]
  split_ifs with hoff
  · rfl
  · exact hq.resolve_right fun he => hoff (by rw [he])

theorem occupied_freeBasePage (hpage : IsBasePage page) (hq : IsBasePage q) (hne : q ≠ page) (h : occupied b q) :
    occupied (freeBasePage b page) q := by
  have h1 := hpage.bottom_le
  have h2 := hpage.lt_top
  rw [occupied, freeBasePage, if_neg (by omega), Bitmap.test_clear, if_neg fun he => hne (hq.offset_inj hpage he)]
  exact h

/-! ## Entries -/

theorem frameAddr_eq (entry : ℕ) : frameAddr entry = entry / 4096 * 4096 := by
  rw [frameAddr, Nat.shiftRight_eq_div_pow, Nat.shiftLeft_eq]

theorem frameAddr_aligned (entry : ℕ) : 4096 ∣ frameAddr entry :=
  frameAddr_eq entry ▸ Dvd.intro_left _ rfl

theorem createEntry32_eq (w s t c frame : ℕ) : ∃ flags < 4096, flags % 2 = 1 ∧
    createEntry32 w s t c frame = flags + frame / 4096 % 2 ^ 20 * 4096 := by
  refine ⟨1 + w % 2 * 2 + s % 2 * 4 + t % 2 * 8 + c % 2 * 16, by omega, by omega, ?_⟩
  rw [createEntry32, Nat.shiftRight_eq_div_pow]

theorem present_createEntry32 (w s t c frame : ℕ) : present (createEntry32 w s t c frame) := by
  obtain ⟨flags, -, hodd, he⟩ := createEntry32_eq w s t c frame
  rw [present, he]
  omega

theorem frameAddr_createEntry32 (w s t c : ℕ) {frame : ℕ} (h : frame < 2 ^ 32) :
    frameAddr (createEntry32 w s t c frame) = frame / 4096 * 4096 := by
  obtain ⟨flags, hlt, -, he⟩ := createEntry32_eq w s t c frame
  rw [frameAddr_eq, he]
  omega

theorem createEntry32_lt (w s t c frame : ℕ) : createEntry32 w s t c frame < 2 ^ 32 := by
  obtain ⟨flags, hlt, -, he⟩ := createEntry32_eq w s t c frame
  omega

theorem not_present_zero : ¬present 0 := by decide

variable {P Q j : ℕ}

theorem entryAt_setEntry {i e : ℕ} (m : Mem) (hP : 4096 ∣ P) (hQ : 4096 ∣ Q) (hi : i < 1024) (hj : j < 1024)
    (he : e < 2 ^ 32) : entryAt (setEntry m P i e) Q j = if Q = P ∧ j = i then e else entryAt m Q j := by
  split_ifs with h
  · obtain ⟨hpage, rfl⟩ := h
    rw [entryAt, setEntry, hpage]
    exact Mem.read_write_self (by omega)
  · exact Mem.read_write_of_disjoint (by omega)

theorem entryAt_fill (m : Mem) (hP : 4096 ∣ P) (hQ : 4096 ∣ Q) (hj : j < 1024) :
    entryAt (m.fill P pageSize 0) Q j = if Q = P then 0 else entryAt m Q j := by
  unfold pageSize
  split_ifs with h
  · exact Mem.read_fill_zero (by omega) (by omega)
  · exact Mem.read_fill_of_disjoint (by omega)

/-! ## Translation -/

def pageOf (virt : UInt32) : ℕ := virt.toNat / 4096

theorem pageOf_ofNat {addr : ℕ} (h : addr < 2 ^ 32) : pageOf (.ofNat addr) = addr / 4096 := by
  rw [pageOf, UInt32.toNat_ofNat', Nat.mod_eq_of_lt h]

theorem pageOf_lt (virt : UInt32) : pageOf virt < 2 ^ 20 := by
  have := virt.toNat_lt
  unfold pageOf
  omega

theorem pdIndex_eq (virt : UInt32) : pdIndex virt = pageOf virt / 1024 := by
  have := virt.toNat_lt
  have hmask : (0x3ff : ℕ) = 2 ^ 10 - 1 := rfl
  rw [pdIndex, hmask, Nat.and_two_pow_sub_one_eq_mod, Nat.shiftRight_eq_div_pow, pageOf]
  omega

theorem ptIndex_eq (virt : UInt32) : ptIndex virt = pageOf virt % 1024 := by
  have hmask : (0x3ff : ℕ) = 2 ^ 10 - 1 := rfl
  rw [ptIndex, hmask, Nat.and_two_pow_sub_one_eq_mod, Nat.shiftRight_eq_div_pow, pageOf]

def tableOf (m : Mem) (pageDirectory i : ℕ) : ℕ := frameAddr (entryAt m pageDirectory i)

def frameOf (entry : ℕ) : Option ℕ := if present entry then some (frameAddr entry) else none

def lookup (m : Mem) (pageDirectory page : ℕ) : Option ℕ :=
  if present (entryAt m pageDirectory (page / 1024)) then
    frameOf (entryAt m (tableOf m pageDirectory (page / 1024)) (page % 1024))
  else none

def physAddr (frame : Option ℕ) (virt : UInt32) : ℕ := (frame.map (· ||| virt.toNat % 4096)).getD 0

variable {m : Mem} {pageDirectory : ℕ}

theorem lookup_eq_none (h : ¬present (entryAt m pageDirectory (page / 1024))) : lookup m pageDirectory page = none :=
  if_neg h

theorem lookup_of_present (h : present (entryAt m pageDirectory (page / 1024))) :
    lookup m pageDirectory page = frameOf (entryAt m (tableOf m pageDirectory (page / 1024)) (page % 1024)) :=
  if_pos h

theorem lookup_congr {m' : Mem} (hpde : entryAt m' pageDirectory (page / 1024) = entryAt m pageDirectory (page / 1024))
    (hpte : present (entryAt m pageDirectory (page / 1024)) →
      entryAt m' (tableOf m pageDirectory (page / 1024)) (page % 1024) = entryAt m
        (tableOf m pageDirectory (page / 1024)) (page % 1024)) :
    lookup m' pageDirectory page = lookup m pageDirectory page := by
  by_cases hp : present (entryAt m pageDirectory (page / 1024))
  · rw [lookup_of_present hp, lookup_of_present (hpde ▸ hp), tableOf, hpde, ← tableOf, hpte hp]
  · rw [lookup_eq_none hp, lookup_eq_none (hpde ▸ hp)]

def MapsTo (m : Mem) (pageDirectory page entry : ℕ) : Prop :=
  present (entryAt m pageDirectory (page / 1024)) ∧
    entryAt m (tableOf m pageDirectory (page / 1024)) (page % 1024) = entry

theorem MapsTo.lookup_eq {entry : ℕ} (h : MapsTo m pageDirectory page entry) :
    lookup m pageDirectory page = frameOf entry := by
  rw [lookup_of_present h.1, h.2]

theorem physAddr_frameOf (pte : ℕ) (virt : UInt32) :
    physAddr (frameOf pte) virt = if present pte then frameAddr pte ||| virt.toNat % 4096 else 0 := by
  unfold frameOf
  split_ifs <;> rfl

theorem virt2phy_eq (m : Mem) (pageDirectory : ℕ) (virt : UInt32) :
    virt2phy m pageDirectory virt = physAddr (lookup m pageDirectory (pageOf virt)) virt := by
  have hmask : (0xfff : ℕ) = 2 ^ 12 - 1 := rfl
  simp only [virt2phy, pdIndex_eq, ptIndex_eq, hmask, Nat.and_two_pow_sub_one_eq_mod]
  by_cases hpde : present (entryAt m pageDirectory (pageOf virt / 1024))
  · rw [if_pos hpde, lookup_of_present hpde, physAddr_frameOf]
    rfl
  rw [if_neg hpde, lookup_eq_none hpde]
  rfl

end ZeldaOS
