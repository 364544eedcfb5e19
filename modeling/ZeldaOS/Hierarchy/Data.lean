import ZeldaOS.Hierarchy.Create
import ZeldaOS.Machine.Runs

/-!
# What the files of a hierarchy carry

The functions of `filesystem/fs_hierarchy.c` neither read nor change what the files there carry.

* `createLevels_bare`: the links do not depend on the data.
* `createLevels_kept`: the data of the old files is kept.
-/

namespace ZeldaOS

open Machine Function

namespace FileTree

/-! ## The links alone -/

def bare (t : FileTree) : FileTree := { t with priv := fun _ => 0 }

def data (t : FileTree) (x : ℕ) : CString × FileType × ℕ × ℕ := (t.name x, t.type x, t.ops x, t.priv x)

end FileTree

section
variable (supply : ℕ → ℕ) (t : FileTree) (current x : ℕ) (c : CString) (names : List CString)

def bareResult {α : Type} (r : Except FsFault (FileTree × α)) : Except FsFault (FileTree × α) :=
  r.map fun p => (p.1.bare, p.2)

theorem malloc_bare : t.bare.malloc supply = ((t.malloc supply).1.bare, (t.malloc supply).2) := by
  have hsame : t.bare.malloc supply = if supply t.mallocs = 0 ∨ supply t.mallocs ∈ t.live then
      (FileTree.bare { t with mallocs := t.mallocs + 1 }, 0)
    else (FileTree.bare { t with mallocs := t.mallocs + 1, live := supply t.mallocs :: t.live },
      supply t.mallocs) := rfl
  rw [hsame, FileTree.malloc]
  split_ifs
  · rfl
  · rfl

theorem newFile_bare (type : FileType) : t.bare.newFile x c type = (t.newFile x c type).bare := by
  rw [FileTree.newFile, FileTree.newFile, FileTree.bare, FileTree.mk.injEq]
  refine ⟨rfl, rfl, rfl, rfl, ?_, rfl, rfl⟩
  exact update_eq_self x _

theorem addSibling_bare : addSibling t.bare current x = bareResult (addSibling t current x) := by
  have hlast : lastSibling t.bare.nodes t.bare.fuel current = lastSibling t.nodes t.fuel current := rfl
  rw [addSibling, addSibling, hlast]
  split_ifs
  · rfl
  cases lastSibling t.nodes t.fuel current with
  | error e => rfl
  | ok last => rfl

theorem addChild_bare : addChild t.bare current x = bareResult (addChild t current x) := by
  have hsibling := addSibling_bare t (t.nodes.left current) x
  have hleft : t.bare.nodes = t.nodes := rfl
  rw [addChild, addChild, hleft]
  split_ifs
  · rfl
  · rfl
  · exact hsibling

theorem searchFrom_bare (n : ℕ) : searchFrom t.bare c n x = searchFrom t c n x := by
  induction n generalizing x with
  | zero => rfl
  | succ n ih =>
    rw [searchFrom, searchFrom, ih]
    rfl

theorem searchSibling_bare : searchSibling t.bare current c = searchSibling t current c := by
  exact congrArg _ (funext fun x => searchFrom_bare t x c t.fuel)

theorem searchLevels_bare : searchLevels t.bare names current x = searchLevels t names current x := by
  induction names generalizing current x with
  | nil => rfl
  | cons c cs ih =>
    rw [searchLevels, searchLevels, searchSibling_bare]
    cases searchSibling t current c with
    | error e => rfl
    | ok o =>
      cases o with
      | none => rfl
      | some y => exact ih (t.nodes.left y) y

theorem directoryEntry_bare :
    directoryEntry supply t.bare current c = bareResult (directoryEntry supply t current c) := by
  rw [directoryEntry, directoryEntry, searchSibling_bare]
  cases searchSibling t current c with
  | error e => rfl
  | ok o =>
    cases o with
    | some y => rfl
    | none =>
      obtain ⟨⟨t1, y⟩, hm⟩ : ∃ p, t.malloc supply = p := ⟨_, rfl⟩
      simp only [bind, Except.bind, malloc_bare, hm, newFile_bare, addSibling_bare]
      by_cases hy : y = 0
      · simp only [if_pos hy]
        rfl
      simp only [if_neg hy]
      cases addSibling (t1.newFile y (strcpySafe c maxPath) .dir) current y with
      | error e => rfl
      | ok r =>
        by_cases hr : r.2 = 0
        · simp only [bareResult, Except.map, FsFault.unless_of hr]
        · simp only [bareResult, Except.map, FsFault.unless, if_neg hr]

theorem markChild_bare : markChild supply t.bare x = bareResult (markChild supply t x) := by
  have hleft : t.bare.nodes = t.nodes := rfl
  obtain ⟨⟨t1, y⟩, hm⟩ : ∃ p, t.malloc supply = p := ⟨_, rfl⟩
  rw [markChild, markChild, hleft, malloc_bare, hm]
  simp only [newFile_bare, addChild_bare]
  by_cases hx : t.nodes.left x ≠ 0
  · simp only [if_pos hx]
    rfl
  by_cases hy : y = 0
  · simp only [if_neg hx, if_pos hy]
    rfl
  simp only [if_neg hx, if_neg hy]
  cases addChild (t1.newFile y .empty .mark) x y with
  | error e => rfl
  | ok r =>
    by_cases hr : r.2 = 0
    · simp only [bareResult, Except.map, bind, Except.bind, FsFault.unless_of hr]
    · simp only [bareResult, Except.map, bind, Except.bind, FsFault.unless, if_neg hr]

theorem createLevels_bare : createLevels supply names current t.bare = bareResult
    (createLevels supply names current t) := by
  induction names generalizing current t with
  | nil => rfl
  | cons c cs ih =>
    rw [createLevels, createLevels, directoryEntry_bare]
    cases directoryEntry supply t current c with
    | error e => rfl
    | ok r =>
      obtain ⟨t1, r | y⟩ := r
      · rfl
      simp only [bareResult, Except.map, bind, Except.bind, markChild_bare]
      cases markChild supply t1 y with
      | error e => rfl
      | ok s =>
        obtain ⟨t2, s⟩ := s
        by_cases hs : s ≠ 0
        · simp only [if_pos hs]
        simp only [if_neg hs]
        exact ih t2 (t2.nodes.left y)

theorem fileEntry_bare : fileEntry supply t.bare current c = bareResult (fileEntry supply t current c) := by
  rw [fileEntry, fileEntry, searchSibling_bare]
  cases searchSibling t current c with
  | error e => rfl
  | ok o =>
    cases o with
    | some y => rfl
    | none =>
      obtain ⟨⟨t1, y⟩, hm⟩ : ∃ p, t.malloc supply = p := ⟨_, rfl⟩
      simp only [bind, Except.bind, malloc_bare, hm, newFile_bare, addSibling_bare]
      by_cases hy : y ≠ 0
      · simp only [FsFault.unless_of hy]
        cases addSibling (t1.newFile y (strcpySafe c maxPath) .regular) current y with
        | error e => rfl
        | ok r =>
          by_cases hr : r.2 = 0
          · simp only [bareResult, Except.map, FsFault.unless_of hr]
          · simp only [bareResult, Except.map, FsFault.unless, if_neg hr]
      · simp only [FsFault.unless, if_neg hy]
        rfl

theorem createFileLevels_bare :
    createFileLevels supply t.bare names current = bareResult (createFileLevels supply t names current) := by
  induction names generalizing current with
  | nil => rfl
  | cons c cs ih =>
    cases cs with
    | nil => exact fileEntry_bare supply t current c
    | cons d cs =>
      have hne : d :: cs ≠ [] := List.cons_ne_nil d cs
      rw [createFileLevels.eq_3 _ _ _ _ _ hne, createFileLevels.eq_3 _ _ _ _ _ hne, searchSibling_bare]
      cases searchSibling t current c with
      | error e => rfl
      | ok o =>
        cases o with
        | none => rfl
        | some y => exact ih (t.nodes.left y)

end

/-! ## The data -/

structure FreshData (names : List CString) (t : FileTree) (x : ℕ) : Prop where
  ops : t.ops x = 0
  priv : t.priv x = 0
  name : t.name x = .empty ∨ ∃ c ∈ names, t.name x = strcpySafe c maxPath

structure DataKept (names : List CString) (t t' : FileTree) : Prop where
  live : t.live ⊆ t'.live
  data : ∀ x, t'.data x = t.data x ∨ x ∉ t.live ∧ FreshData names t' x

section
variable {supply : ℕ → ℕ} {t t' t'' : FileTree} {current x : ℕ} {c : CString} {names names' : List CString} {r : ℤ}

theorem FreshData.of_data (h : FreshData names t x) (hdata : t'.data x = t.data x) : FreshData names t' x := by
  simp only [FileTree.data, Prod.mk.injEq] at hdata
  obtain ⟨hname, -, hops, hpriv⟩ := hdata
  exact ⟨hops.trans h.ops, hpriv.trans h.priv, by rw [hname]; exact h.name⟩

theorem DataKept.refl (names : List CString) (t : FileTree) : DataKept names t t :=
  ⟨List.Subset.refl _, fun _ => .inl rfl⟩

theorem DataKept.trans (h : DataKept names t t') (h' : DataKept names t' t'') : DataKept names t t'' := by
  refine ⟨List.Subset.trans h.live h'.live, fun x => ?_⟩
  rcases h'.data x with hx | ⟨hx, hnew⟩
  · rcases h.data x with hx' | ⟨hx', hnew⟩
    · exact .inl (hx.trans hx')
    · exact .inr ⟨hx', hnew.of_data hx⟩
  · exact .inr ⟨fun hc => hx (h.live hc), hnew⟩

theorem malloc_kept (names : List CString) (hm : t.malloc supply = (t', x)) :
    DataKept names t t' ∧ ∀ (c : CString) (type : FileType), x ≠ 0 →
      (c = .empty ∨ ∃ d ∈ names, c = strcpySafe d maxPath) → DataKept names t (t'.newFile x c type) := by
  rcases malloc_cases supply t with ⟨hcase, -⟩ | ⟨y, hy0, hy, hcase, -⟩
  · rw [hm, Prod.mk.injEq] at hcase
    obtain ⟨rfl, rfl⟩ := hcase
    exact ⟨⟨List.Subset.refl _, fun _ => .inl rfl⟩, fun _ _ h0 => absurd rfl h0⟩
  rw [hm, Prod.mk.injEq] at hcase
  obtain ⟨rfl, rfl⟩ := hcase
  refine ⟨⟨List.subset_cons_self _ _, fun _ => .inl rfl⟩, fun c type _ hc => ⟨List.subset_cons_self _ _, fun z => ?_⟩⟩
  by_cases hz : z = x
  · subst hz
    refine .inr ⟨hy, update_self .., update_self .., ?_⟩
    change update t.name z c z = .empty ∨ ∃ d ∈ names, update t.name z c z = strcpySafe d maxPath
    rw [update_self]
    exact hc
  · refine .inl ?_
    simp only [FileTree.data, FileTree.newFile, update_of_ne hz]

theorem addSibling_kept (h : addSibling t current x = .ok (t', r)) : DataKept names t t' := by
  rw [addSibling] at h
  split_ifs at h
  · cases h
    exact .refl names t
  obtain ⟨last, -, h⟩ := bind_eq_ok h
  cases h
  exact ⟨List.Subset.refl _, fun _ => .inl rfl⟩

theorem addChild_kept (h : addChild t current x = .ok (t', r)) : DataKept names t t' := by
  rw [addChild] at h
  split_ifs at h
  · cases h
    exact .refl names t
  · cases h
    exact ⟨List.Subset.refl _, fun _ => .inl rfl⟩
  · exact addSibling_kept h

theorem directoryEntry_kept {o : Except ℤ ℕ} (h : directoryEntry supply t current c = .ok (t', o)) (hc : c ∈ names) :
    DataKept names t t' := by
  obtain ⟨found, -, h⟩ := bind_eq_ok h
  cases found with
  | some y =>
    cases h
    exact .refl names t
  | none =>
    obtain ⟨⟨t1, y⟩, hm⟩ : ∃ p, t.malloc supply = p := ⟨_, rfl⟩
    obtain ⟨hkept, hnew⟩ := malloc_kept names hm
    simp only [hm] at h
    split_ifs at h with hy
    · cases h
      exact hkept
    obtain ⟨⟨t2, s⟩, hadd, h⟩ := bind_eq_ok h
    obtain ⟨-, -, h⟩ := bind_eq_ok h
    cases h
    exact (hnew _ .dir hy (.inr ⟨c, hc, rfl⟩)).trans (addSibling_kept hadd)

theorem markChild_kept (h : markChild supply t x = .ok (t', r)) : DataKept names t t' := by
  obtain ⟨⟨t1, y⟩, hm⟩ : ∃ p, t.malloc supply = p := ⟨_, rfl⟩
  obtain ⟨hkept, hnew⟩ := malloc_kept names hm
  simp only [markChild, hm] at h
  split_ifs at h with hx hy
  · cases h
    exact .refl names t
  · cases h
    exact hkept
  obtain ⟨⟨t2, s⟩, hadd, h⟩ := bind_eq_ok h
  obtain ⟨-, -, h⟩ := bind_eq_ok h
  cases h
  exact (hnew .empty .mark hy (.inl rfl)).trans (addChild_kept hadd)

theorem createLevels_kept (h : createLevels supply names current t = .ok (t', r)) (hsub : names ⊆ names') :
    DataKept names' t t' := by
  induction names generalizing current t with
  | nil =>
    cases h
    exact .refl names' _
  | cons c cs ih =>
    obtain ⟨hc, hcs⟩ := List.cons_subset.1 hsub
    obtain ⟨⟨t1, o⟩, hentry, h⟩ := bind_eq_ok h
    have hkept := directoryEntry_kept hentry hc
    cases o with
    | error s =>
      cases h
      exact hkept
    | ok y =>
      obtain ⟨⟨t2, s⟩, hmark, h⟩ := bind_eq_ok h
      have hkept2 := hkept.trans (markChild_kept hmark)
      dsimp only at h
      split_ifs at h
      · cases h
        exact hkept2
      · exact hkept2.trans (ih h hcs)

theorem fileEntry_kept (h : fileEntry supply t current c = .ok (t', r)) (hc : c ∈ names) : DataKept names t t' := by
  obtain ⟨found, -, h⟩ := bind_eq_ok h
  cases found with
  | some y =>
    cases h
    exact .refl names t
  | none =>
    obtain ⟨⟨t1, y⟩, hm⟩ : ∃ p, t.malloc supply = p := ⟨_, rfl⟩
    obtain ⟨-, hnew⟩ := malloc_kept names hm
    simp only [hm] at h
    obtain ⟨_, hy, h⟩ := bind_eq_ok h
    obtain ⟨⟨t2, s⟩, hadd, h⟩ := bind_eq_ok h
    obtain ⟨-, -, h⟩ := bind_eq_ok h
    cases h
    exact (hnew _ .regular (FsFault.of_unless hy) (.inr ⟨c, hc, rfl⟩)).trans (addSibling_kept hadd)

theorem createFileLevels_kept (h : createFileLevels supply t names current = .ok (t', r)) (hsub : names ⊆ names') :
    DataKept names' t t' := by
  induction names generalizing current with
  | nil =>
    cases h
    exact .refl names' t
  | cons c cs ih =>
    obtain ⟨hc, hcs⟩ := List.cons_subset.1 hsub
    cases cs with
    | nil => exact fileEntry_kept h hc
    | cons d cs =>
      obtain ⟨found, -, h⟩ := bind_eq_ok h
      cases found with
      | none =>
        cases h
        exact .refl names' t
      | some y => exact ih h hcs

end

end ZeldaOS
