import ZeldaOS.Hierarchy.Search

/-!
# New files and directories

`hierarchy_create_directory` and `hierarchy_create_file` on the tree of files, whether `malloc` fails or not.

* `createLevels_spec`: directories.
* `createFileLevels_spec`: files.
-/

namespace ZeldaOS

open Machine Machine.Forest
open List hiding nil

def Reliable (supply : ℕ → ℕ) (t : FileTree) : Prop :=
  Function.Injective supply ∧ ∀ k, t.mallocs ≤ k → supply k ≠ 0 ∧ supply k ∉ t.live

theorem malloc_cases (supply : ℕ → ℕ) (t : FileTree) :
    (t.malloc supply = ({ t with mallocs := t.mallocs + 1 }, 0) ∧ ¬Reliable supply t) ∨ ∃ x, x ≠ 0 ∧ x ∉ t.live ∧
        t.malloc supply = ({ t with live := x :: t.live, mallocs := t.mallocs + 1 }, x) ∧
        ∀ t' : FileTree, t'.live = x :: t.live → t'.mallocs = t.mallocs + 1 → Reliable supply t →
          Reliable supply t' := by
  by_cases h : supply t.mallocs = 0 ∨ supply t.mallocs ∈ t.live
  · refine .inl ⟨if_pos h, fun hrel => ?_⟩
    obtain ⟨h0, hlive⟩ := hrel.2 t.mallocs le_rfl
    exact h.elim h0 hlive
  refine .inr ⟨supply t.mallocs, fun h0 => h (.inl h0), fun hl => h (.inr hl), if_neg h,
    fun t' hlive hmallocs hrel => ⟨hrel.1, fun k hk => ?_⟩⟩
  obtain ⟨h0, hfree⟩ := hrel.2 k (by omega)
  refine ⟨h0, fun hc => ?_⟩
  rw [hlive] at hc
  rcases mem_cons.1 hc with heq | hc
  · have := hrel.1 heq
    omega
  · exact hfree hc

/-! ## Growth of a tree -/

/-- The tree grew by the directories `ds`. -/
structure Creates (supply : ℕ → ℕ) (ds : List CString) (t t' : FileTree) (T T' : Forest Entry) : Prop where
  represents : t'.Represents T'
  shaped : Shaped true T'
  grows : Grows ds T T'
  root : T'.root Entry.addr = T.root Entry.addr
  reliable : Reliable supply t → Reliable supply t'

variable {ds names : List CString} {current : ℕ}

section
variable {supply : ℕ → ℕ} {ds' : List CString} {t t' t'' : FileTree} {T T' T'' l child next : Forest Entry}
  {k K : List (Forest.Frame Entry)} {a : Entry} {c : CString} {type : FileType} {x : ℕ}

theorem Creates.refl (supply : ℕ → ℕ) (ds : List CString) (h : t.Represents T) (hs : Shaped true T) :
    Creates supply ds t t T T := ⟨h, hs, .refl ds T, rfl, id⟩

theorem Creates.trans (h : Creates supply ds t t' T T') (h' : Creates supply ds t' t'' T' T'') :
    Creates supply ds t t'' T T'' :=
  ⟨h'.represents, h'.shaped, h.grows.trans h'.grows, h'.root.trans h.root, fun hr => h'.reliable (h.reliable hr)⟩

theorem Creates.mono (h : Creates supply ds t t' T T') (hds : ds <+: ds') : Creates supply ds' t t' T T' :=
  { h with grows := h.grows.mono hds }

theorem addSibling_spec (h : t.Represents (plug K l)) (hl : l ≠ nil) (hx0 : x ≠ 0) (hx : x ∉ t.live)
    (c : CString) (type : FileType) (n : ℕ) :
    ∃ s k, addSibling (FileTree.newFile { t with live := x :: t.live, mallocs := n } x c type)
        (l.root Entry.addr) x = .ok (s, 0) ∧ l = plug k nil ∧ k ≠ [] ∧ Beside k ∧ (∀ f ∈ k, f.label ∈ l.spine) ∧
      s.Represents (plug (k ++ K) (node ⟨x, c, type⟩ nil nil)) ∧ s.live = x :: t.live ∧ s.mallocs = n ∧
      s.priv x = 0 := by
  obtain ⟨s0, hs0⟩ : ∃ s0, FileTree.newFile { t with live := x :: t.live, mallocs := n } x c type = s0 := ⟨_, rfl⟩
  have hnew : s0.Represents (plug K l) := hs0 ▸ h.newFile hx n
  obtain ⟨b, ch, k, hplug, hk, hspine, hlast⟩ := lastSibling_spec hnew.of_plug.1
    (fun e he => (hnew.of_plug.2 e he).2) hl hnew.spine_lt_fuel
  have hplace : plug K l = plug (.beside b ch :: (k ++ K)) nil := by
    rw [← cons_append, plug_append, ← hplug]
  refine ⟨{ s0 with nodes := (s0.nodes.setRight b.addr x).setParent x b.addr }, .beside b ch :: k, ?_, hplug,
    cons_ne_nil _ _, hk, hspine, ?_, ?_, ?_, ?_⟩
  · rw [hs0, addSibling, if_neg (root_ne_zero hnew hl), hlast]
    rfl
  · exact FileTree.Represents.attach (hplace ▸ h) hx0 hx n hs0.symm
  · rw [← hs0]
    rfl
  · rw [← hs0]
    rfl
  rw [← hs0]
  exact Function.update_self ..

theorem Shaped.concat_level (hs : Shaped true (plug K l)) (hK : AtLevel Entry.name K)
    (hnone : l.lookup Entry.name c = Option.none) (hc : c ≠ .empty) (htype : type = .regular ∨ type = .dir)
    (hl : l = plug k nil) (hne : k ≠ []) (hk : Beside k) (hspine : ∀ f ∈ k, f.label ∈ l.spine) :
    Shaped true (plug (k ++ K) (node ⟨x, c, type⟩ nil nil)) ∧
      Clear Entry.name c (k ++ K) ∧ path Entry.name (k ++ K) = path Entry.name K ∧
      Adds Entry.name (path Entry.name K ++ [c]) ⟨x, c, type⟩ (plug K l) (plug (k ++ K) (node ⟨x, c, type⟩ nil nil)) ∧
      (plug (k ++ K) (node ⟨x, c, type⟩ nil nil)).root Entry.addr = (plug K l).root Entry.addr := by
  have hclear : ∀ f ∈ k, f.label.name ≠ c := fun f hf => Forest.lookup_eq_none.1 hnone _ (hspine f hf)
  have hplace : plug K l = plug (k ++ K) nil := by rw [plug_append, ← hl]
  have hat : Clear Entry.name c (k ++ K) := hK.clear_append hk hclear
  have hpath : path Entry.name (k ++ K) = path Entry.name K := path_append_of_beside hk K
  refine ⟨?_, hat, hpath, ?_, ?_⟩
  · exact Shaped.concat (hplace ▸ hs) hk hne hK hclear htype hc (fun _ => rfl) trivial
  · rw [hplace, ← hpath]
    exact (adds_leaf Entry.name ⟨x, c, type⟩).plug hat
  obtain ⟨f, k, rfl⟩ := exists_cons_of_ne_nil hne
  rw [hplace]
  exact root_plug _ _

theorem find_of_lookup_none (hnone : l.lookup Entry.name c = Option.none) (cs : List CString) :
    l.find Entry.name (c :: cs) = Option.none := by
  by_cases hcs : cs = []
  · rw [hcs, find_singleton, hnone]
    rfl
  rw [find_cons hcs, hnone]
  rfl

/-! ## Directories -/

structure DirectoryAt (ds : List CString) (a : Entry) (next child : Forest Entry) (k : List (Forest.Frame Entry))
    (T : Forest Entry) : Prop where
  tree : T = plug (.below a next :: k) child
  dir : a.type = .dir
  level : AtLevel Entry.name (.below a next :: k)
  path : path Entry.name (.below a next :: k) = ds

theorem directoryEntry_found (supply : ℕ → ℕ) {y : ℕ} (hsearch : searchSibling t x c = .ok (some y)) :
    directoryEntry supply t x c = .ok (t, if t.type y ≠ .dir then .error (-errExist) else .ok y) := by
  rw [directoryEntry, hsearch]
  rfl

theorem directoryEntry_full (hsearch : searchSibling t current c = .ok Option.none)
    (hmalloc : t.malloc supply = (t', 0)) : directoryEntry supply t current c = .ok (t', .error (-errOutOfMemory)) := by
  simp only [directoryEntry, hsearch, hmalloc, bind, Except.bind, if_pos]

theorem directoryEntry_new (hsearch : searchSibling t current c = .ok Option.none) (hmalloc : t.malloc supply = (t', x))
    (hx : x ≠ 0) (hadd : addSibling (t'.newFile x (strcpySafe c maxPath) .dir) current x = .ok (t'', 0)) :
    directoryEntry supply t current c = .ok (t'', .ok x) := by
  simp only [directoryEntry, hsearch, hmalloc, bind, Except.bind, if_neg hx, hadd, FsFault.unless_of]

theorem directoryEntry_spec (supply : ℕ → ℕ) (h : t.Represents (plug K l)) (hs : Shaped true (plug K l))
    (hK : AtLevel Entry.name K) (hl : l ≠ nil) (hc : c ≠ .empty) (hlen : c.bytes.length ≤ maxPath) :
    (∃ t' r, directoryEntry supply t (l.root Entry.addr) c = .ok (t', .error r) ∧ r ≠ 0 ∧
        Creates supply (path Entry.name K ++ [c]) t t' (plug K l) (plug K l) ∧
        (Reliable supply t → t' = t ∧ ∃ e, l.find Entry.name [c] = some e ∧ e.type ≠ .dir)) ∨
      ∃ t' a next child k T', directoryEntry supply t (l.root Entry.addr) c = .ok (t', .ok a.addr) ∧
        DirectoryAt (path Entry.name K ++ [c]) a next child k T' ∧
        Creates supply (path Entry.name K ++ [c]) t t' (plug K l) T' ∧
        (t' = t ∧ T' = plug K l ∧ l.lookup Entry.name c = some (a, child) ∨
          l.lookup Entry.name c = Option.none ∧ child = nil) ∧
        (Marked (plug K l) → ∀ child', Marked child' → child' ≠ nil → Marked (plug (.below a next :: k) child')) := by
  have hsearch := searchSibling_spec h hK c
  cases hlookup : l.lookup Entry.name c with
  | some r =>
    obtain ⟨a, child⟩ := r
    obtain ⟨k, next, -, -, hname, hplug, hat, hpath⟩ := level_below hK hlookup
    have ha : a ∈ (plug K l).toList := by
      rw [hplug]
      exact (mem_plug (t := node a child next)).2 (.inr mem_cons_self)
    rw [hlookup] at hsearch
    have hentry := directoryEntry_found supply hsearch
    rw [(h.label a ha).2] at hentry
    by_cases hdir : a.type = .dir
    · refine .inr ⟨t, a, next, child, k ++ K, plug K l, ?_, ⟨hplug, hdir, hat, hpath⟩, .refl supply _ h hs,
        .inl ⟨rfl, rfl, rfl⟩, fun hm child' hchild hne => ?_⟩
      · rw [hentry, if_neg (not_not.2 hdir)]
      · exact Marked.replace (hplug ▸ hm) hchild fun _ => hne
    refine .inl ⟨t, -errExist, ?_, by decide, .refl supply _ h hs, fun _ => ⟨rfl, a, ?_, hdir⟩⟩
    · rw [hentry, if_pos hdir]
    rw [find_singleton, hlookup]
    rfl
  | none =>
    rw [hlookup] at hsearch
    rcases malloc_cases supply t with ⟨hmalloc, hrel⟩ | ⟨x, hx0, hx, hmalloc, hrel⟩
    · refine .inl ⟨{ t with mallocs := t.mallocs + 1 }, -errOutOfMemory, ?_, by decide, ?_, fun hr => absurd hr hrel⟩
      · exact directoryEntry_full hsearch hmalloc
      exact ⟨h.congr (fun _ _ => ⟨rfl, rfl, rfl⟩) (fun _ _ => ⟨rfl, rfl, rfl⟩) h.live, hs, .refl _ _, rfl,
        fun hr => absurd hr hrel⟩
    obtain ⟨s, k, hadd, hplug, hne, hk, hspine, hrep, hlive, hmallocs, -⟩ :=
      addSibling_spec h hl hx0 hx c .dir (t.mallocs + 1)
    obtain ⟨hshaped, hclear, hpath, hadds, hroot⟩ := hs.concat_level hK hlookup hc (.inr rfl) hplug hne hk hspine
    refine .inr ⟨s, ⟨x, c, .dir⟩, nil, nil, k ++ K, plug (k ++ K) (node ⟨x, c, .dir⟩ nil nil), ?_,
      ⟨rfl, rfl, hclear, by rw [path, hpath]⟩,
      ⟨hrep, hshaped, .of_adds hadds ?_ (.inr ⟨rfl, prefix_rfl⟩), hroot, hrel s hlive hmallocs⟩,
      .inr ⟨rfl, rfl⟩, fun hm child' hchild hne' => ?_⟩
    · exact directoryEntry_new hsearch hmalloc hx0 (by rw [strcpySafe_of_le hlen]; exact hadd)
    · rw [find_plug (hK.clear c)]
      exact find_of_lookup_none hlookup []
    have hplace : plug K l = plug (k ++ K) nil := by rw [plug_append, ← hplug]
    have hm' : Marked (plug (k ++ K) nil) := hplace ▸ hm
    have hnew : Marked (node ⟨x, c, .dir⟩ child' nil) := ⟨fun _ => hne', hchild, trivial⟩
    exact hm'.replace hnew fun hc => absurd rfl hc

theorem markChild_spec (supply : ℕ → ℕ) (h : t.Represents T) (hs : Shaped true T)
    (hat : DirectoryAt ds a next child k T) :
    ∃ t' child' r, markChild supply t a.addr = .ok (t', r) ∧
      Creates supply ds t t' T (plug (.below a next :: k) child') ∧ (child ≠ nil → t' = t ∧ child' = child ∧ r = 0) ∧
      (child = nil → r = 0 → ∃ m, child' = node m nil nil ∧ m.name = .empty ∧ m.type = .mark) ∧
      (Reliable supply t → r = 0) := by
  obtain ⟨rfl, hdir, hlevel, -⟩ := hat
  have hleft := h.left_below
  by_cases hchild : child = nil
  · subst hchild
    have hzero : ¬t.nodes.left a.addr ≠ 0 := not_not.2 hleft
    rcases malloc_cases supply t with ⟨hmalloc, hrel⟩ | ⟨x, hx0, hx, hmalloc, hrel⟩
    · refine ⟨{ t with mallocs := t.mallocs + 1 }, nil, -errOutOfMemory, ?_, ?_, fun hc => absurd rfl hc,
        fun _ hc => absurd hc (by decide), fun hr => absurd hr hrel⟩
      · rw [markChild, if_neg hzero, hmalloc]
        rfl
      exact ⟨h.congr (fun _ _ => ⟨rfl, rfl, rfl⟩) (fun _ _ => ⟨rfl, rfl, rfl⟩) h.live, hs, .refl _ _, rfl,
        fun hr => absurd hr hrel⟩
    obtain ⟨s0, hs0⟩ : ∃ s0, FileTree.newFile { t with live := x :: t.live, mallocs := t.mallocs + 1 } x
        .empty .mark = s0 := ⟨_, rfl⟩
    have ha : a.addr ≠ 0 := root_ne_zero (l := node a nil next) h (Forest.Frame.fill_ne_nil (.below a next) nil)
    have hax : a.addr ≠ x := fun hc => hx (hc ▸ h.addr_live ((mem_plug (t := node a nil next)).2 (.inr mem_cons_self)))
    have hleft0 : s0.nodes.left a.addr = 0 := by
      rw [← hs0]
      exact (Function.update_of_ne hax ..).trans hleft
    refine ⟨{ s0 with nodes := (s0.nodes.setLeft a.addr x).setParent x a.addr }, node ⟨x, .empty, .mark⟩ nil nil, 0,
      ?_, ⟨?_, ?_, ?_, root_plug _ _, ?_⟩, fun hc => absurd rfl hc, fun _ _ => ⟨_, rfl, rfl, rfl⟩, fun _ => rfl⟩
    · rw [markChild, if_neg hzero, hmalloc]
      change (if x = 0 then _ else _) = _
      rw [if_neg hx0, hs0, addChild, if_neg ha, if_pos hleft0]
      rfl
    · exact FileTree.Represents.attach h hx0 hx (t.mallocs + 1) hs0.symm
    · refine hs.replace ⟨rfl, rfl, rfl, trivial⟩ (fun c hc => absurd hc not_mem_nil) ?_
      rintro b nx k' heq -
      cases heq
      exact hdir
    · refine .of_adds ((adds_leaf Entry.name ⟨x, .empty, .mark⟩).plug (hlevel.clear _)) ?_
        (.inl (mem_append_right _ mem_cons_self))
      rw [find_plug (hlevel.clear _), find_empty]
    refine hrel _ ?_ ?_
    · rw [← hs0]
      rfl
    rw [← hs0]
    rfl
  · have hroot : t.nodes.left a.addr ≠ 0 := by
      rw [hleft]
      exact root_ne_zero h hchild
    exact ⟨t, child, 0, if_pos hroot, .refl supply ds h hs, fun _ => ⟨rfl, rfl, rfl⟩, fun hc => absurd hc hchild,
      fun _ => rfl⟩

theorem find_of_lookup (hlookup : l.lookup Entry.name c = some (a, child)) (hne : names ≠ []) :
    l.find Entry.name (c :: names) = child.find Entry.name names := by
  rw [find_cons hne, hlookup]
  rfl

theorem find_mark {m : Entry} (hm : m.name = .empty) (hnames : CString.empty ∉ names) :
    (node m nil nil).find Entry.name names = Option.none := by
  cases names with
  | nil => rfl
  | cons c cs =>
    have hc : m.name ≠ c := fun he => hnames (by rw [← hm, he]; exact mem_cons_self)
    rw [find_node_of_ne hc, find_empty]

theorem createLevels_round (supply : ℕ → ℕ) (h : t.Represents (plug K l)) (hs : Shaped true (plug K l))
    (hK : AtLevel Entry.name K) (hl : l ≠ nil) (hc : c ≠ .empty) (hlen : c.bytes.length ≤ maxPath) :
    (∃ t' T' r, (∀ cs, createLevels supply (c :: cs) (l.root Entry.addr) t = .ok (t', r)) ∧ r ≠ 0 ∧
        Creates supply (path Entry.name K ++ [c]) t t' (plug K l) T' ∧
        (Reliable supply t → t' = t ∧ T' = plug K l ∧ ∃ e, l.find Entry.name [c] = some e ∧ e.type ≠ .dir)) ∨
      ∃ t' a next child k, (∀ cs, createLevels supply (c :: cs) (l.root Entry.addr) t =
          createLevels supply cs (child.root Entry.addr) t') ∧
        DirectoryAt (path Entry.name K ++ [c]) a next child k (plug (.below a next :: k) child) ∧ child ≠ nil ∧
        Creates supply (path Entry.name K ++ [c]) t t' (plug K l) (plug (.below a next :: k) child) ∧
        (Marked (plug K l) → Marked (plug (.below a next :: k) child) ∧
          (t' = t ∧ plug (.below a next :: k) child = plug K l ∧ l.lookup Entry.name c = some (a, child) ∨
            l.lookup Entry.name c = Option.none ∧ ∃ m, child = node m nil nil ∧ m.name = .empty)) := by
  rcases directoryEntry_spec supply h hs hK hl hc hlen with
    ⟨t1, r, hentry, hr, hcreates, hrel⟩ | ⟨t1, a, next, child, k, T1, hentry, hat, hcreates, hcase, hmarked⟩
  · -- the name is taken, or there is no memory
    refine .inl ⟨t1, plug K l, r, fun cs => ?_, hr, hcreates, fun hrel' => ⟨(hrel hrel').1, rfl, (hrel hrel').2⟩⟩
    simp only [createLevels, hentry, bind, Except.bind]
  obtain ⟨t2, child2, r, hmark, hcreates2, hsame, hnew, hrel⟩ :=
    markChild_spec supply hcreates.represents hcreates.shaped hat
  have hcreates2 := hcreates.trans hcreates2
  by_cases hr : r = 0
  swap
  · -- there is no memory for the mark
    refine .inl ⟨t2, _, r, fun cs => ?_, hr, hcreates2, fun hrel' => absurd (hrel (hcreates.reliable hrel')) hr⟩
    simp only [createLevels, hentry, hmark, bind, Except.bind]
    exact if_pos hr
  subst hr
  have hleft := hcreates2.represents.left_below
  refine .inr ⟨t2, a, next, child2, k, fun cs => ?_, ⟨rfl, hat.dir, hat.level, hat.path⟩, ?_, hcreates2, fun hm => ?_⟩
  · simp only [createLevels, hentry, hmark, bind, Except.bind, hleft]
    exact if_neg (not_not.2 rfl)
  · by_cases hnil : child = nil
    · obtain ⟨m, rfl, -⟩ := hnew hnil rfl
      exact Forest.Frame.fill_ne_nil (.below m nil) nil
    rw [(hsame hnil).2.1]
    exact hnil
  rcases hcase with ⟨ht, htree, hlookup⟩ | ⟨hlookup, hnil⟩
  · have hm' : Marked (plug (.below a next :: k) child) := by rwa [← hat.tree, htree]
    obtain ⟨ht2, rfl, -⟩ := hsame ((Marked.of_plug (k := k) hm').1 hat.dir)
    exact ⟨hm', .inl ⟨ht2.trans ht, hat.tree.symm.trans htree, hlookup⟩⟩
  obtain ⟨m, rfl, hname, htype⟩ := hnew hnil rfl
  have hleaf : Marked (node m nil nil) := ⟨fun hd => absurd (htype.symm.trans hd) (by decide), trivial, trivial⟩
  exact ⟨hmarked hm _ hleaf (Forest.Frame.fill_ne_nil (.below m nil) nil), .inr ⟨hlookup, m, rfl, hname⟩⟩

structure LevelsMade (supply : ℕ → ℕ) (t t' : FileTree) (T T' l : Forest Entry) (ds names : List CString) (r : ℤ) :
    Prop where
  creates : Creates supply (ds ++ names) t t' T T'
  level : r = 0 → ∃ K' l', T' = plug K' l' ∧ AtLevel Entry.name K' ∧ path Entry.name K' = ds ++ names ∧ l' ≠ nil
  marked : Reliable supply t → Marked T → Marked T'
  blocked : Reliable supply t → Marked T → r ≠ 0 →
    ∃ ps e, ps ≠ [] ∧ ps <+: names ∧ l.find Entry.name ps = some e ∧ e.type ≠ .dir
  same : Reliable supply t → Marked T → t' = t ∧ T' = T ∨ r = 0 ∧ names ≠ [] ∧ l.find Entry.name names = Option.none

/-- **`mkdir -p` leads to a level of the tree, or leaves the tree as it was.** -/
theorem createLevels_spec (supply : ℕ → ℕ) (hnames : ∀ c ∈ names, c ≠ .empty ∧ c.bytes.length ≤ maxPath)
    (h : t.Represents (plug K l)) (hs : Shaped true (plug K l)) (hK : AtLevel Entry.name K) (hl : l ≠ nil) :
    ∃ t' T' r, createLevels supply names (l.root Entry.addr) t = .ok (t', r) ∧
      LevelsMade supply t t' (plug K l) T' l (path Entry.name K) names r := by
  induction names generalizing t K l with
  | nil =>
    exact ⟨t, plug K l, 0, rfl, .refl supply _ h hs, fun _ => ⟨K, l, rfl, hK, (append_nil _).symm, hl⟩,
      fun _ hm => hm, fun _ _ hc => absurd rfl hc, fun _ _ => .inl ⟨rfl, rfl⟩⟩
  | cons c cs ih =>
    rw [forall_mem_cons] at hnames
    obtain ⟨⟨hc, hlen⟩, hcs⟩ := hnames
    have hprefix : path Entry.name K ++ [c] <+: path Entry.name K ++ c :: cs :=
      ⟨cs, by rw [append_assoc]; rfl⟩
    rcases createLevels_round supply h hs hK hl hc hlen with
      ⟨t1, T1, r, hrun, hr, hcreates, hrel⟩ | ⟨t1, a, next, child, k, hrun, hat, hchild, hcreates, hmarked⟩
    · refine ⟨t1, T1, r, hrun cs, hcreates.mono hprefix, fun h0 => absurd h0 hr, fun hrel' hm => ?_,
        fun hrel' _ _ => ?_, fun hrel' _ => .inl ⟨(hrel hrel').1, (hrel hrel').2.1⟩⟩
      · rw [(hrel hrel').2.1]
        exact hm
      obtain ⟨-, -, e, he, htype⟩ := hrel hrel'
      exact ⟨[c], e, cons_ne_nil c [], ⟨cs, rfl⟩, he, htype⟩
    obtain ⟨t', T', r, hrest, hmade⟩ := ih hcs hcreates.represents hcreates.shaped hat.level hchild
    have hpath : path Entry.name (.below a next :: k) ++ cs = path Entry.name K ++ c :: cs := by
      rw [hat.path, append_assoc]
      rfl
    have hgrown := hmade.creates
    have hlevel := hmade.level
    rw [hpath] at hgrown hlevel
    have hempty : CString.empty ∉ cs := fun hc => (hcs _ hc).1 rfl
    refine ⟨t', T', r, (hrun cs).trans hrest, (hcreates.mono hprefix).trans hgrown, hlevel,
      fun hrel hm => hmade.marked (hcreates.reliable hrel) (hmarked hm).1, fun hrel hm hr => ?_, fun hrel hm => ?_⟩
    · obtain ⟨ps, e, hps, hpre, he, htype⟩ := hmade.blocked (hcreates.reliable hrel) (hmarked hm).1 hr
      rcases (hmarked hm).2 with ⟨-, -, hlookup⟩ | ⟨-, m, rfl, hname⟩
      · refine ⟨c :: ps, e, cons_ne_nil c ps, cons_prefix_cons.2 ⟨rfl, hpre⟩, ?_, htype⟩
        rw [find_of_lookup hlookup hps]
        exact he
      · rw [find_mark hname fun hc => hempty (hpre.subset hc)] at he
        cases he
    rcases (hmarked hm).2 with ⟨ht, htree, hlookup⟩ | ⟨hlookup, m, rfl, hname⟩
    · rcases hmade.same (hcreates.reliable hrel) (hmarked hm).1 with ⟨ht', htree'⟩ | ⟨hr, hne, hnone⟩
      · exact .inl ⟨ht'.trans ht, htree'.trans htree⟩
      · exact .inr ⟨hr, cons_ne_nil c cs, by rw [find_of_lookup hlookup hne]; exact hnone⟩
    refine .inr ⟨?_, cons_ne_nil c cs, find_of_lookup_none hlookup cs⟩
    by_contra hr
    obtain ⟨ps, e, -, hpre, he, -⟩ := hmade.blocked (hcreates.reliable hrel) (hmarked hm).1 hr
    rw [find_mark hname fun hc => hempty (hpre.subset hc)] at he
    cases he

/-! ## Files -/

structure FileMade (supply : ℕ → ℕ) (t t' : FileTree) (T T' : Forest Entry) (ps : List CString) (e : Entry) : Prop where
  represents : t'.Represents T'
  shaped : Shaped true T'
  adds : Adds Entry.name ps e T T'
  free : T.find Entry.name ps = Option.none
  regular : e.type = .regular
  priv : t'.priv e.addr = 0
  root : T'.root Entry.addr = T.root Entry.addr
  reliable : Reliable supply t → Reliable supply t'
  marked : Marked T → Marked T'

theorem fileEntry_found (hsearch : searchSibling t current c = .ok (some x)) :
    fileEntry supply t current c = .ok (t, -errExist) := by
  rw [fileEntry, hsearch]
  rfl

theorem fileEntry_full (hsearch : searchSibling t current c = .ok Option.none) (hmalloc : t.malloc supply = (t', 0)) :
    fileEntry supply t current c = .error .null := by
  simp only [fileEntry, hsearch, hmalloc, bind, Except.bind, FsFault.unless, if_neg (not_not.2 (rfl : (0 : ℕ) = 0))]

theorem fileEntry_new (hsearch : searchSibling t current c = .ok Option.none) (hmalloc : t.malloc supply = (t', x))
    (hx : x ≠ 0) (hadd : addSibling (t'.newFile x (strcpySafe c maxPath) .regular) current x = .ok (t'', 0)) :
    fileEntry supply t current c = .ok (t'', 0) := by
  simp only [fileEntry, hsearch, hmalloc, bind, Except.bind, FsFault.unless_of hx, hadd, FsFault.unless_of]

theorem fileEntry_spec (supply : ℕ → ℕ) (h : t.Represents (plug K l)) (hs : Shaped true (plug K l))
    (hK : AtLevel Entry.name K)
    (hl : l ≠ nil) (hc : c ≠ .empty) (hlen : c.bytes.length ≤ maxPath) :
    (fileEntry supply t (l.root Entry.addr) c = .ok (t, -errExist) ∧
        (plug K l).find Entry.name (path Entry.name K ++ [c]) ≠ Option.none) ∨
      (fileEntry supply t (l.root Entry.addr) c = .error .null ∧ ¬Reliable supply t) ∨
      ∃ t' T' e, fileEntry supply t (l.root Entry.addr) c = .ok (t', 0) ∧
        FileMade supply t t' (plug K l) T' (path Entry.name K ++ [c]) e := by
  have hsearch := searchSibling_spec h hK c
  have hfind := (find_plug (hK.clear c) [] l).trans (find_singleton c l)
  cases hlookup : l.lookup Entry.name c with
  | some r =>
    rw [hlookup] at hsearch hfind
    exact .inl ⟨fileEntry_found hsearch, by rw [hfind]; exact Option.some_ne_none r.1⟩
  | none =>
    rw [hlookup] at hsearch hfind
    rcases malloc_cases supply t with ⟨hmalloc, hrel⟩ | ⟨x, hx0, hx, hmalloc, hrel⟩
    · exact .inr (.inl ⟨fileEntry_full hsearch hmalloc, hrel⟩)
    obtain ⟨s, k, hadd, hplug, hne, hk, hspine, hrep, hlive, hmallocs, hpriv⟩ :=
      addSibling_spec h hl hx0 hx c .regular (t.mallocs + 1)
    obtain ⟨hshaped, -, -, hadds, hroot⟩ := hs.concat_level hK hlookup hc (.inl rfl) hplug hne hk hspine
    refine .inr (.inr ⟨s, plug (k ++ K) (node ⟨x, c, .regular⟩ nil nil), ⟨x, c, .regular⟩, ?_, hrep, hshaped, hadds,
      hfind, rfl, hpriv, hroot, hrel s hlive hmallocs, fun hm => ?_⟩)
    · exact fileEntry_new hsearch hmalloc hx0 (by rw [strcpySafe_of_le hlen]; exact hadd)
    have hplace : plug K l = plug (k ++ K) nil := by rw [plug_append, ← hplug]
    have hm' : Marked (plug (k ++ K) nil) := hplace ▸ hm
    have hleaf : Marked (node ⟨x, c, .regular⟩ nil nil) :=
      ⟨fun hd : FileType.regular = .dir => absurd hd (by decide), trivial, trivial⟩
    exact hm'.replace hleaf fun hc => absurd rfl hc

theorem createFileLevels_spec (supply : ℕ → ℕ) (h : t.Represents (plug K l)) (hK : AtLevel Entry.name K)
    (hlevel : l.find Entry.name (ds ++ [CString.empty]) ≠ Option.none) (c : CString) :
    ∃ K' l', plug K l = plug K' l' ∧ AtLevel Entry.name K' ∧ path Entry.name K' = path Entry.name K ++ ds ∧ l' ≠ nil ∧
      createFileLevels supply t (ds ++ [c]) (l.root Entry.addr) = fileEntry supply t (l'.root Entry.addr) c := by
  induction ds generalizing K l with
  | nil =>
    refine ⟨K, l, rfl, hK, (append_nil _).symm, ?_, rfl⟩
    rintro rfl
    exact hlevel rfl
  | cons d ds ih =>
    cases hlookup : l.lookup Entry.name d with
    | none => exact absurd (find_of_lookup_none hlookup _) hlevel
    | some r =>
      obtain ⟨a, child⟩ := r
      obtain ⟨k, next, -, -, -, hplug, hat, hpath⟩ := level_below hK hlookup
      have hbelow := hplug ▸ h
      have hleft := hbelow.left_below
      have hne : ds ++ [CString.empty] ≠ [] := append_ne_nil_of_right_ne_nil ds (cons_ne_nil _ _)
      rw [cons_append, find_of_lookup hlookup hne] at hlevel
      obtain ⟨K', l', hplug', hat', hpath', hl', hrun⟩ := ih hbelow hat hlevel
      refine ⟨K', l', hplug.trans hplug', hat', ?_, hl', ?_⟩
      · rw [hpath', hpath, append_assoc]
        rfl
      obtain ⟨b, bs, hbs⟩ := exists_cons_of_ne_nil (append_ne_nil_of_right_ne_nil ds (cons_ne_nil c []))
      rw [cons_append, hbs, createFileLevels, searchSibling_spec h hK d, hlookup]
      · change createFileLevels supply t (b :: bs) (t.nodes.left a.addr) = _
        rw [hleft, ← hbs]
        exact hrun
      · exact fun hc => by cases hc

end

end ZeldaOS
