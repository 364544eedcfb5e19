import ZeldaOS.Hierarchy.Create
import ZeldaOS.Machine.Runs

/-!
# The namespace of a tmpfs

The operations of `filesystem/memfs.c` that make and open files, over the tree of files.

* `createDirAt_spec`: new directories.
* `createFileAt_spec`: new files.
-/

namespace ZeldaOS

open Machine Machine.Forest Function
open List hiding nil

/-! ## The calls -/

def tmpfsFileOperation : ℕ := 1

def checkRoot (t : FileTree) (root : ℕ) : Except FsFault Unit := do
  FsFault.assertion.unless (root ≠ 0)
  FsFault.assertion.unless (t.type root = .mark)

def makeParents (supply : ℕ → ℕ) (t : FileTree) (root : ℕ) (names : List CString) :
    Except FsFault (FileTree × ℤ) :=
  if 1 < names.length then hierarchyCreateDirectory supply t root names.dropLast else .ok (t, 0)

/-- The header of the file's blocks, if there is memory for it, and the operations. -/
def finishFile (supply : ℕ → ℕ) (t : FileTree) (file : ℕ) : FileTree :=
  let (t, priv) := t.malloc supply
  { t with
    priv := update t.priv file priv
    ops := update t.ops file tmpfsFileOperation }

/-- `tmpfs_create_file` on the names of a path; `0` for `NULL`. -/
def createFileAt (supply : ℕ → ℕ) (root : ℕ) (t : FileTree) (names : List CString) :
    Except FsFault (FileTree × ℕ) := do
  let (t, r) ← makeParents supply t root names
  if r ≠ 0 then .ok (t, 0)
  else do
    let (t, r) ← hierarchyCreateFile supply t root names
    if r ≠ 0 then .ok (t, 0)
    else do
      let file ← hierarchySearchFile t root names
      FsFault.assertion.unless (file ≠ 0)
      .ok (finishFile supply t file, file)

def tmpfsCreateFile (supply : ℕ → ℕ) (root : ℕ) (t : FileTree) (path : CString) :
    Except FsFault (FileTree × ℕ) := do
  checkRoot t root
  createFileAt supply root t (← components path)

/-- The result of `hierarchy_create_directory` is not looked at. -/
def createDirAt (supply : ℕ → ℕ) (root : ℕ) (t : FileTree) (names : List CString) :
    Except FsFault (FileTree × ℕ) := do
  let (t, _) ← hierarchyCreateDirectory supply t root names
  let file ← hierarchySearchFile t root names
  .ok (t, if file ≠ 0 ∧ t.type file = .dir then file else 0)

def tmpfsCreateDir (supply : ℕ → ℕ) (root : ℕ) (t : FileTree) (path : CString) :
    Except FsFault (FileTree × ℕ) := do
  checkRoot t root
  createDirAt supply root t (← components path)

def slashPath : CString := ⟨[slash], by decide⟩

def tmpfsOpenFile (root : ℕ) (t : FileTree) (path : CString) : Except FsFault ℕ := do
  checkRoot t root
  if strcmp path slashPath = 0 then .ok root
  else hierarchySearchFile t root (← components path)

/-! ## What a call makes -/

/-- `T'` has everything that `T` has, the path `names` with the type, and directories above it. -/
structure Made (type : FileType) (names : List CString) (T T' : Forest Entry) : Prop where
  keep : ∀ ps e, T.find Entry.name ps = some e → T'.find Entry.name ps = some e
  new : ∀ ps e, CString.empty ∉ ps → T.find Entry.name ps = Option.none → T'.find Entry.name ps = some e →
    ps <+: names ∧ e.type = if ps = names then type else .dir

/-- It is for the root, a file lies on the way, or the path exists and cannot be returned. -/
def Blocked (type : FileType) (names : List CString) (T : Forest Entry) : Prop :=
  names = [] ∨ (∃ ps e, ps ≠ [] ∧ ps <+: names ∧ ps ≠ names ∧ T.find Entry.name ps = some e ∧ e.type = .regular) ∨
    ∃ e, T.find Entry.name names = some e ∧ (type = .dir → e.type = .regular)

structure Outcome (supply : ℕ → ℕ) (type : FileType) (names : List CString) (t t' : FileTree) (T T' : Forest Entry)
    (x : ℕ) : Prop where
  represents : t'.Represents T'
  shaped : Shaped true T'
  root : T'.root Entry.addr = T.root Entry.addr
  made : Made type names T T'
  found : x ≠ 0 → ∃ e, T'.find Entry.name names = some e ∧ e.addr = x ∧ e.type = type
  reliable : Reliable supply t → Reliable supply t'
  marked : Reliable supply t → Marked T → Marked T'
  failed : Reliable supply t → Marked T → x = 0 → t' = t ∧ T' = T ∧ Blocked type names T

variable {K : List (Forest.Frame Entry)} {l : Forest Entry}

section
variable {supply : ℕ → ℕ} {t t' : FileTree} {T T' T'' : Forest Entry} {names ds : List CString} {c : CString}
  {e : Entry} {type : FileType}

theorem Made.refl (type : FileType) (names : List CString) (T : Forest Entry) : Made type names T T :=
  ⟨fun _ _ h => h, fun ps e _ hnone he => by rw [hnone] at he; cases he⟩

theorem Made.of_grows (h : Grows ds T T') (hds : ds <+: names) (hne : ds ≠ names ∨ type = .dir) :
    Made type names T T' := by
  refine ⟨h.keep, fun ps e hempty hnone he => ?_⟩
  obtain ⟨hdir, hps⟩ := h.new ps e hempty hnone he
  refine ⟨hps.trans hds, ?_⟩
  split_ifs with heq
  · refine hne.elim (fun hne => absurd ?_ hne) fun htype => hdir.trans htype.symm
    exact hds.eq_of_length (le_antisymm hds.length_le (heq ▸ hps.length_le))
  · exact hdir

theorem Made.of_adds (h : Grows ds T T') (hadds : Adds Entry.name (ds ++ [c]) e T' T'')
    (hnone : T'.find Entry.name (ds ++ [c]) = Option.none) : Made e.type (ds ++ [c]) T T'' := by
  refine ⟨fun ps e' he => ?_, fun ps e' hempty hnone' he => ?_⟩
  · rw [hadds ps, if_neg, h.keep ps e' he]
    rintro rfl
    rw [h.keep _ e' he] at hnone
    cases hnone
  rw [hadds ps] at he
  split_ifs at he with hps
  · cases he
    exact ⟨hps ▸ prefix_rfl, (if_pos hps).symm⟩
  obtain ⟨hdir, hpre⟩ := h.new ps e' hempty hnone' he
  exact ⟨hpre.trans (prefix_append ds [c]), by rw [if_neg hps]; exact hdir⟩

theorem FileTree.Represents.setPriv (h : t.Represents T) (he : e ∈ T.toList) (hpriv : t.priv e.addr = 0) {p : ℕ}
    (hp0 : p ≠ 0) (hp : p ∉ t.live) (ops : ℕ → ℕ) (n : ℕ) :
    let t' : FileTree := { t with
      live := p :: t.live, mallocs := n, priv := update t.priv e.addr p, ops := ops }
    t'.Represents T := by
  intro t'
  obtain ⟨l, r, hT⟩ := append_of_mem he
  have hnd := h.addrs_nodup
  rw [hT, map_append, map_cons, nodup_append] at hnd
  obtain ⟨-, hright, hapart⟩ := hnd
  have hne : ∀ b ∈ l ++ r, b.addr ≠ e.addr := fun b hb => by
    rcases mem_append.1 hb with hb | hb
    · exact hapart _ (mem_map_of_mem hb) _ mem_cons_self
    · exact fun hc => (nodup_cons.1 hright).1 (hc ▸ mem_map_of_mem hb)
  have hsame : ∀ b ∈ l ++ r, t'.blocksOf b = t.blocksOf b := fun b hb => by
    have hb' : t'.priv b.addr = t.priv b.addr := update_of_ne (hne b hb) ..
    rw [FileTree.blocksOf, FileTree.blocksOf, hb']
  have hself : t'.blocksOf e = [e.addr, p] := by
    have he' : t'.priv e.addr = p := update_self ..
    rw [FileTree.blocksOf, he', if_neg hp0]
  have hold : t.blocksOf e = [e.addr] := by rw [FileTree.blocksOf, hpriv, if_pos rfl]
  have hperm : (t'.blocks T).Perm (p :: t.blocks T) := by
    rw [FileTree.blocks, FileTree.blocks, hT, flatMap_append, flatMap_append, flatMap_cons, flatMap_cons, hself, hold,
      flatMap_congr fun b hb => hsame b (mem_append_left r hb),
      flatMap_congr fun b hb => hsame b (mem_append_right l hb)]
    have hmiddle : ((l.flatMap t.blocksOf ++ [e.addr]) ++ p :: r.flatMap t.blocksOf).Perm
        (p :: ((l.flatMap t.blocksOf ++ [e.addr]) ++ r.flatMap t.blocksOf)) := perm_middle
    simpa using hmiddle
  have hnot : p ∉ t.blocks T := fun hc => hp (h.live p hc)
  refine ⟨h.linked, h.label, hperm.nodup_iff.2 (nodup_cons.2 ⟨hnot, h.nodup⟩), fun y hy => ?_, fun h0 => ?_⟩
  · rcases mem_cons.1 (hperm.subset hy) with rfl | hy
    · exact mem_cons_self
    · exact mem_cons_of_mem p (h.live y hy)
  rcases mem_cons.1 (hperm.subset h0) with h0 | h0
  · exact hp0 h0.symm
  · exact h.ne_zero h0

theorem find_level (hs : Shaped true (plug K l)) (hK : AtLevel Entry.name K) (hpath : path Entry.name K = names)
    (hl : l ≠ nil) (hne : names ≠ []) : ∃ e, (plug K l).find Entry.name names = some e ∧ e.type = .dir := by
  subst hpath
  cases K with
  | nil => exact absurd rfl hne
  | cons f k =>
    cases f with
    | beside a child => exact hK.elim
    | below a next => exact ⟨a, find_owner hK l, Shaped.dir_of_below hs hl⟩

theorem blocked_of_regular {ps : List CString} (hps : ps ≠ []) (hpre : ps <+: names)
    (he : T.find Entry.name ps = some e) (htype : e.type = .regular) : Blocked type names T := by
  by_cases heq : ps = names
  · exact .inr (.inr ⟨e, heq ▸ he, fun _ => htype⟩)
  · exact .inr (.inl ⟨ps, e, hps, hpre, heq, he, htype⟩)

theorem nodeOf_eq_zero (h : t.Represents T) (ps : List CString) :
    nodeOf (T.find Entry.name ps) = 0 ↔ T.find Entry.name ps = Option.none := by
  cases hfind : T.find Entry.name ps with
  | none => exact iff_of_true rfl rfl
  | some e => exact iff_of_false (h.addr_ne_zero (mem_of_find hfind)) (Option.some_ne_none e)

theorem createDirAt_spec (supply : ℕ → ℕ) (hnames : ∀ c ∈ names, c ≠ .empty ∧ c.bytes.length ≤ maxPath)
    (h : t.Represents T)
    (hs : Shaped true T) (hT : T ≠ nil) : ∃ t' T' x, createDirAt supply (T.root Entry.addr) t names = .ok (t', x) ∧
      Outcome supply .dir names t t' T T' x := by
  obtain ⟨t', T', r, hrun, hmade⟩ := createLevels_spec supply (K := []) hnames h hs trivial hT
  have hcreates : Creates supply names t t' T T' := hmade.creates
  have hempty : CString.empty ∉ names := fun hc => (hnames _ hc).1 rfl
  have hsearch := hierarchySearchFile_spec hcreates.represents names
  rw [hcreates.root] at hsearch
  obtain ⟨x, hx⟩ : ∃ x, (if nodeOf (T'.find Entry.name names) ≠ 0 ∧ t'.type (nodeOf (T'.find Entry.name names)) = .dir
      then nodeOf (T'.find Entry.name names) else 0) = x := ⟨_, rfl⟩
  have hlabel : ∀ e, T'.find Entry.name names = some e → t'.type e.addr = e.type ∧ e.addr ≠ 0 := fun e he =>
    ⟨(hcreates.represents.label e (mem_of_find he)).2, hcreates.represents.addr_ne_zero (mem_of_find he)⟩
  refine ⟨t', T', x, ?_, hcreates.represents, hcreates.shaped, hcreates.root,
    .of_grows hcreates.grows prefix_rfl (.inr rfl), fun hne => ?_, hcreates.reliable, hmade.marked,
    fun hrel hm h0 => ?_⟩
  · have hrun' : hierarchyCreateDirectory supply t (T.root Entry.addr) names = .ok (t', r) := hrun
    simp only [createDirAt, hrun', hsearch, bind, Except.bind, hx]
  · cases hfind : T'.find Entry.name names with
    | none =>
      rw [hfind] at hx
      exact absurd hx.symm hne
    | some e =>
      rw [hfind, nodeOf, Option.map_some, Option.getD_some, (hlabel e hfind).1] at hx
      split_ifs at hx with hdir
      · exact ⟨e, rfl, hx, hdir.2⟩
      · exact absurd hx.symm hne
  -- the call failed: there is no directory at the path
  have hnodir : ∀ e, T'.find Entry.name names = some e → e.type ≠ .dir := fun e he hdir => by
    rw [he, nodeOf, Option.map_some, Option.getD_some, if_pos ⟨(hlabel e he).2, (hlabel e he).1.trans hdir⟩] at hx
    exact (hlabel e he).2 (hx.trans h0)
  by_cases hne : names = []
  · subst hne
    rcases hmade.same hrel hm with ⟨ht, hT'⟩ | ⟨-, hc, -⟩
    · exact ⟨ht, hT', .inl rfl⟩
    · exact absurd rfl hc
  have hr : r ≠ 0 := fun hr => by
    obtain ⟨K, l, rfl, hK, hpath, hl⟩ := hmade.level hr
    obtain ⟨e, he, hdir⟩ := find_level hcreates.shaped hK hpath hl hne
    exact hnodir e he hdir
  obtain ⟨ps, e, hps, hpre, he, htype⟩ := hmade.blocked hrel hm hr
  rcases hmade.same hrel hm with ⟨ht, hT'⟩ | ⟨hc, -⟩
  · refine ⟨ht, hT', blocked_of_regular hps hpre he ?_⟩
    exact (hs.regular_or_dir he (name_ne_empty he fun hc => hempty (hpre.subset hc))).resolve_right htype
  · exact absurd hc hr

theorem makeParents_concat (supply : ℕ → ℕ) (t : FileTree) (root : ℕ) (ds : List CString) (c : CString) :
    makeParents supply t root (ds ++ [c]) = createLevels supply ds root t := by
  rw [makeParents, dropLast_concat, length_append, length_singleton]
  cases ds with
  | nil => rfl
  | cons d ds => exact if_pos (by rw [length_cons]; omega)

theorem find_mark_of_level (hs : Shaped true (plug K l)) (hK : AtLevel Entry.name K) (hl : l ≠ nil) :
    (plug K l).find Entry.name (path Entry.name K ++ [CString.empty]) ≠ Option.none := by
  rw [find_plug (hK.clear _)]
  have hlevel := hs.of_plug
  rw [isFirst_of_atLevel hK] at hlevel
  cases l with
  | nil => exact absurd rfl hl
  | node m child next =>
    rw [find_singleton, Forest.lookup, if_pos hlevel.2.1]
    exact Option.some_ne_none m

theorem finishFile_spec {d : FileTree} {D : Forest Entry} (hcreates : Creates supply ds t d T D)
    (hfile : FileMade supply d t' D T' (ds ++ [c]) e) (hmarked : Reliable supply t → Marked T → Marked D) :
    Outcome supply .regular (ds ++ [c]) t (finishFile supply t' e.addr) T T' e.addr := by
  have hfind := (hfile.adds _).trans (if_pos rfl)
  have hmem : e ∈ T'.toList := mem_of_find hfind
  have hmade : Made .regular (ds ++ [c]) T T' := hfile.regular ▸ .of_adds hcreates.grows hfile.adds hfile.free
  have hroot := hfile.root.trans hcreates.root
  have he : e.addr ≠ 0 := hfile.represents.addr_ne_zero hmem
  rw [finishFile]
  rcases malloc_cases supply t' with ⟨hmalloc, hrel⟩ | ⟨p, hp0, hp, hmalloc, hrel⟩
  · rw [hmalloc]
    refine ⟨?_, hfile.shaped, hroot, hmade, fun _ => ⟨e, hfind, rfl, hfile.regular⟩,
      fun hr => absurd (hfile.reliable (hcreates.reliable hr)) hrel,
      fun hr hm => hfile.marked (hmarked hr hm), fun _ _ h0 => absurd h0 he⟩
    refine hfile.represents.congr (fun _ _ => ⟨rfl, rfl, rfl⟩) (fun b _ => ⟨rfl, rfl, ?_⟩) hfile.represents.live
    have hself : update t'.priv e.addr 0 = t'.priv := by
      rw [← hfile.priv]
      exact update_eq_self _ _
    exact congrFun hself b.addr
  · rw [hmalloc]
    exact ⟨hfile.represents.setPriv hmem hfile.priv hp0 hp _ _, hfile.shaped, hroot, hmade,
      fun _ => ⟨e, hfind, rfl, hfile.regular⟩,
      fun hr => hrel _ rfl rfl (hfile.reliable (hcreates.reliable hr)),
      fun hr hm => hfile.marked (hmarked hr hm), fun _ _ h0 => absurd h0 he⟩

theorem createFileAt_spec (supply : ℕ → ℕ) (hnames : ∀ c ∈ names, c ≠ .empty ∧ c.bytes.length ≤ maxPath)
    (h : t.Represents T) (hs : Shaped true T) (hT : T ≠ nil) :
    (createFileAt supply (T.root Entry.addr) t names = .error .null ∧ ¬Reliable supply t) ∨
      ∃ t' T' x, createFileAt supply (T.root Entry.addr) t names = .ok (t', x) ∧
        Outcome supply .regular names t t' T T' x := by
  rcases eq_nil_or_concat names with rfl | ⟨ds, c, rfl⟩
  · exact .inr ⟨t, T, 0, rfl, h, hs, rfl, .refl .regular [] T, fun hc => absurd rfl hc, id,
      fun _ hm => hm, fun _ _ _ => ⟨rfl, rfl, .inl rfl⟩⟩
  rw [concat_eq_append] at hnames ⊢
  rw [forall_mem_append, forall_mem_singleton] at hnames
  obtain ⟨hds, hc, hlen⟩ := hnames
  have hempty : CString.empty ∉ ds := fun hc => (hds _ hc).1 rfl
  have hne : ds ≠ ds ++ [c] := fun heq => by simpa using congrArg length heq
  obtain ⟨d, D, r, hrun, hmade⟩ := createLevels_spec supply (K := []) hds h hs trivial hT
  have hcreates : Creates supply ds t d T D := hmade.creates
  have hparents := (makeParents_concat supply t (T.root Entry.addr) ds c).trans hrun
  by_cases hr : r = 0
  swap
  · -- a file lies on the way
    refine .inr ⟨d, D, 0, ?_, hcreates.represents, hcreates.shaped, hcreates.root,
      .of_grows hcreates.grows (prefix_append ds [c]) (.inl hne), fun hc => absurd rfl hc, hcreates.reliable,
      hmade.marked, fun hrel hm _ => ?_⟩
    · simp only [createFileAt, hparents, bind, Except.bind]
      exact if_pos hr
    obtain ⟨ps, e, hps, hpre, he, htype⟩ := hmade.blocked hrel hm hr
    rcases hmade.same hrel hm with ⟨ht, hT'⟩ | ⟨hc, -⟩
    · refine ⟨ht, hT', blocked_of_regular hps (hpre.trans (prefix_append ds [c])) he ?_⟩
      exact (hs.regular_or_dir he (name_ne_empty he fun hc => hempty (hpre.subset hc))).resolve_right htype
    · exact absurd hc hr
  subst hr
  obtain ⟨K, l, rfl, hK, hpath, hl⟩ := hmade.level rfl
  have hlevel := find_mark_of_level hcreates.shaped hK hl
  rw [hpath] at hlevel
  obtain ⟨K', l', hplug, hK', hpath', hl', hfile⟩ := createFileLevels_spec supply (K := [])
    hcreates.represents trivial hlevel c
  have hplug' : plug K l = plug K' l' := hplug
  have hfile' : hierarchyCreateFile supply d (T.root Entry.addr) (ds ++ [c]) =
      fileEntry supply d (l'.root Entry.addr) c := by
    rw [← hcreates.root]
    exact hfile
  rw [hplug'] at hcreates hmade
  rcases fileEntry_spec supply hcreates.represents hcreates.shaped hK' hl' hc hlen with
    ⟨hentry, hexists⟩ | ⟨hentry, hrel⟩ | ⟨t', T', e, hentry, hnew⟩
  · -- the file exists, and so do the directories above it
    rw [hpath'] at hexists
    refine .inr ⟨d, plug K' l', 0, ?_, hcreates.represents, hcreates.shaped, hcreates.root,
      .of_grows hcreates.grows (prefix_append ds [c]) (.inl hne), fun hc => absurd rfl hc, hcreates.reliable,
      hmade.marked, fun hrel hm _ => ?_⟩
    · simp only [createFileAt, hparents, bind, Except.bind, hfile', hentry]
      rfl
    obtain ⟨e, he⟩ := Option.ne_none_iff_exists'.1 hexists
    rcases hmade.same hrel hm with ⟨ht, hT'⟩ | ⟨-, hds', hnone⟩
    · have hsame : plug K' l' = T := hT'
      exact ⟨ht, hsame, .inr (.inr ⟨e, hsame ▸ he, fun hc => absurd hc (by decide)⟩)⟩
    have hnone' : T.find Entry.name (ds ++ [c]) = Option.none := by
      by_contra hsome
      exact find_ne_none_of_append hds' hsome hnone
    have hpre := (hcreates.grows.new _ e (fun hm => (mem_append.1 hm).elim hempty fun hm =>
      hc (mem_singleton.1 hm).symm) hnone' he).2.length_le
    rw [length_append, length_singleton] at hpre
    omega
  · refine .inl ⟨?_, fun hr => hrel (hcreates.reliable hr)⟩
    simp only [createFileAt, hparents, bind, Except.bind, hfile', hentry]
    rfl
  · rw [hpath'] at hnew
    have hfind : T'.find Entry.name (ds ++ [c]) = some e := (hnew.adds _).trans (if_pos rfl)
    have he : e.addr ≠ 0 := hnew.represents.addr_ne_zero (mem_of_find hfind)
    have hsearch := hierarchySearchFile_spec hnew.represents (ds ++ [c])
    rw [hnew.root, hcreates.root, hfind] at hsearch
    have hsearch' : hierarchySearchFile t' (T.root Entry.addr) (ds ++ [c]) = .ok e.addr := hsearch
    refine .inr ⟨finishFile supply t' e.addr, T', e.addr, ?_, finishFile_spec hcreates hnew hmade.marked⟩
    simp only [createFileAt, hparents, bind, Except.bind, hfile', hentry, hsearch', FsFault.unless_of he]
    rfl

end

end ZeldaOS
