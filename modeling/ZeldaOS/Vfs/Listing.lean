import ZeldaOS.Vfs.PathSafety

/-!
# Directory listings

What `do_vfs_getdents` returns, over any mount table of the kernel's file systems.

* `listing_right_iff`: when a listing is right.
-/

namespace ZeldaOS

namespace Paths

open Machine Machine.Forest

/-! ## Listed trees -/

/-- A regular file itself, the children of a directory, or the siblings of a mark. -/
def listed (t : FileTree) (x : ℕ) : Except FsFault (List ℕ) :=
  match t.type x with
  | .dir => children t x
  | .mark => siblings t x
  | _ => .ok [x]

structure ListedNode (t : FileTree) (x : ℕ) (xs : List ℕ) : Prop where
  nodes : listed t x = .ok xs
  nodup : xs.Nodup
  type : t.type x ≠ .none
  puttable : ∀ y ∈ xs, Puttable t y
  fits : ∀ y ∈ xs, (t.name y).bytes.length ≤ maxPath

/-- Every file that is opened can be listed. -/
def ListsFs {ρ : Type} (t : FileTree) (fs : FilesystemOperation ρ) : Prop :=
  ∀ fsOpen sub x, fs.fsOpen = some fsOpen → fsOpen t sub = .ok x → x ≠ 0 → ∃ xs, ListedNode t x xs

/-- A tree of files: regular files have operations, and names fit in `name`. -/
structure ListedTree (t : FileTree) (F : Forest Entry) : Prop where
  represents : t.Represents F
  shaped : Shaped true F
  ne_nil : F ≠ nil
  ops : ∀ e ∈ F.toList, e.type = .regular → t.ops e.addr ≠ 0
  fits : ∀ e ∈ F.toList, e.name.bytes.length ≤ maxPath

/-- What an `fs_open` can return: the root, or the node of a path. -/
def OpenedIn (F : Forest Entry) (x : ℕ) : Prop :=
  x = F.root Entry.addr ∨ ∃ names, CString.empty ∉ names ∧ x = nodeOf (F.find Entry.name names)

variable {t : FileTree} {F : Forest Entry} {x : ℕ}

section
variable {l : Forest Entry} {K : List (Forest.Frame Entry)} {e : Entry} {names : List CString}

theorem Shaped.type_ne_none (h : Shaped true F) (he : e ∈ F.toList) : e.type ≠ .none := by
  obtain ⟨k, child, next, rfl⟩ := exists_plug he
  have hnode := h.of_plug
  intro hnone
  cases hfirst : isFirst k with
  | true =>
    rw [hfirst] at hnode
    cases hnone.symm.trans hnode.1
  | false =>
    rw [hfirst] at hnode
    rcases hnode.1 with htype | htype <;> cases hnone.symm.trans htype

variable (h : ListedTree t F)
include h

theorem ListedTree.puttable (he : e ∈ F.toList) : Puttable t e.addr := by
  have htype := (h.represents.label e he).2
  exact ⟨fun hnone => Shaped.type_ne_none h.shaped he (htype.symm.trans hnone),
    fun hreg => h.ops e he (htype.symm.trans hreg)⟩

theorem ListedTree.level (hF : F = plug K l) (hK : AtLevel Entry.name K) :
    siblings t (l.root Entry.addr) = .ok (l.spine.map Entry.addr) ∧ (l.spine.map Entry.addr).Nodup ∧
      ∀ y ∈ l.spine.map Entry.addr, Puttable t y ∧ (t.name y).bytes.length ≤ maxPath := by
  subst hF
  have hmem : ∀ e ∈ l.spine, e ∈ (plug K l).toList := fun e he => mem_plug.2 (.inr ((spine_sublist l).subset he))
  refine ⟨siblings_spec h.represents hK, ?_, fun y hy => ?_⟩
  · have hnd := h.represents.addrs_nodup
    rw [nodup_plug, List.map_append, List.nodup_append] at hnd
    exact hnd.2.1.sublist ((spine_sublist l).map _)
  obtain ⟨e, he, rfl⟩ := List.mem_map.1 hy
  refine ⟨h.puttable (hmem e he), ?_⟩
  rw [(h.represents.label e (hmem e he)).1]
  exact h.fits e (hmem e he)

theorem ListedTree.root_listed : ∃ xs, ListedNode t (F.root Entry.addr) xs := by
  obtain ⟨hnodes, hnodup, hput⟩ := h.level (K := []) rfl trivial
  have hmark : t.type (F.root Entry.addr) = .mark := by
    have hroot := checkRoot_of h.represents h.shaped h.ne_nil
    obtain ⟨-, -, hmark⟩ := bind_eq_ok hroot
    exact FsFault.of_unless hmark
  refine ⟨_, ?_, hnodup, fun hnone => ?_, fun y hy => (hput y hy).1, fun y hy => (hput y hy).2⟩
  · rw [listed, hmark]
    exact hnodes
  · cases hmark.symm.trans hnone

theorem ListedTree.file_listed (hempty : CString.empty ∉ names)
    (hx : nodeOf (F.find Entry.name names) ≠ 0) : ∃ xs, ListedNode t (nodeOf (F.find Entry.name names)) xs := by
  cases hfind : F.find Entry.name names with
  | none =>
    rw [hfind] at hx
    exact absurd rfl hx
  | some e =>
    have he := mem_of_find hfind
    have htype := (h.represents.label e he).2
    have hnone := (h.puttable he).type
    change ∃ xs, ListedNode t e.addr xs
    rcases h.shaped.regular_or_dir hfind (name_ne_empty hfind hempty) with hreg | hdir
    · refine ⟨[e.addr], ?_, List.nodup_singleton _, hnone, List.forall_mem_singleton.2 (h.puttable he),
        List.forall_mem_singleton.2 ?_⟩
      · rw [listed, htype, hreg]
      rw [(h.represents.label e he).1]
      exact h.fits e he
    obtain ⟨k, child, next, hplug, hclear, -⟩ := find_split (k := []) hfind trivial
    have hbelow : F = plug (.below e next :: k) child := hplug
    obtain ⟨hnodes, hnodup, hput⟩ := h.level hbelow hclear
    have hleft := (hbelow ▸ h.represents).left_below
    refine ⟨_, ?_, hnodup, hnone, fun y hy => (hput y hy).1, fun y hy => (hput y hy).2⟩
    rw [listed, htype, hdir]
    change siblings t (t.nodes.left e.addr) = _
    rw [hleft, hnodes]

theorem ListedTree.opened_listed (hopened : OpenedIn F x) (hx : x ≠ 0) : ∃ xs, ListedNode t x xs := by
  rcases hopened with rfl | ⟨names, hempty, rfl⟩
  · exact h.root_listed
  · exact h.file_listed hempty hx

theorem ListedTree.opened_live (hopened : OpenedIn F x) (hx : x ≠ 0) : x ∈ t.live := by
  rcases hopened with rfl | ⟨names, -, rfl⟩
  · cases F with
    | nil => exact absurd rfl h.ne_nil
    | node e child next => exact h.represents.addr_live List.mem_cons_self
  cases hfind : F.find Entry.name names with
  | none =>
    rw [hfind] at hx
    exact absurd rfl hx
  | some e => exact h.represents.addr_live (mem_of_find hfind)

/-! ## The file systems -/

theorem tmpfsOpenFile_opened {sub : CString} (hopen : tmpfsOpenFile (F.root Entry.addr) t sub = .ok x) :
    OpenedIn F x := by
  rw [tmpfsOpenFile, checkRoot_of h.represents h.shaped h.ne_nil] at hopen
  change (if strcmp sub slashPath = 0 then _ else _) = _ at hopen
  split_ifs at hopen with hroot
  · cases hopen
    exact .inl rfl
  obtain ⟨names, hnames, hsearch⟩ := bind_eq_ok hopen
  rw [hierarchySearchFile_spec h.represents] at hsearch
  cases hsearch
  refine .inr ⟨names, fun hc => ?_, rfl⟩
  rcases components_cases sub with herr | ⟨names', hnames', hne⟩
  · cases herr.symm.trans hnames
  cases hnames'.symm.trans hnames
  exact (hne _ hc).1 rfl

theorem zeldaFsOpen_opened {sub : CString} (hopen : zeldaFsOpen (F.root Entry.addr) t sub = .ok x) : OpenedIn F x := by
  rw [zeldaFsOpen] at hopen
  split_ifs at hopen with hroot
  · cases hopen
    exact .inl rfl
  obtain ⟨-, -, hopen⟩ := bind_eq_ok hopen
  obtain ⟨names, hnames, hsearch⟩ := bind_eq_ok hopen
  rw [hierarchySearchFile_spec h.represents] at hsearch
  cases hsearch
  refine .inr ⟨names, fun hc => ?_, rfl⟩
  obtain ⟨names', hnames', hne⟩ := splitBytes_names (le_refl _) (strcpySafe sub maxPath).nul_free
  cases hnames'.symm.trans hnames
  exact (hne _ hc).1 rfl

end

variable {ρ : Type}

theorem zeldafs_lists (h : ListedTree t F) : ListsFs t (zeldafs (F.root Entry.addr) : FilesystemOperation ρ) :=
  fun fsOpen sub x hfs hopen hx => by
    cases hfs
    exact h.opened_listed (zeldaFsOpen_opened h hopen) hx

variable {xs : List ℕ}

section
variable {T : ℕ → FileOps ρ} {M : MountTable (FilesystemOperation ρ)} {n : ℕ} {c : ρ}

/-! ## Entries -/

def Dirent.label (d : Dirent) : FileType × CString := (d.type, d.name)

def nodeLabel (t : FileTree) (x : ℕ) : FileType × CString := (t.type x, t.name x)

theorem putDirEntry_label (h : Puttable t x) (hfits : (t.name x).bytes.length ≤ maxPath) (c : ρ) :
    ∃ c' d, putDirEntry T t x c = .ok (c', d) ∧ Dirent.label d = nodeLabel t x := by
  obtain ⟨⟨c', d⟩, hput⟩ := putDirEntry_succeeds.2 h
  refine ⟨c', d, hput, ?_⟩
  have hname : strcpySafe (t.name x) 256 = t.name x := strcpySafe_of_le hfits
  rw [putDirEntry, hname] at hput
  rw [nodeLabel]
  split at hput
  · next htype =>
    cases hput
    rw [htype]
    rfl
  · next htype =>
    cases hput
    rw [htype]
    rfl
  · next htype =>
    split at hput
    · cases hput
    cases hput
    rw [htype]
    rfl
  · cases hput

theorem putEntries_spec {fuel : ℕ} (hchain : siblingsFrom t.nodes fuel x = .ok xs) (hput : ∀ y ∈ xs, Puttable t y)
    (hfits : ∀ y ∈ xs, (t.name y).bytes.length ≤ maxPath) (n : ℕ) (c : ρ) :
    ∃ c' ds, putEntries T t n x c = .ok (c', ds) ∧ ds.map Dirent.label = (xs.take n).map (nodeLabel t) := by
  induction n generalizing x xs fuel c with
  | zero => exact ⟨c, [], rfl, by rw [List.take_zero]; rfl⟩
  | succ n ih =>
    cases fuel with
    | zero => cases hchain
    | succ fuel =>
      rw [siblingsFrom] at hchain
      split_ifs at hchain with hx
      · cases hchain
        exact ⟨c, [], if_pos hx, rfl⟩
      cases hys : siblingsFrom t.nodes fuel (t.nodes.right x) with
      | error e =>
        rw [hys] at hchain
        cases hchain
      | ok ys =>
      rw [hys] at hchain
      cases hchain
      obtain ⟨hputx, hputs⟩ := List.forall_mem_cons.1 hput
      obtain ⟨hfitx, hfits⟩ := List.forall_mem_cons.1 hfits
      obtain ⟨c', d, hd, hlabel⟩ := putDirEntry_label hputx hfitx c
      obtain ⟨c'', ds, hds, hlabels⟩ := ih hys hputs hfits c'
      refine ⟨c'', d :: ds, ?_, ?_⟩
      · rw [putEntries, if_neg hx]
        exact bind_of_ok hd (bind_of_ok hds rfl)
      · rw [List.map_cons, hlabel, hlabels, List.take_succ_cons, List.map_cons]

theorem putSiblings_spec (hchain : siblings t x = .ok xs) (hput : ∀ y ∈ xs, Puttable t y)
    (hfits : ∀ y ∈ xs, (t.name y).bytes.length ≤ maxPath) (n : ℕ) (c : ρ) :
    ∃ c' ds, putSiblings T t n x c = .ok (c', ds) ∧ ds.map Dirent.label = (xs.take n).map (nodeLabel t) := by
  obtain ⟨first, hfirst, hfrom⟩ := bind_eq_ok hchain
  obtain ⟨c', ds, hds, hlabels⟩ := putEntries_spec hfrom hput hfits n c
  exact ⟨c', ds, bind_of_ok hfirst hds, hlabels⟩

theorem fileEntries_spec (h : ListedNode t x xs) (n : ℕ) (c : ρ) :
    ∃ c' ds, fileEntries T t n x c = .ok (c', ds) ∧ ds.map Dirent.label = (xs.take n).map (nodeLabel t) := by
  have hnodes := h.nodes
  rw [listed] at hnodes
  rw [fileEntries]
  cases htype : t.type x with
  | none => exact absurd htype h.type
  | dir =>
    rw [htype] at hnodes
    exact putSiblings_spec hnodes h.puttable h.fits n c
  | mark =>
    rw [htype] at hnodes
    exact putSiblings_spec hnodes h.puttable h.fits n c
  | regular =>
    rw [htype] at hnodes
    cases hnodes
    cases n with
    | zero => exact ⟨c, [], rfl, rfl⟩
    | succ n =>
      obtain ⟨c', d, hd, hlabel⟩ := putDirEntry_label (h.puttable x (List.mem_singleton_self x))
        (h.fits x (List.mem_singleton_self x)) c
      rw [if_pos (Nat.succ_pos n), hd]
      refine ⟨c', [d], rfl, ?_⟩
      rw [List.map_singleton, hlabel, List.take_succ_cons, List.take_nil, List.map_singleton]

theorem mountEntries_eq_nil {e : MountEntry (FilesystemOperation ρ)} {es : List (MountEntry (FilesystemOperation ρ))} :
    mountEntries e es n = .ok [] ↔ ∀ e' ∈ es.head?, NameFits e'.mountPoint ∧ n = 0 := by
  cases es with
  | nil => exact iff_of_true rfl fun e' he' => by cases he'
  | cons e' es =>
    have hhead : (∀ e'' ∈ (e' :: es).head?, NameFits e''.mountPoint ∧ n = 0) ↔ NameFits e'.mountPoint ∧ n = 0 := by
      exact ⟨fun h => h e' rfl, fun h e'' he'' => Option.some.inj he'' ▸ h⟩
    rw [hhead, mountEntries]
    constructor
    · intro h
      obtain ⟨sub, hsub, hrest⟩ := bind_eq_ok h
      refine ⟨resolveSubpath_succeeds.1 ⟨sub, hsub⟩, ?_⟩
      cases n with
      | zero => rfl
      | succ n =>
        obtain ⟨ds, -, hds⟩ := bind_eq_ok hrest
        cases hds
    · rintro ⟨hfits, rfl⟩
      obtain ⟨sub, hsub⟩ := resolveSubpath_succeeds.2 hfits
      exact bind_of_ok hsub rfl

end

variable {found : Found ρ}

section
variable (T : ℕ → FileOps ρ) (M : MountTable (FilesystemOperation ρ)) (s : VfsState FileTree ρ)

/-- Nothing for a path that leads nowhere, and for a file the nodes of its listing, as many as there is room for, with
their types and names. -/
def ListingRight (path : CString) (count : ℤ) : Prop :=
  ∃ s' r ds, doVfsGetdents T M s path count = .ok (s', r, ds) ∧
    ((∀ found, lookupFile M s.names path = .ok (some found) → found.file = 0) → r ≤ 0) ∧
    ∀ found xs, lookupFile M s.names path = .ok (some found) → found.file ≠ 0 → listed s.names found.file = .ok xs →
      r = ds.length ∧ ds.map Dirent.label = (xs.take count.toNat).map (nodeLabel s.names)

variable {T M s} {path : CString} {count : ℤ}

theorem foundEntries_right (h : ListedNode s.names found.file xs) (hfile : found.file ≠ 0) (n : ℕ) :
    (∃ s' r ds, foundEntries T M s found n = .ok (s', r, ds) ∧ r = ds.length ∧
        ds.map Dirent.label = (xs.take n).map (nodeLabel s.names)) ↔ (s.names.type found.file = .mark →
        ∀ e ∈ (otherMounts M found.index found.entry).head?, NameFits e.mountPoint ∧ n ≤ xs.length) := by
  obtain ⟨c', ds, hds, hlabels⟩ := fileEntries_spec h n s.contents
  have hsize : ds.length = min n xs.length := by
    have hlen := congrArg List.length hlabels
    rw [List.length_map, List.length_map, List.length_take] at hlen
    exact hlen
  have hroom : n - ds.length = 0 ↔ n ≤ xs.length := by omega
  have hmore : moreEntries M s.names found (n - ds.length) = .ok [] ↔ (s.names.type found.file = .mark →
      ∀ e ∈ (otherMounts M found.index found.entry).head?, NameFits e.mountPoint ∧ n ≤ xs.length) := by
    rw [moreEntries]
    split_ifs with hmark
    · rw [mountEntries_eq_nil, hroom, imp_iff_right hmark]
    · exact iff_of_true rfl fun hc => absurd hc hmark
  rw [← hmore]
  constructor
  · rintro ⟨s', r, es, hrun, -, hes⟩
    obtain ⟨-, -, hrun⟩ := bind_eq_ok hrun
    obtain ⟨p, hp, hrun⟩ := bind_eq_ok hrun
    cases hds.symm.trans hp
    obtain ⟨more, hmore, hrun⟩ := bind_eq_ok hrun
    cases hrun
    rw [← hlabels, List.map_append] at hes
    have hnil : more = [] := List.map_eq_nil_iff.1 (List.append_right_eq_self.1 hes)
    rw [hmore, hnil]
  · intro hmore
    refine ⟨{ s with contents := c' }, ds.length, ds, ?_, rfl, hlabels⟩
    rw [foundEntries, FsFault.unless_of hfile]
    refine bind_of_ok rfl (bind_of_ok hds (bind_of_ok hmore ?_))
    rw [List.append_nil]

theorem lookupFile_eq_some (h : lookupFile M s.names path = .ok (some found)) :
    ∃ fsOpen sub, M.entry found.index = some found.entry ∧ found.entry.fs.fsOpen = some fsOpen ∧
      fsOpen s.names sub = .ok found.file := by
  rw [lookupFile_eq] at h
  obtain ⟨c, hc, h⟩ := bind_eq_ok h
  rw [lookupName] at h
  rcases mountOfName_cases hc with ⟨hnone, -⟩ | ⟨i, e, hsome, he, -⟩
  · rw [hnone] at h
    cases h
  rw [hsome] at h
  change openIn s.names i e _ = _ at h
  rw [openIn] at h
  cases hfs : e.fs.fsOpen with
  | none =>
    rw [hfs] at h
    cases h
  | some fsOpen =>
    rw [hfs] at h
    change (fsOpen s.names _).map _ = _ at h
    cases hopen : fsOpen s.names (subpathOf c e.mountPoint) with
    | error err =>
      rw [hopen] at h
      cases h
    | ok file =>
      rw [hopen] at h
      cases h
      exact ⟨fsOpen, _, he, hfs, hopen⟩

/-- **A listing is right exactly if the lookup returns, finds a file when there is a mount entry, and no mount point is
put behind the entries of a mark.** -/
theorem listing_right_iff (hM : ∀ i e, M.entry i = some e → ListsFs s.names e.fs) :
    ListingRight T M s path count ↔ LookupSafe M s.names path ∧
      ∀ found, lookupFile M s.names path = .ok (some found) → found.file ≠ 0 ∧
        (s.names.type found.file = .mark → ∀ xs, siblings s.names found.file = .ok xs →
          ∀ e ∈ (otherMounts M found.index found.entry).head?, NameFits e.mountPoint ∧ count.toNat ≤ xs.length) := by
  by_cases hlook : LookupSafe M s.names path
  swap
  · refine iff_of_false ?_ fun h => hlook h.1
    rintro ⟨s', r, ds, hrun, -⟩
    exact hlook (lookupFile_succeeds.1 (succeeds_bind.1 ⟨_, hrun⟩).1)
  rw [and_iff_right hlook]
  obtain ⟨o, ho⟩ := lookupFile_succeeds.2 hlook
  cases o with
  | none =>
    have hnone : ∀ found, lookupFile M s.names path ≠ .ok (some found) := fun found hfound => by
      cases ho.symm.trans hfound
    refine iff_of_true ⟨s, -errInvalidArg, [], ?_, fun _ => by decide, fun found _ hfound => ?_⟩ fun found hfound => ?_
    · rw [doVfsGetdents, ho]
      rfl
    · exact absurd hfound (hnone found)
    · exact absurd hfound (hnone found)
  | some found =>
    have hrun : doVfsGetdents T M s path count = foundEntries T M s found count.toNat := by
      rw [doVfsGetdents, ho]
      rfl
    have hone : ∀ found', lookupFile M s.names path = .ok (some found') → found' = found := fun found' hfound =>
      (Option.some.inj (Except.ok.inj (ho.symm.trans hfound))).symm
    by_cases hfile : found.file = 0
    · refine iff_of_false ?_ fun h => (h found ho).1 hfile
      rintro ⟨s', r, ds, hok, -⟩
      rw [hrun, foundEntries] at hok
      obtain ⟨u, hnull, -⟩ := bind_eq_ok hok
      exact FsFault.of_unless hnull hfile
    obtain ⟨fsOpen, sub, he, hfs, hopen⟩ := lookupFile_eq_some ho
    obtain ⟨xs, hxs⟩ := hM found.index found.entry he fsOpen sub found.file hfs hopen hfile
    have hright := foundEntries_right (T := T) (M := M) hxs hfile count.toNat
    constructor
    · rintro ⟨s', r, ds, hok, -, hall⟩ found' hfound
      cases hone found' hfound
      refine ⟨hfile, fun hmark ys hys e hmem => ?_⟩
      have hsame : ys = xs := by
        have hnodes := hxs.nodes
        rw [listed, hmark] at hnodes
        exact Except.ok.inj (hys.symm.trans hnodes)
      rw [hsame]
      rw [hrun] at hok
      exact hright.1 ⟨s', r, ds, hok, hall found xs ho hfile hxs.nodes⟩ hmark e hmem
    intro hall
    have hmark : s.names.type found.file = .mark → siblings s.names found.file = .ok xs := fun hmark => by
      have hnodes := hxs.nodes
      rw [listed, hmark] at hnodes
      exact hnodes
    obtain ⟨s', r, ds, hok, hr, hds⟩ := hright.2 fun hm => (hall found ho).2 hm xs (hmark hm)
    refine ⟨s', r, ds, hrun.trans hok, fun hnone => absurd (hnone found ho) hfile, fun found' ys hfound _ hys => ?_⟩
    cases hone found' hfound
    cases hxs.nodes.symm.trans hys
    exact ⟨hr, hds⟩

end

def smallForest : Forest Entry := node ⟨1, .empty, .mark⟩ nil (node ⟨2, fileName, .regular⟩ nil nil)

theorem smallTree_listed : ListedTree smallTree smallForest where
  represents := by
    refine ⟨⟨rfl, rfl, rfl, trivial, rfl, rfl, rfl, trivial, trivial⟩, ?_, by decide, by decide, by decide⟩
    decide
  shaped := ⟨rfl, rfl, rfl, .inl rfl, by decide, rfl, fun _ => rfl, trivial, trivial⟩
  ne_nil := nofun
  ops := by decide
  fits := by decide

theorem smallTable_lists : ∀ i e, smallTable.entry i = some e → ListsFs smallTree e.fs := fun i e he => by
  rw [smallTable, MountTable.entry_set (by rw [MountTable.length_eq]; decide), MountTable.entry_empty] at he
  split_ifs at he
  cases he
  exact zeldafs_lists smallTree_listed

set_option maxRecDepth 20000 in
theorem listing_right_iff_file : ListingRight (fun _ => statOps) smallTable smallState (.ofBytes [slash, 97]) 1 := by
  have hlook : lookupFile smallTable smallTree (.ofBytes [slash, 97]) =
      .ok (some ⟨0, ⟨rootPoint, zeldafs 1, rootPoint_fits⟩, 2⟩) := rfl
  refine (listing_right_iff smallTable_lists).2 ⟨lookupFile_succeeds.1 ⟨_, hlook⟩, fun found hfound => ?_⟩
  cases hlook.symm.trans hfound
  exact ⟨by decide, fun hmark => by cases hmark⟩

set_option maxRecDepth 20000 in
/-- A listing of `/b`, which is not there, reads the type of `NULL`. -/
theorem missing_file_null :
    doVfsGetdents (fun _ => statOps) smallTable smallState (.ofBytes [slash, 98]) 1 = .error .null ∧
      ¬ListingRight (fun _ => statOps) smallTable smallState (.ofBytes [slash, 98]) 1 := by
  have hnull : doVfsGetdents (fun _ => statOps) smallTable smallState (.ofBytes [slash, 98]) 1 = .error .null := rfl
  refine ⟨hnull, ?_⟩
  rintro ⟨s', r, ds, hrun, -⟩
  cases hnull.symm.trans hrun

end Paths

end ZeldaOS
