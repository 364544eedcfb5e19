import ZeldaOS.Machine.BestFit
import ZeldaOS.Machine.Runs
import ZeldaOS.Posix
import ZeldaOS.Vfs.Canonical

/-!
# The mount table

`register_file_system`, `search_mount_entry` and `resolve_subpath` of `filesystem/vfs.c`, over any file systems.

* `lookupRight_iff`: when the right entry is found.
* `mount_lookup_iff`: when lookup separates the file systems.
-/

namespace ZeldaOS

open Machine List

theorem CString.eq_of_bytes {a b : CString} (h : a.bytes = b.bytes) : a = b := by
  rw [← ofBytes_bytes a, h, ofBytes_bytes]

/-! ## The table -/

def startWithBytes : (target sub : List UInt8) → UInt8
  | _, [] => 0
  | target, b :: sub => if target.headD 0 = b then startWithBytes target.tail sub else b

def startWith (target sub : CString) : UInt8 := startWithBytes target.bytes sub.bytes

/-- `ASSERT(!canonicalize_path_name(c_name, path))`, with a zeroed buffer `c_name`. -/
def canonicalName (path : CString) : Except FsFault CString :=
  match canonicalizePathName path with
  | none => .error .assertion
  | some stored => do
    FsFault.overflow.unless (stored.length ≤ maxPath)
    .ok (CString.ofBytes stored)

/-- A valid `struct mount_entry`, whose mount point ends inside its buffer. -/
structure MountEntry (φ : Type) where
  mountPoint : CString
  fs : φ
  fits : mountPoint.bytes.length < maxPath

def mountEntrySize : ℕ := 256

/-- `mount_entries`, with `none` for an entry that is not valid. -/
structure MountTable (φ : Type) where
  slots : List (Option (MountEntry φ))
  length_eq : slots.length = mountEntrySize

namespace MountTable

variable {φ : Type}

def empty : MountTable φ := ⟨List.replicate mountEntrySize none, length_replicate ..⟩

def entry (t : MountTable φ) (i : ℕ) : Option (MountEntry φ) := t.slots[i]?.join

def set (t : MountTable φ) (i : ℕ) (e : MountEntry φ) : MountTable φ :=
  ⟨t.slots.set i (some e), (length_set ..).trans t.length_eq⟩

end MountTable

variable {path cName c : CString} {m names : List CString} {i : ℕ} {e : MountEntry φ} {stored : List UInt8}

/-- `best_fit_degree` of an entry that the name begins with. -/
def mountDegree (cName : CString) (e : MountEntry φ) : Option ℕ :=
  if startWith cName e.mountPoint = 0 then some e.mountPoint.bytes.length else none

def searchMountEntry (t : MountTable φ) (path : CString) : Except FsFault (Option ℕ) := do
  let cName ← canonicalName path
  .ok ((bestFit (t.slots.map fun slot => slot.bind (mountDegree cName)) 0 none).map Prod.fst)

/-- The loop of `resolve_subpath` that passes what the two names have in common. -/
def dropCommon : List UInt8 → List UInt8 → List UInt8
  | a :: as, b :: bs => if a = b then dropCommon as bs else a :: as
  | as, _ => as

/-- `resolve_subpath`. The result of `canonicalize_path_name` is not looked at. -/
def resolveSubpath (fullPath mountPoint : CString) : Except FsFault CString := do
  let stored := (canonicalizePathName fullPath).getD []
  FsFault.overflow.unless (stored.length ≤ maxPath)
  let rest := dropCommon (CString.ofBytes stored).bytes mountPoint.bytes
  .ok (CString.ofBytes (if rest = [] then [slash] else rest))

def conflicts (cName : CString) (e : MountEntry φ) : Bool :=
  startWith e.mountPoint cName = 0 ∧
    (e.mountPoint.get cName.bytes.length = 0 ∨ e.mountPoint.get cName.bytes.length = slash)

theorem canonicalName_eq (h : canonicalName path = .ok cName) :
    ∃ stored, canonicalizePathName path = some stored ∧ stored.length ≤ maxPath ∧ cName = CString.ofBytes stored := by
  rw [canonicalName] at h
  cases hcanon : canonicalizePathName path with
  | none =>
    rw [hcanon] at h
    cases h
  | some stored =>
    rw [hcanon] at h
    obtain ⟨u, hfits, hok⟩ := bind_eq_ok h
    exact ⟨stored, rfl, FsFault.of_unless hfits, (Except.ok.inj hok).symm⟩

theorem canonicalName_fits (h : canonicalName path = .ok cName) : cName.bytes.length < maxPath := by
  obtain ⟨stored, hcanon, hfits, rfl⟩ := canonicalName_eq h
  obtain ⟨s, -, rfl⟩ := Option.map_eq_some_iff.1 hcanon
  refine lt_of_lt_of_le (lt_of_le_of_ne (takeWhile_sublist _).length_le fun heq => ?_) hfits
  have hself := (takeWhile_sublist _).eq_of_length heq
  have hzero : (0 : UInt8) ∈ (s.indexStack.flatMap (copyWord path) ++ [0]).takeWhile (· ≠ 0) := by
    rw [hself]
    exact mem_append_right _ mem_cons_self
  exact (CString.ofBytes _).nul_free hzero

def registerFileSystem (t : MountTable φ) (mountPoint : CString) (fs : φ) : Except FsFault (MountTable φ × ℤ) :=
  match h : canonicalName mountPoint with
  | .error e => .error e
  | .ok cName =>
    if t.slots.any (fun slot => slot.any (conflicts cName)) then .ok (t, -errInvalidArg)
    else
      match t.slots.findIdx? Option.isNone with
      | none => .ok (t, -errOutOfResource)
      | some i => .ok (t.set i ⟨cName, fs, canonicalName_fits h⟩, 0)

/-! ## What is expected -/

/-- The tables that successful calls of `register_file_system` build. -/
inductive Mounted : MountTable φ → Prop
  | boot : Mounted .empty
  | register {t t' : MountTable φ} {mountPoint : CString} {fs : φ} (ht : Mounted t)
      (h : registerFileSystem t mountPoint fs = .ok (t', 0)) : Mounted t'

structure LongestMount (t : MountTable φ) (names : List CString) (e : MountEntry φ) (m : List CString) : Prop where
  split : splitPath e.mountPoint = .ok m
  begins : m <+: names
  longest : ∀ j e' m', t.entry j = some e' → splitPath e'.mountPoint = .ok m' → m' <+: names → m'.length ≤ m.length

/-- The entry found has the most components among those that begin the path's, and the rest is what is left. -/
def LookupRight (t : MountTable φ) (path : CString) : Prop :=
  ∃ names, components path = .ok names ∧ (searchMountEntry t path = .ok none ∧
        (∀ i e m, t.entry i = some e → splitPath e.mountPoint = .ok m → ¬m <+: names) ∨
      ∃ i e m sub, searchMountEntry t path = .ok (some i) ∧ t.entry i = some e ∧ LongestMount t names e m ∧
        resolveSubpath path e.mountPoint = .ok sub ∧ splitPath sub = .ok (names.drop m.length))

/-- The file system and the components of the sub-path that a path resolves to. -/
def ResolvesTo (t : MountTable φ) (path : CString) (fs : φ) (names : List CString) : Prop :=
  ∃ i e sub, searchMountEntry t path = .ok (some i) ∧ t.entry i = some e ∧ e.fs = fs ∧
    resolveSubpath path e.mountPoint = .ok sub ∧ splitPath sub = .ok names

def SeparatelyResolved (t : MountTable φ) (p q : CString) : Prop :=
  components p ≠ components q → ∀ fs names, ¬(ResolvesTo t p fs names ∧ ResolvesTo t q fs names)

/-- A mount point that `c` begins with but that ends inside a component is not the longest. -/
def Uncaptured (t : MountTable φ) (path : CString) : Prop :=
  ∀ c names, canonicalName path = .ok c → components path = .ok names →
    (c = .empty → ∀ i e, t.entry i = some e → e.mountPoint.bytes = [slash] →
      ∃ j e', t.entry j = some e' ∧ e'.mountPoint = .empty) ∧
    ∀ i e m, t.entry i = some e → e.mountPoint.bytes <+: c.bytes → splitPath e.mountPoint = .ok m → ¬m <+: names →
      ∃ j e' m', t.entry j = some e' ∧ splitPath e'.mountPoint = .ok m' ∧ m' <+: names ∧
        e.mountPoint.bytes.length < e'.mountPoint.bytes.length

/-- The longest mount point that the canonical name of the path begins with. -/
structure Serves (t : MountTable φ) (path : CString) (e : MountEntry φ) : Prop where
  entry : ∃ i, t.entry i = some e
  begins : ∀ c, canonicalName path = .ok c → e.mountPoint.bytes <+: c.bytes ∧
    ∀ j e', t.entry j = some e' → e'.mountPoint.bytes <+: c.bytes →
      e'.mountPoint.bytes.length ≤ e.mountPoint.bytes.length

/-- Where the same components are left for the same file system, it is mounted at the same place. -/
def ApartUnder (t : MountTable φ) (p q : CString) : Prop :=
  ∀ e e' m m' names names', Serves t p e → Serves t q e' → splitPath e.mountPoint = .ok m →
    splitPath e'.mountPoint = .ok m' → components p = .ok names → components q = .ok names' → e.fs = e'.fs →
    names.drop m.length = names'.drop m'.length → m = m'

/-- A path that starts with a slash and holds no blank, of 254 bytes at most. -/
structure AbsolutePath (path : CString) : Prop where
  absolute : path.bytes.head? = some slash
  blank_free : blank ∉ path.bytes
  fits : path.bytes.length ≤ 254

/-! ## Prefixes -/

theorem startWithBytes_eq_zero {target sub : List UInt8} (hsub : 0 ∉ sub) :
    startWithBytes target sub = 0 ↔ sub <+: target := by
  induction sub generalizing target with
  | nil => exact iff_of_true rfl nil_prefix
  | cons b sub ih =>
    obtain ⟨hb, hrest⟩ := not_or.1 fun h => hsub (mem_cons.2 h)
    rw [startWithBytes]
    cases target with
    | nil =>
      rw [headD_nil, if_neg hb]
      exact iff_of_false (Ne.symm hb) fun h => by simpa using h.length_le
    | cons a target =>
      rw [headD_cons, tail_cons, cons_prefix_cons]
      split_ifs with hab
      · rw [ih hrest, and_iff_right hab.symm]
      · exact iff_of_false (Ne.symm hb) fun h => hab h.1.symm

theorem startWith_eq_zero {target sub : CString} : startWith target sub = 0 ↔ sub.bytes <+: target.bytes :=
  startWithBytes_eq_zero sub.nul_free

theorem dropCommon_append (as bs : List UInt8) : dropCommon (as ++ bs) as = bs := by
  induction as with
  | nil => cases bs <;> rfl
  | cons a as ih => rw [cons_append, dropCommon, if_pos rfl, ih]

section
variable {c' : CString}

theorem pathBytes_of_ne_nil (h : names ≠ []) : pathBytes names = joinWords (names.map CString.bytes) := by
  cases names with
  | nil => exact absurd rfl h
  | cons n names => rfl

theorem Canonical.eq_join (h : Canonical c names) (hne : names ≠ []) :
    c.bytes = joinWords (names.map CString.bytes) := by
  rw [← pathBytes_of_ne_nil hne]
  exact h.bytes.resolve_right fun hc => hne hc.1

theorem Canonical.two_le (h : Canonical c names) (hne : names ≠ []) : 2 ≤ c.bytes.length := by
  obtain ⟨n, ns, rfl⟩ := exists_cons_of_ne_nil hne
  have hname := length_pos_iff.2 (h.isName n mem_cons_self).ne_empty
  rw [h.eq_join hne, map_cons, joinWords_cons, length_cons, length_append]
  omega

theorem Canonical.nil_cases (h : Canonical c []) : c.bytes = [slash] ∨ c.bytes = [] :=
  h.bytes.imp_right And.right

theorem Canonical.prefix_bytes (hm : Canonical c' m) (h : Canonical c names) (hpre : m <+: names) :
    c'.bytes <+: c.bytes ∨ c.bytes = [] ∧ c'.bytes = [slash] := by
  by_cases hnil : m = []
  · subst hnil
    rcases hm.nil_cases with hslash | hempty
    · by_cases hne : names = []
      · subst hne
        rcases h.nil_cases with hc | hc
        · exact .inl (by rw [hslash, hc])
        · exact .inr ⟨hc, hslash⟩
      obtain ⟨n, ns, rfl⟩ := exists_cons_of_ne_nil hne
      refine .inl ?_
      rw [hslash, h.eq_join hne, map_cons, joinWords_cons]
      exact ⟨_, rfl⟩
    · exact .inl (by rw [hempty]; exact nil_prefix)
  · obtain ⟨rest, rfl⟩ := hpre
    refine .inl ?_
    rw [hm.eq_join hnil, h.eq_join fun hc => hnil (append_eq_nil_iff.1 hc).1, map_append, joinWords_append]
    exact prefix_append _ _

theorem Canonical.length_lt (hm : Canonical c' m) (h : Canonical c names) (hpre : m <+: names)
    (hlt : m.length < names.length) : c'.bytes.length < c.bytes.length := by
  have hne : names ≠ [] := fun hc => by
    rw [hc] at hlt
    exact absurd hlt (Nat.not_lt_zero _)
  by_cases hnil : m = []
  · subst hnil
    have htwo := h.two_le hne
    have hone : c'.bytes.length ≤ 1 := by
      rcases hm.nil_cases with hc | hc <;> rw [hc] <;> simp
    omega
  obtain ⟨rest, rfl⟩ := hpre
  obtain ⟨n, ns, rfl⟩ : ∃ n ns, rest = n :: ns := exists_cons_of_ne_nil fun hc => by
    rw [hc, append_nil] at hlt
    exact absurd hlt (lt_irrefl _)
  rw [hm.eq_join hnil, h.eq_join hne, map_append, joinWords_append, map_cons, joinWords_cons,
    length_append, length_cons]
  omega

theorem splitPath_slash : splitPath (CString.ofBytes [slash]) = .ok [] :=
  Canonical.splitPath_eq ⟨fun _ hn => absurd hn not_mem_nil, .inl rfl⟩

theorem splitPath_tail {n : CString} (hnames : ∀ d ∈ n :: names, IsName d)
    (h : c.bytes = n.bytes ++ joinWords (names.map CString.bytes)) : splitPath c = .ok (n :: names) := by
  have hcanon : Canonical ⟨joinWords ((n :: names).map CString.bytes), nul_not_mem_pathBytes (n :: names)⟩
      (n :: names) :=
    ⟨hnames, .inl rfl⟩
  have hwords : ∀ v ∈ names.map CString.bytes, slash ∉ v := fun v hv => by
    obtain ⟨d, hd, rfl⟩ := mem_map.1 hv
    exact (hnames d (mem_cons_of_mem n hd)).word.1
  rw [← hcanon.splitPath_eq, splitPath, h, splitBytes_join (hnames n mem_cons_self).word.1 hwords le_rfl]
  exact (splitPath_join rfl (forall_mem_cons.2 ⟨(hnames n mem_cons_self).word.1, hwords⟩)).symm

theorem Canonical.rest (hm : Canonical c' m) (h : Canonical c names) (hpre : m <+: names) {rest : List UInt8}
    (hrest : c.bytes = c'.bytes ++ rest) :
    splitPath (CString.ofBytes (if rest = [] then [slash] else rest)) = .ok (names.drop m.length) := by
  have hbytes : (CString.ofBytes rest).bytes = rest :=
    CString.ofBytes_of_nul_free fun h0 => c.nul_free (hrest ▸ mem_append_right _ h0)
  obtain ⟨left, rfl⟩ := hpre
  rw [drop_left]
  have hleft : ∀ n ∈ left, IsName n := fun n hn => h.isName n (mem_append_right m hn)
  by_cases hnil : left = []
  · -- nothing is left but a slash
    subst hnil
    rw [append_nil] at h
    have hshort : rest = [] ∨ rest = [slash] := by
      by_cases hm' : m = []
      · subst hm'
        rcases h.nil_cases with hc | hc <;> rcases hm.nil_cases with hc' | hc' <;> rw [hc, hc'] at hrest <;>
          simp_all
      · rw [h.eq_join hm', hm.eq_join hm', self_eq_append_right] at hrest
        exact .inl hrest
    rcases hshort with rfl | rfl
    · exact splitPath_slash
    · exact splitPath_slash
  obtain ⟨n, ns, rfl⟩ := exists_cons_of_ne_nil hnil
  rw [h.eq_join (append_ne_nil_of_right_ne_nil m hnil), map_append, joinWords_append, map_cons, joinWords_cons] at hrest
  have hword : n.bytes ≠ [] := (hleft n mem_cons_self).ne_empty
  have hne : rest = slash :: (n.bytes ++ joinWords (ns.map CString.bytes)) ∨
      rest = n.bytes ++ joinWords (ns.map CString.bytes) := by
    by_cases hm' : m = []
    · subst hm'
      rcases hm.nil_cases with hc' | hc' <;> rw [hc'] at hrest
      · exact .inr (List.cons.inj hrest).2.symm
      · exact .inl hrest.symm
    · rw [hm.eq_join hm'] at hrest
      exact .inl (append_cancel_left hrest).symm
  have hsome : rest ≠ [] := by
    rcases hne with heq | heq <;> rw [heq]
    · exact cons_ne_nil _ _
    · exact append_ne_nil_of_left_ne_nil hword _
  rw [if_neg hsome]
  rcases hne with heq | heq
  · exact Canonical.splitPath_eq ⟨hleft, .inl (hbytes.trans heq)⟩
  · exact splitPath_tail hleft (hbytes.trans heq)

end

section
variable {t t' : MountTable φ}

/-! ## Entries -/

structure MountTable.Ok (t : MountTable φ) : Prop where
  canonical : ∀ i e, t.entry i = some e → ∃ names, Canonical e.mountPoint names
  distinct : ∀ i j e e', t.entry i = some e → t.entry j = some e' → e.mountPoint = e'.mountPoint → i = j

theorem MountTable.entry_empty (i : ℕ) : (MountTable.empty : MountTable φ).entry i = none := by
  rw [entry, empty, getElem?_replicate]
  split_ifs <;> rfl

theorem MountTable.entry_eq_some : t.entry i = some e ↔ t.slots[i]? = some (some e) := by
  rw [entry, Option.join_eq_some_iff]

theorem MountTable.entry_set (hi : i < t.slots.length) (e : MountEntry φ) (j : ℕ) :
    (t.set i e).entry j = if j = i then some e else t.entry j := by
  rw [entry, set, getElem?_set]
  split_ifs with h1 h2 h2
  · rfl
  · exact absurd h1.symm h2
  · exact absurd h2.symm h1
  · rfl

theorem registerFileSystem_cases {mountPoint : CString} {fs : φ}
    (h : registerFileSystem t mountPoint fs = .ok (t', 0)) :
    ∃ i e, i < t.slots.length ∧ t.entry i = none ∧ t' = t.set i e ∧ (∃ names, Canonical e.mountPoint names) ∧
      ∀ j e', t.entry j = some e' → e'.mountPoint ≠ e.mountPoint := by
  have hcode : ∀ {t1 : MountTable φ} {r : ℤ}, (.ok (t1, r) : Except FsFault (MountTable φ × ℤ)) = .ok (t', 0) →
      t1 = t' ∧ r = 0 := fun h => Prod.mk.inj (Except.ok.inj h)
  rw [registerFileSystem] at h
  split at h
  · cases h
  next cName hname =>
  split_ifs at h with hany
  · exact absurd (hcode h).2 (by decide)
  split at h
  · exact absurd (hcode h).2 (by decide)
  next i hfree =>
  obtain ⟨hi, hnone, -⟩ := findIdx?_eq_some_iff_getElem.1 hfree
  obtain ⟨stored, hcanon, -, heq⟩ := canonicalName_eq hname
  refine ⟨i, _, hi, ?_, (hcode h).1.symm, ?_, fun j e' he' hmp => ?_⟩
  · rw [MountTable.entry, getElem?_eq_getElem hi, Option.isNone_iff_eq_none.1 hnone]
    rfl
  · have hnames := (canonicalizePathName_canonical hcanon).2
    rw [← heq] at hnames
    exact ⟨_, hnames⟩
  -- the same name would have been refused
  refine hany (any_eq_true.2 ⟨some e', mem_of_getElem? (MountTable.entry_eq_some.1 he'), ?_⟩)
  have hmp' : e'.mountPoint = cName := hmp
  rw [Option.any_some, conflicts, hmp', decide_eq_true_iff]
  exact ⟨startWith_eq_zero.2 prefix_rfl, .inl (CString.get_eq_zero le_rfl)⟩

theorem Mounted.ok (h : Mounted t) : t.Ok := by
  induction h with
  | boot =>
    refine ⟨fun i e he => ?_, fun i j e e' he => ?_⟩ <;> rw [MountTable.entry_empty] at he <;> cases he
  | register _ hreg ih =>
    obtain ⟨i, e, hi, -, rfl, hcanon, hnew⟩ := registerFileSystem_cases hreg
    refine ⟨fun j e' he' => ?_, fun j k e1 e2 h1 h2 heq => ?_⟩
    · rw [MountTable.entry_set hi] at he'
      split_ifs at he'
      · exact Option.some.inj he' ▸ hcanon
      · exact ih.canonical j e' he'
    rw [MountTable.entry_set hi] at h1 h2
    split_ifs at h1 h2 with hj hk hk
    · exact hj.trans hk.symm
    · cases h1
      exact absurd heq.symm (hnew k e2 h2)
    · cases h2
      exact absurd heq (hnew j e1 h1)
    · exact ih.distinct j k e1 e2 h1 h2 heq

theorem searchMountEntry_cases (hc : canonicalName path = .ok c) :
    searchMountEntry t path = .ok none ∧ (∀ i e, t.entry i = some e → ¬e.mountPoint.bytes <+: c.bytes) ∨
      ∃ i e, searchMountEntry t path = .ok (some i) ∧ t.entry i = some e ∧ e.mountPoint.bytes <+: c.bytes ∧
        ∀ j e', t.entry j = some e' → e'.mountPoint.bytes <+: c.bytes →
          e'.mountPoint.bytes.length ≤ e.mountPoint.bytes.length := by
  have hdegree : ∀ {i e}, t.entry i = some e → e.mountPoint.bytes <+: c.bytes →
      some e.mountPoint.bytes.length ∈ t.slots.map fun slot => slot.bind (mountDegree c) := fun he hpre => by
    refine mem_map.2 ⟨some _, mem_of_getElem? (MountTable.entry_eq_some.1 he), ?_⟩
    rw [Option.bind_some, mountDegree, if_pos (startWith_eq_zero.2 hpre)]
  have hsearch : searchMountEntry t path =
      .ok ((bestFit (t.slots.map fun slot => slot.bind (mountDegree c)) 0 none).map Prod.fst) := by
    rw [searchMountEntry, hc]
    rfl
  rw [hsearch]
  cases hbest : bestFit (t.slots.map fun slot => slot.bind (mountDegree c)) 0 none with
  | none => exact .inl ⟨rfl, fun i e he hpre => bestFit_eq_none hbest _ (hdegree he hpre)⟩
  | some r =>
    obtain ⟨i, d⟩ := r
    obtain ⟨hslot, hmax⟩ := bestFit_eq_some hbest
    rw [getElem?_map, Option.map_eq_some_iff] at hslot
    obtain ⟨slot, hslot, hbind⟩ := hslot
    obtain ⟨e, rfl, hd⟩ := Option.bind_eq_some_iff.1 hbind
    unfold mountDegree at hd
    split_ifs at hd with hstart
    refine .inr ⟨i, e, rfl, MountTable.entry_eq_some.2 hslot, startWith_eq_zero.1 hstart, fun j e' he' hpre => ?_⟩
    exact (hmax _ (hdegree he' hpre)).trans_eq (Option.some.inj hd).symm

structure Named (path c : CString) (names : List CString) : Prop where
  name : canonicalName path = .ok c
  split : components path = .ok names
  canonical : Canonical c names

theorem canonicalName_some (h : canonicalizePathName path = some stored) (hfits : stored.length ≤ maxPath) :
    canonicalName path = .ok (CString.ofBytes stored) := by
  rw [canonicalName, h]
  exact bind_of_ok (FsFault.unless_of hfits) rfl

theorem Named.of_stored (h : canonicalizePathName path = some stored) (hfits : stored.length ≤ maxPath) :
    ∃ names, Named path (CString.ofBytes stored) names := by
  obtain ⟨-, hnames⟩ := canonicalizePathName_canonical h
  refine ⟨_, canonicalName_some h hfits, ?_, hnames⟩
  rw [components, h]
  exact bind_of_ok (FsFault.unless_of hfits) hnames.splitPath_eq

theorem AbsolutePath.named (h : AbsolutePath path) : ∃ c names, Named path c names := by
  have hlen := h.fits
  have hmax : maxPath = 256 := rfl
  have haccepted : canonicalizePathName path ≠ none := fun hnone =>
    h.blank_free (mem_of_mem_take (canonicalizePathName_eq_none.1 hnone))
  obtain ⟨stored, hcanon⟩ := Option.ne_none_iff_exists'.1 haccepted
  have hsize := length_stored_le hcanon
  exact ⟨_, Named.of_stored hcanon (by omega)⟩

section
variable {p q d : CString} {names' : List CString} {e' : MountEntry φ} {m' : List CString}

theorem MountTable.Ok.canonical_of_split (ht : t.Ok) (he : t.entry i = some e) (hm : splitPath e.mountPoint = .ok m) :
    Canonical e.mountPoint m := by
  obtain ⟨ns, hns⟩ := ht.canonical i e he
  cases hns.splitPath_eq.symm.trans hm
  exact hns

theorem resolveSubpath_eq (hn : Named p c names) (hm : Canonical e.mountPoint m) (hpre : m <+: names)
    (hbytes : e.mountPoint.bytes <+: c.bytes) :
    ∃ sub, resolveSubpath p e.mountPoint = .ok sub ∧ splitPath sub = .ok (names.drop m.length) := by
  obtain ⟨stored, hcanon, hfits, rfl⟩ := canonicalName_eq hn.name
  obtain ⟨rest, hrest⟩ := hbytes
  refine ⟨_, ?_, hm.rest hn.canonical hpre hrest.symm⟩
  rw [resolveSubpath, hcanon, Option.getD_some, FsFault.unless_of hfits, ← hrest, dropCommon_append]
  rfl

theorem eq_of_prefix_length {as bs cs : List UInt8} (ha : as <+: cs) (hb : bs <+: cs) (h : as.length = bs.length) :
    as = bs := (prefix_of_prefix_length_le ha hb h.le).eq_of_length h

theorem Canonical.eq_nil (h : Canonical c names) (hlen : c.bytes.length ≤ 1) : names = [] := by
  by_contra hne
  have := h.two_le hne
  omega

theorem Serves.begins_names (h : Serves t p e) (ht : t.Ok) (hn : Named p c names) (hfree : Uncaptured t p)
    (hm : splitPath e.mountPoint = .ok m) : m <+: names := by
  obtain ⟨i, he⟩ := h.entry
  obtain ⟨hpre, hmax⟩ := h.begins c hn.name
  obtain ⟨-, hcaptured⟩ := hfree c names hn.name hn.split
  by_contra hnot
  obtain ⟨j, e', m', he', hm', hpre', hlt⟩ := hcaptured i e m he hpre hm hnot
  rcases (ht.canonical_of_split he' hm').prefix_bytes hn.canonical hpre' with hbytes | ⟨hc, -⟩
  · have := hmax j e' he' hbytes
    omega
  rw [hc] at hpre
  obtain rfl := (ht.canonical_of_split he hm).eq_nil (by rw [prefix_nil.1 hpre]; exact Nat.zero_le 1)
  exact hnot nil_prefix

/-! ## Lookups -/

/-- **An entry is found as it should be exactly if no mount point captures the path.** -/
theorem lookupRight_iff (ht : t.Ok) (hn : Named p c names) : LookupRight t p ↔ Uncaptured t p := by
  have hsearch := searchMountEntry_cases (t := t) hn.name
  constructor
  · rintro ⟨ns, hns, hcase⟩ c' ns' hc' hns'
    obtain rfl := Except.ok.inj (hn.name.symm.trans hc')
    obtain rfl := Except.ok.inj (hns.symm.trans hns')
    rcases hcase with ⟨hnone, hno⟩ | ⟨i, e, m, sub, hsome, he, hlong, -, -⟩
    · rcases hsearch with ⟨-, hall⟩ | ⟨i, e, hsome, -⟩
      · refine ⟨fun _ i e he hslash => ?_, fun i e m he hpre => absurd hpre (hall i e he)⟩
        obtain ⟨m, hm⟩ := ht.canonical i e he
        obtain rfl := hm.eq_nil (by rw [hslash]; exact le_rfl)
        exact absurd nil_prefix (hno i e [] he hm.splitPath_eq)
      · cases hnone.symm.trans hsome
    rcases hsearch with ⟨hnone, -⟩ | ⟨i', e', hsome', he', hpre, hmax⟩
    · cases hnone.symm.trans hsome
    cases hsome.symm.trans hsome'
    cases he.symm.trans he'
    refine ⟨fun hempty _ _ _ _ => ⟨i, e, he, ?_⟩, fun j e' m' he' hpre' hm' hnot => ?_⟩
    · rw [hempty] at hpre
      exact CString.eq_of_bytes (prefix_nil.1 hpre)
    refine ⟨i, e, m, he, hlong.split, hlong.begins, lt_of_le_of_ne (hmax j e' he' hpre') fun hlen => hnot ?_⟩
    have hsame := CString.eq_of_bytes (eq_of_prefix_length hpre' hpre hlen)
    rw [hsame] at hm'
    cases hm'.symm.trans hlong.split
    exact hlong.begins
  intro hfree
  obtain ⟨hempty, -⟩ := hfree c names hn.name hn.split
  have hbytes : ∀ {j e' m'}, t.entry j = some e' → splitPath e'.mountPoint = .ok m' → m' <+: names →
      e'.mountPoint.bytes <+: c.bytes ∨ c.bytes = [] ∧ e'.mountPoint.bytes = [slash] := fun he' hm' hpre' =>
    (ht.canonical_of_split he' hm').prefix_bytes hn.canonical hpre'
  refine ⟨names, hn.split, ?_⟩
  rcases hsearch with ⟨hnone, hall⟩ | ⟨i, e, hsome, he, hpre, hmax⟩
  · refine .inl ⟨hnone, fun i e m he hm hbegins => ?_⟩
    rcases hbytes he hm hbegins with h | ⟨hc, hslash⟩
    · exact hall i e he h
    obtain ⟨j, e', he', hmp⟩ := hempty (CString.eq_of_bytes hc) i e he hslash
    exact hall j e' he' (by rw [hmp]; exact nil_prefix)
  obtain ⟨m, hm⟩ := ht.canonical i e he
  have hserves : Serves t p e := ⟨⟨i, he⟩, fun c' hc' => by
    obtain rfl := Except.ok.inj (hn.name.symm.trans hc')
    exact ⟨hpre, hmax⟩⟩
  have hbegins : m <+: names := hserves.begins_names ht hn hfree hm.splitPath_eq
  obtain ⟨sub, hsub, hrest⟩ := resolveSubpath_eq hn hm hbegins hpre
  refine .inr ⟨i, e, m, sub, hsome, he, ⟨hm.splitPath_eq, hbegins, fun j e' m' he' hm' hpre' => ?_⟩, hsub, hrest⟩
  by_contra hlt
  have hcanon := ht.canonical_of_split he' hm'
  rcases hbytes he' hm' hpre' with h | ⟨-, hslash⟩
  · have := hmax j e' he' h
    have := hm.length_lt hcanon (prefix_of_prefix_length_le hbegins hpre' (by omega)) (by omega)
    omega
  · obtain rfl := hcanon.eq_nil (by rw [hslash]; exact le_rfl)
    exact hlt (Nat.zero_le _)

theorem resolvesTo_iff (ht : t.Ok) (hn : Named p c names) (hfree : Uncaptured t p) (fs : φ) (sub : List CString) :
    ResolvesTo t p fs sub ↔ ∃ e m, Serves t p e ∧ splitPath e.mountPoint = .ok m ∧ m <+: names ∧ e.fs = fs ∧
      sub = names.drop m.length := by
  obtain ⟨ns, hns, hright⟩ := (lookupRight_iff ht hn).2 hfree
  obtain rfl := Except.ok.inj (hns.symm.trans hn.split)
  rcases searchMountEntry_cases hn.name with ⟨hnone, hall⟩ | ⟨i, e, hsome, he, hpre, hmax⟩
  · refine iff_of_false ?_ ?_
    · rintro ⟨i, e, s, hsome, -⟩
      cases hnone.symm.trans hsome
    rintro ⟨e, m, hserves, -⟩
    obtain ⟨i, he⟩ := hserves.entry
    exact hall i e he (hserves.begins c hn.name).1
  rcases hright with ⟨hnone, -⟩ | ⟨i', e', m, s, hsome', he', hlong, hsub, hrest⟩
  · cases hnone.symm.trans hsome
  cases hsome.symm.trans hsome'
  cases he.symm.trans he'
  constructor
  · rintro ⟨i', e', s', hsome', he', hfs, hsub', hrest'⟩
    cases hsome.symm.trans hsome'
    cases he.symm.trans he'
    cases hsub.symm.trans hsub'
    cases hrest.symm.trans hrest'
    refine ⟨e, m, ⟨⟨i, he⟩, fun c' hc' => ?_⟩, hlong.split, hlong.begins, hfs, rfl⟩
    obtain rfl := Except.ok.inj (hn.name.symm.trans hc')
    exact ⟨hpre, hmax⟩
  rintro ⟨e', m', hserves, hm', -, hfs, rfl⟩
  obtain ⟨j, he'⟩ := hserves.entry
  obtain ⟨hpre', hmax'⟩ := hserves.begins c hn.name
  have hlen := le_antisymm (hmax j e' he' hpre') (hmax' i e he hpre)
  have hindex := ht.distinct j i e' e he' he (CString.eq_of_bytes (eq_of_prefix_length hpre' hpre hlen))
  rw [hindex] at he'
  obtain rfl : e = e' := Option.some.inj (he.symm.trans he')
  obtain rfl : m = m' := Except.ok.inj (hlong.split.symm.trans hm')
  exact ⟨i, e, s, hsome, he, hfs, hsub, hrest⟩

theorem separatelyResolved_iff (ht : t.Ok) (hp : Named p c names) (hq : Named q d names') (hfree : Uncaptured t p)
    (hfree' : Uncaptured t q) : SeparatelyResolved t p q ↔ ApartUnder t p q := by
  have hsplit : ∀ {ns m : List CString}, m <+: ns → m ++ ns.drop m.length = ns := fun hpre =>
    prefix_iff_eq_append.1 hpre
  constructor
  · intro hsep e e' m m' ns ns' hserves hserves' hm hm' hns hns' hfs hdrop
    obtain rfl := Except.ok.inj (hp.split.symm.trans hns)
    obtain rfl := Except.ok.inj (hq.split.symm.trans hns')
    have hpre := hserves.begins_names ht hp hfree hm
    have hpre' := hserves'.begins_names ht hq hfree' hm'
    by_contra hne
    refine hsep (fun heq => hne ?_) e.fs (names.drop m.length) ⟨?_, ?_⟩
    · -- the same path, of which the same is left
      rw [hp.split, hq.split] at heq
      obtain rfl := Except.ok.inj heq
      have hlen := congrArg List.length hdrop
      rw [length_drop, length_drop] at hlen
      have hle := hpre.length_le
      have hle' := hpre'.length_le
      exact (prefix_of_prefix_length_le hpre hpre' (by omega)).eq_of_length (by omega)
    · exact (resolvesTo_iff ht hp hfree _ _).2 ⟨e, m, hserves, hm, hpre, rfl, rfl⟩
    · exact (resolvesTo_iff ht hq hfree' _ _).2 ⟨e', m', hserves', hm', hpre', hfs.symm, hdrop⟩
  · intro hapart hne fs sub hboth
    obtain ⟨e, m, hserves, hm, hpre, hfs, rfl⟩ := (resolvesTo_iff ht hp hfree fs sub).1 hboth.1
    obtain ⟨e', m', hserves', hm', hpre', hfs', hdrop⟩ := (resolvesTo_iff ht hq hfree' fs _).1 hboth.2
    obtain rfl := hapart e e' m m' names names' hserves hserves' hm hm' hp.split hq.split (hfs.trans hfs'.symm) hdrop
    rw [hp.split, hq.split, ← hsplit hpre, ← hsplit hpre', hdrop] at hne
    exact hne rfl

end

theorem apartUnder_of_once (h : ∀ i j e e', t.entry i = some e → t.entry j = some e' → e.fs = e'.fs → i = j)
    (p q : CString) : ApartUnder t p q := by
  intro e e' m m' _ _ hserves hserves' hm hm' _ _ hfs _
  obtain ⟨i, he⟩ := hserves.entry
  obtain ⟨j, he'⟩ := hserves'.entry
  have hindex := h i j e e' he he' hfs
  rw [hindex] at he
  obtain rfl := Option.some.inj (he.symm.trans he')
  exact Except.ok.inj (hm.symm.trans hm')

/-- **Mount lookup is by the longest prefix of components, and separates paths, if and only if no mount point captures a
path and the file systems are apart.** -/
theorem mount_lookup_iff (t : MountTable φ) (ht : Mounted t) (p q : CString) (hp : AbsolutePath p)
    (hq : AbsolutePath q) :
    LookupRight t p ∧ LookupRight t q ∧ SeparatelyResolved t p q ↔
      Uncaptured t p ∧ Uncaptured t q ∧ ApartUnder t p q := by
  obtain ⟨c, names, hn⟩ := hp.named
  obtain ⟨d, names', hn'⟩ := hq.named
  rw [lookupRight_iff ht.ok hn, lookupRight_iff ht.ok hn']
  refine and_congr_right fun hfree => and_congr_right fun hfree' => ?_
  exact separatelyResolved_iff ht.ok hn hn' hfree hfree'

end

def rootPoint : CString := CString.ofBytes [47]

def devPoint : CString := CString.ofBytes [47, 100, 101, 118]

def devFile : CString := CString.ofBytes [47, 100, 101, 118, 47, 97]

def rootFile : CString := CString.ofBytes [47, 98]

def devicesPath : CString := CString.ofBytes [47, 100, 101, 118, 105, 99, 101, 115]

theorem rootPoint_fits : rootPoint.bytes.length < maxPath := by decide

theorem devPoint_fits : devPoint.bytes.length < maxPath := by decide

def devTable : MountTable ℕ :=
  (MountTable.empty.set 0 ⟨rootPoint, 0, rootPoint_fits⟩).set 1 ⟨devPoint, 1, devPoint_fits⟩

set_option maxRecDepth 20000 in
theorem mounted_devTable : Mounted devTable := by
  have hroot : registerFileSystem .empty rootPoint 0 =
      .ok (MountTable.empty.set 0 ⟨rootPoint, 0, rootPoint_fits⟩, 0) := rfl
  have hdev : registerFileSystem (MountTable.empty.set 0 ⟨rootPoint, 0, rootPoint_fits⟩) devPoint 1 =
      .ok (devTable, 0) := rfl
  exact .register (.register .boot hroot) hdev

theorem devTable_entry {e : MountEntry ℕ} (h : devTable.entry i = some e) :
    i = 0 ∧ e = ⟨rootPoint, 0, rootPoint_fits⟩ ∨ i = 1 ∧ e = ⟨devPoint, 1, devPoint_fits⟩ := by
  have hsize : ∀ t : MountTable ℕ, 1 < t.slots.length := fun t => by
    rw [t.length_eq]
    decide
  rw [devTable, MountTable.entry_set (hsize _), MountTable.entry_set (Nat.lt_of_succ_lt (hsize _)),
    MountTable.entry_empty] at h
  split_ifs at h with h1 h0
  · exact .inr ⟨h1, (Option.some.inj h).symm⟩
  · exact .inl ⟨h0, (Option.some.inj h).symm⟩

theorem uncaptured_dev (hc : canonicalName path = .ok c) (hnames : components path = .ok names) (hne : c ≠ .empty)
    (hdev : devPoint.bytes <+: c.bytes → [CString.ofBytes [100, 101, 118]] <+: names) : Uncaptured devTable path := by
  intro c' names' hc' hnames'
  obtain rfl := Except.ok.inj (hc.symm.trans hc')
  obtain rfl := Except.ok.inj (hnames.symm.trans hnames')
  refine ⟨fun hempty => absurd hempty hne, fun i e m he hpre hm hnot => absurd ?_ hnot⟩
  have hroot : splitPath rootPoint = .ok [] := rfl
  have hdevice : splitPath devPoint = .ok [CString.ofBytes [100, 101, 118]] := rfl
  rcases devTable_entry he with ⟨-, rfl⟩ | ⟨-, rfl⟩
  · obtain rfl := Except.ok.inj (hroot.symm.trans hm)
    exact nil_prefix
  obtain rfl := Except.ok.inj (hdevice.symm.trans hm)
  exact hdev hpre

theorem mount_lookup_dev : Mounted devTable ∧ LookupRight devTable devFile ∧ LookupRight devTable rootFile ∧
      SeparatelyResolved devTable devFile rootFile := by
  have hfile : AbsolutePath devFile := ⟨rfl, by decide, by decide⟩
  have hroot : AbsolutePath rootFile := ⟨rfl, by decide, by decide⟩
  refine ⟨mounted_devTable, (mount_lookup_iff devTable mounted_devTable _ _ hfile hroot).2 ⟨?_, ?_, ?_⟩⟩
  · have hnames : components devFile = .ok [CString.ofBytes [100, 101, 118], CString.ofBytes [97]] := rfl
    exact uncaptured_dev rfl hnames (by decide) fun _ => by decide
  · have hnames : components rootFile = .ok [CString.ofBytes [98]] := rfl
    exact uncaptured_dev rfl hnames (by decide) fun hpre => absurd hpre (by decide)
  refine apartUnder_of_once (fun i j e e' he he' hfs => ?_) _ _
  rcases devTable_entry he with ⟨hi, rfl⟩ | ⟨hi, rfl⟩ <;> rcases devTable_entry he' with ⟨hj, rfl⟩ | ⟨hj, rfl⟩
  · rw [hi, hj]
  · exact absurd hfs (by decide)
  · exact absurd hfs (by decide)
  · rw [hi, hj]

/-- **`/dev` captures `/devices`.** -/
theorem dev_captures_devices : Mounted devTable ∧ AbsolutePath devicesPath ∧ ¬LookupRight devTable devicesPath := by
  have hpath : AbsolutePath devicesPath := ⟨rfl, by decide, by decide⟩
  refine ⟨mounted_devTable, hpath, fun hright => ?_⟩
  obtain ⟨c, names, hn⟩ := hpath.named
  obtain ⟨-, hcaptured⟩ := (lookupRight_iff mounted_devTable.ok hn).1 hright devicesPath
    [CString.ofBytes [100, 101, 118, 105, 99, 101, 115]] rfl rfl
  have hdev : devTable.entry 1 = some ⟨devPoint, 1, devPoint_fits⟩ := rfl
  obtain ⟨j, e, m, he, -, -, hlt⟩ := hcaptured 1 _ [CString.ofBytes [100, 101, 118]] hdev (by decide) rfl (by decide)
  rcases devTable_entry he with ⟨-, rfl⟩ | ⟨-, rfl⟩
  · exact absurd hlt (by decide)
  · exact absurd hlt (by decide)

end ZeldaOS
