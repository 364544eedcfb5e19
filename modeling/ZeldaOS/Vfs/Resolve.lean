import ZeldaOS.Vfs.Mount

/-!
# Resolving a path

What `canonicalize_path_name` does to the components of a path.

* `canonicalize_resolves`: the components are resolved.
* `one_canonical_form_iff`: one directory has one form.
* `never_redirected_iff`: no other file is named.
-/

namespace ZeldaOS

/-- Of the parts between the slashes, empty ones and `.` are dropped, and `..` removes the last one. -/
def pathNames (bs : List UInt8) : List (List UInt8) := resolveWords (bs.splitOn slash)

namespace AbsolutePath

variable {path : CString}

variable (h : AbsolutePath path)
include h

theorem exists_joinWords_eq :
    ∃ ws, path.bytes = joinWords ws ∧ seenWords path.bytes = ws ∧ resolveWords ws = pathNames path.bytes := by
  obtain ⟨w, ws, hsplit, hw, hws⟩ := exists_joinWords path.bytes
  have hnil : w = [] := by
    cases w with
    | nil => rfl
    | cons b w =>
      have hhead := h.absolute
      rw [hsplit] at hhead
      exact absurd (List.mem_cons.2 (.inl (Option.some.inj hhead).symm)) hw
  subst hnil
  have hwords : path.bytes.splitOn slash = [] :: ws := by
    rw [hsplit]
    exact splitOn_joinWords hw hws
  refine ⟨ws, hsplit, ?_, ?_⟩
  · rw [seenWords, if_pos (Nat.lt_of_le_of_lt h.fits (by decide)), hwords]
    rfl
  rw [pathNames, hwords]
  rfl

theorem stored : ∃ stored, canonicalizePathName path = some stored ∧ stored.length ≤ maxPath ∧
      (CString.ofBytes stored).bytes = storedName path.bytes ∧
      Canonical (.ofBytes stored) ((pathNames path.bytes).map CString.ofBytes) := by
  obtain ⟨ws, -, hseen, hnames⟩ := h.exists_joinWords_eq
  have haccepted : canonicalizePathName path ≠ none := fun hnone =>
    h.blank_free (List.mem_of_mem_take (canonicalizePathName_eq_none.1 hnone))
  obtain ⟨stored, hcanon⟩ := Option.ne_none_iff_exists'.1 haccepted
  obtain ⟨hbytes, hname⟩ := canonicalizePathName_canonical hcanon
  rw [hseen, hnames] at hname
  exact ⟨stored, hcanon, (length_stored_le hcanon).trans (Nat.add_le_add_right h.fits 2), hbytes, hname⟩

theorem storedName_eq : storedName path.bytes =
      if path.bytes.getLast? = some slash ∧ pathNames path.bytes = [] then [slash]
      else joinWords (pathNames path.bytes) := by
  obtain ⟨ws, -, hseen, hnames⟩ := h.exists_joinWords_eq
  have hlen : path.bytes.length < maxPath := Nat.lt_of_le_of_lt h.fits (by decide)
  rw [storedName, hseen, hnames]
  simp only [hlen, true_and]

theorem length_joinWords_le :
    (joinWords (pathNames path.bytes)).length ≤ path.bytes.length := by
  obtain ⟨ws, hjoin, -, hnames⟩ := h.exists_joinWords_eq
  rw [← hnames]
  conv_rhs => rw [hjoin]
  exact (length_resolveWords ws).1

theorem again {c : CString} (hbytes : c.bytes = joinWords (pathNames path.bytes))
    (hne : pathNames path.bytes ≠ []) : AbsolutePath c ∧ pathNames c.bytes = pathNames path.bytes := by
  have hmem : ∀ v ∈ pathNames path.bytes, slash ∉ v ∧ (∀ b ∈ v, b ∈ path.bytes) ∧ v ≠ [] ∧ v ≠ [dot] ∧ v ≠ [dot, dot] :=
    fun v hv => ⟨(mem_splitOn (mem_resolveWords hv).1).1, (mem_splitOn (mem_resolveWords hv).1).2,
      (mem_resolveWords hv).2⟩
  have hsplit : c.bytes.splitOn slash = [] :: pathNames path.bytes := by
    rw [hbytes]
    exact splitOn_joinWords List.not_mem_nil fun v hv => (hmem v hv).1
  refine ⟨⟨?_, ?_, ?_⟩, ?_⟩
  · obtain ⟨v, vs, hcons⟩ := List.exists_cons_of_ne_nil hne
    rw [hbytes, hcons]
    rfl
  · rw [hbytes, mem_joinWords]
    rintro (hslash | ⟨v, hv, hb⟩)
    · exact absurd hslash.2 (by decide)
    · exact h.blank_free ((hmem v hv).2.1 _ hb)
  · rw [hbytes]
    exact h.length_joinWords_le.trans h.fits
  · have hself := foldl_addWord_names (fun v hv => (hmem v hv).2.2) []
    rw [pathNames, hsplit]
    exact hself

end AbsolutePath

/-- **Canonicalisation resolves the components.** -/
theorem canonicalize_resolves {src : CString} (h : AbsolutePath src) :
    ∃ stored, canonicalizePathName src = some stored ∧ stored.length ≤ maxPath ∧ (pathNames src.bytes ≠ [] →
        (CString.ofBytes stored).bytes = joinWords (pathNames src.bytes) ∧
        splitPath (.ofBytes stored) = .ok ((pathNames src.bytes).map CString.ofBytes) ∧
        ∃ again, canonicalizePathName (.ofBytes stored) = some again ∧ again.length ≤ maxPath ∧
          CString.ofBytes again = CString.ofBytes stored) := by
  obtain ⟨stored, hcanon, hfits, hbytes, hname⟩ := h.stored
  refine ⟨stored, hcanon, hfits, fun hne => ?_⟩
  rw [h.storedName_eq, if_neg fun hroot => hne hroot.2] at hbytes
  obtain ⟨hagain, hsame⟩ := h.again hbytes hne
  obtain ⟨again, hcanon', hfits', hbytes', -⟩ := hagain.stored
  rw [hagain.storedName_eq, if_neg fun hroot => hne (hsame ▸ hroot.2), hsame, ← hbytes] at hbytes'
  refine ⟨hbytes, hname.splitPath_eq, again, hcanon', hfits', ?_⟩
  rw [← CString.ofBytes_bytes (.ofBytes again), hbytes', CString.ofBytes_bytes]

def dottedPath : CString := .ofBytes [slash, 97, slash, dot, slash, 98, slash, dot, dot, slash, 99]

theorem dottedPath_absolute : AbsolutePath dottedPath := ⟨rfl, by decide, by decide⟩

theorem canonicalize_resolves_dottedPath : pathNames dottedPath.bytes = [[97], [99]] ∧
    ∃ stored, canonicalizePathName dottedPath = some stored ∧
      (CString.ofBytes stored).bytes = joinWords (pathNames dottedPath.bytes) := by
  have hnames : pathNames dottedPath.bytes = [[97], [99]] := by decide
  obtain ⟨stored, hcanon, -, hall⟩ := canonicalize_resolves dottedPath_absolute
  exact ⟨hnames, stored, hcanon, (hall (by rw [hnames]; decide)).1⟩

/-- One canonical form, an absolute path that `search_mount_entry` takes. -/
def OneCanonicalForm (a b : CString) : Prop :=
  ∃ s s', canonicalizePathName a = some s ∧ canonicalizePathName b = some s' ∧
    CString.ofBytes s = CString.ofBytes s' ∧ (CString.ofBytes s).bytes.head? = some slash ∧
    ∀ (φ : Type) (t : MountTable φ), ∃ r, searchMountEntry t (.ofBytes s) = .ok r

theorem AbsolutePath.searchMountEntry {φ : Type} {path : CString} (h : AbsolutePath path) (t : MountTable φ) :
    ∃ r, searchMountEntry t path = .ok r := by
  obtain ⟨stored, hcanon, hfits, -⟩ := h.stored
  rw [ZeldaOS.searchMountEntry, canonicalName_some hcanon hfits]
  exact ⟨_, rfl⟩

/-- **Spellings of one directory have one canonical form when it is not the root, or both end in a slash.** -/
theorem one_canonical_form_iff {a b : CString} (ha : AbsolutePath a) (hb : AbsolutePath b)
    (hsame : pathNames a.bytes = pathNames b.bytes) : OneCanonicalForm a b ↔
      pathNames a.bytes ≠ [] ∨ a.bytes.getLast? = some slash ∧ b.bytes.getLast? = some slash := by
  obtain ⟨s, hs, -, hsbytes, -⟩ := ha.stored
  obtain ⟨s', hs', -, hsbytes', -⟩ := hb.stored
  rw [ha.storedName_eq] at hsbytes
  rw [hb.storedName_eq, ← hsame] at hsbytes'
  have hform : OneCanonicalForm a b ↔ CString.ofBytes s = CString.ofBytes s' ∧
      (CString.ofBytes s).bytes.head? = some slash ∧
      ∀ (φ : Type) (t : MountTable φ), ∃ r, ZeldaOS.searchMountEntry t (.ofBytes s) = .ok r := by
    refine ⟨?_, fun h => ⟨s, s', hs, hs', h⟩⟩
    rintro ⟨r, r', hr, hr', h⟩
    rw [Option.some.inj (hs.symm.trans hr), Option.some.inj (hs'.symm.trans hr')]
    exact h
  rw [hform]
  constructor
  · rintro ⟨heq, hhead, -⟩
    by_cases hne : pathNames a.bytes ≠ []
    · exact .inl hne
    have hroot : pathNames a.bytes = [] := not_not.1 hne
    have hhead' := hhead
    rw [heq, hsbytes', hroot] at hhead'
    rw [hsbytes, hroot] at hhead
    refine .inr ⟨by_contra fun hlast => ?_, by_contra fun hlast => ?_⟩
    · rw [if_neg fun h => hlast h.1] at hhead
      cases hhead
    rw [if_neg fun h => hlast h.1] at hhead'
    cases hhead'
  intro hcase
  have heq : (CString.ofBytes s).bytes = (CString.ofBytes s').bytes := by
    rw [hsbytes, hsbytes']
    rcases hcase with hne | ⟨hlast, hlast'⟩
    · rw [if_neg fun h => hne h.2, if_neg fun h => hne h.2]
    · rw [hlast, hlast']
  have habs : AbsolutePath (.ofBytes s) := by
    by_cases hne : pathNames a.bytes ≠ []
    · rw [if_neg fun h => hne h.2] at hsbytes
      exact (ha.again hsbytes hne).1
    rw [if_pos ⟨(hcase.resolve_left hne).1, not_not.1 hne⟩] at hsbytes
    exact ⟨by rw [hsbytes]; rfl, by rw [hsbytes]; decide, by rw [hsbytes]; decide⟩
  refine ⟨?_, habs.absolute, fun φ t => habs.searchMountEntry t⟩
  rw [← CString.ofBytes_bytes (.ofBytes s), heq, CString.ofBytes_bytes]

theorem one_canonical_form_iff_b :
    OneCanonicalForm (.ofBytes [slash, 97, slash, dot, dot, slash, 98]) (.ofBytes [slash, 98, slash]) :=
  (one_canonical_form_iff ⟨rfl, by decide, by decide⟩ ⟨rfl, by decide, by decide⟩ (by decide)).2 (.inl (by decide))

/-- `/` and `/.` are the root, but have different canonical forms. -/
theorem root_two_forms : pathNames [slash] = pathNames [slash, dot] ∧
    ¬OneCanonicalForm (.ofBytes [slash]) (.ofBytes [slash, dot]) := by
  refine ⟨by decide, ?_⟩
  rintro ⟨s, s', hs, hs', heq, -⟩
  have h : canonicalizePathName (.ofBytes [slash]) = some [slash, 0, 0] := by decide
  have h' : canonicalizePathName (.ofBytes [slash, dot]) = some [0] := by decide
  rw [← Option.some.inj (h.symm.trans hs), ← Option.some.inj (h'.symm.trans hs')] at heq
  exact absurd heq (by decide)

/-- What is stored stays in the buffer, with the components of the whole path. -/
def NeverRedirected (src : CString) : Prop :=
  ∀ stored, canonicalizePathName src = some stored →
    stored.length ≤ maxPath ∧ splitPath (.ofBytes stored) = .ok ((pathNames src.bytes).map CString.ofBytes)

section
variable {src : CString}

theorem splitPath_stored_iff {stored : List UInt8} (h : canonicalizePathName src = some stored) :
    splitPath (.ofBytes stored) = .ok ((pathNames src.bytes).map CString.ofBytes) ↔
      resolveWords (seenWords src.bytes) = pathNames src.bytes := by
  have hseen : ∀ v ∈ resolveWords (seenWords src.bytes), 0 ∉ v := fun v hv h0 =>
    src.nul_free (List.mem_of_mem_take ((mem_seenWords (mem_resolveWords hv).1).2 _ h0))
  have hall : ∀ v ∈ pathNames src.bytes, 0 ∉ v := fun v hv h0 =>
    src.nul_free ((mem_splitOn (mem_resolveWords hv).1).2 _ h0)
  rw [(canonicalizePathName_canonical h).2.splitPath_eq]
  refine ⟨fun heq => ?_, fun heq => by rw [heq]⟩
  rw [← map_bytes_ofBytes hseen, Except.ok.inj heq, map_bytes_ofBytes hall]

/-- **A path is not redirected exactly when a blank is refused, or the words seen have all its components and it is not
a canonical path of 255 bytes.** -/
theorem never_redirected_iff (src : CString) : NeverRedirected src ↔ blank ∈ src.bytes.take maxPath ∨
      resolveWords (seenWords src.bytes) = pathNames src.bytes ∧
        ¬(src.bytes.length = 255 ∧ joinWords (pathNames src.bytes) = src.bytes) := by
  by_cases hblank : blank ∈ src.bytes.take maxPath
  · refine iff_of_true (fun stored h => ?_) (.inl hblank)
    rw [canonicalizePathName_eq_none.2 hblank] at h
    cases h
  obtain ⟨z, hz⟩ := canonicalizePathName_stored hblank
  have hone : NeverRedirected src ↔ (storedName src.bytes ++ (z ++ [0])).length ≤ maxPath ∧
      resolveWords (seenWords src.bytes) = pathNames src.bytes := by
    rw [← splitPath_stored_iff hz.eq_some]
    refine ⟨fun h => h _ hz.eq_some, fun h stored hstored => ?_⟩
    rw [Option.some.inj (hstored.symm.trans hz.eq_some)]
    exact h
  rw [hone, hz.fits_iff, or_iff_right hblank, and_comm]
  refine and_congr_right fun hseen => not_congr ?_
  have hlen : src.bytes.length + 1 = maxPath ↔ src.bytes.length = 255 := Nat.succ_inj
  rw [hlen]
  refine and_congr_right fun hsize => ?_
  rw [storedName, hseen]
  split_ifs with hroot
  · rw [hroot.2.2]
    refine iff_of_false (fun h => ?_) fun h => ?_ <;> rw [← h] at hsize <;> exact absurd hsize (by decide)
  · rfl

end

def longPath : CString := .ofBytes ([slash, 97, slash] ++ List.replicate 256 98)

set_option maxRecDepth 4000 in
theorem longPath_redirected : canonicalizePathName longPath = some [slash, 97, 0] ∧ ¬NeverRedirected longPath := by
  have hcanon : canonicalizePathName longPath = some [slash, 97, 0] := by decide +kernel
  refine ⟨hcanon, fun h => ?_⟩
  have hsame := (splitPath_stored_iff hcanon).1 (h _ hcanon).2
  have hdiffer : resolveWords (seenWords longPath.bytes) ≠ pathNames longPath.bytes := by decide +kernel
  exact hdiffer hsame

end ZeldaOS
