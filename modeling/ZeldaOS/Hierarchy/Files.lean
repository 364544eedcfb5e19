import ZeldaOS.Hierarchy.Model
import ZeldaOS.Machine.ForestLinks

/-!
# The tree of files

The tree that the links of a `FileTree` spell out, and its shape.

* `Represents`: the links of the files spell out the tree.
* `attach`: a new file joins the tree.
-/

namespace ZeldaOS

open Machine Machine.Forest Function

structure Entry where
  addr : ℕ
  name : CString
  type : FileType
  deriving DecidableEq

def nodeOf (o : Option Entry) : ℕ := (o.map Entry.addr).getD 0

/-! ## The shape -/

/-- A level, whose mark is still ahead when `first` is set, with names of their own behind it. -/
def Shaped : Bool → Forest Entry → Prop
  | _, nil => True
  | true, node e child next => e.type = .mark ∧ e.name = .empty ∧ child = nil ∧ Shaped false next
  | false, node e child next =>
    (e.type = .regular ∨ e.type = .dir) ∧ e.name ≠ .empty ∧ next.lookup Entry.name e.name = Option.none ∧
      (e.type = .regular → child = nil) ∧ Shaped true child ∧ Shaped false next

def Marked (T : Forest Entry) : Prop := match T with
  | nil => True
  | node e child next => (e.type = .dir → child ≠ nil) ∧ Marked child ∧ Marked next

def isFirst : List (Forest.Frame Entry) → Bool
  | .beside _ _ :: _ => false
  | _ => true

def namesBefore : List (Forest.Frame Entry) → List CString
  | .beside a _ :: k => a.name :: namesBefore k
  | _ => []

variable {T : Forest Entry} {k : List (Forest.Frame Entry)} {e : Entry} {c : CString} {ps : List CString}

section
variable {t t' child next : Forest Entry} {a : Entry}

theorem Shaped.of_plug (h : Shaped true (plug k t)) : Shaped (isFirst k) t := by
  induction k generalizing t with
  | nil => exact h
  | cons f k ih =>
    have hfill := ih h
    cases f with
    | below a next =>
      cases hk : isFirst k with
      | true =>
        rw [hk] at hfill
        obtain ⟨-, -, rfl, -⟩ := hfill
        trivial
      | false =>
        rw [hk] at hfill
        exact hfill.2.2.2.2.1
    | beside a child =>
      cases hk : isFirst k with
      | true =>
        rw [hk] at hfill
        exact hfill.2.2.2
      | false =>
        rw [hk] at hfill
        exact hfill.2.2.2.2.2

theorem Shaped.dir_of_below (h : Shaped true (plug k (node a child next))) (hchild : child ≠ nil) : a.type = .dir := by
  have hnode := h.of_plug
  cases hk : isFirst k with
  | true =>
    rw [hk] at hnode
    exact absurd hnode.2.2.1 hchild
  | false =>
    rw [hk] at hnode
    exact hnode.1.resolve_left fun hr => hchild (hnode.2.2.2.1 hr)

theorem Shaped.replace (h : Shaped true (plug k t)) (ht : Shaped (isFirst k) t')
    (hnames : ∀ c ∈ namesBefore k, t.lookup Entry.name c = Option.none → t'.lookup Entry.name c = Option.none)
    (hdir : ∀ a next k', k = .below a next :: k' → t' ≠ nil → a.type = .dir) : Shaped true (plug k t') := by
  induction k generalizing t t' with
  | nil => exact ht
  | cons f k ih =>
    have hfill : Shaped (isFirst k) (f.fill t) := Shaped.of_plug h
    -- the level above already holds a file, so it is the level of a directory
    have habove : ∀ a next k', k = .below a next :: k' → f.fill t' ≠ nil → a.type = .dir := by
      rintro a next k' rfl -
      exact Shaped.dir_of_below h (f.fill_ne_nil t)
    cases f with
    | below a next =>
      refine ih h ?_ (fun c _ hc => ?_) habove
      · cases hk : isFirst k with
        | true =>
          rw [hk] at hfill
          refine ⟨hfill.1, hfill.2.1, ?_, hfill.2.2.2⟩
          by_contra hne
          have hmark : a.type = .mark := hfill.1
          rw [hdir a next k rfl hne] at hmark
          exact FileType.noConfusion hmark
        | false =>
          rw [hk] at hfill
          refine ⟨hfill.1, hfill.2.1, hfill.2.2.1, fun hr => ?_, ht, hfill.2.2.2.2.2⟩
          by_contra hne
          rw [hdir a next k rfl hne] at hr
          exact FileType.noConfusion hr
      · rw [Forest.lookup_eq_none] at hc ⊢
        exact hc
    | beside a child =>
      rw [namesBefore, List.forall_mem_cons] at hnames
      refine ih h ?_ (fun c hc hnone => ?_) habove
      · cases hk : isFirst k with
        | true =>
          rw [hk] at hfill
          exact ⟨hfill.1, hfill.2.1, hfill.2.2.1, ht⟩
        | false =>
          rw [hk] at hfill
          exact ⟨hfill.1, hfill.2.1, hnames.1 hfill.2.2.1, hfill.2.2.2.1, hfill.2.2.2.2.1, ht⟩
      · change (node a child t').lookup Entry.name c = Option.none
        have hnone' : (node a child t).lookup Entry.name c = Option.none := hnone
        rw [Forest.lookup] at hnone' ⊢
        split_ifs at hnone' ⊢
        exact hnames.2 c hc hnone'

theorem Marked.of_plug (h : Marked (plug k t)) : Marked t := by
  induction k generalizing t with
  | nil => exact h
  | cons f k ih =>
    have hfill := ih h
    cases f with
    | below a next => exact hfill.2.1
    | beside a child => exact hfill.2.2

theorem Marked.replace (h : Marked (plug k t)) (ht : Marked t') (hne : t ≠ nil → t' ≠ nil) : Marked (plug k t') := by
  induction k generalizing t t' with
  | nil => exact ht
  | cons f k ih =>
    have hfill : Marked (f.fill t) := Marked.of_plug h
    cases f with
    | below a next =>
      exact ih h ⟨fun hd => hne (hfill.1 hd), ht, hfill.2.2⟩ fun _ => Forest.Frame.fill_ne_nil (.below a next) t'
    | beside a child => exact ih h ⟨hfill.1, hfill.2.1, ht⟩ fun _ => Forest.Frame.fill_ne_nil (.beside a child) t'

theorem namesBefore_subset (k : List (Forest.Frame Entry)) (hk : Beside k) {k' : List (Forest.Frame Entry)}
    (hk' : isFirst k' = true) (hc : c ∈ namesBefore (k ++ k')) : ∃ f ∈ k, f.label.name = c := by
  induction k with
  | nil =>
    cases k' with
    | nil => cases hc
    | cons f k' =>
      cases f with
      | below a next => cases hc
      | beside a child => exact absurd hk' Bool.noConfusion
  | cons f k ih =>
    cases f with
    | below a next => exact absurd hk not_beside_below
    | beside a child =>
      rcases List.mem_cons.1 hc with rfl | hc
      · exact ⟨_, List.mem_cons_self .., rfl⟩
      obtain ⟨f, hf, he⟩ := ih (beside_cons.1 hk) hc
      exact ⟨f, List.mem_cons_of_mem _ hf, he⟩

theorem isFirst_of_atLevel (hk : AtLevel Entry.name k) : isFirst k = true := by
  cases k with
  | nil => rfl
  | cons f k =>
    cases f with
    | below a next => rfl
    | beside a child => exact hk.elim

theorem Shaped.concat {K : List (Forest.Frame Entry)} (h : Shaped true (plug (k ++ K) nil)) (hk : Beside k)
    (hne : k ≠ []) (hK : AtLevel Entry.name K) (hclear : ∀ f ∈ k, f.label.name ≠ e.name)
    (htype : e.type = .regular ∨ e.type = .dir) (hname : e.name ≠ .empty) (hchild : e.type = .regular → child = nil)
    (hshape : Shaped true child) : Shaped true (plug (k ++ K) (node e child nil)) := by
  obtain ⟨f, k', rfl⟩ := List.exists_cons_of_ne_nil hne
  obtain ⟨a, ch, rfl⟩ := hk f (List.mem_cons_self ..)
  refine h.replace ⟨htype, hname, rfl, hchild, hshape, trivial⟩ (fun c hc _ => ?_) (fun b n k'' hb => by cases hb)
  obtain ⟨g, hg, rfl⟩ := namesBefore_subset _ hk (isFirst_of_atLevel hK) hc
  rw [Forest.lookup, if_neg (hclear g hg).symm]
  rfl

theorem name_ne_empty (he : T.find Entry.name ps = some e) (hempty : CString.empty ∉ ps) : e.name ≠ .empty := by
  obtain ⟨k, child, next, -, -, hpath⟩ := find_split (k := []) he trivial
  intro hname
  have hmem : e.name ∈ path Entry.name k ++ [e.name] := List.mem_append_right _ List.mem_cons_self
  rw [hpath, hname] at hmem
  exact hempty hmem

theorem Shaped.regular_or_dir (h : Shaped true T) (he : T.find Entry.name ps = some e) (hne : e.name ≠ .empty) :
    e.type = .regular ∨ e.type = .dir := by
  obtain ⟨k, child, next, hT, -⟩ := find_split (k := []) he trivial
  have hT' : T = plug k (node e child next) := hT
  have hnode := Shaped.of_plug (hT' ▸ h)
  cases hk : isFirst k with
  | true =>
    rw [hk] at hnode
    exact absurd hnode.2.1 hne
  | false =>
    rw [hk] at hnode
    exact hnode.1

theorem Shaped.dir_of_append (h : Shaped true T) {qs : List CString} (hqs : qs ≠ [])
    (hfound : T.find Entry.name (ps ++ qs) ≠ Option.none) (he : T.find Entry.name ps = some e) : e.type = .dir := by
  obtain ⟨k, child, next, hT, hclear, hpath⟩ := find_split (k := []) he trivial
  have hT' : T = plug (.below e next :: k) child := hT
  obtain ⟨q, qs, rfl⟩ := List.exists_cons_of_ne_nil hqs
  have hp : path Entry.name (.below e next :: k) = ps := hpath
  have hbelow : child.find Entry.name (q :: qs) ≠ Option.none := by
    rw [hT', ← hp, find_plug (k := .below e next :: k) hclear] at hfound
    exact hfound
  have hshaped := hT' ▸ h
  refine Shaped.dir_of_below hshaped fun hnil => hbelow ?_
  rw [hnil, find_empty]

end

/-! ## Growth -/

/-- Files stay where they were, and only directories on the way to `ds` are new. -/
structure Grows (ds : List CString) (T T' : Forest Entry) : Prop where
  keep : ∀ ps e, T.find Entry.name ps = some e → T'.find Entry.name ps = some e
  new : ∀ ps e, CString.empty ∉ ps → T.find Entry.name ps = Option.none → T'.find Entry.name ps = some e →
    e.type = .dir ∧ ps <+: ds

section
variable {ds q : List CString} {T' T'' : Forest Entry}

theorem Grows.refl (ds : List CString) (T : Forest Entry) : Grows ds T T :=
  ⟨fun _ _ h => h, fun ps e _ hn hs => by rw [hn] at hs; cases hs⟩

theorem Grows.trans (h : Grows ds T T') (h' : Grows ds T' T'') : Grows ds T T'' where
  keep ps e he := h'.keep ps e (h.keep ps e he)
  new ps e hne hnone he := by
    cases hmid : T'.find Entry.name ps with
    | none => exact h'.new ps e hne hmid he
    | some e' =>
      have := h'.keep ps e' hmid
      rw [he, Option.some.injEq] at this
      exact this ▸ h.new ps e' hne hnone hmid

theorem Grows.of_adds (h : Adds Entry.name q e T T') (hq : T.find Entry.name q = Option.none)
    (hnew : CString.empty ∈ q ∨ e.type = .dir ∧ q <+: ds) : Grows ds T T' where
  keep ps e' he := by
    rw [h ps, if_neg, he]
    rintro rfl
    rw [hq] at he
    cases he
  new ps e' hne hnone he := by
    rw [h ps] at he
    split_ifs at he with hps
    · subst hps
      cases he
      exact hnew.resolve_left hne
    · rw [hnone] at he
      cases he

theorem Grows.mono {ds' : List CString} (h : Grows ds T T') (hds : ds <+: ds') : Grows ds' T T' :=
  ⟨h.keep, fun ps e h1 h2 h3 => ⟨(h.new ps e h1 h2 h3).1, (h.new ps e h1 h2 h3).2.trans hds⟩⟩

end

namespace FileTree

/-! ## Blocks -/

def blocksOf (t : FileTree) (e : Entry) : List ℕ :=
  e.addr :: if t.priv e.addr = 0 then [] else [t.priv e.addr]

def blocks (t : FileTree) (T : Forest Entry) : List ℕ := T.toList.flatMap t.blocksOf

/-- The files lay out `T`, in memory blocks that are in use. -/
structure Represents (t : FileTree) (T : Forest Entry) : Prop where
  linked : T.Linked Entry.addr t.nodes 0
  label : ∀ e ∈ T.toList, t.name e.addr = e.name ∧ t.type e.addr = e.type
  nodup : (t.blocks T).Nodup
  live : ∀ x ∈ t.blocks T, x ∈ t.live
  ne_zero : 0 ∉ t.blocks T

variable {t t' : FileTree} {x : ℕ} {type : FileType}

theorem addrs_sublist (t : FileTree) (T : Forest Entry) : (T.toList.map Entry.addr).Sublist (t.blocks T) := by
  rw [blocks]
  induction T.toList with
  | nil => exact List.Sublist.refl _
  | cons e l ih => exact (ih.trans (List.sublist_append_right _ _)).cons_cons e.addr

theorem addr_mem_blocks (he : e ∈ T.toList) : e.addr ∈ t.blocks T :=
  (addrs_sublist t T).subset (List.mem_map_of_mem he)

theorem blocks_plug (t : FileTree) (k : List (Forest.Frame Entry)) (l : Forest Entry) :
    (t.blocks (plug k l)).Perm ((k.flatMap Forest.Frame.toList).flatMap t.blocksOf ++ t.blocks l) := by
  have hperm := (toList_plug k l).flatMap_right t.blocksOf
  rw [List.flatMap_append] at hperm
  exact hperm

namespace Represents

section
variable (h : t.Represents T)
include h

theorem addrs_nodup : (T.toList.map Entry.addr).Nodup :=
  (addrs_sublist t T).nodup h.nodup

theorem addr_ne_zero (he : e ∈ T.toList) : e.addr ≠ 0 := fun h0 =>
  h.ne_zero (h0 ▸ addr_mem_blocks he)

theorem addr_live (he : e ∈ T.toList) : e.addr ∈ t.live :=
  h.live _ (addr_mem_blocks he)

theorem length_lt_fuel : T.toList.length + 1 < t.fuel := by
  have hblocks := (h.nodup.subperm h.live).length_le
  have haddrs := (addrs_sublist t T).length_le
  rw [List.length_map] at haddrs
  rw [fuel]
  omega

theorem congr (hnodes : ∀ e ∈ T.toList, t.nodes.EqAt t'.nodes e.addr)
    (hlabel : ∀ e ∈ T.toList, t'.name e.addr = t.name e.addr ∧ t'.type e.addr = t.type e.addr ∧
      t'.priv e.addr = t.priv e.addr) (hlive : ∀ x ∈ t.blocks T, x ∈ t'.live) : t'.Represents T := by
  have hblocks : t'.blocks T = t.blocks T := by
    refine List.flatMap_congr fun e he => ?_
    rw [blocksOf, blocksOf, (hlabel e he).2.2]
  refine ⟨h.linked.congr hnodes, fun e he => ?_, hblocks ▸ h.nodup, hblocks ▸ hlive, hblocks ▸ h.ne_zero⟩
  obtain ⟨h1, h2, -⟩ := hlabel e he
  rw [h1, h2]
  exact h.label e he

theorem newFile (hx : x ∉ t.live) (n : ℕ) :
    (FileTree.newFile { t with live := x :: t.live, mallocs := n } x c type).Represents T := by
  have hne : ∀ e ∈ T.toList, e.addr ≠ x := fun e he h' => hx (h' ▸ h.addr_live he)
  refine h.congr (fun e he => ?_) (fun e he => ?_) fun y hy => List.mem_cons_of_mem x (h.live y hy)
  · exact ((Nodes.eqAt_setParent 0 (hne e he)).trans (Nodes.eqAt_setLeft 0 (hne e he))).trans
      (Nodes.eqAt_setRight 0 (hne e he))
  · exact ⟨update_of_ne (hne e he) .., update_of_ne (hne e he) .., update_of_ne (hne e he) ..⟩

end

theorem blocks_leaf (hpriv : t.priv e.addr = 0) :
    (t.blocks (plug k (node e nil nil))).Perm (e.addr :: t.blocks (plug k nil)) := by
  have hleaf : t.blocks (node e nil nil) = [e.addr] := by
    simp [blocks, Forest.toList, blocksOf, hpriv]
  have hempty : t.blocks nil = [] := rfl
  refine (blocks_plug t k _).trans ?_
  rw [hleaf]
  refine (List.perm_append_singleton e.addr _).trans (List.Perm.cons e.addr ?_)
  refine List.Perm.symm ((blocks_plug t k nil).trans ?_)
  rw [hempty, List.append_nil]

theorem attach {f : Forest.Frame Entry} (h : t.Represents (plug (f :: k) nil)) (hx0 : x ≠ 0) (hx : x ∉ t.live) (n : ℕ)
    {s : FileTree} (hs : s = FileTree.newFile { t with live := x :: t.live, mallocs := n } x c type) :
    FileTree.Represents { s with nodes := (f.point Entry.addr s.nodes x).setParent x f.label.addr }
      (plug (f :: k) (node ⟨x, c, type⟩ nil nil)) := by
  have hrep : s.Represents (plug (f :: k) nil) := hs ▸ h.newFile hx n
  have hpriv : s.priv x = 0 := by rw [hs]; exact update_self ..
  have hperm := blocks_leaf (e := ⟨x, c, type⟩) (k := f :: k) hpriv
  have hblocks : s.blocks (plug (f :: k) nil) = t.blocks (plug (f :: k) nil) := by
    refine List.flatMap_congr fun e he => ?_
    have : s.priv e.addr = t.priv e.addr := by
      rw [hs]
      exact update_of_ne (fun hc : e.addr = x => hx (hc ▸ h.addr_live he)) ..
    rw [blocksOf, blocksOf, this]
  have hnot : x ∉ s.blocks (plug (f :: k) nil) := fun hm => hx (h.live x (hblocks ▸ hm))
  have hnodup := hperm.nodup_iff.2 (List.nodup_cons.2 ⟨hnot, hrep.nodup⟩)
  refine ⟨?_, ?_, hnodup, ?_, ?_⟩
  · refine Forest.Linked.attach hrep.linked ((addrs_sublist s _).nodup hnodup) ?_ ?_
    · rw [hs]; exact update_self ..
    · rw [hs]; exact update_self ..
  · intro e he
    rcases mem_plug.1 he with he | he
    · exact hrep.label e (mem_plug.2 (.inl he))
    obtain rfl := List.mem_singleton.1 he
    rw [hs]
    exact ⟨update_self .., update_self ..⟩
  · intro y hy
    rcases List.mem_cons.1 (hperm.subset hy) with rfl | hy
    · rw [hs]; exact List.mem_cons_self ..
    · exact hrep.live y hy
  · intro h0
    rcases List.mem_cons.1 (hperm.subset h0) with h0 | h0
    · exact hx0 h0.symm
    · exact hrep.ne_zero h0

end Represents

end FileTree

end ZeldaOS
