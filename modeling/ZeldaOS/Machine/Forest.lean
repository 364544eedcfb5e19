import Mathlib.Data.List.Nodup
import Mathlib.Tactic

/-!
# Forests of named nodes

A forest in first-child, next-sibling form, the paths of its nodes, and its places.

* `find_plug`: searches under a place.
* `Adds.plug`: a node put in a clear place.
-/

namespace Machine

open List

variable {α ν : Type}

/-! ## Searches -/

/-- A level of siblings, each with the level below it. -/
inductive Forest (α : Type) where
  | nil
  | node (a : α) (child next : Forest α)

namespace Forest

def toList : Forest α → List α
  | nil => []
  | node a child next => a :: (child.toList ++ next.toList)

def spine : Forest α → List α
  | nil => []
  | node a _ next => a :: next.spine

theorem spine_sublist (t : Forest α) : t.spine.Sublist t.toList := by
  induction t with
  | nil => exact List.Sublist.refl _
  | node a child next _ ih => exact (ih.trans (sublist_append_right _ _)).cons_cons a

section
variable [DecidableEq ν] (name : α → ν)

def lookup (c : ν) : Forest α → Option (α × Forest α)
  | nil => none
  | node a child next => if name a = c then some (a, child) else next.lookup c

def find : List ν → Forest α → Option α
  | [], _ => none
  | [c], t => (t.lookup name c).map Prod.fst
  | c :: cs, t => (t.lookup name c).bind fun r => find cs r.2

variable {name}

@[simp] theorem find_nil (t : Forest α) : find name [] t = none := rfl

theorem find_singleton (c : ν) (t : Forest α) : find name [c] t = (t.lookup name c).map Prod.fst := rfl

theorem find_cons {c : ν} {cs : List ν} (hcs : cs ≠ []) (t : Forest α) :
    find name (c :: cs) t = (t.lookup name c).bind fun r => find name cs r.2 := by
  obtain ⟨d, ds, rfl⟩ := exists_cons_of_ne_nil hcs
  rfl

theorem find_empty (cs : List ν) : find name cs (nil : Forest α) = none := by
  match cs with
  | [] => rfl
  | [_] => rfl
  | _ :: _ :: _ => rfl

theorem find_node_self (a : α) (child next : Forest α) {cs : List ν} (hcs : cs ≠ []) :
    find name (name a :: cs) (node a child next) = find name cs child := by
  rw [find_cons hcs, lookup, if_pos rfl]
  rfl

theorem find_node_of_ne {a : α} {child next : Forest α} {c : ν} (hc : name a ≠ c) (cs : List ν) :
    find name (c :: cs) (node a child next) = find name (c :: cs) next := by
  have hlookup : (node a child next).lookup name c = next.lookup name c := if_neg hc
  match cs with
  | [] => rw [find_singleton, find_singleton, hlookup]
  | d :: ds => rw [find_cons (cons_ne_nil d ds), find_cons (cons_ne_nil d ds), hlookup]

theorem lookup_eq_none {c : ν} {t : Forest α} : t.lookup name c = none ↔ ∀ a ∈ t.spine, name a ≠ c := by
  induction t with
  | nil => simp [lookup, spine]
  | node a child next _ ih =>
    rw [lookup, spine, forall_mem_cons]
    split_ifs with h
    · simp [h]
    · simp [h, ih]

theorem find_ne_none_of_append {cs ds : List ν} {t : Forest α} (hcs : cs ≠ [])
    (h : find name (cs ++ ds) t ≠ none) : find name cs t ≠ none := by
  induction cs generalizing t with
  | nil => exact absurd rfl hcs
  | cons c cs ih =>
    cases hl : t.lookup name c with
    | none =>
      refine absurd ?_ h
      cases hds : cs ++ ds with
      | nil => rw [cons_append, hds, find_singleton, hl]; rfl
      | cons d l => rw [cons_append, hds, find_cons (cons_ne_nil d l), hl]; rfl
    | some r =>
      cases cs with
      | nil => simp [find_singleton, hl]
      | cons d cs =>
        rw [cons_append, find_cons (by simp), hl] at h
        rw [find_cons (by simp), hl]
        exact ih (by simp) h

end

/-! ## Places -/

/-- One step out: to the sibling above, or to the node whose level begins here. -/
inductive Frame (α : Type) where
  | below (a : α) (next : Forest α)
  | beside (a : α) (child : Forest α)

namespace Frame

def label : Frame α → α
  | below a _ => a
  | beside a _ => a

def fill : Frame α → Forest α → Forest α
  | below a next, t => node a t next
  | beside a child, t => node a child t

def toList : Frame α → List α
  | below a next => a :: next.toList
  | beside a child => a :: child.toList

theorem label_mem (f : Frame α) : f.label ∈ f.toList := by
  cases f <;> exact mem_cons_self ..

theorem fill_ne_nil (f : Frame α) (t : Forest α) : f.fill t ≠ nil := by
  cases f <;> exact fun h => by cases h

end Frame

/-- The forest with `t` in the place. -/
def plug : List (Frame α) → Forest α → Forest α
  | [], t => t
  | f :: k, t => plug k (f.fill t)

theorem plug_append (k k' : List (Frame α)) (t : Forest α) : plug (k ++ k') t = plug k' (plug k t) := by
  induction k generalizing t with
  | nil => rfl
  | cons f k ih => exact ih (f.fill t)

theorem plug_ne_nil (f : Frame α) (k : List (Frame α)) (t : Forest α) : plug (f :: k) t ≠ nil := by
  induction k generalizing f t with
  | nil => exact f.fill_ne_nil t
  | cons g k ih => exact ih g (f.fill t)

theorem toList_fill (f : Frame α) (t : Forest α) : (f.fill t).toList.Perm (f.toList ++ t.toList) := by
  cases f with
  | below a next => exact List.Perm.cons a perm_append_comm
  | beside a child => exact List.Perm.refl _

theorem toList_plug (k : List (Frame α)) (t : Forest α) :
    (plug k t).toList.Perm (k.flatMap Frame.toList ++ t.toList) := by
  induction k generalizing t with
  | nil => exact List.Perm.refl _
  | cons f k ih =>
    refine (ih (f.fill t)).trans ?_
    refine ((toList_fill f t).append_left _).trans ?_
    rw [← append_assoc, flatMap_cons]
    exact perm_append_comm.append_right _

theorem length_le_frames (k : List (Frame α)) : k.length ≤ (k.flatMap Frame.toList).length := by
  induction k with
  | nil => exact Nat.le_refl _
  | cons f k ih =>
    have hpos := length_pos_of_mem f.label_mem
    rw [flatMap_cons, length_append, length_cons]
    omega

def Beside (k : List (Frame α)) : Prop := ∀ f ∈ k, ∃ a child, f = .beside a child

theorem beside_nil : Beside ([] : List (Frame α)) := fun _ hf => absurd hf not_mem_nil

theorem beside_cons {a : α} {child : Forest α} {k : List (Frame α)} : Beside (.beside a child :: k) ↔ Beside k := by
  simp [Beside]

theorem not_beside_below {a : α} {next : Forest α} {k : List (Frame α)} : ¬Beside (.below a next :: k) := by
  simp [Beside]

theorem Beside.concat {k : List (Frame α)} (hk : Beside k) (a : α) (child : Forest α) :
    Beside (k ++ [.beside a child]) := by
  intro f hf
  rcases mem_append.1 hf with hf | hf
  · exact hk f hf
  · exact ⟨a, child, mem_singleton.1 hf⟩

theorem exists_plug {t : Forest α} {a : α} (h : a ∈ t.toList) : ∃ k child next, t = plug k (node a child next) := by
  induction t with
  | nil => cases h
  | node b child next ihc ihn =>
    rcases mem_cons.1 h with rfl | h
    · exact ⟨[], child, next, rfl⟩
    rcases mem_append.1 h with h | h
    · obtain ⟨k, c, n, hk⟩ := ihc h
      exact ⟨k ++ [.below b next], c, n, by rw [plug_append, ← hk]; rfl⟩
    obtain ⟨k, c, n, hk⟩ := ihn h
    exact ⟨k ++ [.beside b child], c, n, by rw [plug_append, ← hk]; rfl⟩

section
variable (name : α → ν)

/-! ## Paths -/

/-- The names from the root down to the place. -/
def path : List (Frame α) → List ν
  | [] => []
  | .below a _ :: k => path k ++ [name a]
  | .beside _ _ :: k => path k

/-- No sibling before the place hides it from a search for its path. -/
def Clear (w : ν) : List (Frame α) → Prop
  | [] => True
  | .below a _ :: k => Clear (name a) k
  | .beside a _ :: k => name a ≠ w ∧ Clear w k

def AtLevel : List (Frame α) → Prop
  | [] => True
  | .below a _ :: k => Clear name (name a) k
  | .beside _ _ :: _ => False

variable {name}

theorem path_append_of_beside {k : List (Frame α)} (hk : Beside k) (k' : List (Frame α)) :
    path name (k ++ k') = path name k' := by
  induction k with
  | nil => rfl
  | cons f k ih =>
    cases f with
    | below a next => exact absurd hk not_beside_below
    | beside a child => exact ih (beside_cons.1 hk)

theorem AtLevel.clear {k : List (Frame α)} (hk : AtLevel name k) (w : ν) : Clear name w k := by
  cases k with
  | nil => trivial
  | cons f k =>
    cases f with
    | below a next => exact hk
    | beside a child => exact hk.elim

theorem AtLevel.clear_append {k k' : List (Frame α)} (hk' : AtLevel name k') (hk : Beside k) {w : ν}
    (hw : ∀ f ∈ k, name f.label ≠ w) : Clear name w (k ++ k') := by
  induction k with
  | nil => exact hk'.clear w
  | cons f k ih =>
    rw [forall_mem_cons] at hw
    cases f with
    | below a next => exact absurd hk not_beside_below
    | beside a child => exact ⟨hw.1, ih (beside_cons.1 hk) hw.2⟩

theorem Clear.split {k : List (Frame α)} {w : ν} (h : Clear name w k) :
    ∃ k1 k2, k = k1 ++ k2 ∧ Beside k1 ∧ AtLevel name k2 := by
  induction k with
  | nil => exact ⟨[], [], rfl, beside_nil, trivial⟩
  | cons f k ih =>
    cases f with
    | below a next => exact ⟨[], _, rfl, beside_nil, h⟩
    | beside a child =>
      obtain ⟨k1, k2, rfl, hb, hat⟩ := ih h.2
      exact ⟨.beside a child :: k1, k2, rfl, beside_cons.2 hb, hat⟩

variable [DecidableEq ν]

theorem find_plug {k : List (Frame α)} {w : ν} (hk : Clear name w k) (ws : List ν) (t : Forest α) :
    find name (path name k ++ w :: ws) (plug k t) = find name (w :: ws) t := by
  induction k generalizing w ws t with
  | nil => rfl
  | cons f k ih =>
    cases f with
    | below a next =>
      rw [path, append_assoc, plug]
      exact (ih hk (w :: ws) (node a t next)).trans (find_node_self a t next (cons_ne_nil w ws))
    | beside a child =>
      exact (ih hk.2 ws (node a child t)).trans (find_node_of_ne hk.1 ws)

theorem find_owner {a : α} {next : Forest α} {k : List (Frame α)} (hk : AtLevel name (.below a next :: k))
    (t : Forest α) : find name (path name (.below a next :: k)) (plug (.below a next :: k) t) = some a := by
  have hfind := find_plug hk [] (node a t next)
  rw [find_singleton, lookup, if_pos rfl] at hfind
  exact hfind

theorem lookup_split {c : ν} {t child : Forest α} {a : α} (h : t.lookup name c = some (a, child)) :
    ∃ k next, t = plug k (node a child next) ∧ Beside k ∧ (∀ f ∈ k, name f.label ≠ c) ∧ name a = c := by
  induction t with
  | nil => cases h
  | node b ch next _ ih =>
    rw [lookup] at h
    split_ifs at h with hb
    · cases h
      exact ⟨[], next, rfl, beside_nil, fun f hf => absurd hf not_mem_nil, hb⟩
    obtain ⟨k, n, hk, hbs, hne, ha⟩ := ih h
    refine ⟨k ++ [.beside b ch], n, by rw [plug_append, ← hk]; rfl, hbs.concat b ch, fun f hf => ?_, ha⟩
    rcases mem_append.1 hf with hf | hf
    · exact hne f hf
    rw [mem_singleton.1 hf]
    exact hb

theorem AtLevel.below {c : ν} {k : List (Frame α)} (hk : AtLevel name k) {t child : Forest α} {a : α}
    (h : t.lookup name c = some (a, child)) : ∃ k' next, t = plug k' (node a child next) ∧ Beside k' ∧ name a = c ∧
      AtLevel name (.below a next :: (k' ++ k)) ∧ path name (.below a next :: (k' ++ k)) = path name k ++ [c] := by
  obtain ⟨k', next, ht, hb, hne, ha⟩ := lookup_split h
  refine ⟨k', next, ht, hb, ha, hk.clear_append hb fun f hf => ?_, ?_⟩
  · rw [ha]
    exact hne f hf
  · rw [path, path_append_of_beside hb, ha]

theorem find_split {cs : List ν} {t : Forest α} {a : α} (h : find name cs t = some a)
    {k : List (Frame α)} (hk : AtLevel name k) :
    ∃ k' child next, plug k t = plug k' (node a child next) ∧ Clear name (name a) k' ∧
      path name k' ++ [name a] = path name k ++ cs := by
  induction cs generalizing t k with
  | nil => cases h
  | cons c cs ih =>
    cases hl : t.lookup name c with
    | none =>
      cases cs with
      | nil => rw [find_singleton, hl] at h; cases h
      | cons d ds => rw [find_cons (cons_ne_nil d ds), hl] at h; cases h
    | some r =>
      obtain ⟨b, child⟩ := r
      obtain ⟨k', next, ht, hb, hname, hat, hpath⟩ := hk.below hl
      have hplug : plug k t = plug (.below b next :: (k' ++ k)) child := by
        rw [plug, plug_append, ht]
        rfl
      cases cs with
      | nil =>
        rw [find_singleton, hl, Option.map_some, Option.some.injEq] at h
        subst h
        exact ⟨k' ++ k, child, next, by rw [plug_append, ht], hat, by rw [← hpath]; rfl⟩
      | cons d ds =>
        rw [find_cons (cons_ne_nil d ds), hl] at h
        obtain ⟨k'', ch, nx, h1, h2, h3⟩ := ih h hat
        refine ⟨k'', ch, nx, hplug.trans h1, h2, h3.trans ?_⟩
        rw [hpath, append_assoc, singleton_append]

theorem mem_of_find {cs : List ν} {t : Forest α} {a : α} (h : find name cs t = some a) : a ∈ t.toList := by
  obtain ⟨k, child, next, hplug, -⟩ := find_split (k := []) h trivial
  have hplug' : t = Forest.plug k (node a child next) := hplug
  rw [hplug', (toList_plug k (node a child next)).mem_iff]
  exact mem_append_right _ mem_cons_self

theorem find_node_cases {cs : List ν} {a b : α} {child next : Forest α}
    (h : find name cs (node b child next) = some a) :
    cs = [name b] ∧ a = b ∨ (∃ ds, cs = name b :: ds ∧ find name ds child = some a) ∨ find name cs next = some a := by
  cases cs with
  | nil => cases h
  | cons c cs =>
    by_cases hc : name b = c
    · subst hc
      by_cases hcs : cs = []
      · subst hcs
        rw [find_singleton, lookup, if_pos rfl] at h
        exact .inl ⟨rfl, (Option.some.inj h).symm⟩
      · rw [find_node_self b child next hcs] at h
        exact .inr (.inl ⟨cs, rfl, h⟩)
    · rw [find_node_of_ne hc] at h
      exact .inr (.inr h)

theorem find_inj {t : Forest α} {cs ds : List ν} {a : α} (hnd : t.toList.Nodup) (h : find name cs t = some a)
    (h' : find name ds t = some a) : cs = ds := by
  induction t generalizing cs ds with
  | nil =>
    rw [find_empty] at h
    cases h
  | node b child next ihchild ihnext =>
    rw [toList, nodup_cons, mem_append, not_or, nodup_append] at hnd
    obtain ⟨⟨hb, hb'⟩, hchild, hnext, hapart⟩ := hnd
    rcases find_node_cases h with ⟨rfl, rfl⟩ | ⟨cs, rfl, hcs⟩ | hcs
    · rcases find_node_cases h' with ⟨rfl, -⟩ | ⟨ds, rfl, hds⟩ | hds
      · rfl
      · exact absurd (mem_of_find hds) hb
      · exact absurd (mem_of_find hds) hb'
    · rcases find_node_cases h' with ⟨rfl, rfl⟩ | ⟨ds, rfl, hds⟩ | hds
      · exact absurd (mem_of_find hcs) hb
      · rw [ihchild hchild hcs hds]
      · exact absurd rfl (hapart _ (mem_of_find hcs) _ (mem_of_find hds))
    rcases find_node_cases h' with ⟨rfl, rfl⟩ | ⟨ds, rfl, hds⟩ | hds
    · exact absurd (mem_of_find hcs) hb'
    · exact absurd rfl (hapart _ (mem_of_find hds) _ (mem_of_find hcs))
    · exact ihnext hnext hcs hds

/-! ## Additions -/

/-- `e` is added at the path `q`, and nothing else changes. -/
def Adds (name : α → ν) (q : List ν) (e : α) (t t' : Forest α) : Prop :=
  ∀ ps, find name ps t' = if ps = q then some e else find name ps t

theorem adds_leaf (name : α → ν) (e : α) : Adds name [name e] e nil (node e nil nil) := by
  intro ps
  match ps with
  | [] => rfl
  | [c] =>
    by_cases hc : name e = c
    · rw [find_singleton, lookup, if_pos hc, if_pos (by rw [hc])]
      rfl
    · rw [find_node_of_ne hc, if_neg (by simpa using Ne.symm hc)]
  | c :: d :: cs =>
    rw [find_empty, if_neg (by simp), find_cons (cons_ne_nil d cs), lookup]
    split_ifs
    · exact find_empty (d :: cs)
    · rfl

theorem Adds.below {q : List ν} {e : α} {t t' : Forest α} (h : Adds name q e t t') (hq : q ≠ []) (a : α)
    (next : Forest α) : Adds name (name a :: q) e (node a t next) (node a t' next) := by
  intro ps
  match ps with
  | [] => rfl
  | c :: cs =>
    by_cases hc : name a = c
    · subst hc
      by_cases hcs : cs = []
      · subst hcs
        rw [if_neg (by simpa using Ne.symm hq), find_singleton, find_singleton, lookup, lookup, if_pos rfl, if_pos rfl]
        rfl
      · rw [find_node_self a t' next hcs, find_node_self a t next hcs, h cs]
        simp
    · rw [find_node_of_ne hc, find_node_of_ne hc, if_neg (by simp [Ne.symm hc])]

theorem Adds.beside {w : ν} {ws : List ν} {e : α} {t t' : Forest α} (h : Adds name (w :: ws) e t t') {a : α}
    (ha : name a ≠ w) (child : Forest α) : Adds name (w :: ws) e (node a child t) (node a child t') := by
  intro ps
  match ps with
  | [] => rfl
  | c :: cs =>
    by_cases hc : name a = c
    · subst hc
      rw [if_neg (by simp [ha])]
      by_cases hcs : cs = []
      · subst hcs
        rw [find_singleton, find_singleton, lookup, lookup, if_pos rfl, if_pos rfl]
      · rw [find_node_self a child t' hcs, find_node_self a child t hcs]
    · rw [find_node_of_ne hc, find_node_of_ne hc, h (c :: cs)]

/-- **A node put in a clear place is found at its path, and nothing else changes.** -/
theorem Adds.plug {k : List (Frame α)} {w : ν} {ws : List ν} {e : α} {t t' : Forest α}
    (h : Adds name (w :: ws) e t t') (hk : Clear name w k) :
    Adds name (path name k ++ w :: ws) e (plug k t) (Forest.plug k t') := by
  induction k generalizing w ws t t' with
  | nil => exact h
  | cons f k ih =>
    cases f with
    | below a next =>
      have hstep := ih (h.below (cons_ne_nil w ws) a next) hk
      rw [path, append_assoc]
      exact hstep
    | beside a child => exact ih (h.beside hk.1 child) hk.2

end

end Forest

end Machine
