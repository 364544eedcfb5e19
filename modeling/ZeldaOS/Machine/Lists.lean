import ZeldaOS.Machine.Bytes
import ZeldaOS.Machine.Links

/-!
# Intrusive lists with heads

Lists threaded through the elements, with a head that points to the first and the last one. An element is in one list
at a time; `0` is the null pointer.

* `listAppend_spec`, `listFetch_spec`, `listDelete_spec`: the operations on sequences.
-/

namespace Machine

open List Function

/-! ## The operations -/

@[ext] structure Links where
  next : ℕ → ℕ
  prev : ℕ → ℕ

namespace Links

def setNext (L : Links) (a v : ℕ) : Links := { L with next := update L.next a v }

def setPrev (L : Links) (a v : ℕ) : Links := { L with prev := update L.prev a v }

end Links

def listAppend (L : Links) (head elem : ℕ) : Except Fault Links := do
  ensure (L.prev elem = 0)
  ensure (L.next elem = 0)
  let L₁ := if L.next head = 0 then L.setNext head elem else L
  let L₂ :=
    if L₁.prev head = 0 then L₁
    else (L₁.setPrev elem (L₁.prev head)).setNext (L₁.prev head) elem
  .ok (L₂.setPrev head elem)

def listFetch (L : Links) (head : ℕ) : Except Fault (Links × ℕ) :=
  if L.next head = 0 then .ok (L, 0)
  else do
    ensure (L.prev head ≠ 0)
    let elem := L.next head
    let L₁ := L.setNext head (L.next elem)
    let L₂ := if L₁.next elem = 0 then L₁.setPrev head 0 else L₁.setPrev (L₁.next elem) 0
    let L₃ := L₂.setNext elem 0
    ensure (L₃.prev elem = 0)
    .ok (L₃, elem)

def listPrepend (L : Links) (head elem : ℕ) : Except Fault Links := do
  ensure (L.prev elem = 0)
  ensure (L.next elem = 0)
  let L₁ := if L.next head = 0 then L else (L.setNext elem (L.next head)).setPrev (L.next head) elem
  let L₂ := L₁.setNext head elem
  .ok (if L₂.prev head = 0 then L₂.setPrev head elem else L₂)

def listPop (L : Links) (head : ℕ) : Except Fault (Links × ℕ) :=
  if L.next head = 0 then .ok (L, 0)
  else do
    ensure (L.prev head ≠ 0)
    let elem := L.prev head
    let L₁ := L.setPrev head (L.prev elem)
    let L₂ := if L₁.prev elem = 0 then L₁.setNext head 0 else L₁.setNext (L₁.prev elem) 0
    let L₃ := L₂.setPrev elem 0
    ensure (L₃.next elem = 0)
    .ok (L₃, elem)

/-- The search of `list_delete` and `element_in_list`. -/
def listSearch (L : Links) (elem : ℕ) : (fuel cur : ℕ) → Except Fault Bool
  | 0, _ => .error .diverge
  | fuel + 1, cur =>
    if cur = 0 then .ok false
    else if cur = elem then .ok true
    else listSearch L elem fuel (L.next cur)

def listDelete (L : Links) (fuel head elem : ℕ) : Except Fault Links := do
  let found ← listSearch L elem fuel (L.next head)
  ensure (found = true)
  if L.prev head = elem then ensure (L.next elem = 0)
  let L₁ := if L.prev head = elem then L.setPrev head (L.prev elem) else L
  if L₁.next head = elem then ensure (L₁.prev elem = 0)
  let L₂ := if L₁.next head = elem then L₁.setNext head (L₁.next elem) else L₁
  let L₃ := if L₂.next elem = 0 then L₂ else L₂.setPrev (L₂.next elem) (L₂.prev elem)
  let L₄ := if L₃.prev elem = 0 then L₃ else L₃.setNext (L₃.prev elem) (L₃.next elem)
  .ok ((L₄.setPrev elem 0).setNext elem 0)

def elementInList (L : Links) (fuel head elem : ℕ) : Except Fault Bool :=
  if L.next elem = 0 ∧ L.prev elem = 0 ∧ L.next head ≠ elem ∧ L.prev head ≠ elem then .ok false
  else listSearch L elem fuel (L.next head)

/-! ## Lists in memory -/

/-- The links from the head `h` spell out `xs`. -/
structure IsList (L : Links) (h : ℕ) (xs : List ℕ) : Prop where
  first : L.next h = xs.headD 0
  last : L.prev h = xs.getLastD 0
  seg : Seg L.next L.prev 0 xs 0

/-- All lists at once; an element is in one of them, or detached. -/
structure Lists {ι : Type} (L : Links) (head : ι → ℕ) (q : ι → List ℕ) : Prop where
  isList : ∀ i, IsList L (head i) (q i)
  head_inj : Function.Injective head
  nodup : ∀ i, (q i).Nodup
  apart : ∀ i j x, x ∈ q i → x ∈ q j → i = j
  ne_zero : ∀ i, ∀ x ∈ q i, x ≠ 0
  ne_head : ∀ i, ∀ x ∈ q i, ∀ j, x ≠ head j
  detached : ∀ x, (∀ i, x ∉ q i) → (∀ i, x ≠ head i) → L.next x = 0 ∧ L.prev x = 0

variable {L L' : Links} {h : ℕ} {xs : List ℕ}

theorem IsList.congr (hl : IsList L h xs) (hn : ∀ y, y = h ∨ y ∈ xs → L'.next y = L.next y)
    (hp : ∀ y, y = h ∨ y ∈ xs → L'.prev y = L.prev y) : IsList L' h xs :=
  ⟨(hn h (.inl rfl)).trans hl.first, (hp h (.inl rfl)).trans hl.last,
    hl.seg.congr (fun y hy => hn y (.inr hy)) (fun y hy => hp y (.inr hy))⟩

theorem getLastD_or_mem (l : List ℕ) (d : ℕ) : l.getLastD d = d ∨ l.getLastD d ∈ l := by
  induction l using List.reverseRecOn with
  | nil => exact .inl rfl
  | append_singleton l x _ => exact .inr (by simp)

theorem getLastD_cons_mem (z : ℕ) (l : List ℕ) (d : ℕ) : (z :: l).getLastD d ∈ z :: l := by
  rw [getLastD_cons]
  rcases getLastD_or_mem l z with h | h
  · rw [h]
    exact mem_cons_self
  · exact mem_cons_of_mem _ h

theorem getLastD_append (xs ys : List ℕ) (d : ℕ) : (xs ++ ys).getLastD d = ys.getLastD (xs.getLastD d) := by
  induction xs generalizing d with
  | nil => rfl
  | cons x xs ih => rw [cons_append, getLastD_cons, getLastD_cons, ih]

theorem headD_or_mem (l : List ℕ) (d : ℕ) : l.headD d = d ∨ l.headD d ∈ l := by
  cases l with
  | nil => exact .inl rfl
  | cons x l => exact .inr mem_cons_self

variable {l : List ℕ} {d y : ℕ}

theorem ne_getLastD_of_mem_dropLast (hl : l.Nodup) (hy : y ∈ l.dropLast) : y ≠ l.getLastD d := by
  induction l using List.reverseRecOn with
  | nil => simp at hy
  | append_singleton l x _ =>
    rw [dropLast_concat] at hy
    rw [getLastD_concat]
    rintro rfl
    exact (nodup_append.mp hl).2.2 y hy y (by simp) rfl

theorem ne_headD_of_mem_tail (hl : l.Nodup) (hy : y ∈ l.tail) : y ≠ l.headD d := by
  cases l with
  | nil => simp at hy
  | cons x l =>
    rintro rfl
    exact (nodup_cons.mp hl).1 hy

theorem getLastD_of_getLast? (h : l.getLast? = some y) : l.getLastD d = y := by
  rw [getLastD_eq_getLast?, h]
  rfl

theorem headD_of_head? (h : l.head? = some y) : l.headD d = y := by
  rw [headD_eq_head?_getD, h]
  rfl

variable {r : List ℕ} {a : ℕ}

section
variable {ι : Type} {head : ι → ℕ} {q : ι → List ℕ} {i : ι} {x : ℕ}

theorem Lists.ne_of_ne (h : Lists L head q) {j : ι} (hj : j ≠ i) (ha : a = head i ∨ a ∈ q i)
    (hy : y = head j ∨ y ∈ q j) :
    y ≠ a := by
  rintro rfl
  rcases ha with rfl | ha
  · rcases hy with hy | hy
    · exact hj (h.head_inj hy).symm
    · exact h.ne_head j _ hy i rfl
  rcases hy with rfl | hy
  · exact h.ne_head i _ ha j rfl
  · exact hj (h.apart j i _ hy ha)

/-! ## Insertion and removal -/

theorem IsList.splice {m0 m : List ℕ} (hold : IsList L h (l ++ m0 ++ r)) (hnd : (l ++ r).Nodup) (hh : h ∉ l ++ r)
    (hm : Seg L'.next L'.prev (l.getLastD 0) m (r.headD 0)) (hnl : L'.next (l.getLastD h) = (m ++ r).headD 0)
    (hpr : L'.prev (r.headD h) = (l ++ m).getLastD 0)
    (hn : ∀ y, y = h ∨ y ∈ l ++ r → y ≠ l.getLastD h → L'.next y = L.next y)
    (hp : ∀ y, y = h ∨ y ∈ l ++ r → y ≠ r.headD h → L'.prev y = L.prev y) : IsList L' h (l ++ m ++ r) := by
  obtain ⟨hfirst, hlast, hseg⟩ := hold
  rw [append_assoc, seg_append, seg_append] at hseg
  obtain ⟨hl, -, hr⟩ := hseg
  obtain ⟨hndl, hndr, hlr⟩ := nodup_append.mp hnd
  have hhl : h ∉ l := fun hc => hh (mem_append_left _ hc)
  have hhr : h ∉ r := fun hc => hh (mem_append_right _ hc)
  have hlast_ne : ∀ y ∈ r, y ≠ l.getLastD h := fun y hy hc => by
    rcases getLastD_or_mem l h with he | he
    · exact hhr (he ▸ hc ▸ hy)
    · exact hlr _ he y hy hc.symm
  have hhead_ne : ∀ y ∈ l, y ≠ r.headD h := fun y hy hc => by
    rcases headD_or_mem r h with he | he
    · exact hhl (he ▸ hc ▸ hy)
    · exact hlr y hy _ he hc
  refine ⟨?_, ?_, ?_⟩
  · cases l with
    | nil => exact hnl
    | cons z l =>
      have hne : h ≠ (z :: l).getLastD h := fun hc => hhl (by rw [hc]; exact getLastD_cons_mem z l h)
      rw [hn h (.inl rfl) hne, hfirst]
      rfl
  · cases r with
    | nil => rw [append_nil, ← hpr]; rfl
    | cons z r =>
      have hne : h ≠ z := fun hc => hhr (hc ▸ mem_cons_self)
      rw [hp h (.inl rfl) hne, hlast, getLastD_append (l ++ m0), getLastD_append (l ++ m), getLastD_cons, getLastD_cons]
  rw [append_assoc, seg_append, seg_append]
  refine ⟨hl.reend (fun y hy => ?_) (fun y hy => ?_) (fun y hy => ?_), hm,
    hr.rebase (fun y hy => ?_) (fun y hy => ?_) (fun y hy => ?_)⟩
  · exact hn y (.inr (mem_append_left _ (mem_of_mem_dropLast hy))) (ne_getLastD_of_mem_dropLast hndl hy)
  · rw [← getLastD_of_getLast? hy, hnl]
  · exact hp y (.inr (mem_append_left _ hy)) (hhead_ne y hy)
  · exact hn y (.inr (mem_append_right _ hy)) (hlast_ne y hy)
  · rw [← headD_of_head? hy, hpr, getLastD_append]
  · exact hp y (.inr (mem_append_right _ (mem_of_mem_tail hy))) (ne_headD_of_mem_tail hndr hy)

theorem Lists.replace [DecidableEq ι] (h : Lists L head q) {ys : List ℕ} (hys : IsList L' (head i) ys) (hnd : ys.Nodup)
    (hin : ∀ y ∈ ys, y ∈ q i ∨ y ≠ 0 ∧ (∀ j, y ≠ head j) ∧ ∀ j, y ∉ q j)
    (hframe : ∀ y, y ≠ head i → y ∉ q i → y ∉ ys → L'.next y = L.next y ∧ L'.prev y = L.prev y)
    (hout : ∀ y ∈ q i, y ∉ ys → L'.next y = 0 ∧ L'.prev y = 0) : Lists L' head (update q i ys) := by
  have hq : ∀ j, j ≠ i → update q i ys j = q j := fun j hj => update_of_ne hj _ _
  have hother : ∀ j, j ≠ i → ∀ y, y = head j ∨ y ∈ q j → y ≠ head i ∧ y ∉ q i ∧ y ∉ ys :=
    fun j hj y hy => ⟨h.ne_of_ne hj (.inl rfl) hy, fun hc => h.ne_of_ne hj (.inr hc) hy rfl, fun hc => by
      rcases hin y hc with hc | ⟨-, hc1, hc2⟩
      · exact h.ne_of_ne hj (.inr hc) hy rfl
      · exact hy.elim (hc1 j) (hc2 j)⟩
  have hmem : ∀ j, ∀ y ∈ update q i ys j, y ≠ 0 ∧ ∀ k, y ≠ head k := fun j y hy => by
    by_cases hj : j = i
    · rw [hj, update_self] at hy
      rcases hin y hy with hc | ⟨hc1, hc2, -⟩
      · exact ⟨h.ne_zero i y hc, h.ne_head i y hc⟩
      · exact ⟨hc1, hc2⟩
    · rw [hq j hj] at hy
      exact ⟨h.ne_zero j y hy, h.ne_head j y hy⟩
  refine ⟨fun j => ?_, h.head_inj, fun j => ?_, fun j k y hj hk => ?_, fun j y hy => (hmem j y hy).1,
    fun j y hy => (hmem j y hy).2, fun y hy hyh => ?_⟩
  · by_cases hj : j = i
    · rw [hj, update_self]
      exact hys
    rw [hq j hj]
    refine (h.isList j).congr (fun y hy => ?_) (fun y hy => ?_)
    · obtain ⟨h1, h2, h3⟩ := hother j hj y hy
      exact (hframe y h1 h2 h3).1
    obtain ⟨h1, h2, h3⟩ := hother j hj y hy
    exact (hframe y h1 h2 h3).2
  · by_cases hj : j = i
    · rw [hj, update_self]
      exact hnd
    rw [hq j hj]
    exact h.nodup j
  · by_cases hji : j = i
    · by_cases hki : k = i
      · rw [hji, hki]
      rw [hji, update_self] at hj
      rw [hq k hki] at hk
      exact absurd hj (hother k hki y (.inr hk)).2.2
    rw [hq j hji] at hj
    by_cases hki : k = i
    · rw [hki, update_self] at hk
      exact absurd hk (hother j hji y (.inr hj)).2.2
    rw [hq k hki] at hk
    exact h.apart j k y hj hk
  · have hys' : y ∉ ys := fun hc => hy i (by rw [update_self]; exact hc)
    by_cases hyi : y ∈ q i
    · exact hout y hyi hys'
    obtain ⟨h1, h2⟩ := hframe y (hyh i) hyi hys'
    rw [h1, h2]
    refine h.detached y (fun j hc => ?_) hyh
    by_cases hj : j = i
    · exact hyi (hj ▸ hc)
    · exact hy j (by rw [hq j hj]; exact hc)

def Links.insert (L : Links) (h x : ℕ) (l r : List ℕ) : Links where
  next := update (update L.next (l.getLastD h) x) x (r.headD 0)
  prev := update (update L.prev (r.headD h) x) x (l.getLastD 0)

def Links.remove (L : Links) (h x : ℕ) (l r : List ℕ) : Links where
  next := update (update L.next (l.getLastD h) (r.headD 0)) x 0
  prev := update (update L.prev (r.headD h) (l.getLastD 0)) x 0

theorem update_update_of_ne {f : ℕ → ℕ} {a u v z : ℕ} (hz : y ≠ z) (ha : y ≠ a) :
    update (update f a u) z v y = f y := by
  rw [update_of_ne hz, update_of_ne ha]

theorem getLastD_edge (l r : List ℕ) (d : ℕ) : l.getLastD d = d ∨ l.getLastD d ∈ l ++ r :=
  (getLastD_or_mem l d).imp_right (mem_append_left _)

theorem headD_edge (l r : List ℕ) (d : ℕ) : r.headD d = d ∨ r.headD d ∈ l ++ r :=
  (headD_or_mem r d).imp_right (mem_append_right _)

theorem Lists.insert [DecidableEq ι] (h : Lists L head q) (hq : q i = l ++ r) (hx : x ≠ 0)
    (hxh : ∀ j, x ≠ head j) (hxq : ∀ j, x ∉ q j) :
    Lists (L.insert (head i) x l r) head (update q i (l ++ [x] ++ r)) := by
  have hxlr : x ∉ l ++ r := hq ▸ hxq i
  have hnd : (l ++ r).Nodup := hq ▸ h.nodup i
  have hh : head i ∉ l ++ r := fun hc => h.ne_head i _ (hq ▸ hc) i rfl
  have hlist : IsList L (head i) (l ++ [] ++ r) := by
    rw [append_nil, ← hq]
    exact h.isList i
  have hne : ∀ y, y = head i ∨ y ∈ l ++ r → y ≠ x := by
    rintro y (rfl | hy) rfl
    · exact hxh i rfl
    · exact hxlr hy
  refine h.replace ?_ ?_ (fun y hy => ?_) (fun y h1 h2 h3 => ?_) (fun y hy hc => ?_)
  · refine hlist.splice hnd hh ⟨?_, ?_, trivial⟩ ?_ ?_ (fun y hy => update_update_of_ne (hne y hy))
      fun y hy => update_update_of_ne (hne y hy)
    · exact update_self ..
    · exact update_self ..
    · show update (update _ _ _) _ _ _ = _
      rw [update_of_ne (hne _ (getLastD_edge l r _)), update_self]
      rfl
    · show update (update _ _ _) _ _ _ = _
      rw [update_of_ne (hne _ (headD_edge l r _)), update_self, getLastD_concat]
  · rw [append_assoc]
    exact nodup_middle.mpr (nodup_cons.mpr ⟨hxlr, hnd⟩)
  · rcases mem_append.mp hy with hy | hy
    · rcases mem_append.mp hy with hy | hy
      · exact .inl (hq ▸ mem_append_left _ hy)
      rw [mem_singleton.mp hy]
      exact .inr ⟨hx, hxh, hxq⟩
    · exact .inl (hq ▸ mem_append_right _ hy)
  · have hyx : y ≠ x := fun hc => h3 (by simp [hc])
    have hedge : ∀ a, a = head i ∨ a ∈ l ++ r → y ≠ a := by
      rintro a (rfl | ha) rfl
      · exact h1 rfl
      · exact h2 (hq ▸ ha)
    exact ⟨update_update_of_ne hyx (hedge _ (getLastD_edge l r _)),
      update_update_of_ne hyx (hedge _ (headD_edge l r _))⟩
  · rw [hq, mem_append] at hy
    exact absurd (by simp only [mem_append]; tauto) hc

theorem Lists.remove [DecidableEq ι] (h : Lists L head q) (hq : q i = l ++ x :: r) :
    Lists (L.remove (head i) x l r) head (update q i (l ++ r)) := by
  have hlist := h.isList i
  have hnd := h.nodup i
  rw [hq] at hlist hnd
  obtain ⟨hxlr, hnd'⟩ := nodup_cons.mp (nodup_middle.mp hnd)
  have hmem : ∀ y ∈ l ++ r, y ∈ q i := fun y hy => by
    rw [hq]
    simp only [mem_append, mem_cons] at hy ⊢
    tauto
  have hh : head i ∉ l ++ r := fun hc => h.ne_head i _ (hmem _ hc) i rfl
  have hxq : x ∈ q i := by simp [hq]
  have hne : ∀ y, y = head i ∨ y ∈ l ++ r → y ≠ x := by
    rintro y (rfl | hy) rfl
    · exact h.ne_head i _ hxq i rfl
    · exact hxlr hy
  have hlist' : IsList L (head i) (l ++ [x] ++ r) := by simpa using hlist
  refine h.replace ?_ hnd' (fun y hy => .inl (hmem y hy)) (fun y h1 h2 h3 => ?_) (fun y hy hc => ?_)
  · have hnew : IsList (L.remove (head i) x l r) (head i) (l ++ [] ++ r) := by
      refine hlist'.splice hnd' hh trivial ?_ ?_ (fun y hy => update_update_of_ne (hne y hy))
        fun y hy => update_update_of_ne (hne y hy)
      · show update (update _ _ _) _ _ _ = _
        rw [update_of_ne (hne _ (getLastD_edge l r _)), update_self]
        rfl
      · show update (update _ _ _) _ _ _ = _
        rw [update_of_ne (hne _ (headD_edge l r _)), update_self, append_nil]
    rwa [append_nil] at hnew
  · have hyx : y ≠ x := fun hc => h2 (hc ▸ hxq)
    have hedge : ∀ a, a = head i ∨ a ∈ l ++ r → y ≠ a := by
      rintro a (rfl | ha) rfl
      · exact h1 rfl
      · exact h2 (hmem _ ha)
    exact ⟨update_update_of_ne hyx (hedge _ (getLastD_edge l r _)),
      update_update_of_ne hyx (hedge _ (headD_edge l r _))⟩
  · have hyx : y = x := by
      rw [hq] at hy
      simp only [mem_append, mem_cons] at hy hc
      tauto
    rw [hyx]
    exact ⟨update_self .., update_self ..⟩

omit x in
theorem update_eq_of_eq {f : ℕ → ℕ} {v : ℕ} (h : f a = v) : update f a v = f :=
  h ▸ update_eq_self a f

theorem Lists.headD_ne_zero (h : Lists L head q) (hq : q i ≠ []) : (q i).headD 0 ≠ 0 := by
  cases hc : q i with
  | nil => exact absurd hc hq
  | cons z l => exact h.ne_zero i z (by rw [hc]; exact mem_cons_self)

theorem Lists.getLastD_ne_zero (h : Lists L head q) (hq : q i ≠ []) : (q i).getLastD 0 ≠ 0 := by
  cases hc : q i with
  | nil => exact absurd hc hq
  | cons z l => exact h.ne_zero i _ (by rw [hc]; exact getLastD_cons_mem z l 0)

/-! ## What the operations do -/

theorem listAppend_eq (h : Lists L head q) (hxh : ∀ j, x ≠ head j) (hxq : ∀ j, x ∉ q j) :
    listAppend L (head i) x = .ok (L.insert (head i) x (q i) []) := by
  obtain ⟨hn, hp⟩ := h.detached x hxq hxh
  obtain ⟨hfirst, hlast, -⟩ := h.isList i
  have hxi : x ≠ head i := hxh i
  simp only [listAppend, ensure_of hn, ensure_of hp, bind, Except.bind]
  rcases eq_nil_or_concat (q i) with hq | ⟨l, z, hq⟩
  · have h1 : L.next (head i) = 0 := by rw [hfirst, hq]; rfl
    have h2 : L.prev (head i) = 0 := by rw [hlast, hq]; rfl
    have hn' : update L.next (head i) x x = 0 := by rw [update_of_ne hxi, hn]
    rw [if_pos h1, if_pos (show (L.setNext (head i) x).prev (head i) = 0 from h2), hq]
    refine congrArg Except.ok (Links.ext ?_ ?_)
    · exact (update_eq_of_eq hn').symm
    refine (update_eq_of_eq ?_).symm
    show update L.prev (head i) x x = 0
    rw [update_of_ne hxi, hp]
  rw [concat_eq_append] at hq
  have hne : q i ≠ [] := by simp [hq]
  have h1 : L.next (head i) ≠ 0 := hfirst ▸ h.headD_ne_zero hne
  have h2 : L.prev (head i) = z := by rw [hlast, hq, getLastD_concat]
  have h3 : L.prev (head i) ≠ 0 := hlast ▸ h.getLastD_ne_zero hne
  have hxz : x ≠ z := fun hc => hxq i (by simp [hq, hc])
  rw [if_neg h1, if_neg h3, h2, hq]
  refine congrArg Except.ok (Links.ext ?_ ?_)
  · show update L.next z x = update (update L.next _ x) x 0
    rw [getLastD_concat, update_eq_of_eq (show update L.next z x x = 0 by
      rw [update_of_ne hxz, hn])]
  show update (update L.prev x z) (head i) x = update (update L.prev (head i) x) x _
  rw [getLastD_concat, update_comm hxi]

theorem listAppend_spec [DecidableEq ι] (h : Lists L head q) (i : ι) (hx : x ≠ 0)
    (hxh : ∀ j, x ≠ head j) (hxq : ∀ j, x ∉ q j) :
    ∃ L', listAppend L (head i) x = .ok L' ∧ Lists L' head (update q i (q i ++ [x])) := by
  refine ⟨_, listAppend_eq h hxh hxq, ?_⟩
  have := h.insert (append_nil (q i)).symm hx hxh hxq
  rwa [append_nil] at this

theorem listFetch_eq (h : Lists L head q) (hq : q i = x :: r) :
    listFetch L (head i) = .ok (L.remove (head i) x [] r, x) := by
  obtain ⟨hfirst, hlast, hseg⟩ := h.isList i
  have hne : q i ≠ [] := by simp [hq]
  have hx : x ∈ q i := by simp [hq]
  have h1 : L.next (head i) = x := by rw [hfirst, hq]; rfl
  have h2 : L.prev (head i) ≠ 0 := hlast ▸ h.getLastD_ne_zero hne
  have hxi : x ≠ head i := h.ne_head i x hx i
  have hx0 : x ≠ 0 := h.ne_zero i x hx
  rw [hq] at hseg
  obtain ⟨hpx, hnx, -⟩ := hseg
  have hnx' : (L.setNext (head i) (L.next x)).next x = r.headD 0 := by
    show update L.next (head i) _ x = _
    rw [update_of_ne hxi, hnx]
  have hL2 : (if r.headD 0 = 0 then (L.setNext (head i) (L.next x)).setPrev (head i) 0
      else (L.setNext (head i) (L.next x)).setPrev (r.headD 0) 0) =
      (L.setNext (head i) (r.headD 0)).setPrev (r.headD (head i)) 0 := by
    cases r with
    | nil => rw [hnx]; rfl
    | cons y r =>
      have hy : y ≠ 0 := h.ne_zero i y (by simp [hq])
      rw [hnx]
      exact if_neg hy
  have hxr : x ≠ r.headD (head i) := fun hc => by
    rcases headD_or_mem r (head i) with he | he
    · exact hxi (hc.trans he)
    have := h.nodup i
    rw [hq, nodup_cons] at this
    exact this.1 (by rw [hc]; exact he)
  have hpx' : (((L.setNext (head i) (r.headD 0)).setPrev (r.headD (head i)) 0).setNext x 0).prev x = 0 := by
    show update L.prev _ 0 x = 0
    rw [update_of_ne hxr, hpx]
  rw [listFetch, h1, if_neg hx0]
  simp only [ensure_of h2, bind, Except.bind, hnx', hL2, ensure_of hpx']
  refine congrArg Except.ok (Prod.ext (Links.ext rfl ?_) rfl)
  exact (update_eq_of_eq hpx').symm

theorem listFetch_spec [DecidableEq ι] (h : Lists L head q) (hq : q i = x :: r) :
    ∃ L', listFetch L (head i) = .ok (L', x) ∧ Lists L' head (update q i r) :=
  ⟨_, listFetch_eq h hq, h.remove hq⟩

theorem listSearch_spec {b : ℕ} (hseg : Seg L.next L.prev b xs 0) (hpos : ∀ y ∈ xs, y ≠ 0) (x fuel : ℕ)
    (hfuel : xs.length < fuel ∨ x ∈ xs ∧ xs.length ≤ fuel) :
    listSearch L x fuel (xs.headD 0) = .ok (decide (x ∈ xs)) := by
  induction xs generalizing b fuel with
  | nil =>
    obtain ⟨fuel, rfl⟩ : ∃ k, fuel = k + 1 := ⟨fuel - 1, by simp at hfuel; omega⟩
    rfl
  | cons y xs ih =>
    rw [length_cons] at hfuel
    obtain ⟨fuel, rfl⟩ : ∃ k, fuel = k + 1 := ⟨fuel - 1, by omega⟩
    rw [listSearch, headD_cons, if_neg (hpos y mem_cons_self)]
    by_cases hy : y = x
    · simp [hy]
    have hmem : x ∈ y :: xs ↔ x ∈ xs := mem_cons.trans (or_iff_right (Ne.symm hy))
    rw [if_neg hy, hseg.2.1, ih hseg.2.2 (fun z hz => hpos z (mem_cons_of_mem _ hz)) fuel
      (hfuel.imp Nat.lt_of_succ_lt_succ (And.imp hmem.1 Nat.le_of_succ_le_succ)), decide_eq_decide.2 hmem]

theorem listDelete_eq (h : Lists L head q) (hq : q i = l ++ x :: r) (fuel : ℕ) (hfuel : (q i).length ≤ fuel) :
    listDelete L fuel (head i) x = .ok (L.remove (head i) x l r) := by
  obtain ⟨hfirst, hlast, hseg⟩ := h.isList i
  have hx : x ∈ q i := by simp [hq]
  have hxi : x ≠ head i := h.ne_head i x hx i
  have hnd := h.nodup i
  rw [hq] at hnd
  obtain ⟨hxlr, -⟩ := nodup_cons.mp (nodup_middle.mp hnd)
  have hsearch : listSearch L x fuel (L.next (head i)) = .ok true := by
    rw [hfirst, listSearch_spec hseg (h.ne_zero i) x fuel (.inr ⟨hx, hfuel⟩), decide_eq_true hx]
  rw [hq, seg_append] at hseg
  obtain ⟨-, hpx, hnx, -⟩ := hseg
  -- the links are read through the first and the last cell, so the ends are told apart here
  have hlast' : L.prev (head i) = x ↔ r = [] := by
    rw [hlast, hq, getLastD_append, getLastD_cons]
    refine ⟨fun hc => ?_, fun hc => by rw [hc]; rfl⟩
    cases r with
    | nil => rfl
    | cons y r =>
      have := getLastD_cons_mem y r x
      rw [hc] at this
      exact absurd (mem_append_right _ this) hxlr
  have hfirst' : L.next (head i) = x ↔ l = [] := by
    rw [hfirst, hq]
    refine ⟨fun hc => ?_, fun hc => by rw [hc]; rfl⟩
    cases l with
    | nil => rfl
    | cons y l => exact absurd (mem_append_left _ (hc ▸ mem_cons_self)) hxlr
  have hmem : ∀ y ∈ l ++ r, y ≠ 0 ∧ x ≠ y := fun y hy => by
    refine ⟨h.ne_zero i y ?_, fun hc => hxlr (hc ▸ hy)⟩
    rw [hq]
    simp only [mem_append, mem_cons] at hy ⊢
    tauto
  unfold listDelete
  rw [hsearch]
  simp only [bind, Except.bind, ensure_of]
  rcases eq_nil_or_concat l with rfl | ⟨l', z, hl⟩
  · have h1 : L.next (head i) = x := hfirst'.mpr rfl
    cases r with
    | nil =>
      have h2 : L.prev (head i) = x := hlast'.mpr rfl
      simp only [Links.setNext, Links.setPrev, Links.remove, h1, h2, hpx, hnx, if_true, headD_nil,
        getLastD_nil, ensure_of, update_of_ne hxi]
    | cons y r' =>
      have h2 : L.prev (head i) ≠ x := fun hc => by simpa using hlast'.mp hc
      obtain ⟨hy, hxy⟩ := hmem y (by simp)
      simp only [Links.setNext, Links.setPrev, Links.remove, h1, h2, hpx, hnx, if_true, if_false,
        headD_cons, getLastD_nil, ensure_of, update_of_ne hxi, hy,
        update_of_ne hxy]
  rw [concat_eq_append] at hl
  subst hl
  have h1 : L.next (head i) ≠ x := fun hc => by simpa using hfirst'.mp hc
  obtain ⟨hz, hxz⟩ := hmem z (by simp)
  cases r with
  | nil =>
    have h2 : L.prev (head i) = x := hlast'.mpr rfl
    simp only [Links.setNext, Links.setPrev, Links.remove, h1, h2, hpx, hnx, if_true, if_false,
      headD_nil, getLastD_concat, ensure_of, update_of_ne hxi, hz]
  | cons y r' =>
    have h2 : L.prev (head i) ≠ x := fun hc => by simpa using hlast'.mp hc
    obtain ⟨hy, hxy⟩ := hmem y (by simp)
    simp only [Links.setNext, Links.setPrev, Links.remove, h1, h2, hpx, hnx, if_false,
      headD_cons, getLastD_concat, update_of_ne hxy, hy, hz]

theorem listDelete_spec [DecidableEq ι] (h : Lists L head q) (hq : q i = l ++ x :: r) (fuel : ℕ)
    (hfuel : (q i).length ≤ fuel) :
    ∃ L', listDelete L fuel (head i) x = .ok L' ∧ Lists L' head (update q i (l ++ r)) :=
  ⟨_, listDelete_eq h hq fuel hfuel, h.remove hq⟩

theorem elementInList_spec (h : Lists L head q) (i : ι) (x : ℕ) {fuel : ℕ} (hfuel : (q i).length < fuel) :
    elementInList L fuel (head i) x = .ok (decide (x ∈ q i)) := by
  obtain ⟨hfirst, hlast, hseg⟩ := h.isList i
  rw [elementInList]
  split_ifs with hfast
  · refine congrArg Except.ok (decide_eq_false fun hx => ?_).symm
    obtain ⟨l, r, hq⟩ := append_of_mem hx
    rw [hq, seg_append] at hseg
    have hr : r = [] := by
      cases r with
      | nil => rfl
      | cons y r => exact absurd (hseg.2.2.1.symm.trans hfast.1) (h.ne_zero i y (by simp [hq]))
    refine hfast.2.2.2 (hlast.trans ?_)
    rw [hq, hr, getLastD_concat]
  · rw [hfirst, listSearch_spec hseg (h.ne_zero i) x fuel (.inl hfuel)]

theorem listPrepend_eq (h : Lists L head q) (hxh : ∀ j, x ≠ head j) (hxq : ∀ j, x ∉ q j) :
    listPrepend L (head i) x = .ok (L.insert (head i) x [] (q i)) := by
  obtain ⟨hn, hp⟩ := h.detached x hxq hxh
  obtain ⟨hfirst, hlast, -⟩ := h.isList i
  have hxi : x ≠ head i := hxh i
  simp only [listPrepend, ensure_of hn, ensure_of hp, bind, Except.bind]
  refine congrArg Except.ok ?_
  cases hq : q i with
  | nil =>
    rw [hq] at hfirst hlast
    rw [if_pos (show L.next (head i) = 0 from hfirst),
      if_pos (show (L.setNext (head i) x).prev (head i) = 0 from hlast)]
    refine Links.ext (update_eq_of_eq ?_).symm (update_eq_of_eq ?_).symm
    · exact (update_of_ne hxi ..).trans hn
    · exact (update_of_ne hxi ..).trans hp
  | cons y r =>
    have hy : y ≠ 0 := h.ne_zero i y (by simp [hq])
    have hyx : x ≠ y := fun hc => hxq i (by simp [hq, hc])
    have hyi : head i ≠ y := fun hc => h.ne_head i y (by simp [hq]) i hc.symm
    have hlast' : L.prev (head i) ≠ 0 := hlast ▸ h.getLastD_ne_zero (by simp [hq])
    rw [hq, headD_cons] at hfirst
    rw [hfirst, if_neg hy]
    refine (if_neg ?_).trans (Links.ext (update_comm hxi ..) (update_eq_of_eq ?_).symm)
    · show update L.prev y x (head i) ≠ 0
      rwa [update_of_ne hyi]
    · exact (update_of_ne hyx ..).trans hp

theorem listPop_eq (h : Lists L head q) (hq : q i = l ++ [x]) :
    listPop L (head i) = .ok (L.remove (head i) x l [], x) := by
  obtain ⟨hfirst, hlast, hseg⟩ := h.isList i
  have hfirst' : L.next (head i) ≠ 0 := hfirst ▸ h.headD_ne_zero (by simp [hq])
  have hx : x ∈ q i := by simp [hq]
  have hx0 : x ≠ 0 := h.ne_zero i x hx
  have hxi : x ≠ head i := h.ne_head i x hx i
  rw [hq, getLastD_concat] at hlast
  rw [hq, seg_append] at hseg
  obtain ⟨-, hpx, hnx, -⟩ := hseg
  have hpx' : (L.setPrev (head i) (L.prev x)).prev x = l.getLastD 0 := (update_of_ne hxi ..).trans hpx
  have hL2 : (if l.getLastD 0 = 0 then (L.setPrev (head i) (L.prev x)).setNext (head i) 0
      else (L.setPrev (head i) (L.prev x)).setNext (l.getLastD 0) 0) =
      (L.setPrev (head i) (l.getLastD 0)).setNext (l.getLastD (head i)) 0 := by
    rw [hpx]
    rcases eq_nil_or_concat l with rfl | ⟨l', z, rfl⟩
    · rfl
    have hz : z ≠ 0 := h.ne_zero i z (by simp [hq])
    simp only [concat_eq_append, getLastD_concat]
    exact if_neg hz
  have hxl : x ≠ l.getLastD (head i) := fun hc => by
    rcases getLastD_or_mem l (head i) with he | he
    · exact hxi (hc.trans he)
    have := h.nodup i
    rw [hq, nodup_append] at this
    exact this.2.2 _ he x (mem_singleton_self x) hc.symm
  have hnx' : (((L.setPrev (head i) (l.getLastD 0)).setNext (l.getLastD (head i)) 0).setPrev x 0).next x = 0 :=
    (update_of_ne hxl ..).trans hnx
  rw [listPop, if_neg hfirst', hlast]
  simp only [ensure_of hx0, bind, Except.bind, hpx', hL2, ensure_of hnx']
  exact congrArg Except.ok (Prod.ext (Links.ext (update_eq_of_eq hnx').symm rfl) rfl)

theorem listFetch_nil (h : Lists L head q) (hq : q i = []) : listFetch L (head i) = .ok (L, 0) := by
  rw [listFetch, if_pos]
  rw [(h.isList i).first, hq]
  rfl

end

end Machine
