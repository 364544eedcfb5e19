import ZeldaOS.Heap.Resize

/-!
# The heap operations

What `attach_heap_node`, `detach_heap_node` and `delete_heap_node` do to the level order.

* `attachHeapNode_spec`: attaching keeps the order.
* `detachHeapNode_spec`: detaching takes the first node.
* `deleteHeapNode_spec`: when deleting keeps the order.
-/

namespace ZeldaOS

open Machine Function

/-! ## Comparisons -/

/-- The comparison is that of a total preorder. -/
structure Orders (compare : ℕ → ℕ → ℤ) (le : ℕ → ℕ → Prop) : Prop where
  trans : ∀ x y z, le x y → le y z → le x z
  total : ∀ x y, le x y ∨ le y x
  lt_iff : ∀ x y, compare x y < 0 ↔ ¬ le y x

variable {compare : ℕ → ℕ → ℤ} {le : ℕ → ℕ → Prop}

theorem Orders.refl (ho : Orders compare le) (x : ℕ) : le x x :=
  (ho.total x x).elim id id

variable {x y : ℕ}

theorem Orders.le_of_lt (ho : Orders compare le) (h : compare x y < 0) : le x y :=
  (ho.total x y).resolve_right ((ho.lt_iff x y).mp h)

theorem Orders.le_of_not_lt (ho : Orders compare le) (h : ¬ compare x y < 0) : le y x :=
  not_not.mp fun hn => h ((ho.lt_iff x y).mpr hn)

variable {i j fuel : ℕ}

section
variable {h : Heap} {a : ℕ → ℕ} {n e : ℕ}

def pick (compare : ℕ → ℕ → ℤ) (a : ℕ → ℕ) (n i : ℕ) : ℕ :=
  let leftIsSmaller := 2 * i + 1 < n ∧ compare (a (2 * i + 1)) (a i) < 0
  let pivot := if leftIsSmaller then a (2 * i + 1) else a i
  if 2 * i + 2 < n ∧ compare (a (2 * i + 2)) pivot < 0 then 2 * i + 2
  else if leftIsSmaller then 2 * i + 1
  else n

theorem pick_cases (compare : ℕ → ℕ → ℤ) (a : ℕ → ℕ) (n i : ℕ) : (pick compare a n i = 2 * i + 2 ∧ 2 * i + 2 < n ∧
      (compare (a (2 * i + 1)) (a i) < 0 ∧ compare (a (2 * i + 2)) (a (2 * i + 1)) < 0 ∨
        ¬ compare (a (2 * i + 1)) (a i) < 0 ∧ compare (a (2 * i + 2)) (a i) < 0)) ∨
    (pick compare a n i = 2 * i + 1 ∧ 2 * i + 1 < n ∧ compare (a (2 * i + 1)) (a i) < 0 ∧
      (2 * i + 2 < n → ¬ compare (a (2 * i + 2)) (a (2 * i + 1)) < 0)) ∨
    (pick compare a n i = n ∧ (2 * i + 1 < n → ¬ compare (a (2 * i + 1)) (a i) < 0) ∧
      (2 * i + 2 < n → ¬ compare (a (2 * i + 2)) (a i) < 0)) := by
  unfold pick
  dsimp only
  split_ifs with hl hr hr
  · exact .inl ⟨rfl, hr.1, .inl ⟨hl.2, hr.2⟩⟩
  · exact .inr (.inl ⟨rfl, hl.1, hl.2, fun h2 hlt => hr ⟨h2, hlt⟩⟩)
  · exact .inl ⟨rfl, hr.1, .inr ⟨fun hlt => hl ⟨by omega, hlt⟩, hr.2⟩⟩
  · exact .inr (.inr ⟨rfl, fun h1 hlt => hl ⟨h1, hlt⟩, fun h2 hlt => hr ⟨h2, hlt⟩⟩)

theorem pick_child (hp : pick compare a n i ≠ n) :
    pick compare a n i < n ∧ 0 < pick compare a n i ∧ up (pick compare a n i) = i := by
  rcases pick_cases compare a n i with ⟨he, hlt, -⟩ | ⟨he, hlt, -⟩ | ⟨he, -⟩
  · exact ⟨by omega, by omega, (up_eq_iff (by omega)).mpr (.inr he)⟩
  · exact ⟨by omega, by omega, (up_eq_iff (by omega)).mpr (.inl he)⟩
  · exact absurd he hp

theorem smallerChild_spec (hc : Complete h a n e) (hi : i < n) :
    smallerChild compare h.nodes (a i) = .ok (a (pick compare a n i)) := by
  have hn : a n = 0 := hc.eq_zero n le_rfl
  rw [smallerChild, pick, hc.left i hi, hc.right i hi]
  simp only [ne_eq, hc.eq_zero_iff, not_le]
  by_cases h2 : 2 * i + 2 < n
  · have h1 : 2 * i + 1 < n := by omega
    by_cases hl : compare (a (2 * i + 1)) (a i) < 0
    · by_cases hr : compare (a (2 * i + 2)) (a (2 * i + 1)) < 0 <;>
        simp [h1, h2, hl, hr, bind, Except.bind]
    by_cases hr : compare (a (2 * i + 2)) (a i) < 0 <;>
      simp [h1, h2, hl, hr, hn, bind, Except.bind]
  · by_cases hl : 2 * i + 1 < n ∧ compare (a (2 * i + 1)) (a i) < 0 <;>
      simp [h2, hl, hn, bind, Except.bind]

section
variable (ho : Orders compare le)
include ho

theorem pick_none (hp : pick compare a n i = n) (h0 : 0 < j) (hj : j < n) (hji : up j = i) : le (a i) (a j) := by
  rcases pick_cases compare a n i with ⟨he, hlt, -⟩ | ⟨he, hlt, -⟩ | ⟨-, hl, hr⟩
  · omega
  · omega
  rcases (up_eq_iff h0).mp hji with rfl | rfl
  · exact ho.le_of_not_lt (hl hj)
  · exact ho.le_of_not_lt (hr hj)

theorem pick_some (hp : pick compare a n i ≠ n) : ¬ le (a i) (a (pick compare a n i)) ∧
      ∀ j, 0 < j → j < n → up j = i → le (a (pick compare a n i)) (a j) := by
  rcases pick_cases compare a n i with ⟨he, -, hcmp⟩ | ⟨he, -, hl, hr⟩ | ⟨he, -⟩
  · rw [he]
    rcases hcmp with ⟨hl, hr⟩ | ⟨hl, hr⟩
    · refine ⟨fun hle => (ho.lt_iff _ _).mp hl (ho.trans _ _ _ hle (ho.le_of_lt hr)), fun j h0 hj hji => ?_⟩
      rcases (up_eq_iff h0).mp hji with rfl | rfl
      · exact ho.le_of_lt hr
      · exact ho.refl _
    refine ⟨(ho.lt_iff _ _).mp hr, fun j h0 hj hji => ?_⟩
    rcases (up_eq_iff h0).mp hji with rfl | rfl
    · exact ho.trans _ _ _ (ho.le_of_lt hr) (ho.le_of_not_lt hl)
    · exact ho.refl _
  · rw [he]
    refine ⟨(ho.lt_iff _ _).mp hl, fun j h0 hj hji => ?_⟩
    rcases (up_eq_iff h0).mp hji with rfl | rfl
    · exact ho.refl _
    · exact ho.le_of_not_lt (hr hj)
  · exact absurd he hp

end

theorem swapNodes_child (hc : Complete h a n e) (hj : j < n) (hj0 : 0 < j) (hji : up j = i) :
    ∃ h', swapNodes h (a i) (a j) = .ok h' ∧ Complete h' (exchange a i j) n e ∧
      exchange a i j j = a i ∧ h'.nodes.parent (a i) = exchange a i j i ∧
      h'.nullStores = h.nullStores + if n ≤ 2 * i + 2 then 1 else 0 := by
  obtain ⟨h1, hswap, hc1, hnull⟩ := swapNodes_spec hc hj hj0 hji
  have hij : i < j := hji ▸ up_lt hj0
  have hxj : exchange a i j j = a i := by rw [exchange_apply, if_neg hij.ne', if_pos rfl]
  refine ⟨h1, hswap, hc1, hxj, ?_, hnull⟩
  rw [← hxj, hc1.parent j hj, if_neg hj0.ne', hji]

/-! ## Moving a node -/

variable (compare) in
theorem attachLoop_spec (hc : Complete h a n e) (hi : i < n) (hfuel : i + 1 < fuel) :
    ∃ h' a', attachLoop compare fuel h (a i) = .ok h' ∧ Complete h' a' n e ∧ Set.range a' = Set.range a ∧
      (h'.nullStores = h.nullStores + if pick compare a n i < n ∧ n ≤ 2 * i + 2 then 1 else 0) ∧
      ∀ le, Orders compare le → ∀ c, 0 < c → c < n → up c = i → OrderedUp le a n c → HeapOrdered le a' n := by
  induction fuel generalizing h a i with
  | zero => omega
  | succ fuel ih =>
    rw [attachLoop, if_neg (hc.ne_zero i hi), smallerChild_spec hc hi]
    simp only [bind, Except.bind]
    by_cases hp : pick compare a n i = n
    · rw [hp, if_pos (hc.eq_zero n le_rfl)]
      refine ⟨h, a, rfl, hc, rfl, ?_, fun le ho c h0 hcn hci hup => hup.heapOrdered fun _ _ => ?_⟩
      · rw [if_neg fun hlt => lt_irrefl n hlt.1, Nat.add_zero]
      rw [hci]
      exact pick_none ho hp h0 hcn hci
    obtain ⟨hj, hj0, hji⟩ := pick_child hp
    set j := pick compare a n i with hjdef
    obtain ⟨h1, hswap, hc1, -, hpar, hnull⟩ := swapNodes_child hc hj hj0 hji
    rw [if_neg (hc.ne_zero j hj), hswap]
    simp only [hpar, ensure_of (hc1.ne_zero i hi), hc1.parent i hi]
    have hnull' : h1.nullStores = h.nullStores + if j < n ∧ n ≤ 2 * i + 2 then 1 else 0 := by
      simp only [hnull, hj, true_and]
    -- the element that rises is the one that was picked
    have hrise : ∀ le, Orders compare le → ∀ c, 0 < c → c < n → up c = i → OrderedUp le a n c →
        OrderedUp le (exchange a i j) n i := fun le ho c h0 hcn hci hup => by
      have hcj : j = c := by
        by_contra hne
        have hoff := hup.off j hj0 hj hne
        rw [hji] at hoff
        exact (pick_some ho hp).1 hoff
      have hle := (ho.total _ _).resolve_right (pick_some ho hp).1
      subst hci
      rw [← hjdef, hcj] at hle
      rw [hcj]
      exact hup.exchange ho.trans h0 hcn hle
    by_cases hi0 : i = 0
    · obtain ⟨fuel, rfl⟩ := Nat.exists_eq_add_of_lt (by omega : 0 < fuel)
      rw [if_pos hi0]
      refine ⟨h1, _, rfl, hc1, range_exchange a i j, hnull', fun le ho c h0 hcn hci hup => ?_⟩
      exact (hrise le ho c h0 hcn hci hup).heapOrdered fun hpos => absurd hi0 hpos.ne'
    have hpos := Nat.pos_of_ne_zero hi0
    have hup := up_lt hpos
    rw [if_neg hi0]
    obtain ⟨h2, a2, hloop, hc2, hrange, hnull2, hord⟩ := ih hc1 (hup.trans hi) (by omega)
    -- above the first parent every node has two children
    have hboth : ¬n ≤ 2 * up i + 2 := by
      have := (up_eq_iff hpos).1 rfl
      have := (up_eq_iff hj0).1 hji
      omega
    refine ⟨h2, a2, hloop, hc2, hrange.trans (range_exchange a i j), ?_, fun le ho c h0 hcn hci hup' => ?_⟩
    · rw [hnull2, if_neg fun hlt => hboth hlt.2, Nat.add_zero, hnull']
    exact hord le ho i hpos hi rfl (hrise le ho c h0 hcn hci hup')

/-- `v`, in the place of the parent of position `c`, is exchanged with the node at `c`. -/
def Picked (compare : ℕ → ℕ → ℤ) (a : ℕ → ℕ) (n v c : ℕ) : Prop :=
  0 < c ∧ c < n ∧
    if c % 2 = 1 then compare (a c) v < 0 ∧ (c + 1 < n → ¬compare (a (c + 1)) (a c) < 0)
    else compare (a c) (if compare (a (c - 1)) v < 0 then a (c - 1) else v) < 0

/-- `v`, in the place of position `i`, sinks through exchanges to the last position. -/
inductive Sinks (compare : ℕ → ℕ → ℤ) (a : ℕ → ℕ) (n v : ℕ) : ℕ → Prop
  | last (h : Picked compare a n v (n - 1)) : Sinks compare a n v (up (n - 1))
  | step {c : ℕ} (h : Picked compare a n v c) (hs : Sinks compare a n v c) : Sinks compare a n v (up c)

theorem picked_iff (hj0 : 0 < j) (hj : j < n) : Picked compare a n (a (up j)) j ↔ pick compare a n (up j) = j := by
  have hside := (up_eq_iff hj0).1 rfl
  rw [Picked]
  set i := up j with hi
  rcases hside with hj1 | hj2
  · rw [if_pos (by omega), pick, hj1]
    split_ifs <;> grind
  · have hj1 : j - 1 = 2 * i + 1 := by omega
    rw [if_neg (by omega), hj1, pick, hj2]
    split_ifs <;> grind

theorem Picked.congr {a' : ℕ → ℕ} {v c : ℕ} (h : Picked compare a n v c) (heq : ∀ d, up c < d → d < n → a' d = a d) :
    Picked compare a' n v c := by
  obtain ⟨h0, hn, hcmp⟩ := h
  have hup : up c < c := up_lt h0
  refine ⟨h0, hn, ?_⟩
  rw [heq c hup hn]
  by_cases hodd : c % 2 = 1
  · rw [if_pos hodd] at hcmp ⊢
    exact ⟨hcmp.1, fun hlt => heq (c + 1) (by omega) hlt ▸ hcmp.2 hlt⟩
  · rw [if_neg hodd] at hcmp ⊢
    rwa [heq (c - 1) (by unfold up; omega) (by omega)]

theorem Sinks.child {v : ℕ} (h : Sinks compare a n v i) :
    ∃ c, Picked compare a n v c ∧ up c = i ∧ (c = n - 1 ∨ Sinks compare a n v c) := by
  cases h with
  | last h => exact ⟨_, h, rfl, .inl rfl⟩
  | step h hs => exact ⟨_, h, rfl, .inr hs⟩

theorem Sinks.congr {a' : ℕ → ℕ} {v : ℕ} (h : Sinks compare a n v i) (heq : ∀ d, i < d → d < n → a' d = a d) :
    Sinks compare a' n v i := by
  induction h with
  | last h => exact .last (h.congr heq)
  | step h hs ih => exact .step (h.congr heq) (ih fun d hd => heq d ((up_lt h.1).trans hd))

variable (compare) in
open Classical in
theorem adjustHeapNode_spec (hc : Complete h a n e) (hi : i < n) (fuel : ℕ) (hfuel : n - i < fuel) :
    ∃ h' a', adjustHeapNode compare fuel h (a i) = .ok h' ∧ Complete h' a' n e ∧ Set.range a' = Set.range a ∧
      (h'.nullStores = h.nullStores + if n % 2 = 0 ∧ Sinks compare a n (a i) i then 1 else 0) ∧
      ∀ le, Orders compare le → OrderedDown le a n i → HeapOrdered le a' n := by
  induction fuel generalizing h a i with
  | zero => omega
  | succ fuel ih =>
    rw [adjustHeapNode, if_neg (hc.ne_zero i hi), smallerChild_spec hc hi]
    simp only [bind, Except.bind]
    -- the child on the way to the last position is the one that is picked
    have hpicked : ∀ {c}, Picked compare a n (a i) c → up c = i → pick compare a n i = c := fun {c} hc hci => by
      subst hci
      exact (picked_iff hc.1 hc.2.1).1 hc
    by_cases hp : pick compare a n i = n
    · rw [hp, if_pos (hc.eq_zero n le_rfl)]
      refine ⟨h, a, rfl, hc, rfl, ?_, fun le ho hdown =>
        hdown.heapOrdered fun j h0 hj hji => pick_none ho hp h0 hj hji⟩
      rw [if_neg fun hlast => ?_, Nat.add_zero]
      obtain ⟨c, hc, hci, -⟩ := hlast.2.child
      exact hc.2.1.ne (hp ▸ hpicked hc hci).symm
    obtain ⟨hj, hj0, hji⟩ := pick_child hp
    set j := pick compare a n i with hjdef
    obtain ⟨h1, hswap, hc1, hxj, hpar, hnull⟩ := swapNodes_child hc hj hj0 hji
    have hij : i < j := hji ▸ up_lt hj0
    have hside := (up_eq_iff hj0).1 hji
    obtain ⟨h2, a2, hloop, hc2, hrange, hnull2, hord⟩ := ih hc1 hj (by omega)
    rw [hxj] at hloop hnull2
    rw [if_neg (hc.ne_zero j hj), hswap]
    simp only [hpar, ensure_of (hc1.ne_zero i hi)]
    refine ⟨h2, a2, hloop, hc2, hrange.trans (range_exchange a i j), ?_, fun le ho hdown => ?_⟩
    · have hthere : Picked compare a n (a i) j := hji ▸ (picked_iff hj0 hj).2 (hji.symm ▸ hjdef.symm)
      have hsame : ∀ d, j < d → d < n → exchange a i j d = a d := fun d hd _ => by
        rw [exchange_apply, if_neg (by omega), if_neg (by omega)]
      have hiff : Sinks compare a n (a i) i ↔ j = n - 1 ∨ Sinks compare (exchange a i j) n (a i) j := by
        refine ⟨fun hs => ?_, fun hs => ?_⟩
        · obtain ⟨c, hc, hci, hs⟩ := hs.child
          obtain rfl : j = c := hpicked hc hci
          exact hs.imp_right fun hs => hs.congr hsame
        rcases hs with hlast | hs
        · have hs := Sinks.last (hlast ▸ hthere)
          rwa [← hlast, hji] at hs
        · have hs := Sinks.step hthere (hs.congr fun d hd hdn => (hsame d hd hdn).symm)
          rwa [hji] at hs
      rw [hnull2, hnull, hiff]
      by_cases honly : n ≤ 2 * i + 2
      · -- `a i` is exchanged with an only child, and the loop ends
        rw [if_pos honly, if_neg fun h => ?_, if_pos ⟨by omega, .inl (by omega)⟩]
        obtain ⟨c, hc, hcj, -⟩ := h.2.child
        have := (up_eq_iff hc.1).1 hcj
        have := hc.2.1
        omega
      · rw [if_neg honly, Nat.add_zero]
        have hboth : n % 2 = 0 → (j = n - 1 ∨ Sinks compare (exchange a i j) n (a i) j ↔
            Sinks compare (exchange a i j) n (a i) j) := fun heven => or_iff_right (by omega)
        simp only [and_congr_right hboth]
    have hle := (ho.total _ _).resolve_right (pick_some ho hp).1
    exact hord le ho (hdown.exchange hj0 hj hji hle (pick_some ho hp).2)

/-! ## The operations -/

def members (a : ℕ → ℕ) : Set ℕ := Set.range a \ {0}

theorem Complete.mem_members (hc : Complete h a n e) : x ∈ members a ↔ ∃ i < n, a i = x := by
  refine ⟨fun ⟨⟨i, hi⟩, hx⟩ => ⟨i, ?_, hi⟩, fun ⟨i, hi, he⟩ => ⟨⟨i, he⟩, ?_⟩⟩
  · by_contra hn
    exact hx (hi ▸ hc.eq_zero i (not_lt.mp hn))
  rw [← he]
  exact hc.ne_zero i hi

theorem Complete.notMem_members (hc : Complete h a n e) : x ∉ members a ↔ ∀ i < n, a i ≠ x := by
  rw [hc.mem_members]
  push Not
  rfl

theorem Complete.notMem_of_detached (hc : Complete h a n e) {t : ℕ} (hd : h.Detached t) : t ∉ members a := by
  obtain ⟨⟨hp, -⟩, hroot⟩ := hd
  intro ht
  obtain ⟨i, hi, rfl⟩ := hc.mem_members.mp ht
  by_cases h0 : i = 0
  · exact hroot (h0 ▸ hc.root)
  rw [hc.parent i hi, if_neg h0] at hp
  exact hc.ne_zero _ ((up_lt (Nat.pos_of_ne_zero h0)).trans hi) hp

theorem members_append (hc : Complete h a n e) (hx : x ≠ 0) : members (update a n x) = insert x (members a) := by
  ext y
  have hn := hc.eq_zero n le_rfl
  simp only [members, Set.mem_sdiff, Set.mem_range, Set.mem_singleton_iff, Set.mem_insert_iff, update_apply]
  constructor
  · rintro ⟨⟨i, hi⟩, hy⟩
    split_ifs at hi
    · exact .inl hi.symm
    · exact .inr ⟨⟨i, hi⟩, hy⟩
  rintro (rfl | ⟨⟨i, hi⟩, hy⟩)
  · exact ⟨⟨n, if_pos rfl⟩, hx⟩
  refine ⟨⟨i, ?_⟩, hy⟩
  rw [if_neg fun he => hy (by rw [← hi, he, hn]), hi]

variable (compare) in
/-- **A detached node is attached: the heap has one node more and stays in order.** -/
theorem attachHeapNode_spec (hc : Complete h a n 0) (hx0 : x ≠ 0) (hx : x ∉ members a) :
    ∃ h' a', attachHeapNode compare h x = .ok h' ∧ Complete h' a' (n + 1) 0 ∧ members a' = insert x (members a) ∧
      (h'.nullStores = h.nullStores + if n % 2 = 1 ∧ compare x (a (up n)) < 0 then 1 else 0) ∧
      ∀ le, Orders compare le → HeapOrdered le a n → HeapOrdered le a' (n + 1) := by
  have hout := hc.notMem_members.mp hx
  obtain ⟨hp, hl, hr⟩ := hc.apart x hx0 hx0 hout
  have hbound := hc.bound
  rw [attachHeapNode, ensure_of hp, ensure_of hl, ensure_of hr, searchLastParent_spec hc]
  simp only [bind, Except.bind]
  by_cases hn : n = 0
  · have hroot : h.root = 0 := hc.root.trans (hc.eq_zero 0 hn.le)
    rw [if_pos hn, if_pos rfl, ensure_of hroot]
    refine ⟨_, _, rfl, hc.grown hx0 hout (if_pos hn.symm).symm (hp.trans (if_pos hn).symm) hl hr
      (fun k hk => ?_) (fun k hk => ?_) (fun _ _ => rfl) (fun _ _ _ => ⟨rfl, rfl, rfl⟩)
      (Nat.lt_succ_of_le hbound), members_append hc hx0, ?_, fun le _ _ i h0 hi => ?_⟩
    · omega
    · omega
    · rw [if_neg fun h => absurd h.1 (by omega)]
      rfl
    · omega
  have hpos := Nat.pos_of_ne_zero hn
  have hup := up_lt hpos
  have hupn : up n = (n - 1) / 2 := rfl
  have hc1 := placeNode_spec hc hpos hx0 hout
  have hlast : update a n x (up n) = a (up n) := update_of_ne hup.ne _ _
  have hfuel : up n + 1 < h.attached + 1 + 2 := by omega
  obtain ⟨h₂, a2, hloop, hc2, hrange, hnull, hord⟩ :=
    attachLoop_spec compare hc1 (hup.trans (Nat.lt_succ_self n)) hfuel
  rw [hlast] at hloop
  rw [if_neg hn, if_neg (hc.ne_zero _ hup), ensure_of ((hc.right _ hup).trans (hc.eq_zero _ (by omega)))]
  refine ⟨h₂, a2, hloop, hc2, ?_, ?_, fun le ho hle => ?_⟩
  · rw [← members_append hc hx0, members, members, hrange]
  · rw [hnull]
    have hiff : pick compare (update a n x) (n + 1) (up n) < n + 1 ∧ n + 1 ≤ 2 * up n + 2 ↔
        n % 2 = 1 ∧ compare x (a (up n)) < 0 := by
      refine ⟨fun hchild => ?_, fun hswap => ⟨?_, by omega⟩⟩
      · have hn1 : 2 * up n + 1 = n := by omega
        rcases pick_cases compare (update a n x) (n + 1) (up n) with ⟨-, h2, -⟩ | ⟨-, -, hcmp, -⟩ | ⟨he, -⟩
        · omega
        · rw [hn1, update_self, hlast] at hcmp
          exact ⟨by omega, hcmp⟩
        · omega
      · have hn1 : 2 * up n + 1 = n := by omega
        rw [pick, hn1, update_self, hlast, if_neg fun h => absurd h.1 (by omega), if_pos ⟨n.lt_succ_self, hswap.2⟩]
        exact Nat.lt_succ_self n
    simp only [hiff]
  · exact hord le ho n hpos (Nat.lt_succ_self n) rfl (orderedUp_append hle x)

theorem members_moveLast (hc : Complete h a (n + 1) e) (hi : i ≤ n) :
    members (moveLast a i n 0) = members a \ {a i} := by
  ext y
  have hlt : ∀ k, a k = y → y ≠ 0 → k < n + 1 := fun k hk hy => by
    by_contra hn
    exact hy (hk ▸ hc.eq_zero k (not_lt.mp hn))
  simp only [members, Set.mem_sdiff, Set.mem_range, Set.mem_singleton_iff, moveLast_apply]
  constructor
  · rintro ⟨⟨k, hk⟩, hy⟩
    split_ifs at hk with hkn hki
    · exact absurd hk.symm hy
    · refine ⟨⟨⟨n, hk⟩, hy⟩, fun he => hkn ?_⟩
      rw [hki]
      exact hc.inj i (by omega) n (by omega) (he.symm.trans hk.symm)
    · exact ⟨⟨⟨k, hk⟩, hy⟩, fun he => hki (hc.inj k (hlt k hk hy) i (by omega) (hk.trans he))⟩
  · rintro ⟨⟨⟨k, hk⟩, hy⟩, hne⟩
    have hki : k ≠ i := fun he => hne (by rw [← hk, he])
    by_cases hkn : k = n
    · have hin : i ≠ n := fun he => hki (hkn.trans he.symm)
      exact ⟨⟨i, by rw [if_neg hin, if_pos rfl, ← hkn, hk]⟩, hy⟩
    · exact ⟨⟨k, by rw [if_neg hkn, if_neg hki, hk]⟩, hy⟩

theorem update_update_eq_moveLast (a : ℕ → ℕ) (hi : i ≠ n) : update (update a n 0) i (a n) = moveLast a i n 0 :=
  update_comm hi.symm _ _ _

theorem sinks_moveLast {v : ℕ} : Sinks compare (moveLast a i n 0) n v i ↔ Sinks compare a n v i := by
  have hsame : ∀ d, i < d → d < n → moveLast a i n 0 d = a d := fun d hd hdn => by
    rw [moveLast_apply, if_neg hdn.ne, if_neg hd.ne']
  exact ⟨fun h => h.congr fun d hd hdn => (hsame d hd hdn).symm, fun h => h.congr hsame⟩

theorem not_sinks {v : ℕ} (hi : n ≤ i + 1) : ¬Sinks compare a n v i := fun hs => by
  obtain ⟨c, hc, hci, -⟩ := hs.child
  have := up_lt hc.1
  have := hc.2.1
  omega

variable (compare) in
open Classical in
/-- **The root is detached: the heap loses it and stays in order.** -/
theorem detachHeapNode_spec (hc : Complete h a (n + 1) 0) :
    ∃ h' a', detachHeapNode compare h = .ok (h', a 0) ∧ Complete h' a' n 0 ∧ members a' = members a \ {a 0} ∧
      (h'.nullStores = h.nullStores + if n % 2 = 0 ∧ Sinks compare a n (a n) 0 then 1 else 0) ∧
      ∀ le, Orders compare le → HeapOrdered le a (n + 1) → HeapOrdered le a' n := by
  have hn := Nat.lt_succ_self n
  have hroot : h.root ≠ 0 := hc.root ▸ hc.ne_zero 0 (Nat.succ_pos n)
  obtain ⟨h1, hcut, hc1, hnull1⟩ := cutLastNode_spec hc
  rw [detachHeapNode, if_neg hroot, searchLastNode_spec hc (Nat.succ_pos n), Nat.add_sub_cancel]
  simp only [bind, Except.bind, ensure_of (hc.ne_zero n hn), ensure_of hc.last_leaf, hcut]
  by_cases h0 : n = 0
  · subst h0
    have hroot1 : h1.root = 0 := hc1.root.trans (hc1.eq_zero 0 le_rfl)
    have hmem := members_moveLast hc le_rfl
    rw [moveLast, update_idem] at hmem
    refine ⟨h1, _, ?_, hc1, hmem, ?_, fun le _ _ i h0 hi => absurd hi (by omega)⟩
    · rw [if_pos hroot1, hroot1]
      rfl
    · rw [hnull1, if_neg fun h => not_sinks (Nat.zero_le _) h.2, Nat.add_zero]
  have hpos := Nat.pos_of_ne_zero h0
  have hroot1 : h1.root = a 0 := hc1.root.trans (update_of_ne hpos.ne _ _)
  obtain ⟨h2, hrep, hc2, hnull2⟩ := replaceRoot_spec hc1 hpos (hc.ne_zero n hn) fun k hk he => by
    rw [update_of_ne hk.ne] at he
    exact hk.ne (hc.inj k (by omega) n hn he)
  rw [update_update_eq_moveLast a hpos.ne] at hc2
  have hbound := hc2.bound
  obtain ⟨h3, a3, hadj, hc3, hrange, hnull3, hord⟩ := adjustHeapNode_spec compare hc2 hpos
    h2.fuel (by unfold Heap.fuel; omega)
  rw [if_neg (hroot1 ▸ hc.ne_zero 0 (Nat.succ_pos n)), hrep]
  simp only [hc2.root, hadj, hroot1]
  refine ⟨h3, a3, rfl, hc3, ?_, ?_, fun le ho hle => hord le ho ?_⟩
  · rw [← members_moveLast hc (Nat.zero_le n), members, members, hrange]
  · rw [hnull3, hnull2, hnull1, sinks_moveLast, moveLast_apply, if_neg hpos.ne, if_pos rfl]
  · exact orderedDown_moveLast ho.trans hle hpos (fun h => absurd h (lt_irrefl 0)) 0

theorem rootOf_spec (hc : Complete h a n e) (hi : i < n) (hfuel : i < fuel) :
    rootOf h.nodes fuel (a i) = .ok (a 0) := by
  induction fuel generalizing i with
  | zero => omega
  | succ fuel ih =>
    rw [rootOf, hc.parent i hi]
    by_cases h0 : i = 0
    · rw [if_pos (.inr (if_pos h0)), h0]
    have hup := up_lt (Nat.pos_of_ne_zero h0)
    have hne := hc.ne_zero _ (hup.trans hi)
    rw [if_neg h0, if_neg (not_or.mpr ⟨hc.ne_zero i hi, hne⟩)]
    exact ih (hup.trans hi) (by omega)

variable (compare) in
theorem deleteHeapNode_detached (hc : Complete h a n 0) (hx : x ∉ members a) : deleteHeapNode compare h x = .ok h := by
  have hroot : rootOf h.nodes h.fuel x = .ok x := by
    rw [Heap.fuel, rootOf]
    by_cases hx0 : x = 0
    · rw [if_pos (.inl hx0)]
    · rw [if_pos (.inr (hc.apart x hx0 hx0 (hc.notMem_members.mp hx)).1)]
  rw [deleteHeapNode, hroot]
  simp only [bind, Except.bind]
  rw [if_pos]
  by_cases h0 : h.root = 0
  · exact .inl h0
  refine .inr fun he => hx ⟨⟨0, hc.root.symm.trans he⟩, ?_⟩
  rw [← he]
  exact h0

variable (compare) in
open Classical in
/-- **A deleted node leaves the order if the last node, in its place, is not before its parent.** -/
theorem deleteHeapNode_spec (hc : Complete h a (n + 1) 0) (hi : i ≤ n) :
    ∃ h' a', deleteHeapNode compare h (a i) = .ok h' ∧ Complete h' a' n 0 ∧ members a' = members a \ {a i} ∧
      (h'.nullStores = h.nullStores + if n % 2 = 0 ∧ Sinks compare a n (a n) i then 1 else 0) ∧
      ∀ le, Orders compare le → HeapOrdered le a (n + 1) →
        (0 < i → i < n → le (a (up i)) (a n)) → HeapOrdered le a' n := by
  have hn := Nat.lt_succ_self n
  have hbound := hc.bound
  have hroot : h.root ≠ 0 := hc.root ▸ hc.ne_zero 0 (Nat.succ_pos n)
  have htop : rootOf h.nodes h.fuel (a i) = .ok (a 0) :=
    rootOf_spec hc (by omega) (by unfold Heap.fuel; omega)
  obtain ⟨h1, hcut, hc1, hnull1⟩ := cutLastNode_spec hc
  rw [deleteHeapNode, htop]
  simp only [bind, Except.bind]
  rw [if_neg (not_or.mpr ⟨hroot, not_not.mpr hc.root⟩), searchLastNode_spec hc (Nat.succ_pos n), Nat.add_sub_cancel]
  simp only [ensure_of (hc.ne_zero n hn), ensure_of hc.last_leaf, hcut]
  have hout : ∀ k < n, update a n 0 k ≠ a n := fun k hk he => by
    rw [update_of_ne hk.ne] at he
    exact hk.ne (hc.inj k (by omega) n hn he)
  rcases hi.eq_or_lt with rfl | hi
  · have hmem := members_moveLast hc le_rfl
    rw [moveLast, update_idem] at hmem
    rw [if_neg fun hne => hne.2 rfl, ensure_of rfl]
    refine ⟨_, _, rfl, (hc1.weaken (a i)).clear hout, hmem, ?_, fun le _ hle _ j h0 hj => ?_⟩
    · rw [if_neg fun h => not_sinks (Nat.le_succ _) h.2, Nat.add_zero]
      exact hnull1
    have hup := up_lt h0
    rw [update_of_ne hj.ne, update_of_ne (hup.trans hj).ne]
    exact hle j h0 (by omega)
  have hroot1 : h1.root ≠ 0 := by
    rw [hc1.root, update_of_ne (by omega)]
    exact hc.ne_zero 0 (Nat.succ_pos n)
  have hne : a i ≠ a n := fun he => hi.ne (hc.inj i (by omega) n hn he)
  obtain ⟨h2, hrep, hc2, hnull2⟩ := replaceNode_spec hc1 hi (hc.ne_zero n hn) hout
  rw [update_update_eq_moveLast a hi.ne] at hc2
  rw [update_of_ne hi.ne] at hrep hc2
  have hlast : moveLast a i n 0 i = a n := by rw [moveLast_apply, if_neg hi.ne, if_pos rfl]
  have hbound2 := hc2.bound
  obtain ⟨h3, a3, hadj, hc3, hrange, hnull3, hord⟩ := adjustHeapNode_spec compare hc2 hi h2.fuel
    (by unfold Heap.fuel; omega)
  have hmem : members a3 = members a \ {a i} := by
    rw [← members_moveLast hc hi.le, members, members, hrange]
  rw [hlast] at hadj hnull3
  rw [sinks_moveLast] at hnull3
  rw [if_pos ⟨hroot1, hne⟩, hrep]
  simp only [hadj]
  refine ⟨_, a3, rfl, hc3.clear (hc3.notMem_members.mp ?_), hmem, ?_, fun le ho hle hpar => ?_⟩
  · rw [hmem]
    exact fun hx => hx.2 rfl
  · rw [← hnull1, ← hnull2]
    exact hnull3
  · exact hord le ho (orderedDown_moveLast ho.trans hle hi (fun h0 => hpar h0 hi) 0)

end

end ZeldaOS
