import ZeldaOS.Heap.Model
import ZeldaOS.Machine.LevelOrder

/-!
# The heap as a level order

The nodes of a heap in breadth first order, under the stores of `lib/heap_sort.c`.

* `searchLastNode_spec`: the search ends at the last node.
* `swapNodes_spec`: an exchange with the parent.
-/

namespace ZeldaOS

open Machine List Function

/-! ## The level order -/

/-- The nodes of the heap level by level, `0` behind the last one. -/
structure Complete (h : Heap) (a : ℕ → ℕ) (n e : ℕ) : Prop where
  ne_zero : ∀ i < n, a i ≠ 0
  eq_zero : ∀ i, n ≤ i → a i = 0
  inj : ∀ i < n, ∀ j < n, a i = a j → i = j
  root : h.root = a 0
  left : ∀ i < n, h.nodes.left (a i) = a (2 * i + 1)
  right : ∀ i < n, h.nodes.right (a i) = a (2 * i + 2)
  parent : ∀ i < n, h.nodes.parent (a i) = if i = 0 then 0 else a (up i)
  apart : ∀ x, x ≠ 0 → x ≠ e → (∀ i < n, a i ≠ x) → h.nodes.Detached x
  bound : n ≤ h.attached

variable {i j k fuel : ℕ} {t : Nodes}

section
variable {h : Heap} {a : ℕ → ℕ} {n e : ℕ}

theorem Complete.eq_iff (hc : Complete h a n e) (hi : i < n) (hj : j < n) : a i = a j ↔ i = j :=
  ⟨hc.inj i hi j hj, congrArg a⟩

theorem Complete.eq_zero_iff (hc : Complete h a n e) : a i = 0 ↔ n ≤ i :=
  ⟨fun h0 => not_lt.mp fun hi => hc.ne_zero i hi h0, hc.eq_zero i⟩

/-! ## Searches -/

def levelQueue (a : ℕ → ℕ) (n k : ℕ) : List ℕ := (List.range' k (min (2 * k + 1) n - k)).map a

theorem levelQueue_self (a : ℕ → ℕ) (n : ℕ) : levelQueue a n n = [] := by
  have h0 : min (2 * n + 1) n - n = 0 := by omega
  rw [levelQueue, h0]
  rfl

theorem levelQueue_zero (a : ℕ → ℕ) (hn : 0 < n) : levelQueue a n 0 = [a 0] := by
  have h1 : min (2 * 0 + 1) n - 0 = 1 := by omega
  rw [levelQueue, h1]
  rfl

theorem levelQueue_cons (hk : k < n) :
    levelQueue a n k = a k :: (List.range' (k + 1) (min (2 * k + 1) n - (k + 1))).map a := by
  have hlen : min (2 * k + 1) n - k = (min (2 * k + 1) n - (k + 1)) + 1 := by omega
  rw [levelQueue, hlen, range'_succ, map_cons]

section
variable (hc : Complete h a n e)
include hc

theorem enqueueChildren_level (hk : k < n) :
    enqueueChildren h.nodes (a k) ((List.range' (k + 1) (min (2 * k + 1) n - (k + 1))).map a) =
      levelQueue a n (k + 1) := by
  rw [enqueueChildren, hc.left k hk, hc.right k hk, levelQueue]
  simp only [ne_eq, hc.eq_zero_iff]
  by_cases h2 : 2 * k + 2 < n
  · have hlen : min (2 * (k + 1) + 1) n - (k + 1) = (min (2 * k + 1) n - (k + 1)) + 1 + 1 := by omega
    have hfst : k + 1 + (min (2 * k + 1) n - (k + 1)) = 2 * k + 1 := by omega
    rw [if_pos (by omega), if_pos (by omega), hlen, range'_concat, range'_concat]
    simp only [map_append, map_cons, map_nil, one_mul, ← add_assoc, hfst]
  rw [if_neg (by omega)]
  by_cases h1 : 2 * k + 1 < n
  · have hlen : min (2 * (k + 1) + 1) n - (k + 1) = (min (2 * k + 1) n - (k + 1)) + 1 := by omega
    have hfst : k + 1 + (min (2 * k + 1) n - (k + 1)) = 2 * k + 1 := by omega
    rw [if_pos (by omega), hlen, range'_concat]
    simp only [map_append, map_cons, map_nil, one_mul, hfst]
  · have hlen : min (2 * (k + 1) + 1) n - (k + 1) = min (2 * k + 1) n - (k + 1) := by omega
    rw [if_neg (by omega), hlen]

theorem lastNodeLoop_spec (target : ℕ) (hk : k ≤ n) (hfuel : n - k < fuel) :
    lastNodeLoop h.nodes fuel (levelQueue a n k) target = .ok (if k = n then target else a (n - 1)) := by
  induction fuel generalizing k target with
  | zero => omega
  | succ fuel ih =>
    by_cases hkn : k = n
    · rw [hkn, levelQueue_self, if_pos rfl]
      rfl
    have hlt : k < n := by omega
    rw [levelQueue_cons hlt, lastNodeLoop, enqueueChildren_level hc hlt, ih (a k) (by omega) (by omega), if_neg hkn]
    by_cases hlast : k + 1 = n
    · rw [if_pos hlast, ← hlast, Nat.add_sub_cancel]
    · rw [if_neg hlast]

theorem searchLastNode_spec (hn : 0 < n) :
    searchLastNode h.nodes h.fuel h.root = .ok (a (n - 1)) := by
  have hfuel : n - 0 < h.fuel := by
    have := hc.bound
    unfold Heap.fuel
    omega
  have hloop := lastNodeLoop_spec hc 0 (Nat.zero_le n) hfuel
  rw [levelQueue_zero a hn, if_neg hn.ne] at hloop
  have hlast : n - 1 < n := by omega
  rw [searchLastNode, hc.root, if_neg (hc.ne_zero 0 hn), hloop]
  have hl : h.nodes.left (a (n - 1)) = 0 := (hc.left _ hlast).trans (hc.eq_zero _ (by omega))
  have hr : h.nodes.right (a (n - 1)) = 0 := (hc.right _ hlast).trans (hc.eq_zero _ (by omega))
  simp only [bind, Except.bind, ensure_of (hc.ne_zero _ hlast), ensure_of hl, ensure_of hr]

theorem lastParentLoop_spec (hn : 0 < n) (hk : k ≤ up n) (hfuel : up n - k < fuel) :
    lastParentLoop h.nodes fuel (levelQueue a n k) = .ok (a (up n)) := by
  have hupn : up n = (n - 1) / 2 := rfl
  induction fuel generalizing k with
  | zero => omega
  | succ fuel ih =>
    have hlt : k < n := by omega
    rw [levelQueue_cons hlt, lastParentLoop, hc.left k hlt, hc.right k hlt]
    simp only [ne_eq, hc.eq_zero_iff]
    by_cases hkup : k = up n
    · rw [if_pos (by omega), ensure_of (by omega), hkup]
      rfl
    · rw [if_neg (by omega), enqueueChildren_level hc hlt, ih (by omega) (by omega)]

theorem searchLastParent_spec :
    searchLastParent h.nodes h.fuel h.root = .ok (if n = 0 then 0 else a (up n)) := by
  by_cases hn : n = 0
  · have hroot : h.root = 0 := hc.root.trans (hc.eq_zero 0 hn.le)
    rw [searchLastParent, if_pos hroot, if_pos hn]
  have hpos : 0 < n := Nat.pos_of_ne_zero hn
  have hup := up_lt hpos
  have hupn : up n = (n - 1) / 2 := rfl
  have hfuel : up n - 0 < h.fuel := by
    have := hc.bound
    unfold Heap.fuel
    omega
  have hloop := lastParentLoop_spec hc hpos (Nat.zero_le _) hfuel
  rw [levelQueue_zero a hpos] at hloop
  have hr : h.nodes.right (a (up n)) = 0 := (hc.right _ hup).trans (hc.eq_zero _ (by omega))
  rw [searchLastParent, hc.root, if_neg (hc.ne_zero 0 hpos), hloop, if_neg hn]
  simp only [bind, Except.bind, ensure_of fun _ : a (up n) ≠ 0 => hr]

theorem Complete.update_apply {f : ℕ → ℕ} (hi : i < n) (hj : j < n) (v : ℕ) :
    update f (a j) v (a i) = if i = j then v else f (a i) := by
  simp only [Function.update_apply, hc.eq_iff hi hj]

theorem Complete.adopt_parent (t : Nodes) (hi : i < n) (m v : ℕ) :
    (adopt t (a m) v).parent (a i) = if i = m then v else t.parent (a i) := by
  rw [adopt]
  by_cases hm : m < n
  · rw [if_neg (hc.ne_zero m hm), Nodes.parent_setParent, hc.update_apply hi hm]
  · rw [if_pos (hc.eq_zero m (by omega)), if_neg (by omega)]

theorem Complete.adopt_parent_apart (t : Nodes) {y : ℕ}
    (hy : ∀ k < n, a k ≠ y) (m v : ℕ) : (adopt t (a m) v).parent y = t.parent y := by
  rw [adopt]
  by_cases hm : m < n
  · rw [if_neg (hc.ne_zero m hm), Nodes.parent_setParent, update_of_ne (hy m hm).symm]
  · rw [if_pos (hc.eq_zero m (by omega))]

end

@[simp] theorem adopt_left (t : Nodes) (x v : ℕ) : (adopt t x v).left = t.left := by
  rw [adopt]
  split_ifs <;> rfl

@[simp] theorem adopt_right (t : Nodes) (x v : ℕ) : (adopt t x v).right = t.right := by
  rw [adopt]
  split_ifs <;> rfl

theorem storeParent_eq (h : Heap) (x v : ℕ) :
    (h.storeParent x v).nodes = adopt h.nodes x v ∧ (h.storeParent x v).root = h.root ∧
      (h.storeParent x v).attached = h.attached ∧
      (h.storeParent x v).nullStores = h.nullStores + if x = 0 then 1 else 0 := by
  rw [Heap.storeParent, adopt]
  split_ifs <;> exact ⟨rfl, rfl, rfl, rfl⟩

variable (hc : Complete h a n e)
include hc

/-! ## Exchanges -/

theorem replaceChild_spec (hi : i < n) (h0 : 0 < i) (hl : ∀ k < n, t.left (a k) = a (2 * k + 1))
    (hr : ∀ k < n, t.right (a k) = a (2 * k + 2)) (x : ℕ) :
    ∃ t', replaceChild t (a (up i)) (a i) x = .ok t' ∧ t'.parent = t.parent ∧
      (∀ k < n, t'.left (a k) = if 2 * k + 1 = i then x else a (2 * k + 1)) ∧
      (∀ k < n, t'.right (a k) = if 2 * k + 2 = i then x else a (2 * k + 2)) ∧
      ∀ y, (∀ k < n, a k ≠ y) → t'.left y = t.left y ∧ t'.right y = t.right y := by
  have hup := up_lt h0
  have hupi : up i = (i - 1) / 2 := rfl
  have hin : up i < n := hup.trans hi
  rw [replaceChild, hl _ hin, hr _ hin]
  by_cases hside : i = 2 * up i + 1
  · rw [if_pos (congrArg a hside.symm)]
    refine ⟨_, rfl, rfl, fun k hk => ?_, fun k hk => ?_, fun y hy => ⟨?_, rfl⟩⟩
    · have hiff : k = up i ↔ 2 * k + 1 = i := by omega
      simp only [Nodes.left_setLeft, hc.update_apply hk hin, hiff, hl k hk]
    · rw [Nodes.right_setLeft, if_neg (by omega), hr k hk]
    · rw [Nodes.left_setLeft, update_of_ne (hy _ hin).symm]
  have hright : i = 2 * up i + 2 := by omega
  rw [if_neg fun he => hside (hc.inj _ (by omega) _ hi he).symm,
    ensure_of (congrArg a hright.symm)]
  refine ⟨_, rfl, rfl, fun k hk => ?_, fun k hk => ?_, fun y hy => ⟨rfl, ?_⟩⟩
  · rw [Nodes.left_setRight, if_neg (by omega), hl k hk]
  · have hiff : k = up i ↔ 2 * k + 2 = i := by omega
    simp only [Nodes.right_setRight, hc.update_apply hk hin, hiff, hr k hk]
  · rw [Nodes.right_setRight, update_of_ne (hy _ hin).symm]

theorem liftChild_spec (hi : i < n) (hj : j < n) (hij : i ≠ j)
    (hl : ∀ k < n, t.left (a k) = a (2 * k + 1)) (hr : ∀ k < n, t.right (a k) = a (2 * k + 2))
    (hp : t.parent (a i) = if i = 0 then 0 else a (up i)) : ∃ t', liftChild t (a i) (a j) = .ok t' ∧
      t'.parent = update t.parent (a j) (if i = 0 then 0 else a (up i)) ∧
      (∀ k < n, t'.left (a k) = if 2 * k + 1 = i then a j else a (2 * k + 1)) ∧
      (∀ k < n, t'.right (a k) = if 2 * k + 2 = i then a j else a (2 * k + 2)) ∧
      ∀ y, (∀ k < n, a k ≠ y) → t'.left y = t.left y ∧ t'.right y = t.right y := by
  have hpar : (t.setParent (a j) (if i = 0 then 0 else a (up i))).parent (a i) =
      if i = 0 then 0 else a (up i) := by
    rw [Nodes.parent_setParent, hc.update_apply hi hj, if_neg hij, hp]
  rw [liftChild, hp, hpar]
  by_cases hi0 : i = 0
  · rw [if_pos hi0, if_pos rfl]
    refine ⟨_, rfl, rfl, fun k hk => ?_, fun k hk => ?_, fun y _ => ⟨rfl, rfl⟩⟩
    · rw [if_neg (by omega)]
      exact hl k hk
    rw [if_neg (by omega)]
    exact hr k hk
  · have hpos := Nat.pos_of_ne_zero hi0
    rw [if_neg hi0, if_neg (hc.ne_zero _ ((up_lt hpos).trans hi))]
    exact replaceChild_spec (t := t.setParent (a j) (a (up i))) hc hi hpos hl hr (a j)

theorem takeSibling_spec (h1 : Heap) (hj : j < n) (hside : j = 2 * i + 1 ∨ j = 2 * i + 2)
    (hl : h1.nodes.left (a i) = a (2 * i + 1)) (hr : h1.nodes.right (a i) = a (2 * i + 2)) :
    ∃ h2, takeSibling h1 (a i) (a j) (decide (j = 2 * i + 1)) = h2 ∧ h2.root = h1.root ∧ h2.attached = h1.attached ∧
      (h2.nullStores = h1.nullStores + if n ≤ 2 * i + 2 then 1 else 0) ∧
      (∀ k < n, h2.nodes.left (a k) =
        if k = j then (if j = 2 * i + 1 then a i else a (2 * i + 1)) else h1.nodes.left (a k)) ∧
      (∀ k < n, h2.nodes.right (a k) =
        if k = j then (if j = 2 * i + 2 then a i else a (2 * i + 2)) else h1.nodes.right (a k)) ∧
      (∀ k < n, h2.nodes.parent (a k) =
        if k ≠ j ∧ (k = 2 * i + 1 ∨ k = 2 * i + 2) then a j else h1.nodes.parent (a k)) ∧
      ∀ y, y ≠ 0 → (∀ k < n, a k ≠ y) → h1.nodes.EqAt h2.nodes y := by
  refine ⟨_, rfl, ?_⟩
  rcases hside with hside | hside
  · rw [takeSibling, if_pos (decide_eq_true hside)]
    simp only [Nodes.right_setRight, Nodes.right_setLeft, update_self, hr]
    obtain ⟨hn, hroot, hatt, hnull⟩ := storeParent_eq ⟨(h1.nodes.setLeft (a j) (a i)).setRight (a j)
      (a (2 * i + 2)), h1.root, h1.nullStores, h1.attached⟩ (a (2 * i + 2)) (a j)
    refine ⟨hroot, hatt, ?_, fun k hk => ?_, fun k hk => ?_, fun k hk => ?_, fun y _ hy => ?_⟩
    · simp only [hnull, hc.eq_zero_iff]
    · rw [hn, if_pos hside]
      simp [hc.update_apply hk hj]
    · rw [hn, if_neg (c := j = 2 * i + 2) (by omega)]
      simp [hc.update_apply hk hj]
    · rw [hn, hc.adopt_parent _ hk]
      have hiff : (k ≠ j ∧ (k = 2 * i + 1 ∨ k = 2 * i + 2)) ↔ k = 2 * i + 2 := by omega
      simp [hiff]
    rw [hn]
    refine ⟨hc.adopt_parent_apart _ hy _ _, ?_, ?_⟩
    · simp [update_of_ne (hy j hj).symm]
    · simp [update_of_ne (hy j hj).symm]
  rw [takeSibling, if_neg (by simp; omega)]
  simp only [Nodes.left_setLeft, Nodes.left_setRight, update_self, hl]
  obtain ⟨hn, hroot, hatt, hnull⟩ := storeParent_eq ⟨(h1.nodes.setRight (a j) (a i)).setLeft (a j)
    (a (2 * i + 1)), h1.root, h1.nullStores, h1.attached⟩ (a (2 * i + 1)) (a j)
  refine ⟨hroot, hatt, ?_, fun k hk => ?_, fun k hk => ?_, fun k hk => ?_, fun y _ hy => ?_⟩
  · rw [hnull, if_neg (hc.ne_zero _ (by omega)), if_neg (by omega)]
  · rw [hn, if_neg (c := j = 2 * i + 1) (by omega)]
    simp [hc.update_apply hk hj]
  · rw [hn, if_pos hside]
    simp [hc.update_apply hk hj]
  · rw [hn, hc.adopt_parent _ hk]
    have hiff : (k ≠ j ∧ (k = 2 * i + 1 ∨ k = 2 * i + 2)) ↔ k = 2 * i + 1 := by omega
    simp [hiff]
  rw [hn]
  refine ⟨hc.adopt_parent_apart _ hy _ _, ?_, ?_⟩
  · simp [update_of_ne (hy j hj).symm]
  · simp [update_of_ne (hy j hj).symm]

theorem Complete.relinked (hj : j < n) (h0 : 0 < j) (hji : up j = i) {h' : Heap}
    (hroot : h'.root = if i = 0 then a j else a 0)
    (hleft : ∀ k < n, h'.nodes.left (a k) = if k = i then a (2 * j + 1) else if k = j then
      (if j = 2 * i + 1 then a i else a (2 * i + 1)) else if 2 * k + 1 = i then a j else a (2 * k + 1))
    (hright : ∀ k < n, h'.nodes.right (a k) = if k = i then a (2 * j + 2) else if k = j then
      (if j = 2 * i + 2 then a i else a (2 * i + 2)) else if 2 * k + 2 = i then a j else a (2 * k + 2))
    (hparent : ∀ k < n, h'.nodes.parent (a k) = if k = i then a j else if k = j then
      (if i = 0 then 0 else a (up i)) else if k = 0 then 0 else if up k = i then a j else if up k = j then a i else a
        (up k))
    (hapart : ∀ y, y ≠ 0 → (∀ k < n, a k ≠ y) → h.nodes.EqAt h'.nodes y)
    (hatt : h'.attached = h.attached) : Complete h' (exchange a i j) n e := by
  have hij : i < j := hji ▸ up_lt h0
  have hi : i < n := hij.trans hj
  have hjcase := (up_eq_iff h0).mp hji
  have hxi : exchange a i j i = a j := by rw [exchange_apply, if_pos rfl]
  have hxj : exchange a i j j = a i := by rw [exchange_apply, if_neg hij.ne', if_pos rfl]
  have hxk : ∀ k, k ≠ i → k ≠ j → exchange a i j k = a k := fun k hki hkj => by
    rw [exchange_apply, if_neg hki, if_neg hkj]
  refine ⟨fun k hk => ?_, fun k hk => ?_, fun k hk m hm heq => ?_, ?_, fun k hk => ?_, fun k hk => ?_,
    fun k hk => ?_, fun x hx0 hxe hx => ?_, hatt ▸ hc.bound⟩
  · rw [exchange_apply]
    split_ifs
    · exact hc.ne_zero j hj
    · exact hc.ne_zero i hi
    · exact hc.ne_zero k hk
  · rw [hxk k (by omega) (by omega)]
    exact hc.eq_zero k hk
  · have hlt : ∀ k < n, Equiv.swap i j k < n := fun k hk => by
      rw [Equiv.swap_apply_def]
      split_ifs <;> omega
    exact (Equiv.swap i j).injective (hc.inj _ (hlt k hk) _ (hlt m hm) heq)
  · rw [hroot]
    by_cases hi0 : i = 0
    · rw [if_pos hi0, ← hi0, hxi]
    · rw [if_neg hi0, hxk 0 (Ne.symm hi0) h0.ne]
  · by_cases hki : k = i
    · rw [hki, hxi, hleft j hj, if_neg hij.ne', if_pos rfl, exchange_apply, if_neg (c := 2 * i + 1 = i) (by omega)]
      simp only [eq_comm]
    by_cases hkj : k = j
    · rw [hkj, hxj, hleft i hi, if_pos rfl, hxk _ (by omega) (by omega)]
    · rw [hxk k hki hkj, hleft k hk, if_neg hki, if_neg hkj, exchange_apply, if_neg (c := 2 * k + 1 = j) (by omega)]
  · by_cases hki : k = i
    · rw [hki, hxi, hright j hj, if_neg hij.ne', if_pos rfl, exchange_apply, if_neg (c := 2 * i + 2 = i) (by omega)]
      simp only [eq_comm]
    by_cases hkj : k = j
    · rw [hkj, hxj, hright i hi, if_pos rfl, hxk _ (by omega) (by omega)]
    · rw [hxk k hki hkj, hright k hk, if_neg hki, if_neg hkj, exchange_apply, if_neg (c := 2 * k + 2 = j) (by omega)]
  · by_cases hki : k = i
    · rw [hki, hxi, hparent j hj, if_neg hij.ne', if_pos rfl]
      by_cases hi0 : i = 0
      · rw [if_pos hi0, if_pos hi0]
      have hup := up_lt (Nat.pos_of_ne_zero hi0)
      rw [if_neg hi0, if_neg hi0, hxk _ hup.ne (hup.trans hij).ne]
    · by_cases hkj : k = j
      · rw [hkj, hxj, hparent i hi, if_pos rfl, if_neg h0.ne', hji, hxi]
      · rw [hxk k hki hkj, hparent k hk, if_neg hki, if_neg hkj, exchange_apply]
  have hout : ∀ k < n, a k ≠ x := fun k hk he => by
    by_cases hki : k = i
    · exact hx j hj (by rw [hxj, ← hki, he])
    by_cases hkj : k = j
    · exact hx i hi (by rw [hxi, ← hkj, he])
    · exact hx k hk (by rw [hxk k hki hkj, he])
  obtain ⟨hp, hl, hr⟩ := hapart x hx0 hout
  obtain ⟨hp', hl', hr'⟩ := hc.apart x hx0 hxe hout
  exact ⟨hp.trans hp', hl.trans hl', hr.trans hr'⟩

theorem swapNodes_spec (hj : j < n) (h0 : 0 < j) (hji : up j = i) :
    ∃ h', swapNodes h (a i) (a j) = .ok h' ∧ Complete h' (exchange a i j) n e ∧
      h'.nullStores = h.nullStores + if n ≤ 2 * i + 2 then 1 else 0 := by
  have hij : i < j := hji ▸ up_lt h0
  have hi : i < n := hij.trans hj
  have hjcase := (up_eq_iff h0).mp hji
  have hroot : h.root ≠ 0 := by
    rw [hc.root]
    exact hc.ne_zero 0 (by omega)
  have hpar : (h.nodes.setParent (a j) (a i)).parent (a i) = if i = 0 then 0 else a (up i) := by
    rw [Nodes.parent_setParent, hc.update_apply hi hj, if_neg hij.ne, hc.parent i hi]
  obtain ⟨t1, ht1, hp1, hl1, hr1, ho1⟩ := liftChild_spec hc (t := h.nodes.setParent (a j) (a i)) hi hj
    hij.ne hc.left hc.right hpar
  have hside : a j = a (2 * i + 1) ↔ j = 2 * i + 1 := hc.eq_iff hj (by omega)
  obtain ⟨h2, hh2, hroot2, hatt2, hnull2, hl2, hr2, hp2, ho2⟩ := takeSibling_spec hc { h with nodes := t1 } hj
    hjcase ((hl1 i hi).trans (if_neg (by omega))) ((hr1 i hi).trans (if_neg (by omega)))
  rw [swapNodes, ensure_of hroot, ensure_of ⟨hc.ne_zero j hj, hc.ne_zero i hi⟩]
  simp only [bind, Except.bind, ht1, Nodes.left_setParent, Nodes.right_setParent, hc.left i hi,
    hc.left j hj, hc.right j hj, hside, hh2]
  refine ⟨_, rfl, hc.relinked hj h0 hji ?_ (fun k hk => ?_) (fun k hk => ?_) (fun k hk => ?_)
    (fun y hy0 hy => ?_) hatt2, hnull2⟩
  · simp only [hroot2, hc.root, hc.eq_iff (by omega : 0 < n) hi, eq_comm]
  · simp only [adopt_left, Nodes.left_setRight, Nodes.left_setLeft, Nodes.left_setParent,
      hc.update_apply hk hi, hl2 k hk, hl1 k hk]
  · simp only [adopt_right, Nodes.right_setRight, Nodes.right_setLeft, Nodes.right_setParent,
      hc.update_apply hk hi, hr2 k hk, hr1 k hk]
  · simp only [hc.adopt_parent _ hk, Nodes.parent_setRight, Nodes.parent_setLeft,
      Nodes.parent_setParent, hc.update_apply hk hi, hp2 k hk, hp1, hc.update_apply hk hj,
      hc.parent k hk]
    have hupk : up k = (k - 1) / 2 := rfl
    split_ifs <;> first | rfl | omega
  obtain ⟨hp, hl, hr⟩ := ho2 y hy0 hy
  obtain ⟨hl', hr'⟩ := ho1 y hy
  have hyi := (hy i hi).symm
  have hyj := (hy j hj).symm
  refine ⟨?_, ?_, ?_⟩
  · simp [hc.adopt_parent_apart _ hy, update_of_ne hyi, hp, hp1, update_of_ne hyj]
  · simp [update_of_ne hyi, hl, hl']
  · simp [update_of_ne hyi, hr, hr']

end

end ZeldaOS
