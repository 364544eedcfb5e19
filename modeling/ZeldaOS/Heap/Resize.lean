import ZeldaOS.Heap.Links

/-!
# Adding and removing a node

A new node is put behind the last one, and the last one takes the place of a removed one.

* `placeNode_spec`: a node is put behind the last one.
* `cutLastNode_spec`: the last node is taken out.
* `replaceNode_spec`: a node takes the place of another.
-/

namespace ZeldaOS

open Machine Function

variable {i x : ℕ} {h' : Heap}

section
variable {h : Heap} {a : ℕ → ℕ} {n e : ℕ}

/-! ## One node more -/

theorem Complete.put (hc : Complete h a n 0) {n' : ℕ} (hi : i ≤ n) (hn' : n' = max n (i + 1)) (hx0 : x ≠ 0)
    (hx : ∀ k < n, a k ≠ x) (hroot : h'.root = if 0 = i then x else a 0) (hxl : h'.nodes.left x = a (2 * i + 1))
    (hxr : h'.nodes.right x = a (2 * i + 2)) (hxp : h'.nodes.parent x = if i = 0 then 0 else a (up i))
    (hleft : ∀ k < n, k ≠ i → h'.nodes.left (a k) = if 2 * k + 1 = i then x else a (2 * k + 1))
    (hright : ∀ k < n, k ≠ i → h'.nodes.right (a k) = if 2 * k + 2 = i then x else a (2 * k + 2))
    (hparent : ∀ k < n, k ≠ i → h'.nodes.parent (a k) = if k = 0 then 0 else if up k = i then x else a (up k))
    (hapart : ∀ y, y ≠ 0 → y ≠ x → (∀ k < n, a k ≠ y) → h.nodes.EqAt h'.nodes y)
    (hatt : n' ≤ h'.attached) : Complete h' (update a i x) n' (a i) := by
  have hself : update a i x i = x := update_self _ _ _
  have hne : ∀ k, k ≠ i → update a i x k = a k := fun k hk => update_of_ne hk _ _
  have hcases : ∀ k < n', k = i ∨ k ≠ i ∧ k < n := fun k hk => by omega
  refine ⟨fun k hk => ?_, fun k hk => ?_, fun k hk m hm heq => ?_, ?_, fun k hk => ?_, fun k hk => ?_,
    fun k hk => ?_, fun y hy0 hye hy => ?_, hatt⟩
  · rcases hcases k hk with rfl | ⟨hki, hk⟩
    · rwa [hself]
    rw [hne k hki]
    exact hc.ne_zero k hk
  · rw [hne k (by omega)]
    exact hc.eq_zero k (by omega)
  · rcases hcases k hk with hki | ⟨hki, hk⟩ <;> rcases hcases m hm with hmi | ⟨hmi, hm⟩
    · rw [hki, hmi]
    · rw [hki, hself, hne m hmi] at heq
      exact absurd heq.symm (hx m hm)
    · rw [hmi, hself, hne k hki] at heq
      exact absurd heq (hx k hk)
    rw [hne k hki, hne m hmi] at heq
    exact hc.inj k hk m hm heq
  · rw [hroot, Function.update_apply]
  · rcases hcases k hk with hki | ⟨hki, hk⟩
    · rw [hki, hself, hne _ (by omega), hxl]
    · rw [hne k hki, hleft k hk hki, Function.update_apply]
  · rcases hcases k hk with hki | ⟨hki, hk⟩
    · rw [hki, hself, hne _ (by omega), hxr]
    · rw [hne k hki, hright k hk hki, Function.update_apply]
  · rcases hcases k hk with hki | ⟨hki, hk⟩
    · rw [hki, hself, hxp]
      by_cases hi0 : i = 0
      · rw [if_pos hi0, if_pos hi0]
      · rw [if_neg hi0, if_neg hi0, hne _ (up_lt (Nat.pos_of_ne_zero hi0)).ne]
    · rw [hne k hki, hparent k hk hki, Function.update_apply]
  have hyx : y ≠ x := fun he => hy i (by omega) (hself.trans he.symm)
  have hout : ∀ k < n, a k ≠ y := fun k hk he => by
    by_cases hki : k = i
    · exact hye (by rw [← he, hki])
    · exact hy k (by omega) ((hne k hki).trans he)
  obtain ⟨hp, hl, hr⟩ := hapart y hy0 hyx hout
  obtain ⟨hp', hl', hr'⟩ := hc.apart y hy0 hy0 hout
  exact ⟨hp.trans hp', hl.trans hl', hr.trans hr'⟩

theorem Complete.grown (hc : Complete h a n 0) (hx0 : x ≠ 0) (hx : ∀ k < n, a k ≠ x)
    (hroot : h'.root = if 0 = n then x else a 0) (hxp : h'.nodes.parent x = if n = 0 then 0 else a (up n))
    (hxl : h'.nodes.left x = 0) (hxr : h'.nodes.right x = 0)
    (hleft : ∀ k < n, h'.nodes.left (a k) = if 2 * k + 1 = n then x else a (2 * k + 1))
    (hright : ∀ k < n, h'.nodes.right (a k) = if 2 * k + 2 = n then x else a (2 * k + 2))
    (hparent : ∀ k < n, h'.nodes.parent (a k) = h.nodes.parent (a k))
    (hapart : ∀ y, y ≠ x → (∀ k < n, a k ≠ y) → h.nodes.EqAt h'.nodes y)
    (hatt : n < h'.attached) : Complete h' (update a n x) (n + 1) 0 := by
  have hup : ∀ k < n, h'.nodes.parent (a k) = if k = 0 then 0 else if up k = n then x else a (up k) := by
    intro k hk
    have hupn : up k ≤ k := Nat.div_le_of_le_mul (by omega)
    rw [hparent k hk, hc.parent k hk, if_neg (c := up k = n) (by omega)]
  have hput := hc.put le_rfl (max_eq_right n.le_succ).symm hx0 hx hroot
    (hxl.trans (hc.eq_zero _ (by omega)).symm) (hxr.trans (hc.eq_zero _ (by omega)).symm) hxp
    (fun k hk _ => hleft k hk) (fun k hk _ => hright k hk) (fun k hk _ => hup k hk) (fun y _ => hapart y) hatt
  rwa [hc.eq_zero n le_rfl] at hput

theorem placeNode_spec (hc : Complete h a n 0) (hn : 0 < n) (hx0 : x ≠ 0) (hx : ∀ k < n, a k ≠ x) :
    Complete ⟨placeNode h.nodes (a (up n)) x, h.root, h.nullStores, h.attached + 1⟩ (update a n x) (n + 1) 0 := by
  have hup := up_lt hn
  have hupn : up n = (n - 1) / 2 := rfl
  have hatt := hc.bound
  obtain ⟨-, hl, hr⟩ := hc.apart x hx0 hx0 hx
  have hroot : h.root = if 0 = n then x else a 0 := hc.root.trans (if_neg hn.ne).symm
  have hxp : update h.nodes.parent x (a (up n)) x = if n = 0 then 0 else a (up n) := by
    rw [update_self, if_neg hn.ne']
  rw [placeNode, hc.left _ hup]
  simp only [hc.eq_zero_iff]
  by_cases hside : n ≤ 2 * up n + 1
  · rw [if_pos hside]
    refine hc.grown hx0 hx hroot hxp ((update_of_ne (hx _ hup).symm _ _).trans hl) hr
      (fun k hk => ?_) (fun k hk => ?_) (fun k hk => update_of_ne (hx k hk) _ _)
      (fun y hyx hy => ⟨update_of_ne hyx _ _, update_of_ne (hy _ hup).symm _ _, rfl⟩)
      (Nat.lt_succ_of_le hatt)
    · have hiff : k = up n ↔ 2 * k + 1 = n := by omega
      simp only [Nodes.left_setParent, Nodes.left_setLeft, hc.update_apply hk hup, hiff, hc.left k hk]
    rw [if_neg (by omega)]
    exact hc.right k hk
  rw [if_neg hside]
  refine hc.grown hx0 hx hroot hxp hl ((update_of_ne (hx _ hup).symm _ _).trans hr)
    (fun k hk => ?_) (fun k hk => ?_) (fun k hk => update_of_ne (hx k hk) _ _)
    (fun y hyx hy => ⟨update_of_ne hyx _ _, rfl, update_of_ne (hy _ hup).symm _ _⟩)
    (Nat.lt_succ_of_le hatt)
  · rw [if_neg (by omega)]
    exact hc.left k hk
  have hiff : k = up n ↔ 2 * k + 2 = n := by omega
  simp only [Nodes.right_setParent, Nodes.right_setRight, hc.update_apply hk hup, hiff, hc.right k hk]

/-! ## One node less -/

theorem Complete.last_leaf (hc : Complete h a (n + 1) e) : h.nodes.left (a n) = 0 ∧ h.nodes.right (a n) = 0 :=
  ⟨(hc.left n (Nat.lt_succ_self n)).trans (hc.eq_zero _ (by omega)),
    (hc.right n (Nat.lt_succ_self n)).trans (hc.eq_zero _ (by omega))⟩

theorem Complete.shrunk (hc : Complete h a (n + 1) e) (hroot : h'.root = if 0 = n then 0 else a 0)
    (hleft : ∀ k ≤ n, h'.nodes.left (a k) = if 2 * k + 1 = n then 0 else a (2 * k + 1))
    (hright : ∀ k ≤ n, h'.nodes.right (a k) = if 2 * k + 2 = n then 0 else a (2 * k + 2))
    (hparent : ∀ k ≤ n, h'.nodes.parent (a k) = if k = n ∨ k = 0 then 0 else a (up k))
    (hapart : ∀ y, y ≠ 0 → (∀ k ≤ n, a k ≠ y) → h.nodes.EqAt h'.nodes y)
    (hatt : h'.attached = h.attached) : Complete h' (update a n 0) n e := by
  have hlt : ∀ k < n, update a n 0 k = a k := fun k hk => update_of_ne hk.ne _ _
  refine ⟨fun k hk => ?_, fun k hk => ?_, fun k hk m hm heq => ?_, ?_, fun k hk => ?_, fun k hk => ?_,
    fun k hk => ?_, fun x hx0 hxe hx => ?_, ?_⟩
  · rw [hlt k hk]
    exact hc.ne_zero k (by omega)
  · rcases hk.eq_or_lt with rfl | hk
    · exact update_self _ _ _
    rw [update_of_ne hk.ne']
    exact hc.eq_zero k (by omega)
  · rw [hlt k hk, hlt m hm] at heq
    exact hc.inj k (by omega) m (by omega) heq
  · rw [hroot, Function.update_apply]
  · rw [hlt k hk, hleft k hk.le, Function.update_apply]
  · rw [hlt k hk, hright k hk.le, Function.update_apply]
  · rw [hlt k hk, hparent k hk.le]
    by_cases hk0 : k = 0
    · rw [if_pos hk0, if_pos (.inr hk0)]
    · rw [if_neg hk0, if_neg (by omega), hlt _ ((up_lt (Nat.pos_of_ne_zero hk0)).trans hk)]
  · by_cases hxn : x = a n
    · have h1 : ¬ 2 * n + 1 = n := by omega
      have h2 : ¬ 2 * n + 2 = n := by omega
      rw [hxn]
      exact ⟨(hparent n le_rfl).trans (if_pos (.inl rfl)),
        ((hleft n le_rfl).trans (if_neg h1)).trans (hc.eq_zero _ (by omega)),
        ((hright n le_rfl).trans (if_neg h2)).trans (hc.eq_zero _ (by omega))⟩
    have hout : ∀ k ≤ n, a k ≠ x := fun k hk he => by
      rcases hk.eq_or_lt with rfl | hk
      · exact hxn he.symm
      · exact hx k hk ((hlt k hk).trans he)
    obtain ⟨hp, hl, hr⟩ := hapart x hx0 hout
    obtain ⟨hp', hl', hr'⟩ := hc.apart x hx0 hxe fun k hk => hout k (Nat.lt_succ_iff.mp hk)
    exact ⟨hp.trans hp', hl.trans hl', hr.trans hr'⟩
  · have := hc.bound
    omega

theorem cutLastNode_spec (hc : Complete h a (n + 1) e) :
    ∃ h', cutLastNode h (a n) = .ok h' ∧ Complete h' (update a n 0) n e ∧ h'.nullStores = h.nullStores := by
  have hn := Nat.lt_succ_self n
  have hpar := hc.parent n hn
  rw [cutLastNode]
  by_cases h0 : n = 0
  · subst h0
    rw [if_pos rfl] at hpar
    rw [if_pos hpar, ensure_of hc.root]
    refine ⟨_, rfl, hc.shrunk rfl (fun k hk => ?_) (fun k hk => ?_) (fun k hk => ?_)
      (fun _ _ _ => ⟨rfl, rfl, rfl⟩) rfl, rfl⟩
    · exact hc.left k (by omega)
    · exact hc.right k (by omega)
    rw [if_pos (by omega), Nat.le_zero.mp hk]
    exact hpar
  have hup := up_lt (Nat.pos_of_ne_zero h0)
  have hupn : up n = (n - 1) / 2 := rfl
  rw [if_neg h0] at hpar
  have hin : up n < n + 1 := by omega
  have hroot : h.root = if 0 = n then 0 else a 0 := hc.root.trans (if_neg (Ne.symm h0)).symm
  have hparent : ∀ k ≤ n, update h.nodes.parent (a n) 0 (a k) =
      if k = n ∨ k = 0 then 0 else a (up k) := fun k hk => by
    rw [hc.update_apply (by omega) hn, hc.parent k (by omega)]
    split_ifs <;> first | rfl | omega
  simp only [hpar, if_neg (hc.ne_zero _ hin), hc.left _ hin, hc.right _ hin]
  by_cases hside : 2 * up n + 1 = n
  · rw [if_pos (congrArg a hside), ensure_of (hc.eq_zero _ (by omega))]
    refine ⟨_, rfl, hc.shrunk hroot (fun k hk => ?_) (fun k hk => ?_) hparent (fun y hy0 hy => ?_) rfl, rfl⟩
    · have hiff : k = up n ↔ 2 * k + 1 = n := by omega
      simp only [Nodes.left_setParent, Nodes.left_setLeft, hc.update_apply (by omega : k < n + 1) hin,
        hiff, hc.left k (by omega)]
    · rw [if_neg (by omega)]
      exact hc.right k (by omega)
    · exact ⟨update_of_ne (hy n le_rfl).symm _ _, update_of_ne (hy (up n) hup.le).symm _ _, rfl⟩
  have hright : 2 * up n + 2 = n := by omega
  rw [if_neg fun he => hside (hc.inj _ (by omega) _ hn he), ensure_of (congrArg a hright)]
  refine ⟨_, rfl, hc.shrunk hroot (fun k hk => ?_) (fun k hk => ?_) hparent (fun y hy0 hy => ?_) rfl, rfl⟩
  · rw [if_neg (by omega)]
    exact hc.left k (by omega)
  · have hiff : k = up n ↔ 2 * k + 2 = n := by omega
    simp only [Nodes.right_setParent, Nodes.right_setRight,
      hc.update_apply (by omega : k < n + 1) hin, hiff, hc.right k (by omega)]
  · exact ⟨update_of_ne (hy n le_rfl).symm _ _, rfl, update_of_ne (hy (up n) hup.le).symm _ _⟩

theorem Complete.weaken (hc : Complete h a n 0) (x : ℕ) : Complete h a n x :=
  ⟨hc.ne_zero, hc.eq_zero, hc.inj, hc.root, hc.left, hc.right, hc.parent,
    fun y hy0 _ hy => hc.apart y hy0 hy0 hy, hc.bound⟩

theorem Complete.drop (hc : Complete h a n e) (he : h.nodes.Detached e) : Complete h a n 0 :=
  ⟨hc.ne_zero, hc.eq_zero, hc.inj, hc.root, hc.left, hc.right, hc.parent, fun x hx0 _ hx => by
    by_cases hxe : x = e
    · rw [hxe]
      exact he
    · exact hc.apart x hx0 hxe hx, hc.bound⟩

theorem replaceNode_spec (hc : Complete h a n 0) (hi : i < n) (hx0 : x ≠ 0) (hx : ∀ k < n, a k ≠ x) :
    ∃ h', replaceNode h (a i) x = .ok h' ∧ Complete h' (update a i x) n (a i) ∧ h'.nullStores = h.nullStores := by
  have hup0 : ∀ k, up k = (k - 1) / 2 := fun _ => rfl
  set t := adopt (adopt ((h.nodes.setLeft x (a (2 * i + 1))).setRight x (a (2 * i + 2)))
    (a (2 * i + 1)) x) (a (2 * i + 2)) x with ht
  have hxl : t.left x = a (2 * i + 1) := by simp [ht]
  have hxr : t.right x = a (2 * i + 2) := by simp [ht]
  have hl : ∀ k < n, t.left (a k) = a (2 * k + 1) := fun k hk => by
    simp [ht, update_of_ne (hx k hk), hc.left k hk]
  have hr : ∀ k < n, t.right (a k) = a (2 * k + 2) := fun k hk => by
    simp [ht, update_of_ne (hx k hk), hc.right k hk]
  have hp : ∀ k < n, t.parent (a k) = if k = 0 then 0 else if up k = i then x else a (up k) :=
    fun k hk => by
      simp only [ht, hc.adopt_parent _ hk, Nodes.parent_setRight, Nodes.parent_setLeft, hc.parent k hk, hup0]
      split_ifs <;> first | rfl | omega
  have ho : ∀ y, y ≠ x → (∀ k < n, a k ≠ y) → t.parent y = h.nodes.parent y ∧
      t.left y = h.nodes.left y ∧ t.right y = h.nodes.right y := fun y hyx hy =>
    ⟨by simp [ht, hc.adopt_parent_apart _ hy], by simp [ht, update_of_ne hyx], by simp [ht, update_of_ne hyx]⟩
  have hpi : t.parent (a i) = if i = 0 then 0 else a (up i) := by
    rw [hp i hi]
    by_cases hi0 : i = 0
    · rw [if_pos hi0, if_pos hi0]
    · rw [if_neg hi0, if_neg hi0, if_neg (up_lt (Nat.pos_of_ne_zero hi0)).ne]
  have hensure : a (2 * i + 2) ≠ 0 → a (2 * i + 1) ≠ 0 := by
    simp only [ne_eq, hc.eq_zero_iff]
    omega
  have hli : update h.nodes.left x (a (2 * i + 1)) (a i) = a (2 * i + 1) :=
    (update_of_ne (hx i hi) _ _).trans (hc.left i hi)
  have hri : update h.nodes.right x (a (2 * i + 2)) (a i) = a (2 * i + 2) :=
    (update_of_ne (hx i hi) _ _).trans (hc.right i hi)
  rw [replaceNode, hc.left i hi, hc.right i hi]
  simp only [Nodes.left_setRight, Nodes.left_setLeft, adopt_right, adopt_left, Nodes.right_setRight,
    Nodes.right_setLeft, hli, hri, ensure_of hensure, ← ht, hpi, bind, Except.bind]
  by_cases hi0 : i = 0
  · subst hi0
    rw [if_pos rfl, if_pos rfl, ensure_of hc.root]
    refine ⟨_, rfl, hc.put hi.le (by omega) hx0 hx rfl hxl hxr (update_self _ _ _) (fun k hk hki => ?_)
      (fun k hk hki => ?_) (fun k hk hki => ?_) (fun y hy0 hyx hy => ?_) hc.bound, rfl⟩
    · exact hl k hk
    · exact hr k hk
    · exact (update_of_ne (hx k hk) _ _).trans (hp k hk)
    obtain ⟨hp', hl', hr'⟩ := ho y hyx hy
    exact ⟨(update_of_ne hyx _ _).trans hp', hl', hr'⟩
  have hpos := Nat.pos_of_ne_zero hi0
  rw [if_neg hi0, if_neg (hc.ne_zero _ ((up_lt hpos).trans hi))]
  obtain ⟨t', ht', hp1, hl1, hr1, ho1⟩ := replaceChild_spec (t := t.setParent x (a (up i))) hc hi hpos hl hr x
  rw [ht']
  refine ⟨_, rfl, hc.put hi.le (by omega) hx0 hx ?_ ((ho1 x hx).1.trans hxl) ((ho1 x hx).2.trans hxr) ?_
    (fun k hk _ => hl1 k hk) (fun k hk _ => hr1 k hk) (fun k hk _ => ?_) (fun y _ hyx hy => ?_) hc.bound,
    rfl⟩
  · rw [if_neg (Ne.symm hi0)]
    exact hc.root
  · rw [hp1, if_neg hi0]
    exact update_self _ _ _
  · rw [hp1]
    exact (update_of_ne (hx k hk) _ _).trans (hp k hk)
  obtain ⟨hp', hl', hr'⟩ := ho y hyx hy
  obtain ⟨hl'', hr''⟩ := ho1 y hy
  refine ⟨?_, hl''.trans hl', hr''.trans hr'⟩
  rw [hp1]
  exact (update_of_ne hyx _ _).trans hp'

theorem replaceRoot_spec (hc : Complete h a n 0) (hn : 0 < n) (hx0 : x ≠ 0) (hx : ∀ k < n, a k ≠ x) :
    ∃ h', replaceRoot h x = .ok h' ∧ Complete h' (update a 0 x) n 0 ∧ h'.nullStores = h.nullStores := by
  have hup0 : ∀ k, up k = (k - 1) / 2 := fun _ => rfl
  rw [replaceRoot, hc.root, hc.left 0 hn, adopt_right, hc.right 0 hn]
  set t := adopt (adopt h.nodes (a (2 * 0 + 1)) x) (a (2 * 0 + 2)) x with ht
  have hp : ∀ k < n, t.parent (a k) = if k = 0 then 0 else if up k = 0 then x else a (up k) :=
    fun k hk => by
      simp only [ht, hc.adopt_parent _ hk, hc.parent k hk, hup0]
      split_ifs <;> first | rfl | omega
  have hpx : t.parent x = 0 := by
    rw [ht, hc.adopt_parent_apart _ hx, hc.adopt_parent_apart _ hx]
    exact (hc.apart x hx0 hx0 hx).1
  have hp0 : t.parent (a 0) = 0 := (hp 0 hn).trans (if_pos rfl)
  have hl0 : t.left (a 0) = a (2 * 0 + 1) := by simpa [ht] using hc.left 0 hn
  have hr0 : t.right (a 0) = a (2 * 0 + 2) := by simpa [ht] using hc.right 0 hn
  have hx00 : x ≠ a 0 := (hx 0 hn).symm
  simp only [hl0, hr0, Nodes.parent_setRight, Nodes.parent_setLeft, ensure_of hp0, bind, Except.bind]
  refine ⟨_, rfl, Complete.drop (hc.put hn.le (by omega) hx0 hx (if_pos rfl).symm ?_ ?_ ?_ (fun k hk hki => ?_)
    (fun k hk hki => ?_) (fun k hk _ => ?_) (fun y hy0 hyx hy => ?_) hc.bound) ⟨?_, ?_, ?_⟩, rfl⟩
  · simp [hx00]
  · simp [hx00]
  · simp [hpx]
  · have hk0 : a k ≠ a 0 := fun he => hki (hc.inj k hk 0 hn he)
    simp [hk0, hx k hk, ht, hc.left k hk]
  · have hk0 : a k ≠ a 0 := fun he => hki (hc.inj k hk 0 hn he)
    simp [hk0, hx k hk, ht, hc.right k hk]
  · simpa using hp k hk
  · have hy0' : y ≠ a 0 := (hy 0 hn).symm
    refine ⟨?_, ?_, ?_⟩
    · simp [ht, hc.adopt_parent_apart _ hy]
    · simp [hy0', hyx, ht]
    · simp [hy0', hyx, ht]
  · simp [hp0]
  · simp
  · simp

theorem Complete.clear (hc : Complete h a n e) (he : ∀ k < n, a k ≠ e) :
    Complete { h with nodes := clearLinks h.nodes e } a n 0 := by
  refine ⟨hc.ne_zero, hc.eq_zero, hc.inj, hc.root, fun k hk => ?_, fun k hk => ?_, fun k hk => ?_,
    fun x hx0 _ hx => ?_, hc.bound⟩
  · exact (update_of_ne (he k hk) _ _).trans (hc.left k hk)
  · exact (update_of_ne (he k hk) _ _).trans (hc.right k hk)
  · exact (update_of_ne (he k hk) _ _).trans (hc.parent k hk)
  by_cases hxe : x = e
  · rw [hxe]
    exact ⟨update_self _ _ _, update_self _ _ _, update_self _ _ _⟩
  obtain ⟨hp, hl, hr⟩ := hc.apart x hx0 hxe hx
  exact ⟨(update_of_ne hxe _ _).trans hp, (update_of_ne hxe _ _).trans hl, (update_of_ne hxe _ _).trans hr⟩

end

end ZeldaOS
