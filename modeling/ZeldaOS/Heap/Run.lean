import ZeldaOS.Heap.Spec
import ZeldaOS.Machine.Runs

/-!
# Runs of the heap

Every run of `attach_heap_node`, `detach_heap_node` and `delete_heap_node` from an empty heap, for any comparison.

* `heap_structure`: the heap stays a complete tree.
* `heap_priority_queue`: it is a priority queue.
* `null_free_iff`: when nothing is stored through `NULL`.
-/

namespace ZeldaOS

open Machine List

/-! ## Runs -/

inductive HeapCall where
  | attach (x : ℕ)
  | detach
  | delete (x : ℕ)

structure HeapRun where
  heap : Heap
  held : List ℕ

def HeapRun.empty : HeapRun := ⟨⟨⟨fun _ => 0, fun _ => 0, fun _ => 0⟩, 0, 0, 0⟩, []⟩

def Heap.last (h : Heap) : ℕ := (searchLastNode h.nodes h.fuel h.root).toOption.getD 0

def Heap.lastParent (h : Heap) : ℕ := (searchLastParent h.nodes h.fuel h.root).toOption.getD 0

section
variable (compare : ℕ → ℕ → ℤ)

def heapStep (s : HeapRun) : HeapCall → Except Fault HeapRun
  | .attach x =>
    if x ≠ 0 ∧ s.heap.Detached x then (attachHeapNode compare s.heap x).map fun h => ⟨h, s.held ++ [x]⟩
    else .ok s
  | .detach => (detachHeapNode compare s.heap).map fun r => ⟨r.1, s.held.erase r.2⟩
  | .delete x => (deleteHeapNode compare s.heap x).map fun h => ⟨h, s.held.erase x⟩

def detachAll : (fuel : ℕ) → Heap → Except Fault (List ℕ)
  | 0, _ => .error .diverge
  | fuel + 1, h => do
    let (h, x) ← detachHeapNode compare h
    if x = 0 then .ok [] else (detachAll fuel h).map (x :: ·)

/-- `last`, in the place of the parent of `y`, is exchanged with `y` and not with the sibling of `y`. -/
def ChangesPlace (t : Nodes) (last y : ℕ) : Prop :=
  t.parent y ≠ 0 ∧
    if t.left (t.parent y) = y then
      compare y last < 0 ∧
        (t.right (t.parent y) ≠ 0 → t.right (t.parent y) ≠ last → ¬compare (t.right (t.parent y)) y < 0)
    else compare y (if compare (t.left (t.parent y)) last < 0 then t.left (t.parent y) else last) < 0

/-- `last`, in the place of a node, sinks to the place of its own left sibling: each node on the way changes place. -/
inductive SinksToSibling (t : Nodes) (last : ℕ) : ℕ → Prop
  | sibling (h : ChangesPlace compare t last (t.left (t.parent last))) :
    SinksToSibling t last (t.parent (t.left (t.parent last)))
  | step {y : ℕ} (h : ChangesPlace compare t last y) (hs : SinksToSibling t last y) : SinksToSibling t last (t.parent y)

/-- The last node is a right child, so that its sibling will be an only child, and does not sink there from `x`. -/
def StaysAbove (s : HeapRun) (x : ℕ) : Prop :=
  s.held.length % 2 = 1 → s.heap.last ≠ s.heap.root → ¬SinksToSibling compare s.heap.nodes s.heap.last x

/-- No node is exchanged with an only child: not a new one, and not the last node in the place of a removed one. -/
def SparesNull (s : HeapRun) : HeapCall → Prop
  | .attach x => x ≠ 0 → s.heap.Detached x → s.held.length % 2 = 1 → 0 ≤ compare x s.heap.lastParent
  | .detach => StaysAbove compare s s.heap.root
  | .delete x => x ∈ s.held → StaysAbove compare s x

def NullFree (ops : List HeapCall) : Prop :=
  ∃ s, runSteps (heapStep compare) .empty ops = .ok s ∧ s.heap.nullStores = 0

end

/-! ## The nodes of a run -/

structure HoldsNodes (s : HeapRun) (a : ℕ → ℕ) (n : ℕ) : Prop where
  complete : Complete s.heap a n 0
  nodup : s.held.Nodup
  mem : ∀ x, x ∈ s.held ↔ x ∈ members a

variable {s : HeapRun} {a : ℕ → ℕ} {n x m : ℕ}

section
variable {s' : HeapRun} {a' : ℕ → ℕ} {compare : ℕ → ℕ → ℤ}

theorem holdsNodes_empty : HoldsNodes .empty (fun _ => 0) 0 where
  complete := ⟨nofun, fun _ _ => rfl, nofun, rfl, nofun, nofun, nofun, fun _ _ _ _ => ⟨rfl, rfl, rfl⟩, le_rfl⟩
  nodup := nodup_nil
  mem _ := iff_of_false not_mem_nil fun h => h.2 (Set.mem_range.1 h.1).choose_spec.symm

theorem HoldsNodes.perm (h : HoldsNodes s a n) : s.held.Perm ((range n).map a) := by
  refine (perm_ext_iff_of_nodup h.nodup ?_).2 fun x => ?_
  · exact nodup_range.map_on fun i hi j hj => h.complete.inj i (mem_range.1 hi) j (mem_range.1 hj)
  · simp only [h.mem, h.complete.mem_members, mem_map, mem_range]

theorem HoldsNodes.length_eq (h : HoldsNodes s a n) : s.held.length = n := by
  rw [h.perm.length_eq, length_map, length_range]

theorem HoldsNodes.detached (h : HoldsNodes s a n) (hx0 : x ≠ 0) (hx : x ∉ s.held) : s.heap.Detached x := by
  rw [h.mem] at hx
  refine ⟨h.complete.apart x hx0 hx0 (h.complete.notMem_members.1 hx), fun hroot => hx ⟨⟨0, ?_⟩, hx0⟩⟩
  rw [← h.complete.root, hroot]

theorem HoldsNodes.searchLastNode_eq (h : HoldsNodes s a n) :
    searchLastNode s.heap.nodes s.heap.fuel s.heap.root = .ok (if n = 0 then 0 else a (n - 1)) := by
  by_cases hn : n = 0
  · have hroot : s.heap.root = 0 := h.complete.root.trans (h.complete.eq_zero 0 hn.le)
    rw [searchLastNode, if_pos hroot, if_pos hn]
  · rw [searchLastNode_spec h.complete (Nat.pos_of_ne_zero hn), if_neg hn]

theorem HoldsNodes.last_eq (h : HoldsNodes s a n) : s.heap.last = if n = 0 then 0 else a (n - 1) := by
  rw [Heap.last, h.searchLastNode_eq]
  rfl

theorem HoldsNodes.changesPlace_iff (h : HoldsNodes s a (n + 1)) {c : ℕ} (hcn : c < n) :
    ChangesPlace compare s.heap.nodes (a n) (a c) ↔ Picked compare a n (a n) c := by
  have hc := h.complete
  rw [ChangesPlace, Picked, hc.parent c (by omega)]
  rcases Nat.eq_zero_or_pos c with rfl | hpos
  · exact iff_of_false (fun hc => hc.1 (if_pos rfl)) fun hc => absurd hc.1 (lt_irrefl 0)
  have hside := (up_eq_iff hpos).1 rfl
  rw [if_neg hpos.ne', hc.left _ (by omega), hc.right _ (by omega)]
  refine and_congr (iff_of_true (hc.ne_zero _ (by omega)) hpos) (Iff.trans ?_ (and_iff_right hcn).symm)
  rcases hside with hodd | heven
  · have hright : 2 * up c + 2 = c + 1 := by omega
    have hsibling : a (c + 1) ≠ 0 ∧ a (c + 1) ≠ a n ↔ c + 1 < n := by
      refine ⟨fun hne => ?_, fun hlt => ⟨hc.ne_zero _ (by omega), fun heq => ?_⟩⟩
      · by_contra hge
        exact hne.2 (congrArg a (by omega))
      · have := hc.inj _ (by omega) _ (by omega) heq
        omega
    rw [if_pos (congrArg a hodd.symm), if_pos (by omega), hright, ← and_imp, hsibling]
  · have hleft : 2 * up c + 1 = c - 1 := by omega
    have hother : a (c - 1) ≠ a c := fun heq => by
      have := hc.inj _ (by omega) _ (by omega) heq
      omega
    have hparity : ¬c % 2 = 1 := by omega
    rw [hleft, if_neg hother, if_neg hparity]

/-- On the levels, the left sibling of the last node is the last of the others. -/
theorem HoldsNodes.sinksToSibling_iff (h : HoldsNodes s a (n + 1)) (heven : n % 2 = 0) (hpos : 0 < n) {i : ℕ}
    (hi : i ≤ n) : SinksToSibling compare s.heap.nodes (a n) (a i) ↔ Sinks compare a n (a n) i := by
  have hc := h.complete
  have hparent : ∀ {c}, 0 < c → c < n → s.heap.nodes.parent (a c) = a (up c) := fun {c} h0 hcn => by
    rw [hc.parent c (by omega), if_neg h0.ne']
  have hsibling : s.heap.nodes.left (s.heap.nodes.parent (a n)) = a (n - 1) := by
    have hside := (up_eq_iff hpos).1 rfl
    rw [hc.parent n (by omega), if_neg hpos.ne', hc.left _ (by omega)]
    exact congrArg a (by omega)
  constructor
  · intro hs
    have hlevels : ∀ x, SinksToSibling compare s.heap.nodes (a n) x → ∃ j ≤ n, a j = x ∧ Sinks compare a n (a n) j := by
      intro x hx
      induction hx with
      | sibling hplace =>
        rw [hsibling, h.changesPlace_iff (by omega)] at hplace
        rw [hsibling, hparent hplace.1 hplace.2.1]
        exact ⟨_, (up_lt hplace.1).le.trans hplace.2.1.le, rfl, .last hplace⟩
      | step hplace _ ih =>
        obtain ⟨c, hcn, rfl, hsink⟩ := ih
        obtain ⟨d, hd, hdc, -⟩ := hsink.child
        have hlt : c < n := (hdc ▸ up_lt hd.1).trans hd.2.1
        rw [h.changesPlace_iff hlt] at hplace
        exact ⟨up c, (up_lt hplace.1).le.trans hcn, (hparent hplace.1 hlt).symm, .step hplace hsink⟩
    obtain ⟨j, hj, hji, hsink⟩ := hlevels _ hs
    exact hc.inj j (by omega) i (by omega) hji ▸ hsink
  · intro hs
    clear hi
    induction hs with
    | last hpick =>
      rw [← h.changesPlace_iff (by omega)] at hpick
      have hplace := SinksToSibling.sibling (hsibling ▸ hpick)
      rwa [hsibling, hparent (by omega) (by omega)] at hplace
    | step hpick _ ih =>
      rw [← hparent hpick.1 hpick.2.1]
      exact .step ((h.changesPlace_iff hpick.2.1).2 hpick) ih

theorem HoldsNodes.staysAbove_iff (h : HoldsNodes s a (n + 1)) {i : ℕ} (hi : i ≤ n) :
    StaysAbove compare s (a i) ↔ ¬(n % 2 = 0 ∧ Sinks compare a n (a n) i) := by
  have hc := h.complete
  have hlast : s.heap.last = a n := h.last_eq
  rw [StaysAbove, h.length_eq, hlast, hc.root]
  rcases Nat.eq_zero_or_pos n with rfl | hpos
  · exact iff_of_true (fun _ hne => absurd rfl hne) fun hs => not_sinks (Nat.zero_le _) hs.2
  have hne : a n ≠ a 0 := fun heq => hpos.ne' (hc.inj n (by omega) 0 (by omega) heq)
  refine ⟨fun hs ⟨heven, hsink⟩ => hs (by omega) hne ((h.sinksToSibling_iff heven hpos hi).2 hsink),
    fun hs hodd _ hsink => ?_⟩
  have heven : n % 2 = 0 := by omega
  exact hs ⟨heven, (h.sinksToSibling_iff heven hpos hi).1 hsink⟩

theorem HoldsNodes.remove (h : HoldsNodes s a n) {heap : Heap} (hc : Complete heap a' m 0)
    (hmem : members a' = members a \ {x}) : HoldsNodes ⟨heap, s.held.erase x⟩ a' m := by
  refine ⟨hc, h.nodup.erase x, fun y => ?_⟩
  rw [h.nodup.mem_erase_iff, h.mem, hmem, Set.mem_sdiff, Set.mem_singleton_iff, and_comm]

theorem null_iff {k : ℕ} {p q : Prop} [Decidable p] (h : m = k + if p then 1 else 0) (hq : q ↔ ¬p) :
    k ≤ m ∧ (m = k ↔ q) := by
  by_cases hp : p
  · rw [if_pos hp] at h
    exact ⟨by omega, iff_of_false (by omega) fun hn => hq.1 hn hp⟩
  rw [if_neg hp] at h
  exact ⟨by omega, iff_of_true h (hq.2 hp)⟩

/-! ## The results -/

open Classical in
theorem heapStep_spec (h : HoldsNodes s a n) (op : HeapCall) :
    ∃ s' a' n', heapStep compare s op = .ok s' ∧ HoldsNodes s' a' n' ∧
      (s.heap.nullStores ≤ s'.heap.nullStores ∧ (s'.heap.nullStores = s.heap.nullStores ↔ SparesNull compare s op)) ∧
      ∀ le, Orders compare le → (∀ x, op ≠ .delete x) → HeapOrdered le a n → HeapOrdered le a' n' := by
  have hc := h.complete
  cases op with
  | attach x =>
    by_cases hd : x ≠ 0 ∧ s.heap.Detached x
    · have hx := hc.notMem_of_detached hd.2
      obtain ⟨heap, a', hattach, hc', hmem, hnull, hord⟩ := attachHeapNode_spec compare hc hd.1 hx
      refine ⟨⟨heap, s.held ++ [x]⟩, a', n + 1, ?_, ⟨hc', ?_, fun y => ?_⟩, null_iff hnull ?_,
        fun le ho _ => hord le ho⟩
      · rw [heapStep, if_pos hd, hattach]
        rfl
      · refine h.nodup.append (nodup_singleton x) fun y hy hyx => hx ?_
        rw [← mem_singleton.1 hyx, ← h.mem]
        exact hy
      · rw [mem_append, mem_singleton, h.mem, hmem, Set.mem_insert_iff, or_comm]
      have hparent : n % 2 = 1 → s.heap.lastParent = a (up n) := fun hodd => by
        rw [Heap.lastParent, searchLastParent_spec hc, if_neg (by omega)]
        rfl
      rw [SparesNull, h.length_eq]
      refine ⟨fun hs ⟨hodd, hlt⟩ => ?_, fun hs _ _ hodd => not_lt.1 fun hlt => hs ⟨hodd, ?_⟩⟩
      · exact absurd hlt (not_lt.2 (hparent hodd ▸ hs hd.1 hd.2 hodd))
      · exact hparent hodd ▸ hlt
    · exact ⟨s, a, n, if_neg hd, h, ⟨le_rfl, iff_of_true rfl fun h0 hx => absurd ⟨h0, hx⟩ hd⟩, fun _ _ _ => id⟩
  | detach =>
    cases n with
    | zero =>
      have hroot : s.heap.root = 0 := hc.root.trans (hc.eq_zero 0 le_rfl)
      have hnone : s.held = [] := length_eq_zero_iff.1 h.length_eq
      have hstep : heapStep compare s .detach = .ok s := by
        rw [heapStep, detachHeapNode, if_pos hroot, Except.map, hnone, erase_nil, ← hnone]
      refine ⟨s, a, 0, hstep, h, ⟨le_rfl, iff_of_true rfl fun hodd => ?_⟩, fun _ _ _ => id⟩
      rw [hnone] at hodd
      cases hodd
    | succ n =>
      obtain ⟨heap, a', hdetach, hc', hmem, hnull, hord⟩ := detachHeapNode_spec compare hc
      have h' := h.remove hc' hmem
      have hstep : heapStep compare s .detach = .ok ⟨heap, s.held.erase (a 0)⟩ := by
        rw [heapStep, hdetach]
        rfl
      refine ⟨_, a', n, hstep, h', null_iff hnull ?_, fun le ho _ => hord le ho⟩
      rw [← h.staysAbove_iff n.zero_le, SparesNull, hc.root]
  | delete x =>
    by_cases hx : x ∈ s.held
    · obtain ⟨i, hi, rfl⟩ := hc.mem_members.1 ((h.mem x).1 hx)
      obtain ⟨m, rfl⟩ : ∃ m, n = m + 1 := ⟨n - 1, by omega⟩
      obtain ⟨heap, a', hdelete, hc', hmem, hnull, -⟩ := deleteHeapNode_spec compare hc (Nat.lt_succ_iff.1 hi)
      have h' := h.remove hc' hmem
      have hstep : heapStep compare s (.delete (a i)) = .ok ⟨heap, s.held.erase (a i)⟩ := by
        rw [heapStep, hdelete]
        rfl
      refine ⟨_, a', m, hstep, h', null_iff hnull ?_, fun _ _ hop => absurd rfl (hop _)⟩
      rw [← h.staysAbove_iff (Nat.lt_succ_iff.1 hi), SparesNull]
      exact forall_prop_of_true hx
    · have hstep : heapStep compare s (.delete x) = .ok s := by
        rw [heapStep, deleteHeapNode_detached compare hc fun hm => hx ((h.mem x).2 hm), Except.map, erase_of_not_mem hx]
      exact ⟨s, a, n, hstep, h, ⟨le_rfl, iff_of_true rfl fun hm => absurd hm hx⟩, fun _ _ hop => absurd rfl (hop _)⟩

end

/-- **The heap is a complete tree of the attached nodes after every run**, and no `ASSERT` fails. -/
theorem heap_structure (compare : ℕ → ℕ → ℤ) (ops : List HeapCall) :
    ∃ s a n, runSteps (heapStep compare) .empty ops = .ok s ∧ Complete s.heap a n 0 ∧ s.held.Perm ((range n).map a) ∧
      searchLastNode s.heap.nodes s.heap.fuel s.heap.root = .ok (if n = 0 then 0 else a (n - 1)) ∧
      (∃ m, searchLastParent s.heap.nodes s.heap.fuel s.heap.root = .ok (a m) ∧
        (∀ k < m, s.heap.nodes.left (a k) ≠ 0 ∧ s.heap.nodes.right (a k) ≠ 0) ∧
        (n ≠ 0 → m < n ∧ s.heap.nodes.right (a m) = 0)) ∧
      ∀ x ∉ s.held, (x ≠ 0 → s.heap.Detached x) ∧ deleteHeapNode compare s.heap x = .ok s.heap := by
  have hkeep : ∀ s op, (∃ a n, HoldsNodes s a n) → ∃ s', heapStep compare s op = .ok s' ∧ ∃ a n, HoldsNodes s' a n := by
    rintro s op ⟨a, n, h⟩
    obtain ⟨s', a', n', hstep, h', -⟩ := heapStep_spec h op
    exact ⟨s', hstep, a', n', h'⟩
  obtain ⟨s, hrun, a, n, h⟩ := inv_run hkeep ⟨_, _, holdsNodes_empty⟩ ops
  have hc := h.complete
  have hup : up n = (n - 1) / 2 := rfl
  refine ⟨s, a, n, hrun, hc, h.perm, h.searchLastNode_eq, ⟨up n, ?_, fun k hk => ⟨?_, ?_⟩, fun hn => ⟨?_, ?_⟩⟩,
    fun x hx => ⟨fun hx0 => h.detached hx0 hx, deleteHeapNode_detached compare hc fun hm => hx ((h.mem x).2 hm)⟩⟩
  · rw [searchLastParent_spec hc]
    split_ifs with hn
    · rw [hc.eq_zero _ (by omega)]
    · rfl
  · rw [hc.left k (by omega)]
    exact hc.ne_zero _ (by omega)
  · rw [hc.right k (by omega)]
    exact hc.ne_zero _ (by omega)
  · omega
  · rw [hc.right _ (by omega)]
    exact hc.eq_zero _ (by omega)

theorem detachAll_spec {compare : ℕ → ℕ → ℤ} {le : ℕ → ℕ → Prop} (ho : Orders compare le) (h : HoldsNodes s a n)
    (hord : HeapOrdered le a n) :
    ∃ xs, detachAll compare (n + 1) s.heap = .ok xs ∧ xs.Perm s.held ∧ xs.Pairwise le := by
  induction n generalizing s a with
  | zero =>
    have hroot : s.heap.root = 0 := h.complete.root.trans (h.complete.eq_zero 0 le_rfl)
    refine ⟨[], ?_, ?_, .nil⟩
    · rw [detachAll, detachHeapNode, if_pos hroot]
      rfl
    · rw [length_eq_zero_iff.1 h.length_eq]
  | succ n ih =>
    obtain ⟨heap, a', hdetach, hc', hmem, -, hkeep⟩ := detachHeapNode_spec compare h.complete
    obtain ⟨xs, hall, hperm, hsorted⟩ := ih (h.remove hc' hmem) (hkeep le ho hord)
    have hfirst : a 0 ∈ s.held := (h.mem _).2 (h.complete.mem_members.2 ⟨0, n.succ_pos, rfl⟩)
    refine ⟨a 0 :: xs, ?_, (hperm.cons (a 0)).trans (perm_cons_erase hfirst).symm, hsorted.cons fun y hy => ?_⟩
    · simp only [detachAll, hdetach, bind, Except.bind, if_neg (h.complete.ne_zero 0 n.succ_pos)]
      exact congrArg (Except.map _) hall
    obtain ⟨i, hi, rfl⟩ := h.complete.mem_members.1 ((h.mem y).1 (mem_of_mem_erase (hperm.subset hy)))
    exact hord.first_le ho.trans ho.refl hi

/-- **The heap is a priority queue** for every comparison that is a total preorder. -/
theorem heap_priority_queue {compare : ℕ → ℕ → ℤ} (ho : Orders compare fun x y => 0 ≤ compare y x) (ops : List HeapCall)
    (hops : ∀ x, .delete x ∉ ops) :
    ∃ s, runSteps (heapStep compare) .empty ops = .ok s ∧
      (∀ x ∈ s.held, s.heap.nodes.parent x ≠ 0 → 0 ≤ compare x (s.heap.nodes.parent x)) ∧
      (∃ h x, detachHeapNode compare s.heap = .ok (h, x) ∧ (x = 0 ↔ s.held = []) ∧
        (x ≠ 0 → x ∈ s.held ∧ ∀ y ∈ s.held, 0 ≤ compare y x)) ∧
      ∃ xs, detachAll compare (s.held.length + 1) s.heap = .ok xs ∧ xs.Perm s.held ∧
        xs.Pairwise fun x y => 0 ≤ compare y x := by
  have hkeep : ∀ s op, (∃ a n, HoldsNodes s a n ∧ HeapOrdered (fun x y => 0 ≤ compare y x) a n) →
      (∀ x, op ≠ .delete x) → ∃ s', heapStep compare s op = .ok s' ∧
        ∃ a n, HoldsNodes s' a n ∧ HeapOrdered (fun x y => 0 ≤ compare y x) a n := by
    rintro s op ⟨a, n, h, hord⟩ hop
    obtain ⟨s', a', n', hstep, h', -, hord'⟩ := heapStep_spec h op
    exact ⟨s', hstep, a', n', h', hord' _ ho hop hord⟩
  obtain ⟨s, hrun, a, n, h, hord⟩ := inv_run_total hkeep ⟨_, _, holdsNodes_empty, fun _ _ hi => absurd hi (by omega)⟩
    (along_of_forall fun op hop x hx => hops x (hx ▸ hop))
  have hc := h.complete
  have hmem : ∀ x ∈ s.held, ∃ i < n, a i = x := fun x hx => hc.mem_members.1 ((h.mem x).1 hx)
  refine ⟨s, hrun, fun x hx hp => ?_, ?_, ?_⟩
  · obtain ⟨i, hi, rfl⟩ := hmem x hx
    rw [hc.parent i hi] at hp ⊢
    split_ifs at hp ⊢ with h0
    · exact absurd rfl hp
    · exact hord i (Nat.pos_of_ne_zero h0) hi
  · cases n with
    | zero =>
      have hroot : s.heap.root = 0 := hc.root.trans (hc.eq_zero 0 le_rfl)
      exact ⟨s.heap, 0, if_pos hroot, iff_of_true rfl (length_eq_zero_iff.1 h.length_eq), fun h0 => absurd rfl h0⟩
    | succ n =>
      obtain ⟨heap, a', hdetach, -⟩ := detachHeapNode_spec compare hc
      have hfirst : a 0 ∈ s.held := (h.mem _).2 (hc.mem_members.2 ⟨0, n.succ_pos, rfl⟩)
      refine ⟨heap, a 0, hdetach, iff_of_false (hc.ne_zero 0 n.succ_pos) (ne_nil_of_mem hfirst), fun _ =>
        ⟨hfirst, fun y hy => ?_⟩⟩
      obtain ⟨i, hi, rfl⟩ := hmem y hy
      exact hord.first_le ho.trans ho.refl hi
  · rw [h.length_eq]
    exact detachAll_spec ho h hord

def byAddress (x y : ℕ) : ℤ := x - y

theorem heap_priority_queue_three : ∃ s, runSteps
    (heapStep byAddress) .empty [.attach 3, .attach 1, .attach 2] = .ok s ∧
      detachAll byAddress 4 s.heap = .ok [1, 2, 3] := by
  have ho : Orders byAddress fun x y => 0 ≤ byAddress y x := by
    constructor <;> intros <;> unfold byAddress at * <;> omega
  obtain ⟨s, hrun, -, -, xs, hall, hperm, hsorted⟩ :=
    heap_priority_queue ho [.attach 3, .attach 1, .attach 2] (by simp)
  have hheld : (runSteps (heapStep byAddress) .empty [.attach 3, .attach 1, .attach 2]).toOption.map HeapRun.held =
      some [3, 1, 2] := by decide
  rw [hrun] at hheld
  have hheld' : s.held = [3, 1, 2] := Option.some.inj hheld
  rw [hheld'] at hall hperm
  have hxs : xs = [1, 2, 3] := by
    refine Perm.eq_of_pairwise (fun x y _ _ hxy hyx => ?_) hsorted (by decide) (hperm.trans (by decide))
    unfold byAddress at hxy hyx
    omega
  exact ⟨s, hrun, hxs ▸ hall⟩

theorem nullStores_run {compare : ℕ → ℕ → ℤ} (h : HoldsNodes s a n) (ops : List HeapCall) :
    (∃ s', runSteps (heapStep compare) s ops = .ok s' ∧ s'.heap.nullStores = 0) ↔
      s.heap.nullStores = 0 ∧ Along (heapStep compare) (SparesNull compare) s ops := by
  induction ops generalizing s a n with
  | nil =>
    refine ⟨?_, fun h0 => ⟨s, rfl, h0.1⟩⟩
    rintro ⟨s', hs, h0⟩
    exact ⟨Except.ok.inj hs ▸ h0, trivial⟩
  | cons op ops ih =>
    obtain ⟨s1, a1, n1, hstep, h1, ⟨hle, hiff⟩, -⟩ := @heapStep_spec _ _ _ compare h op
    rw [runSteps, Along, hstep]
    rw [ih h1, ← hiff]
    exact ⟨fun hc => ⟨by omega, by omega, hc.2⟩, fun hc => ⟨by omega, hc.2.2⟩⟩

/-- **Nothing is stored through `NULL` if and only if no node is exchanged with an only child.** -/
theorem null_free_iff (compare : ℕ → ℕ → ℤ) (ops : List HeapCall) :
    NullFree compare ops ↔ Along (heapStep compare) (SparesNull compare) .empty ops :=
  (nullStores_run holdsNodes_empty ops).trans (and_iff_right rfl)

/-- `swap_nodes` stores through the missing right child of the root. -/
theorem swap_stores_through_null : ¬NullFree byAddress [.attach 2, .attach 1] := by
  rintro ⟨s, hrun, hnull⟩
  have hstores : (runSteps (heapStep byAddress) .empty [.attach 2, .attach 1]).toOption.map
      (·.heap.nullStores) = some 1 := by decide
  rw [hrun] at hstores
  exact absurd (hnull.symm.trans (Option.some.inj hstores)) (by decide)

end ZeldaOS
