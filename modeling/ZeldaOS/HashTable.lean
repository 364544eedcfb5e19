import ZeldaOS.Machine.Lists
import ZeldaOS.Posix

/-!
# Hash tables

`lib/hash_table.c` for any hash function and a fixed key of every node, and `do_task_traverse` of `kernel/task.c` over
the buckets.

* `hash_table_is_map`: a hash table is a finite map after every run.
-/

namespace ZeldaOS

open Machine List Function

variable {κ : Type} {k : ℕ}

/-! ## Traversal -/

/-- The mask is `2 ^ k - 1`, and the identity function compares the key of a node. -/
structure HashStub (κ : Type) (k : ℕ) where
  head : Fin (2 ^ k) → ℕ
  hash : κ → ℕ
  key : ℕ → κ
  fuel : ℕ

namespace HashStub

variable (S : HashStub κ k)

/-- `hash(blob) & stub->stub_mask`. -/
def bucketOf (blob : κ) : Fin (2 ^ k) :=
  ⟨S.hash blob &&& (2 ^ k - 1), Nat.and_lt_two_pow _ (Nat.sub_lt (Nat.two_pow_pos k) Nat.one_pos)⟩

/-- The inner loop of `do_task_traverse`, with `to_terminate`. -/
def traverseBucket (L : Links) (count : ℤ) : (fuel cur : ℕ) → (taskp : List ℕ) → Except Fault (List ℕ × Bool)
  | 0, _, _ => .error .diverge
  | fuel + 1, cur, taskp =>
    if cur = 0 then .ok (taskp, false)
    else if taskp.length < count then traverseBucket L count fuel (L.next cur) (taskp ++ [cur])
    else .ok (taskp, true)

def doTaskTraverse (L : Links) (count : ℤ) : (heads taskp : List ℕ) → Except Fault (List ℕ)
  | [], taskp => .ok taskp
  | h :: heads, taskp => do
    let (taskp, toTerminate) ← traverseBucket L count S.fuel (L.next h) taskp
    if toTerminate then .ok taskp else doTaskTraverse L count heads taskp

/-- A node that is in no list. -/
def Loose (M : κ → Option ℕ) (node : ℕ) : Prop := node ≠ 0 ∧ (∀ j, node ≠ S.head j) ∧ M (S.key node) ≠ some node

structure Stores (n : ℕ) (L : Links) (q : Fin (2 ^ k) → List ℕ) (M : κ → Option ℕ) : Prop where
  lists : Lists L S.head q
  mem : ∀ i x, x ∈ q i ↔ M (S.key x) = some x ∧ S.bucketOf (S.key x) = i
  key : ∀ blob x, M blob = some x → S.key x = blob
  short : ∀ i, (q i).length ≤ n

variable {S} {L : Links} {q : Fin (2 ^ k) → List ℕ} {M : κ → Option ℕ} {n node b fuel : ℕ} {xs : List ℕ}

theorem Stores.found (h : S.Stores n L q M) {blob : κ} {x : ℕ} (hx : M blob = some x) : x ∈ q (S.bucketOf blob) := by
  obtain rfl := h.key blob x hx
  exact (h.mem _ x).2 ⟨hx, rfl⟩

theorem traverseBucket_spec (hseg : Seg L.next L.prev b xs 0) (hpos : ∀ y ∈ xs, y ≠ 0) (hfuel : xs.length < fuel)
    {count : ℤ} {taskp : List ℕ} (hle : taskp.length ≤ count.toNat) : traverseBucket L count fuel (xs.headD 0) taskp =
      .ok ((taskp ++ xs).take count.toNat, decide (count.toNat < (taskp ++ xs).length)) := by
  obtain ⟨fuel, rfl⟩ : ∃ j, fuel = j + 1 := ⟨fuel - 1, by omega⟩
  induction xs generalizing b fuel taskp with
  | nil =>
    rw [append_nil, take_of_length_le hle, decide_eq_false (by omega)]
    rfl
  | cons y xs ih =>
    rw [length_cons] at hfuel
    rw [traverseBucket, headD_cons, if_neg (hpos y mem_cons_self)]
    by_cases hroom : (taskp.length : ℤ) < count
    · obtain ⟨fuel, rfl⟩ : ∃ j, fuel = j + 1 := ⟨fuel - 1, by omega⟩
      rw [if_pos hroom, hseg.2.1, ih hseg.2.2 (fun z hz => hpos z (mem_cons_of_mem _ hz))
        (by rw [length_append, length_singleton]; omega) fuel (by omega), append_assoc]
      rfl
    · have hfull : count.toNat = taskp.length := by omega
      rw [if_neg hroom, hfull, take_left, decide_eq_true (by simp)]

theorem doTaskTraverse_spec (h : S.Stores n L q M) (hfuel : n < S.fuel) {count : ℤ} (is : List (Fin (2 ^ k)))
    {taskp : List ℕ} (hle : taskp.length ≤ count.toNat) :
    S.doTaskTraverse L count (is.map S.head) taskp = .ok ((taskp ++ is.flatMap q).take count.toNat) := by
  induction is generalizing taskp with
  | nil =>
    rw [flatMap_nil, append_nil, take_of_length_le hle]
    rfl
  | cons i is ih =>
    obtain ⟨hfirst, -, hseg⟩ := h.lists.isList i
    rw [map_cons, doTaskTraverse, hfirst,
      traverseBucket_spec hseg (h.lists.ne_zero i) ((h.short i).trans_lt hfuel) hle, flatMap_cons, ← append_assoc]
    by_cases hstop : count.toNat < (taskp ++ q i).length
    · rw [decide_eq_true hstop, take_append_of_le_length hstop.le]
      rfl
    rw [decide_eq_false hstop, take_of_length_le (not_lt.1 hstop)]
    exact ih (not_lt.1 hstop)

theorem Stores.nodup (h : S.Stores n L q M) : ((finRange (2 ^ k)).flatMap q).Nodup := by
  refine nodup_flatMap.2 ⟨fun i _ => h.lists.nodup i, (nodup_finRange _).imp fun hne x hx hy => ?_⟩
  exact hne (h.lists.apart _ _ x hx hy)

variable [DecidableEq κ]

/-! ## Nodes and keys -/

def searchBucket (key : ℕ → κ) (L : Links) (blob : κ) : (fuel cur : ℕ) → Except Fault ℕ
  | 0, _ => .error .diverge
  | fuel + 1, cur =>
    if cur = 0 then .ok 0 else if key cur = blob then .ok cur else searchBucket key L blob fuel (L.next cur)

variable (S)

def searchHashNode (L : Links) (blob : κ) : Except Fault ℕ :=
  searchBucket S.key L blob S.fuel (L.next (S.head (S.bucketOf blob)))

def addHashNode (L : Links) (blob : κ) (node : ℕ) : Except Fault (Links × ℤ) := do
  ensure (S.key node = blob)
  let target ← S.searchHashNode L blob
  if target ≠ 0 then .ok (L, -errExist)
  else
    let L ← listAppend L (S.head (S.bucketOf blob)) node
    let target ← S.searchHashNode L blob
    ensure (target ≠ 0)
    .ok (L, 0)

def deleteHashNode (L : Links) (blob : κ) : Except Fault (Links × ℤ) := do
  let target ← S.searchHashNode L blob
  if target = 0 then .ok (L, -errNotPresent)
  else
    let head := S.head (S.bucketOf blob)
    let L ← listDelete L S.fuel head target
    ensure (L.prev target = 0 ∧ L.next target = 0 ∧ L.next head ≠ target)
    let target ← S.searchHashNode L blob
    ensure (target = 0)
    .ok (L, 0)

/-- The links after a run with `n` additions, and the map that it should leave. -/
inductive Reachable : ℕ → Links → (κ → Option ℕ) → Prop
  | init {L : Links} (h : Lists L S.head fun _ => []) : Reachable 0 L fun _ => none
  | add {n : ℕ} {L L' : Links} {M : κ → Option ℕ} {node : ℕ} {ret : ℤ} (h : Reachable n L M) (hnode : S.Loose M node)
    (hrun : S.addHashNode L (S.key node) node = .ok (L', ret)) :
    Reachable (n + 1) L' (update M (S.key node) (some ((M (S.key node)).getD node)))
  | delete {n : ℕ} {L L' : Links} {M : κ → Option ℕ} {blob : κ} {ret : ℤ} (h : Reachable n L M)
    (hrun : S.deleteHashNode L blob = .ok (L', ret)) : Reachable n L' (update M blob none)

variable {S}

theorem searchBucket_spec (key : ℕ → κ) (hseg : Seg L.next L.prev b xs 0) (hpos : ∀ y ∈ xs, y ≠ 0)
    (hfuel : xs.length < fuel) (blob : κ) :
    searchBucket key L blob fuel (xs.headD 0) = .ok ((xs.find? fun x => key x = blob).getD 0) := by
  obtain ⟨fuel, rfl⟩ : ∃ j, fuel = j + 1 := ⟨fuel - 1, by omega⟩
  induction xs generalizing b fuel with
  | nil => rfl
  | cons y xs ih =>
    rw [length_cons] at hfuel
    obtain ⟨fuel, rfl⟩ : ∃ j, fuel = j + 1 := ⟨fuel - 1, by omega⟩
    rw [searchBucket, headD_cons, if_neg (hpos y mem_cons_self), find?_cons, hseg.2.1,
      ih hseg.2.2 (fun z hz => hpos z (mem_cons_of_mem _ hz)) fuel (by omega)]
    by_cases hy : key y = blob <;> simp [hy]

theorem Stores.search (h : S.Stores n L q M) (hfuel : n < S.fuel) (blob : κ) :
    S.searchHashNode L blob = .ok ((M blob).getD 0) := by
  obtain ⟨hfirst, -, hseg⟩ := h.lists.isList (S.bucketOf blob)
  have hfind : (q (S.bucketOf blob)).find? (fun x => S.key x = blob) = M blob := by
    cases hf : (q (S.bucketOf blob)).find? fun x => S.key x = blob with
    | none =>
      refine (Option.eq_none_iff_forall_ne_some.2 fun x hx => ?_).symm
      exact absurd (decide_eq_true (h.key blob x hx)) (find?_eq_none.1 hf x (h.found hx))
    | some x =>
      have hkey : S.key x = blob := by simpa using find?_some hf
      rw [← hkey, ((h.mem _ x).1 (mem_of_find?_eq_some hf)).1]
  rw [searchHashNode, hfirst, searchBucket_spec _ hseg (h.lists.ne_zero _) ((h.short _).trans_lt hfuel), hfind]

theorem Stores.add (h : S.Stores n L q M) (hnode : S.Loose M node) (hfuel : n + 1 < S.fuel) :
    ∃ L' q', S.addHashNode L (S.key node) node = .ok (L', if (M (S.key node)).isSome then -errExist else 0) ∧
      S.Stores (n + 1) L' q' (update M (S.key node) (some ((M (S.key node)).getD node))) ∧
      ((M (S.key node)).isSome → L' = L) := by
  have hsearch := h.search (by omega) (S.key node)
  cases hM : M (S.key node) with
  | some y =>
    rw [hM] at hsearch
    refine ⟨L, q, ?_, ?_, fun _ => rfl⟩
    · simp only [addHashNode, ensure_of, hsearch, bind, Except.bind]
      exact if_pos (h.lists.ne_zero _ y (h.found hM))
    rw [Option.getD_some, ← hM, update_eq_self]
    exact ⟨h.lists, h.mem, h.key, fun i => (h.short i).trans (Nat.le_succ n)⟩
  | none =>
    rw [hM] at hsearch
    set i := S.bucketOf (S.key node) with hi
    have hout : ∀ j, node ∉ q j := fun j hj => hnode.2.2 ((h.mem j node).1 hj).1
    obtain ⟨L', hL', h'⟩ := listAppend_spec h.lists i hnode.1 hnode.2.1 hout
    have hstores : S.Stores (n + 1) L' (update q i (q i ++ [node])) (update M (S.key node) (some node)) := by
      refine ⟨h', fun j x => ?_, fun blob x => ?_, fun j => ?_⟩
      · have := h.mem j x
        grind [update_apply]
      · have := h.key blob x
        grind [update_apply]
      have := h.short j
      grind [update_apply]
    have hthere := hstores.search hfuel (S.key node)
    rw [update_self] at hthere
    refine ⟨L', _, ?_, hstores, fun hc => absurd hc Bool.false_ne_true⟩
    simp only [addHashNode, ensure_of, hsearch, bind, Except.bind]
    refine (if_neg (not_not.2 rfl)).trans ?_
    simp only [← hi, hL', hthere, Option.getD_some, ensure_of hnode.1]
    rfl

theorem Stores.delete (h : S.Stores n L q M) (hfuel : n < S.fuel) (blob : κ) :
    ∃ L' q', S.deleteHashNode L blob = .ok (L', if (M blob).isSome then 0 else -errNotPresent) ∧
      S.Stores n L' q' (update M blob none) ∧ (M blob = none → L' = L) := by
  have hsearch := h.search hfuel blob
  cases hM : M blob with
  | none =>
    rw [hM] at hsearch
    refine ⟨L, q, ?_, by rwa [← hM, update_eq_self], fun _ => rfl⟩
    simp only [deleteHashNode, hsearch, bind, Except.bind]
    rfl
  | some x =>
    have hx := h.found hM
    have hkey := h.key blob x hM
    have hx0 : x ≠ 0 := h.lists.ne_zero _ x hx
    rw [hM] at hsearch
    set i := S.bucketOf blob with hi
    obtain ⟨l, r, hq⟩ := append_of_mem hx
    obtain ⟨L', hL', h'⟩ := listDelete_spec h.lists hq S.fuel ((h.short i).trans hfuel.le)
    have hnd := h.lists.nodup i
    rw [hq] at hnd
    have hout : x ∉ l ++ r := (nodup_cons.1 (nodup_middle.1 hnd)).1
    have hstores : S.Stores n L' (update q i (l ++ r)) (update M blob none) := by
      refine ⟨h', fun j y => ?_, fun b y => ?_, fun j => ?_⟩
      · have := h.mem j y
        grind [update_apply]
      · have := h.key b y
        grind [update_apply]
      have := h.short j
      grind [update_apply]
    have hgone := hstores.search hfuel blob
    rw [update_self] at hgone
    have hdetached := h'.detached x (fun j hj => by
      have := (hstores.mem j x).1 hj
      grind [update_apply]) (h.lists.ne_head i x hx)
    have hfirst : L'.next (S.head i) ≠ x := by
      rw [(h'.isList i).first, update_self]
      rcases headD_or_mem (l ++ r) 0 with he | he
      · rw [he]
        exact hx0.symm
      · exact fun hc => hout (hc ▸ he)
    refine ⟨L', _, ?_, hstores, fun hc => absurd hc (Option.some_ne_none x)⟩
    simp only [deleteHashNode, hsearch, bind, Except.bind]
    refine (if_neg hx0).trans ?_
    simp only [← hi, hL', Option.getD_some, hgone, ensure_of (⟨hdetached.2, hdetached.1, hfirst⟩ : _ ∧ _ ∧ _)]
    rfl

theorem Reachable.stores (h : S.Reachable n L M) (hfuel : n < S.fuel) : ∃ q, S.Stores n L q M := by
  induction h with
  | init h => exact ⟨_, h, by simp, nofun, fun _ => le_rfl⟩
  | add h hnode hrun ih =>
    obtain ⟨q, hq⟩ := ih (by omega)
    obtain ⟨L', q', hadd, hstores, -⟩ := hq.add hnode hfuel
    cases hrun.symm.trans hadd
    exact ⟨q', hstores⟩
  | delete h hrun ih =>
    obtain ⟨q, hq⟩ := ih hfuel
    obtain ⟨L', q', hdelete, hstores, -⟩ := hq.delete hfuel _
    cases hrun.symm.trans hdelete
    exact ⟨q', hstores⟩

theorem Reachable.addNode (h : S.Reachable n L M) (hfuel : n + 1 < S.fuel) (node : ℕ) (hnode : S.Loose M node) :
    ∃ L', S.Reachable (n + 1) L' (update M (S.key node) (some ((M (S.key node)).getD node))) := by
  obtain ⟨q, hq⟩ := h.stores (by omega)
  obtain ⟨L', -, hadd, -⟩ := hq.add hnode hfuel
  exact ⟨L', .add h hnode hadd⟩

theorem Reachable.deleteKey (h : S.Reachable n L M) (hfuel : n < S.fuel) (blob : κ) :
    ∃ L', S.Reachable n L' (update M blob none) := by
  obtain ⟨q, hq⟩ := h.stores hfuel
  obtain ⟨L', -, hdelete, -⟩ := hq.delete hfuel blob
  exact ⟨L', .delete h hdelete⟩

end HashStub

/-- **A hash table is a finite map after every run.** -/
theorem hash_table_is_map [DecidableEq κ] (S : HashStub κ k) {n : ℕ} {L : Links} {M : κ → Option ℕ}
    (h : S.Reachable n L M) (hfuel : n + 1 < S.fuel) :
    (∀ blob, S.searchHashNode L blob = .ok ((M blob).getD 0)) ∧ (∀ blob x, M blob = some x → x ≠ 0 ∧ S.key x = blob) ∧
      (∀ node, S.Loose M node → ∃ L', S.addHashNode L (S.key node) node =
        .ok (L', if (M (S.key node)).isSome then -errExist else 0) ∧ ((M (S.key node)).isSome → L' = L)) ∧
      (∀ blob, ∃ L', S.deleteHashNode L blob = .ok (L', if (M blob).isSome then 0 else -errNotPresent) ∧
        (M blob = none → L' = L)) ∧
      ∃ tasks : List ℕ, tasks.Nodup ∧ (∀ x, x ∈ tasks ↔ M (S.key x) = some x) ∧ ∀ count,
        S.doTaskTraverse L count ((finRange (2 ^ k)).map S.head) [] = .ok (tasks.take count.toNat) := by
  obtain ⟨q, hq⟩ := h.stores (by omega)
  refine ⟨hq.search (by omega), fun blob x hx => ⟨hq.lists.ne_zero _ x (hq.found hx), hq.key blob x hx⟩,
    fun node hnode => ?_, fun blob => ?_, (finRange (2 ^ k)).flatMap q, hq.nodup, fun x => ?_, fun count => ?_⟩
  · obtain ⟨L', q', hadd, -, hsame⟩ := hq.add hnode hfuel
    exact ⟨L', hadd, hsame⟩
  · obtain ⟨L', q', hdelete, -, hsame⟩ := hq.delete (by omega) blob
    exact ⟨L', hdelete, hsame⟩
  · simp only [mem_flatMap, mem_finRange, true_and, hq.mem, exists_and_left, exists_eq', and_true]
  · exact HashStub.doTaskTraverse_spec hq (by omega) _ (Nat.zero_le _)

/-- Two buckets, at the addresses 1 and 2; a node is its own key. -/
def parityStub : HashStub ℕ 1 := ⟨fun i => i + 1, id, id, 5⟩

theorem lists_parityStub : Lists ⟨fun _ => 0, fun _ => 0⟩ parityStub.head fun _ => [] :=
  ⟨fun _ => ⟨rfl, rfl, trivial⟩, fun i j h => Fin.ext (Nat.succ_injective h), fun _ => .nil, by simp, by simp,
    by simp, fun _ _ _ => ⟨rfl, rfl⟩⟩

/-- 10 and 12 share a bucket, 11 is in the other one, and 10 is deleted again. -/
theorem hash_table_is_map_collision : parityStub.bucketOf 10 = parityStub.bucketOf 12 ∧
      ∃ L, parityStub.searchHashNode L 12 = .ok 12 ∧ parityStub.searchHashNode L 11 = .ok 11 ∧
        parityStub.searchHashNode L 10 = .ok 0 ∧
        ∃ tasks : List ℕ, tasks.Nodup ∧ (∀ x, x ∈ tasks ↔ x = 11 ∨ x = 12) ∧
          ∀ count, parityStub.doTaskTraverse L count ((finRange 2).map parityStub.head) [] =
            .ok (tasks.take count.toNat) := by
  obtain ⟨L1, h1⟩ := (HashStub.Reachable.init lists_parityStub).addNode (by decide) 10
    ⟨by decide, by decide, by decide⟩
  obtain ⟨L2, h2⟩ := h1.addNode (by decide) 12 ⟨by decide, by decide, by decide⟩
  obtain ⟨L3, h3⟩ := h2.addNode (by decide) 11 ⟨by decide, by decide, by decide⟩
  obtain ⟨L4, h4⟩ := h3.deleteKey (by decide) 10
  obtain ⟨hsearch, -, -, -, tasks, hnodup, hmem, hlist⟩ := hash_table_is_map parityStub h4 (by decide)
  refine ⟨by decide, L4, hsearch 12, hsearch 11, hsearch 10, tasks, hnodup, fun x => (hmem x).trans ?_, hlist⟩
  -- the map that the run leaves: `11 ↦ 11`, `12 ↦ 12`
  change update (update (update (update (fun _ : ℕ => none) 10 (some 10)) 12 (some 12)) 11 (some 11)) 10 none x =
    some x ↔ _
  simp only [update_apply]
  split_ifs <;> simp_all

end ZeldaOS
