import ZeldaOS.Machine.Bytes
import ZeldaOS.Machine.Nodes

/-!
# The linked heap

`lib/heap_sort.c`: a min heap that is a complete binary tree of linked nodes. The queue of a search is a local list.

* `attachHeapNode`, `detachHeapNode`, `deleteHeapNode`: the interface.
-/

namespace ZeldaOS

open Machine

structure Heap where
  nodes : Nodes
  root : ℕ
  nullStores : ℕ
  attached : ℕ

namespace Heap

def Detached (h : Heap) (x : ℕ) : Prop := h.nodes.Detached x ∧ h.root ≠ x

instance decidableDetached (h : Heap) (x : ℕ) : Decidable (h.Detached x) :=
  inferInstanceAs (Decidable (_ ∧ _))

def fuel (h : Heap) : ℕ := h.attached + 2

def storeParent (h : Heap) (x v : ℕ) : Heap :=
  if x = 0 then { h with nullStores := h.nullStores + 1 }
  else { h with nodes := h.nodes.setParent x v }

end Heap

def enqueueChildren (t : Nodes) (x : ℕ) (queue : List ℕ) : List ℕ :=
  let queue := if t.left x ≠ 0 then queue ++ [t.left x] else queue
  if t.right x ≠ 0 then queue ++ [t.right x] else queue

/-! ## Searches -/

def lastNodeLoop (t : Nodes) : (fuel : ℕ) → (queue : List ℕ) → (target : ℕ) → Except Fault ℕ
  | 0, _, _ => .error .diverge
  | _ + 1, [], target => .ok target
  | fuel + 1, x :: queue, _ => lastNodeLoop t fuel (enqueueChildren t x queue) x

def searchLastNode (t : Nodes) (fuel root : ℕ) : Except Fault ℕ :=
  if root = 0 then .ok 0
  else do
    let target ← lastNodeLoop t fuel [root] 0
    ensure (target ≠ 0)
    ensure (t.left target = 0)
    ensure (t.right target = 0)
    .ok target

def lastParentLoop (t : Nodes) : (fuel : ℕ) → (queue : List ℕ) → Except Fault ℕ
  | 0, _ => .error .diverge
  | _ + 1, [] => .ok 0
  | fuel + 1, x :: queue =>
    if t.left x = 0 ∨ t.right x = 0 then do
      ensure (¬ (t.left x = 0 ∧ t.right x ≠ 0))
      .ok x
    else lastParentLoop t fuel (enqueueChildren t x queue)

def searchLastParent (t : Nodes) (fuel root : ℕ) : Except Fault ℕ :=
  if root = 0 then .ok 0
  else do
    let target ← lastParentLoop t fuel [root]
    ensure (target ≠ 0 → t.right target = 0)
    .ok target

/-! ## Exchanges -/

def replaceChild (t : Nodes) (x old new : ℕ) : Except Fault Nodes :=
  if t.left x = old then .ok (t.setLeft x new)
  else do
    ensure (t.right x = old)
    .ok (t.setRight x new)

def adopt (t : Nodes) (x v : ℕ) : Nodes := if x = 0 then t else t.setParent x v

/-- The part of `swap_nodes` that puts the child under the parent of its parent. -/
def liftChild (t : Nodes) (parent child : ℕ) : Except Fault Nodes :=
  let t := t.setParent child (t.parent parent)
  if t.parent parent = 0 then .ok t else replaceChild t (t.parent parent) parent child

/-- The part of `swap_nodes` that puts the parent and its other child under the child. -/
def takeSibling (h : Heap) (parent child : ℕ) (isLeftChild : Bool) : Heap :=
  let t := h.nodes
  if isLeftChild then
    let t := (t.setLeft child parent).setRight child (t.right parent)
    { h with nodes := t }.storeParent (t.right child) child
  else
    let t := (t.setRight child parent).setLeft child (t.left parent)
    { h with nodes := t }.storeParent (t.left child) child

/-- `swap_nodes`. The third `ASSERT` of the source is an assignment. -/
def swapNodes (h : Heap) (parent child : ℕ) : Except Fault Heap := do
  ensure (h.root ≠ 0)
  ensure (child ≠ 0 ∧ parent ≠ 0)
  let t := h.nodes.setParent child parent
  let leftOfChild := t.left child
  let rightOfChild := t.right child
  let isLeftChild := decide (child = t.left parent)
  let t ← liftChild t parent child
  let h := takeSibling { h with nodes := t } parent child isLeftChild
  let t := h.nodes.setParent parent child
  let t := (t.setLeft parent leftOfChild).setRight parent rightOfChild
  let t := adopt t leftOfChild parent
  let t := adopt t rightOfChild parent
  .ok { h with nodes := t, root := if h.root = parent then child else h.root }

section
variable (compare : ℕ → ℕ → ℤ)

/-! ## The operations -/

/-- The child that a node is exchanged with, `0` when it stays: common to two loops. -/
def smallerChild (t : Nodes) (x : ℕ) : Except Fault ℕ := do
  let leftIsSmaller := t.left x ≠ 0 ∧ compare (t.left x) x < 0
  let rightIsSmaller ←
    if t.right x = 0 then .ok false
    else do
      ensure (t.left x ≠ 0)
      if leftIsSmaller then .ok (decide (compare (t.right x) (t.left x) < 0))
      else .ok (decide (compare (t.right x) x < 0))
  if rightIsSmaller then .ok (t.right x)
  else if leftIsSmaller then .ok (t.left x)
  else .ok 0

def attachLoop : (fuel : ℕ) → Heap → ℕ → Except Fault Heap
  | 0, _, _ => .error .diverge
  | fuel + 1, h, x =>
    if x = 0 then .ok h
    else do
      let child ← smallerChild compare h.nodes x
      if child = 0 then .ok h
      else
        let h ← swapNodes h x child
        ensure (h.nodes.parent x ≠ 0)
        attachLoop fuel h (h.nodes.parent (h.nodes.parent x))

def placeNode (t : Nodes) (lastParent node : ℕ) : Nodes :=
  let t := if t.left lastParent = 0 then t.setLeft lastParent node else t.setRight lastParent node
  t.setParent node lastParent

def attachHeapNode (h : Heap) (node : ℕ) : Except Fault Heap := do
  ensure (h.nodes.parent node = 0)
  ensure (h.nodes.left node = 0)
  ensure (h.nodes.right node = 0)
  let lastParent ← searchLastParent h.nodes h.fuel h.root
  let h := { h with attached := h.attached + 1 }
  if lastParent = 0 then do
    ensure (h.root = 0)
    .ok { h with root := node }
  else do
    ensure (h.nodes.right lastParent = 0)
    attachLoop compare h.fuel { h with nodes := placeNode h.nodes lastParent node } lastParent

def adjustHeapNode : (fuel : ℕ) → Heap → ℕ → Except Fault Heap
  | 0, _, _ => .error .diverge
  | fuel + 1, h, x =>
    if x = 0 then .ok h
    else do
      let child ← smallerChild compare h.nodes x
      if child = 0 then .ok h
      else
        let h ← swapNodes h x child
        ensure (h.nodes.parent x ≠ 0)
        adjustHeapNode fuel h x

/-- The first block of `detach_heap_node` and `delete_heap_node`. -/
def cutLastNode (h : Heap) (last : ℕ) : Except Fault Heap :=
  let p := h.nodes.parent last
  if p = 0 then do
    ensure (h.root = last)
    .ok { h with root := 0 }
  else if h.nodes.left p = last then do
    ensure (h.nodes.right p = 0)
    .ok { h with nodes := (h.nodes.setLeft p 0).setParent last 0 }
  else do
    ensure (h.nodes.right p = last)
    .ok { h with nodes := (h.nodes.setRight p 0).setParent last 0 }

/-- The second block of `detach_heap_node`. -/
def replaceRoot (h : Heap) (last : ℕ) : Except Fault Heap := do
  let detached := h.root
  let t := adopt h.nodes (h.nodes.left detached) last
  let t := adopt t (t.right detached) last
  let t := (t.setLeft last (t.left detached)).setRight last (t.right detached)
  let t := (t.setLeft detached 0).setRight detached 0
  ensure (t.parent detached = 0)
  .ok { h with nodes := t, root := last }

def detachHeapNode (h : Heap) : Except Fault (Heap × ℕ) :=
  if h.root = 0 then .ok (h, 0)
  else do
    let last ← searchLastNode h.nodes h.fuel h.root
    ensure (last ≠ 0)
    ensure (h.nodes.left last = 0 ∧ h.nodes.right last = 0)
    let h ← cutLastNode h last
    if h.root = 0 then do
      let h ← adjustHeapNode compare h.fuel h h.root
      .ok (h, last)
    else do
      let detached := h.root
      let h ← replaceRoot h last
      let h ← adjustHeapNode compare h.fuel h h.root
      .ok (h, detached)

def rootOf (t : Nodes) : (fuel : ℕ) → ℕ → Except Fault ℕ
  | 0, _ => .error .diverge
  | fuel + 1, x => if x = 0 ∨ t.parent x = 0 then .ok x else rootOf t fuel (t.parent x)

/-- The second block of `delete_heap_node`. -/
def replaceNode (h : Heap) (node last : ℕ) : Except Fault Heap := do
  let t := (h.nodes.setLeft last (h.nodes.left node)).setRight last (h.nodes.right node)
  let t := adopt t (t.left node) last
  ensure (t.right node ≠ 0 → t.left node ≠ 0)
  let t := adopt t (t.right node) last
  if t.parent node = 0 then do
    ensure (h.root = node)
    .ok { h with nodes := t.setParent last 0, root := last }
  else do
    let t ← replaceChild (t.setParent last (t.parent node)) (t.parent node) node last
    .ok { h with nodes := t }

def clearLinks (t : Nodes) (x : ℕ) : Nodes := ((t.setParent x 0).setLeft x 0).setRight x 0

def deleteHeapNode (h : Heap) (node : ℕ) : Except Fault Heap := do
  let top ← rootOf h.nodes h.fuel node
  if h.root = 0 ∨ h.root ≠ top then .ok h
  else do
    let last ← searchLastNode h.nodes h.fuel h.root
    ensure (last ≠ 0)
    ensure (h.nodes.left last = 0 ∧ h.nodes.right last = 0)
    let h ← cutLastNode h last
    let h ←
      if h.root ≠ 0 ∧ node ≠ last then do
        let h ← replaceNode h node last
        adjustHeapNode compare h.fuel h last
      else do
        ensure (node = last)
        .ok h
    .ok { h with nodes := clearLinks h.nodes node }

end

end ZeldaOS
