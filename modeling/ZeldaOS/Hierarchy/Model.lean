import ZeldaOS.Machine.Nodes
import ZeldaOS.Vfs.Descriptors

/-!
# The file hierarchy

`filesystem/fs_hierarchy.c` over `lib/generic_tree.c`. The files of a directory are siblings behind a mark, to which
the directory's left link leads. A file is named by the address of its `fs_node`, with `0` for `NULL`.

* `hierarchySearchFile`, `hierarchyCreateFile`, `hierarchyCreateDirectory`, `hierarchyDeleteFile`: the interface.
-/

namespace ZeldaOS

open Machine Function

/-- The fields of all files, the blocks in use, and the calls of `malloc` so far. -/
structure FileTree where
  nodes : Nodes
  name : ℕ → CString
  type : ℕ → FileType
  ops : ℕ → ℕ
  priv : ℕ → ℕ
  live : List ℕ
  mallocs : ℕ

namespace FileTree

/-- `supply` says what each call finds; it fails for `NULL` or a block in use. -/
def malloc (supply : ℕ → ℕ) (t : FileTree) : FileTree × ℕ :=
  if supply t.mallocs = 0 ∨ supply t.mallocs ∈ t.live then ({ t with mallocs := t.mallocs + 1 }, 0)
  else
    ({ t with mallocs := t.mallocs + 1, live := supply t.mallocs :: t.live }, supply t.mallocs)

def free (t : FileTree) (x : ℕ) : FileTree := { t with live := t.live.erase x }

def newFile (t : FileTree) (x : ℕ) (name : CString) (type : FileType) : FileTree where
  nodes := ((t.nodes.setParent x 0).setLeft x 0).setRight x 0
  name := update t.name x name
  type := update t.type x type
  ops := update t.ops x 0
  priv := update t.priv x 0
  live := t.live
  mallocs := t.mallocs

def fuel (t : FileTree) : ℕ := t.live.length + 2

end FileTree

/-! ## Siblings -/

/-- The walk with which `FOREACH_SIBLING_NODE_START` and `parent_of_node` begin. -/
def firstSibling (N : Nodes) : (fuel x : ℕ) → Except FsFault ℕ
  | 0, _ => .error .diverge
  | n + 1, x =>
    if x = 0 then .ok 0
    else if N.parent x ≠ 0 ∧ N.right (N.parent x) = x then firstSibling N n (N.parent x)
    else .ok x

def siblingsFrom (N : Nodes) : (fuel x : ℕ) → Except FsFault (List ℕ)
  | 0, _ => .error .diverge
  | n + 1, x => if x = 0 then .ok [] else (siblingsFrom N n (N.right x)).map (x :: ·)

/-- The nodes that `FOREACH_SIBLING_NODE` goes through. -/
def siblings (t : FileTree) (x : ℕ) : Except FsFault (List ℕ) :=
  firstSibling t.nodes t.fuel x >>= siblingsFrom t.nodes t.fuel

/-- The nodes that `FOREACH_CHILD_NODE` goes through. -/
def children (t : FileTree) (x : ℕ) : Except FsFault (List ℕ) := siblings t (t.nodes.left x)

def parentOfNode (t : FileTree) (x : ℕ) : Except FsFault ℕ :=
  if x = 0 then .ok 0 else (firstSibling t.nodes t.fuel x).map t.nodes.parent

def lastSibling (N : Nodes) : (fuel x : ℕ) → Except FsFault ℕ
  | 0, _ => .error .diverge
  | n + 1, x => if N.right x = 0 then .ok x else lastSibling N n (N.right x)

def addSibling (t : FileTree) (current x : ℕ) : Except FsFault (FileTree × ℤ) :=
  if current = 0 then .ok (t, -errInvalidArg)
  else do
    let last ← lastSibling t.nodes t.fuel current
    .ok ({ t with nodes := (t.nodes.setParent x last).setRight last x }, 0)

def addChild (t : FileTree) (current x : ℕ) : Except FsFault (FileTree × ℤ) :=
  if current = 0 then .ok (t, -errInvalidArg)
  else if t.nodes.left current = 0 then
    .ok ({ t with nodes := (t.nodes.setLeft current x).setParent x current }, 0)
  else addSibling t (t.nodes.left current) x

/-- Take `x` from the link of its parent; a next sibling may get itself as its parent. -/
def unlinkNode (N : Nodes) (x : ℕ) : Except FsFault Nodes :=
  if N.left (N.parent x) = x then
    let M := if N.right x ≠ 0 then N.setParent (N.right x) (N.parent x) else N
    .ok (M.setLeft (M.parent x) (M.right x))
  else do
    FsFault.assertion.unless (N.right (N.parent x) = x)
    let M := if N.right x ≠ 0 then N.setParent (N.right x) (N.right x) else N
    .ok (M.setRight (M.parent x) (M.right x))

def genericDeleteNode (N : Nodes) (x : ℕ) : Except FsFault Nodes := do
  FsFault.assertion.unless (N.parent x ≠ 0)
  let M ← unlinkNode N x
  .ok ((M.setRight x 0).setParent x 0)

/-! ## Searches -/

def searchFrom (t : FileTree) (c : CString) : (fuel x : ℕ) → Except FsFault (Option ℕ)
  | 0, _ => .error .diverge
  | n + 1, x =>
    if x = 0 then .ok Option.none
    else if strcmp (t.name x) c = 0 then .ok (some x)
    else searchFrom t c n (t.nodes.right x)

def searchSibling (t : FileTree) (current : ℕ) (c : CString) : Except FsFault (Option ℕ) :=
  firstSibling t.nodes t.fuel current >>= searchFrom t c t.fuel

/-- The loop of `hierarchy_search_file`, with `_file`. -/
def searchLevels (t : FileTree) : (names : List CString) → (current file : ℕ) → Except FsFault ℕ
  | [], _, file => .ok file
  | c :: cs, current, _ => do
    match ← searchSibling t current c with
    | Option.none => .ok 0
    | some x => searchLevels t cs (t.nodes.left x) x

def hierarchySearchFile (t : FileTree) (root : ℕ) (names : List CString) : Except FsFault ℕ :=
  searchLevels t names root 0

/-! ## Creation and deletion -/

/-- The first half of a round: the directory entry, found or made, or what the function returns. -/
def directoryEntry (supply : ℕ → ℕ) (t : FileTree) (current : ℕ) (c : CString) :
    Except FsFault (FileTree × Except ℤ ℕ) := do
  match ← searchSibling t current c with
  | some x => .ok (t, if t.type x ≠ .dir then .error (-errExist) else .ok x)
  | Option.none =>
    let (t, x) := t.malloc supply
    if x = 0 then .ok (t, .error (-errOutOfMemory))
    else do
      let (t, r) ← addSibling (t.newFile x (strcpySafe c maxPath) .dir) current x
      FsFault.assertion.unless (r = 0)
      .ok (t, .ok x)

def markChild (supply : ℕ → ℕ) (t : FileTree) (x : ℕ) : Except FsFault (FileTree × ℤ) :=
  if t.nodes.left x ≠ 0 then .ok (t, 0)
  else
    let (t, m) := t.malloc supply
    if m = 0 then .ok (t, -errOutOfMemory)
    else do
      let (t, r) ← addChild (t.newFile m .empty .mark) x m
      FsFault.assertion.unless (r = 0)
      .ok (t, 0)

def createLevels (supply : ℕ → ℕ) :
    (names : List CString) → (current : ℕ) → FileTree → Except FsFault (FileTree × ℤ)
  | [], _, t => .ok (t, 0)
  | c :: cs, current, t => do
    match ← directoryEntry supply t current c with
    | (t, .error r) => .ok (t, r)
    | (t, .ok x) =>
      let (t, r) ← markChild supply t x
      if r ≠ 0 then .ok (t, r) else createLevels supply cs (t.nodes.left x) t

def hierarchyCreateDirectory (supply : ℕ → ℕ) (t : FileTree) (root : ℕ) (names : List CString) :
    Except FsFault (FileTree × ℤ) :=
  createLevels supply names root t

/-- The end of `hierarchy_create_file`, in the level of the file. -/
def fileEntry (supply : ℕ → ℕ) (t : FileTree) (current : ℕ) (c : CString) :
    Except FsFault (FileTree × ℤ) := do
  match ← searchSibling t current c with
  | some _ => .ok (t, -errExist)
  | Option.none =>
    let (t, x) := t.malloc supply
    FsFault.null.unless (x ≠ 0)
    let (t, r) ← addSibling (t.newFile x (strcpySafe c maxPath) .regular) current x
    FsFault.assertion.unless (r = 0)
    .ok (t, 0)

def createFileLevels (supply : ℕ → ℕ) (t : FileTree) :
    (names : List CString) → (current : ℕ) → Except FsFault (FileTree × ℤ)
  | [], _ => .ok (t, -errInvalidArg)
  | [c], current => fileEntry supply t current c
  | c :: cs, current => do
    match ← searchSibling t current c with
    | Option.none => .ok (t, -errNotPresent)
    | some x => createFileLevels supply t cs (t.nodes.left x)

def hierarchyCreateFile (supply : ℕ → ℕ) (t : FileTree) (root : ℕ) (names : List CString) :
    Except FsFault (FileTree × ℤ) :=
  createFileLevels supply t names root

def reclaimLoop (perFileFree : FileTree → ℕ → FileTree) :
    (fuel : ℕ) → (queue : List ℕ) → FileTree → Except FsFault FileTree
  | _, [], t => .ok t
  | 0, _ :: _, _ => .error .diverge
  | n + 1, x :: queue, t =>
    let queue := if t.nodes.left x ≠ 0 then queue ++ [t.nodes.left x] else queue
    let queue := if t.nodes.right x ≠ 0 then queue ++ [t.nodes.right x] else queue
    reclaimLoop perFileFree n queue (perFileFree t x)

def hierarchyDeleteFile (perFileFree : FileTree → ℕ → FileTree) (t : FileTree) (root : ℕ)
    (names : List CString) : Except FsFault (FileTree × ℤ) := do
  let file ← hierarchySearchFile t root names
  if file = 0 then .ok (t, -errNotFound)
  else do
    let nodes ← genericDeleteNode t.nodes file
    let t ← reclaimLoop perFileFree t.fuel [file] { t with nodes := nodes }
    .ok (t, 0)

end ZeldaOS
