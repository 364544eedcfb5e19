import ZeldaOS.Vfs.PathCalls
import ZeldaOS.Zeldafs.Hierarchy

/-!
# The file systems of the kernel

What `zeldafs`, `tmpfs`, `devfs` and `dummyfs` put into the mount table.
-/

namespace ZeldaOS

open Machine Machine.Forest

variable {ρ : Type}

/-- `zeldafs_ops`, for the tree at `zelda_root_node`. -/
def zeldafs (root : ℕ) : FilesystemOperation ρ := ⟨some (zeldaFsOpen root), none⟩

def devfsOpenFile (root : ℕ) : FileTree → CString → Except FsFault ℕ := tmpfsOpenFile root

/-- `devfs_ops`, for the tree at `devfs_root_file`. -/
def devfs (root : ℕ) : FilesystemOperation ρ := ⟨some (devfsOpenFile root), none⟩

def dummyFsOpen (_ : FileTree) (_ : CString) : Except FsFault ℕ := .ok 0

def dummyfs : FilesystemOperation ρ := ⟨some dummyFsOpen, none⟩

/-- With the blocks that it allocates; `fresh` sets up the contents of a new file. -/
def tmpfsCreate (supply : ℕ → ℕ) (fresh : ℕ → ρ → ρ) (root : ℕ) (t : FileTree) (c : ρ) (path : CString) :
    Except FsFault (Created FileTree ρ) := do
  let (t', file) ← tmpfsCreateFile supply root t path
  .ok ⟨t', if file = 0 then c else fresh file c, if file = 0 then none else some file, t'.live.filter (· ∉ t.live)⟩

def tmpfs (supply : ℕ → ℕ) (fresh : ℕ → ρ → ρ) (root : ℕ) : FilesystemOperation ρ :=
  ⟨some (tmpfsOpenFile root), some (tmpfsCreate supply fresh root)⟩

/-! ## A small table -/

def statOps : FileOps Unit where
  isatty := none
  size := none
  stat := some (.total fun _ c => (c, 0, 0))
  read := none
  write := none
  truncate := none
  ioctl := none

def fileName : CString := CString.ofBytes [97]

/-- The root of `zeldafs`, a mark, with the regular file `a` behind it. -/
def smallTree : FileTree where
  nodes := ⟨fun x => if x = 2 then 1 else 0, fun _ => 0, fun x => if x = 1 then 2 else 0⟩
  name x := if x = 2 then fileName else .empty
  type x := if x = 1 then .mark else if x = 2 then .regular else .none
  ops x := if x = 2 then 1 else 0
  priv _ := 0
  live := [1, 2]
  mallocs := 0

def smallTable : MountTable (FilesystemOperation Unit) := MountTable.empty.set 0 ⟨rootPoint, zeldafs 1, rootPoint_fits⟩

def smallState : VfsState FileTree Unit where
  names := smallTree
  contents := ()
  referCount _ := 0
  tasks := []

set_option maxRecDepth 20000 in
theorem mounted_smallTable : Mounted smallTable := by
  have hreg : registerFileSystem .empty rootPoint (zeldafs 1) = .ok (smallTable, 0) := rfl
  exact .register .boot hreg

end ZeldaOS
