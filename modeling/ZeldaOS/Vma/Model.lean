import ZeldaOS.Paging.Model

/-!
# The areas of a task

`kernel/userspace_vma.c`, and `call_sys_sbrk` of `kernel/task_misc.c`. A pointer to an area is its position in
`vma_list`.

* `extendVmArea` and `callSysSbrk`.
-/

namespace ZeldaOS

inductive VmaName where
  | kernel
  | textAndData (n : ℕ)
  | heap
  | stack
  | signalStack
  deriving DecidableEq

/-- `struct vm_area`; the addresses and the length are of type `uint64_t`. -/
structure UserVma extends VmArea where
  name : VmaName
  kernelVma : Bool
  preMap : Bool
  executable : Bool
  deriving DecidableEq

/-- `search_userspace_vma`; the last area when no area has the name. -/
def searchUserspaceVma (vmas : List UserVma) (name : VmaName) : Option ℕ :=
  if vmas = [] then none
  else some (min (vmas.findIdx fun vma => vma.name = name) (vmas.length - 1))

inductive ExtendDirection where
  | upward | downward
  deriving DecidableEq

def u64 (z : ℤ) : ℕ := (z % 2 ^ 64).toNat

/-- The bounds, with `length` added in a direction, before they are stored. -/
def VmArea.extendedStart (vma : VmArea) (length : ℤ) : ExtendDirection → ℤ
  | .upward => vma.virtAddr
  | .downward => vma.virtAddr - length

@[inherit_doc VmArea.extendedStart]
def VmArea.extendedEnd (vma : VmArea) (length : ℤ) : ExtendDirection → ℤ
  | .upward => vma.virtAddr + vma.length + length
  | .downward => vma.virtAddr + vma.length

def VmArea.conflicts (vma : VmArea) (extendedStart extendedEnd : ℕ) : Bool :=
  decide (vma.virtAddr < extendedStart ∧ extendedStart < (vma.virtAddr + vma.length) % 2 ^ 64) ||
    decide (vma.virtAddr < extendedEnd ∧ extendedEnd < (vma.virtAddr + vma.length) % 2 ^ 64)

set_option linter.style.nameCheck false in
def __extendVmArea (vma : UserVma) (direction : ExtendDirection) (length : ℤ) : UserVma :=
  match direction with
  | .upward => { vma with length := u64 (vma.length + length) }
  | .downward =>
    { vma with
      virtAddr := u64 (vma.virtAddr - length)
      phyAddr := if vma.isExact then u64 (vma.phyAddr - length) else vma.phyAddr
      length := u64 (vma.length + length) }

def extendVmArea (vmas : List UserVma) (target : ℕ) (direction : ExtendDirection) (length : ℤ) :
    List UserVma × ℤ :=
  match vmas[target]? with
  | none => (vmas, -errInvalidArg)
  | some vma =>
    if (vmas.eraseIdx target).any fun other => other.conflicts
        (u64 (vma.extendedStart length direction)) (u64 (vma.extendedEnd length direction)) then
      (vmas, -errInvalidArg)
    else (vmas.set target (__extendVmArea vma direction length), 0)

def callSysSbrk (vmas : List UserVma) (increment : ℤ) : List UserVma × ℤ :=
  match searchUserspaceVma vmas .heap with
  | none => (vmas, -1)
  | some target =>
    let previousProgramBreak : ℕ := (vmas[target]?).elim 0 fun vma => (vma.virtAddr + vma.length) % 2 ^ 32
    let (vmas, result) := extendVmArea vmas target .upward increment
    (vmas, if result = 0 then previousProgramBreak else -1)

end ZeldaOS
