import ZeldaOS.Tmpfs.Requests
import ZeldaOS.Vfs.Descriptors

/-!
# The table of operations of a tmpfs file

`tmpfs_file_operation` of `filesystem/memfs.c` as the table behind `file->ops`, with the arguments that its functions
accept. Below offset `2 ^ 31` the calls through the table are those of the model of the functions.

* `acceptsRead_iff` and `acceptsWrite_iff`: the arguments that are accepted.
-/

namespace ZeldaOS

open Machine Function

/-- The headers of the files' blocks, the blocks that `malloc` finds, and the buffer of the program. -/
structure TmpfsDisk where
  header : ℕ → Option MemBlockHdr
  supply : Supply
  buffer : ℤ → UInt8

namespace TmpfsDisk

def fileState (d : TmpfsDisk) (file : ℕ) : FileState := ⟨d.header file, d.supply⟩

/-- What a function leaves and returns; one that stops the kernel leaves the disk as it is. -/
def put (d : TmpfsDisk) (file : ℕ) : Except Fault (Option MemBlockHdr × Supply × ℤ) → TmpfsDisk × ℤ
  | .ok (priv, supply, result) => ({ d with header := update d.header file priv, supply }, result)
  | .error _ => (d, 0)

/-- `ASSERT(left >= 0)` in front of every block; an offset from `2 ^ 31` on may lead out of the blocks. -/
def acceptsRead (r : Transfer) (d : TmpfsDisk) : Bool :=
  r.offset < 2 ^ 31 && (0 ≤ r.size || (d.header r.file).all fun hdr => hdr.blocks.isEmpty)

/-- `ASSERT(size >= 0)` at the end of the file. -/
def acceptsWrite (r : Transfer) (d : TmpfsDisk) : Bool :=
  r.offset < 2 ^ 31 && (0 ≤ r.size || (d.header r.file).all fun hdr => hdr.nrUsed ≠ r.offset)

def read (r : Transfer) (d : TmpfsDisk) : TmpfsDisk × ℤ :=
  match tmpfsReadFile (d.header r.file) r.offset d.buffer r.size with
  | .ok (buffer, result) => ({ d with buffer }, result)
  | .error _ => (d, 0)

def write (r : Transfer) (d : TmpfsDisk) : TmpfsDisk × ℤ :=
  d.put r.file (tmpfsWriteFile (d.header r.file) d.supply r.offset d.buffer r.size)

end TmpfsDisk

namespace TmpfsDisk

variable {d : TmpfsDisk} {r : Transfer}

/-- A read through the table is accepted exactly if `tmpfs_read_file` passes its assertions. -/
theorem acceptsRead_iff (hb : (d.fileState r.file).Bounded) (hoff : r.offset < 2 ^ 31) :
    acceptsRead r d = true ↔ ∃ out, tmpfsReadFile (d.header r.file) r.offset d.buffer r.size = .ok out := by
  have hpasses := @readPasses_iff _ r.size _ d.buffer hb hoff
  rw [acceptsRead, decide_eq_true hoff, Bool.true_and, Bool.or_eq_true, decide_eq_true_iff]
  constructor
  · intro h
    obtain ⟨buffer', result, hread, -⟩ := hpasses.2 (h.imp_right fun hall hdr hhdr => by
      change d.header r.file = some hdr at hhdr
      rw [hhdr, Option.all_some, List.isEmpty_iff] at hall
      exact hall)
    exact ⟨_, hread⟩
  · rintro ⟨out, hout⟩
    by_contra hnot
    rw [not_or, not_le] at hnot
    cases hhdr : d.header r.file with
    | none =>
      rw [hhdr] at hnot
      exact hnot.2 rfl
    | some hdr =>
      rw [hhdr, Option.all_some, List.isEmpty_iff] at hnot
      rw [hhdr, tmpfsReadFile_negative d.buffer hnot.2 hnot.1] at hout
      cases hout

/-- A write through the table is accepted exactly if `tmpfs_write_file` passes its assertion. -/
theorem acceptsWrite_iff (hb : (d.fileState r.file).Bounded) (hoff : r.offset < 2 ^ 31) : acceptsWrite r d = true ↔
      ∃ out, tmpfsWriteFile (d.header r.file) d.supply r.offset d.buffer r.size = .ok out := by
  have hpasses := @writePasses_iff _ r.size _ d.buffer hb hoff
  rw [acceptsWrite, decide_eq_true hoff, Bool.true_and, Bool.or_eq_true, decide_eq_true_iff]
  constructor
  · intro h
    obtain ⟨priv', σ', result, hwrite, -⟩ := hpasses.2 (h.imp_right fun hall hdr hhdr => by
      change d.header r.file = some hdr at hhdr
      rw [hhdr, Option.all_some, decide_eq_true_iff] at hall
      exact hall.symm)
    exact ⟨_, hwrite⟩
  · rintro ⟨out, hout⟩
    by_contra hnot
    rw [not_or, not_le] at hnot
    cases hhdr : d.header r.file with
    | none =>
      rw [hhdr] at hnot
      exact hnot.2 rfl
    | some hdr =>
      rw [hhdr, Option.all_some, decide_eq_true_iff, not_not] at hnot
      rw [hhdr, tmpfsWriteFile_negative d.buffer hnot.2 hnot.1] at hout
      cases hout

end TmpfsDisk

end ZeldaOS
