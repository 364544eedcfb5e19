import ZeldaOS.Paging.Model

/-!
# ELF images

The headers of an executable in memory, and the check that `kernel/elf.c` makes of them. The check never looks at where
the table of program headers ends.

* `source_in_image_iff`: when only bytes of the image are read.
-/

namespace ZeldaOS

open Machine

/-! ## The headers -/

/-- The fields that are read; `eIdentity` is the first word of `e_ident`. -/
structure ElfHeader where
  eIdentity : ℕ
  eClass : ℕ
  eEndian : ℕ
  eType : ℕ
  eMachine : ℕ
  eVersion : ℕ
  ePhoff : ℕ
  eEhsize : ℕ
  ePhentsize : ℕ
  ePhnum : ℕ
  eShentsize : ℕ

/-- The sizes of the three structures. -/
def elfHeaderSize : ℕ := 52
@[inherit_doc elfHeaderSize] def programHeaderSize : ℕ := 32
@[inherit_doc elfHeaderSize] def sectionHeaderSize : ℕ := 40

def elfHeader (m : Mem) (mem : ℕ) : ElfHeader where
  eIdentity := m.read mem 4
  eClass := m.read (mem + 4) 1
  eEndian := m.read (mem + 5) 1
  eType := m.read (mem + 16) 2
  eMachine := m.read (mem + 18) 2
  eVersion := m.read (mem + 20) 4
  ePhoff := m.read (mem + 28) 4
  eEhsize := m.read (mem + 40) 2
  ePhentsize := m.read (mem + 42) 2
  ePhnum := m.read (mem + 44) 2
  eShentsize := m.read (mem + 46) 2

/-- The fields of `struct elf32_program_header` that are read. -/
structure ProgramHeader where
  pType : ℕ
  pOffset : ℕ
  pVaddr : ℕ
  pFilesz : ℕ
  pMemsz : ℕ

/-- `program_hdr` for index `idx`, a pointer of 32 bits. -/
def programHeaderAddr (m : Mem) (mem idx : ℕ) : ℕ :=
  (mem + (elfHeader m mem).ePhoff + idx * programHeaderSize) % 2 ^ 32

def programHeaderAt (m : Mem) (addr : ℕ) : ProgramHeader where
  pType := m.read addr 4
  pOffset := m.read (addr + 4) 4
  pVaddr := m.read (addr + 8) 4
  pFilesz := m.read (addr + 16) 4
  pMemsz := m.read (addr + 20) 4

/-- The program headers of the image at `mem`, as the kernel reads them. -/
def programHeaders (m : Mem) (mem : ℕ) : List ProgramHeader :=
  (List.range (elfHeader m mem).ePhnum).map fun idx => programHeaderAt m (programHeaderAddr m mem idx)

def ProgramHeader.IsLoad (h : ProgramHeader) : Prop := h.pType = 1

instance decidableIsLoad (h : ProgramHeader) : Decidable h.IsLoad := inferInstanceAs (Decidable (_ = _))

def userspaceStackTop : ℕ := 0xA0000000

/-- The tests of the ELF header; `length` is compared as an unsigned number. -/
def ElfHeader.Accepted (h : ElfHeader) (length : ℤ) : Prop :=
  elfHeaderSize ≤ u32 length ∧ h.eIdentity = 0x464c457f ∧ h.eClass = 1 ∧ h.eEndian = 1 ∧
    h.eType = 2 ∧ h.eMachine = 3 ∧ h.eVersion = 1 ∧ h.eEhsize = elfHeaderSize ∧
    h.ePhentsize = programHeaderSize ∧ h.eShentsize = sectionHeaderSize

instance decidableElfAccepted (h : ElfHeader) (length : ℤ) : Decidable (h.Accepted length) :=
  inferInstanceAs (Decidable (_ ∧ _))

/-- The tests of a program header, with a sum of 32 bits. -/
def ProgramHeader.Accepted (h : ProgramHeader) (length : ℤ) : Prop :=
  (h.pOffset + h.pFilesz) % 2 ^ 32 < u32 length ∧
    (h.IsLoad → userspaceBottom ≤ h.pVaddr ∧ h.pVaddr + h.pMemsz < userspaceStackTop)

instance decidableProgramAccepted (h : ProgramHeader) (length : ℤ) : Decidable (h.Accepted length) :=
  inferInstanceAs (Decidable (_ ∧ (_ → _)))

def validateStaticElf32Format (m : Mem) (mem : ℕ) (length : ℤ) : ℤ :=
  if (elfHeader m mem).Accepted length ∧ ∀ h ∈ programHeaders m mem, h.Accepted length then 0
  else -errInvalidArg

variable {m : Mem} {mem : ℕ} {length : ℤ}

theorem accepted_iff : validateStaticElf32Format m mem length = 0 ↔
    (elfHeader m mem).Accepted length ∧ ∀ h ∈ programHeaders m mem, h.Accepted length := by
  rw [validateStaticElf32Format]
  split_ifs with h
  · exact ⟨fun _ => h, fun _ => rfl⟩
  · exact ⟨fun hc => absurd hc (by decide), fun hc => absurd hc h⟩

/-! ## Reads inside the image -/

/-- Every header that is read and every segment that is copied lie in the `length` bytes of the image. -/
structure SourceInImage (m : Mem) (mem length : ℕ) : Prop where
  headers : ∀ idx < (elfHeader m mem).ePhnum,
    mem ≤ programHeaderAddr m mem idx ∧ programHeaderAddr m mem idx + programHeaderSize ≤ mem + length
  segments : ∀ h ∈ programHeaders m mem, h.IsLoad → h.pOffset + h.pFilesz ≤ length

/-- What the check leaves out: the table of program headers ends in the image, and no loaded segment wraps around. -/
structure WithinImage (m : Mem) (mem length : ℕ) : Prop where
  table : (elfHeader m mem).ePhnum = 0 ∨
    (elfHeader m mem).ePhoff + (elfHeader m mem).ePhnum * programHeaderSize ≤ length
  noWrap : ∀ h ∈ programHeaders m mem, h.IsLoad → h.pOffset + h.pFilesz < 2 ^ 32

theorem WithinImage.sourceInImage {length : ℕ} (h : WithinImage m mem length) (hbuffer : mem + length ≤ 2 ^ 32)
    (hlength : length < 2 ^ 31) (hvalid : validateStaticElf32Format m mem length = 0) :
    SourceInImage m mem length where
  headers idx hidx := by
    have htable := h.table.resolve_left (by omega)
    have hle : (idx + 1) * programHeaderSize ≤ (elfHeader m mem).ePhnum * programHeaderSize :=
      Nat.mul_le_mul_right _ hidx
    rw [Nat.add_mul, Nat.one_mul] at hle
    have hpos : 0 < programHeaderSize := by decide
    have haddr : programHeaderAddr m mem idx =
        mem + (elfHeader m mem).ePhoff + idx * programHeaderSize := Nat.mod_eq_of_lt (by omega)
    omega
  segments g hg hload := by
    have hsum := ((accepted_iff.1 hvalid).2 g hg).1
    rw [Nat.mod_eq_of_lt (h.noWrap g hg hload), u32_natCast (by omega)] at hsum
    exact hsum.le

theorem SourceInImage.withinImage {length : ℕ} (h : SourceInImage m mem length) (hlength : length < 2 ^ 31) :
    WithinImage m mem length where
  table := by
    have hoff : (elfHeader m mem).ePhoff < 2 ^ 32 := Mem.read_lt m (mem + 28) 4
    have hnum : (elfHeader m mem).ePhnum < 2 ^ 16 := Mem.read_lt m (mem + 44) 2
    rcases Nat.eq_zero_or_pos (elfHeader m mem).ePhnum with hzero | hpos
    · exact .inl hzero
    -- the first header shows that `e_phoff` is small, so the address of the last one does not wrap around
    have hfirst := h.headers 0 hpos
    have hlast := h.headers ((elfHeader m mem).ePhnum - 1) (by omega)
    unfold programHeaderAddr programHeaderSize at *
    omega
  noWrap g hg hload := by
    have := h.segments g hg hload
    omega

/-- **Of an accepted image only its own bytes are read if and only if its table ends inside and no segment wraps
around.** -/
theorem source_in_image_iff (m : Mem) (mem length : ℕ) (hbuffer : mem + length ≤ 2 ^ 32) (hlength : length < 2 ^ 31)
    (hvalid : validateStaticElf32Format m mem length = 0) : SourceInImage m mem length ↔ WithinImage m mem length :=
  ⟨fun h => h.withinImage hlength, fun h => h.sourceInImage hbuffer hlength hvalid⟩

def imageAt (mem : ℕ) (image : List UInt8) : Mem := fun x => if mem ≤ x then image.getD (x - mem) 0 else 0

def smallHeader : List UInt8 :=
  [0x7f, 0x45, 0x4c, 0x46, 1, 1, 1, 0, 0, 0, 0, 0, 0, 0, 0, 0, 2, 0, 3, 0, 1, 0, 0, 0, 0, 0, 0, 0x40,
    52, 0, 0, 0, 0, 0, 0, 0, 0, 0, 0, 0, 52, 0, 32, 0, 1, 0, 40, 0, 0, 0, 0, 0]

/-- The header, and a segment of a page at `0x40000000` with 52 bytes of the file. -/
def smallImage : List UInt8 :=
  smallHeader ++ [1, 0, 0, 0, 0, 0, 0, 0, 0, 0, 0, 0x40, 0, 0, 0, 0, 52, 0, 0, 0, 0, 0x10, 0, 0,
    5, 0, 0, 0, 0, 0x10, 0, 0]

theorem source_in_image_iff_small : validateStaticElf32Format (imageAt 0x9000000 smallImage) 0x9000000 84 = 0 ∧
      SourceInImage (imageAt 0x9000000 smallImage) 0x9000000 84 :=
  ⟨by decide, (source_in_image_iff _ _ 84 (by decide) (by decide) (by decide)).2 ⟨by decide, by decide⟩⟩

/-- An image that ends with its ELF header: the program header is read behind its end. -/
theorem header_outside_image : validateStaticElf32Format (imageAt 0x9000000 smallHeader) 0x9000000 52 = 0 ∧
    smallHeader.length = 52 ∧ ¬SourceInImage (imageAt 0x9000000 smallHeader) 0x9000000 52 := by
  refine ⟨by decide, rfl, fun h => ?_⟩
  exact absurd (h.headers 0 (by decide)).2 (by decide)

end ZeldaOS
