import ZeldaOS.Printk

/-!
# Composing an absolute path

What `compose_absolute_path` of `kernel/task_misc.c` stores to the `MAX_PATH` bytes of its callers.

* `composes_inside_iff`: when the stores stay in the buffer.
-/

namespace ZeldaOS

open List

def strcpySafeBytes (src : CString) (maxSize : ℕ) : List UInt8 :=
  src.bytes.take maxSize ++ if src.bytes.length < maxSize then [0] else []

def IsAbsolute (path : CString) : Prop := (path.bytes.dropWhile (· = blank)).head? = some slash

instance (path : CString) : Decidable (IsAbsolute path) := inferInstanceAs (Decidable (_ = _))

def composedBytes (cwd path : CString) : Option (List UInt8) :=
  if IsAbsolute path then some (strcpySafeBytes path maxPath)
  else sprintf ("%s/%s".toList.map Char.toUInt8) [.str cwd, .str path]

/-- The stores stay in the buffer `buf` of `MAX_PATH` bytes, and leave a NUL in it. -/
def ComposesInside (cwd path : CString) (buf : List UInt8) : Prop :=
  ∃ bs, composedBytes cwd path = some bs ∧ bs.length ≤ maxPath ∧ 0 ∈ (bs ++ buf.drop bs.length).take maxPath

section
variable (cwd path : CString)

theorem composedBytes_absolute (h : IsAbsolute path) :
    composedBytes cwd path = some (strcpySafeBytes path maxPath) := if_pos h

theorem composedBytes_relative (h : ¬IsAbsolute path) :
    composedBytes cwd path = some (cwd.bytes ++ slash :: (path.bytes ++ [0])) :=
  (if_neg h).trans (sprintf_path cwd path)

theorem length_relative :
    (cwd.bytes ++ slash :: (path.bytes ++ [0])).length = cwd.bytes.length + path.bytes.length + 2 := by
  rw [length_append, length_cons, length_append, length_singleton]
  omega

theorem length_strcpySafeBytes (src : CString) (n : ℕ) : (strcpySafeBytes src n).length ≤ n := by
  rw [strcpySafeBytes, length_append, length_take]
  split_ifs with h
  · rw [length_singleton]
    omega
  rw [length_nil]
  omega

theorem nul_mem_strcpySafeBytes {src : CString} {n : ℕ} : 0 ∈ strcpySafeBytes src n ↔ src.bytes.length < n := by
  have hnul : 0 ∉ src.bytes.take n := fun h => src.nul_free (mem_of_mem_take h)
  rw [strcpySafeBytes, mem_append, or_iff_right hnul]
  split_ifs with h
  · exact iff_of_true (mem_singleton_self 0) h
  · exact iff_of_false not_mem_nil h

/-- **The stores stay in the buffer and leave a string exactly when an absolute path has at most 255 bytes, or the
working directory and a relative path 254 together.** -/
theorem composes_inside_iff (buf : List UInt8) : ComposesInside cwd path buf ↔
      if IsAbsolute path then path.bytes.length ≤ 255 else cwd.bytes.length + path.bytes.length ≤ 254 := by
  have hmax : maxPath = 256 := rfl
  by_cases h : IsAbsolute path
  · have hlen := length_strcpySafeBytes path maxPath
    rw [ComposesInside, composedBytes_absolute cwd path h, if_pos h]
    constructor
    · rintro ⟨bs, hbs, -, hnul⟩
      rw [← Option.some.inj hbs] at hnul
      by_contra hlong
      have hlong : ¬path.bytes.length < maxPath := by omega
      have hfull : (strcpySafeBytes path maxPath).length = maxPath := by
        rw [strcpySafeBytes, if_neg hlong, append_nil, length_take]
        omega
      rw [take_append_of_le_length hfull.ge, take_of_length_le hlen] at hnul
      exact hlong (nul_mem_strcpySafeBytes.1 hnul)
    · intro hshort
      refine ⟨_, rfl, hlen, ?_⟩
      have hnul : 0 ∈ strcpySafeBytes path maxPath := nul_mem_strcpySafeBytes.2 (by omega)
      rw [take_append, take_of_length_le hlen]
      exact mem_append_left _ hnul
  · have hsize := length_relative cwd path
    rw [ComposesInside, composedBytes_relative cwd path h, if_neg h]
    constructor
    · rintro ⟨bs, hbs, hfits, -⟩
      rw [← Option.some.inj hbs, hsize] at hfits
      omega
    intro hshort
    refine ⟨_, rfl, by omega, ?_⟩
    rw [take_append, take_of_length_le (by omega)]
    exact mem_append_left _ (mem_append_right _ (mem_cons_of_mem _ (mem_append_right _ (mem_singleton_self 0))))

end

/-- In the root directory, a relative path of 255 bytes is composed to 258. -/
theorem composes_outside :
    ¬ComposesInside (.ofBytes [slash]) (.ofBytes (List.replicate 255 97)) (List.replicate 256 0) := by
  rintro ⟨bs, hbs, hfits, -⟩
  have hsize : (composedBytes (.ofBytes [slash]) (.ofBytes (List.replicate 255 97))).map List.length = some 258 := by
    decide +kernel
  rw [hbs, Option.map_some] at hsize
  rw [Option.some.inj hsize] at hfits
  exact absurd hfits (by decide)

end ZeldaOS
