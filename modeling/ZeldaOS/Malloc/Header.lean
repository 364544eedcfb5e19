import ZeldaOS.Malloc.Model

/-!
# Header fields

Each field setter against each field reader: a field that fits is read back, and every other field stays.

* `hdrNext_setNext`: links.
* `agree_setNext`: the bytes that a setter leaves alone.
-/

namespace ZeldaOS

open Machine

variable {m : Mem} {p v : ℕ}

theorem padFree_setPadFree (hv : v < 2) : padFree (setPadFree m p v) p = v := by
  have hm := m.read_lt (p + 2) 2
  rw [padFree, setPadFree, padMagic, Mem.read_write_self (by omega)]
  omega

theorem padMagic_setPadFree (hv : v < 2) : padMagic (setPadFree m p v) p = padMagic m p := by
  have hm := m.read_lt (p + 2) 2
  rw [padMagic, setPadFree, padMagic, Mem.read_write_self (by omega)]
  omega

theorem padFree_setPadMagic (hv : v < 32768) : padFree (setPadMagic m p v) p = padFree m p := by
  rw [padFree, setPadMagic, padFree, Mem.read_write_self (by omega)]
  omega

theorem padMagic_setPadMagic (hv : v < 32768) : padMagic (setPadMagic m p v) p = v := by
  rw [padMagic, setPadMagic, padFree, Mem.read_write_self (by omega)]
  omega

theorem padFree_setPadPadding (m : Mem) (p v : ℕ) : padFree (setPadPadding m p v) p = padFree m p := by
  rw [padFree, setPadPadding, Mem.read_write_of_disjoint (by omega), padFree]

theorem padMagic_setPadPadding (m : Mem) (p v : ℕ) : padMagic (setPadPadding m p v) p = padMagic m p := by
  rw [padMagic, setPadPadding, Mem.read_write_of_disjoint (by omega), padMagic]

variable {lo hi : ℕ}

theorem agree_setPadPadding (h1 : lo ≤ p) (h2 : p + 4 ≤ hi) :
    Agree m (setPadPadding m p v) lo hi := agree_write h1 (by omega)

theorem agree_setPadFree (h1 : lo ≤ p) (h2 : p + 4 ≤ hi) :
    Agree m (setPadFree m p v) lo hi := agree_write (by omega) (by omega)

theorem agree_setPadMagic (h1 : lo ≤ p) (h2 : p + 4 ≤ hi) :
    Agree m (setPadMagic m p v) lo hi := agree_write (by omega) (by omega)

def Apart (x y : ℕ) : Prop := x + 16 ≤ y ∨ y + 16 ≤ x

section Links
variable {x y : ℕ} (h : y ≠ x → Apart x y)
include h

theorem hdrNext_setNext (hv : v < 256 ^ 4) : hdrNext (setNext m x v) y = if y = x then v else hdrNext m y := by
  unfold hdrNext setNext
  split_ifs with he
  · rw [he, Mem.read_write_self hv]
  have := h he
  unfold Apart at this
  rw [Mem.read_write_of_disjoint (by omega)]

theorem hdrPrev_setPrev (hv : v < 256 ^ 4) : hdrPrev (setPrev m x v) y = if y = x then v else hdrPrev m y := by
  unfold hdrPrev setPrev
  split_ifs with he
  · rw [he, Mem.read_write_self hv]
  have := h he
  unfold Apart at this
  rw [Mem.read_write_of_disjoint (by omega)]

theorem hdrPrev_setNext : hdrPrev (setNext m x v) y = hdrPrev m y := by
  unfold hdrPrev setNext
  by_cases he : y = x
  · rw [he, Mem.read_write_of_disjoint (by omega)]
  have := h he
  unfold Apart at this
  rw [Mem.read_write_of_disjoint (by omega)]

theorem hdrNext_setPrev : hdrNext (setPrev m x v) y = hdrNext m y := by
  unfold hdrNext setPrev
  by_cases he : y = x
  · rw [he, Mem.read_write_of_disjoint (by omega)]
  have := h he
  unfold Apart at this
  rw [Mem.read_write_of_disjoint (by omega)]

end Links

theorem agree_setNext (m : Mem) (x v : ℕ) : Agree m (setNext m x v) x (x + 8) :=
  agree_write (by omega) (by omega)

theorem agree_setPrev (m : Mem) (x v : ℕ) : Agree m (setPrev m x v) x (x + 8) :=
  agree_write (by omega) (by omega)

end ZeldaOS
