import Mathlib.Data.List.GetD
import ZeldaOS.Exec.Args
import ZeldaOS.Machine.Runs

/-!
# What `execve` copies

`load_file_into_memory` of `kernel/task_misc.c`, and the command line of `call_sys_execve`.

* `load_respects_iff`: when a file is loaded as it should be.
* `line_inside_iff`: when the line fits its buffer.
-/

namespace ZeldaOS

open Machine List Function

/-! ## Loading a file -/

/-- The error `-(e + 1)`, or bytes, of which as many as requested are read. -/
inductive ReadAnswer where
  | error (e : Fin (2 ^ 31))
  | data (bytes : List UInt8)

def ReadAnswer.bytes (answer : ReadAnswer) (size : ℤ) : List UInt8 :=
  match answer with
  | .error _ => []
  | .data bytes => bytes.take size.toNat

def ReadAnswer.result (answer : ReadAnswer) (size : ℤ) : ℤ :=
  match answer with
  | .error e => -(e + 1)
  | .data bytes => (bytes.take size.toNat).length

/-- What is left to read, the buffer, the offsets stored to, and what the reads returned. -/
structure LoadRun where
  left : ℕ
  buffer : ℕ → UInt8
  stored : List ℕ
  results : List ℤ
  bytes : List UInt8

/-- Stores of bytes from an offset of the buffer on; addresses wrap around. -/
def storeBytes (buffer : ℕ → UInt8) (index : ℕ) (bytes : List UInt8) : ℕ → UInt8 := fun o =>
  if (o + (2 ^ 32 - index)) % 2 ^ 32 < bytes.length then bytes.getD ((o + (2 ^ 32 - index)) % 2 ^ 32) 0 else buffer o

/-- The loop of `load_file_into_memory`; `rc` is unsigned. -/
def loadBytes (answers : ℕ → ReadAnswer) : (fuel k left index : ℕ) → (ℕ → UInt8) → Except Fault LoadRun
  | 0, _, _, _, _ => .error .diverge
  | fuel + 1, k, left, index, buffer =>
    if left = 0 then .ok ⟨0, buffer, [], [], []⟩
    else
      let bytes := (answers k).bytes (i32 left)
      let result := (answers k).result (i32 left)
      let stored := (range bytes.length).map fun i => (index + i) % 2 ^ 32
      let buffer := storeBytes buffer index bytes
      if u32 result ≤ 0 then .ok ⟨left, buffer, stored, [result], bytes⟩
      else do
        let r ← loadBytes answers fuel (k + 1) (u32 (left - u32 result)) (u32 (index + u32 result)) buffer
        .ok { r with stored := stored ++ r.stored, results := result :: r.results, bytes := bytes ++ r.bytes }

def LoadRun.returned (r : LoadRun) : Option (ℕ → UInt8) := if 0 < r.left then none else some r.buffer

/-- The loop ends, stores inside the buffer, and returns `NULL` at an error, else `NULL` or what was read. -/
def LoadsRight (answers : ℕ → ReadAnswer) (size : ℕ) (buffer : ℕ → UInt8) : Prop :=
  ∃ fuel r, loadBytes answers fuel 0 size 0 buffer = .ok r ∧ (∀ o ∈ r.stored, o < size) ∧
    (∀ pre e post, r.results = pre ++ e :: post → e < 0 → post = [] ∧ r.returned = none) ∧
    ∀ b, r.returned = some b → (range size).map b = r.bytes

/-- After `k` reads of some bytes, `left` bytes are missing. -/
inductive Missing (answers : ℕ → ReadAnswer) (size : ℕ) : (k left : ℕ) → Prop
  | start : Missing answers size 0 size
  | more {k left : ℕ} : Missing answers size k left → (answers k).bytes (i32 left) ≠ [] →
      Missing answers size (k + 1) (left - ((answers k).bytes (i32 left)).length)

section
variable {answers : ℕ → ReadAnswer} {size k left index : ℕ} {buffer : ℕ → UInt8}

theorem ReadAnswer.result_data (bs : List UInt8) (n : ℤ) :
    (ReadAnswer.data bs).result n = ((ReadAnswer.data bs).bytes n).length := rfl

theorem ReadAnswer.length_bytes_le (a : ReadAnswer) (left : ℕ) (h : left < 2 ^ 32) :
    (a.bytes (i32 left)).length ≤ left := by
  cases a with
  | error e => exact Nat.zero_le _
  | data bs =>
    refine (length_take_le _ _).trans ?_
    unfold i32
    split_ifs <;> omega

theorem Missing.le (h : Missing answers size k left) : left ≤ size := by
  induction h with
  | start => exact le_rfl
  | more _ _ ih => omega

structure Filled (size index : ℕ) (buffer : ℕ → UInt8) (r : LoadRun) : Prop where
  inside : ∀ o ∈ r.stored, o < size
  positive : ∀ e ∈ r.results, 0 ≤ e
  whole : r.left = 0 → (range size).map r.buffer = (range index).map buffer ++ r.bytes

theorem map_storeBytes (hsize : index + left < 2 ^ 32) {bytes : List UInt8} (hlen : bytes.length ≤ left) :
    (range (index + bytes.length)).map (storeBytes buffer index bytes) = (range index).map buffer ++ bytes := by
  refine ext_getElem (by simp) fun o ho _ => ?_
  rw [length_map, length_range] at ho
  rw [getElem_map, getElem_range, storeBytes]
  by_cases hlt : o < index
  · rw [getElem_append_left (by simpa using hlt), if_neg (by omega), getElem_map, getElem_range]
  have hmod : (o + (2 ^ 32 - index)) % 2 ^ 32 = o - index := by omega
  rw [getElem_append_right (by simpa using hlt), hmod, if_pos (by omega), List.getD_eq_getElem _ _ (by omega)]
  simp

theorem loadBytes_filled (hfine : ∀ k left, Missing answers size k left → 0 < left → ∀ e, answers k ≠ .error e)
    (h : Missing answers size k left) (hindex : index + left = size) (hsize : size < 2 ^ 32) (buffer : ℕ → UInt8)
    {fuel : ℕ} (hfuel : left < fuel) :
    ∃ r, loadBytes answers fuel k left index buffer = .ok r ∧ Filled size index buffer r := by
  induction fuel generalizing k left index buffer with
  | zero => omega
  | succ fuel ih =>
    rw [loadBytes]
    by_cases hleft : left = 0
    · rw [if_pos hleft]
      refine ⟨_, rfl, fun o ho => absurd ho not_mem_nil, fun e he => absurd he not_mem_nil, fun _ => ?_⟩
      rw [append_nil, ← hindex, hleft, Nat.add_zero]
    rw [if_neg hleft]
    have hle := (answers k).length_bytes_le left (by omega)
    have hresult : (answers k).result (i32 left) = ((answers k).bytes (i32 left)).length := by
      cases hans : answers k with
      | error e => exact absurd hans (hfine k left h (Nat.pos_of_ne_zero hleft) e)
      | data bs => exact ReadAnswer.result_data bs _
    have hmore := h.more
    set bytes := (answers k).bytes (i32 left) with hbytes
    have hstored : ∀ o ∈ (range bytes.length).map fun i => (index + i) % 2 ^ 32, o < size := fun o ho => by
      obtain ⟨i, hi, rfl⟩ := mem_map.1 ho
      have := mem_range.1 hi
      omega
    have hrc : u32 (bytes.length : ℤ) = bytes.length := u32_natCast (by omega)
    simp only [hresult, hrc]
    by_cases hnone : bytes.length ≤ 0
    · rw [if_pos hnone]
      refine ⟨_, rfl, hstored, fun e he => ?_, fun h0 => absurd h0 hleft⟩
      rw [mem_singleton.1 he]
      exact Int.natCast_nonneg _
    rw [if_neg hnone]
    have hl : u32 ((left : ℤ) - bytes.length) = left - bytes.length := by unfold u32; omega
    have hi : u32 ((index : ℤ) + bytes.length) = index + bytes.length := by unfold u32; omega
    obtain ⟨r, hr, hfilled⟩ := ih (hmore fun hnil => hnone (by rw [hnil]; exact le_rfl))
      (show index + bytes.length + (left - bytes.length) = size by omega) (storeBytes buffer index bytes) (by omega)
    rw [hl, hi, hr]
    refine ⟨_, rfl, fun o ho => ?_, fun e he => ?_, fun h0 => ?_⟩
    · exact (mem_append.1 ho).elim (hstored o) (hfilled.inside o)
    · rcases mem_cons.1 he with rfl | he
      · exact Int.natCast_nonneg _
      · exact hfilled.positive e he
    · rw [hfilled.whole h0, map_storeBytes (by omega) hle, append_assoc]

theorem loadBytes_reaches (h : Missing answers size k left) {fuel : ℕ} {r : LoadRun} (hsize : size < 2 ^ 32)
    (hr : loadBytes answers fuel 0 size 0 buffer = .ok r) :
    ∃ fuel' index' buffer' r', loadBytes answers fuel' k left index' buffer' = .ok r' ∧ r.left = r'.left ∧
      ∃ pre, r.results = pre ++ r'.results := by
  induction h with
  | start => exact ⟨fuel, 0, buffer, r, hr, rfl, [], rfl⟩
  | @more k left h hbytes ih =>
    obtain ⟨fuel, index, buffer, r', hr', hleft, pre, hpre⟩ := ih
    have hsmall := h.le
    have hle := (answers k).length_bytes_le left (by omega)
    have hpos := length_pos_of_ne_nil hbytes
    have hresult : (answers k).result (i32 left) = ((answers k).bytes (i32 left)).length := by
      cases hans : answers k with
      | error e => exact absurd (by rw [hans]; rfl) hbytes
      | data bs => exact ReadAnswer.result_data bs _
    cases fuel with
    | zero => cases hr'
    | succ fuel =>
      have hrc := u32_natCast (n := ((answers k).bytes (i32 left)).length) (by omega)
      have hl : u32 ((left : ℤ) - ((answers k).bytes (i32 left)).length) = left -
        ((answers k).bytes (i32 left)).length := by
        unfold u32
        omega
      rw [loadBytes, if_neg (by omega)] at hr'
      simp only [hresult, hrc] at hr'
      rw [if_neg (by omega), hl] at hr'
      cases hrest : loadBytes answers fuel (k + 1) (left - ((answers k).bytes (i32 left)).length) _ _ with
      | error e =>
        rw [hrest] at hr'
        cases hr'
      | ok rest =>
        rw [hrest] at hr'
        cases hr'
        exact ⟨fuel, _, _, rest, hrest, hleft, pre ++ [_], by rw [hpre, append_assoc]; rfl⟩

theorem left_of_results {fuel : ℕ} {r : LoadRun} (h : loadBytes answers fuel k left index buffer = .ok r)
    (hnil : r.results = []) : r.left = 0 := by
  cases fuel with
  | zero => cases h
  | succ fuel =>
    rw [loadBytes] at h
    by_cases h0 : left = 0
    · rw [if_pos h0] at h
      cases h
      rfl
    dsimp only at h
    split_ifs at h
    · cases h
      cases hnil
    obtain ⟨rest, -, hrest⟩ := bind_eq_ok h
    cases hrest
    cases hnil

theorem not_loadsRight (h : Missing answers size k left) (hleft : 0 < left) (hsize : size < 2 ^ 32) {e : Fin (2 ^ 31)}
    (he : answers k = .error e) : ¬LoadsRight answers size buffer := by
  rintro ⟨fuel, r, hr, -, hneg, -⟩
  obtain ⟨fuel, index, buffer', r', hr', hlast, pre, hpre⟩ := loadBytes_reaches h hsize hr
  cases fuel with
  | zero => cases hr'
  | succ fuel =>
    have hresult : (answers k).result (i32 left) = -(e + 1) := by rw [he]; rfl
    have hrc : ¬u32 (-((e : ℕ) + 1 : ℤ)) ≤ 0 := by
      unfold u32
      omega
    rw [loadBytes, if_neg hleft.ne'] at hr'
    simp only [hresult] at hr'
    rw [if_neg hrc] at hr'
    cases hrest : loadBytes answers fuel (k + 1) (u32 (left - u32 (-((e : ℕ) + 1 : ℤ)))) _ _ with
    | error _ =>
      rw [hrest] at hr'
      cases hr'
    | ok rest =>
      rw [hrest] at hr'
      cases hr'
      obtain ⟨hpost, hnone⟩ := hneg pre _ rest.results hpre (by omega)
      have hend : rest.left = 0 := left_of_results hrest hpost
      rw [LoadRun.returned, hlast, if_neg (by simp [hend])] at hnone
      cases hnone

end

/-- **A file is loaded as it should be if and only if no read fails before its end.** -/
theorem load_respects_iff (answers : ℕ → ReadAnswer) (size : UInt32) (buffer : ℕ → UInt8) :
    LoadsRight answers size.toNat buffer ↔
      ∀ k left, Missing answers size.toNat k left → 0 < left → ∀ e, answers k ≠ .error e := by
  refine ⟨fun h k left hmissing hleft e he => not_loadsRight hmissing hleft size.toNat_lt he h, fun hfine => ?_⟩
  obtain ⟨r, hr, hfilled⟩ := loadBytes_filled hfine .start (Nat.zero_add _) size.toNat_lt buffer (Nat.lt_succ_self _)
  refine ⟨_, r, hr, hfilled.inside, fun pre e post heq hneg => ?_, fun b hb => ?_⟩
  · have hmem : e ∈ r.results := heq ▸ mem_append_right pre mem_cons_self
    exact absurd hneg (not_lt.2 (hfilled.positive e hmem))
  rw [LoadRun.returned] at hb
  split_ifs at hb with h0
  cases hb
  exact hfilled.whole (Nat.eq_zero_of_not_pos h0)

/-- A read that is interrupted, with `-ERR_INTERRUPTED`. -/
theorem interrupted_read_goes_on : ¬LoadsRight (fun _ => .error 12) 4 fun _ => 0 :=
  not_loadsRight .start (by decide) (by decide) rfl

/-! ## The command line -/

/-- `commands_line`, the pointer behind the last byte, and all indices stored to. -/
structure LineBuffer where
  line : ℕ → UInt8
  ptr : ℕ
  stored : List ℕ

def LineBuffer.put (l : LineBuffer) (b : UInt8) : LineBuffer :=
  ⟨update l.line l.ptr b, l.ptr + 1, l.stored ++ [l.ptr]⟩

def putEnv (l : LineBuffer) (env : CString) : LineBuffer :=
  let l := env.bytes.foldl (fun l b =>
    if b = equalsSign then (l.put equalsSign).put apostrophe else l.put b) l
  (l.put apostrophe).put blank

def putArg (l : LineBuffer) (arg : CString) : LineBuffer :=
  let l := arg.bytes.foldl LineBuffer.put (l.put apostrophe)
  (l.put apostrophe).put blank

/-- The loops of `call_sys_execve`, on a buffer of zeros. -/
def putLine (argv envp : List CString) : LineBuffer := argv.foldl putArg (envp.foldl putEnv ⟨fun _ => 0, 0, []⟩)

/-- Nothing is stored outside of `commands_line`, and it holds a string. -/
def LineInside (l : LineBuffer) : Prop := (∀ i ∈ l.stored, i < maxPath) ∧ ∃ i < maxPath, l.line i = 0

section
variable {l : LineBuffer} {bs : List UInt8}

structure LineBuffer.Holds (l : LineBuffer) (bs : List UInt8) : Prop where
  line : ∀ i, l.line i = bs.getD i 0
  ptr : l.ptr = bs.length
  stored : l.stored = range bs.length

theorem LineBuffer.Holds.put (h : l.Holds bs) (b : UInt8) : (l.put b).Holds (bs ++ [b]) := by
  refine ⟨fun i => ?_, ?_, ?_⟩
  · simp only [LineBuffer.put, h.line, h.ptr, update_apply]
    rcases lt_trichotomy i bs.length with hi | rfl | hi
    · rw [if_neg hi.ne, getD_append _ _ _ _ hi]
    · rw [if_pos rfl, getD_append_right _ _ _ _ le_rfl, Nat.sub_self]
      rfl
    · rw [if_neg hi.ne', List.getD_eq_default _ _ hi.le, List.getD_eq_default _ _ (by simpa using hi)]
  · rw [LineBuffer.put, h.ptr, length_append, length_singleton]
  · rw [LineBuffer.put, h.ptr, h.stored, length_append, length_singleton, range_succ]

theorem LineBuffer.Holds.foldl {α : Type} {f : LineBuffer → α → LineBuffer} {g : α → List UInt8}
    (hf : ∀ l bs a, l.Holds bs → (f l a).Holds (bs ++ g a)) (h : l.Holds bs) (as : List α) :
    (as.foldl f l).Holds (bs ++ as.flatMap g) := by
  induction as generalizing l bs with
  | nil => simpa using h
  | cons a as ih =>
    rw [foldl_cons, flatMap_cons, ← append_assoc]
    exact ih (hf l bs a h)

theorem LineBuffer.Holds.putEnv (h : l.Holds bs) (env : CString) : (putEnv l env).Holds (bs ++ composeEnv env) := by
  have hbytes := h.foldl (f := fun l b => if b = equalsSign then (l.put equalsSign).put apostrophe else l.put b)
    (g := fun b => if b = equalsSign then [equalsSign, apostrophe] else [b]) (fun l bs b h => by
      split_ifs
      · simpa using (h.put equalsSign).put apostrophe
      · exact h.put b) env.bytes
  simpa [ZeldaOS.putEnv, composeEnv] using (hbytes.put apostrophe).put blank

theorem LineBuffer.Holds.putArg (h : l.Holds bs) (arg : CString) : (putArg l arg).Holds (bs ++ composeArg arg) := by
  have hbytes := (h.put apostrophe).foldl (f := LineBuffer.put) (g := fun b => [b]) (fun _ _ b h => h.put b) arg.bytes
  simpa [ZeldaOS.putArg, composeArg] using (hbytes.put apostrophe).put blank

theorem putLine_holds (argv envp : List CString) : (putLine argv envp).Holds (composeCommandLine argv envp) := by
  have hempty : LineBuffer.Holds ⟨fun _ => 0, 0, []⟩ [] := ⟨fun _ => rfl, rfl, rfl⟩
  have henv := hempty.foldl (fun _ _ env h => h.putEnv env) envp
  exact henv.foldl (fun _ _ arg h => h.putArg arg) argv

end

theorem length_composeCommandLine (argv envp : List CString) : (composeCommandLine argv envp).length =
      (envp.map fun e => e.bytes.length + e.bytes.count equalsSign + 2).sum +
        (argv.map fun a => a.bytes.length + 3).sum := by
  have hbytes : ∀ bs : List UInt8, (bs.flatMap fun b =>
      if b = equalsSign then [equalsSign, apostrophe] else [b]).length = bs.length + bs.count equalsSign := fun bs => by
    induction bs with
    | nil => rfl
    | cons b bs ih =>
      rw [flatMap_cons, length_append, ih, length_cons, count_cons]
      by_cases hb : b = equalsSign
      · simp [hb]
        omega
      simp [hb]
      omega
  simp only [composeCommandLine, length_append, length_flatMap, composeEnv, composeArg, hbytes, length_cons, length_nil]

/-- **The command line is built inside `commands_line` if and only if it is shorter than `MAX_PATH`.** -/
theorem line_inside_iff (argv envp : List CString) : LineInside (putLine argv envp) ↔
      (envp.map fun e => e.bytes.length + e.bytes.count equalsSign + 2).sum +
        (argv.map fun a => a.bytes.length + 3).sum < maxPath := by
  rw [← length_composeCommandLine]
  have h := putLine_holds argv envp
  refine ⟨fun ⟨hstored, i, hi, hzero⟩ => ?_, fun hlt => ⟨fun i hi => ?_, _, hlt, ?_⟩⟩
  · rw [h.line] at hzero
    have hle : (composeCommandLine argv envp).length ≤ i := by
      by_contra hlt
      rw [not_le] at hlt
      rw [List.getD_eq_getElem _ _ hlt] at hzero
      exact composeCommandLine_nul_free argv envp (hzero ▸ getElem_mem hlt)
    omega
  · rw [h.stored, mem_range] at hi
    exact hi.trans hlt
  · rw [h.line]
    exact List.getD_eq_default _ _ le_rfl

/-- One argument of 253 bytes leaves no room for a NUL. -/
theorem long_argument_overruns : ¬LineInside (putLine [.ofBytes (replicate 253 97)] []) := by
  rintro ⟨-, i, hi, hzero⟩
  exact absurd hzero (by revert i; decide +kernel)

end ZeldaOS
