import Mathlib.Data.List.TakeWhile
import Mathlib.Tactic

/-!
# Path names

C strings, and the two functions of `filesystem/vfs.c` that take a path apart.

* `splitPath_join`: a path is split at its slashes.
-/

namespace ZeldaOS

open List

/-! ## Strings -/

structure CString where
  bytes : List UInt8
  nul_free : 0 ∉ bytes
  deriving DecidableEq

namespace CString

def ofBytes (bs : List UInt8) : CString where
  bytes := bs.takeWhile (· ≠ 0)
  nul_free h := by simpa using mem_takeWhile_imp h

def get (s : CString) (i : ℕ) : UInt8 := s.bytes.getD i 0

def empty : CString := ⟨[], not_mem_nil⟩

variable {bs : List UInt8}

theorem ofBytes_of_nul_free (h : 0 ∉ bs) : (ofBytes bs).bytes = bs := by
  refine takeWhile_eq_self_iff.2 fun x hx => ?_
  simp only [ne_eq, decide_eq_true_eq]
  rintro rfl
  exact h hx

theorem ofBytes_bytes (s : CString) : ofBytes s.bytes = s := by
  cases s with
  | mk bs h => exact (CString.mk.injEq ..).mpr (ofBytes_of_nul_free h)

theorem ofBytes_append_nul (h : 0 ∉ bs) (rest : List UInt8) : (ofBytes (bs ++ 0 :: rest)).bytes = bs := by
  have hall : ∀ b ∈ bs, decide (b ≠ 0) = true := fun b hb => decide_eq_true fun he => h (he ▸ hb)
  change (bs ++ 0 :: rest).takeWhile (· ≠ 0) = bs
  rw [takeWhile_append_of_pos hall, takeWhile_cons_of_neg (by simp), append_nil]

end CString

theorem splitOn_of_not_mem {a : UInt8} {bs : List UInt8} (h : a ∉ bs) : bs.splitOn a = [bs] :=
  splitOnP_eq_singleton fun _ hb => beq_eq_false_iff_ne.2 fun he => h (he ▸ hb)

def strcmpBytes : List UInt8 → List UInt8 → ℤ
  | a :: as, b :: bs => if a = b then strcmpBytes as bs else (a.toNat : ℤ) - b.toNat
  | as, bs => ((as.headD 0).toNat : ℤ) - (bs.headD 0).toNat

def strcmp (a b : CString) : ℤ := strcmpBytes a.bytes b.bytes

theorem strcmpBytes_eq_zero {as : List UInt8} (ha : 0 ∉ as) (hb : 0 ∉ bs) : strcmpBytes as bs = 0 ↔ as = bs := by
  have hzero : ∀ {a : UInt8} {l : List UInt8}, 0 ∉ a :: l → a.toNat ≠ 0 := by
    intro a l h h0
    exact h (mem_cons.2 (Or.inl (UInt8.toNat_inj.1 h0.symm)))
  induction as generalizing bs with
  | nil =>
    cases bs with
    | nil => simp [strcmpBytes]
    | cons b bs =>
      have := hzero hb
      simp [strcmpBytes, this]
  | cons a as ih =>
    cases bs with
    | nil =>
      have := hzero ha
      simp [strcmpBytes, this]
    | cons b bs =>
      rw [strcmpBytes, List.cons.injEq]
      by_cases hab : a = b
      · have htail := ih (fun h => ha (mem_cons_of_mem _ h)) (fun h => hb (mem_cons_of_mem _ h))
        simp [hab, htail]
      have : (a.toNat : ℤ) - b.toNat ≠ 0 := by
        intro h
        exact hab (UInt8.toNat_inj.1 (by omega))
      simp [hab, this]

theorem strcmp_eq_zero {a b : CString} : strcmp a b = 0 ↔ a = b := by
  rw [strcmp, strcmpBytes_eq_zero a.nul_free b.nul_free]
  cases a
  cases b
  simp

/-- `strcpy_safe(dst, src, max_size)`: the string left in `dst`, which was zero. -/
def strcpySafe (src : CString) (maxSize : ℕ) : CString where
  bytes := src.bytes.take maxSize
  nul_free h := src.nul_free (mem_of_mem_take h)

variable {src : CString} {n : ℕ}

theorem strcpySafe_of_le (h : src.bytes.length ≤ n) : strcpySafe src n = src := by
  cases src
  exact (CString.mk.injEq ..).mpr (take_of_length_le h)

/-- A failed `ASSERT`, a store past a buffer, an access through `NULL`, or an endless loop. -/
inductive FsFault where
  | assertion | overflow | null | diverge
  deriving DecidableEq, Repr

def FsFault.unless (e : FsFault) (c : Prop) [Decidable c] : Except FsFault Unit :=
  if c then .ok () else .error e

variable {e : FsFault} {c : Prop}

@[simp] theorem FsFault.unless_of [Decidable c] (h : c) : e.unless c = .ok () := if_pos h

theorem FsFault.of_unless [Decidable c] {u : Unit} (h : e.unless c = .ok u) : c := by
  by_contra hc
  have hfail : e.unless c = .error e := if_neg hc
  rw [hfail] at h
  cases h

def maxPath : ℕ := 256

def slash : UInt8 := 47
def blank : UInt8 := 32
def dot : UInt8 := 46

/-! ## Canonical names -/

/-- `word_start`, with `none` for `-1`, and the used part of `index_stack`. -/
@[ext] structure Scan where
  wordStart : Option ℕ
  indexStack : List ℕ

/-- The end of a word: `src[idx]` is a slash or the NUL. -/
def Scan.closeWord (src : CString) (idx w : ℕ) (s : Scan) : Scan :=
  let wordLen := idx - w
  if wordLen = 1 then
    if src.get idx = 0 ∧ s.indexStack = [] then ⟨some w, s.indexStack ++ [w]⟩
    else ⟨some idx, s.indexStack⟩
  else if wordLen = 2 ∧ src.get (idx - 1) = dot then ⟨some idx, s.indexStack⟩
  else if wordLen = 3 ∧ src.get (idx - 1) = dot ∧ src.get (idx - 2) = dot then
    ⟨some idx, s.indexStack.dropLast⟩
  else ⟨some idx, s.indexStack ++ [w]⟩

/-- The first loop, at index `idx` with `n` rounds left; `none` when a blank is met. -/
def scanWords (src : CString) : (n idx : ℕ) → Scan → Option Scan
  | 0, _, s => some s
  | n + 1, idx, s =>
    if src.get idx = blank then none
    else if src.get idx ≠ slash ∧ src.get idx ≠ 0 then scanWords src n (idx + 1) s
    else
      match s.wordStart with
      | none =>
        if src.get idx ≠ 0 then scanWords src n (idx + 1) { s with wordStart := some idx }
        else some s
      | some w =>
        let s := s.closeWord src idx w
        if src.get idx = 0 then some s else scanWords src n (idx + 1) s

/-- `word_end` for a word of the second loop: the next slash, or one past the NUL. -/
def wordEnd (src : CString) : (n idx : ℕ) → ℕ
  | 0, _ => 0
  | n + 1, idx =>
    if src.get idx = slash then idx
    else if src.get idx = 0 then idx + 1
    else wordEnd src n (idx + 1)

/-- The bytes the second loop copies for the word that starts at `w`. -/
def copyWord (src : CString) (w : ℕ) : List UInt8 :=
  (List.range' w (wordEnd src (maxPath - (w + 1)) (w + 1) - w)).map src.get

/-- The bytes stored to `dst`, in order; `none` for `-ERR_INVALID_ARG`. -/
def canonicalizePathName (src : CString) : Option (List UInt8) :=
  (scanWords src maxPath 0 ⟨none, []⟩).map fun s => s.indexStack.flatMap (copyWord src) ++ [0]

/-- The loop of `split_path` over the bytes from `ptr` on. -/
def splitBytes : (fuel : ℕ) → List UInt8 → Except FsFault (List CString)
  | _, [] => .ok []
  | 0, _ :: _ => .error .diverge
  | n + 1, bs => do
    let word := bs.takeWhile (· ≠ slash)
    let rest := bs.dropWhile (· ≠ slash)
    if word = [] then
      FsFault.assertion.unless (rest.head? = some slash)
      splitBytes n rest.tail
    else if rest = [] then .ok [CString.ofBytes word]
    else return CString.ofBytes word :: (← splitBytes n rest.tail)

def splitPath (path : CString) : Except FsFault (List CString) :=
  splitBytes path.bytes.length path.bytes

/-- Canonicalise the path into the zeroed `c_name`, without looking at the result, and split it. -/
def components (path : CString) : Except FsFault (List CString) := do
  let stored := (canonicalizePathName path).getD []
  FsFault.overflow.unless (stored.length ≤ maxPath)
  splitPath (CString.ofBytes stored)

/-! ## Words -/

def joinWords (ws : List (List UInt8)) : List UInt8 := ws.flatMap (slash :: ·)

def IsWord (w : List UInt8) : Prop := slash ∉ w ∧ blank ∉ w

theorem joinWords_cons (w : List UInt8) (ws : List (List UInt8)) :
    joinWords (w :: ws) = slash :: (w ++ joinWords ws) := rfl

theorem joinWords_append (vs ws : List (List UInt8)) : joinWords (vs ++ ws) = joinWords vs ++ joinWords ws :=
  flatMap_append

theorem joinWords_concat (ws : List (List UInt8)) (v : List UInt8) :
    joinWords (ws ++ [v]) = joinWords ws ++ slash :: v := by
  rw [joinWords_append]
  exact congrArg (fun r => joinWords ws ++ slash :: r) (append_nil v)

variable {ws : List (List UInt8)}

theorem mem_joinWords {b : UInt8} : b ∈ joinWords ws ↔ (ws ≠ [] ∧ b = slash) ∨ ∃ w ∈ ws, b ∈ w := by
  induction ws with
  | nil => simp [joinWords]
  | cons w ws ih =>
    rw [joinWords_cons, mem_cons, mem_append, ih]
    grind

theorem exists_joinWords (bs : List UInt8) : ∃ w ws, bs = w ++ joinWords ws ∧ slash ∉ w ∧ ∀ v ∈ ws, slash ∉ v := by
  induction bs with
  | nil => exact ⟨[], [], rfl, not_mem_nil, fun v hv => absurd hv not_mem_nil⟩
  | cons b bs ih =>
    obtain ⟨w, ws, rfl, hw, hws⟩ := ih
    by_cases hb : b = slash
    · exact ⟨[], w :: ws, by rw [hb]; rfl, not_mem_nil, forall_mem_cons.2 ⟨hw, hws⟩⟩
    · exact ⟨b :: w, ws, rfl, fun h => (mem_cons.1 h).elim (fun h => hb h.symm) hw, hws⟩

section
variable {w : List UInt8}

theorem takeWhile_word {rest : List UInt8} (hw : slash ∉ w) (hrest : rest = [] ∨ ∃ bs, rest = slash :: bs) :
    (w ++ rest).takeWhile (· ≠ slash) = w ∧ (w ++ rest).dropWhile (· ≠ slash) = rest := by
  have hall : ∀ b ∈ w, decide (b ≠ slash) = true := fun b hb => decide_eq_true fun he => hw (he ▸ hb)
  rw [takeWhile_append_of_pos hall, dropWhile_append_of_pos hall]
  rcases hrest with rfl | ⟨bs, rfl⟩ <;> simp

theorem head?_dropWhile_ne_slash (bs : List UInt8) :
    bs.dropWhile (· ≠ slash) = [] ∨ (bs.dropWhile (· ≠ slash)).head? = some slash := by
  induction bs with
  | nil => exact Or.inl rfl
  | cons b bs ih =>
    by_cases hb : b = slash
    · right
      simp [hb]
    · simpa [hb] using ih

theorem splitBytes_succ (h : bs ≠ []) : splitBytes (n + 1) bs =
      if bs.takeWhile (· ≠ slash) = [] then splitBytes n (bs.dropWhile (· ≠ slash)).tail
      else if bs.dropWhile (· ≠ slash) = [] then .ok [CString.ofBytes (bs.takeWhile (· ≠ slash))]
      else (splitBytes n (bs.dropWhile (· ≠ slash)).tail).map (CString.ofBytes (bs.takeWhile (· ≠ slash)) :: ·) := by
  rw [splitBytes]
  · split_ifs with hnil hre
    · have hne : bs.dropWhile (· ≠ slash) ≠ [] := by
        intro hre
        have := takeWhile_append_dropWhile (p := (· ≠ slash)) (l := bs)
        rw [hnil, hre] at this
        exact h this.symm
      rw [FsFault.unless_of ((head?_dropWhile_ne_slash bs).resolve_left hne)]
      rfl
    · rfl
    · rfl
  · exact h

theorem splitBytes_join (hw : slash ∉ w) (hws : ∀ v ∈ ws, slash ∉ v) (hn : (w ++ joinWords ws).length ≤ n) :
    splitBytes n (w ++ joinWords ws) = .ok (((w :: ws).filter (· ≠ [])).map CString.ofBytes) := by
  induction ws generalizing w n with
  | nil =>
    cases w with
    | nil => cases n <;> rfl
    | cons b w =>
      obtain ⟨m, rfl⟩ : ∃ m, n = m + 1 := ⟨n - 1, by simp at hn; omega⟩
      obtain ⟨htake, hdrop⟩ := takeWhile_word hw (.inl (rfl : joinWords [] = []))
      have hne : b :: w ++ joinWords [] ≠ [] := cons_ne_nil _ _
      have hnil : joinWords [] = [] := rfl
      rw [splitBytes_succ hne, htake, hdrop, if_neg (cons_ne_nil b w), if_pos hnil]
      rfl
  | cons v ws ih =>
    rw [forall_mem_cons] at hws
    obtain ⟨m, rfl⟩ : ∃ m, n = m + 1 := ⟨n - 1, by simp [joinWords] at hn; omega⟩
    obtain ⟨htake, hdrop⟩ := takeWhile_word hw (.inr ⟨_, joinWords_cons v ws⟩)
    have hrest := ih hws.1 hws.2 (n := m) (by simp [joinWords] at hn ⊢; omega)
    rw [splitBytes_succ (by simp [joinWords_cons]), htake, hdrop, joinWords_cons, tail_cons, hrest,
      if_neg (cons_ne_nil _ _)]
    by_cases hnil : w = []
    · subst hnil
      rfl
    have hkeep : decide (w ≠ []) = true := decide_eq_true hnil
    rw [if_neg hnil, filter_cons_of_pos (l := v :: ws) hkeep]
    rfl

theorem splitPath_join (h : src.bytes = joinWords ws) (hws : ∀ v ∈ ws, slash ∉ v) :
    splitPath src = .ok ((ws.filter (· ≠ [])).map CString.ofBytes) := by
  have hsplit := splitBytes_join not_mem_nil hws (n := src.bytes.length) (by rw [h]; simp)
  rw [nil_append, ← h] at hsplit
  exact hsplit

end

theorem length_tail_dropWhile_lt (h : bs ≠ []) : (bs.dropWhile (· ≠ slash)).tail.length < bs.length := by
  have hpos := length_pos_iff.2 h
  have hdrop := (dropWhile_sublist (p := (· ≠ slash)) (l := bs)).length_le
  rw [length_tail]
  omega

theorem splitBytes_names (hn : bs.length ≤ n) (hnul : 0 ∉ bs) :
    ∃ names, splitBytes n bs = .ok names ∧ ∀ c ∈ names, c.bytes ≠ [] ∧ c.bytes.length ≤ bs.length := by
  induction n generalizing bs with
  | zero =>
    obtain rfl := length_eq_zero_iff.1 (Nat.le_zero.1 hn)
    exact ⟨[], rfl, fun c hc => absurd hc not_mem_nil⟩
  | succ n ih =>
    by_cases hne : bs = []
    · subst hne
      exact ⟨[], rfl, fun c hc => absurd hc not_mem_nil⟩
    have hlt := length_tail_dropWhile_lt hne
    have htail : 0 ∉ (bs.dropWhile (· ≠ slash)).tail := fun h0 =>
      hnul ((dropWhile_sublist _).subset (mem_of_mem_tail h0))
    obtain ⟨names, hrest, hnames⟩ := ih (by omega) htail
    have hword : (CString.ofBytes (bs.takeWhile (· ≠ slash))).bytes = bs.takeWhile (· ≠ slash) :=
      CString.ofBytes_of_nul_free fun h0 => hnul ((takeWhile_sublist _).subset h0)
    have hlen : (bs.takeWhile (· ≠ slash)).length ≤ bs.length := (takeWhile_sublist _).length_le
    have hlong : ∀ c ∈ names, c.bytes ≠ [] ∧ c.bytes.length ≤ bs.length := fun c hc =>
      ⟨(hnames c hc).1, (hnames c hc).2.trans hlt.le⟩
    rw [splitBytes_succ hne]
    split_ifs with hempty hlast
    · exact ⟨names, hrest, hlong⟩
    · refine ⟨_, rfl, fun c hc => ?_⟩
      rw [mem_singleton.1 hc, hword]
      exact ⟨hempty, hlen⟩
    rw [hrest]
    refine ⟨_, rfl, forall_mem_cons.2 ⟨?_, hlong⟩⟩
    rw [hword]
    exact ⟨hempty, hlen⟩

theorem components_cases (path : CString) : components path = .error .overflow ∨ ∃ names, components path = .ok names ∧
      ∀ c ∈ names, c ≠ .empty ∧ c.bytes.length ≤ maxPath := by
  rw [components]
  by_cases hfits : ((canonicalizePathName path).getD []).length ≤ maxPath
  · set stored := CString.ofBytes ((canonicalizePathName path).getD []) with hstored
    have hlen : stored.bytes.length ≤ maxPath := (takeWhile_sublist _).length_le.trans hfits
    obtain ⟨names, hsplit, hnames⟩ := splitBytes_names (le_refl stored.bytes.length) stored.nul_free
    refine .inr ⟨names, ?_, fun c hc => ⟨fun he => (hnames c hc).1 (he ▸ rfl), (hnames c hc).2.trans hlen⟩⟩
    rw [FsFault.unless_of hfits]
    exact hsplit
  · refine .inl ?_
    rw [FsFault.unless, if_neg hfits]
    rfl

end ZeldaOS
