import ZeldaOS.Vfs.Path

/-!
# Canonical names of any path

`canonicalize_path_name` looks at the first `MAX_PATH` bytes of any string, absolute or not.

* `canonicalizePathName_eq_none`: the paths that are refused.
* `canonicalizePathName_canonical`: what is stored.
-/

namespace ZeldaOS

open List

/-! ## Words that are left -/

/-- What the end of a word does to the words so far, with the positions of their slashes. -/
def pushWord (last : Bool) (stack : List (ℕ × List UInt8)) (p : ℕ) (w : List UInt8) :
    List (ℕ × List UInt8) :=
  if w = [] then if last = true ∧ stack = [] then [(p, [])] else stack
  else if w = [dot] then stack
  else if w = [dot, dot] then stack.dropLast
  else stack ++ [(p, w)]

def resolveAt : ℕ → List (List UInt8) → List (ℕ × List UInt8) → List (ℕ × List UInt8)
  | _, [], stack => stack
  | p, w :: ws, stack => resolveAt (p + 1 + w.length) ws (pushWord ws.isEmpty stack p w)

def resolve (ws : List (List UInt8)) : List (List UInt8) := (resolveAt 0 ws []).map Prod.snd

def closeWords : ℕ → List (List UInt8) → List (ℕ × List UInt8) → List (ℕ × List UInt8)
  | _, [], stack => stack
  | p, w :: ws, stack => closeWords (p + 1 + w.length) ws (pushWord false stack p w)

/-- An empty component and `.` are dropped, `..` takes the last one away. -/
def addWord (names : List (List UInt8)) (w : List UInt8) : List (List UInt8) :=
  if w = [] ∨ w = [dot] then names else if w = [dot, dot] then names.dropLast else names ++ [w]

def resolveWords (ws : List (List UInt8)) : List (List UInt8) := ws.foldl addWord []

variable {w v : List UInt8} {ws : List (List UInt8)} {stack : List (ℕ × List UInt8)}

section
variable {p : ℕ}

theorem pushWord_cases (last : Bool) (stack : List (ℕ × List UInt8)) (p : ℕ) (w : List UInt8) :
    ∃ l, l <+: stack ∧ (pushWord last stack p w = l ∨ pushWord last stack p w = l ++ [(p, w)]) := by
  rw [pushWord]
  split_ifs with hw hlast hdot hdots
  · exact ⟨[], nil_prefix, .inr (by rw [hw]; rfl)⟩
  · exact ⟨stack, prefix_rfl, .inl rfl⟩
  · exact ⟨stack, prefix_rfl, .inl rfl⟩
  · exact ⟨stack.dropLast, dropLast_prefix stack, .inl rfl⟩
  · exact ⟨stack, prefix_rfl, .inr rfl⟩

theorem map_snd_pushWord (last : Bool) (stack : List (ℕ × List UInt8)) (p : ℕ) (w : List UInt8) :
    (pushWord last stack p w).map Prod.snd =
      if last = true ∧ w = [] ∧ stack = [] then [[]] else addWord (stack.map Prod.snd) w := by
  rw [pushWord, addWord]
  by_cases hw : w = []
  · by_cases hc : last = true ∧ stack = []
    · simp [hw, hc]
    have hc' : ¬(last = true ∧ w = [] ∧ stack = []) := fun h => hc ⟨h.1, h.2.2⟩
    rw [if_pos hw, if_neg hc, if_neg hc', if_pos (Or.inl hw)]
  by_cases hdot : w = [dot]
  · simp [hdot]
  by_cases hdots : w = [dot, dot]
  · simp [hdots, map_dropLast]
  · simp [hw, hdot, hdots]

theorem map_snd_closeWords (ws : List (List UInt8)) (p : ℕ) (stack : List (ℕ × List UInt8)) :
    (closeWords p ws stack).map Prod.snd = ws.foldl addWord (stack.map Prod.snd) := by
  induction ws generalizing p stack with
  | nil => rfl
  | cons w ws ih =>
    rw [closeWords, ih, map_snd_pushWord, if_neg fun h => Bool.false_ne_true h.1]
    rfl

theorem resolveAt_concat (ws : List (List UInt8)) (v : List UInt8) (p : ℕ) (stack : List (ℕ × List UInt8)) :
    resolveAt p (ws ++ [v]) stack = pushWord true (closeWords p ws stack) (p + (joinWords ws).length) v := by
  induction ws generalizing p stack with
  | nil => rfl
  | cons w ws ih =>
    have hne : (ws ++ [v]).isEmpty = false := by cases ws <;> rfl
    rw [cons_append, resolveAt, hne, ih, closeWords, joinWords_cons, length_cons, length_append]
    congr 1
    omega

theorem map_snd_resolveAt (p : ℕ) (ws : List (List UInt8)) (v : List UInt8) :
    (resolveAt p (ws ++ [v]) []).map Prod.snd =
      if v = [] ∧ resolveWords ws = [] then [[]] else resolveWords (ws ++ [v]) := by
  have hclosed : (closeWords p ws []).map Prod.snd = resolveWords ws := map_snd_closeWords ws p []
  have hnil : closeWords p ws [] = [] ↔ resolveWords ws = [] := by rw [← hclosed, map_eq_nil_iff]
  have hlast : resolveWords (ws ++ [v]) = addWord (resolveWords ws) v := foldl_concat ..
  rw [resolveAt_concat, map_snd_pushWord, hclosed, hlast]
  simp only [true_and, hnil]

theorem addWord_cases (names : List (List UInt8)) (w : List UInt8) :
    addWord names w <+: names ∨ addWord names w = names ++ [w] ∧ w ≠ [] ∧ w ≠ [dot] ∧ w ≠ [dot, dot] := by
  rw [addWord]
  split_ifs with hskip hdots
  · exact .inl prefix_rfl
  · exact .inl ( dropLast_prefix names)
  · exact .inr ⟨rfl, fun h => hskip (.inl h), fun h => hskip (.inr h), hdots⟩

theorem mem_foldl_addWord {names : List (List UInt8)} (h : v ∈ ws.foldl addWord names) :
    v ∈ names ∨ v ∈ ws ∧ v ≠ [] ∧ v ≠ [dot] ∧ v ≠ [dot, dot] := by
  induction ws generalizing names with
  | nil => exact .inl h
  | cons w ws ih =>
    rcases ih h with h | ⟨h, hname⟩
    · rcases addWord_cases names w with hle | ⟨heq, hname⟩
      · exact .inl (hle.subset h)
      rw [heq] at h
      refine (mem_append.1 h).imp_right fun hv => ?_
      rw [mem_singleton.1 hv]
      exact ⟨mem_cons_self, hname⟩
    · exact .inr ⟨mem_cons_of_mem w h, hname⟩

theorem mem_resolveWords (h : v ∈ resolveWords ws) : v ∈ ws ∧ v ≠ [] ∧ v ≠ [dot] ∧ v ≠ [dot, dot] :=
  (mem_foldl_addWord h).resolve_left not_mem_nil

theorem foldl_addWord_names (h : ∀ v ∈ ws, v ≠ [] ∧ v ≠ [dot] ∧ v ≠ [dot, dot]) (names : List (List UInt8)) :
    ws.foldl addWord names = names ++ ws := by
  induction ws generalizing names with
  | nil => exact (append_nil names).symm
  | cons w ws ih =>
    obtain ⟨⟨h1, h2, h3⟩, hws⟩ := forall_mem_cons.1 h
    rw [foldl_cons, ih hws, addWord, if_neg fun h => h.elim h1 h2, if_neg h3, append_assoc]
    rfl

theorem length_foldl_addWord (ws names : List (List UInt8)) :
    (joinWords (ws.foldl addWord names)).length ≤ (joinWords names).length + (joinWords ws).length ∧
      ((joinWords (ws.foldl addWord names)).length = (joinWords names).length + (joinWords ws).length →
        ws.foldl addWord names = names ++ ws) := by
  induction ws generalizing names with
  | nil => exact ⟨Nat.le_add_right _ _, fun _ => (append_nil names).symm⟩
  | cons w ws ih =>
    obtain ⟨hle, heq⟩ := ih (addWord names w)
    rw [foldl_cons, joinWords_cons, length_cons, length_append]
    rcases addWord_cases names w with ⟨r, hr⟩ | ⟨hadd, -⟩
    · have hsize : (joinWords names).length = (joinWords (addWord names w)).length + (joinWords r).length := by
        rw [← length_append, ← joinWords_append, hr]
      exact ⟨by omega, fun h => by omega⟩
    have hsize : (joinWords (addWord names w)).length = (joinWords names).length + (w.length + 1) := by
      rw [hadd, joinWords_concat, length_append, length_cons]
    refine ⟨by omega, fun h => ?_⟩
    rw [heq (by omega), hadd, append_assoc]
    rfl

theorem length_resolveWords (ws : List (List UInt8)) : (joinWords (resolveWords ws)).length ≤ (joinWords ws).length ∧
      ((joinWords (resolveWords ws)).length = (joinWords ws).length → resolveWords ws = ws) := by
  have h := length_foldl_addWord ws []
  rw [show (joinWords []).length = 0 from rfl, Nat.zero_add, nil_append] at h
  exact h

end

variable {src : CString} {i : ℕ} {b : UInt8} {bs l a : List UInt8} {s : Scan}

section
variable {rest : List UInt8} {p n : ℕ}

/-! ## The scan -/

theorem CString.get_eq (src : CString) (i : ℕ) : src.get i = (src.bytes.drop i).headD 0 := by
  rw [CString.get, getD_eq_getElem?_getD, headD_eq_head?_getD, head?_drop]

theorem CString.get_of_drop (h : src.bytes.drop i = b :: bs) : src.get i = b := by
  rw [CString.get_eq, h]
  rfl

theorem CString.get_eq_zero (h : src.bytes.length ≤ i) : src.get i = 0 := by
  rw [CString.get_eq, drop_eq_nil_of_le h]
  rfl

theorem CString.ne_zero_of_drop (h : src.bytes.drop i = b :: bs) : b ≠ 0 := by
  rintro rfl
  exact src.nul_free (mem_of_mem_drop (h ▸ mem_cons_self ..))

theorem drop_add_of_drop_eq {b : List UInt8} (h : l.drop i = a ++ b) : l.drop (i + a.length) = b := by
  rw [← drop_drop, h, drop_left]

theorem drop_succ_of_drop_eq {b : List UInt8} {x : UInt8} (h : l.drop i = x :: b) :
    l.drop (i + 1) = b := drop_add_of_drop_eq (a := [x]) h

theorem scanWords_word (hw : IsWord w) (h : src.bytes.drop i = w ++ rest) :
    scanWords src (n + w.length) i s = scanWords src n (i + w.length) s := by
  induction w generalizing i with
  | nil => rfl
  | cons b w ih =>
    simp only [IsWord, mem_cons, not_or] at hw
    have hb : b ≠ slash ∧ b ≠ blank := ⟨Ne.symm hw.1.1, Ne.symm hw.2.1⟩
    have hdrop : src.bytes.drop (i + 1) = w ++ rest := drop_succ_of_drop_eq h
    rw [length_cons, ← Nat.add_assoc, scanWords, CString.get_of_drop h, if_neg hb.2,
      if_pos ⟨hb.1, CString.ne_zero_of_drop h⟩, ih ⟨hw.1.2, hw.2.2⟩ hdrop, Nat.add_right_comm i, Nat.add_assoc i]

theorem closeWord_eq (h : src.bytes.drop (p + 1) = w ++ rest) {last : Bool}
    (hlast : src.get (p + 1 + w.length) = 0 ↔ last = true) (stack : List (ℕ × List UInt8)) (start : Option ℕ) :
    (Scan.closeWord src (p + 1 + w.length) p ⟨start, stack.map Prod.fst⟩).indexStack =
        (pushWord last stack p w).map Prod.fst ∧
      (last = false → (Scan.closeWord src (p + 1 + w.length) p ⟨start, stack.map Prod.fst⟩).wordStart =
        some (p + 1 + w.length)) := by
  have hlen : p + 1 + w.length - p = w.length + 1 := by omega
  rw [Scan.closeWord, hlen]
  match w, h, hlen, hlast with
  | [], h, _, hlast =>
    rw [length_nil, Nat.add_zero] at hlast
    simp only [length_nil, Nat.add_zero, hlast, map_eq_nil_iff, pushWord, if_true]
    by_cases hc : last = true ∧ stack = []
    · simp [hc]
    rw [if_neg hc, if_neg hc]
    exact ⟨rfl, fun _ => rfl⟩
  | [b], h, _, _ =>
    simp only [length_singleton, Nat.add_sub_cancel, CString.get_of_drop h, pushWord]
    by_cases hb : b = dot
    · simp [hb]
    · simp [hb]
  | [b, c], h, _, _ =>
    have hnext : src.bytes.drop (p + 2) = c :: rest := drop_succ_of_drop_eq h
    have h1 : p + 1 + [b, c].length - 1 = p + 2 := by simp
    have h2 : p + 1 + [b, c].length - 2 = p + 1 := by simp
    rw [h1, h2, CString.get_of_drop h, CString.get_of_drop hnext]
    by_cases hb : b = dot ∧ c = dot
    · simp [hb, pushWord, map_dropLast]
    have hne : ¬[b, c] = [dot, dot] := fun hc => hb (by simpa using hc)
    simp [pushWord, hne, and_comm, hb]
  | b :: c :: d :: w, h, _, _ =>
    simp [pushWord]

theorem scanWords_close (hw : IsWord w) (h : src.bytes.drop (p + 1) = w ++ slash :: rest)
    (stack : List (ℕ × List UInt8)) : scanWords src (n + 1 + w.length) (p + 1) ⟨some p, stack.map Prod.fst⟩ =
      scanWords src n (p + 1 + w.length + 1) ⟨some (p + 1 + w.length), (pushWord false stack p w).map Prod.fst⟩ := by
  have hend : src.get (p + 1 + w.length) = slash := CString.get_of_drop (drop_add_of_drop_eq h)
  have hblank : ¬slash = blank := by decide
  have hbyte : ¬(slash ≠ slash ∧ slash ≠ 0) := by decide
  have hzero : ¬slash = 0 := by decide
  have hlast : src.get (p + 1 + w.length) = 0 ↔ false = true := by
    rw [hend]
    exact iff_of_false hzero Bool.false_ne_true
  obtain ⟨hstack, hstart⟩ := closeWord_eq h hlast stack (some p)
  rw [scanWords_word hw h, scanWords, hend, if_neg hblank, if_neg hbyte]
  dsimp only
  rw [if_neg hzero]
  exact congrArg _ (Scan.ext (hstart rfl) hstack)

theorem scanWords_closed (hws : ∀ v ∈ ws, IsWord v) (h : src.bytes.drop p = joinWords ws ++ slash :: rest)
    (stack : List (ℕ × List UInt8)) : scanWords src (n + (joinWords ws).length) (p + 1) ⟨some p, stack.map Prod.fst⟩ =
      scanWords src n (p + (joinWords ws).length + 1)
        ⟨some (p + (joinWords ws).length), (closeWords p ws stack).map Prod.fst⟩ := by
  induction ws generalizing p stack with
  | nil => rfl
  | cons w ws ih =>
    obtain ⟨hw, hws⟩ := forall_mem_cons.1 hws
    have hnext : src.bytes.drop (p + 1) = w ++ (joinWords ws ++ slash :: rest) := by
      rw [joinWords_cons, cons_append, append_assoc] at h
      exact drop_succ_of_drop_eq h
    have hword : ∃ r, src.bytes.drop (p + 1) = w ++ slash :: r := by
      rw [hnext]
      cases ws with
      | nil => exact ⟨rest, rfl⟩
      | cons v ws => exact ⟨_, rfl⟩
    obtain ⟨r, hr⟩ := hword
    have hcount : n + (joinWords (w :: ws)).length = n + (joinWords ws).length + 1 + w.length := by
      rw [joinWords_cons, length_cons, length_append]
      omega
    have hpos : p + (joinWords (w :: ws)).length = p + 1 + w.length + (joinWords ws).length := by
      omega
    rw [hcount, scanWords_close hw hr, ih hws (drop_add_of_drop_eq hnext), hpos, closeWords]

theorem scanWords_words (h : src.bytes = w ++ (joinWords ws ++ slash :: (v ++ rest))) (hw : IsWord w)
    (hws : ∀ u ∈ ws, IsWord u) (hv : IsWord v) : scanWords src (n + (w ++ joinWords (ws ++ [v])).length) 0 ⟨none, []⟩ =
      scanWords src n (w ++ joinWords (ws ++ [v])).length
        ⟨some (w.length + (joinWords ws).length), (closeWords w.length ws []).map Prod.fst⟩ := by
  have hstart : src.bytes.drop 0 = w ++ (joinWords ws ++ slash :: (v ++ rest)) := h
  have hslash : ∃ r, joinWords ws ++ slash :: (v ++ rest) = slash :: r := by
    cases ws with
    | nil => exact ⟨_, rfl⟩
    | cons u us => exact ⟨_, rfl⟩
  obtain ⟨r, hr⟩ := hslash
  have hdrop : src.bytes.drop w.length = joinWords ws ++ slash :: (v ++ rest) := by
    rw [h, drop_left]
  have hfirst : src.get w.length = slash := CString.get_of_drop (hdrop.trans hr)
  have hlast := drop_succ_of_drop_eq (drop_add_of_drop_eq hdrop)
  have hsize : (w ++ joinWords (ws ++ [v])).length = w.length + (joinWords ws).length + 1 + v.length := by
    rw [joinWords_concat, length_append, length_append, length_cons]
    omega
  have hcount : n + (w ++ joinWords (ws ++ [v])).length = n + v.length + (joinWords ws).length + 1 + w.length := by
    omega
  have hblank : ¬slash = blank := by decide
  have hbyte : ¬(slash ≠ slash ∧ slash ≠ 0) := by decide
  have hzero : slash ≠ 0 := by decide
  rw [hcount, scanWords_word hw hstart, Nat.zero_add, scanWords, hfirst, if_neg hblank, if_neg hbyte]
  rw [if_pos hzero, hsize]
  exact (scanWords_closed hws hdrop []).trans (scanWords_word hv hlast)

def ClosedWord (src : CString) (e : ℕ × List UInt8) : Prop :=
  slash ∉ e.2 ∧ e.1 + 1 + e.2.length < maxPath ∧ ∃ rest, src.bytes.drop e.1 = slash :: (e.2 ++ slash :: rest)

theorem wordEnd_word (hw : slash ∉ w) (h : src.bytes.drop i = w ++ rest) :
    wordEnd src (n + w.length) i = wordEnd src n (i + w.length) := by
  induction w generalizing i with
  | nil => rfl
  | cons b w ih =>
    rw [mem_cons, not_or] at hw
    have hdrop : src.bytes.drop (i + 1) = w ++ rest := drop_succ_of_drop_eq h
    rw [length_cons, ← Nat.add_assoc, wordEnd, CString.get_of_drop h, if_neg (Ne.symm hw.1),
      if_neg (CString.ne_zero_of_drop h), ih hw.2 hdrop, Nat.add_right_comm i, Nat.add_assoc i]

theorem map_get_range' {b : List UInt8} (h : src.bytes.drop i = a ++ b) : (List.range' i a.length).map src.get = a := by
  induction a generalizing i with
  | nil => rfl
  | cons x a ih =>
    rw [length_cons, range'_succ, map_cons, CString.get_of_drop h, ih (drop_succ_of_drop_eq h)]

theorem copyWord_eq (hw : slash ∉ w) (h : src.bytes.drop p = slash :: (w ++ rest)) (hlt : p + 1 + w.length < maxPath)
    (hend : src.get (p + 1 + w.length) = slash ∨ src.get (p + 1 + w.length) = 0) :
    copyWord src p = slash :: w ++ if src.get (p + 1 + w.length) = 0 then [0] else [] := by
  have hdrop : src.bytes.drop (p + 1) = w ++ rest := drop_succ_of_drop_eq h
  have hbytes : (List.range' p (slash :: w).length).map src.get = slash :: w := map_get_range' h
  obtain ⟨n, hn⟩ : ∃ n, maxPath - (p + 1) = n + 1 + w.length := ⟨maxPath - (p + 1) - 1 - w.length, by omega⟩
  have hlen : (slash :: w).length = w.length + 1 := rfl
  rw [copyWord, hn, wordEnd_word hw hdrop, wordEnd]
  rcases hend with hslash | hzero
  · have hne : ¬slash = 0 := by decide
    have hcount : p + 1 + w.length - p = (slash :: w).length := by omega
    rw [hslash, if_pos rfl, if_neg hne, hcount, hbytes, append_nil]
  have hne : ¬(0 : UInt8) = slash := by decide
  have hcount : p + 1 + w.length + 1 - p = (slash :: w).length + 1 := by omega
  have hlast : p + (slash :: w).length = p + 1 + w.length := by omega
  rw [hzero, if_neg hne, if_pos rfl, if_pos rfl, hcount, range'_concat, map_append, hbytes, Nat.one_mul,
    hlast, map_singleton, hzero]

theorem flatMap_copyWord {l : List (ℕ × List UInt8)} (h : ∀ e ∈ l, ClosedWord src e) :
    (l.map Prod.fst).flatMap (copyWord src) = joinWords (l.map Prod.snd) := by
  induction l with
  | nil => rfl
  | cons e l ih =>
    obtain ⟨⟨hw, hlt, rest, hrest⟩, hl⟩ := forall_mem_cons.1 h
    have hend := CString.get_of_drop (drop_add_of_drop_eq (drop_succ_of_drop_eq hrest))
    have hne : ¬slash = 0 := by decide
    rw [map_cons, map_cons, flatMap_cons, ih hl, copyWord_eq hw hrest hlt (.inl hend), hend, if_neg hne, append_nil]
    rfl

theorem closeWords_closed (hws : ∀ v ∈ ws, IsWord v) (h : src.bytes.drop p = joinWords ws ++ slash :: rest)
    (hlt : p + (joinWords ws).length < maxPath) (hs : ∀ e ∈ stack, ClosedWord src e) :
    ∀ e ∈ closeWords p ws stack, ClosedWord src e := by
  induction ws generalizing p stack with
  | nil => exact hs
  | cons w ws ih =>
    obtain ⟨hw, hws⟩ := forall_mem_cons.1 hws
    rw [joinWords_cons, cons_append, append_assoc] at h
    rw [joinWords_cons, length_cons, length_append] at hlt
    refine ih hws (drop_add_of_drop_eq (drop_succ_of_drop_eq h)) (by omega) fun e he => ?_
    obtain ⟨l, hl, heq | heq⟩ := pushWord_cases false stack p w <;> rw [heq] at he
    · exact hs e (hl.subset he)
    rcases mem_append.1 he with he | he
    · exact hs e (hl.subset he)
    rw [mem_singleton.1 he]
    have hfits : p + 1 + w.length < maxPath := by omega
    refine ⟨hw.1, hfits, ?_⟩
    cases ws with
    | nil => exact ⟨_, h⟩
    | cons v ws => exact ⟨_, h⟩

theorem canonicalizePathName_of_scan (stack : List (ℕ × List UInt8))
    (hscan : scanWords src maxPath 0 ⟨none, []⟩ = some s) (hstack : s.indexStack = stack.map Prod.fst) :
    canonicalizePathName src = some ((stack.map Prod.fst).flatMap (copyWord src) ++ [0]) := by
  rw [canonicalizePathName, hscan, Option.map_some, hstack]

theorem canonicalizePathName_no_slash (h : src.bytes.take maxPath = w) (hw : IsWord w) :
    canonicalizePathName src = some [0] := by
  have hle : w.length ≤ maxPath := by rw [← h]; exact length_take_le _ _
  have hsplit : src.bytes.drop 0 = w ++ src.bytes.drop maxPath := by
    rw [← h]
    exact (take_append_drop _ _).symm
  obtain ⟨n, hn⟩ : ∃ n, maxPath = n + w.length := ⟨maxPath - w.length, by omega⟩
  have hword := scanWords_word (n := n) (s := ⟨none, []⟩) hw hsplit
  rw [← hn, Nat.zero_add] at hword
  refine canonicalizePathName_of_scan [] (s := ⟨none, []⟩) (hword.trans ?_) rfl
  cases n with
  | zero => rfl
  | succ n =>
    have hend : src.get w.length = 0 := CString.get_eq_zero (by
      have hlen := congrArg List.length h
      rw [length_take] at hlen
      omega)
    rw [scanWords, hend]
    rfl

section
variable (hw : IsWord w) (hws : ∀ u ∈ ws ++ [v], IsWord u)
include hw hws

/-- **A path of `MAX_PATH` bytes or more**: the last word is dropped. -/
theorem canonicalizePathName_full (h : src.bytes.take maxPath = w ++ joinWords (ws ++ [v]))
    (hlen : maxPath ≤ src.bytes.length) : canonicalizePathName src = some (joinWords (resolveWords ws) ++ [0]) := by
  obtain ⟨hws, hv⟩ := forall_mem_append.1 hws
  have hsplit : src.bytes = w ++ (joinWords ws ++ slash :: (v ++ src.bytes.drop maxPath)) := by
    have hall := take_append_drop maxPath src.bytes
    rw [h, joinWords_concat] at hall
    rw [← cons_append, ← append_assoc (joinWords ws), ← append_assoc, hall]
  have hdrop : src.bytes.drop w.length = joinWords ws ++ slash :: (v ++ src.bytes.drop maxPath) := by
    conv_lhs => rw [hsplit, drop_left]
  have hsize : (w ++ joinWords (ws ++ [v])).length = maxPath := by
    rw [← h, length_take]
    omega
  have hlt : w.length + (joinWords ws).length < maxPath := by
    rw [← hsize, joinWords_concat, length_append, length_append, length_cons]
    omega
  have hscan := scanWords_words (n := 0) hsplit hw hws (hv v (mem_singleton_self v))
  rw [hsize, Nat.zero_add, scanWords] at hscan
  rw [canonicalizePathName_of_scan _ hscan rfl,
    flatMap_copyWord (closeWords_closed hws hdrop hlt fun e he => absurd he not_mem_nil), map_snd_closeWords]
  rfl

/-- **A shorter path**: what is left of its words is stored, with one NUL or two. -/
theorem canonicalizePathName_words (h : src.bytes = w ++ joinWords (ws ++ [v])) (hlen : src.bytes.length < maxPath) :
    ∃ z, canonicalizePathName src = some (joinWords (resolve (ws ++ [v])) ++ (z ++ [0])) ∧
      (z = [0] ∧ (joinWords (resolve (ws ++ [v]))).length ≤ (joinWords (ws ++ [v])).length ∨
        z = [] ∧ (joinWords (resolve (ws ++ [v]))).length < (joinWords (ws ++ [v])).length) := by
  obtain ⟨hws, hv⟩ := forall_mem_append.1 hws
  replace hv := hv v (mem_singleton_self v)
  have hsplit : src.bytes = w ++ (joinWords ws ++ slash :: (v ++ [])) := by
    rw [h, joinWords_concat, append_nil]
  have hdrop : src.bytes.drop w.length = joinWords ws ++ slash :: (v ++ []) := by rw [hsplit, drop_left]
  have hsize : src.bytes.length = w.length + (joinWords ws).length + 1 + v.length := by
    rw [h, joinWords_concat, length_append, length_append, length_cons]
    omega
  set q := w.length + (joinWords ws).length with hq
  set stack := closeWords w.length ws [] with hstack
  have hword := drop_add_of_drop_eq hdrop
  have hend : src.get (q + 1 + v.length) = 0 := CString.get_eq_zero hsize.le
  have hnames : stack.map Prod.snd = resolveWords ws := map_snd_closeWords ws w.length []
  have hresolve : (pushWord true stack q v).map Prod.snd = resolve (ws ++ [v]) := by
    rw [← resolveAt_concat, map_snd_resolveAt, resolve, map_snd_resolveAt]
  -- the NUL ends the last word
  have hscan : ∃ s, scanWords src maxPath 0 ⟨none, []⟩ = some s ∧
      s.indexStack = (pushWord true stack q v).map Prod.fst := by
    obtain ⟨n, hn⟩ : ∃ n, maxPath = n + 1 + src.bytes.length := ⟨maxPath - 1 - src.bytes.length, by omega⟩
    have hwords := scanWords_words (n := n + 1) hsplit hw hws hv
    obtain ⟨hpush, -⟩ := closeWord_eq (drop_succ_of_drop_eq hword) (iff_of_true hend rfl) stack (some q)
    have hblank : ¬(0 : UInt8) = blank := by decide
    have hbyte : ¬((0 : UInt8) ≠ slash ∧ (0 : UInt8) ≠ 0) := by decide
    refine ⟨_, ?_, hpush⟩
    rw [← h, ← hn, hsize, scanWords, hend, if_neg hblank, if_neg hbyte] at hwords
    exact hwords.trans (if_pos rfl)
  obtain ⟨s, hscan, hindex⟩ := hscan
  rw [canonicalizePathName_of_scan _ hscan hindex, ← hresolve]
  have hclosed := closeWords_closed hws hdrop (by omega) fun e he => absurd he not_mem_nil
  have hjoin : (joinWords (ws ++ [v])).length = (joinWords ws).length + (v.length + 1) := by
    rw [joinWords_concat, length_append, length_cons]
  have hle := (length_resolveWords ws).1
  obtain ⟨l, ⟨r, hr⟩, heq⟩ := pushWord_cases true stack q v
  have hcopy :=
    flatMap_copyWord fun e he => hclosed e ((show l ++ r = closeWords w.length ws [] from hr) ▸ (mem_append_left r he))
  rw [← hnames, ← hr, map_append, joinWords_append, length_append] at hle
  rcases heq with heq | heq <;> rw [heq]
  · exact ⟨[], by rw [hcopy]; rfl, .inr ⟨rfl, by omega⟩⟩
  refine ⟨[0], ?_, .inl ⟨rfl, ?_⟩⟩
  · rw [map_append, map_append, flatMap_append, hcopy, joinWords_append, append_assoc,
      append_assoc, map_singleton, map_singleton, flatMap_singleton,
      copyWord_eq hv.1 hword (by omega) (.inr hend), if_pos hend, joinWords_cons]
    simp [joinWords]
  · rw [map_append, map_singleton, joinWords_concat, length_append, length_cons]
    change _ + (v.length + 1) ≤ _
    omega

end

end

/-! ## What is stored -/

/-- The words that `canonicalize_path_name` sees the end of. -/
def seenWords (bs : List UInt8) : List (List UInt8) :=
  if bs.length < maxPath then (bs.splitOn slash).tail else ((bs.take maxPath).splitOn slash).tail.dropLast

def storedName (bs : List UInt8) : List UInt8 :=
  if bs.length < maxPath ∧ bs.getLast? = some slash ∧ resolveWords (seenWords bs) = [] then [slash]
  else joinWords (resolveWords (seenWords bs))

variable {stored : List UInt8}

theorem splitOn_joinWords (hw : slash ∉ w) (hws : ∀ v ∈ ws, slash ∉ v) :
    (w ++ joinWords ws).splitOn slash = w :: ws := by
  induction ws generalizing w with
  | nil =>
    rw [joinWords, flatMap_nil, append_nil]
    exact splitOn_of_not_mem hw
  | cons v ws ih =>
    obtain ⟨hv, hws⟩ := forall_mem_cons.1 hws
    rw [joinWords_cons, splitOn_append_cons_self, ih hv hws, splitOn_of_not_mem hw]
    rfl

theorem exists_words (hblank : blank ∉ bs) : ∃ w ws, bs = w ++ joinWords ws ∧ IsWord w ∧ ∀ v ∈ ws, IsWord v := by
  obtain ⟨w, ws, rfl, hw, hws⟩ := exists_joinWords bs
  refine ⟨w, ws, rfl, ⟨hw, fun hb => hblank (mem_append_left _ hb)⟩, fun v hv => ⟨hws v hv, fun hb => ?_⟩⟩
  exact hblank (mem_append_right w (mem_joinWords.2 (.inr ⟨v, hv, hb⟩)))

theorem mem_splitOn (h : v ∈ bs.splitOn slash) : slash ∉ v ∧ ∀ b ∈ v, b ∈ bs := by
  obtain ⟨w, ws, rfl, hw, hws⟩ := exists_joinWords bs
  rw [splitOn_joinWords hw hws] at h
  rcases mem_cons.1 h with rfl | h
  · exact ⟨hw, fun b hb => mem_append_left _ hb⟩
  · exact ⟨hws v h, fun b hb => mem_append_right _ (mem_joinWords.2 (.inr ⟨v, h, hb⟩))⟩

theorem mem_seenWords (h : v ∈ seenWords bs) : slash ∉ v ∧ ∀ b ∈ v, b ∈ bs.take maxPath := by
  rw [seenWords] at h
  split_ifs at h with hlen
  · rw [take_of_length_le hlen.le]
    exact mem_splitOn (mem_of_mem_tail h)
  · exact mem_splitOn (mem_of_mem_tail (mem_of_mem_dropLast h))

theorem getLast?_joinWords (hv : slash ∉ v) : (w ++ joinWords (ws ++ [v])).getLast? = some slash ↔ v = [] := by
  rw [joinWords_concat, getLast?_append, getLast?_append]
  cases hlast : v.getLast? with
  | none =>
    obtain rfl := getLast?_eq_none_iff.1 hlast
    exact iff_of_true rfl rfl
  | some b =>
    have hb : b ∈ v := mem_of_getLast? hlast
    rw [getLast?_cons, hlast]
    refine iff_of_false (fun h => hv ?_) (ne_nil_of_mem hb)
    rw [← Option.some.inj h]
    exact hb

theorem storedName_words (hw : slash ∉ w) (hws : ∀ u ∈ ws ++ [v], slash ∉ u)
    (hlen : (w ++ joinWords (ws ++ [v])).length < maxPath) :
    storedName (w ++ joinWords (ws ++ [v])) = joinWords (resolve (ws ++ [v])) := by
  have hseen : seenWords (w ++ joinWords (ws ++ [v])) = ws ++ [v] := by
    rw [seenWords, if_pos hlen, splitOn_joinWords hw hws]
    rfl
  have hlast : resolveWords (ws ++ [v]) = addWord (resolveWords ws) v := foldl_concat ..
  have hroot : (v = [] ∧ resolveWords (ws ++ [v]) = []) ↔ v = [] ∧ resolveWords ws = [] := by
    refine and_congr_right fun hv => ?_
    rw [hlast, addWord, if_pos (.inl hv)]
  rw [storedName, hseen, resolve, map_snd_resolveAt]
  simp only [hlen, true_and, getLast?_joinWords (hws v (mem_append_right _ (mem_singleton_self v))), hroot]
  split_ifs
  · rfl
  · rfl

structure Stores (src : CString) (z : List UInt8) : Prop where
  eq_some : canonicalizePathName src = some (storedName src.bytes ++ (z ++ [0]))
  nul : z = [] ∨ z = [0]
  length_le : (storedName src.bytes ++ (z ++ [0])).length ≤ src.bytes.length + 2
  fits_iff : (storedName src.bytes ++ (z ++ [0])).length ≤ maxPath ↔
    ¬(src.bytes.length + 1 = maxPath ∧ storedName src.bytes = src.bytes)

theorem stores_no_slash (h : src.bytes.take maxPath = w) (hw : IsWord w) : Stores src [] := by
  have hsplit := splitOn_of_not_mem hw.1
  have hnone : seenWords src.bytes = [] := by
    rw [seenWords]
    split_ifs with hlen
    · rw [take_of_length_le hlen.le] at h
      rw [h, hsplit]
      rfl
    · rw [h, hsplit]
      rfl
  have hempty : storedName src.bytes = [] := by
    rw [storedName, hnone]
    refine if_neg fun hroot => hw.1 ?_
    rw [← h, take_of_length_le hroot.1.le]
    exact mem_of_getLast? hroot.2.1
  refine ⟨?_, .inl rfl, ?_, ?_⟩ <;> rw [hempty]
  · exact canonicalizePathName_no_slash h hw
  · exact Nat.le_add_left _ _
  refine iff_of_true (by decide) fun hsame => ?_
  rw [← hsame.2] at hsame
  exact absurd hsame.1 (by decide)

theorem stores_full (h : src.bytes.take maxPath = w ++ joinWords (ws ++ [v])) (hw : IsWord w)
    (hws : ∀ u ∈ ws ++ [v], IsWord u) (hlen : maxPath ≤ src.bytes.length) : Stores src [] := by
  have hname : storedName src.bytes = joinWords (resolveWords ws) := by
    rw [storedName, if_neg fun hroot => hroot.1.not_ge hlen, seenWords, if_neg hlen.not_gt, h,
      splitOn_joinWords hw.1 fun u hu => (hws u hu).1, tail_cons, dropLast_concat]
  have hbytes := congrArg List.length h
  rw [length_take, length_append, joinWords_concat, length_append, length_cons] at hbytes
  have hle := (length_resolveWords ws).1
  have hstored : (storedName src.bytes ++ ([] ++ [0])).length = (joinWords (resolveWords ws)).length + 1 := by
    rw [hname, nil_append, length_append, length_singleton]
  refine ⟨?_, .inl rfl, by omega, iff_of_true (by omega) fun hsame => by omega⟩
  rw [hname]
  exact canonicalizePathName_full hw hws h hlen

theorem stores_words (h : src.bytes = w ++ joinWords (ws ++ [v])) (hw : IsWord w)
    (hws : ∀ u ∈ ws ++ [v], IsWord u) (hlen : src.bytes.length < maxPath) : ∃ z, Stores src z := by
  have hmax : maxPath = 256 := rfl
  have hname : storedName src.bytes = joinWords (resolve (ws ++ [v])) := by
    rw [h] at hlen ⊢
    exact storedName_words hw.1 (fun u hu => (hws u hu).1) hlen
  have hbytes := congrArg List.length h
  rw [length_append] at hbytes
  obtain ⟨z, hcanon, hz⟩ := canonicalizePathName_words hw hws h hlen
  rw [← hname] at hcanon hz
  have hsize : (storedName src.bytes ++ (z ++ [0])).length = (storedName src.bytes).length + z.length + 1 := by
    rw [length_append, length_append, length_singleton, Nat.add_assoc]
  -- as long as the path: nothing was dropped
  have hself : (storedName src.bytes).length = src.bytes.length → 1 < src.bytes.length →
      storedName src.bytes = src.bytes := fun heq hlong => by
    have hnil : w.length = 0 := by rcases hz with ⟨-, hle⟩ | ⟨-, hlt⟩ <;> omega
    obtain rfl := eq_nil_of_length_eq_zero hnil
    rw [hname, resolve, map_snd_resolveAt] at heq ⊢
    split_ifs at heq ⊢
    · exact absurd heq (ne_of_lt hlong)
    rw [(length_resolveWords (ws ++ [v])).2 (by omega)]
    exact h.symm
  rcases hz with ⟨rfl, hle⟩ | ⟨rfl, hlt⟩
  · rw [length_singleton] at hsize
    refine ⟨[0], hcanon, .inr rfl, by omega, fun hfits hsame => ?_, fun hne => ?_⟩
    · have := congrArg List.length hsame.2
      omega
    by_contra hover
    exact hne ⟨by omega, hself (by omega) (by omega)⟩
  · rw [length_nil] at hsize
    refine ⟨[], hcanon, .inl rfl, by omega, iff_of_true (by omega) fun hsame => ?_⟩
    have := congrArg List.length hsame.2
    omega

theorem canonicalizePathName_stored (hblank : blank ∉ src.bytes.take maxPath) : ∃ z, Stores src z := by
  obtain ⟨w, ws, hsplit, hword, hwords⟩ := exists_words hblank
  rcases eq_nil_or_concat ws with rfl | ⟨us, v, rfl⟩
  · exact ⟨[], stores_no_slash (hsplit.trans (append_nil w)) hword⟩
  rw [concat_eq_append] at hsplit hwords
  by_cases hlen : src.bytes.length < maxPath
  · rw [take_of_length_le hlen.le] at hsplit
    exact stores_words hsplit hword hwords hlen
  · exact ⟨[], stores_full hsplit hword hwords (Nat.le_of_not_lt hlen)⟩

/-- **A path is refused exactly for a blank among its first `MAX_PATH` bytes.** -/
theorem canonicalizePathName_eq_none : canonicalizePathName src = none ↔ blank ∈ src.bytes.take maxPath := by
  refine ⟨fun hnone => ?_, fun hblank => ?_⟩
  · by_contra hblank
    obtain ⟨z, hz⟩ := canonicalizePathName_stored hblank
    rw [hz.eq_some] at hnone
    cases hnone
  -- the scan up to the first blank
  obtain ⟨before, rest, hsplit, hbefore⟩ := eq_append_cons_of_mem hblank
  obtain ⟨w, ws, rfl, hword, hwords⟩ := exists_words hbefore
  have hbytes : src.bytes = w ++ joinWords ws ++ blank :: (rest ++ src.bytes.drop maxPath) := by
    rw [← cons_append, ← append_assoc, ← hsplit, take_append_drop]
  have hlen : (w ++ joinWords ws).length < maxPath := by
    have hsize := congrArg List.length hsplit
    rw [length_take, length_append, length_cons] at hsize
    omega
  have hget := CString.get_of_drop (by rw [hbytes, drop_left])
  obtain ⟨n, hn⟩ : ∃ n, maxPath = n + 1 + (w ++ joinWords ws).length :=
    ⟨maxPath - 1 - (w ++ joinWords ws).length, by omega⟩
  have hstop : ∀ s, scanWords src (n + 1) (w ++ joinWords ws).length s = none := fun s => by
    rw [scanWords, hget]
    exact if_pos rfl
  rw [canonicalizePathName, Option.map_eq_none_iff, hn]
  rcases eq_nil_or_concat ws with rfl | ⟨us, v, rfl⟩
  · have hnil : w ++ joinWords [] = w := append_nil w
    rw [hnil] at hbytes hstop ⊢
    have hskip := scanWords_word (n := n + 1) (i := 0) (s := ⟨none, []⟩) hword hbytes
    rw [hskip, Nat.zero_add, hstop]
  rw [concat_eq_append] at *
  obtain ⟨hus, hv⟩ := forall_mem_append.1 hwords
  rw [joinWords_concat, append_assoc, append_assoc, cons_append] at hbytes
  rw [scanWords_words hbytes hword hus (hv v (mem_singleton_self v)), hstop]

theorem canonicalizePathName_blank (hblank : blank ∈ src.bytes) (hlen : src.bytes.length < maxPath) :
    canonicalizePathName src = none := by
  rw [canonicalizePathName_eq_none, take_of_length_le hlen.le]
  exact hblank

theorem exists_stores (h : canonicalizePathName src = some stored) :
    ∃ z, Stores src z ∧ stored = storedName src.bytes ++ (z ++ [0]) := by
  have hblank : blank ∉ src.bytes.take maxPath := fun hb => by
    rw [canonicalizePathName_eq_none.2 hb] at h
    cases h
  obtain ⟨z, hz⟩ := canonicalizePathName_stored hblank
  exact ⟨z, hz, Option.some.inj (h.symm.trans hz.eq_some)⟩

theorem length_stored_le (h : canonicalizePathName src = some stored) : stored.length ≤ src.bytes.length + 2 := by
  obtain ⟨z, hz, rfl⟩ := exists_stores h
  exact hz.length_le

theorem mem_stored (h : canonicalizePathName src = some stored) (hb : b ∈ stored) : b = 0 ∨ b ∈ src.bytes := by
  obtain ⟨s, -, rfl⟩ := Option.map_eq_some_iff.1 h
  rcases mem_append.1 hb with hb | hb
  · obtain ⟨w, -, hb⟩ := mem_flatMap.1 hb
    obtain ⟨i, -, rfl⟩ := mem_map.1 hb
    rw [CString.get, getD_eq_getElem?_getD]
    cases hi : src.bytes[i]? with
    | none => exact .inl rfl
    | some b => exact .inr (mem_of_getElem? hi)
  · exact .inl (mem_singleton.1 hb)

/-! ## Canonical names -/

structure IsName (c : CString) : Prop where
  word : IsWord c.bytes
  ne_empty : c.bytes ≠ []
  ne_dot : c.bytes ≠ [dot]
  ne_dots : c.bytes ≠ [dot, dot]

def pathBytes : List CString → List UInt8
  | [] => [slash]
  | names => joinWords (names.map CString.bytes)

theorem exists_pathBytes (names : List CString) (h : ∀ c ∈ names, IsName c) :
    ∃ ws, ws ≠ [] ∧ pathBytes names = joinWords ws ∧ (∀ v ∈ ws, IsWord v) ∧
      resolveWords ws = names.map CString.bytes := by
  cases names with
  | nil => exact ⟨[[]], cons_ne_nil _ _, rfl, by simp [IsWord], rfl⟩
  | cons c names =>
    refine ⟨(c :: names).map CString.bytes, cons_ne_nil _ _, rfl, fun v hv => ?_,
      foldl_addWord_names (fun v hv => ?_) []⟩
    · obtain ⟨d, hd, rfl⟩ := mem_map.1 hv
      exact (h d hd).word
    obtain ⟨d, hd, rfl⟩ := mem_map.1 hv
    exact ⟨(h d hd).ne_empty, (h d hd).ne_dot, (h d hd).ne_dots⟩

structure Canonical (c : CString) (names : List CString) : Prop where
  isName : ∀ n ∈ names, IsName n
  bytes : c.bytes = pathBytes names ∨ names = [] ∧ c.bytes = []

section
variable {c : CString} {names : List CString}

theorem map_bytes_ofBytes (h : ∀ w ∈ ws, 0 ∉ w) : (ws.map CString.ofBytes).map CString.bytes = ws := by
  rw [map_map]
  exact (map_congr_left fun w hw => CString.ofBytes_of_nul_free (h w hw)).trans (map_id ws)

theorem map_ofBytes_bytes (names : List CString) : (names.map CString.bytes).map CString.ofBytes = names := by
  rw [map_map]
  exact (map_congr_left fun c _ => CString.ofBytes_bytes c).trans (map_id names)

/-- **What `canonicalize_path_name` stores is the canonical name with the components that are left.** -/
theorem canonicalizePathName_canonical (h : canonicalizePathName src = some stored) :
    (CString.ofBytes stored).bytes = storedName src.bytes ∧
      Canonical (.ofBytes stored) ((resolveWords (seenWords src.bytes)).map CString.ofBytes) := by
  have hblank : blank ∉ src.bytes.take maxPath := fun hb => by
    rw [canonicalizePathName_eq_none.2 hb] at h
    cases h
  obtain ⟨z, hz, rfl⟩ := exists_stores h
  have hmem : ∀ v ∈ resolveWords (seenWords src.bytes), IsWord v ∧ 0 ∉ v ∧ v ≠ [] ∧ v ≠ [dot] ∧ v ≠ [dot, dot] :=
    fun v hv => by
      obtain ⟨hv, hname⟩ := mem_resolveWords hv
      obtain ⟨hslash, hbytes⟩ := mem_seenWords hv
      exact ⟨⟨hslash, fun hb => hblank (hbytes _ hb)⟩, fun h0 => src.nul_free (mem_of_mem_take (hbytes _ h0)), hname⟩
  have hnul : 0 ∉ storedName src.bytes := by
    rw [storedName]
    split_ifs
    · decide
    intro h0
    rcases mem_joinWords.1 h0 with hslash | ⟨v, hv, h0⟩
    · exact absurd hslash.2 (by decide)
    · exact (hmem v hv).2.1 h0
  have hbytes : (CString.ofBytes (storedName src.bytes ++ (z ++ [0]))).bytes = storedName src.bytes := by
    rcases hz.nul with rfl | rfl
    · exact CString.ofBytes_append_nul hnul []
    · exact CString.ofBytes_append_nul hnul [0]
  have hnames := map_bytes_ofBytes fun v hv => (hmem v hv).2.1
  refine ⟨hbytes, fun n hn => ?_, ?_⟩
  · obtain ⟨v, hv, rfl⟩ := mem_map.1 hn
    obtain ⟨hword, hv0, h1, h2, h3⟩ := hmem v hv
    constructor <;> rw [CString.ofBytes_of_nul_free hv0] <;> assumption
  rw [hbytes, storedName]
  generalize resolveWords (seenWords src.bytes) = ws at hnames ⊢
  cases ws with
  | nil =>
    split_ifs
    · exact .inl rfl
    · exact .inr ⟨rfl, rfl⟩
  | cons w ws =>
    rw [if_neg fun hroot => cons_ne_nil w ws hroot.2.2]
    exact .inl (congrArg joinWords hnames.symm)

theorem Canonical.splitPath_eq (h : Canonical c names) : splitPath c = .ok names := by
  rcases h.bytes with hbytes | ⟨rfl, hbytes⟩
  · cases names with
    | nil =>
      have hjoin : c.bytes = joinWords [[]] := hbytes
      exact splitPath_join hjoin (by simp)
    | cons n names =>
      have hjoin := hbytes
      have hsplit := splitPath_join hjoin fun v hv => by
        obtain ⟨d, hd, rfl⟩ := mem_map.1 hv
        exact (h.isName d hd).word.1
      rw [hsplit, filter_eq_self.2 fun v hv => ?_, map_ofBytes_bytes]
      obtain ⟨d, hd, rfl⟩ := mem_map.1 hv
      exact decide_eq_true (h.isName d hd).ne_empty
  · have hjoin : c.bytes = joinWords [] := hbytes
    exact splitPath_join hjoin fun v hv => absurd hv not_mem_nil

theorem components_pathBytes (h : src.bytes = pathBytes names) (hnames : ∀ c ∈ names, IsName c)
    (hlen : src.bytes.length + 2 ≤ maxPath) : components src = .ok names := by
  have hshort : src.bytes.length < maxPath := by omega
  obtain ⟨ws, hne, hjoin, hws, hresolve⟩ := exists_pathBytes names hnames
  have hseen : seenWords src.bytes = ws := by
    rw [seenWords, if_pos hshort, h, hjoin, ← nil_append (joinWords ws),
      splitOn_joinWords not_mem_nil fun v hv => (hws v hv).1]
    rfl
  have hblank : ¬blank ∈ src.bytes.take maxPath := by
    rw [take_of_length_le hshort.le, h, hjoin, mem_joinWords]
    rintro (hslash | ⟨v, hv, hb⟩)
    · exact absurd hslash.2 (by decide)
    · exact (hws v hv).2 hb
  obtain ⟨stored, hcanon⟩ := Option.ne_none_iff_exists'.1 (mt canonicalizePathName_eq_none.1 hblank)
  have hfits : stored.length ≤ maxPath := (length_stored_le hcanon).trans hlen
  have hname := (canonicalizePathName_canonical hcanon).2
  rw [hseen, hresolve, map_ofBytes_bytes] at hname
  rw [components, hcanon, Option.getD_some, FsFault.unless_of hfits]
  exact hname.splitPath_eq

end

theorem nul_not_mem_pathBytes (names : List CString) : 0 ∉ pathBytes names := by
  cases names with
  | nil => decide
  | cons c cs =>
    intro h
    obtain ⟨w, hw, hmem⟩ := mem_flatMap.1 h
    obtain ⟨d, -, rfl⟩ := mem_map.1 hw
    rcases mem_cons.1 hmem with hslash | hd
    · exact absurd hslash (by decide)
    · exact d.nul_free hd

structure CanonicalPath where
  path : CString
  names : List CString
  bytes_eq : path.bytes = pathBytes names
  isName : ∀ c ∈ names, IsName c

namespace CanonicalPath

variable {p : CanonicalPath}

/-- It fits in `c_name` with the two NULs behind it. -/
def Fits (p : CanonicalPath) : Prop := p.path.bytes.length + 2 ≤ maxPath

instance (p : CanonicalPath) : Decidable p.Fits := inferInstanceAs (Decidable (_ ≤ maxPath))

theorem Fits.components_eq (h : p.Fits) : components p.path = .ok p.names :=
  components_pathBytes p.bytes_eq p.isName h

theorem Fits.names_fit (h : p.Fits) : ∀ c ∈ p.names, c ≠ .empty ∧ c.bytes.length ≤ maxPath := by
  rcases components_cases p.path with herr | ⟨names, hnames, hfit⟩
  · rw [h.components_eq] at herr
    cases herr
  rw [h.components_eq] at hnames
  cases hnames
  exact hfit

def ofNames (names : List CString) (h : ∀ c ∈ names, IsName c) : CanonicalPath where
  path := ⟨pathBytes names, nul_not_mem_pathBytes names⟩
  names := names
  bytes_eq := rfl
  isName := h

theorem empty_not_mem (p : CanonicalPath) : CString.empty ∉ p.names := fun hc => (p.isName _ hc).ne_empty rfl

end CanonicalPath

end ZeldaOS
