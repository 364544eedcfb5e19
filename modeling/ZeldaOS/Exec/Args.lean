import ZeldaOS.Elf.Image
import ZeldaOS.Exec.Stack

/-!
# Arguments across `execve`

The line that `call_sys_execve` composes, taken apart again by `resolve_commands`.

* `tokensOf_commandLine`: the words of the line, when each string of the environment is a variable.
* `words_account`: a line is its words without their quotes, the blanks outside of quotes, and its apostrophes.
* **`execve_round_trip_iff`**: which arguments the new program gets back.
-/

namespace ZeldaOS

open Machine List

/-- The stack top that `load_static_elf32` gives to `resolve_commands`. -/
def pl3StackTop : ℕ := userspaceStackTop - 0x10

def QuoteFree (s : List UInt8) : Prop := ∀ b ∈ s, ¬(b = quoteByte ∨ b = apostrophe)

instance decidableQuoteFree : DecidablePred QuoteFree := fun s =>
  List.decidableBAll (fun b => ¬(b = quoteByte ∨ b = apostrophe)) s

theorem notMem_composeCommandLine {argv envp : List CString} {c : UInt8} (h1 : c ≠ apostrophe) (h2 : c ≠ blank)
    (h3 : c ≠ equalsSign) (hargs : ∀ a ∈ argv, c ∉ a.bytes) (henv : ∀ e ∈ envp, c ∉ e.bytes) :
    c ∉ composeCommandLine argv envp := by
  simp only [composeCommandLine, mem_append, mem_flatMap, not_or, not_exists, not_and]
  refine ⟨fun e he hmem => ?_, fun a ha hmem => ?_⟩
  · simp only [composeEnv, mem_append, mem_flatMap, mem_cons, not_mem_nil, or_false, h1, h2, or_self] at hmem
    obtain ⟨b, hb, hmem⟩ := hmem
    split_ifs at hmem with heq
    · simp [h1, h3] at hmem
    rw [mem_singleton] at hmem
    exact henv e he (hmem ▸ hb)
  · simp only [composeArg, cons_append, mem_cons, mem_append, not_mem_nil, or_false, h1, h2, or_self, false_or] at hmem
    exact hargs a ha hmem

theorem composeCommandLine_nul_free (argv envp : List CString) : 0 ∉ composeCommandLine argv envp :=
  notMem_composeCommandLine (by decide) (by decide) (by decide) (fun a _ => a.nul_free) fun e _ => e.nul_free

def commandLine (argv envp : List CString) : CString :=
  ⟨composeCommandLine argv envp, composeCommandLine_nul_free argv envp⟩

/-- `NAME=value`, with no blank in the name and no second `=`. -/
structure Variable (e : CString) (name value : List UInt8) : Prop where
  bytes : e.bytes = name ++ equalsSign :: value
  name_blank : blank ∉ name
  name_equals : equalsSign ∉ name
  value_equals : equalsSign ∉ value

/-! ## The words of a composed line -/

variable {s : List UInt8}

theorem splitToken_apostrophed (hs : QuoteFree s) (rest : List UInt8) :
    splitToken false true (s ++ apostrophe :: rest) = some (s, rest) := by
  induction s with
  | nil => rfl
  | cons b s ih =>
    rw [QuoteFree, forall_mem_cons] at hs
    rw [cons_append, splitToken, ih hs.2, if_neg hs.1]
    split_ifs with h1 h2
    · cases h2.2
    · rfl
    · rfl

theorem splitToken_plain (hs : QuoteFree s) (hblank : blank ∉ s) (bs : List UInt8) :
    splitToken false false (s ++ bs) = (splitToken false false bs).map fun r => (s ++ r.1, r.2) := by
  induction s with
  | nil => simp
  | cons b s ih =>
    rw [QuoteFree, forall_mem_cons] at hs
    rw [mem_cons, not_or] at hblank
    rw [cons_append, splitToken, if_neg (Ne.symm hblank.1), if_neg hs.1, ih hs.2 hblank.2, Option.map_map]
    rfl

theorem splitToken_open (bs : List UInt8) : splitToken false false (apostrophe :: bs) =
      (splitToken false true bs).map fun r => (apostrophe :: r.1, r.2) := rfl

theorem splitToken_equals (bs : List UInt8) : splitToken false false (equalsSign :: bs) =
      (splitToken false false bs).map fun r => (equalsSign :: r.1, r.2) := rfl

structure IsChunk (chunk token : List UInt8) : Prop where
  head : ∃ b bs, chunk = b :: bs ∧ b ≠ blank
  split : ∀ rest, splitToken false false (chunk ++ rest) = some (token, blank :: rest)
  length : 3 ≤ chunk.length

variable {a : CString}

theorem composeArg_isChunk (ha : QuoteFree a.bytes) : IsChunk (composeArg a) (apostrophe :: a.bytes) where
  head := ⟨apostrophe, _, rfl, by decide⟩
  split rest := by
    have hsplit := splitToken_apostrophed ha (blank :: rest)
    rw [composeArg, cons_append, cons_append, splitToken_open, append_assoc]
    change Option.map _ (splitToken false true (a.bytes ++ apostrophe :: blank :: rest)) = _
    rw [hsplit]
    rfl
  length := by simp [composeArg]

variable {e : CString} {name value : List UInt8}

theorem composeEnv_eq (hbytes : e.bytes = name ++ equalsSign :: value) (hname : equalsSign ∉ name)
    (hvalue : equalsSign ∉ value) :
    composeEnv e = name ++ equalsSign :: apostrophe :: value ++ [apostrophe, blank] := by
  have hid : ∀ s : List UInt8, equalsSign ∉ s →
      s.flatMap (fun b => if b = equalsSign then [equalsSign, apostrophe] else [b]) = s := by
    intro s hs
    induction s with
    | nil => rfl
    | cons b s ih =>
      rw [mem_cons, not_or] at hs
      rw [flatMap_cons, if_neg (Ne.symm hs.1), ih hs.2]
      rfl
  rw [composeEnv, hbytes, flatMap_append, flatMap_cons, hid name hname, hid value hvalue, if_pos rfl]
  rfl

theorem composeEnv_isChunk (h : Variable e name value) (hq : QuoteFree e.bytes) :
    IsChunk (composeEnv e) (name ++ equalsSign :: apostrophe :: value) where
  head := by
    rw [composeEnv_eq h.bytes h.name_equals h.value_equals]
    cases name with
    | nil => exact ⟨equalsSign, _, rfl, by decide⟩
    | cons b name => exact ⟨b, _, rfl, fun hb => h.name_blank (hb ▸ mem_cons_self ..)⟩
  split rest := by
    rw [h.bytes] at hq
    have hname : QuoteFree name := fun b hb => hq b (mem_append_left _ hb)
    have hvalue : QuoteFree value := fun b hb => hq b (mem_append_right _ (mem_cons_of_mem _ hb))
    have hsplit := splitToken_apostrophed hvalue (blank :: rest)
    rw [composeEnv_eq h.bytes h.name_equals h.value_equals, append_assoc, append_assoc,
      splitToken_plain hname h.name_blank]
    change Option.map _ (splitToken false false
      (equalsSign :: apostrophe :: (value ++ apostrophe :: blank :: rest))) = _
    rw [splitToken_equals, splitToken_open, hsplit]
    rfl
  length := by
    rw [composeEnv_eq h.bytes h.name_equals h.value_equals]
    simp only [length_append, length_cons, length_nil]
    omega

variable {cts : List (List UInt8 × List UInt8)}

theorem locateTokens_chunks (h : ∀ ct ∈ cts, IsChunk ct.1 ct.2) {lead : List UInt8} (hlead : lead = [] ∨ lead = [blank])
    {n : ℕ} (hn : cts.length < n) (p : ℕ) :
    (locateTokens n p (lead ++ cts.flatMap Prod.fst)).map (List.map Prod.snd) = some (cts.map Prod.snd) := by
  induction cts generalizing lead n p with
  | nil =>
    obtain ⟨n, rfl⟩ : ∃ k, n = k + 1 := ⟨n - 1, by omega⟩
    rcases hlead with rfl | rfl <;> rfl
  | cons ct cts ih =>
    obtain ⟨n, rfl⟩ : ∃ k, n = k + 1 := ⟨n - 1, by omega⟩
    rw [forall_mem_cons] at h
    obtain ⟨b, bs, hb, hne⟩ := h.1.head
    have hdrop : (lead ++ (ct :: cts).flatMap Prod.fst).dropWhile (· = blank) = b :: (bs ++ cts.flatMap Prod.fst) := by
      rw [flatMap_cons, hb]
      rcases hlead with rfl | rfl <;> simp [hne]
    have hsplit := h.1.split (cts.flatMap Prod.fst)
    rw [hb, cons_append] at hsplit
    rw [locateTokens, hdrop]
    dsimp only
    rw [hsplit, Option.bind_some, Option.map_map]
    have hrest := ih h.2 (Or.inr rfl : [blank] = [] ∨ [blank] = [blank]) (by simp at hn; omega)
      (p + ((lead ++ (ct :: cts).flatMap Prod.fst).takeWhile (· = blank)).length + ct.2.length + 1)
    rw [singleton_append] at hrest
    have hswap : ∀ start : ℕ, List.map Prod.snd ∘ ((start, ct.2) :: ·) = (ct.2 :: ·) ∘ List.map Prod.snd :=
      fun _ => rfl
    rw [hswap, ← Option.map_map, hrest]
    rfl

theorem length_le_flatMap (h : ∀ ct ∈ cts, IsChunk ct.1 ct.2) : 3 * cts.length ≤ (cts.flatMap Prod.fst).length := by
  induction cts with
  | nil => simp
  | cons ct cts ih =>
    rw [forall_mem_cons] at h
    have h1 := h.1.length
    have h2 := ih h.2
    rw [flatMap_cons, length_append, length_cons]
    omega

section
variable {argv envp : List CString}

def splitVariable (e : CString) : List UInt8 × List UInt8 :=
  (e.bytes.takeWhile (· ≠ equalsSign), (e.bytes.dropWhile (· ≠ equalsSign)).tail)

def envToken (e : CString) : List UInt8 :=
  (splitVariable e).1 ++ equalsSign :: apostrophe :: (splitVariable e).2

/-- A variable survives when its name has no blank and it has exactly one `=`. -/
def IsVariable (e : CString) : Prop := Variable e (splitVariable e).1 (splitVariable e).2

theorem tokensOf_commandLine (hargs : ∀ a ∈ argv, QuoteFree a.bytes)
    (henv : ∀ e ∈ envp, QuoteFree e.bytes ∧ IsVariable e) : tokensOf (commandLine argv envp).bytes =
        some (envp.map envToken ++ argv.map fun a => apostrophe :: a.bytes) ∧
      3 * (envp.length + argv.length) ≤ (commandLine argv envp).bytes.length := by
  set cts := envp.map (fun e => (composeEnv e, envToken e)) ++
    argv.map fun a => (composeArg a, apostrophe :: a.bytes) with hcts
  have hchunks : ∀ ct ∈ cts, IsChunk ct.1 ct.2 := by
    rw [hcts, forall_mem_append, forall_mem_map, forall_mem_map]
    exact ⟨fun e he => composeEnv_isChunk (henv e he).2 (henv e he).1, fun a ha => composeArg_isChunk (hargs a ha)⟩
  have hline : (commandLine argv envp).bytes = cts.flatMap Prod.fst := by
    rw [hcts, flatMap_append, flatMap_map, flatMap_map]
    rfl
  have hlen := length_le_flatMap hchunks
  have hsize : cts.length = envp.length + argv.length := by simp [hcts]
  refine ⟨?_, by rw [hline, ← hsize]; exact hlen⟩
  have htokens := locateTokens_chunks hchunks (.inl rfl) (n := (cts.flatMap Prod.fst).length + 1) (by omega) 0
  rw [nil_append] at htokens
  rw [tokensOf, hline, htokens, hcts, map_append, map_map, map_map]
  rfl

theorem unquote_eq_self (hs : QuoteFree s) : unquote s = s := by
  refine filter_eq_self.2 fun b hb => ?_
  have := hs b hb
  simp only [not_or] at this
  simp [this]

theorem unquote_envToken (he : IsVariable e) (hq : QuoteFree e.bytes) : unquote (envToken e) = e.bytes := by
  have hb := he.bytes
  rw [hb] at hq
  have hname : QuoteFree (splitVariable e).1 := fun b hb => hq b (mem_append_left _ hb)
  have hvalue : QuoteFree (splitVariable e).2 := fun b hb =>
    hq b (mem_append_right _ (mem_cons_of_mem _ hb))
  rw [envToken, unquote, filter_append, ← unquote, ← unquote, unquote_eq_self hname, unquote_cons,
    if_neg (by decide), unquote_cons, if_pos (.inr rfl), unquote_eq_self hvalue, ← hb]

theorem programIndex_commandLine (envp : List CString) (ha : equalsSign ∉ a.bytes) (args : List CString) :
    programIndex (envp.map envToken ++ (a :: args).map fun a => apostrophe :: a.bytes) = envp.length := by
  have hne : equalsSign ≠ apostrophe := by decide
  rw [programIndex]
  induction envp with
  | nil =>
    rw [map_nil, nil_append, map_cons, findIdx_cons]
    simp [ha, hne]
  | cons e envp ih =>
    rw [map_cons, cons_append, findIdx_cons, ih]
    simp [envToken]

end

/-! ## What tokenising drops -/

/-- The blanks outside of apostrophes; `quoted` says whether one is open. -/
def looseBlanks : (quoted : Bool) → List UInt8 → ℕ
  | _, [] => 0
  | quoted, b :: bs =>
    if b = blank ∧ quoted = false then looseBlanks false bs + 1 else looseBlanks (quoted ^^ decide (b = apostrophe)) bs

section
variable {bs token rest : List UInt8} {quoted : Bool}

theorem looseBlanks_append (quoted : Bool) (hs : apostrophe ∉ s) (rest : List UInt8) :
    looseBlanks quoted (s ++ rest) = (if quoted then 0 else s.count blank) + looseBlanks quoted rest := by
  induction s with
  | nil => simp
  | cons b s ih =>
    rw [mem_cons, not_or] at hs
    rw [cons_append, looseBlanks, decide_eq_false (Ne.symm hs.1), Bool.xor_false, count_cons]
    cases quoted with
    | true => simpa using ih hs.2
    | false =>
      have := ih hs.2
      by_cases hb : b = blank
      · simp_all
        omega
      · simp_all

/-- What ends a word is a blank outside of apostrophes, or the second of two apostrophes. -/
theorem splitToken_account (hq : quoteByte ∉ bs) (h : splitToken false quoted bs = some (token, rest)) :
    looseBlanks quoted bs + bs.count apostrophe =
        token.count apostrophe + 1 + (looseBlanks false rest + rest.count apostrophe) ∧
      bs.count apostrophe ≤ rest.count apostrophe + if quoted then 1 else 2 := by
  induction bs generalizing quoted token with
  | nil => cases h
  | cons b bs ih =>
    rw [mem_cons, not_or] at hq
    rw [splitToken] at h
    rw [looseBlanks]
    have hne : blank ≠ apostrophe := by decide
    by_cases hblank : b = blank
    · subst hblank
      rw [if_pos rfl] at h
      cases quoted with
      | false =>
        cases h
        simp [hne]
        omega
      | true =>
        obtain ⟨r, hr, heq⟩ := Option.map_eq_some_iff.1 h
        cases heq
        simpa [hne] using ih hq.2 hr
    rw [if_neg hblank] at h
    by_cases hap : b = apostrophe
    · subst hap
      rw [if_pos (.inr rfl)] at h
      cases quoted with
      | true =>
        cases h
        simp [hblank]
        omega
      | false =>
        obtain ⟨r, hr, heq⟩ := Option.map_eq_some_iff.1 h
        cases heq
        have := ih hq.2 hr
        simp [hblank] at this ⊢
        omega
    · rw [if_neg (not_or.2 ⟨Ne.symm hq.1, hap⟩)] at h
      obtain ⟨r, hr, heq⟩ := Option.map_eq_some_iff.1 h
      cases heq
      simpa [hblank, hap] using ih hq.2 hr

theorem splitToken_none (hq : quoteByte ∉ bs) (h : splitToken false quoted bs = none) :
    looseBlanks quoted bs = 0 ∧ bs.count apostrophe ≤ if quoted then 0 else 1 := by
  induction bs generalizing quoted with
  | nil => simp [looseBlanks]
  | cons b bs ih =>
    rw [mem_cons, not_or] at hq
    rw [splitToken] at h
    rw [looseBlanks]
    have hne : blank ≠ apostrophe := by decide
    by_cases hblank : b = blank
    · subst hblank
      cases quoted with
      | false => cases h
      | true => simpa [hne] using ih hq.2 (Option.map_eq_none_iff.1 h)
    rw [if_neg hblank] at h
    by_cases hap : b = apostrophe
    · subst hap
      cases quoted with
      | true => cases h
      | false =>
        have := ih hq.2 (Option.map_eq_none_iff.1 h)
        simp [hblank] at this ⊢
        omega
    · rw [if_neg (not_or.2 ⟨Ne.symm hq.1, hap⟩)] at h
      simpa [hblank, hap] using ih hq.2 (Option.map_eq_none_iff.1 h)

theorem length_unquote (hq : quoteByte ∉ bs) : (unquote bs).length + bs.count apostrophe = bs.length := by
  induction bs with
  | nil => rfl
  | cons b bs ih =>
    rw [mem_cons, not_or] at hq
    have := ih hq.2
    rw [unquote_cons]
    by_cases hap : b = apostrophe
    · simp [hap]
      omega
    · simp [hap, Ne.symm hq.1]
      omega

/-- A line is its words without their quotes, its loose blanks and its apostrophes; a word has at most two of these. -/
theorem words_account {n : ℕ} (hq : quoteByte ∉ bs) (hn : bs.length < n) :
    ((wordsOf n bs).map fun t => (unquote t).length).sum + looseBlanks false bs + bs.count apostrophe = bs.length ∧
      bs.count apostrophe ≤ 2 * (wordsOf n bs).length := by
  induction n generalizing bs with
  | zero => omega
  | succ n ih =>
    -- the blanks in front are all loose
    have hblanks : ∀ b ∈ bs.takeWhile (· = blank), b = blank := fun b hb => by simpa using mem_takeWhile_imp hb
    have hap : apostrophe ∉ bs.takeWhile (· = blank) := fun hc => absurd (hblanks _ hc) (by decide)
    have hloose := looseBlanks_append false hap (bs.dropWhile (· = blank))
    have hcount : (bs.takeWhile (· = blank) ++ bs.dropWhile (· = blank)).count apostrophe = _ := count_append
    have hlen := congrArg length (takeWhile_append_dropWhile (p := (· = blank)) (l := bs))
    have hdropQ : quoteByte ∉ bs.dropWhile (· = blank) := fun hc => hq ((dropWhile_sublist _).subset hc)
    rw [takeWhile_append_dropWhile] at hloose hcount
    rw [length_append] at hlen
    rw [count_eq_zero_of_not_mem hap, Nat.zero_add] at hcount
    have hall : (bs.takeWhile (· = blank)).count blank = (bs.takeWhile (· = blank)).length := by
      rw [count_eq_length]
      exact fun b hb => (hblanks b hb).symm
    rw [hall] at hloose
    rw [wordsOf]
    cases hdrop : bs.dropWhile (· = blank) with
    | nil =>
      rw [hdrop] at hloose hcount hlen
      simp [looseBlanks] at hloose hcount hlen ⊢
      omega
    | cons b rest =>
      rw [hdrop] at hloose hcount hlen hdropQ
      dsimp only
      cases hsplit : splitToken false false (b :: rest) with
      | none =>
        obtain ⟨h1, h2⟩ := splitToken_none hdropQ hsplit
        have h3 := length_unquote hdropQ
        simp at hloose h2 ⊢
        omega
      | some r =>
        obtain ⟨h1, h2⟩ := splitToken_account hdropQ hsplit
        obtain ⟨c, hc⟩ := splitToken_eq hsplit
        have h3 := length_unquote fun hm : quoteByte ∈ r.1 => hdropQ (hc ▸ mem_append_left _ hm)
        have h4 : r.1.length + r.2.length + 1 = (b :: rest).length := by
          rw [hc, length_append, length_cons]
          omega
        have h5 := ih (fun hm : quoteByte ∈ r.2 => hdropQ (hc ▸ mem_append_right _ (mem_cons_of_mem _ hm))) (by omega)
        simp at hloose h2 ⊢
        omega

end

theorem eq_of_sum_le {α : Type} {l : List α} {f : α → ℕ} {c : ℕ} (h : ∀ x ∈ l, c ≤ f x)
    (hsum : (l.map f).sum ≤ c * l.length) : ∀ x ∈ l, f x = c := by
  have hle : ∀ l : List α, (∀ x ∈ l, c ≤ f x) → c * l.length ≤ (l.map f).sum := by
    intro l hl
    simpa [mul_comm] using card_nsmul_le_sum (l.map f) c (by simpa using hl)
  induction l with
  | nil => exact fun x hx => absurd hx not_mem_nil
  | cons y l ih =>
    rw [forall_mem_cons] at h
    have hrest := hle l h.2
    rw [map_cons, sum_cons, length_cons, Nat.mul_succ] at hsum
    exact forall_mem_cons.2 ⟨by omega, ih h.2 (by omega)⟩

section
variable {argv envp : List CString}

theorem apostrophe_notMem (hs : QuoteFree s) : apostrophe ∉ s := fun h => hs _ h (.inr rfl)

theorem count_composeArg (ha : QuoteFree a.bytes) : (composeArg a).count apostrophe = 2 := by
  simp [composeArg, count_eq_zero_of_not_mem (apostrophe_notMem ha), show blank ≠ apostrophe by decide]

theorem count_composeEnv (he : QuoteFree e.bytes) :
    (composeEnv e).count apostrophe = e.bytes.count equalsSign + 1 ∧
      (composeEnv e).length = e.bytes.length + e.bytes.count equalsSign + 2 := by
  have hmarks : ∀ s : List UInt8, QuoteFree s →
      (s.flatMap fun b => if b = equalsSign then [equalsSign, apostrophe] else [b]).count apostrophe =
          s.count equalsSign ∧
        (s.flatMap fun b => if b = equalsSign then [equalsSign, apostrophe] else [b]).length =
          s.length + s.count equalsSign := by
    intro s hs
    induction s with
    | nil => exact ⟨rfl, rfl⟩
    | cons b s ih =>
      rw [QuoteFree, forall_mem_cons, not_or] at hs
      have := ih hs.2
      rw [flatMap_cons, count_append, length_append, count_cons, this.1, this.2]
      by_cases hb : b = equalsSign
      · simp [hb, show equalsSign ≠ apostrophe by decide]
        omega
      · simp [hb, hs.1.2]
        omega
  obtain ⟨h1, h2⟩ := hmarks e.bytes he
  rw [composeEnv, count_append, length_append, h1, h2]
  simp [show blank ≠ apostrophe by decide]

theorem variable_of_count (h : e.bytes.count equalsSign = 1) :
    e.bytes = (splitVariable e).1 ++ equalsSign :: (splitVariable e).2 ∧ equalsSign ∉ (splitVariable e).1 ∧
      equalsSign ∉ (splitVariable e).2 := by
  obtain ⟨name, value, hbytes, hname⟩ := eq_append_cons_of_mem (count_pos_iff.1 (h ▸ Nat.one_pos))
  have hne : ∀ b ∈ name, (decide (b ≠ equalsSign)) = true := fun b hb => decide_eq_true fun hc => hname (hc ▸ hb)
  have hsplit : splitVariable e = (name, value) := by
    rw [splitVariable, hbytes, takeWhile_append_of_pos hne, dropWhile_append_of_pos hne,
      takeWhile_cons_of_neg (by simp), dropWhile_cons_of_neg (by simp), append_nil, tail_cons]
  rw [hsplit]
  refine ⟨hbytes, hname, fun hc => ?_⟩
  have : 0 < value.count equalsSign := count_pos_iff.2 hc
  rw [hbytes, count_append, count_cons_self] at h
  omega

end

/-! ## What the new program gets -/

section
variable {m : Mem} {lo hi lo' hi' esp array : ℕ} {texts texts' args args' env env' : List (List UInt8)}

theorem PointsTo.unique (h : PointsTo m lo hi array texts) (h' : PointsTo m lo' hi' array texts')
    (hlen : texts.length = texts'.length) : texts = texts' := by
  refine ext_getElem hlen fun i hi hi' => ?_
  exact (h.strings i _ (getElem?_eq_getElem hi)).1.unique (h'.strings i _ (getElem?_eq_getElem hi')).1

theorem CallFrame.length_le (h : CallFrame m lo hi esp args env) (h' : CallFrame m lo' hi' esp args' env') :
    env.length ≤ env'.length := by
  by_contra hlt
  -- the pointer behind the last string of the other reading is `NULL`, and strings lie above the slots
  have hnull := (h.environ.strings env'.length _ (getElem?_eq_getElem (not_le.1 hlt))).2.1
  rw [h'.environ.null] at hnull
  have := h.slots
  omega

theorem CallFrame.unique (h : CallFrame m lo hi esp args env) (h' : CallFrame m lo' hi' esp args' env') :
    args = args' ∧ env = env' :=
  ⟨h.argv.unique h'.argv (h.argc.symm.trans h'.argc),
    h.environ.unique h'.environ (Nat.le_antisymm (h.length_le h') (h'.length_le h))⟩

end

/-- The new program gets the arguments and, in some order, the environment that `execve` was given. -/
def ArgumentsKept (argv envp : List CString) : Prop :=
  ∀ m : Mem, ∃ m' esp program lo env', resolveCommands m pl3StackTop (commandLine argv envp) = .ok (m', esp, program) ∧
    CallFrame m' lo pl3StackTop esp (argv.map CString.bytes) env' ∧ env'.Perm (envp.map CString.bytes)

section
variable {argv envp : List CString}

theorem quoteByte_notMem_commandLine (hargs : ∀ a ∈ argv, QuoteFree a.bytes) (henv : ∀ e ∈ envp, QuoteFree e.bytes) :
    quoteByte ∉ (commandLine argv envp).bytes :=
  notMem_composeCommandLine (by decide) (by decide) (by decide) (fun a ha hc => hargs a ha _ hc (.inl rfl))
    fun e he hc => henv e he _ hc (.inl rfl)

/-- Where the new program gets its arguments back, they are the words of the line. -/
theorem ArgumentsKept.words (h : ArgumentsKept argv envp) (hline : (commandLine argv envp).bytes.length ≤ 255) :
    ((commandLine argv envp).words.drop (programIndex (commandLine argv envp).words)).map unquote =
        argv.map CString.bytes ∧
      ((commandLine argv envp).words.take (programIndex (commandLine argv envp).words)).map unquote ~
        envp.map CString.bytes ∧
      programIndex (commandLine argv envp).words < (commandLine argv envp).words.length := by
  obtain ⟨m', esp, program, lo, env', hr, hframe, hperm⟩ := h fun _ => 0
  have hk := programIndex_lt hline (.inr rfl) (by decide) hr
  have hroom := length_words_le _ hline
  have htop : pl3StackTop = 0x9ffffff0 := by decide
  obtain ⟨m'', esp', program', hr', hframe'⟩ := resolveCommands_frame (fun _ => 0) pl3StackTop hroom (.inr rfl) hk
    (by omega) (by omega)
  cases hr.symm.trans hr'
  obtain ⟨hargs, henv⟩ := hframe'.unique hframe
  refine ⟨hargs, ?_, hk⟩
  rw [← henv, map_reverse] at hperm
  exact (reverse_perm _).symm.trans hperm

theorem ArgumentsKept.count_equalsSign (h : ArgumentsKept argv envp) (hargs : ∀ a ∈ argv, QuoteFree a.bytes)
    (henv : ∀ e ∈ envp, QuoteFree e.bytes) (hline : (commandLine argv envp).bytes.length ≤ 255) :
    ∀ e ∈ envp, e.bytes.count equalsSign = 1 := by
  obtain ⟨hwords, hperm, hk⟩ := h.words hline
  obtain ⟨-, hmarks⟩ := words_account (quoteByte_notMem_commandLine hargs henv) (Nat.lt_succ_self _)
  -- a word in front of the program has an `=`
  have hpos : ∀ e ∈ envp, 2 ≤ e.bytes.count equalsSign + 1 := fun e he => by
    obtain ⟨t, ht, heq⟩ := mem_map.1 (hperm.symm.subset (mem_map_of_mem he))
    have hmem : equalsSign ∈ t := by
      obtain ⟨i, hi, rfl⟩ := getElem_of_mem ht
      rw [length_take] at hi
      rw [getElem_take]
      simpa using not_of_lt_findIdx (p := fun t => decide (equalsSign ∉ t)) (lt_min_iff.1 hi).1
    have := count_pos_iff.2 (heq ▸ (equalsSign_mem_unquote t).2 hmem)
    omega
  have hsizes : (commandLine argv envp).words.length = envp.length + argv.length := by
    have h1 := congrArg length hwords
    have h2 := hperm.length_eq
    simp only [length_map, length_drop, length_take] at h1 h2
    omega
  have hcount : (commandLine argv envp).bytes.count apostrophe =
      (envp.map fun e => e.bytes.count equalsSign + 1).sum + 2 * argv.length := by
    have h1 : envp.map (count apostrophe ∘ composeEnv) = envp.map fun e => e.bytes.count equalsSign + 1 :=
      map_congr_left fun e he => (count_composeEnv (henv e he)).1
    have h2 : argv.map (count apostrophe ∘ composeArg) = argv.map fun _ => 2 :=
      map_congr_left fun a ha => count_composeArg (hargs a ha)
    change (envp.flatMap composeEnv ++ argv.flatMap composeArg).count apostrophe = _
    rw [count_append, count_flatMap, count_flatMap, h1, h2, map_const', sum_replicate, smul_eq_mul, mul_comm 2]
  have hone := eq_of_sum_le hpos (by
    change _ ≤ 2 * (commandLine argv envp).words.length at hmarks
    omega)
  exact fun e he => Nat.succ_injective (hone e he)

theorem looseBlanks_args (hargs : ∀ a ∈ argv, QuoteFree a.bytes) :
    looseBlanks false (argv.flatMap composeArg) = argv.length := by
  induction argv with
  | nil => rfl
  | cons a argv ih =>
    rw [forall_mem_cons] at hargs
    have happ := looseBlanks_append true (apostrophe_notMem hargs.1)
      (apostrophe :: blank :: argv.flatMap composeArg)
    have hstep : looseBlanks false ((a :: argv).flatMap composeArg) =
        looseBlanks true (a.bytes ++ apostrophe :: blank :: argv.flatMap composeArg) := by
      simp [composeArg, looseBlanks, show apostrophe ≠ blank by decide]
    rw [hstep, happ, length_cons, ← ih hargs.2]
    simp [looseBlanks, show apostrophe ≠ blank by decide]

theorem looseBlanks_envs (henv : ∀ e ∈ envp, QuoteFree e.bytes) (hone : ∀ e ∈ envp, e.bytes.count equalsSign = 1)
    (rest : List UInt8) : looseBlanks false (envp.flatMap composeEnv ++ rest) =
      (envp.map fun e => (splitVariable e).1.count blank + 1).sum + looseBlanks false rest := by
  induction envp with
  | nil => simp
  | cons e envp ih =>
    rw [forall_mem_cons] at henv hone
    obtain ⟨hbytes, hname, hvalue⟩ := variable_of_count hone.1
    have hq := apostrophe_notMem henv.1
    rw [hbytes, mem_append, mem_cons, not_or, not_or] at hq
    have hsplit : (e :: envp).flatMap composeEnv ++ rest = (splitVariable e).1 ++ equalsSign :: apostrophe ::
        ((splitVariable e).2 ++ apostrophe :: blank :: (envp.flatMap composeEnv ++ rest)) := by
      rw [flatMap_cons, composeEnv_eq hbytes hname hvalue]
      simp
    have h1 := looseBlanks_append false hq.1 (equalsSign :: apostrophe ::
      ((splitVariable e).2 ++ apostrophe :: blank :: (envp.flatMap composeEnv ++ rest)))
    have h2 := looseBlanks_append true hq.2.2 (apostrophe :: blank :: (envp.flatMap composeEnv ++ rest))
    have h3 : ∀ bs, looseBlanks false (equalsSign :: apostrophe :: bs) = looseBlanks true bs := fun bs => by
      simp [looseBlanks, show equalsSign ≠ blank by decide, show equalsSign ≠ apostrophe by decide,
        show apostrophe ≠ blank by decide]
    have h4 : ∀ bs, looseBlanks true (apostrophe :: blank :: bs) = looseBlanks false bs + 1 := fun bs => by
      simp [looseBlanks, show apostrophe ≠ blank by decide]
    rw [hsplit, h1, h3, h2, h4, ih henv.2 hone.2, map_cons, sum_cons]
    simp
    omega

theorem ArgumentsKept.isVariable (h : ArgumentsKept argv envp) (hargs : ∀ a ∈ argv, QuoteFree a.bytes)
    (henv : ∀ e ∈ envp, QuoteFree e.bytes) (hline : (commandLine argv envp).bytes.length ≤ 255) :
    ∀ e ∈ envp, IsVariable e := by
  have hone := h.count_equalsSign hargs henv hline
  obtain ⟨hwords, hperm, -⟩ := h.words hline
  set ws := (commandLine argv envp).words with hws
  obtain ⟨haccount, -⟩ := words_account (quoteByte_notMem_commandLine hargs henv) (Nat.lt_succ_self _)
  change (ws.map _).sum + looseBlanks false (envp.flatMap composeEnv ++ argv.flatMap composeArg) +
    (envp.flatMap composeEnv ++ argv.flatMap composeArg).count apostrophe =
      (envp.flatMap composeEnv ++ argv.flatMap composeArg).length at haccount
  have hunquoted : (ws.map fun t => (unquote t).length).sum =
      (envp.map fun e => e.bytes.length).sum + (argv.map fun a => a.bytes.length).sum := by
    have h1 := (hperm.map List.length).sum_eq
    have h2 := congrArg (fun l => (l.map List.length).sum) hwords
    simp only [map_map] at h1 h2
    rw [← take_append_drop (programIndex ws) ws, map_append, sum_append]
    exact congrArg₂ (· + ·) h1 h2
  have h1 : envp.map (count apostrophe ∘ composeEnv) = envp.map fun _ => 2 :=
    map_congr_left fun e he => by rw [Function.comp_apply, (count_composeEnv (henv e he)).1, hone e he]
  have h2 : argv.map (count apostrophe ∘ composeArg) = argv.map fun _ => 2 :=
    map_congr_left fun a ha => count_composeArg (hargs a ha)
  have h3 : (envp.map fun e => (composeEnv e).length) = envp.map fun e => e.bytes.length + 3 :=
    map_congr_left fun e he => by rw [(count_composeEnv (henv e he)).2, hone e he]
  have h4 : (argv.map fun a => (composeArg a).length) = argv.map fun a => a.bytes.length + 3 :=
    map_congr_left fun a _ => by simp [composeArg]
  rw [hunquoted, looseBlanks_envs henv hone, looseBlanks_args hargs, count_append, count_flatMap, count_flatMap, h1, h2,
    length_append, length_flatMap, length_flatMap, h3, h4] at haccount
  simp only [sum_map_add, map_const', sum_replicate, smul_eq_mul] at haccount
  have hblanks := eq_of_sum_le (c := 1) (f := fun e => (splitVariable e).1.count blank + 1) (l := envp)
    (fun e _ => Nat.le_add_left 1 _) (by simp only [sum_map_add, map_const', sum_replicate, smul_eq_mul]; omega)
  intro e he
  obtain ⟨hbytes, hname, hvalue⟩ := variable_of_count (hone e he)
  exact ⟨hbytes, count_eq_zero.1 (Nat.succ_injective (hblanks e he)), hname, hvalue⟩

end

/-- **The arguments survive `execve` exactly when the program's name has no `=`, and each string of the environment has
exactly one, with no blank before it.** -/
theorem execve_round_trip_iff (argv envp : List CString) (hargv : argv ≠ []) (hargs : ∀ a ∈ argv, QuoteFree a.bytes)
    (henv : ∀ e ∈ envp, QuoteFree e.bytes) (hline : (commandLine argv envp).bytes.length ≤ 255) :
    ArgumentsKept argv envp ↔ (∀ a ∈ argv.head?, equalsSign ∉ a.bytes) ∧ ∀ e ∈ envp, IsVariable e := by
  refine ⟨fun h => ⟨?_, h.isVariable hargs henv hline⟩, fun ⟨hprogram, hvariables⟩ m => ?_⟩
  · obtain ⟨hwords, -, hk⟩ := h.words hline
    intro a ha
    rw [drop_eq_getElem_cons hk, map_cons] at hwords
    obtain ⟨args, rfl⟩ := head?_eq_some_iff.1 ha
    rw [← (cons.inj hwords).1, equalsSign_mem_unquote]
    exact of_decide_eq_true (findIdx_getElem (w := hk))
  · obtain ⟨a, args, rfl⟩ := exists_cons_of_ne_nil hargv
    obtain ⟨htokens, hcount⟩ := tokensOf_commandLine hargs fun e he => ⟨henv e he, hvariables e he⟩
    have hk := programIndex_commandLine envp (hprogram a rfl) args
    have htop : pl3StackTop = 0x9ffffff0 := by decide
    have hts := words_of_tokensOf htokens
    set ts := envp.map envToken ++ (a :: args).map fun a => apostrophe :: a.bytes with htsdef
    have hlen : ts.length = envp.length + (a :: args).length := by simp [htsdef]
    obtain ⟨m', esp, program, hr, hframe⟩ := resolveCommands_frame m pl3StackTop
      (by rw [hts]; omega : (commandLine (a :: args) envp).words.length ≤ 128) (.inl (by rw [htokens]; rfl))
      (by rw [hts, hk, hlen, length_cons]; omega) (by rw [hts]; omega) (by omega)
    have hargs' : (ts.drop (programIndex ts)).map unquote = (a :: args).map CString.bytes := by
      rw [hk, htsdef, drop_left' (by simp), map_map]
      refine map_congr_left fun b hb => ?_
      change unquote (apostrophe :: b.bytes) = b.bytes
      rw [unquote_cons, if_pos (.inr rfl), unquote_eq_self (hargs b hb)]
    have henv' : (ts.take (programIndex ts)).reverse.map unquote = (envp.map CString.bytes).reverse := by
      rw [hk, htsdef, take_left' (by simp), map_reverse, map_map]
      refine congrArg List.reverse (map_congr_left fun e he => ?_)
      exact unquote_envToken (hvariables e he) (henv e he)
    rw [hts, hargs', henv'] at hframe
    exact ⟨m', esp, program, _, _, hr, hframe, reverse_perm _⟩

def spacedArgument : CString := ⟨[120, 32, 121], by decide⟩

def assignment : CString := ⟨[97, 61, 98], by decide⟩

theorem execve_round_trip_iff_small : ArgumentsKept [spacedArgument, assignment] [assignment] :=
  (execve_round_trip_iff [spacedArgument, assignment] [assignment] (by decide)
    (forall_mem_cons.2 ⟨by decide, forall_mem_singleton.2 (by decide)⟩) (forall_mem_singleton.2 (by decide))
    (by decide)).2 ⟨by decide, forall_mem_singleton.2 ⟨by decide, by decide, by decide, by decide⟩⟩

/-- A first argument with an `=` becomes a string of the environment. -/
theorem argument_lost : ¬ArgumentsKept [assignment, spacedArgument] [] ∧ ∃ m' esp program lo,
      resolveCommands (fun _ => 0) pl3StackTop (commandLine [assignment, spacedArgument] []) = .ok (m', esp, program) ∧
        CallFrame m' lo pl3StackTop esp [[120, 32, 121]] [[97, 61, 98]] := by
  have htokens : tokensOf (commandLine [assignment, spacedArgument] []).bytes =
      some [[39, 97, 61, 98], [39, 120, 32, 121]] := by decide
  have hwords := words_of_tokensOf htokens
  obtain ⟨m', esp, program, hr, hframe⟩ := resolveCommands_frame (fun _ => 0) pl3StackTop
    (by rw [hwords]; decide : (commandLine [assignment, spacedArgument] []).words.length ≤ 128) (.inr rfl)
    (by rw [hwords]; decide) (by rw [hwords]; decide) (by decide)
  rw [hwords] at hframe
  refine ⟨fun h => ?_, m', esp, program, _, hr, hframe⟩
  have := congrArg length (h.words (by decide)).1
  rw [hwords] at this
  exact absurd this (by decide)

end ZeldaOS
