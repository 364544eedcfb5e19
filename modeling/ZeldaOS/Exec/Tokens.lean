import ZeldaOS.Exec.Commands

/-!
# The words of a command line

What the loops of `resolve_commands` do with a command line in memory.

* `findTokens_words`: the search finds the words of the line.
* `executableIndex_eq`: the program is the first word without `=`.
-/

namespace ZeldaOS

open Machine List

/-! ## The words -/

/-- The word at the beginning of a text, and the text behind the blank or the closing quote that ends it. -/
def splitToken : (quoted apostrophed : Bool) → List UInt8 → Option (List UInt8 × List UInt8)
  | _, _, [] => none
  | quoted, apostrophed, b :: bs =>
    if b = blank then
      if quoted = false ∧ apostrophed = false then some ([], bs)
      else (splitToken quoted apostrophed bs).map fun r => (b :: r.1, r.2)
    else if b = quoteByte ∨ b = apostrophe then
      let quoted := quoted ^^ decide (b = quoteByte)
      let apostrophed := apostrophed ^^ decide (b = apostrophe)
      if quoted = false ∧ apostrophed = false then some ([], bs)
      else (splitToken quoted apostrophed bs).map fun r => (b :: r.1, r.2)
    else (splitToken quoted apostrophed bs).map fun r => (b :: r.1, r.2)

/-- The words of the text at `p`, with their places; nothing when the text ends before its last word. -/
def locateTokens : (fuel p : ℕ) → List UInt8 → Option (List (ℕ × List UInt8))
  | 0, _, _ => none
  | n + 1, p, bs =>
    match bs.dropWhile (· = blank) with
    | [] => some []
    | b :: rest =>
      let start := p + (bs.takeWhile (· = blank)).length
      (splitToken false false (b :: rest)).bind fun r =>
        (locateTokens n (start + r.1.length + 1) r.2).map ((start, r.1) :: ·)

def tokensOf (bs : List UInt8) : Option (List (List UInt8)) :=
  (locateTokens (bs.length + 1) 0 bs).map (List.map Prod.snd)

/-- The words of a text; the last one may end with the text. -/
def wordsOf : (fuel : ℕ) → List UInt8 → List (List UInt8)
  | 0, _ => []
  | n + 1, bs =>
    match bs.dropWhile (· = blank) with
    | [] => []
    | b :: rest => (splitToken false false (b :: rest)).elim [b :: rest] fun r => r.1 :: wordsOf n r.2

@[inherit_doc wordsOf] def CString.words (line : CString) : List (List UInt8) :=
  wordsOf (line.bytes.length + 1) line.bytes

def unquote (token : List UInt8) : List UInt8 := token.filter fun b => b ≠ quoteByte ∧ b ≠ apostrophe

theorem locateTokens_snd (n p q : ℕ) (bs : List UInt8) :
    (locateTokens n p bs).map (List.map Prod.snd) = (locateTokens n q bs).map (List.map Prod.snd) := by
  induction n generalizing p q bs with
  | zero => rfl
  | succ n ih =>
    rw [locateTokens, locateTokens]
    cases bs.dropWhile (· = blank) with
    | nil => rfl
    | cons b rest =>
      dsimp only
      cases splitToken false false (b :: rest) with
      | none => rfl
      | some r =>
        have hrest := ih (p + (bs.takeWhile (· = blank)).length + r.1.length + 1)
          (q + (bs.takeWhile (· = blank)).length + r.1.length + 1) r.2
        rw [Option.bind_some, Option.bind_some, Option.map_map, Option.map_map]
        have hswap : ∀ start : ℕ, List.map Prod.snd ∘ ((start, r.1) :: ·) = (r.1 :: ·) ∘ List.map Prod.snd :=
          fun _ => rfl
        rw [hswap, hswap, ← Option.map_map, hrest, Option.map_map]

variable {bs : List UInt8}

theorem locateTokens_words {n p : ℕ} {locs : List (ℕ × List UInt8)} (h : locateTokens n p bs = some locs) :
    locs.map Prod.snd = wordsOf n bs := by
  induction n generalizing p bs locs with
  | zero => cases h
  | succ n ih =>
    rw [locateTokens] at h
    rw [wordsOf]
    cases hdrop : bs.dropWhile (· = blank) with
    | nil =>
      rw [hdrop] at h
      cases h
      rfl
    | cons b rest =>
      rw [hdrop] at h
      obtain ⟨r, hr, h⟩ := Option.bind_eq_some_iff.1 h
      obtain ⟨later, hlater, rfl⟩ := Option.map_eq_some_iff.1 h
      dsimp only
      rw [hr, map_cons, ih hlater]
      rfl

theorem words_of_tokensOf {line : CString} {ts : List (List UInt8)} (h : tokensOf line.bytes = some ts) :
    line.words = ts := by
  obtain ⟨locs, hlocs, rfl⟩ := Option.map_eq_some_iff.1 h
  exact (locateTokens_words hlocs).symm

variable {m : Mem} {p n count : ℕ} {odd : Bool}

section
variable {token rest : List UInt8}

/-! ## The search -/

theorem skipBlanks_eq (h : StrAt m p bs) (hn : bs.length < n) :
    skipBlanks m n p = .ok (p + (bs.takeWhile (· = blank)).length) ∧
      StrAt m (p + (bs.takeWhile (· = blank)).length) (bs.dropWhile (· = blank)) := by
  induction bs generalizing p n with
  | nil =>
    obtain ⟨n, rfl⟩ : ∃ k, n = k + 1 := ⟨n - 1, by simp at hn; omega⟩
    refine ⟨?_, h⟩
    rw [skipBlanks, h.nil, if_neg (by decide)]
    rfl
  | cons b bs ih =>
    obtain ⟨n, rfl⟩ : ∃ k, n = k + 1 := ⟨n - 1, by simp at hn; omega⟩
    obtain ⟨hb, -, hbs⟩ := h.cons
    rw [skipBlanks, hb]
    by_cases hblank : b = blank
    · obtain ⟨hskip, hrest⟩ := ih hbs (by simp at hn; omega)
      rw [if_pos hblank, hskip]
      simp only [takeWhile_cons, dropWhile_cons, hblank, decide_true, if_true, length_cons]
      rw [Nat.add_assoc, Nat.add_comm 1] at hrest ⊢
      exact ⟨rfl, hrest⟩
    · simp only [takeWhile_cons, dropWhile_cons, hblank, decide_false, Bool.false_eq_true, if_false]
      exact ⟨rfl, h⟩

theorem odd_add (h : odd = decide (count % 2 = 1)) (c : Prop) [Decidable c] :
    (odd ^^ decide c) = decide ((count + if c then 1 else 0) % 2 = 1) := by
  subst h
  by_cases hc : c
  · simp only [hc, decide_true, if_true, Bool.xor_true]
    rw [Bool.eq_iff_iff]
    simp
    omega
  · simp [hc]

theorem odd_zero : false = decide (0 % 2 = 1) := rfl

theorem even_iff (h : odd = decide (count % 2 = 1)) : odd = false ↔ count % 2 = 0 := by
  subst h
  simp

variable {quoted apostrophed : Bool} {quoteCount apostropheCount : ℕ}

theorem splitToken_eq (h : splitToken quoted apostrophed bs = some (token, rest)) : ∃ c, bs = token ++ c :: rest := by
  induction bs generalizing quoted apostrophed token with
  | nil => cases h
  | cons b bs ih =>
    have hstep : ∀ {q a : Bool}, (splitToken q a bs).map (fun r => (b :: r.1, r.2)) = some (token, rest) →
        ∃ c, b :: bs = token ++ c :: rest := by
      intro q a hmap
      obtain ⟨⟨t, r⟩, hr, heq⟩ := Option.map_eq_some_iff.1 hmap
      cases heq
      obtain ⟨c, rfl⟩ := ih hr
      exact ⟨c, rfl⟩
    rw [splitToken] at h
    dsimp only at h
    split_ifs at h
    · cases h
      exact ⟨b, rfl⟩
    · exact hstep h
    · cases h
      exact ⟨b, rfl⟩
    · exact hstep h
    · exact hstep h

theorem tokenEnd_split (hq : quoted = decide (quoteCount % 2 = 1)) (ha : apostrophed = decide (apostropheCount % 2 = 1))
    (h : StrAt m p bs) (hn : bs.length < n) : tokenEnd m n p quoteCount apostropheCount =
      .ok (p + (splitToken quoted apostrophed bs).elim bs.length (·.1.length)) := by
  induction bs generalizing p n quoted apostrophed quoteCount apostropheCount with
  | nil =>
    obtain ⟨n, rfl⟩ : ∃ k, n = k + 1 := ⟨n - 1, by simp at hn; omega⟩
    rw [tokenEnd, if_pos h.nil]
    rfl
  | cons b bs ih =>
    obtain ⟨n, rfl⟩ : ∃ k, n = k + 1 := ⟨n - 1, by simp at hn; omega⟩
    obtain ⟨hb, hb0, hbs⟩ := h.cons
    -- the word goes on with `b`, and the counts go on with `q` and `a`
    have hstep : ∀ {q a : Bool} {qc ac : ℕ}, q = decide (qc % 2 = 1) → a = decide (ac % 2 = 1) →
        tokenEnd m n (p + 1) qc ac =
          .ok (p + ((splitToken q a bs).map fun r => (b :: r.1, r.2)).elim (b :: bs).length (·.1.length)) := by
      intro q a qc ac hq ha
      rw [ih hq ha hbs (by simp at hn; omega), Nat.add_assoc, Nat.add_comm 1]
      cases splitToken q a bs with
      | none => rfl
      | some r => rfl
    rw [tokenEnd, splitToken, hb, if_neg hb0]
    by_cases hblank : b = blank
    · rw [if_pos hblank, if_pos hblank]
      have heven := and_congr (even_iff hq) (even_iff ha)
      by_cases hev : quoteCount % 2 = 0 ∧ apostropheCount % 2 = 0
      · rw [if_pos hev, if_pos (heven.2 hev)]
        rfl
      rw [if_neg hev, if_neg fun hc => hev (heven.1 hc)]
      exact hstep hq ha
    rw [if_neg hblank, if_neg hblank]
    by_cases hquote : b = quoteByte ∨ b = apostrophe
    · rw [if_pos hquote, if_pos hquote]
      have hq' := odd_add hq (b = quoteByte)
      have ha' := odd_add ha (b = apostrophe)
      have heven := and_congr (even_iff hq') (even_iff ha')
      by_cases hev : (quoteCount + if b = quoteByte then 1 else 0) % 2 = 0 ∧
          (apostropheCount + if b = apostrophe then 1 else 0) % 2 = 0
      · rw [if_pos hev, if_pos (heven.2 hev)]
        rfl
      rw [if_neg hev, if_neg fun hc => hev (heven.1 hc)]
      exact hstep hq' ha'
    · rw [if_neg hquote, if_neg hquote]
      exact hstep hq ha

theorem tokenEnd_eq (h : StrAt m p bs) (hsplit : splitToken false false bs = some (token, rest)) (hn : bs.length < n) :
    tokenEnd m n p 0 0 = .ok (p + token.length) ∧ TextAt m p token ∧
      StrAt m (p + token.length + 1) rest ∧ bs.length = token.length + 1 + rest.length ∧ 0 ∉ token := by
  have hend := tokenEnd_split odd_zero odd_zero h hn
  rw [hsplit] at hend
  obtain ⟨c, rfl⟩ := splitToken_eq hsplit
  obtain ⟨h0, htext, hnul⟩ := h
  obtain ⟨htoken, -, hrest⟩ := textAt_append.1 htext
  rw [mem_append, mem_cons, not_or, not_or] at h0
  rw [length_append, length_cons] at hnul ⊢
  rw [Nat.add_comm rest.length, ← Nat.add_assoc, ← Nat.add_assoc] at hnul
  exact ⟨hend, htoken, ⟨h0.2.2, hrest, hnul⟩, by omega, h0.1⟩

end

structure Located (m : Mem) (lo hi : ℕ) (loc : ℕ × List UInt8) : Prop where
  text : TextAt m loc.1 loc.2
  nul_free : 0 ∉ loc.2
  lo_le : lo ≤ loc.1
  lt_hi : loc.1 + loc.2.length < hi

def Before (a b : ℕ × List UInt8) : Prop := a.1 + a.2.length < b.1

variable {lo hi : ℕ}

theorem Located.mono {lo' hi' : ℕ} {loc : ℕ × List UInt8} (h : Located m lo hi loc) (hlo : lo' ≤ lo) (hhi : hi ≤ hi') :
    Located m lo' hi' loc :=
  ⟨h.text, h.nul_free, hlo.trans h.lo_le, h.lt_hi.trans_le hhi⟩

variable {locs : List (ℕ × List UInt8)}

theorem splitToken_ne_nil {b : UInt8} {token rest rest' : List UInt8} (hb : b ≠ blank)
    (h : splitToken false false (b :: rest) = some (token, rest')) : token ≠ [] := by
  rintro rfl
  rw [splitToken, if_neg hb] at h
  dsimp only at h
  split_ifs at h with hquote heven
  · rcases hquote with rfl | rfl
    · exact absurd heven.1 (by decide)
    · exact absurd heven.2 (by decide)
  · obtain ⟨r, -, heq⟩ := Option.map_eq_some_iff.1 h
    cases heq
  · obtain ⟨r, -, heq⟩ := Option.map_eq_some_iff.1 h
    cases heq

/-- The search finds the words; a last one that ends with the text ends at the NUL, and the search goes on. -/
theorem findTokens_words (fuel : ℕ) (stack : List (ℕ × ℕ)) (h : StrAt m p bs) (hn : bs.length < n) (hfuel : n ≤ fuel)
    (hbs : bs.length < addressSpace) : ∃ locs, locs.map Prod.snd = wordsOf n bs ∧
      (∀ loc ∈ locs, Located m p (p + bs.length + 1) loc) ∧ locs.Pairwise Before ∧ 2 * locs.length ≤ bs.length + 1 ∧
      (locateTokens n p bs = some locs ∧ (∀ loc ∈ locs, loc.1 + loc.2.length < p + bs.length) ∧
          (stack.length + locs.length ≤ 128 →
            findTokens m fuel p stack = .ok (stack ++ locs.map fun loc => (loc.1, loc.1 + loc.2.length))) ∨
        locateTokens n p bs = none ∧ (∃ loc ∈ locs, loc.1 + loc.2.length = p + bs.length) ∧
          (stack.length + locs.length ≤ 128 → ∃ k, findTokens m fuel p stack = findTokens m (k + 1) (p + bs.length + 1)
            (stack ++ locs.map fun loc => (loc.1, loc.1 + loc.2.length)))) := by
  induction n generalizing p fuel bs stack with
  | zero => omega
  | succ n ih =>
    obtain ⟨fuel, rfl⟩ : ∃ k, fuel = k + 1 := ⟨fuel - 1, by omega⟩
    obtain ⟨hskip, hstart⟩ := skipBlanks_eq h hbs
    have hlen := congrArg List.length (takeWhile_append_dropWhile (p := (· = blank)) (l := bs))
    rw [length_append] at hlen
    rw [locateTokens, wordsOf, findTokens, hskip]
    set start := p + (bs.takeWhile (· = blank)).length with hs
    cases hdrop : bs.dropWhile (· = blank) with
    | nil =>
      rw [hdrop] at hstart
      refine ⟨[], rfl, forall_mem_nil _, .nil, Nat.zero_le _, .inl ⟨rfl, forall_mem_nil _, fun _ => ?_⟩⟩
      have hend : m start = 0 := hstart.nil
      change (if m p = 0 then _ else if m start = 0 then _ else _) = _
      rw [if_pos hend, ite_self]
      simp
    | cons b rest =>
      rw [hdrop, length_cons] at hlen
      rw [hdrop] at hstart
      obtain ⟨hb, hb0, -⟩ := hstart.cons
      have hp : m p ≠ 0 := by
        cases bs with
        | nil => cases hdrop
        | cons c cs =>
          obtain ⟨hc, hc0, -⟩ := h.cons
          rw [hc]
          exact hc0
      have hblank : b ≠ blank := by
        have := head?_dropWhile_not (· = blank) bs
        rw [hdrop] at this
        simpa using this
      -- one round, which finds the word up to `q`
      have hround : ∀ q, tokenEnd m addressSpace start 0 0 = .ok q → stack.length < 128 →
          (if m p = 0 then .ok stack else (.ok start : Except ExecFault ℕ) >>= fun startPtr =>
            if m startPtr = 0 then .ok stack else tokenEnd m addressSpace startPtr 0 0 >>= fun endPtr =>
              if stack.length < 128 then findTokens m fuel (endPtr + 1) (stack ++ [(startPtr, endPtr)])
              else .error .outOfBounds) = findTokens m fuel (q + 1) (stack ++ [(start, q)]) := by
        intro q hq hroom
        rw [if_neg hp]
        change (if m start = 0 then _ else tokenEnd m addressSpace start 0 0 >>= _) = _
        rw [if_neg (by rw [hb]; exact hb0), hq]
        exact if_pos hroom
      have hsplitEnd := tokenEnd_split (n := addressSpace) odd_zero odd_zero hstart (by rw [length_cons]; omega)
      cases hsplit : splitToken false false (b :: rest) with
      | none =>
        rw [hsplit] at hsplitEnd
        refine ⟨[(start, b :: rest)], ?_, ?_, pairwise_singleton .., ?_, .inr ⟨?_, ⟨_, mem_singleton.2 rfl, ?_⟩, ?_⟩⟩
        · dsimp only
          rw [hsplit]
          rfl
        · refine forall_mem_singleton.2 ⟨hstart.2.1, hstart.1, by omega, ?_⟩
          rw [length_cons]
          omega
        · rw [length_singleton]
          omega
        · dsimp only
          rw [hsplit]
          rfl
        · rw [length_cons]
          omega
        intro hroom
        obtain ⟨k, rfl⟩ : ∃ k, fuel = k + 1 := ⟨fuel - 1, by omega⟩
        refine ⟨k, (hround _ hsplitEnd (by rw [length_singleton] at hroom; omega)).trans ?_⟩
        rw [show start + (none : Option (List UInt8 × List UInt8)).elim (b :: rest).length (·.1.length) =
          start + (b :: rest).length from rfl, map_singleton, length_cons,
          show start + (rest.length + 1) = p + bs.length by omega]
      | some r =>
        obtain ⟨token, rest'⟩ := r
        obtain ⟨hend, htext, hrest, hsize, h0⟩ :=
          tokenEnd_eq (n := addressSpace) hstart hsplit (by rw [length_cons]; omega)
        have htoken := length_pos_of_ne_nil (splitToken_ne_nil hblank hsplit)
        rw [length_cons] at hsize
        obtain ⟨locs, hwords, hlocated, hbefore, hcount, hcase⟩ := ih fuel (stack ++ [(start, start + token.length)])
          hrest (by omega) (by omega) (by omega)
        have hall : stack ++ ((start, token) :: locs).map (fun loc => (loc.1, loc.1 + loc.2.length)) =
            stack ++ [(start, start + token.length)] ++ locs.map fun loc => (loc.1, loc.1 + loc.2.length) := by simp
        rw [length_append, length_singleton] at hcase
        dsimp only
        rw [hsplit, Option.bind_some]
        refine ⟨(start, token) :: locs, congrArg (token :: ·) hwords, ?_, ?_, by rw [length_cons]; omega, ?_⟩
        · refine forall_mem_cons.2 ⟨⟨htext, h0, by omega, by simp only; omega⟩, fun loc hl => ?_⟩
          exact (hlocated loc hl).mono (by omega) (by omega)
        · refine pairwise_cons.2 ⟨fun loc hl => ?_, hbefore⟩
          have := (hlocated loc hl).lo_le
          simp only [Before]
          omega
        rw [length_cons, hall]
        rcases hcase with ⟨hsome, hlt, hfind⟩ | ⟨hnone, ⟨last, hlast, hend'⟩, hfind⟩
        · refine .inl ⟨by rw [hsome]; rfl, forall_mem_cons.2 ⟨by simp only; omega, fun loc hl => ?_⟩, fun hroom => ?_⟩
          · have := hlt loc hl
            omega
          · exact (hround _ hend (by omega)).trans (hfind (by omega))
        refine .inr ⟨by rw [hnone]; rfl, ⟨last, mem_cons_of_mem _ hlast, by omega⟩, fun hroom => ?_⟩
        obtain ⟨k, hk⟩ := hfind (by omega)
        refine ⟨k, (hround _ hend (by omega)).trans (hk.trans ?_)⟩
        rw [show start + token.length + 1 + rest'.length + 1 = p + bs.length + 1 by omega]

/-! ## The quotes -/

theorem unquote_cons (b : UInt8) (bs : List UInt8) :
    unquote (b :: bs) = if b = quoteByte ∨ b = apostrophe then unquote bs else b :: unquote bs := by
  rw [unquote, filter_cons]
  by_cases h : b = quoteByte ∨ b = apostrophe
  · rw [if_pos h, if_neg (by simp; tauto)]
    rfl
  rw [if_neg h, if_pos (by simp; tauto)]
  rfl

theorem compactToken_eq {q : ℕ} (h : StrAt m p bs) (hq : q ≤ p) (hn : bs.length < n) :
    ∃ m', compactToken n m p q = .ok m' ∧ StrAt m' q (unquote bs) ∧ Agree m m' q (p + bs.length + 1) := by
  induction bs generalizing m p q n with
  | nil =>
    obtain ⟨n, rfl⟩ : ∃ k, n = k + 1 := ⟨n - 1, by simp at hn; omega⟩
    refine ⟨m.set q 0, ?_, ⟨not_mem_nil, trivial, set_self m q 0⟩, agree_set m q 0 le_rfl (by simp; omega)⟩
    rw [compactToken, if_pos h.nil]
  | cons b bs ih =>
    obtain ⟨n, rfl⟩ : ∃ k, n = k + 1 := ⟨n - 1, by simp at hn; omega⟩
    obtain ⟨hb, hb0, hbs⟩ := h.cons
    have hn' : bs.length < n := by simp at hn; omega
    rw [compactToken, hb, if_neg hb0, unquote_cons, length_cons]
    by_cases hquote : b = quoteByte ∨ b = apostrophe
    · rw [if_pos hquote, if_pos hquote]
      obtain ⟨m', hm', hstr, hagree⟩ := ih hbs (q := q) (by omega) hn'
      exact ⟨m', hm', hstr, hagree.mono le_rfl (by omega)⟩
    rw [if_neg hquote, if_neg hquote]
    have hset : Agree m (m.set q b) q (q + 1) := agree_set m q b le_rfl (by omega)
    obtain ⟨m', hm', hstr, hagree⟩ := ih (q := q + 1) (hset.strAt hbs (.inr (Nat.succ_le_succ hq))) (by omega) hn'
    refine ⟨m', hm', ⟨?_, ⟨?_, hstr.2.1⟩, ?_⟩, ?_⟩
    · rw [mem_cons, not_or]
      exact ⟨Ne.symm hb0, hstr.1⟩
    · rw [hagree q (.inl (by omega)), set_self]
    · have := hstr.2.2
      rwa [Nat.add_right_comm, Nat.add_assoc] at this
    · exact (hset.mono le_rfl (by omega)).trans (hagree.mono (by omega) (by omega))

theorem simplifyTokens_eq (h : ∀ loc ∈ locs, Located m lo hi loc) (hbefore : locs.Pairwise Before)
    (hsize : hi - lo < addressSpace) :
    ∃ m', simplifyTokens m (locs.map fun loc => (loc.1, loc.1 + loc.2.length)) = .ok m' ∧
      (∀ loc ∈ locs, StrAt m' loc.1 (unquote loc.2)) ∧ Agree m m' lo hi := by
  induction locs generalizing m lo with
  | nil => exact ⟨m, rfl, fun loc hl => absurd hl not_mem_nil, Agree.refl m lo hi⟩
  | cons loc locs ih =>
    obtain ⟨⟨htext, h0, hlo, hhi⟩, hrest⟩ := forall_mem_cons.1 h
    obtain ⟨hfirst, hbefore⟩ := pairwise_cons.1 hbefore
    have hend : Agree m (m.set (loc.1 + loc.2.length) 0) (loc.1 + loc.2.length) (loc.1 + loc.2.length + 1) :=
      agree_set m _ 0 le_rfl (by omega)
    have hstr : StrAt (m.set (loc.1 + loc.2.length) 0) loc.1 loc.2 :=
      ⟨h0, hend.textAt htext (.inl le_rfl), set_self ..⟩
    obtain ⟨m1, hm1, hstr1, hagree1⟩ := compactToken_eq hstr le_rfl (n := addressSpace) (by omega)
    have hchange := (hend.mono (by omega) le_rfl).trans hagree1
    -- the words behind are still there, from the end of this one on
    have hbehind : ∀ l ∈ locs, Located m1 (loc.1 + loc.2.length + 1) hi l := fun l hl => by
      have hl' := hrest l hl
      have hb : loc.1 + loc.2.length < l.1 := hfirst l hl
      exact ⟨hchange.textAt hl'.text (.inr (by omega)), hl'.nul_free, by omega, hl'.lt_hi⟩
    obtain ⟨m', hm', hstrs, hagree⟩ := ih hbehind hbefore (by omega)
    refine ⟨m', ?_, forall_mem_cons.2 ⟨?_, hstrs⟩, ?_⟩
    · rw [map_cons, simplifyTokens, hm1]
      exact hm'
    · refine hagree.strAt hstr1 (.inl ?_)
      have : (unquote loc.2).length ≤ loc.2.length := length_filter_le ..
      omega
    · exact (hchange.mono hlo (by omega)).trans (hagree.mono (by omega) le_rfl)

theorem strchr_eq {s : List UInt8} (h : StrAt m p s) (c : UInt8) (hn : s.length < n) :
    strchr m c n p = .ok (decide (c ∈ s)) := by
  induction s generalizing p n with
  | nil =>
    obtain ⟨n, rfl⟩ : ∃ k, n = k + 1 := ⟨n - 1, by simp at hn; omega⟩
    rw [strchr, if_pos h.nil]
    simp
  | cons b s ih =>
    obtain ⟨n, rfl⟩ : ∃ k, n = k + 1 := ⟨n - 1, by simp at hn; omega⟩
    obtain ⟨hb, hb0, hs⟩ := h.cons
    rw [strchr, hb, if_neg hb0]
    by_cases hc : b = c
    · simp [hc]
    rw [if_neg hc, ih hs (by simp at hn; omega)]
    simp [Ne.symm hc]

def programIndex (ts : List (List UInt8)) : ℕ := ts.findIdx fun t => equalsSign ∉ t

theorem equalsSign_mem_unquote (t : List UInt8) : equalsSign ∈ unquote t ↔ equalsSign ∈ t := by
  simp [unquote, mem_filter, equalsSign, quoteByte, apostrophe]

theorem executableIndex_eq (h : ∀ loc ∈ locs, StrAt m loc.1 (unquote loc.2))
    (hlen : ∀ loc ∈ locs, loc.2.length < addressSpace) :
    executableIndex m (locs.map Prod.fst) = .ok (programIndex (locs.map Prod.snd)) := by
  induction locs with
  | nil => rfl
  | cons loc locs ih =>
    rw [forall_mem_cons] at h hlen
    have hshort : (unquote loc.2).length ≤ loc.2.length := length_filter_le ..
    rw [map_cons, map_cons, executableIndex, strchr_eq h.1 equalsSign (by omega), ih h.2 hlen.2]
    rw [programIndex, programIndex, findIdx_cons]
    by_cases hmem : equalsSign ∈ loc.2
    · have hdec := decide_eq_true ((equalsSign_mem_unquote _).2 hmem)
      simp [hdec, hmem]
      rfl
    have hdec := decide_eq_false fun hc => hmem ((equalsSign_mem_unquote _).1 hc)
    simp [hdec, hmem]
    rfl

end ZeldaOS
