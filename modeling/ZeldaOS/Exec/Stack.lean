import ZeldaOS.Exec.Tokens
import ZeldaOS.Machine.Runs

/-!
# The first stack of a program

What `resolve_commands` leaves on the stack, as `_start` of `runtime/crt0.c` reads it.

* `stack_agrees`: the kernel and `_start` agree on the stack.
-/

namespace ZeldaOS

open Machine List

/-! ## What `_start` reads -/

/-- `argc` and `argv` of `_start`, behind the place of a return address. -/
def argcOf (m : Mem) (esp : ℕ) : ℕ := m.read (esp + 4) 4
@[inherit_doc argcOf] def argvOf (m : Mem) (esp : ℕ) : ℕ := m.read (esp + 8) 4

def environOf (m : Mem) (esp : ℕ) : ℕ := argvOf m esp + 4 * (argcOf m esp + 1)

def pointerAt (m : Mem) (array i : ℕ) : ℕ := m.read (array + 4 * i) 4

/-- The array points to the texts in order, between `lo` and `hi`, and ends with `NULL`. -/
structure PointsTo (m : Mem) (lo hi array : ℕ) (texts : List (List UInt8)) : Prop where
  strings : ∀ i t, texts[i]? = some t →
    StrAt m (pointerAt m array i) t ∧ lo ≤ pointerAt m array i ∧ pointerAt m array i + t.length < hi
  null : pointerAt m array texts.length = 0

/-- A stack from which `_start` gets these arguments and this environment. -/
structure CallFrame (m : Mem) (lo hi esp : ℕ) (args env : List (List UInt8)) : Prop where
  argc : argcOf m esp = args.length
  argv : PointsTo m lo hi (argvOf m esp) args
  environ : PointsTo m lo hi (environOf m esp) env
  slots : environOf m esp + 4 * (env.length + 1) ≤ lo

section
variable {starts : List ℕ} {k i : ℕ}

def pushedPointers (starts : List ℕ) (k : ℕ) : List ℕ := 0 :: starts.take k ++ 0 :: (starts.drop k).reverse

theorem length_pushedPointers (hk : k ≤ starts.length) : (pushedPointers starts k).length = starts.length + 2 := by
  simp [pushedPointers]
  omega

theorem pushedPointers_arg (hi : k + i < starts.length) :
    (pushedPointers starts k)[starts.length + 1 - i]? = starts[k + i]? := by
  have hlen : (0 :: starts.take k).length = k + 1 := by simp; omega
  obtain ⟨j, hj⟩ : ∃ j, starts.length + 1 - i - (k + 1) = j + 1 := ⟨starts.length - i - k - 1, by omega⟩
  rw [pushedPointers, getElem?_append_right (by omega), hlen, hj, getElem?_cons_succ,
    getElem?_reverse (by simp; omega), getElem?_drop]
  congr 1
  simp
  omega

theorem pushedPointers_argEnd (hk : k ≤ starts.length) : (pushedPointers starts k)[k + 1]? = some 0 := by
  have hlen : (0 :: starts.take k).length = k + 1 := by simp; omega
  rw [pushedPointers, getElem?_append_right (by omega), hlen, Nat.sub_self]
  rfl

theorem pushedPointers_env (hi : i < k) (hk : k ≤ starts.length) :
    (pushedPointers starts k)[k - i]? = starts[k - 1 - i]? := by
  obtain ⟨j, hj⟩ : ∃ j, k - i = j + 1 := ⟨k - i - 1, by omega⟩
  rw [pushedPointers, List.getElem?_append_left (by simp; omega), hj, getElem?_cons_succ,
    getElem?_take_of_lt (by omega)]
  congr 1
  omega

theorem pointerAt_pushWords {m : Mem} {e array j v : ℕ} {vs : List ℕ} (h : 4 * vs.length ≤ e)
    (hj : array + 4 * i = e - 4 * j) (hv : vs[j]? = some v) (hlt : v < 2 ^ 32) :
    pointerAt (pushWords m e vs) array i = v := by
  rw [pointerAt, hj]
  exact read_pushWords m h hv hlt

end

theorem callFrame_of_words {m : Mem} {e k : ℕ} (lo hi : ℕ) (locs : List (ℕ × List UInt8))
    (hstr : ∀ loc ∈ locs, StrAt m loc.1 (unquote loc.2) ∧ lo ≤ loc.1 ∧ loc.1 + loc.2.length < hi)
    (hhi : hi ≤ 2 ^ 32) (hlo : e + 4 ≤ lo) (hlohi : lo ≤ hi) (hk : k < locs.length) (he : 4 * (locs.length + 4) ≤ e) :
    CallFrame (pushWords m e (pushedPointers (locs.map Prod.fst) k ++ [e - 4 * (locs.length + 2) + 4, locs.length - k]))
      lo hi (e - 4 * (locs.length + 2) - 8)
      (((locs.map Prod.snd).drop k).map unquote) (((locs.map Prod.snd).take k).reverse.map unquote) := by
  set starts := locs.map Prod.fst with hstarts
  have hn : starts.length = locs.length := length_map ..
  set vs := pushedPointers starts k ++ [e - 4 * (locs.length + 2) + 4, locs.length - k] with hvs
  have hplen : (pushedPointers starts k).length = locs.length + 2 := by
    rw [length_pushedPointers (by omega), hn]
  have hlen : vs.length = locs.length + 4 := by
    rw [hvs, length_append, hplen]
    rfl
  have hpointer : ∀ {j v : ℕ}, (pushedPointers starts k)[j]? = some v → vs[j]? = some v := by
    intro j v hv
    rw [hvs, List.getElem?_append_left (List.getElem?_eq_some_iff.1 hv).1]
    exact hv
  have hagree := agree_pushWords m e vs (by omega)
  have hargc : argcOf (pushWords m e vs) (e - 4 * (locs.length + 2) - 8) = locs.length - k := by
    have hv : vs[locs.length + 3]? = some (locs.length - k) := by
      rw [hvs, getElem?_append_right (by omega), hplen]
      simp
    have hread := read_pushWords m (e := e) (by omega) hv (by omega)
    rw [argcOf, ← hread]
    congr 1
    omega
  have hargv : argvOf (pushWords m e vs) (e - 4 * (locs.length + 2) - 8) = e - 4 * (locs.length + 1) := by
    have hv : vs[locs.length + 2]? = some (e - 4 * (locs.length + 2) + 4) := by
      rw [hvs, getElem?_append_right (by omega), hplen]
      simp
    have hread := read_pushWords m (e := e) (by omega) hv (by omega)
    have hslot : e - 4 * (locs.length + 2) - 8 + 8 = e - 4 * (locs.length + 2) := by omega
    rw [argvOf, hslot, hread]
    omega
  have henv : environOf (pushWords m e vs) (e - 4 * (locs.length + 2) - 8) = e - 4 * k := by
    rw [environOf, hargv, hargc]
    omega
  -- a word that was located is the string its pointer leads to
  have hword : ∀ {array i j l : ℕ} {t : List UInt8}, array + 4 * i = e - 4 * j →
      (pushedPointers starts k)[j]? = starts[l]? → (locs.map Prod.snd)[l]? = some t →
      StrAt (pushWords m e vs) (pointerAt (pushWords m e vs) array i) (unquote t) ∧
        lo ≤ pointerAt (pushWords m e vs) array i ∧
        pointerAt (pushWords m e vs) array i + (unquote t).length < hi := by
    intro array i j l t haddr hptr ht
    rw [getElem?_map, Option.map_eq_some_iff] at ht
    obtain ⟨loc', hl, heq⟩ := ht
    obtain ⟨hs, h1, h2⟩ := hstr loc' (mem_of_getElem? hl)
    have hstart : starts[l]? = some loc'.1 := by rw [hstarts, getElem?_map, hl]; rfl
    have hp : pointerAt (pushWords m e vs) array i = loc'.1 :=
      pointerAt_pushWords (by omega) haddr (hpointer (hptr.trans hstart)) (by omega)
    have hshort : (unquote loc'.2).length ≤ loc'.2.length := length_filter_le ..
    rw [hp, ← heq]
    exact ⟨hagree.strAt hs (.inr (by omega)), h1, by omega⟩
  have hnull : ∀ {array i j : ℕ}, array + 4 * i = e - 4 * j → (pushedPointers starts k)[j]? = some 0 →
      pointerAt (pushWords m e vs) array i = 0 := fun haddr hv =>
    pointerAt_pushWords (by omega) haddr (hpointer hv) (by omega)
  refine ⟨?_, ⟨fun i t ht => ?_, ?_⟩, ⟨fun i t ht => ?_, ?_⟩, ?_⟩
  · rw [hargc]
    simp
  · rw [getElem?_map, getElem?_drop, Option.map_eq_some_iff] at ht
    obtain ⟨t0, ht0, rfl⟩ := ht
    have hlt := (List.getElem?_eq_some_iff.1 ht0).1
    rw [length_map] at hlt
    refine hword (j := locs.length + 1 - i) ?_ ?_ ht0
    · omega
    rw [← hn]
    exact pushedPointers_arg (by omega)
  · refine hnull ?_ (pushedPointers_argEnd (by omega))
    simp
    omega
  · rw [getElem?_map, Option.map_eq_some_iff] at ht
    obtain ⟨t0, ht0, rfl⟩ := ht
    have hlt := (List.getElem?_eq_some_iff.1 ht0).1
    simp only [length_reverse, length_take, length_map] at hlt
    rw [getElem?_reverse (by simp; omega)] at ht0
    simp only [length_take, length_map] at ht0
    rw [getElem?_take_of_lt (by omega)] at ht0
    refine hword (j := k - i) ?_ ?_ ht0
    · omega
    · rw [pushedPointers_env (by omega) (by omega), Nat.min_eq_left hk.le]
  · refine hnull (j := 0) ?_ rfl
    simp
    omega
  · simp
    omega

/-! ## What the kernel leaves -/

/-- The words of a line on the stack. When the line ends within the last one, a zero behind its NUL stops the search. -/
theorem resolve_words (m : Mem) (base : ℕ) {command : CString} (hcount : command.words.length ≤ 128)
    (hsmall : command.bytes.length + 1 < addressSpace)
    (hlast : (tokensOf command.bytes).isSome ∨ m (base + command.bytes.length + 1) = 0) :
    ∃ (locs : List (ℕ × List UInt8)) (m2 : Mem), locs.map Prod.snd = command.words ∧ StrAt
      (m.store base (command.bytes ++ [0])) base command.bytes ∧
      findTokens (m.store base (command.bytes ++ [0])) addressSpace base [] =
        .ok (locs.map fun loc => (loc.1, loc.1 + loc.2.length)) ∧
      (∀ loc ∈ locs, base ≤ loc.1 ∧ loc.1 + loc.2.length ≤ base + command.bytes.length) ∧
      simplifyTokens (m.store base (command.bytes ++ [0]))
        (locs.map fun loc => (loc.1, loc.1 + loc.2.length)) = .ok m2 ∧
      (∀ loc ∈ locs, StrAt m2 loc.1 (unquote loc.2)) ∧
      executableIndex m2 (locs.map Prod.fst) = .ok (programIndex command.words) := by
  have hstored := textAt_append.1 (textAt_store m base (command.bytes ++ [0]))
  have hstr : StrAt (m.store base (command.bytes ++ [0])) base command.bytes :=
    ⟨command.nul_free, hstored.1, hstored.2.1⟩
  obtain ⟨locs, (hwords : _ = command.words), hlocated, hbefore, -, hcase⟩ :=
    findTokens_words addressSpace [] hstr (Nat.lt_succ_self _) (by omega) (by omega)
  rw [← hwords, length_map] at hcount
  have hfind : findTokens (m.store base (command.bytes ++ [0])) addressSpace base [] =
      .ok (locs.map fun loc => (loc.1, loc.1 + loc.2.length)) := by
    rcases hcase with ⟨-, -, hfind⟩ | ⟨hnone, -, hfind⟩
    · exact hfind (by simpa using hcount)
    obtain ⟨k, hk⟩ := hfind (by simpa using hcount)
    have hzero : m (base + command.bytes.length + 1) = 0 := hlast.resolve_left fun hc => by
      rw [tokensOf, locateTokens_snd _ 0 base, hnone] at hc
      cases hc
    rw [hk, findTokens, agree_store m base (command.bytes ++ [0]) _ (.inr (by simp; omega)), if_pos hzero, nil_append]
  obtain ⟨m2, hm2, hstrs, -⟩ := simplifyTokens_eq hlocated hbefore (by omega)
  have hexec := executableIndex_eq hstrs fun loc hl => by
    have := (hlocated loc hl).lt_hi
    have := (hlocated loc hl).lo_le
    omega
  rw [hwords] at hexec
  exact ⟨locs, m2, hwords, hstr, hfind,
    fun loc hl => ⟨(hlocated loc hl).lo_le, Nat.le_of_lt_succ (hlocated loc hl).lt_hi⟩, hm2, hstrs, hexec⟩

theorem length_words_le (command : CString) (hlen : command.bytes.length ≤ 255) : command.words.length ≤ 128 := by
  have hstored := textAt_append.1 (textAt_store (fun _ => 0) 0 (command.bytes ++ [0]))
  obtain ⟨locs, (hwords : _ = command.words), -, -, hroom, -⟩ := findTokens_words addressSpace []
    ⟨command.nul_free, hstored.1, hstored.2.1⟩ (Nat.lt_succ_self _) (by unfold addressSpace; omega)
    (by unfold addressSpace; omega)
  rw [← hwords, length_map]
  omega

/-- A call that returns found a program among the words. -/
theorem programIndex_lt {m : Mem} {top : ℕ} {command : CString} (hlen : command.bytes.length ≤ 255)
    (hlast : (tokensOf command.bytes).isSome ∨ m top = 0) (htop : 256 ≤ top) {r : Mem × ℕ × ℕ}
    (hr : resolveCommands m top command = .ok r) : programIndex command.words < command.words.length := by
  obtain ⟨locs, m2, hwords, hstr, hfind, -, hm2, -, hexec⟩ :=
    resolve_words m (top - (command.bytes.length + 1)) (length_words_le command hlen) (by unfold addressSpace; omega)
      (by rwa [show top - (command.bytes.length + 1) + command.bytes.length + 1 = top by omega])
  unfold resolveCommands at hr
  rw [if_neg (not_not.2 hstr.2.2), hfind] at hr
  obtain ⟨_, htokens, hr⟩ := bind_eq_ok hr
  cases htokens
  rw [hm2] at hr
  obtain ⟨_, hm, hr⟩ := bind_eq_ok hr
  cases hm
  rw [map_map, show Prod.fst ∘ (fun loc : ℕ × List UInt8 => (loc.1, loc.1 + loc.2.length)) = Prod.fst from rfl] at hr
  dsimp only at hr
  rw [hexec] at hr
  obtain ⟨_, hk, hr⟩ := bind_eq_ok hr
  cases hk
  by_contra hnone
  rw [getElem?_eq_none (by rw [length_map, ← length_map (f := Prod.snd), hwords]; omega)] at hr
  cases hr

theorem resolveCommands_frame (m : Mem) (top : ℕ) {command : CString} (hcount : command.words.length ≤ 128)
    (hlast : (tokensOf command.bytes).isSome ∨ m top = 0) (hk : programIndex command.words < command.words.length)
    (hfit : command.bytes.length + 4 * command.words.length + 32 ≤ top) (htop : top ≤ 2 ^ 32) :
    ∃ m' esp program, resolveCommands m top command = .ok (m', esp, program) ∧
      CallFrame m' (top - (command.bytes.length + 1)) top esp
        ((command.words.drop (programIndex command.words)).map unquote)
        ((command.words.take (programIndex command.words)).reverse.map unquote) := by
  obtain ⟨locs, m2, hwordsEq, hstr, hfind, hlocated, hm2, hwords, hexec⟩ :=
    resolve_words m (top - (command.bytes.length + 1)) hcount (by unfold addressSpace; omega)
      (by rwa [show top - (command.bytes.length + 1) + command.bytes.length + 1 = top by omega])
  rw [← hwordsEq] at hcount hk hfit hexec ⊢
  set length := command.bytes.length with hlength
  set base := top - (length + 1) with hbase
  rw [length_map] at hcount hk hfit
  set k := programIndex (locs.map Prod.snd) with hkdef
  set m1 := m.store base (command.bytes ++ [0]) with hm1
  have hnul : m1 (base + length) = 0 := hstr.2.2
  have hstarts : (locs.map fun loc => (loc.1, loc.1 + loc.2.length)).map Prod.fst = locs.map Prod.fst := by
    rw [map_map]
    rfl
  obtain ⟨program, hprogram⟩ : ∃ program, (locs.map Prod.fst)[k]? = some program :=
    ⟨_, getElem?_eq_getElem (by rw [length_map]; exact hk)⟩
  have hframe := callFrame_of_words (e := base / 4 * 4 - 4) base top locs
    (fun loc hl => ⟨hwords loc hl, (hlocated loc hl).1, by
      have := (hlocated loc hl).2
      omega⟩) htop (by omega) (by omega) hk (by omega)
  have hplen : (pushedPointers (locs.map Prod.fst) k).length = locs.length + 2 := by
    rw [length_pushedPointers (by rw [length_map]; omega), length_map]
  have hesp : (base / 4 * 4 - 4 - 4 * (locs.length + 2) - 8) % 2 = 0 := by omega
  refine ⟨_, _, program, ?_, hframe⟩
  rw [resolveCommands]
  rw [← hlength, ← hbase, ← hm1, if_neg (not_not.2 hnul), hfind]
  change (simplifyTokens m1 _ >>= _) = _
  rw [hm2]
  change (executableIndex m2 _ >>= _) = _
  rw [hstarts, hexec]
  simp only [bind, Except.bind, hprogram]
  change (if (base / 4 * 4 - 4 - 4 * (pushedPointers (locs.map Prod.fst) k).length - 8) % 2 ≠ 0 then _
    else Except.ok (pushWords (pushWords m2 (base / 4 * 4 - 4) (pushedPointers (locs.map Prod.fst) k))
      (base / 4 * 4 - 4 - 4 * (pushedPointers (locs.map Prod.fst) k).length)
      [base / 4 * 4 - 4 - 4 * (pushedPointers (locs.map Prod.fst) k).length + 4, (locs.map Prod.fst).length - k],
      base / 4 * 4 - 4 - 4 * (pushedPointers (locs.map Prod.fst) k).length - 8, program)) = _
  rw [← pushWords_append, hplen, length_map, if_neg (not_not.2 hesp)]

/-- **The kernel and `_start` agree on the stack of a new program.** -/
theorem stack_agrees (m : Mem) (top : ℕ) (command : CString) (ts : List (List UInt8))
    (h : tokensOf command.bytes = some ts) (hcount : ts.length ≤ 128) (hprogram : ∃ t ∈ ts, equalsSign ∉ t)
    (hfit : command.bytes.length + 4 * ts.length + 32 ≤ top) (htop : top ≤ 2 ^ 32) :
    ∃ m' esp program, resolveCommands m top command = .ok (m', esp, program) ∧
      CallFrame m' (top - (command.bytes.length + 1)) top esp ((ts.drop (programIndex ts)).map unquote)
        ((ts.take (programIndex ts)).reverse.map unquote) := by
  have hk : programIndex ts < ts.length := by
    obtain ⟨t, ht, hne⟩ := hprogram
    exact findIdx_lt_length_of_exists ⟨t, ht, decide_eq_true hne⟩
  obtain rfl := words_of_tokensOf h
  exact resolveCommands_frame m top hcount (.inl (by rw [h]; rfl)) hk hfit htop

def smallCommand : CString :=
  ⟨[65, 61, 39, 98, 32, 99, 39, 32, 120, 32, 34, 121, 32, 122, 34, 32], by decide⟩

theorem stack_agrees_small : tokensOf smallCommand.bytes = some [[65, 61, 39, 98, 32, 99], [120], [34, 121, 32, 122]] ∧
      ∃ m' esp program, resolveCommands (fun _ => 0) 0x9ffffff0 smallCommand = .ok (m', esp, program) ∧
        CallFrame m' 0x9fffffdf 0x9ffffff0 esp [[120], [121, 32, 122]] [[65, 61, 98, 32, 99]] :=
  ⟨by decide, stack_agrees (fun _ => 0) 0x9ffffff0 smallCommand
    [[65, 61, 39, 98, 32, 99], [120], [34, 121, 32, 122]] (by decide) (by decide) ⟨[120], by decide, by decide⟩
    (by decide) (by decide)⟩

end ZeldaOS
