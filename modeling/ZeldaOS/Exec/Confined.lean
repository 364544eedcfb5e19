import ZeldaOS.Exec.Stack
import ZeldaOS.Machine.Runs

/-!
# Which command lines are tokenised in place

`resolve_commands` on any command line of at most 255 bytes, and `exec_command_line` of the runtime.

* `tokenises_inside_iff`: the lines that are tokenised in place.
* `keeps_tables_iff`: the lines for which the tables of the runtime suffice.
-/

namespace ZeldaOS

open Machine List Function

/-! ## The kernel -/

/-- `resolve_commands` returns, and no word that it finds ends at the NUL of the copied line. -/
def TokenisesInside (command : CString) : Prop :=
  ∀ (m : Mem) (top : ℕ), 1024 ≤ top → top ≤ 2 ^ 32 → (∃ r, resolveCommands m top command = .ok r) ∧
    ∃ tokens, findTokens (m.store (top - (command.bytes.length + 1)) (command.bytes ++ [0])) addressSpace
        (top - (command.bytes.length + 1)) [] = .ok tokens ∧ ∀ t ∈ tokens, t.2 + 1 < top

variable {m : Mem} {p n fuel : ℕ} {bs : List UInt8} {locs : List (ℕ × List UInt8)} {stack tokens : List (ℕ × ℕ)}

theorem findTokens_extends (h : findTokens m fuel p stack = .ok tokens) : stack <+: tokens := by
  induction fuel generalizing p stack with
  | zero => cases h
  | succ fuel ih =>
    rw [findTokens] at h
    by_cases hp : m p = 0
    · rw [if_pos hp] at h
      cases h
      exact prefix_rfl
    rw [if_neg hp] at h
    obtain ⟨start, -, h⟩ := bind_eq_ok h
    by_cases hs : m start = 0
    · rw [if_pos hs] at h
      cases h
      exact prefix_rfl
    rw [if_neg hs] at h
    obtain ⟨endPtr, -, h⟩ := bind_eq_ok h
    by_cases hroom : stack.length < 128
    · rw [if_pos hroom] at h
      exact (prefix_append stack _).trans (ih h)
    rw [if_neg hroom] at h
    cases h

/-- **A command line is tokenised in place if and only if each word ends before its NUL and one has no `=`.** -/
theorem tokenises_inside_iff (command : CString) (hlen : command.bytes.length ≤ 255) :
    TokenisesInside command ↔ ∃ ts, tokensOf command.bytes = some ts ∧ ∃ t ∈ ts, equalsSign ∉ t := by
  have hsmall : command.bytes.length + 1 < addressSpace := by unfold addressSpace; omega
  have hroom := length_words_le command hlen
  -- the search on the copied line, as far as the words go
  have hwords : ∀ (m : Mem) top, _ := fun m top =>
    have hstored := textAt_append.1 (textAt_store m (top - (command.bytes.length + 1)) (command.bytes ++ [0]))
    findTokens_words addressSpace [] ⟨command.nul_free, hstored.1, hstored.2.1⟩ (Nat.lt_succ_self _)
      (Nat.le_of_lt hsmall) (Nat.lt_of_succ_lt hsmall)
  refine ⟨fun h => ?_, fun ⟨ts, hts, t, ht, hprogram⟩ m top hlow htop => ?_⟩
  · obtain ⟨⟨r, hr⟩, tokens, hfind, hends⟩ := h (fun _ => 0) 1024 le_rfl (by decide)
    obtain ⟨locs, (heq : _ = command.words), -, -, -, ⟨hsome, -⟩ | ⟨-, ⟨loc, hloc, hend⟩, hlast⟩⟩ :=
      hwords (fun _ => 0) 1024
    · have hts : tokensOf command.bytes = some command.words := by
        rw [tokensOf, locateTokens_snd _ 0 (1024 - (command.bytes.length + 1)), hsome, Option.map_some, heq]
      have hk := programIndex_lt hlen (.inr rfl) (by decide) hr
      exact ⟨_, hts, _, getElem_mem hk, of_decide_eq_true (findIdx_getElem (w := hk))⟩
    · rw [← heq, length_map] at hroom
      obtain ⟨k, hk⟩ := hlast (by rw [length_nil]; omega)
      have := hends _ ((findTokens_extends (hk.symm.trans hfind)).subset (mem_map_of_mem hloc))
      dsimp only at this
      omega
  · obtain rfl := words_of_tokensOf hts
    have hk : programIndex command.words < command.words.length :=
      findIdx_lt_length_of_exists ⟨t, ht, decide_eq_true hprogram⟩
    obtain ⟨m', esp, program, hr, -⟩ :=
      resolveCommands_frame m top hroom (.inl (by rw [hts]; rfl)) hk (by omega) htop
    obtain ⟨locs, (heq : _ = command.words), -, -, -, ⟨-, hends, hfind⟩ | ⟨hnone, -⟩⟩ := hwords m top
    · rw [← heq, length_map] at hroom
      refine ⟨⟨_, hr⟩, _, hfind (by rw [length_nil]; omega), fun t ht => ?_⟩
      obtain ⟨loc, hloc, rfl⟩ := mem_map.1 (nil_append _ ▸ ht)
      have := hends loc hloc
      dsimp only
      omega
    · rw [tokensOf, locateTokens_snd _ 0 (top - (command.bytes.length + 1)), hnone] at hts
      cases hts

theorem tokenises_inside_iff_small : smallCommand.bytes.length ≤ 255 ∧ (TokenisesInside smallCommand ↔
    ∃ ts, tokensOf smallCommand.bytes = some ts ∧ ∃ t ∈ ts, equalsSign ∉ t) :=
  ⟨by decide, tokenises_inside_iff smallCommand (by decide)⟩

theorem last_word_overruns : ¬TokenisesInside ⟨[120], by decide⟩ := by
  intro h
  obtain ⟨-, tokens, hfind, hends⟩ := h (fun _ => 0) 1024 le_rfl (by decide)
  have htokens : (findTokens (Mem.store (fun _ => 0) 1022 [120, 0]) addressSpace 1022 []).toOption =
      some [(1022, 1023)] := by decide +kernel
  have heq : tokens = [(1022, 1023)] := Option.some.inj ((congrArg Except.toOption hfind).symm.trans htokens)
  exact absurd (hends (1022, 1023) (heq ▸ mem_singleton.2 rfl)) (by decide)

/-! ## The runtime -/

/-- The bounds of the tables of `exec_command_line`. -/
def maxSegments : ℕ := 63
@[inherit_doc maxSegments] def maxArgs : ℕ := 31
@[inherit_doc maxSegments] def maxEnvs : ℕ := 31

/-- A loop that stores pointers from `idx_tmp` on; the last index of the table is `max`. -/
def fillTable (max : ℕ) : (idxTmp : ℕ) → List ℕ → (ℕ → ℕ) → Except ExecFault (ℕ → ℕ)
  | _, [], table => .ok table
  | idxTmp, ptr :: ptrs, table =>
    if idxTmp ≤ max then fillTable max (idxTmp + 1) ptrs (update table idxTmp ptr) else .error .outOfBounds

structure UserCall where
  startStack : List ℕ
  executableIndex : ℕ
  argv : ℕ → ℕ
  envp : ℕ → ℕ

/-- `exec_command_line`; `none` when it returns -1. Its loops over the text are those of `resolve_commands`. -/
def execCommandLine (m : Mem) (buff : ℕ) (commandLine : CString) : Except ExecFault (Option UserCall) := do
  let m := (m.store buff (replicate 256 0)).store buff (commandLine.bytes ++ [0])
  let tokens ← findTokens m addressSpace buff []
  if maxSegments + 1 < tokens.length then .error .outOfBounds else
    let m ← simplifyTokens m tokens
    let starts := tokens.map Prod.fst
    let k ← executableIndex m starts
    if k < starts.length then
      let envp ← fillTable maxEnvs 0 (starts.take k) fun _ => 0
      let argv ← fillTable maxArgs 0 (starts.drop k) fun _ => 0
      .ok (some ⟨starts, k, argv, envp⟩)
    else .ok none

/-- The table lists the pointers and ends with `NULL`, within its bound. -/
def ListsPointers (table : ℕ → ℕ) (max : ℕ) (ptrs : List ℕ) : Prop :=
  ptrs.length ≤ max ∧ (∀ i < ptrs.length, ptrs[i]? = some (table i)) ∧ table ptrs.length = 0

/-- No table is overrun, and the program gets its words in two terminated tables. -/
def KeepsTables (line : CString) : Prop :=
  ∀ (m : Mem) (buff : ℕ), ∃ r, execCommandLine m buff line = .ok r ∧ ∀ call, r = some call →
    ListsPointers call.argv maxArgs (call.startStack.drop call.executableIndex) ∧
      ListsPointers call.envp maxEnvs (call.startStack.take call.executableIndex)

theorem fillTable_eq (max : ℕ) (ptrs : List ℕ) (idxTmp : ℕ) (table : ℕ → ℕ) (h : idxTmp + ptrs.length ≤ max + 1) :
    fillTable max idxTmp ptrs table =
      .ok fun i => if i < idxTmp then table i else (ptrs[i - idxTmp]?).getD (table i) := by
  induction ptrs generalizing idxTmp table with
  | nil => simp [fillTable]
  | cons ptr ptrs ih =>
    rw [length_cons] at h
    rw [fillTable, if_pos (by omega), ih _ _ (by omega)]
    congr 1
    funext i
    rcases lt_trichotomy i idxTmp with hi | rfl | hi
    · rw [if_pos (by omega), if_pos hi, update_of_ne hi.ne]
    · simp
    obtain ⟨j, rfl⟩ : ∃ j, i = idxTmp + 1 + j := ⟨i - idxTmp - 1, by omega⟩
    rw [if_neg (by omega), if_neg (by omega), show idxTmp + 1 + j - idxTmp = j + 1 by omega, getElem?_cons_succ,
      Nat.add_sub_cancel_left, update_of_ne (by omega)]

theorem fillTable_lists (max : ℕ) (ptrs : List ℕ) (h : ptrs.length ≤ max) :
    ∃ table, fillTable max 0 ptrs (fun _ => 0) = .ok table ∧ ListsPointers table max ptrs := by
  refine ⟨_, fillTable_eq max ptrs 0 _ (by omega), h, fun i hi => ?_, ?_⟩
  · simp [getElem?_eq_getElem hi]
  · simp

theorem execCommandLine_eq (m : Mem) (buff : ℕ) {line : CString} (hlen : line.bytes.length ≤ 127) :
    ∃ starts : List ℕ, starts.length = line.words.length ∧ execCommandLine m buff line =
      if programIndex line.words < starts.length then do
        let envp ← fillTable maxEnvs 0 (starts.take (programIndex line.words)) fun _ => 0
        let argv ← fillTable maxArgs 0 (starts.drop (programIndex line.words)) fun _ => 0
        .ok (some ⟨starts, programIndex line.words, argv, envp⟩)
      else .ok none := by
  set m1 := (m.store buff (replicate 256 0)).store buff (line.bytes ++ [0]) with hm1
  have hstored := textAt_append.1 (textAt_store (m.store buff (replicate 256 0)) buff (line.bytes ++ [0]))
  have hbehind : m1 (buff + line.bytes.length + 1) = 0 := by
    rw [hm1, agree_store _ _ _ _ (.inr (by simp; omega)), Mem.store, if_pos (by omega),
      getElem?_replicate_of_lt (by omega)]
    rfl
  have hspace : 128 < addressSpace := by decide
  obtain ⟨locs, (hwords : _ = line.words), hlocated, hbefore, hcount, hcase⟩ :=
    findTokens_words (m := m1) addressSpace [] ⟨line.nul_free, hstored.1, hstored.2.1⟩ (Nat.lt_succ_self _) (by omega)
      (by omega)
  have hfind : findTokens m1 addressSpace buff [] = .ok (locs.map fun loc => (loc.1, loc.1 + loc.2.length)) := by
    rcases hcase with ⟨-, -, hfind⟩ | ⟨-, -, hfind⟩
    · exact hfind (by rw [length_nil]; omega)
    obtain ⟨k, hk⟩ := hfind (by rw [length_nil]; omega)
    rw [hk, findTokens, if_pos hbehind, nil_append]
  obtain ⟨m2, hm2, hstrs, -⟩ := simplifyTokens_eq hlocated hbefore (by omega)
  have hexec := executableIndex_eq hstrs fun loc hl => by
    have := (hlocated loc hl).lt_hi
    have := (hlocated loc hl).lo_le
    omega
  rw [hwords] at hexec
  refine ⟨locs.map Prod.fst, by rw [← hwords, length_map, length_map], ?_⟩
  rw [execCommandLine, hfind]
  refine (if_neg ?_).trans ?_
  · rw [length_map, maxSegments]
    omega
  rw [hm2, map_map]
  change (executableIndex m2 (locs.map Prod.fst) >>= _) = _
  rw [hexec]
  rfl

theorem KeepsTables.room {line : CString} (h : KeepsTables line) (hlen : line.bytes.length ≤ 127)
    (hprogram : programIndex line.words < line.words.length) :
    programIndex line.words ≤ maxEnvs ∧ line.words.length ≤ programIndex line.words + maxArgs := by
  obtain ⟨starts, hstarts, heq⟩ := execCommandLine_eq (fun _ => 0) 0 hlen
  obtain ⟨r, hr, hlists⟩ := h (fun _ => 0) 0
  rw [heq, if_pos (hstarts ▸ hprogram)] at hr
  obtain ⟨envp, -, hr⟩ := bind_eq_ok hr
  obtain ⟨argv, -, hr⟩ := bind_eq_ok hr
  cases hr
  obtain ⟨⟨hargs, -⟩, henvs, -⟩ := hlists _ rfl
  rw [length_drop] at hargs
  rw [length_take] at henvs
  dsimp only at hargs henvs
  omega

/-- **The runtime's parser keeps its tables exactly when there is no program, or at most 31 words before it and from it
on.** -/
theorem keeps_tables_iff (line : CString) (hlen : line.bytes.length ≤ 127) :
    KeepsTables line ↔ (programIndex line.words < line.words.length →
      programIndex line.words ≤ maxEnvs ∧ line.words.length ≤ programIndex line.words + maxArgs) := by
  refine ⟨fun h => h.room hlen, fun h m buff => ?_⟩
  obtain ⟨starts, hstarts, heq⟩ := execCommandLine_eq m buff hlen
  rw [heq]
  by_cases hprogram : programIndex line.words < starts.length
  · obtain ⟨henvs, hargs⟩ := h (hstarts ▸ hprogram)
    obtain ⟨envp, henvp, hlistsEnv⟩ := fillTable_lists maxEnvs (starts.take (programIndex line.words))
      (by rw [length_take]; omega)
    obtain ⟨argv, hargv, hlistsArg⟩ := fillTable_lists maxArgs (starts.drop (programIndex line.words))
      (by rw [length_drop]; omega)
    rw [if_pos hprogram, henvp, hargv]
    refine ⟨_, rfl, fun call hcall => ?_⟩
    cases hcall
    exact ⟨hlistsArg, hlistsEnv⟩
  · exact ⟨none, if_neg hprogram, fun call hcall => nomatch hcall⟩

theorem keeps_tables_iff_small : smallCommand.bytes.length ≤ 127 ∧ KeepsTables smallCommand :=
  ⟨by decide, (keeps_tables_iff smallCommand (by decide)).2 fun _ => by decide +kernel⟩

/-- 32 words `a`: the table of arguments has no room for its `NULL`. -/
theorem argv_unterminated : ¬KeepsTables ⟨(replicate 32 [97, blank]).flatten, by decide⟩ := by
  intro h
  exact absurd (h.room (by decide) (by decide +kernel)).2 (by decide +kernel)

end ZeldaOS
