import ZeldaOS.Vfs.Path

/-!
# The input of the shell

The main loop of `application/shell/hyrule_castle.c`, from the results of `read` to `exec_command_line`.

* `shell_lines`: the lines that are typed are handed over.
-/

namespace ZeldaOS

open List

def maxCommandLineBufferLength : ℕ := 128

def newline : UInt8 := 10

def carriageReturn : UInt8 := 13

structure OneshotBuff where
  bytes : List UInt8
  length_pos : 0 < bytes.length
  length_le : bytes.length ≤ 31

/-! ## The loop -/

/-- The loop over `oneshot_buff`: the first `iptr` bytes of the line, and `terminate`. -/
def fillLine (line : List UInt8) : List UInt8 → List UInt8 × Bool
  | [] => (line, false)
  | b :: bs =>
    if b = newline then (line, true)
    else if line.length + 1 = maxCommandLineBufferLength then (line, false)
    else fillLine (line ++ [b]) bs

/-- `command_line_buffer`: zeros behind the line, and a NUL for the first carriage return. -/
def commandLineBuffer (line : List UInt8) : List UInt8 :=
  (line ++ replicate (maxCommandLineBufferLength - line.length) 0).replace carriageReturn 0

/-- A round of the inner loop: the line behind it, and the buffer handed to `exec_command_line`, if any. -/
def shellRead (line bs : List UInt8) : List UInt8 × List (List UInt8) :=
  let (line, terminate) := fillLine line bs
  if terminate ∨ maxCommandLineBufferLength ≤ line.length then ([], [commandLineBuffer line]) else (line, [])

/-- The buffers for the results of `read`, with `none` for `-ERR_INTERRUPTED`. -/
def shellLoop (line : List UInt8) : List (Option OneshotBuff) → List (List UInt8)
  | [] => []
  | none :: reads => shellLoop line reads
  | some buff :: reads => (shellRead line buff.bytes).2 ++ shellLoop (shellRead line buff.bytes).1 reads

/-! ## Lines -/

def typed (reads : List (Option OneshotBuff)) : List UInt8 := reads.flatMap fun read => read.elim [] OneshotBuff.bytes

/-- The text before each newline, cut to 127 bytes and at its first carriage return. -/
def commandLines (stream : List UInt8) : List CString :=
  (stream.splitOn newline).dropLast.map fun text => .ofBytes ((text.take 127).takeWhile (· ≠ carriageReturn))

/-- A newline is the last byte of its read, and the line has room for what comes before it. -/
def SafeReads (line : List UInt8) : List (Option OneshotBuff) → Prop
  | [] => True
  | none :: reads => SafeReads line reads
  | some buff :: reads => (newline ∈ buff.bytes → newline ∉ buff.bytes.dropLast ∧
      line.length + buff.bytes.length ≤ maxCommandLineBufferLength) ∧ SafeReads (shellRead line buff.bytes).1 reads

variable {line text bs : List UInt8} {reads : List (Option OneshotBuff)}

theorem take_take_append (n : ℕ) (text bs : List UInt8) : (text.take n ++ bs).take n = (text ++ bs).take n := by
  rw [take_append, take_append, take_take, min_self, length_take]
  congr 2
  omega

theorem fillLine_append (h : newline ∉ bs) (hline : line.length ≤ 127) (rest : List UInt8) :
    fillLine line (bs ++ rest) =
      if line.length + bs.length ≤ 127 then fillLine (line ++ bs) rest else ((line ++ bs).take 127, false) := by
  induction bs generalizing line with
  | nil => exact (append_nil line).symm ▸ (if_pos hline).symm
  | cons b bs ih =>
    obtain ⟨hb, hbs⟩ := not_or.1 (mt mem_cons.2 h)
    rw [cons_append, fillLine, if_neg (Ne.symm hb), length_cons]
    by_cases hfull : line.length = 127
    · refine (if_pos (congrArg (· + 1) hfull)).trans ?_
      rw [if_neg (by omega), take_left' hfull]
    · have hlt : line.length + 1 ≠ 128 := by omega
      refine (if_neg hlt).trans ?_
      rw [ih hbs (by rw [length_append, length_singleton]; omega), append_assoc, length_append, length_singleton,
        Nat.add_right_comm, Nat.add_assoc]
      rfl

theorem ofBytes_commandLineBuffer (line : List UInt8) :
    CString.ofBytes (commandLineBuffer line) = .ofBytes (line.takeWhile (· ≠ carriageReturn)) := by
  rw [commandLineBuffer]
  generalize maxCommandLineBufferLength - line.length = k
  rw [CString.ofBytes, CString.ofBytes, CString.mk.injEq]
  induction line with
  | nil =>
    cases k with
    | zero => rfl
    | succ k => rfl
  | cons b bs ih =>
    by_cases hb : b = carriageReturn
    · subst hb
      rfl
    · have hreplace : (b :: bs ++ replicate k 0).replace carriageReturn 0 =
          b :: (bs ++ replicate k 0).replace carriageReturn 0 := by
        rw [cons_append, replace_cons, beq_false_of_ne (Ne.symm hb)]
      rw [hreplace, takeWhile_cons_of_pos (p := (· ≠ carriageReturn)) (decide_eq_true hb), takeWhile_cons,
        takeWhile_cons, ih]

theorem shellRead_of_not_mem (h : newline ∉ bs) (text : List UInt8) :
    shellRead (text.take 127) bs = ((text ++ bs).take 127, []) := by
  have hle : ((text ++ bs).take 127).length < maxCommandLineBufferLength := Nat.lt_succ_of_le (length_take_le _ _)
  have hfill : fillLine (text.take 127) bs = ((text ++ bs).take 127, false) := by
    have happend := fillLine_append h (length_take_le 127 text) []
    rw [append_nil, take_take_append] at happend
    refine happend.trans (ite_eq_right_iff.2 fun hroom => ?_)
    rw [fillLine, ← take_take_append, take_of_length_le (length_append.trans_le hroom)]
  rw [shellRead, hfill]
  exact if_neg fun hc => hc.elim Bool.false_ne_true hle.not_ge

theorem shellRead_newline (h : newline ∉ bs) (hroom : (text.take 127).length + bs.length ≤ 127) :
    shellRead (text.take 127) (bs ++ [newline]) = ([], [commandLineBuffer ((text ++ bs).take 127)]) := by
  rw [shellRead, fillLine_append h (length_take_le _ _), if_pos hroom, ← take_take_append,
    take_of_length_le (length_append.trans_le hroom)]
  exact if_pos (Or.inl rfl)

theorem shellLoop_eq (text : List UInt8) (h : SafeReads (text.take 127) reads) (htext : newline ∉ text) :
    shellLoop (text.take 127) reads =
      ((text ++ typed reads).splitOn newline).dropLast.map fun text => commandLineBuffer (text.take 127) := by
  -- the line is the first 127 bytes of the text since the last newline
  induction reads generalizing text with
  | nil =>
    rw [typed, flatMap_nil, append_nil, splitOn_of_not_mem htext]
    rfl
  | cons read reads ih =>
    cases read with
    | none => exact ih text h htext
    | some buff =>
      obtain ⟨hsafe, hrest⟩ := h
      have htyped : typed (some buff :: reads) = buff.bytes ++ typed reads := rfl
      rw [shellLoop, htyped]
      by_cases hmem : newline ∈ buff.bytes
      · obtain ⟨hlast, hroom⟩ := hsafe hmem
        have hbytes := (dropLast_append_getLast (ne_nil_of_mem hmem)).symm
        generalize buff.bytes.dropLast = bs at hbytes hlast
        rw [hbytes] at hmem
        have hnewline : newline = buff.bytes.getLast _ := mem_singleton.1 ((mem_append.1 hmem).resolve_left hlast)
        rw [← hnewline] at hbytes
        rw [hbytes, length_append, length_singleton] at hroom
        have hread := shellRead_newline hlast (Nat.le_of_succ_le_succ hroom)
        rw [hbytes, hread] at hrest ⊢
        have hne : (typed reads).splitOn newline ≠ [] := splitOnP_ne_nil _ _
        rw [append_assoc bs, singleton_append, singleton_append, ← append_assoc, splitOn_append_cons_self,
          splitOn_of_not_mem fun hc => (mem_append.1 hc).elim htext hlast, singleton_append,
          dropLast_cons_of_ne_nil hne, map_cons]
        exact congrArg (_ :: ·) (ih [] hrest not_mem_nil)
      · have hread := shellRead_of_not_mem hmem text
        rw [hread] at hrest ⊢
        rw [← append_assoc]
        exact ih _ hrest fun hc => (mem_append.1 hc).elim htext hmem

/-- **In every run in which a newline ends its read and finds room, the shell hands over the lines that were typed**,
however they were split into reads. -/
theorem shell_lines (reads : List (Option OneshotBuff)) (h : SafeReads [] reads) :
    (shellLoop [] reads).map CString.ofBytes = commandLines (typed reads) ∧
      ∀ reads', SafeReads [] reads' → typed reads' = typed reads → shellLoop [] reads' = shellLoop [] reads := by
  have hlines := shellLoop_eq [] h not_mem_nil
  refine ⟨?_, fun reads' h' heq => ?_⟩
  · rw [take_nil] at hlines
    rw [hlines, map_map, commandLines]
    exact map_congr_left fun text _ => ofBytes_commandLineBuffer _
  · have hlines' := shellLoop_eq [] h' not_mem_nil
    rw [heq] at hlines'
    exact hlines'.trans hlines.symm

/-- The line `ls`, a carriage return and a newline in one read. -/
def wholeLine : List (Option OneshotBuff) := [some ⟨[108, 115, carriageReturn, newline], by decide, by decide⟩]

/-- The same bytes in three reads, with an interrupted one between them. -/
def splitLine : List (Option OneshotBuff) :=
  [some ⟨[108], by decide, by decide⟩, none, some ⟨[115, carriageReturn], by decide, by decide⟩,
    some ⟨[newline], by decide, by decide⟩]

theorem shell_lines_split : SafeReads [] wholeLine ∧ SafeReads [] splitLine ∧
      (shellLoop [] wholeLine).map CString.ofBytes = [⟨[108, 115], by decide⟩] ∧
      shellLoop [] splitLine = shellLoop [] wholeLine := by
  have hwhole : SafeReads [] wholeLine := ⟨fun _ => by decide, trivial⟩
  have hsplit : SafeReads [] splitLine :=
    ⟨fun hc => absurd hc (by decide), fun hc => absurd hc (by decide), fun _ => by decide, trivial⟩
  obtain ⟨hlines, hsame⟩ := shell_lines wholeLine hwhole
  exact ⟨hwhole, hsplit, hlines, hsame splitLine hsplit rfl⟩

def pastedLines : List (Option OneshotBuff) := [some ⟨[97, newline, 98, newline], by decide, by decide⟩]

/-- Two lines in one read: the second is lost. -/
theorem pasted_line_lost : (shellLoop [] pastedLines).map CString.ofBytes ≠ commandLines (typed pastedLines) := by
  decide

end ZeldaOS
