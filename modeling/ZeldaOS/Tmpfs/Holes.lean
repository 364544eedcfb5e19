import ZeldaOS.Machine.Runs
import ZeldaOS.Tmpfs.File

/-!
# Files with holes

Runs of `tmpfs_write_file` on an empty file, with offsets behind the end, while `get_mem_block` succeeds.

* `holes_keep_bytes`: when a file with holes keeps its bytes.
-/

namespace ZeldaOS

open Machine List

structure FileWrite where
  offset : ℕ
  buffer : ℤ → UInt8
  size : ℕ

def writeStep (s : FileState) (op : FileWrite) : Except Fault FileState := do
  let (priv, supply, _) ← tmpfsWriteFile s.priv s.supply op.offset op.buffer op.size
  .ok ⟨priv, supply⟩

def recordWrite (written : ℕ → Option UInt8) (op : FileWrite) : ℕ → Option UInt8 := fun p =>
  if op.offset ≤ p ∧ p < op.offset + op.size then some (op.buffer (p - op.offset : ℕ)) else written p

def recordEnd (last : ℕ) (op : FileWrite) : ℕ := if 0 < op.size then max last (op.offset + op.size) else last

def lastWritten (ops : List FileWrite) : ℕ → Option UInt8 := ops.foldl recordWrite fun _ => none

def writtenEnd (ops : List FileWrite) : ℕ := ops.foldl recordEnd 0

/-- Reading at the position gives at least one byte, and the first is `v`. -/
def ReadsBack (s : FileState) (p : ℕ) (v : UInt8) : Prop :=
  ∀ buffer n, 0 < n → n < 2 ^ 31 →
    ∃ buffer' r, tmpfsReadFile s.priv p buffer (n : ℕ) = .ok (buffer', r) ∧ 0 < r ∧ buffer' 0 = v

/-- No byte behind the write is moved; behind the end, there is something to write. -/
def WriteSettled (s : FileState) (op : FileWrite) : Prop :=
  ∀ hdr, s.priv = some hdr → (op.offset < hdr.nrUsed → WriteSettles (hdr.blocks.map Block.nrUsed) op.offset op.size) ∧
      (hdr.nrUsed < op.offset → 0 < op.size)

theorem splice_getElem? (xs ys : List UInt8) {pos : ℕ} (hpos : pos ≤ xs.length) (p : ℕ) :
    (splice xs pos ys)[p]? = if pos ≤ p ∧ p < pos + ys.length then ys[p - pos]? else xs[p]? := by
  have htake : (xs.take pos).length = pos := length_take_of_le hpos
  rw [splice, append_assoc]
  split_ifs with h
  · rw [getElem?_append_right (by omega), htake, getElem?_append_left (by omega)]
  rcases Nat.lt_or_ge p pos with hlt | hge
  · rw [getElem?_append_left (by omega), getElem?_take_of_lt hlt]
  rw [getElem?_append_right (by omega), htake, getElem?_append_right (by omega), getElem?_drop]
  congr 1
  omega

structure HoldsWritten (s : FileState) (written : ℕ → Option UInt8) (last : ℕ) : Prop where
  file : ∃ hdr, s.priv = some hdr ∧ Bounded hdr.blocks ∧ Balanced hdr ∧ hdr.nrUsed = last ∧
    ∀ p v, written p = some v → (fileBytes hdr.blocks)[p]? = some v
  supply : ∀ i, s.supply i ≠ none
  small : last < 2 ^ 31

section
variable {s : FileState} {written : ℕ → Option UInt8} {last : ℕ}

/-- **One write that settles.** -/
theorem holdsWritten_step (h : HoldsWritten s written last) (op : FileWrite) (hop : op.offset + op.size < 2 ^ 31)
    (hsettled : WriteSettled s op) :
    ∃ s', writeStep s op = .ok s' ∧ HoldsWritten s' (recordWrite written op) (recordEnd last op) := by
  obtain ⟨⟨hdr, hpriv, hb, hbal, rfl, hbytes⟩, hσ, hsmall⟩ := h
  obtain ⟨hinside, hpast⟩ := hsettled hdr hpriv
  obtain ⟨blocks', σ', hole, hrun, hb', hσ', hhole, hbytes', -⟩ := write_splice op.buffer hb hbal hσ hop hinside
  have hlength := (length_fileBytes _).trans hbal.symm
  have hpos : op.offset ≤ (fileBytes hdr.blocks ++ hole).length := by
    rw [length_append, hlength, hhole]
    omega
  have hend : max (op.offset + op.size) hdr.nrUsed = recordEnd hdr.nrUsed op := by
    unfold recordEnd
    split_ifs <;> omega
  refine ⟨⟨some ⟨_, blocks'⟩, σ'⟩, ?_, ⟨_, rfl, hb', ?_, hend, fun p v hp => ?_⟩, hσ', by omega⟩
  · rw [writeStep, hpriv, hrun]
    rfl
  · change max (op.offset + op.size) hdr.nrUsed = usedSum blocks'
    rw [← length_fileBytes, hbytes', splice_length hpos, length_append, hlength, hhole, window_length]
    omega
  rw [recordWrite] at hp
  rw [hbytes', splice_getElem? _ _ hpos, window_length]
  split_ifs at hp ⊢ with hcovers
  · rw [← hp, window, getElem?_map, getElem?_range (by omega), Option.map_some, zero_add]
  obtain ⟨hlt, -⟩ := List.getElem?_eq_some_iff.1 (hbytes p v hp)
  rw [getElem?_append_left hlt, hbytes p v hp]

theorem holdsWritten_run (h : HoldsWritten s written last) (ops : List FileWrite)
    (hops : ∀ op ∈ ops, op.offset + op.size < 2 ^ 31) (hsettled : Along writeStep WriteSettled s ops) :
    ∃ s', runSteps writeStep s ops = .ok s' ∧
      HoldsWritten s' (ops.foldl recordWrite written) (ops.foldl recordEnd last) := by
  induction ops generalizing s written last with
  | nil => exact ⟨s, rfl, h⟩
  | cons op ops ih =>
    obtain ⟨hop, hrest⟩ := forall_mem_cons.1 hops
    rw [Along] at hsettled
    obtain ⟨s1, hstep, h1⟩ := holdsWritten_step h op hop hsettled.1
    rw [hstep] at hsettled
    rw [runSteps, hstep]
    exact ih h1 hrest hsettled.2

theorem HoldsWritten.readsBack (h : HoldsWritten s written last) {p : ℕ} {v : UInt8} (hp : written p = some v) :
    ReadsBack s p v := by
  intro buffer n hn hn'
  obtain ⟨⟨hdr, hpriv, hb, hbal, rfl, hbytes⟩, -, hsmall⟩ := h
  obtain ⟨hlt, hget⟩ := List.getElem?_eq_some_iff.1 (hbytes p v hp)
  have hlength := (length_fileBytes _).trans hbal.symm
  have hslice : ((fileBytes hdr.blocks).drop p).take n = v :: ((fileBytes hdr.blocks).drop (p + 1)).take (n - 1) := by
    obtain ⟨m, rfl⟩ := Nat.exists_eq_succ_of_ne_zero hn.ne'
    rw [drop_eq_getElem_cons hlt, hget]
    rfl
  have hlen : (((fileBytes hdr.blocks).drop p).take n).length < 2 ^ 31 := by
    rw [length_take, length_drop]
    omega
  have hread := memBlockRawRead_spec hb (by omega) hlen buffer
  rw [hslice] at hread
  have hcall : tmpfsReadFile s.priv p buffer n = memBlockRawRead hdr.blocks p buffer n := by
    rw [hpriv, tmpfsReadFile]
  refine ⟨_, _, hcall.trans hread, ?_, ?_⟩
  · rw [length_cons]
    omega
  rw [putBytes, length_cons, if_pos (by omega)]
  rfl

end

def emptyFile (σ : Supply) : FileState := ⟨some ⟨0, []⟩, σ⟩

/-- **A file with holes keeps its bytes**, as long as no write moves the bytes behind it or writes nothing behind the
end. -/
theorem holes_keep_bytes (σ : Supply) (hσ : ∀ i, σ i ≠ none) (ops : List FileWrite)
    (hops : ∀ op ∈ ops, op.offset + op.size < 2 ^ 31) (hsettled : Along writeStep WriteSettled (emptyFile σ) ops) :
    ∃ s, runSteps writeStep (emptyFile σ) ops = .ok s ∧ tmpfsFileSize s.priv = writtenEnd ops ∧
      ∀ p v, lastWritten ops p = some v → ReadsBack s p v := by
  have hempty : HoldsWritten (emptyFile σ) (fun _ => none) 0 :=
    ⟨⟨_, rfl, fun b hb => absurd hb not_mem_nil, rfl, rfl, fun p v h => nomatch h⟩, hσ, by norm_num⟩
  obtain ⟨s, hrun, h⟩ := holdsWritten_run hempty ops hops hsettled
  refine ⟨s, hrun, ?_, fun p v hp => h.readsBack hp⟩
  obtain ⟨hdr, hpriv, -, -, hused, -⟩ := h.file
  rw [hpriv]
  exact hused

def holeWrites : List FileWrite := [⟨0, fun _ => 1, 2⟩, ⟨4, fun _ => 2, 1⟩]

theorem holes_keep_bytes_hole : Along writeStep WriteSettled (emptyFile zeroBlocks) holeWrites ∧
      ∃ s, runSteps writeStep (emptyFile zeroBlocks) holeWrites = .ok s ∧ tmpfsFileSize s.priv = 5 ∧
        ReadsBack s 4 2 := by
  have hsupply : ∀ i, zeroBlocks i ≠ none := fun i => Option.some_ne_none _
  have hbound : ∀ op ∈ holeWrites, op.offset + op.size < 2 ^ 31 := by decide
  have hempty : HoldsWritten (emptyFile zeroBlocks) (fun _ => none) 0 :=
    ⟨⟨_, rfl, fun b hb => absurd hb not_mem_nil, rfl, rfl, fun p v h => nomatch h⟩, hsupply, by norm_num⟩
  have hfirst : WriteSettled (emptyFile zeroBlocks) ⟨0, fun _ => 1, 2⟩ := by
    rintro hdr h
    obtain rfl := Option.some.inj h
    exact ⟨fun h => absurd h (by decide), fun h => absurd h (by decide)⟩
  obtain ⟨s, hs, hinv⟩ := holdsWritten_step hempty _ (by decide) hfirst
  have hsecond : WriteSettled s ⟨4, fun _ => 2, 1⟩ := by
    intro hdr h
    obtain ⟨hdr', hpriv, -, -, hused, -⟩ := hinv.file
    obtain rfl := Option.some.inj (h.symm.trans hpriv)
    have htwo : hdr.nrUsed = 2 := hused
    exact ⟨fun hlt => absurd hlt (by rw [htwo]; decide), fun _ => by decide⟩
  have halong : Along writeStep WriteSettled (emptyFile zeroBlocks) holeWrites := by
    refine ⟨hfirst, ?_⟩
    rw [hs]
    refine ⟨hsecond, ?_⟩
    cases writeStep s ⟨4, fun _ => 2, 1⟩ with
    | error e => trivial
    | ok s' => trivial
  obtain ⟨s', hrun, hsize, hread⟩ := holes_keep_bytes zeroBlocks hsupply holeWrites hbound halong
  exact ⟨halong, s', hrun, hsize, hread 4 2 rfl⟩

def movingWrites : List FileWrite := [⟨0, fun _ => 1, 2⟩, ⟨4, fun _ => 2, 1⟩, ⟨1, fun _ => 3, 2⟩]

/-- **The third write moves the byte behind the hole.** -/
theorem hole_byte_moves : (∀ i, zeroBlocks i ≠ none) ∧ (∀ op ∈ movingWrites, op.offset + op.size < 2 ^ 31) ∧
      lastWritten movingWrites 4 = some 2 ∧ ¬ ∃ s, runSteps writeStep (emptyFile zeroBlocks) movingWrites = .ok s ∧
        tmpfsFileSize s.priv = writtenEnd movingWrites ∧
        ∀ p v, lastWritten movingWrites p = some v → ReadsBack s p v := by
  have hread : (runSteps writeStep (emptyFile zeroBlocks) movingWrites >>= fun s =>
      tmpfsReadFile s.priv 4 (fun _ => 9) 1 >>= fun r => .ok (r.1 0)) = .ok 0 := rfl
  refine ⟨fun i => Option.some_ne_none _, by decide, rfl, ?_⟩
  rintro ⟨s, hrun, -, hkept⟩
  obtain ⟨buffer', r, hcall, -, hvalue⟩ := hkept 4 2 rfl (fun _ => 9) 1 one_pos (by norm_num)
  obtain ⟨s', hrun', hread'⟩ := bind_eq_ok hread
  obtain rfl := Except.ok.inj (hrun.symm.trans hrun')
  obtain ⟨out, hcall', hbyte⟩ := bind_eq_ok hread'
  obtain rfl := Except.ok.inj (hcall.symm.trans hcall')
  have hzero : buffer' 0 = 0 := Except.ok.inj hbyte
  exact absurd (hvalue.symm.trans hzero) (by decide)

end ZeldaOS
