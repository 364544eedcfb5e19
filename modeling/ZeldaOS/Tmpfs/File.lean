import ZeldaOS.Tmpfs.Books

/-!
# A tmpfs file is a byte array

Runs of writes inside or at the end of the file, truncations and reads, when every allocation succeeds.

* `file_refines`: a file is a byte array.
-/

namespace ZeldaOS

open Machine List

/-! ## Runs -/

inductive FileOp where
  | write (offset : ℕ) (buffer : ℤ → UInt8) (size : ℕ)
  | truncate (size : ℕ)
  | read (offset : ℕ) (buffer : ℤ → UInt8) (size : ℕ)

/-- What a call returns; a read also returns the bytes it left in the buffer. -/
inductive FileOut where
  | wrote (result : ℤ)
  | truncated (result : ℤ)
  | data (result : ℤ) (bytes : List UInt8)

/-- No holes, and sizes below `2 ^ 31`. -/
def FileOp.Allowed (length : ℕ) : FileOp → Prop
  | .write offset _ size => offset ≤ length ∧ offset + size < 2 ^ 31
  | .truncate size => size ≤ length
  | .read offset _ size => offset < 2 ^ 31 ∧ size < 2 ^ 31

instance FileOp.decidableAllowed (length : ℕ) : (op : FileOp) → Decidable (op.Allowed length)
  | .write _ _ _ => inferInstanceAs (Decidable (_ ∧ _))
  | .truncate _ => inferInstanceAs (Decidable (_ ≤ _))
  | .read _ _ _ => inferInstanceAs (Decidable (_ ∧ _))

structure FileState where
  priv : Option MemBlockHdr
  supply : Supply

def FileState.step (s : FileState) (op : FileOp) : Except Fault (FileState × List FileOut) :=
  if op.Allowed (tmpfsFileSize s.priv) then
    match op with
    | .write offset buffer size => do
      let (priv, supply, result) ← tmpfsWriteFile s.priv s.supply offset buffer size
      .ok (⟨priv, supply⟩, [.wrote result])
    | .truncate size => do
      let (priv, supply, result) ← tmpfsFileTruncate s.priv s.supply size
      .ok (⟨priv, supply⟩, [.truncated result])
    | .read offset buffer size => do
      let (buffer', result) ← tmpfsReadFile s.priv offset buffer size
      .ok (s, [.data result (window buffer' 0 result.toNat)])
  else .ok (s, [])

def FileState.run (s : FileState) : List FileOp → Except Fault (FileState × List FileOut)
  | [] => .ok (s, [])
  | op :: ops => do
    let (s₁, out) ← s.step op
    let (s₂, outs) ← s₁.run ops
    .ok (s₂, out ++ outs)

def specStep (a : List UInt8) (op : FileOp) : List UInt8 × List FileOut :=
  if op.Allowed a.length then
    match op with
    | .write offset buffer size => (splice a offset (window buffer 0 size), [.wrote size])
    | .truncate size => (a.take size, [.truncated 0])
    | .read offset _ size =>
      (a, [.data ((a.drop offset).take size).length ((a.drop offset).take size)])
  else (a, [])

def specRun (a : List UInt8) : List FileOp → List UInt8 × List FileOut
  | [] => (a, [])
  | op :: ops => ((specRun (specStep a op).1 ops).1, (specStep a op).2 ++ (specRun (specStep a op).1 ops).2)

structure FileOk (hdr : MemBlockHdr) (a : List UInt8) : Prop where
  full : ∀ b ∈ hdr.blocks.dropLast, (b.nrUsed : ℤ) = blockAvailSize
  last : ∀ b, hdr.blocks.getLast? = some b → 1 ≤ b.nrUsed ∧ (b.nrUsed : ℤ) ≤ blockAvailSize
  sum : hdr.nrUsed = (hdr.blocks.map Block.nrUsed).sum
  length : hdr.nrUsed = a.length
  bytes : fileBytes hdr.blocks = a

structure Refines (s : FileState) (a : List UInt8) : Prop where
  file : ∃ hdr, s.priv = some hdr ∧ Dense hdr.blocks ∧ fileBytes hdr.blocks = a ∧ hdr.nrUsed = a.length
  supply : ∃ g, s.supply = supplyOf g
  bound : a.length < 2 ^ 31

variable {offset size : ℕ}

section
variable {hdr : MemBlockHdr} {σ : Supply} (buffer : ℤ → UInt8)

variable (hb : Bounded hdr.blocks) (hbal : Balanced hdr) (hσ : ∀ i, σ i ≠ none)
include hb hbal hσ

/-! ## The calls -/

theorem splice_inside (hoff : offset < hdr.nrUsed) (hlt : offset + size < 2 ^ 31)
    (hsettles : WriteSettles (hdr.blocks.map Block.nrUsed) offset size) :
    ∃ blocks' σ', memBlockRawWriteRandom hdr.blocks σ offset buffer size = .ok (blocks', σ', (size : ℤ)) ∧
      Bounded blocks' ∧ (∀ i, σ' i ≠ none) ∧
      fileBytes blocks' = splice (fileBytes hdr.blocks) offset (window buffer 0 size) ∧
      (Dense hdr.blocks → Dense blocks') := by
  unfold Balanced at hbal
  obtain ⟨passed, rest, iptr, written, σ', k, hrun, hsplit, hstart, hhead, hiff, hspread, hkeeps⟩ :=
    writeRandom_inside σ size hb buffer (show offset ≤ usedSum hdr.blocks by omega) (by omega)
  obtain rfl := hspread.all hσ
  rw [hsplit] at hb
  have hrest : Bounded rest := fun b hmem => hb b (mem_append_right _ hmem)
  have hpassed : Bounded passed := fun b hmem => hb b (mem_append_left _ hmem)
  refine ⟨passed ++ written, σ', hrun, fun b hmem => ?_, hspread.supply hσ, ?_, fun hd => ?_⟩
  · rcases mem_append.1 hmem with h | h
    · exact hpassed b h
    · exact hspread.bounded b h
  · have hsettle : Settles false ((rest.map Block.bytes).map List.length) iptr (window buffer 0 k).length := by
      rw [map_length_bytes, window_length]
      exact hiff.1 hsettles
    have hspliced := (spread_eq hrest.bytes (hhead.trans_eq (head_bytes rest).symm)).1 hsettle
    rw [fileBytes_append, hspread.bytes, hspliced, hsplit, fileBytes_append, hstart, ← length_fileBytes,
      splice_append_right, fileBytes, fileBytes, flatMap_def, flatMap_def]
  rw [hsplit] at hd
  have hne : rest ≠ [] := by
    rintro rfl
    rw [hsplit, append_nil] at hbal
    omega
  obtain ⟨hfull, hold⟩ := (packed_append_iff hne).1 hd.1
  obtain ⟨hpassed', hrest'⟩ := forall_mem_append.1 hd.2
  obtain ⟨hnew, hpos⟩ := hkeeps hold fun b hb => hrest' b (mem_of_mem_tail hb)
  refine ⟨packed_append hfull hnew, forall_mem_append.2 ⟨hpassed', ?_⟩⟩
  rcases Nat.eq_zero_or_pos k with h0 | hk
  · rw [hspread.same h0]
    exact hrest'
  · exact hpos hk

theorem splice_past (hoff : hdr.nrUsed < offset) (hlt : offset + size < 2 ^ 31) :
    ∃ blocks' σ' hole, memBlockRawWriteRandom hdr.blocks σ offset buffer size = .ok (blocks', σ', (size : ℤ)) ∧
      Bounded blocks' ∧ (∀ i, σ' i ≠ none) ∧ hole.length = offset - hdr.nrUsed ∧
      fileBytes blocks' = fileBytes hdr.blocks ++ hole ++ window buffer 0 size := by
  unfold Balanced at hbal
  rcases writeRandom_past σ size hb buffer (show usedSum hdr.blocks < offset by omega) (by omega) (by omega) with
    ⟨pre, b, written, σ', k, hrun, hpre, hb1, hb2, hsum, -, hspread⟩ | ⟨pre, σ', -, -, hfail⟩
  · have hsupply : ∀ i, σ (i + (pre.length + 1)) ≠ none := fun i => hσ _
    obtain rfl := hspread.all hsupply
    have hlast : Bounded [b] := forall_mem_singleton.2 hb2
    have hfull := usedSum_of_full hpre
    refine ⟨_, σ', fileBytes pre ++ b.bytes, hrun, ?_, hspread.supply hsupply, ?_, ?_⟩
    · refine forall_mem_append.2 ⟨forall_mem_append.2 ⟨hb, fun c hc => (hpre c hc).le⟩, hspread.bounded⟩
    · rw [length_append, length_fileBytes, Block.bytes_length]
      omega
    have hspliced : spread [b.bytes] b.nrUsed (window buffer 0 k) =
        splice [b.bytes].flatten b.nrUsed (window buffer 0 k) := by
      rw [← b.bytes_length]
      exact (spread_eq hlast.bytes le_rfl).1 (settles_last false _ _)
    rw [fileBytes_append, fileBytes_append, hspread.bytes, map_singleton, hspliced, flatten_singleton,
      ← b.bytes_length, splice_length_eq]
    simp only [append_assoc]
  · exact absurd hfail (hσ _)

theorem write_splice (hlt : offset + size < 2 ^ 31)
    (hinside : offset < hdr.nrUsed → WriteSettles (hdr.blocks.map Block.nrUsed) offset size) :
    ∃ blocks' σ' hole, tmpfsWriteFile (some hdr) σ offset buffer size =
        .ok (some ⟨max (offset + size) hdr.nrUsed, blocks'⟩, σ', (size : ℤ)) ∧
      Bounded blocks' ∧ (∀ i, σ' i ≠ none) ∧ hole.length = offset - hdr.nrUsed ∧
      fileBytes blocks' = splice (fileBytes hdr.blocks ++ hole) offset (window buffer 0 size) ∧
      (offset ≤ hdr.nrUsed → Dense hdr.blocks → Dense blocks') := by
  have hlength := (length_fileBytes _).trans hbal.symm
  rcases lt_trichotomy offset hdr.nrUsed with hoff | rfl | hoff
  · obtain ⟨blocks', σ', hrun, hb', hσ', hbytes, hdense⟩ := splice_inside buffer hb hbal hσ hoff hlt (hinside hoff)
    refine ⟨blocks', σ', [], tmpfsWriteFile_eq (by omega) ((if_neg hoff.ne').trans hrun), hb', hσ', ?_, ?_,
      fun _ => hdense⟩
    · exact (Nat.sub_eq_zero_of_le hoff.le).symm
    · rw [append_nil, hbytes]
  · obtain ⟨blocks', σ', k, hrun, hb', -, hbytes, -, hall, hdense⟩ := writeSequential_any σ size hb buffer
    obtain ⟨rfl, hσ'⟩ := hall hσ
    refine ⟨blocks', σ', [], tmpfsWriteFile_eq (by omega) ((if_pos rfl).trans hrun), hb', hσ', ?_, ?_, fun _ => hdense⟩
    · exact (Nat.sub_self _).symm
    · rw [append_nil, hbytes, ← hlength, splice_length_eq]
  obtain ⟨blocks', σ', hole, hrun, hb', hσ', hhole, hbytes⟩ := splice_past buffer hb hbal hσ hoff hlt
  refine ⟨blocks', σ', hole, tmpfsWriteFile_eq (by omega) ((if_neg hoff.ne).trans hrun), hb', hσ', hhole, ?_,
    fun hle => absurd hle (not_le.2 hoff)⟩
  have hend : (fileBytes hdr.blocks ++ hole).length = offset := by
    rw [length_append, hlength, hhole]
    omega
  rw [hbytes, ← hend, splice_length_eq]

end

variable {s : FileState} {a : List UInt8}

section
variable (h : Refines s a)
include h

/-- **A write returns its size and overwrites or extends the bytes at its offset.** -/
theorem write_refines (buffer : ℤ → UInt8) (hoff : offset ≤ a.length) (hlt : offset + size < 2 ^ 31) :
    ∃ priv supply, tmpfsWriteFile s.priv s.supply offset buffer size = .ok (priv, supply, size) ∧
      Refines ⟨priv, supply⟩ (splice a offset (window buffer 0 size)) := by
  obtain ⟨⟨hdr, hpriv, hd, rfl, hlen⟩, ⟨g, hg⟩, hbound⟩ := h
  have hbal : Balanced hdr := hlen.trans (length_fileBytes _)
  have hσ : ∀ i, s.supply i ≠ none := by simp [hg, supplyOf]
  obtain ⟨blocks', σ', hole, hrun, -, hσ', hhole, hbytes, hdense⟩ := write_splice buffer hd.1.le hbal hσ hlt
    fun _ => hd.1.writeSettles offset size
  obtain rfl : hole = [] := length_eq_zero_iff.1 (by omega)
  rw [append_nil] at hbytes
  have hnew := splice_length (w := window buffer 0 size) hoff
  rw [window_length] at hnew
  choose g' hg' using fun i => Option.ne_none_iff_exists'.1 (hσ' i)
  refine ⟨_, σ', by rw [hpriv, hrun], ⟨_, rfl, hdense (by omega) hd, hbytes, ?_⟩, ⟨g', funext hg'⟩, by omega⟩
  simp only [hnew, hlen]
  omega

theorem truncate_refines (hsize : size ≤ a.length) :
    ∃ priv supply, tmpfsFileTruncate s.priv s.supply size = .ok (priv, supply, 0) ∧
      Refines ⟨priv, supply⟩ (a.take size) := by
  obtain ⟨⟨hdr, hpriv, hd, rfl, hlen⟩, hg, hbound⟩ := h
  rw [length_fileBytes] at hsize hbound
  have hle := Bounded.usedSum_le hd.1.le
  obtain ⟨blocks', hrun, -, hdense⟩ := truncate_inside s.supply (hsize.trans hle) (by omega)
  obtain ⟨hd', hbytes⟩ := hdense hd hsize
  refine ⟨_, s.supply, by rw [hpriv, hrun], ⟨_, rfl, hd', hbytes, ?_⟩, hg, ?_⟩
  · rw [length_take, length_fileBytes, min_eq_left hsize]
  rw [length_take, length_fileBytes]
  omega

theorem read_refines (buffer : ℤ → UInt8) (hoff : offset < 2 ^ 31) : tmpfsReadFile s.priv offset buffer size =
      .ok (putBytes buffer 0 ((a.drop offset).take size), ((a.drop offset).take size).length) := by
  obtain ⟨⟨hdr, hpriv, hd, rfl, -⟩, -, hbound⟩ := h
  have hlen : (((fileBytes hdr.blocks).drop offset).take size).length < 2 ^ 31 := by
    rw [length_take, length_drop]
    omega
  rw [hpriv]
  exact memBlockRawRead_spec hd.1.le hoff hlen buffer

end

theorem step_refines (h : Refines s a) (op : FileOp) :
    ∃ s', s.step op = .ok (s', (specStep a op).2) ∧ Refines s' (specStep a op).1 := by
  have hsize : tmpfsFileSize s.priv = a.length := by
    obtain ⟨⟨hdr, hpriv, -, -, hlen⟩, -, -⟩ := h
    simp [tmpfsFileSize, hpriv, hlen]
  unfold FileState.step specStep
  rw [hsize]
  split_ifs with hop
  · cases op with
    | write offset buffer size =>
      obtain ⟨priv, supply, heq, href⟩ := write_refines h buffer hop.1 hop.2
      exact ⟨⟨priv, supply⟩, by simp only [heq, bind, Except.bind], href⟩
    | truncate size =>
      obtain ⟨priv, supply, heq, href⟩ := truncate_refines h hop
      exact ⟨⟨priv, supply⟩, by simp only [heq, bind, Except.bind], href⟩
    | read offset buffer size =>
      refine ⟨s, ?_, h⟩
      simp only [read_refines h buffer hop.1, bind, Except.bind, Int.toNat_natCast, window_putBytes]
  · exact ⟨s, rfl, h⟩

theorem run_refines (h : Refines s a) (ops : List FileOp) :
    ∃ s', s.run ops = .ok (s', (specRun a ops).2) ∧ Refines s' (specRun a ops).1 := by
  induction ops generalizing s a with
  | nil => exact ⟨s, rfl, h⟩
  | cons op ops ih =>
    obtain ⟨s1, heq1, h1⟩ := step_refines h op
    obtain ⟨s2, heq2, h2⟩ := ih h1
    refine ⟨s2, ?_, h2⟩
    simp only [FileState.run, heq1, heq2, bind, Except.bind, specRun]

theorem Dense.full {blocks : List Block} (h : Dense blocks) : (∀ b ∈ blocks.dropLast, b.nrUsed = 4084) ∧
      ∀ b, blocks.getLast? = some b → 1 ≤ b.nrUsed ∧ b.nrUsed ≤ 4084 := by
  rcases eq_nil_or_concat' blocks with rfl | ⟨pre, b, rfl⟩
  · simp
  obtain ⟨hpre, hb⟩ := packed_concat.mp h.1
  rw [dropLast_concat, getLast?_concat]
  refine ⟨hpre, fun c hc => ?_⟩
  cases hc
  exact ⟨h.2 b (by simp), hb⟩

/-- **A tmpfs file refines a byte array.** -/
theorem file_refines (g : ℕ → ℤ → UInt8) (ops : List FileOp) :
    ∃ hdr supply, FileState.run ⟨some ⟨0, []⟩, supplyOf g⟩ ops = .ok (⟨some hdr, supply⟩, (specRun [] ops).2) ∧
      FileOk hdr (specRun [] ops).1 := by
  have hstart : Refines ⟨some ⟨0, []⟩, supplyOf g⟩ [] :=
    ⟨⟨_, rfl, ⟨trivial, by simp⟩, rfl, rfl⟩, ⟨g, rfl⟩, by norm_num⟩
  obtain ⟨⟨priv, supply⟩, heq, ⟨hdr, hpriv, hd, hbytes, hlen⟩, -, -⟩ := run_refines hstart ops
  obtain rfl : priv = some hdr := hpriv
  obtain ⟨hfull, hlast⟩ := hd.full
  refine ⟨hdr, supply, heq, fun b hb => ?_, fun b hb => ?_, ?_, hlen, hbytes⟩
  · rw [hfull b hb]
    rfl
  · have := hlast b hb
    unfold blockAvailSize
    omega
  · rw [hlen, ← hbytes, fileBytes_length]

end ZeldaOS
