import ZeldaOS.Malloc.Frame

/-!
# Allocating

`__malloc` carves an allocation out of a free chunk and frees what is left of it.

* `Inv.carve`: steps 4 to 6 of `__malloc`.
-/

namespace ZeldaOS

open Machine List

variable {b : Bins} {m : Mem} {bin : ℕ → List ℕ} {l r : List Chunk} {c : Chunk}

theorem validateAlignment_two_pow : ∀ k < 32, validateAlignment (2 ^ k) = true := by decide

theorem mask_two_pow {k : ℕ} (hk : k < 32) : u32 ((2 ^ k : ℕ) - 1) = 2 ^ k - 1 := by
  have h1 : 2 ^ k < 2 ^ 32 := Nat.pow_lt_pow_right (by omega) hk
  have h0 : 0 < 2 ^ k := Nat.two_pow_pos k
  unfold u32
  omega

/-! ## Splitting -/

theorem alignPadding_spec (hdr : ℕ) {k : ℕ} (hk : k < 32) (hhdr : hdr + 20 < 2 ^ 32) :
    alignPadding hdr (2 ^ k) < 2 ^ k ∧ 2 ^ k ∣ hdr + 20 + alignPadding hdr (2 ^ k) := by
  have h0 : 0 < 2 ^ k := Nat.two_pow_pos k
  have h1 : 2 ^ k < 2 ^ 32 := Nat.pow_lt_pow_right (by omega) hk
  have husr : u32 ((hdr : ℤ) + 16 + 4) = hdr + 20 := by
    unfold u32
    omega
  have hpad : alignPadding hdr (2 ^ k) =
      if (hdr + 20) % 2 ^ k ≠ 0 then 2 ^ k - (hdr + 20) % 2 ^ k else 0 := by
    simp only [alignPadding, husr, mask_two_pow hk, Nat.and_two_pow_sub_one_eq_mod]
    split_ifs with hz
    · unfold u32
      omega
    · rfl
  rw [hpad]
  split_ifs with hz
  · refine ⟨by omega, ?_⟩
    have hdiv := Nat.div_add_mod (hdr + 20) (2 ^ k)
    have : hdr + 20 + (2 ^ k - (hdr + 20) % 2 ^ k) = 2 ^ k * ((hdr + 20) / 2 ^ k + 1) := by
      rw [mul_add, mul_one]
      omega
    exact ⟨_, this⟩
  · exact ⟨h0, Nat.dvd_of_mod_eq_zero (by simpa using hz)⟩

theorem splitChunk_half (m : Mem) (hdr1 left : ℕ) (hleft : left < 256 ^ 4) :
    let m1 := setPadding (setFree (setMagic m hdr1 mallocMagic) hdr1 1) hdr1 0
    let m2 := setNext (setPrev (setSize m1 hdr1 left) hdr1 0) hdr1 0
    hdrSize m2 hdr1 = left ∧ hdrMagic m2 hdr1 = mallocMagic ∧ Agree m m2 hdr1 (hdr1 + 16) := by
  intro m1 m2
  have hag : Agree (setSize m1 hdr1 left) m2 hdr1 (hdr1 + 8) :=
    (agree_setPrev _ _ _).trans (agree_setNext _ _ _)
  have hsz : Agree m1 (setSize m1 hdr1 left) (hdr1 + 8) (hdr1 + 12) :=
    agree_write (by omega) (by omega)
  have h1 : Agree m m1 (hdr1 + 12) (hdr1 + 16) :=
    ((agree_setPadMagic (by omega) (by omega)).trans (agree_setPadFree (by omega) (by omega))).trans
      (agree_setPadPadding (by omega) (by omega))
  refine ⟨?_, ?_, ?_⟩
  · rw [hdrSize, hag.read (by omega)]
    exact Mem.read_write_self hleft
  · have hmagic : hdrMagic m1 hdr1 = mallocMagic := by
      simp only [hdrMagic, m1, setPadding, setFree, setMagic]
      rw [padMagic_setPadPadding, padMagic_setPadFree (by omega), padMagic_setPadMagic (by decide)]
    rw [← hmagic]
    simp only [hdrMagic, padMagic]
    rw [hag.read (by omega), hsz.read (by omega)]
  · exact ((h1.mono (by omega) (by omega)).trans (hsz.mono (by omega) (by omega))).trans
      (hag.mono (by omega) (by omega))

theorem agree_splitChunk (m : Mem) (hdr hdr1 left : ℕ) (hle : hdr + 12 ≤ hdr1) :
    Agree m (splitChunk m hdr hdr1 left) hdr (hdr1 + 16) := by
  have h1 : Agree m (setPadding (setFree (setMagic m hdr1 mallocMagic) hdr1 1) hdr1 0) hdr (hdr1 + 16) :=
    ((agree_setPadMagic (by omega) (by omega)).trans (agree_setPadFree (by omega) (by omega))).trans
      (agree_setPadPadding (by omega) (by omega))
  have h2 : ∀ m', Agree m' (setNext (setPrev (setSize m' hdr1 left) hdr1 0) hdr1 0) hdr (hdr1 + 16) := fun m' =>
    ((agree_write (by omega) (by omega)).trans (agree_write (by omega) (by omega))).trans
      (agree_write (by omega) (by omega))
  exact (h1.trans (h2 _)).trans (agree_write (by omega) (by omega))

theorem Inv.split (h : Inv b m (l ++ c :: r) bin) (hu : c.use = .loose) (left : ℕ)
    (hlo : 20 ≤ left) (hhi : 20 + left ≤ c.size) : Inv b (splitChunk m c.addr (c.addr + (c.size - left)) left)
      (l ++ ⟨c.addr, c.size - left, .loose⟩ :: ⟨c.addr + (c.size - left), left, .loose⟩ :: r) bin := by
  have hcok : HeaderOk m c := h.hdr c (by simp)
  have hbound := (h.tiles.bounds (c := c) (by simp)).2
  unfold kernelHeapTop at hbound
  obtain ⟨hs, hmag, hag⟩ := splitChunk_half m (c.addr + (c.size - left)) left (by omega)
  set hdr1 := c.addr + (c.size - left) with hhdr1
  set m1 := setPadding (setFree (setMagic m hdr1 mallocMagic) hdr1 1) hdr1 0
  set m2 := setNext (setPrev (setSize m1 hdr1 left) hdr1 0) hdr1 0
  have hsize : hdrSize m2 c.addr = c.size := (hag.read (by omega)).trans hcok.size
  have hu32 : u32 ((hdrSize m2 c.addr : ℕ) - left) = c.size - left := by
    unfold u32
    omega
  have heq : splitChunk m c.addr hdr1 left = setSize m2 c.addr (c.size - left) := by
    rw [← hu32]
    rfl
  have hag' : Agree m2 (setSize m2 c.addr (c.size - left)) (c.addr + 8) (c.addr + 12) :=
    agree_write (by omega) (by omega)
  rw [heq]
  have hsplit : ∀ x y : Chunk, l ++ x :: y :: r = l ++ [x, y] ++ r := by simp
  rw [hsplit]
  rw [← singleton_append, ← append_assoc] at h
  refine h.replace c.addr (c.addr + c.size) ⟨rfl, rfl⟩ ⟨rfl, hhdr1, ?_⟩ ?_ ?_
    ((hag.mono (by omega) (by omega)).trans (hag'.mono (by omega) (by omega)))
  · show c.addr + (c.size - left) + left = c.addr + c.size
    omega
  · simp [hu]
  intro d hd
  simp only [mem_cons, not_mem_nil, or_false] at hd
  rcases hd with rfl | rfl
  · refine ⟨by simp, by simp; omega, Mem.read_write_self (by simp; omega), ?_, trivial⟩
    have hm : hdrMagic (setSize m2 c.addr (c.size - left)) c.addr = hdrMagic m c.addr := by
      simp only [hdrMagic, padMagic]
      rw [hag'.read (by omega), hag.read (by omega)]
    exact hm.trans hcok.magic
  refine ⟨by simp, hlo, (hag'.read (by simp; omega)).trans hs, ?_, trivial⟩
  have hm : hdrMagic (setSize m2 c.addr (c.size - left)) hdr1 = hdrMagic m2 hdr1 := by
    simp only [hdrMagic, padMagic]
    rw [hag'.read (by omega)]
  exact hm.trans hmag

/-! ## Carving -/

structure Occupied (m : Mem) (hdr padding : ℕ) : Prop where
  notFree : hdrFree m hdr = 0
  padding_eq : padPadding m (hdr + 16 + padding) = padding % 65536
  magic : padMagic m (hdr + 16 + padding) = mallocMagic

theorem Occupied.congr {m' : Mem} {hdr padding : ℕ} (h : Occupied m hdr padding)
    (hsame : ∀ a, hdr + 12 ≤ a → a < hdr + 20 + padding → m' a = m a) : Occupied m' hdr padding := by
  have hread : ∀ a n, hdr + 12 ≤ a → a + n ≤ hdr + 20 + padding → m'.read a n = m.read a n :=
    fun a n h1 h2 => Mem.read_congr fun x hx1 hx2 => hsame x (by omega) (by omega)
  refine ⟨?_, ?_, ?_⟩
  · rw [← h.notFree, hdrFree, padFree, hread _ _ (by omega) (by omega), hdrFree, padFree]
  · rw [← h.padding_eq, padPadding, hread _ _ (by omega) (by omega), padPadding]
  · rw [← h.magic, padMagic, hread _ _ (by omega) (by omega), padMagic]

theorem occupyChunk_spec (m : Mem) (hdr padding : ℕ) (hlt : hdr + 16 + padding < 2 ^ 32) :
    Occupied (occupyChunk m hdr padding) hdr padding ∧ Agree m (occupyChunk m hdr padding) hdr (hdr + 20 + padding) ∧
      hdrSize (occupyChunk m hdr padding) hdr = hdrSize m hdr ∧
      hdrMagic (occupyChunk m hdr padding) hdr = hdrMagic m hdr := by
  have hph : u32 ((hdr : ℤ) + 16 + padding) = hdr + 16 + padding := by
    unfold u32
    omega
  set ph := hdr + 16 + padding with hphdef
  -- the chunk header, then the padding header
  set m1 := setNext (setPrev m hdr 0) hdr 0
  set m2 := setFree (setPadding m1 hdr padding) hdr 0
  set m3 := setPadPadding m2 ph padding
  set m4 := setPadMagic (setPadFree m3 ph 0) ph mallocMagic
  have heq : occupyChunk m hdr padding = m4 := by
    simp only [occupyChunk, hph]
    rfl
  have h1 : Agree m m1 hdr (hdr + 8) := (agree_setPrev _ _ _).trans (agree_setNext _ _ _)
  have h2 : Agree m1 m2 (hdr + 12) (hdr + 16) :=
    (agree_setPadPadding (by omega) (by omega)).trans (agree_setPadFree (by omega) (by omega))
  have h3 : Agree m2 m3 ph (ph + 4) := agree_setPadPadding (by omega) (by omega)
  have h4 : Agree m3 m4 (ph + 2) (ph + 4) :=
    Agree.trans (agree_write (by omega) (by omega)) (agree_write (by omega) (by omega))
  have htag : ∀ f : ℕ → ℕ, f (m4.read (hdr + 12 + 2) 2) = f (m2.read (hdr + 12 + 2) 2) := by
    intro f
    rw [h4.read (by omega), h3.read (by omega)]
  rw [heq]
  refine ⟨⟨?_, ?_, padMagic_setPadMagic (by decide)⟩, ?_, ?_, ?_⟩
  · exact (htag (· % 2)).trans (padFree_setPadFree (by omega))
  · rw [padPadding, h4.read (by omega)]
    exact Mem.read_write_mod m2 ph 2 padding
  · exact (((h1.mono (by omega) (by omega)).trans (h2.mono (by omega) (by omega))).trans
      (h3.mono (by omega) (by omega))).trans (h4.mono (by omega) (by omega))
  · rw [hdrSize, h4.read (by omega), h3.read (by omega), h2.read (by omega), h1.read (by omega), hdrSize]
  have hm2 : hdrMagic m2 hdr = hdrMagic m1 hdr := by
    simp only [hdrMagic, m2, setFree, setPadding]
    rw [padMagic_setPadFree (by omega), padMagic_setPadPadding]
  have hm1 : hdrMagic m1 hdr = hdrMagic m hdr := by
    simp only [hdrMagic, padMagic]
    rw [h1.read (by omega)]
  exact (htag (· / 2)).trans (hm2.trans hm1)

theorem Inv.occupy_loose (h : Inv b m (l ++ c :: r) bin) (hu : c.use = .loose) (padding : ℕ)
    (hfit : 20 + padding ≤ c.size) : Inv b (occupyChunk m c.addr padding) (l ++ c :: r) bin := by
  have hcok : HeaderOk m c := h.hdr c (by simp)
  have hbound := (h.tiles.bounds (c := c) (by simp)).2
  unfold kernelHeapTop at hbound
  obtain ⟨-, hag, hsize, hmagic⟩ := occupyChunk_spec m c.addr padding (by omega)
  rw [← singleton_append, ← append_assoc] at h ⊢
  refine h.replace c.addr (c.addr + c.size) ⟨rfl, rfl⟩ ⟨rfl, rfl⟩ (by simp [hu]) ?_ (hag.mono le_rfl (by omega))
  simp only [mem_singleton, forall_eq]
  exact ⟨by simp [hu], hcok.size_ge, hsize.trans hcok.size, hmagic.trans hcok.magic, by simp [UseOk, hu]⟩

theorem Inv.settle (h : Inv b m (l ++ c :: r) bin) (hu : c.use = .loose) {padding align : ℕ}
    (ho : Occupied m c.addr padding) (hpad : padding < 65536) (len : ℕ) (hfit : 20 + padding + len ≤ c.size)
    (halign : align ∣ c.addr + 20 + padding) : Inv b m (l ++ { c with use := .used padding len align } :: r) bin := by
  have hcok : HeaderOk m c := h.hdr c (by simp)
  have hpp := ho.padding_eq.trans (Nat.mod_eq_of_lt hpad)
  rw [← singleton_append, ← append_assoc] at h ⊢
  refine h.replace c.addr (c.addr + c.size) ⟨rfl, rfl⟩ ⟨rfl, rfl⟩ (by simp [hu]) ?_ (Agree.refl m _ _)
  simp only [mem_singleton, forall_eq]
  exact ⟨by simp, hcok.size_ge, hcok.size, hcok.magic, ho.notFree, hpp, ho.magic, hfit, halign⟩

def freeNullNop : Mem → Except Fault Mem := .ok

/-- The chunk `c` is used as a whole, or the rest is a free chunk. -/
def Carved (l : List Chunk) (c : Chunk) (r : List Chunk) (padding len align : ℕ)
    (cs' : List Chunk) : Prop :=
  (c.size ≤ 40 + padding + len ∧ cs' = l ++ { c with use := .used padding len align } :: r) ∨
  ∃ left size r', 20 < left ∧ c.size = 20 + padding + len + left ∧
    cs' = l ++ ⟨c.addr, c.size - left, .used padding len align⟩ :: ⟨c.addr + (c.size - left), size, .free⟩ :: r' ∧
    (r' = r ∧ size = left ∨ ∃ d, r = d :: r' ∧ d.use = .free ∧ size = left + d.size)

def LeftOver (c : Chunk) (r : List Chunk) (left size : ℕ) (rest : List Chunk) : Prop :=
  (left ≤ 20 ∧ size = c.size ∧ rest = r) ∨
  (20 < left ∧ size = c.size - left ∧ ∃ size' r', rest = ⟨c.addr + (c.size - left), size', .free⟩ :: r' ∧
    (r' = r ∧ size' = left ∨ ∃ d, r = d :: r' ∧ d.use = .free ∧ size' = left + d.size))

theorem Inv.carveChunk_eq (h : Inv b m (l ++ c :: r) bin) (hfree : c.use = .free) (freeNull : Mem → Except Fault Mem)
    {padding left : ℕ} (hleft : left ≤ c.size) : carveChunk freeNull b m c.addr padding left =
      carveChunk freeNullNop b m c.addr padding left >>= fun m' => if left > 20 then .ok m' else freeNull m' := by
  obtain ⟨m1, hm1, h1⟩ := h.detach hfree
  have hsize : hdrSize m1 c.addr = c.size := (h1.hdr { c with use := .loose } (by simp)).size
  have hbound := h.tiles.bounds (c := c) (by simp)
  by_cases hlt : left > 20
  · have hne : u32 ((c.addr : ℤ) + c.size - left) ≠ 0 := by
      unfold u32 kernelHeapTop kernelHeapBottom at *
      omega
    simp only [carveChunk, hm1, bind, Except.bind, hsize, hlt, if_true, hne, if_false]
    cases __free b _ _ <;> rfl
  · simp only [carveChunk, hm1, bind, Except.bind, hlt, if_false, if_true]
    rfl

theorem Inv.carve_loose (h : Inv b m (l ++ c :: r) bin) (hfree : c.use = .free) (hr : ∀ d ∈ r, d.use ≠ .loose)
    (padding left : ℕ) (hfit : 20 + padding + left ≤ c.size) :
    ∃ m' size rest bin', carveChunk freeNullNop b m c.addr padding left = .ok m' ∧
      Inv b m' (l ++ ⟨c.addr, size, .loose⟩ :: rest) bin' ∧ Occupied m' c.addr padding ∧
      (∀ x < b.base, m' x = m x) ∧ LeftOver c r left size rest := by
  have hc : c ∈ l ++ c :: r := by simp
  have hbound := h.tiles.bounds hc
  have hbase : b.base + 16 ≤ kernelHeapBottom := b.addr_add_le (i := 0) (by decide)
  obtain ⟨m1, hm1, h₁⟩ := h.detach hfree
  have hlow1 : ∀ x < b.base, m1 x = m x := fun x hx =>
    h.detach_onlyLinks hc hfree hm1 x fun y hy => .inl (hx.trans_le (h.layout.base_le_site hy))
  have hsize : hdrSize m1 c.addr = c.size := (h₁.hdr { c with use := .loose } (by simp)).size
  by_cases hlt : left > 20
  · have hhdr1 : u32 ((c.addr : ℤ) + c.size - left) = c.addr + (c.size - left) := by
      unfold u32 kernelHeapTop at *
      omega
    have hne : c.addr + (c.size - left) ≠ 0 := by
      omega
    have h₂ := h₁.split rfl left (by omega) (by simp; omega)
    have hag2 := agree_splitChunk m1 c.addr (c.addr + (c.size - left)) left (by omega)
    have h3 := h₂.occupy_loose rfl padding (by simp; omega)
    obtain ⟨ho, hag3, -⟩ := occupyChunk_spec (splitChunk m1 c.addr (c.addr + (c.size - left)) left) c.addr padding
      (by unfold kernelHeapTop at hbound; omega)
    have h3' : Inv b (occupyChunk (splitChunk m1 c.addr (c.addr + (c.size - left)) left) c.addr padding)
        ((l ++ [⟨c.addr, c.size - left, .loose⟩]) ++ ⟨c.addr + (c.size - left), left, .loose⟩ :: r)
        (fun i => (bin i).erase c.addr) := by
      simpa using h3
    obtain ⟨m4, size, r', bin', hm4, h4, hcase⟩ := h3'.free_chunk (by simp) hr
    have hframe : ∀ {a : ℕ}, _ → _ → m4 a = _ := h3'.free_frame (by simp) hr hm4
    have hbetween : (⟨c.addr, c.size - left, .loose⟩ : Chunk) ∈
        (l ++ [⟨c.addr, c.size - left, .loose⟩]) ++ ⟨c.addr + (c.size - left), left, .loose⟩ :: r := by simp
    refine ⟨m4, c.size - left, _, bin', ?_, by simpa using h4, ho.congr fun a h1 h2 => ?_, fun x hx => ?_,
      .inr ⟨hlt, rfl, size, r', rfl, hcase⟩⟩
    · simp only [carveChunk, hm1, bind, Except.bind, hsize, hlt, if_true, hhdr1, hne, if_false]
      exact hm4
    · refine hframe (fun y hy => ?_) (.inl ?_)
      · have hoff := h3'.layout.site_off hy hbetween
        simp only at hoff
        omega
      · show a < c.addr + (c.size - left) + 12
        omega
    · rw [hframe (fun y hy => .inl (hx.trans_le (h3'.layout.base_le_site hy))) (.inl ?_), hag3 x (.inl (by omega)),
        hag2 x (.inl (by omega)), hlow1 x hx]
      show x < c.addr + (c.size - left) + 12
      omega
  · obtain ⟨ho, hag, -⟩ := occupyChunk_spec m1 c.addr padding (by unfold kernelHeapTop at hbound; omega)
    refine ⟨_, c.size, r, _, ?_, h₁.occupy_loose rfl padding (by simp; omega), ho, fun x hx => ?_,
      .inl ⟨by omega, rfl, rfl⟩⟩
    · simp only [carveChunk, hm1, bind, Except.bind, hlt, if_false, if_true]
      rfl
    · rw [hag x (.inl (by omega)), hlow1 x hx]

theorem LeftOver.carved {size left : ℕ} {rest : List Chunk} (h : LeftOver c r left size rest) (l : List Chunk)
    (padding len align : ℕ) (hsum : c.size = 20 + padding + len + left) :
    Carved l c r padding len align (l ++ ⟨c.addr, size, .used padding len align⟩ :: rest) ∧
      20 + padding + len ≤ size := by
  rcases h with ⟨hle, rfl, rfl⟩ | ⟨hlt, rfl, size', r', rfl, hcase⟩
  · exact ⟨.inl ⟨by omega, rfl⟩, by omega⟩
  · exact ⟨.inr ⟨left, size', r', hlt, hsum, rfl, hcase⟩, by omega⟩

theorem Inv.carve (h : Inv b m (l ++ c :: r) bin) (hfree : c.use = .free)
    (hr : ∀ d ∈ r, d.use ≠ .loose) {padding len align : ℕ} (hpad : padding < 65536)
    (hfit : 20 + padding + len ≤ c.size) (halign : align ∣ c.addr + 20 + padding) :
    ∃ m' cs' bin', carveChunk freeNullNop b m c.addr padding (c.size - 20 - padding - len) = .ok m' ∧
      Carved l c r padding len align cs' ∧ Inv b m' cs' bin' := by
  obtain ⟨m', size, rest, bin', hm', h', ho, -, hleft⟩ := h.carve_loose hfree hr padding
    (c.size - 20 - padding - len) (by omega)
  obtain ⟨hcarved, hroom⟩ := hleft.carved l padding len align (by omega)
  exact ⟨m', _, bin', hm', hcarved, h'.settle rfl ho hpad len hroom halign⟩

end ZeldaOS
