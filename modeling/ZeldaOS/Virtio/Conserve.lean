import ZeldaOS.Virtio.Model

/-!
# Descriptors are conserved

* `descriptors_conserved`: every descriptor is in one place.
-/

namespace ZeldaOS

open Machine List Function

/-! ## The free ring -/

theorem ofBytes_idBytes {id : ℕ} (h : id < 2 ^ 16) : ofBytes (idBytes id) = id := by
  have hmask : (0xff : ℕ) = 2 ^ 8 - 1 := rfl
  simp only [ofBytes, idBytes, lowByte, highByte, UInt8.toNat_ofNat', hmask,
    Nat.and_two_pow_sub_one_eq_mod, Nat.shiftRight_eq_div_pow]
  omega

theorem decodeIds_flatMap {ids : List ℕ} (h : ∀ id ∈ ids, id < 2 ^ 16) : decodeIds (ids.flatMap idBytes) = ids := by
  induction ids with
  | nil => rfl
  | cons id ids ih =>
    rw [forall_mem_cons] at h
    change ofBytes (idBytes id) :: decodeIds (ids.flatMap idBytes) = id :: ids
    rw [ofBytes_idBytes h.1, ih h.2]

theorem length_flatMap_idBytes (ids : List ℕ) : (ids.flatMap idBytes).length = 2 * ids.length := by
  induction ids with
  | nil => rfl
  | cons id ids ih =>
    rw [flatMap_cons, length_append, ih, length_cons]
    change 2 + 2 * ids.length = 2 * (ids.length + 1)
    omega

theorem fillFreeRing_holds {ring : RingBuffer UInt8} {free : List ℕ}
    (h : ring.Holds (free.flatMap idBytes)) (ids : List ℕ) (hroom : 2 * (free.length + ids.length) < ring.size) :
    ∃ ring', fillFreeRing ring ids = .ok ring' ∧ ring'.size = ring.size ∧
      ring'.Holds ((free ++ ids).flatMap idBytes) := by
  induction ids generalizing ring free with
  | nil => exact ⟨ring, rfl, rfl, by simpa using h⟩
  | cons id ids ih =>
    have hlen := length_flatMap_idBytes free
    rw [length_cons] at hroom
    obtain ⟨h1, hn1⟩ := h.write_all [lowByte id] (by rw [length_singleton]; omega)
    have hs1 := ring.write_size [lowByte id]
    obtain ⟨h2, hn2⟩ := h1.write_all [highByte id] (by rw [length_append, length_singleton, length_singleton]; omega)
    have hs2 := (ring.write [lowByte id]).1.write_size [highByte id]
    rw [append_assoc] at h2
    have hnext : ((ring.write [lowByte id]).1.write [highByte id]).1.Holds ((free ++ [id]).flatMap idBytes) := by
      rw [flatMap_append, flatMap_singleton]
      exact h2
    obtain ⟨ring', hfill, hsize, hholds⟩ := ih hnext (by rw [length_append, length_singleton]; omega)
    refine ⟨ring', ?_, by omega, by simpa using hholds⟩
    have hw1 : (ring.write [lowByte id]).2 ≠ 0 := hn1 ▸ Nat.one_ne_zero
    have hw2 : ((ring.write [lowByte id]).1.write [highByte id]).2 ≠ 0 := hn2 ▸ Nat.one_ne_zero
    simp only [fillFreeRing, ensure_of hw1, ensure_of hw2, hfill, bind, Except.bind]

theorem sendAt_cons_of_some {sent : List (ℕ × UInt32)} {k : ℕ} {e : ℕ × UInt32} (x : ℕ × UInt32)
    (h : sendAt sent k = some e) : sendAt (x :: sent) k = some e := by
  rw [sendAt] at h ⊢
  rw [List.reverse_cons, List.getElem?_append_left (List.getElem?_eq_some_iff.1 h).1]
  exact h

theorem sendAt_cons_self (sent : List (ℕ × UInt32)) (x : ℕ × UInt32) : sendAt (x :: sent) sent.length = some x := by
  rw [sendAt, List.reverse_cons, getElem?_append_right (by simp)]
  simp

theorem lt_length_of_sendAt {sent : List (ℕ × UInt32)} {k : ℕ} {e : ℕ × UInt32}
    (h : sendAt sent k = some e) : k < sent.length := by
  simpa using (List.getElem?_eq_some_iff.1 h).1

theorem zip_take_length {α β : Type} (l : List α) (m : List β) : l.zip (m.take l.length) = l.zip m := by
  induction l generalizing m with
  | nil => rfl
  | cons a l ih =>
    cases m with
    | nil => rfl
    | cons b m => rw [length_cons, take_succ_cons, zip_cons_cons, zip_cons_cons, ih]

/-! ## The invariant -/

def QueueSystem.busyIds (s : QueueSystem) : List ℕ := s.availIds ++ s.inFlight ++ s.queue.usedIds

def QueueSystem.Pending (s : QueueSystem) (d : ℕ) : Prop :=
  ∃ k, lastSend s.sent d = some k ∧ some k ∉ s.received.map Receipt.send ∧ sendAt s.sent k = some (d, s.queue.buffers d)

/-- Each descriptor is free or busy, and a busy one has its last send. -/
structure Accounts (k : ℕ) (s : QueueSystem) (free : List ℕ) : Prop where
  size : s.queue.queueSize = 2 ^ k
  le : k ≤ 15
  ringSize : s.queue.freeDescRing.size = s.queue.queueSize * 2 + 1
  holds : s.queue.freeDescRing.Holds (free.flatMap idBytes)
  perm : (free ++ s.busyIds).Perm (List.range s.queue.queueSize)
  pending : ∀ d ∈ s.busyIds, s.Pending d
  once : (s.received.map Receipt.send).Nodup
  receipts : ∀ r ∈ s.received, ∃ k, r.send = some k ∧ sendAt s.sent k = some (r.id, r.buffer)

section
variable {k : ℕ} {s : QueueSystem} {q : Virtqueue} {free : List ℕ} {d n : ℕ}

section
variable (h : Accounts k s free)
include h

theorem Accounts.size_dvd : s.queue.queueSize ∣ 2 ^ 16 := by
  have hle := h.le
  rw [h.size]
  exact Nat.pow_dvd_pow 2 (by omega)

theorem Accounts.size_lt : s.queue.queueSize < 2 ^ 16 := by
  have hle := h.le
  rw [h.size]
  exact Nat.pow_lt_pow_right (by decide) (by omega)

theorem Accounts.lt_size (hd : d ∈ free ++ s.busyIds) : d < s.queue.queueSize :=
  mem_range.1 (h.perm.mem_iff.1 hd)

theorem Accounts.length : free.length + s.busyIds.length = s.queue.queueSize := by
  have hlen := h.perm.length_eq
  rwa [length_append, length_range] at hlen

theorem Accounts.nodup : (free ++ s.busyIds).Nodup :=
  h.perm.nodup_iff.2 nodup_range

theorem Accounts.freeIds_eq : s.queue.freeIds = free := by
  rw [Virtqueue.freeIds, h.holds.toList_eq, decodeIds_flatMap]
  intro id hid
  exact (h.lt_size (mem_append_left _ hid)).trans h.size_lt

end

theorem Accounts.availIds_place (h : Accounts k { s with queue := q.publish n } (d :: free))
    (ring : RingBuffer UInt8) (desc : VirtqDesc) (buffer : UInt32) :
    QueueSystem.availIds { s with queue := (q.place ring d n desc buffer).publish (n + 1) } =
      QueueSystem.availIds { s with queue := q.publish n } ++ [d] := by
  have hd : d < q.queueSize := h.lt_size (mem_cons_self ..)
  have hsize : q.queueSize < 2 ^ 16 := h.size_lt
  have hdvd : q.queueSize ∣ 2 ^ 16 := h.size_dvd
  have hroom : ((q.availIdx + .ofNat n) - s.lastAvailIdx).toNat < q.queueSize := by
    have hlen := h.length
    have hl := length_cellsBetween q.availRing q.queueSize s.lastAvailIdx (q.availIdx + .ofNat n)
    simp only [QueueSystem.busyIds, QueueSystem.availIds, Virtqueue.publish, length_append,
      length_map, length_cons, hl] at hlen
    omega
  have hpush := cellsBetween_push hdvd hsize q.availRing hroom (.ofNat d)
  rw [toNat_add_mod hdvd] at hpush
  have hnext : q.availIdx + .ofNat (n + 1) = q.availIdx + .ofNat n + 1 := by
    rw [UInt16.add_assoc, UInt16.ofNat_add]
    rfl
  have hid : (UInt16.ofNat d).toNat = d := by
    rw [UInt16.toNat_ofNat', Nat.mod_eq_of_lt (hd.trans hsize)]
  simp only [QueueSystem.availIds, Virtqueue.publish, Virtqueue.place, hnext, hpush, map_append, map_singleton, hid]

theorem Accounts.place (h : Accounts k { s with queue := q.publish n } (d :: free))
    {ring : RingBuffer UInt8} (hring : ring.size = q.freeDescRing.size)
    (hholds : ring.Holds (free.flatMap idBytes)) (desc : VirtqDesc) (buffer : UInt32) :
    Accounts k { s with
      queue := (q.place ring d n desc buffer).publish (n + 1)
      sent := (d, buffer) :: s.sent } free := by
  have hbusy : QueueSystem.busyIds { s with
      queue := (q.place ring d n desc buffer).publish (n + 1)
      sent := (d, buffer) :: s.sent } =
      QueueSystem.availIds { s with queue := q.publish n } ++ [d] ++ s.inFlight ++ q.usedIds := by
    rw [← h.availIds_place ring desc buffer]
    rfl
  refine ⟨h.size, h.le, hring.trans h.ringSize, hholds, ?_, fun d' hd' => ?_, h.once, fun r hr => ?_⟩
  · refine List.Perm.trans ?_ h.perm
    rw [hbusy]
    refine perm_iff_count.2 fun a => ?_
    simp only [QueueSystem.busyIds, Virtqueue.usedIds, Virtqueue.publish, count_append, count_cons, count_nil]
    omega
  · have hold : d' ∈ QueueSystem.busyIds { s with queue := q.publish n } ∨ d' = d := by
      rw [hbusy] at hd'
      simp only [mem_append, mem_singleton] at hd'
      rcases hd' with ((hd' | hd') | hd') | hd'
      · exact .inl (mem_append_left _ (mem_append_left _ hd'))
      · exact .inr hd'
      · exact .inl (mem_append_left _ (mem_append_right _ hd'))
      · exact .inl (mem_append_right _ hd')
    by_cases hne : d' = d
    · subst hne
      refine ⟨s.sent.length, if_pos rfl, fun hc => ?_, ?_⟩
      · obtain ⟨r, hr, hk⟩ := mem_map.1 hc
        obtain ⟨k, hsend, hat⟩ := h.receipts r hr
        have hlt := lt_length_of_sendAt hat
        rw [hsend] at hk
        cases hk
        exact absurd hlt (lt_irrefl _)
      · have hbuf : update q.buffers d' buffer d' = buffer := update_self ..
        exact (sendAt_cons_self _ _).trans (congrArg (fun b => some (d', b)) hbuf.symm)
    · obtain ⟨k, hlast, hnot, hat⟩ := h.pending d' (hold.resolve_right hne)
      refine ⟨k, ?_, hnot, ?_⟩
      · exact (if_neg (Ne.symm hne)).trans hlast
      have hbuf : update q.buffers d buffer d' = q.buffers d' := update_of_ne hne ..
      exact (sendAt_cons_of_some _ hat).trans (congrArg (fun b => some (d', b)) hbuf.symm)
  · obtain ⟨k, hsend, hat⟩ := h.receipts r hr
    exact ⟨k, hsend, sendAt_cons_of_some _ hat⟩

theorem Accounts.sendLoop (h : Accounts k { s with queue := q.publish n } free) (buffers : List (VirtqDesc × UInt32)) :
    ∃ q' ids free', ZeldaOS.sendLoop q buffers n = .ok (q', ids) ∧ ids.length = min buffers.length free.length ∧
      Accounts k { s with
        queue := q'.publish (n + ids.length)
        sent := (ids.zip (buffers.map Prod.snd)).reverse ++ s.sent } free' := by
  induction buffers generalizing s q n free with
  | nil => exact ⟨q, [], free, rfl, by simp, h⟩
  | cons b buffers ih =>
    obtain ⟨desc, buffer⟩ := b
    have hempty := h.holds.isEmpty_iff
    cases free with
    | nil =>
      refine ⟨q, [], [], ?_, by simp, h⟩
      exact if_pos (hempty.2 rfl)
    | cons d free =>
      have hd : d < q.queueSize := h.lt_size (mem_cons_self ..)
      have hid := ofBytes_idBytes (hd.trans h.size_lt)
      have hne : ¬q.freeDescRing.isEmpty = true := fun hc => by
        have := hempty.1 hc
        simp [idBytes] at this
      obtain ⟨hread, hholds⟩ := RingBuffer.Holds.read h.holds 2
      have hbytes : (q.freeDescRing.read 2).2 = idBytes d := hread
      have hplace := h.place (q.freeDescRing.read_size 2) hholds desc buffer
      obtain ⟨q', ids, free', hloop, hcount, hacc⟩ := ih (s := { s with sent := (d, buffer) :: s.sent }) hplace
      refine ⟨q', d :: ids, free', ?_, ?_, ?_⟩
      · simp only [ZeldaOS.sendLoop, if_neg hne, hbytes, hid, ensure_of hd, hloop, bind, Except.bind]
        rfl
      · simp only [length_cons, hcount]
        omega
      have hn : n + (d :: ids).length = n + 1 + ids.length := by rw [length_cons]; omega
      rw [hn]
      simpa using hacc

theorem Accounts.usedIds_eq {latest : UInt16} (hdvd : q.queueSize ∣ 2 ^ 16) (hne : latest ≠ q.usedIdx)
    (ring : RingBuffer UInt8) : Virtqueue.usedIds { q with lastUsedIdx := latest } =
      (q.usedRing (latest.toNat % q.queueSize)).id.toNat ::
        Virtqueue.usedIds { q with freeDescRing := ring, lastUsedIdx := latest + 1 } := by
  simp only [Virtqueue.usedIds, cellsBetween_pop hdvd q.usedRing hne, map_cons]

theorem Accounts.reclaim {latest : UInt16}
    (h : Accounts k { s with queue := { q with lastUsedIdx := latest } } free) (hne : latest ≠ q.usedIdx)
    (hd : (q.usedRing (latest.toNat % q.queueSize)).id.toNat = d) :
    d < q.queueSize ∧ (q.freeDescRing.write (idBytes d)).2 = 2 ∧ Accounts k { s with
        queue := { q with
          freeDescRing := (q.freeDescRing.write (idBytes d)).1
          lastUsedIdx := latest + 1 }
        received := s.received ++ [⟨d, q.buffers d, lastSend s.sent d⟩] } (free ++ [d]) := by
  have hused := Accounts.usedIds_eq h.size_dvd hne (q.freeDescRing.write (idBytes d)).1
  rw [hd] at hused
  set s1 : QueueSystem := { s with queue := { q with lastUsedIdx := latest } } with hs1
  set q2 : Virtqueue := { q with
    freeDescRing := (q.freeDescRing.write (idBytes d)).1
    lastUsedIdx := latest + 1 } with hq2
  set rest := s1.availIds ++ s.inFlight ++ q2.usedIds with hrest
  have hbusy : s1.busyIds = s1.availIds ++ s.inFlight ++ d :: q2.usedIds :=
    congrArg (s1.availIds ++ s.inFlight ++ ·) hused
  have hperm : (d :: (free ++ rest)).Perm (free ++ s1.busyIds) := by
    refine perm_iff_count.2 fun a => ?_
    simp only [hbusy, hrest, count_append, count_cons]
    omega
  have hmem : ∀ d', d' = d ∨ d' ∈ rest → d' ∈ s1.busyIds := fun d' hd' => by
    rw [hbusy, mem_append, mem_cons]
    rw [hrest, mem_append] at hd'
    tauto
  have hnew : d ∉ free ++ rest := (nodup_cons.1 (hperm.nodup_iff.2 h.nodup)).1
  have hroom : (free.flatMap idBytes).length + (idBytes d).length < q.freeDescRing.size := by
    have hsize : q.freeDescRing.size = q.queueSize * 2 + 1 := h.ringSize
    have hlen := (hperm.trans h.perm).length_eq
    have htwo : (idBytes d).length = 2 := rfl
    rw [length_cons, length_append, length_range] at hlen
    rw [length_flatMap_idBytes, hsize, htwo]
    change free.length + rest.length + 1 = q.queueSize at hlen
    omega
  obtain ⟨hholds, hwritten⟩ := RingBuffer.Holds.write_all h.holds (idBytes d) hroom
  obtain ⟨k, hlast, hnot, hat⟩ := h.pending d (hmem d (.inl rfl))
  have hlast' : lastSend s.sent d = some k := hlast
  refine ⟨h.lt_size (mem_append_right _ (hmem d (.inl rfl))), hwritten, h.size, h.le,
    (q.freeDescRing.write_size _).trans h.ringSize, ?_, ?_, fun d' hd' => ?_, ?_, fun r hr => ?_⟩
  · rw [flatMap_append, flatMap_singleton]
    exact hholds
  · refine List.Perm.trans ?_ (hperm.trans h.perm)
    rw [append_assoc, singleton_append]
    exact perm_middle
  · have hd'' : d' ∈ rest := hd'
    obtain ⟨k', hlast', hnot', hat'⟩ := h.pending d' (hmem d' (.inr hd''))
    refine ⟨k', hlast', ?_, hat'⟩
    rw [map_append, mem_append, not_or]
    refine ⟨hnot', fun hc => ?_⟩
    have hk : some k' = lastSend s.sent d := mem_singleton.1 hc
    rw [hlast] at hk
    rw [Option.some.inj hk, hat, Option.some.injEq, Prod.mk.injEq] at hat'
    exact hnew (hat'.1 ▸ mem_append_right _ hd'')
  · rw [map_append, map_singleton, hlast']
    refine List.Nodup.append h.once (nodup_singleton _) fun x hx hx' => hnot ?_
    have hk : x = some k := mem_singleton.1 hx'
    exact hk ▸ hx
  · rcases mem_append.1 hr with hr | hr
    · exact h.receipts r hr
    cases mem_singleton.1 hr
    exact ⟨k, hlast', hat⟩

theorem Accounts.receiveLoop {latest : UInt16}
    (h : Accounts k { s with queue := { q with lastUsedIdx := latest } } free) (nrLeft : ℕ) :
    ∃ q' latest' entries free', ZeldaOS.receiveLoop q latest nrLeft = .ok (q', latest', entries) ∧
      Accounts k (s.recordReceive { q' with lastUsedIdx := latest' } entries) free' := by
  induction nrLeft generalizing s q latest free with
  | zero => exact ⟨q, latest, [], free, rfl, by simpa [QueueSystem.recordReceive] using h⟩
  | succ nrLeft ih =>
    by_cases hne : latest = q.usedIdx
    · refine ⟨q, latest, [], free, ?_, by simpa [QueueSystem.recordReceive] using h⟩
      rw [ZeldaOS.receiveLoop, if_pos hne]
    obtain ⟨d, hid⟩ : ∃ d, (q.usedRing (latest.toNat % q.queueSize)).id.toNat = d := ⟨_, rfl⟩
    obtain ⟨hd, hwritten, hacc⟩ := h.reclaim hne hid
    obtain ⟨q', latest', entries, free', hloop, hacc'⟩ :=
      ih (s := { s with received := s.received ++ [⟨d, q.buffers d, lastSend s.sent d⟩] })
        (q := { q with freeDescRing := (q.freeDescRing.write (idBytes d)).1 }) hacc
    refine ⟨q', latest', ⟨q.buffers d, q.vqDesc d, q.usedRing (latest.toNat % q.queueSize)⟩ :: entries, free', ?_, ?_⟩
    · simp only [ZeldaOS.receiveLoop, if_neg hne, hid, ensure_of hd, ensure_of hwritten, hloop, bind, Except.bind]
    · simpa [QueueSystem.recordReceive, hid] using hacc'

theorem Accounts.fetch (h : Accounts k s free) (hne : s.lastAvailIdx ≠ s.queue.availIdx) :
    let s' : QueueSystem := { s with
      lastAvailIdx := s.lastAvailIdx + 1
      inFlight := (s.queue.availRing (s.lastAvailIdx.toNat % s.queue.queueSize)).toNat :: s.inFlight }
    Accounts k s' free := by
  intro s'
  have havail : s.availIds = (s.queue.availRing (s.lastAvailIdx.toNat % s.queue.queueSize)).toNat :: s'.availIds := by
    rw [QueueSystem.availIds, cellsBetween_pop h.size_dvd s.queue.availRing hne, map_cons]
    rfl
  have hperm : s'.busyIds.Perm s.busyIds := by
    refine perm_iff_count.2 fun a => ?_
    simp only [QueueSystem.busyIds, havail, count_append, count_cons, s']
    omega
  exact ⟨h.size, h.le, h.ringSize, h.holds, (hperm.append_left free).trans h.perm,
    fun d hd => h.pending d (hperm.mem_iff.1 hd), h.once, h.receipts⟩

theorem Accounts.complete (h : Accounts k s free) {i : ℕ} (hi : s.inFlight[i]? = some d) (len : UInt32) :
    let s' : QueueSystem := { s with
      inFlight := s.inFlight.eraseIdx i
      queue := { s.queue with
        usedRing := update s.queue.usedRing (s.queue.usedIdx.toNat % s.queue.queueSize) ⟨.ofNat d, len⟩
        usedIdx := s.queue.usedIdx + 1 } }
    Accounts k s' free := by
  intro s'
  have hflight : (d :: s.inFlight.eraseIdx i).Perm s.inFlight := by
    obtain ⟨hlt, hget⟩ := List.getElem?_eq_some_iff.1 hi
    rw [← hget]
    exact getElem_cons_eraseIdx_perm hlt
  have hmem : d ∈ s.inFlight := mem_of_getElem? hi
  have hd : d < s.queue.queueSize :=
    h.lt_size (mem_append_right _ (mem_append_left _ (mem_append_right _ hmem)))
  have hid : (UInt32.ofNat d).toNat = d := by
    have hsize := h.size_lt
    rw [UInt32.toNat_ofNat', Nat.mod_eq_of_lt (by omega)]
  have hused : s'.queue.usedIds = s.queue.usedIds ++ [d] := by
    have hroom : (s.queue.usedIdx - s.queue.lastUsedIdx).toNat < s.queue.queueSize := by
      have hlen := h.length
      have hl := length_cellsBetween s.queue.usedRing s.queue.queueSize s.queue.lastUsedIdx s.queue.usedIdx
      have hpos := length_pos_of_mem hmem
      simp only [QueueSystem.busyIds, Virtqueue.usedIds, length_append, length_map, hl] at hlen
      omega
    have hpush := cellsBetween_push h.size_dvd h.size_lt s.queue.usedRing hroom ⟨.ofNat d, len⟩
    simp only [s', Virtqueue.usedIds, hpush, map_append, map_singleton, hid]
  have hperm : s'.busyIds.Perm s.busyIds := by
    have hcount := fun a => perm_iff_count.1 hflight a
    refine perm_iff_count.2 fun a => ?_
    have ha := hcount a
    have havail : s'.availIds = s.availIds := rfl
    simp only [QueueSystem.busyIds, hused, havail, count_append, count_cons, count_nil] at ha ⊢
    have hflight' : s'.inFlight = s.inFlight.eraseIdx i := rfl
    rw [hflight']
    omega
  exact ⟨h.size, h.le, h.ringSize, h.holds, (hperm.append_left free).trans h.perm,
    fun d' hd' => h.pending d' (hperm.mem_iff.1 hd'), h.once, h.receipts⟩

theorem Accounts.rawSend (h : Accounts k s free) (buffers : List (VirtqDesc × UInt32)) :
    ∃ q' ids free', ZeldaOS.rawSend s.queue buffers = .ok (q', ids) ∧ ids.length = min buffers.length free.length ∧
      Accounts k (s.recordSend q' ids (buffers.map Prod.snd)) free' := by
  have h0 : s.queue.publish 0 = s.queue := by
    exact congrArg (fun idx => { s.queue with availIdx := idx }) (UInt16.add_zero _)
  obtain ⟨q', ids, free', hloop, hlen, hacc⟩ := Accounts.sendLoop (by rw [h0]; exact h) buffers
  refine ⟨q'.publish ids.length, ids, free', ?_, hlen, ?_⟩
  · simp only [ZeldaOS.rawSend, hloop, bind, Except.bind]
  rw [Nat.zero_add] at hacc
  exact hacc

theorem Accounts.supplyPacket (h : Accounts k s free) (packets : List Packet) :
    ∃ q' ids free', ZeldaOS.supplyPacket s.queue packets = .ok (q', ids) ∧
      Accounts k (s.recordSend q' ids (packets.map Packet.address)) free' := by
  have hnum : s.queue.freeDescRing.length = 2 * free.length := by
    rw [h.holds.length_eq, length_flatMap_idBytes]
  have heven : s.queue.freeDescRing.length % 2 = 0 := by omega
  have hhalf : s.queue.freeDescRing.length / 2 = free.length := by omega
  simp only [ZeldaOS.supplyPacket, ensure_of heven, hhalf, bind, Except.bind]
  set taken := packets.take (min 64 free.length) with htaken
  have htake : taken.length ≤ free.length := by
    rw [htaken, length_take]
    omega
  by_cases hempty : taken.isEmpty = true
  · rw [if_pos hempty]
    exact ⟨s.queue, [], free, rfl, h⟩
  rw [if_neg hempty]
  obtain ⟨q', ids, free', hsend, hlen, hacc⟩ := h.rawSend (taken.map Packet.supplied)
  have hids : taken.length = ids.length := by
    rw [hlen, length_map]
    omega
  refine ⟨q', ids, free', by simp only [hsend, ensure_of hids], ?_⟩
  have htt : packets.take taken.length = taken := by
    rw [htaken, length_take, take_eq_take_iff]
    omega
  have hzip : ids.zip ((taken.map Packet.supplied).map Prod.snd) = ids.zip (packets.map Packet.address) := by
    have hmap : (taken.map Packet.supplied).map Prod.snd = (packets.map Packet.address).take ids.length := by
      rw [← map_take, ← hids, htt, map_map]
      rfl
    rw [hmap, zip_take_length]
  rw [QueueSystem.recordSend, hzip] at hacc
  exact hacc

end

/-! ## Runs -/

/-- The free descriptors, the available, the busy and the used ones are all descriptors, each once. -/
def Conserved (n : ℕ) (s : QueueSystem) : Prop :=
  (s.queue.freeIds ++ s.availIds ++ s.inFlight ++ s.queue.usedIds).Perm (List.range n)

/-- Every receipt is for the last send of its descriptor, and no two are for the same send. -/
def HandedBack (s : QueueSystem) : Prop :=
  (s.received.map Receipt.send).Nodup ∧ ∀ r ∈ s.received, ∃ k, r.send = some k ∧ sendAt s.sent k = some (r.id, r.buffer)

theorem accounts_step {k : ℕ} (s : QueueSystem) (op : QueueOp) (h : ∃ free, Accounts k s free) :
    ∃ s', s.step op = .ok s' ∧ ∃ free, Accounts k s' free := by
  obtain ⟨free, h⟩ := h
  cases op with
  | send buffers =>
    obtain ⟨q', ids, free', hsend, -, hacc⟩ := h.rawSend buffers
    exact ⟨_, by simp only [QueueSystem.step, hsend, bind, Except.bind], free', hacc⟩
  | supply packets =>
    obtain ⟨q', ids, free', hsupply, hacc⟩ := h.supplyPacket packets
    exact ⟨_, by simp only [QueueSystem.step, hsupply, bind, Except.bind], free', hacc⟩
  | receive nrBuffer =>
    obtain ⟨q', latest, entries, free', hloop, hacc⟩ := Accounts.receiveLoop h nrBuffer
    exact ⟨_, by simp only [QueueSystem.step, rawReceive, hloop, bind, Except.bind], free', hacc⟩
  | fetch =>
    by_cases hne : s.lastAvailIdx = s.queue.availIdx
    · exact ⟨s, if_pos hne, free, h⟩
    · exact ⟨_, if_neg hne, free, h.fetch hne⟩
  | complete i len =>
    cases hi : s.inFlight[i]? with
    | none => exact ⟨s, by simp only [QueueSystem.step, hi], free, h⟩
    | some d => exact ⟨_, by simp only [QueueSystem.step, hi], free, h.complete hi len⟩

theorem virtQueueSetup_accounts {k : ℕ} (hk : k ≤ 15) (mallocated : ℕ → UInt8) :
    ∃ q, virtQueueSetup (2 ^ k) mallocated = .ok q ∧ Accounts k (.start q) (List.range (2 ^ k)) := by
  have hreset : RingBuffer.Holds (RingBuffer.reset ⟨2 ^ k * 2 + 1, 0, 0, mallocated⟩)
      (([] : List ℕ).flatMap idBytes) := RingBuffer.holds_reset (Nat.succ_pos _)
  obtain ⟨ring, hfill, hsize, hholds⟩ := fillFreeRing_holds hreset (List.range (2 ^ k))
    (by rw [length_range, length_nil]; change _ < 2 ^ k * 2 + 1; omega)
  set q : Virtqueue := ⟨2 ^ k, 0, fun _ => ⟨0, 0, 0, 0⟩, 0, fun _ => 0, 0, fun _ => ⟨0, 0⟩, ring, fun _ => 0⟩
  have hbusy : (QueueSystem.start q).busyIds = [] := by
    simp [QueueSystem.busyIds, QueueSystem.availIds, Virtqueue.usedIds, QueueSystem.start, q, cellsBetween_self]
  refine ⟨q, by simp only [virtQueueSetup, hfill, bind, Except.bind]; rfl, rfl, hk, hsize, hholds, ?_,
    fun d hd => ?_, nodup_nil, fun r hr => by cases hr⟩
  · rw [hbusy, append_nil]
    exact List.Perm.refl _
  rw [hbusy] at hd
  cases hd

/-- **For every virtqueue of `2 ^ k` descriptors and every interleaving with the device, no `ASSERT` fails, every
descriptor is in one place, and every buffer is handed back at most once, for the last send of its descriptor.** -/
theorem descriptors_conserved {k : ℕ} (hk : k ≤ 15) (mallocated : ℕ → UInt8) (ops : List QueueOp) :
    ∃ q s, virtQueueSetup (2 ^ k) mallocated = .ok q ∧
      runSteps QueueSystem.step (.start q) ops = .ok s ∧ Conserved (2 ^ k) s ∧ HandedBack s := by
  obtain ⟨q, hq, hacc⟩ := virtQueueSetup_accounts hk mallocated
  obtain ⟨s, hrun, free, h⟩ := inv_run accounts_step ⟨_, hacc⟩ ops
  refine ⟨q, s, hq, hrun, ?_, h.once, h.receipts⟩
  have hperm := h.perm
  rw [h.size] at hperm
  rw [Conserved, h.freeIds_eq, append_assoc, append_assoc, ← append_assoc s.availIds]
  exact hperm

/-- The device is done with the second buffer first, and one of three more finds a free descriptor. -/
def smallTraffic : List QueueOp :=
  [.send [(⟨0, 8, 0, 0⟩, 0x1000), (⟨0, 8, 0, 0⟩, 0x2000)], .fetch, .fetch, .complete 0 8, .receive 4,
    .send [(⟨0, 8, 0, 0⟩, 0x3000), (⟨0, 8, 0, 0⟩, 0x4000)], .complete 0 8, .fetch, .complete 0 8, .receive 4]

theorem descriptors_conserved_small : ∃ q s, virtQueueSetup (2 ^ 1) (fun _ => 0xff) = .ok q ∧
      runSteps QueueSystem.step (.start q) smallTraffic = .ok s ∧
      s.received = [⟨1, 0x2000, some 1⟩, ⟨0, 0x1000, some 0⟩, ⟨1, 0x3000, some 2⟩] ∧
      Conserved (2 ^ 1) s ∧ HandedBack s := by
  obtain ⟨q, s, hq, hrun, hcons, hback⟩ := descriptors_conserved (by decide : 1 ≤ 15) (fun _ => 0xff) smallTraffic
  have hreceived : ((virtQueueSetup (2 ^ 1) fun _ => 0xff).toOption.bind fun q =>
      (runSteps QueueSystem.step (.start q) smallTraffic).toOption.map QueueSystem.received) =
      some [⟨1, 0x2000, some 1⟩, ⟨0, 0x1000, some 0⟩, ⟨1, 0x3000, some 2⟩] := by decide
  rw [hq] at hreceived
  change (runSteps QueueSystem.step (.start q) smallTraffic).toOption.map QueueSystem.received = _ at hreceived
  rw [hrun] at hreceived
  exact ⟨q, s, hq, hrun, Option.some.inj hreceived, hcons, hback⟩

end ZeldaOS
