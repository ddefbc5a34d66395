import ChromiumBase.Base.Metrics.PersistentMemoryAllocator.Iterable

/-!
# Iterating while blocks are allocated and made iterable

The steps of `Iterator::GetNext` and the invariant of whole runs: all calls, in any
interleaving, keep the queue and the layout of the segment, and none marks it as corrupt.
-/

open Function List

namespace ChromiumBase.PersistentMemoryAllocator

open SharedMemory LinkedQueue

variable {S : Segment} {g g' : Aux} {m m' : Memory} {l k l' : Call} {r count v i last next : ℕ}

/-- Blocks of at least 24 bytes that are apart have different quotients by 24. -/
theorem Queued.length_le (hl : Layout S (words m)) (hq : Queued g m) :
    g.queue.length ≤ words m 40 / 24 := by
  have hn : (g.queue.map (· / 24)).Nodup := by
    refine (nodup_cons.mp hq.nodup).2.map_on fun r hr r' hr' heq => ?_
    by_contra hne
    have hb := hq.block r hr
    have hb' := hq.block r' hr'
    have hs := hb.size_ge
    have hs' := hb'.size_ge
    rcases hl.apart r r' hb hb' hne with h | h <;> omega
  have hsu : g.queue.map (· / 24) ⊆ List.range (words m 40 / 24) := by
    intro x hx
    obtain ⟨r, hr, rfl⟩ := mem_map.mp hx
    have hb := hq.block r hr
    have hs := hb.size_ge
    have hbe := hl.below r hb
    rw [mem_range]
    omega
  simpa using (hn.subperm hsu).length_le

theorem Queued.count_le (hl : Layout S (words m)) (hq : Queued g m) (i : ℕ) :
    m (.recordCount i) ≤ words m 40 / 24 := by
  have hs : g.counted i ⊆ g.queue := fun r hr => (hq.counted i r hr).1
  rw [hq.count i]
  exact ((hq.counted_nodup i).subperm hs).length_le.trans (hq.length_le hl)

theorem isCorrupt_update_of_ne {a : Location} (hc : a ≠ .corrupt)
    (hw : ∀ o, a ≠ .word o) : isCorrupt (update m a v) = isCorrupt m := by
  unfold isCorrupt
  rw [update_of_ne (Ne.symm hc), update_of_ne (Ne.symm (hw _))]

/-- An iterator may move on to a node behind all that it has been at. -/
theorem proceeds_lastRecord (hq : Queued g m) (hv : v ≠ 0)
    (hp : ∀ r, Passed g.queue (m (.lastRecord i)) r → Passed g.queue v r)
    (hu : m (.lastRecord i) = 0 → l.constructs = some i)
    (hok : QueueOk g (update m (.lastRecord i) v) l') (hi : l'.iterable = l.iterable)
    (hc : l'.constructs = l.constructs)
    (ht : ∀ k r, l'.taken = some (k, r) → l.taken = some (k, r) ∨ r ∈ g.queue ∧
      ∀ r', Passed g.queue (m (.lastRecord k)) r' →
        (48 :: g.queue).idxOf r' < (48 :: g.queue).idxOf r) :
    Proceeds g m l g (update m (.lastRecord i) v) l' := by
  have hw : words (update m (.lastRecord i) v) = words m :=
    words_update_of_ne m v (by simp)
  have hp' : ∀ k r, Passed g.queue (m (.lastRecord k)) r →
      Passed g.queue (update m (.lastRecord i) v (.lastRecord k)) r := by
    intro k r h
    by_cases hk : k = i
    · subst hk
      rw [update_self]
      exact hp r h
    · rwa [update_of_ne (by simpa using hk)]
  refine ⟨⟨?_, hq.nodup, ?_, ?_, ?_, hq.counted_nodup,
    fun k r hr => hp' k r (hq.counted k r hr), ?_, ?_⟩, hok,
    ⟨prefix_refl _, ?_, ?_, ?_, ?_, ?_, hp', fun _ _ h _ => h⟩, hi, hc, ht⟩
  · rw [hw]
    exact hq.follows
  · rw [hw]
    exact hq.block
  · rw [hw]
    exact hq.tail
  · rw [hw]
    exact hq.waiting
  · intro k
    exact hq.count k
  · rw [isCorrupt_update_of_ne (by simp) (by simp)]
    exact hq.sane
  · rw [hw]
  · rw [hw]
    exact fun _ _ _ => rfl
  · rw [hw]
    exact fun _ _ h _ => ⟨rfl, h⟩
  · intro k hk hz
    have hne : k ≠ i := by
      rintro rfl
      exact hk (hu hz)
    rwa [update_of_ne (by simpa using hne)]
  · intro k hk
    by_cases hki : k = i
    · subst hki
      rwa [update_self]
    · rwa [update_of_ne (by simpa using hki)]

theorem proceeds_countRecord {type : ℕ} (hl : Layout S (words m)) (hq : Queued g m)
    (hok : QueueOk g m (.countRecord i next type)) : Proceeds g m (.countRecord i next type)
      ⟨g.queue, update g.counted i (g.counted i ++ [next])⟩
      (update m (.recordCount i) (add32 (m (.recordCount i)) 1))
      (.returned i next type) := by
  obtain ⟨hp, hnew⟩ := hok
  set v := add32 (m (.recordCount i)) 1 with hv
  have hw : words (update m (.recordCount i) v) = words m :=
    words_update_of_ne m v (by simp)
  have hla : ∀ k, update m (.recordCount i) v (.lastRecord k) = m (.lastRecord k) :=
    fun k => update_of_ne (by simp) _ _
  have hc : v = m (.recordCount i) + 1 := by
    have hle := hq.count_le hl i
    have hg := hl.good.le_memSize
    have hmem := S.memSize_le
    unfold kSegmentMaxSize at hmem
    exact add32_of_lt (by omega)
  refine ⟨⟨?_, hq.nodup, ?_, ?_, ?_, fun k => ?_, fun k r hr => ?_, fun k => ?_, ?_⟩, ?_,
    ⟨prefix_refl _, ?_, ?_, ?_, ?_, ?_, ?_, fun k r hr hne => ?_⟩, rfl, rfl,
    fun _ _ h => .inl h⟩
  · rw [hw]
    exact hq.follows
  · rw [hw]
    exact hq.block
  · rw [hw]
    exact hq.tail
  · rw [hw]
    exact hq.waiting
  · by_cases hk : k = i
    · subst hk
      simp only [update_self]
      exact (hq.counted_nodup k).append (nodup_singleton next) (by simpa using hnew)
    · simp only [update_of_ne hk]
      exact hq.counted_nodup k
  · rw [hla]
    by_cases hk : k = i
    · subst hk
      simp only [update_self, mem_append, mem_singleton] at hr
      rcases hr with hr | rfl
      · exact hq.counted k r hr
      · exact hp
    · simp only [update_of_ne hk] at hr
      exact hq.counted k r hr
  · by_cases hk : k = i
    · subst hk
      simp [hc, hq.count k]
    · rw [update_of_ne (by simpa using hk)]
      simp only [update_of_ne hk]
      exact hq.count k
  · rw [isCorrupt_update_of_ne (by simp) (by simp)]
    exact hq.sane
  · change Passed g.queue _ next
    exact hp
  · rw [hw]
  · rw [hw]
    exact fun _ _ _ => rfl
  · rw [hw]
    exact fun _ _ h _ => ⟨rfl, h⟩
  · intro k _ hz
    rwa [hla]
  · intro k hz
    rwa [hla]
  · intro k r h
    rwa [hla]
  · by_cases hk : k = i
    · subst hk
      have hrn : r ≠ next := fun h => hne (by rw [h]; rfl)
      simp [hr, hrn]
    · simpa only [update_of_ne hk] using hr

theorem Queued.not_passed_zero (hq : Queued g m) : ¬ Passed g.queue 0 r := by
  rintro ⟨-, h0, -⟩
  have := (hq.block 0 h0).pastMetadata
  omega

theorem Queued.mem_of_linked (hq : Queued g m) (hr : Linked (words m) r)
    (hne : words m (r + 12) ≠ 48) : r ∈ 48 :: g.queue ∧ words m (r + 12) ∈ g.queue := by
  have hmem : r ∈ 48 :: g.queue := by
    rcases hr.1 with rfl | hb
    · exact mem_cons_self
    · by_contra hnot
      rcases hq.waiting r hb fun h => hnot (mem_cons_of_mem _ h) with h | h
      · exact hr.2 h
      · exact hne h
  exact ⟨hmem, (hq.follows.next_eq hmem).resolve_left hne⟩

/-- The exchange with which a call takes a block from an iterator. -/
theorem proceeds_advance (hq : Queued g m) (hok : QueueOk g m (.advance i count last next))
    (hat : m (.lastRecord i) = last) :
    Proceeds g m (.advance i count last next) g (update m (.lastRecord i) next)
      (.loadType i count next) := by
  obtain ⟨hbo, hle, hla, hl, hn⟩ := hok
  have hne : linkOf (words m) last ≠ 48 := by
    unfold linkOf
    rw [hl]
    exact hq.follows.ne_stop hn
  have hpos : (48 :: g.queue).idxOf next = (48 :: g.queue).idxOf last + 1 := by
    have := hq.follows.idxOf_next hq.nodup hla hne
    rwa [show linkOf (words m) last = next from hl] at this
  have hb : ∀ r, Passed g.queue (m (.lastRecord i)) r →
      (48 :: g.queue).idxOf r < (48 :: g.queue).idxOf next := by
    intro r hr
    have := hr.2.2
    rw [hat] at this
    omega
  have hnext0 : next ≠ 0 := by
    have := (hq.block next hn).pastMetadata
    omega
  refine proceeds_lastRecord hq hnext0 (fun r hr => ⟨hr.1, hn, (hb r hr).le⟩)
    (fun hz => absurd hz hbo) ⟨?_, ?_, ?_⟩ rfl rfl ?_
  · rw [words_update_of_ne m next (by simp)]
    exact hle
  · rw [update_self]
    exact ⟨hn, hn, le_rfl⟩
  · exact fun hmem => lt_irrefl _ (hb next (hq.counted i next hmem))
  · rintro k r h
    obtain ⟨rfl, rfl⟩ := Prod.mk.inj (Option.some.inj h)
    exact .inr ⟨hn, hb⟩

theorem proceeds_storeLast (hc : Linked (words m) last) (hq : Queued g m)
    (hok : QueueOk g m (.storeLast i last)) :
    Proceeds g m (.storeLast i last) g (update m (.lastRecord i) last) (.constructed i) := by
  have hl : last ≠ 0 := by
    rcases hc.1 with h | hb
    · omega
    · have := hb.pastMetadata
      omega
  have hz : m (.lastRecord i) = 0 := hok
  refine proceeds_lastRecord hq hl (fun r hr => ?_) (fun _ => rfl) ?_ rfl rfl
    fun _ _ h => .inl h
  · rw [hz] at hr
    exact absurd hr hq.not_passed_zero
  · simpa [QueueOk] using hl

theorem not_maxRecords_lt (hl : Layout S (words m)) (hle : count ≤ words m 40 / 24) :
    ¬ maxRecords S.memSize (m (.word freeptrOffset)) < count := by
  have hmin : min (m (.word 40)) S.memSize = m (.word 40) := min_eq_left hl.good.le_memSize
  have hle : count ≤ m (.word 40) / 24 := hle
  simp only [maxRecords, freeptrOffset, sizeofBlockHeader, kAllocAlignment]
  omega

/-- What any step does to the queue, if it leaves alone what the other calls rely on.
Allocation has nothing to do with the queue. -/
theorem proceeds_action (hl : Layout S (words m)) (hc : CallOk S (words m) l)
    (hq : Queued g m) (hok : QueueOk g m l) : (action S l).Ensures m fun m' l' =>
      Guarantee S l (words m) (words m') → ∃ g', Proceeds g m l g' m' l' := by
  cases l with
  -- `AllocateImpl`
  | loadFreeptr f => exact fun _ => ⟨g, .of_read hq trivial⟩
  | testCorrupt f =>
    refine .read fun _ => ?_
    rw [hq.sane]
    exact ⟨g, attempt_proceeds hq hc.1 hc.2.1⟩
  | setFull =>
    exact fun hg => ⟨g, .of_quiet hq hg ((isCorrupt_setFull m).trans hq.sane) trivial⟩
  | reserveWasted f =>
    refine .exchange (fun _ hg => ?_) fun _ _ => ?_
    · exact ⟨g, .of_quiet hq hg hq.sane_update trivial⟩
    · exact ⟨g, .of_read hq trivial⟩
  | reserve f =>
    refine .exchange (fun _ hg => ?_) fun _ _ => ?_
    · exact ⟨g, .of_quiet hq hg hq.sane_update (show 0 ≤ 3 by omega)⟩
    · exact ⟨g, .of_read hq trivial⟩
  | verify f field =>
    have hz : m (.word (f.freeptr + 4 * field)) = 0 :=
      hc.2.2 _ (by omega) (by have : field ≤ 3 := hok; omega)
    refine .read fun _ => ?_
    dsimp only
    rw [if_neg (not_not.mpr hz)]
    split
    · exact ⟨g, .of_read hq (show field + 1 ≤ 3 by omega)⟩
    · exact ⟨g, .of_read hq trivial⟩
  | writeWastedSize f | writeWastedCookie f =>
    have := hc.2.1.pastMetadata
    exact fun hg => ⟨g, .of_quiet hq hg hq.sane_update trivial⟩
  | writeSize f | writeCookie f | writeTypeId f =>
    have := hc.1.good.pastMetadata
    exact fun hg => ⟨g, .of_quiet hq hg hq.sane_update trivial⟩
  -- `MakeIterable`
  | makeIterable ref =>
    refine .read fun _ => ?_
    rw [hq.sane]
    exact ⟨g, .of_read hq hok⟩
  | checkBlock ref =>
    refine .read fun _ => ?_
    rw [hl.getBlock_block hc]
    exact ⟨g, .of_read hq hok⟩
  | loadNext ref =>
    have hz : m (.word (ref + 12)) = 0 := hok
    refine .read fun _ => ?_
    dsimp only
    rw [if_neg (not_not.mpr hz)]
    exact ⟨g, .of_read hq hok⟩
  | storeNext ref => exact fun _ => ⟨g, proceeds_storeNext hl hq hc hok⟩
  | loadTail ref =>
    exact fun _ => ⟨g, .of_read hq ⟨hok.1, hok.2, hq.tail⟩⟩
  | checkTail ref tail =>
    refine .read fun _ => ?_
    rw [hl.getBlock_node hc.2.2.1]
    exact ⟨g, .of_read hq hok⟩
  | link ref tail =>
    refine .exchange (fun hend _ => ⟨_, proceeds_link hl hq hc.1 hok hend⟩) fun hne _ => ?_
    obtain ⟨hli, hmem, ht⟩ := hok
    have hnex := (hq.follows.next_eq ht).resolve_left hne
    exact ⟨g, .of_read hq ⟨hli, hmem, ht, hnex⟩⟩
  | swingTail ref tail =>
    refine .exchange (fun _ _ => ?_) fun _ _ => ?_
    · exact ⟨g, proceeds_tail hq (mem_cons_of_mem _ hok) hok⟩
    · exact ⟨g, .of_read hq hok⟩
  | helpTail ref tail next =>
    obtain ⟨hli, hmem, ht, hnex⟩ := hok
    refine .exchange (fun _ _ => ?_) fun _ _ => ?_
    · refine ⟨g, proceeds_tail hq (mem_cons_of_mem _ hnex) ⟨?_, hmem, ht⟩⟩
      have hn : Node (words m) ref := .inr hc.1
      rw [words_update_word, hn.update_next]
      exact hli
    · exact ⟨g, .of_read hq ⟨hli, hmem, hq.tail⟩⟩
  -- iterators
  | construct i startingAfter => exact fun _ => ⟨g, .of_read hq hok⟩
  | storeLast i last => exact fun _ => ⟨g, proceeds_storeLast hc hq hok⟩
  | loadCount i =>
    exact fun _ => ⟨g, .of_read hq ⟨hok, hq.count_le hl i⟩⟩
  | loadLast i count =>
    exact fun _ => ⟨g, .of_read hq ⟨hok.1, hok.2, hok.1⟩⟩
  | checkLast i count last =>
    refine .read fun _ => ?_
    rw [hl.getBlock_node (hc hok.2.2).1]
    exact ⟨g, .of_read hq hok⟩
  | followLast i count last =>
    refine .read fun _ => ?_
    dsimp only
    split
    · exact ⟨g, .of_read hq trivial⟩
    · next hne =>
      obtain ⟨hla, hnex⟩ := hq.mem_of_linked hc hne
      exact ⟨g, .of_read hq ⟨hok.1, hok.2.1, hla, rfl, hnex⟩⟩
  | checkNext i count last next =>
    refine .read fun _ => ?_
    rw [hl.getBlock_block (hq.block next hok.2.2.2.2)]
    exact ⟨g, .of_read hq hok⟩
  | advance i count last next =>
    refine .exchange (fun hat _ => ⟨g, proceeds_advance hq hok hat⟩) fun _ _ => ?_
    exact ⟨g, .of_read hq ⟨hok.1, hok.2.1, hok.1⟩⟩
  | loadType i count next => exact fun _ => ⟨g, .of_read hq hok⟩
  | testCount i count next type =>
    refine .read fun _ => ?_
    dsimp only
    rw [if_neg (not_maxRecords_lt hl hok.1)]
    exact ⟨g, .of_read hq hok.2⟩
  | countRecord i next type => exact fun _ => ⟨_, proceeds_countRecord hl hq hok⟩
  | setCorrupt resume | setCorruptFlag resume => exact hok.elim
  | idle | allocated f | allocateFailed | madeIterable ref | constructed k | returned k next t
  | returnedNull k => trivial

/-- A block that has a link, and an iterator that has a position, got it from some call. -/
structure Claimed (c : Config) : Prop where
  iterable : ∀ r, Block (words c.memory) r → words c.memory (r + 12) ≠ 0 →
    ∃ j, (c.call j).iterable = some r
  constructs : ∀ k, c.memory (.lastRecord k) ≠ 0 → ∃ j, (c.call j).constructs = some k

variable (S) in
structure Coherent (g : Aux) (c : Config) : Prop where
  sound : Sound S c
  queue : Holds Queued QueueOk Distinct g c
  claimed : Claimed c

section Run

variable {c c' : Config}

theorem exists_update {α : Type*} {p : Call → Option α} {a : α}
    (hp : p (c.call i) = some a → p l' = some a) (h : ∃ j, p (c.call j) = some a) :
    ∃ j, p (update c.call i l' j) = some a := by
  obtain ⟨j, hj⟩ := h
  refine ⟨j, ?_⟩
  by_cases hji : j = i
  · subst hji
    rw [update_self]
    exact hp hj
  · rwa [update_of_ne hji]

/-- Blocks get links and iterators get positions from calls only. -/
theorem Claimed.run (h : Claimed c) (hq : Queued g c.memory)
    (hg : Guarantee S (c.call i) (words c.memory) (words m'))
    (hp : Proceeds g c.memory (c.call i) g' m' l') : Claimed ⟨m', update c.call i l'⟩ := by
  refine ⟨fun r hb hl => exists_update hp.iterable.trans ?_,
    fun k hk => exists_update hp.constructs.trans ?_⟩
  · by_contra hn
    have hne : (c.call i).iterable ≠ some r := fun hi => hn ⟨i, hi⟩
    rcases hg.fresh r hb with hold | ⟨-, hz⟩
    · have hz : words c.memory (r + 12) = 0 := by
        by_contra hnz
        exact hn (h.iterable r hold hnz)
      exact hl (((hp.continues.waiting r hold (hq.not_mem hz) hne).1).trans hz)
    · exact hl hz
  · by_contra hn
    have hne : (c.call i).constructs ≠ some k := fun hi => hn ⟨i, hi⟩
    have hz : c.memory (.lastRecord k) = 0 := by
      by_contra hnz
      exact hn (h.constructs k hnz)
    exact hk (hp.continues.unborn k hne hz)

theorem Coherent.run (h : Coherent S g c)
    (hp : (action S (c.call i)).perform c.memory = some (m', l')) :
    ∃ g', Coherent S g' ⟨m', update c.call i l'⟩ ∧ Proceeds g c.memory (c.call i) g' m' l' := by
  have hl := h.sound.layout
  have hg := ((advances_action hl h.sound.last (h.sound.call i)).of_perform hp).guarantee
  have hq := h.queue.shared
  obtain ⟨g', hpr⟩ :=
    (proceeds_action hl (h.sound.call i) hq (h.queue.call i)).of_perform hp hg
  refine ⟨g', ⟨h.sound.step (.run i hp), ?_, h.claimed.run hq hg hpr⟩, hpr⟩
  exact Holds.update (fun _ _ => Distinct.symm) h.queue ⟨hpr.queued, hpr.own, fun j _ hj hd =>
    ⟨hj.kept hpr.continues hq (h.sound.call j) hd, hpr.distinct hj hd⟩⟩

theorem allocateImpl_cases (reqSize typeId : ℕ) : allocateImpl S reqSize typeId = .allocateFailed ∨
      ∃ f, allocateImpl S reqSize typeId = .loadFreeptr f := by
  unfold allocateImpl
  split
  · exact .inl rfl
  · simp only
    split
    · exact .inl rfl
    · exact .inr ⟨_, rfl⟩

/-- A call that may be started meets the assertion of its first program point. -/
theorem Coherent.start_ok (h : Coherent S g c) (hs : Start S c l) :
    QueueOk g c.memory l ∧ l.taken = none ∧ ∀ j, Distinct l (c.call j) := by
  cases hs with
  | allocate reqSize typeId =>
    rcases allocateImpl_cases (S := S) reqSize typeId with hc | ⟨f, hc⟩ <;> rw [hc] <;>
      exact ⟨trivial, rfl, fun j => ⟨nofun, nofun, nofun⟩⟩
  | @makeIterable ref hbl ho =>
    have hb := h.sound.block_of_returned hbl
    have hz : words c.memory (ref + 12) = 0 := by
      by_contra hnz
      obtain ⟨j, hj⟩ := h.claimed.iterable ref hb hnz
      exact ho j hj
    refine ⟨hz, rfl, fun j => ⟨fun r hr => ?_, nofun, nofun⟩⟩
    obtain rfl := Option.some.inj hr
    exact ho j
  | @construct k startingAfter hbl ho =>
    have hz : c.memory (.lastRecord k) = 0 := by
      by_contra hnz
      obtain ⟨j, hj⟩ := h.claimed.constructs k hnz
      exact ho j hj
    refine ⟨hz, rfl, fun j => ⟨nofun, fun i hi => ?_, nofun⟩⟩
    obtain rfl := Option.some.inj hi
    exact ho j
  | @getNext i k hco =>
    have hok := h.queue.call i
    rw [hco] at hok
    exact ⟨hok, rfl, fun j => ⟨nofun, nofun, nofun⟩⟩

theorem Coherent.start (h : Coherent S g c) (hid : c.call i = .idle) (hs : Start S c l) :
    Coherent S g ⟨c.memory, update c.call i l⟩ := by
  obtain ⟨hok, -, hd⟩ := h.start_ok hs
  refine ⟨h.sound.step (.start i hid hs), ?_, ⟨fun r hb hl => ?_, fun k hk => ?_⟩⟩
  · exact Holds.update (fun _ _ => Distinct.symm) h.queue
      ⟨h.queue.shared, hok, fun j _ hj _ => ⟨hj, hd j⟩⟩
  · refine exists_update (fun hi => ?_) (h.claimed.iterable r hb hl)
    rw [hid] at hi
    cases hi
  · refine exists_update (fun hi => ?_) (h.claimed.constructs k hk)
    rw [hid] at hi
    cases hi

theorem coherent_initial : Coherent S ⟨[], fun _ => []⟩ initial := by
  refine ⟨sound_initial, ⟨⟨rfl, by simp, by simp, by decide, fun r hb => ?_, by simp, by simp,
    fun _ => rfl, by decide⟩, fun _ => trivial, fun _ _ _ => ⟨nofun, nofun, nofun⟩⟩,
    ⟨fun r hb => ?_, fun k hk => absurd rfl hk⟩⟩
  · have hp := hb.pastMetadata
    exact fun _ => .inl (words_initialMemory (by omega))
  · have hp := hb.pastMetadata
    exact fun hne => absurd (words_initialMemory (by omega)) hne

end Run

end ChromiumBase.PersistentMemoryAllocator
