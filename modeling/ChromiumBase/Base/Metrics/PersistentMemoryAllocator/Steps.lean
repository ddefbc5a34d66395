import ChromiumBase.Base.Metrics.PersistentMemoryAllocator.Ownership

/-!
# The steps of calls that share a segment

Every step of every call keeps the layout of the segment.  The ranges of two calls are apart,
because each starts at the free pointer that the other one left.
-/

open Function

namespace ChromiumBase.PersistentMemoryAllocator

open SharedMemory

variable {S : Segment} {w w' : Words} {l k : Call} {ref a s : ℕ}

theorem Frame.Sized.setFreeptr {f : Frame} (hf : f.Sized S) (v : ℕ) :
    Frame.Sized S { f with freeptr := v } :=
  ⟨hf.ge_request, hf.size_ge, hf.le_memPage, hf.aligned⟩

def LastLinked (m : Memory) : Prop :=
  ∀ k, m (.lastRecord k) ≠ 0 → Linked (words m) (m (.lastRecord k))

variable (S) in
structure Advances (m : Memory) (l : Call) (m' : Memory) (l' : Call) : Prop where
  layout : Layout S (words m')
  last : LastLinked m'
  own : CallOk S (words m') l'
  guarantee : Guarantee S l (words m) (words m')
  owned : l'.owned S = none ∨ l'.owned S = l.owned S ∨ ∃ s, l'.owned S = some (words m 40, s)

section Step

variable {m m' : Memory} {l' : Call}

theorem Advances.of_read (hl : Layout S (words m)) (hla : LastLinked m)
    (hok : CallOk S (words m) l') (ho : l'.owned S = none ∨ l'.owned S = l.owned S := by
      first | exact .inl rfl | exact .inr rfl) : Advances S m l m l' :=
  ⟨hl, hla, hok, Guarantee.refl l _, ho.imp_right .inl⟩

variable {v r : ℕ} {f : Frame}

theorem Advances.of_word (hl : LastLinked m) (hla : Layout S (update (words m) a v))
    (hg : Guarantee S l (words m) (update (words m) a v)) (hok : CallOk S (update (words m) a v) l')
    (ho : l'.owned S = none ∨ l'.owned S = l.owned S ∨ ∃ s, l'.owned S = some (words m 40, s)) :
    Advances S m l (update m (.word a) v) l' := by
  refine ⟨?_, fun k hk => ?_, ?_, ?_, ho⟩
  · rwa [words_update_word]
  · rw [update_of_ne (by simp)] at hk ⊢
    rw [words_update_word]
    exact (hl k hk).grows hg.toGrows
  · rwa [words_update_word]
  · rwa [words_update_word]

theorem Advances.of_outside {a : Location} (hl : Layout S (words m)) (hla : LastLinked m)
    (hwo : ∀ o, a ≠ .word o) (hr : ∀ k, a = .lastRecord k → v ≠ 0 → Linked (words m) v)
    (hok : CallOk S (words m) l') (ho : l'.owned S = none ∨ l'.owned S = l.owned S) :
    Advances S m l (update m a v) l' := by
  have hw : words (update m a v) = words m := words_update_of_ne m v hwo
  refine ⟨?_, fun k hk => ?_, ?_, ?_, ho.imp_right .inl⟩
  · rwa [hw]
  · rw [hw]
    by_cases h : a = .lastRecord k
    · subst h
      rw [update_self] at hk ⊢
      exact hr k rfl hk
    · rw [update_of_ne (Ne.symm h)] at hk ⊢
      exact hla k hk
  · rwa [hw]
  · rw [hw]
    exact Guarantee.refl l _

/-- Moving the free pointer gives the call a range of its own, which is still zero. -/
theorem Layout.reserve (hl : Layout S w) {f : ℕ} (hf : w 40 = f) (hg : Good S f)
    (hg' : Good S (f + s)) (hs : 24 ≤ s) : Layout S (update w 40 (f + s)) ∧
      Guarantee S l w (update w 40 (f + s)) ∧
      Owns (update w 40 (f + s)) f s ∧
      ∀ o, f ≤ o → update w 40 (f + s) o = 0 := by
  have h64 := hg.pastMetadata
  refine ⟨hl.setFreeptr (by omega) hg', .metadata, ⟨h64, hg.aligned, hs, by simp,
    fun b hb _ => ?_⟩, fun o ho => ?_⟩
  · have hb' : Block w b := hb.of_update
    have := hl.below b hb'
    have := hb'.pastMetadata
    rw [update_of_ne (by omega)]
    exact .inl (by omega)
  · rw [update_of_ne (by omega)]
    exact hl.unused o (by omega)

theorem attempt_ok (hf : f.Sized S) (hg : Good S f.freeptr) (hle : f.freeptr ≤ w 40) :
    CallOk S w (attempt S w f) ∧ (attempt S w f).owned S = none := by
  rcases attempt_cases (w := w) hf hg with h | ⟨h, hlt⟩ | ⟨size, h, hfi, -⟩
  · rw [h]
    exact ⟨trivial, rfl⟩
  · rw [h]
    exact ⟨⟨hf, hg, hle, hlt⟩, rfl⟩
  · rw [h]
    exact ⟨⟨hfi, hle⟩, rfl⟩

theorem Frame.Fits.advances (hf : f.Fits S) (hl : Layout S (words m)) (hlas : LastLinked m)
    (hfr : m (.word 40) = f.freeptr) :
    Advances S m l (update m (.word 40) (add32 f.freeptr f.size)) (.verify f 0) := by
  have hs := hf.size_ge
  have hin := hf.inside
  have hgo' : Good S (f.freeptr + f.size) := hf.good.add (by omega) hf.aligned hf.rest
  obtain ⟨hla, hg, ho, hz⟩ := hl.reserve (l := l) hfr hf.good hgo' hs
  rw [add32_eq_of_le hin]
  exact Advances.of_word hlas hla hg ⟨hf, ho, fun o h _ => hz o h⟩
    (.inr (.inr ⟨f.size, by simp [words, hfr, Call.owned]⟩))

theorem Frame.Sized.advances_wasted (hf : f.Sized S) (hgo : Good S f.freeptr)
    (hlt : f.freeptr < S.memSize) (hl : Layout S (words m)) (hlas : LastLinked m)
    (hfr : m (.word 40) = f.freeptr) :
    Advances S m l (update m (.word 40) (add32 f.freeptr (pageFree S f.freeptr)))
      (.writeWastedSize f) := by
  obtain ⟨hla, hg, ho, hz⟩ :=
    hl.reserve (l := l) hfr hgo (hgo.add_pageFree hlt) hgo.pageFree_ge
  rw [add32_eq_of_le (add_pageFree_le hlt)]
  exact Advances.of_word hlas hla hg ⟨hf, hgo, ho, hz _ (by omega)⟩
    (.inr (.inr ⟨pageFree S f.freeptr, by simp [words, hfr, Call.owned]⟩))

theorem Owns.advances (ho : Owns (words m) r s) (hz : words m (r + 4) = 0)
    (how : l.owned S = some (r, s)) (hl : Layout S (words m)) (hla : LastLinked m)
    (ha : r ≤ a ∧ a < r + 16) (hnew : ∀ b, Block (update (words m) a v) b → Block (words m) b)
    (hok : CallOk S (update (words m) a v) l') (how' : l'.owned S = none ∨ l'.owned S = l.owned S) :
    Advances S m l (update m (.word a) v) l' := by
  have hq : Quiet (words m) a := ho.quiet hz ha.1 ha.2
  exact .of_word hla (hl.write_quiet (n := 0) hq fun b hb => .inl (hnew b hb))
    (.own how ho.size_ge ha.1 ha.2 hq fun b hb => .inl (hnew b hb)) hok
    (how'.imp_right .inl)

section

variable (hl : Layout S (words m)) (hla : LastLinked m)

include hl hla

theorem advances_writeSize (hok : CallOk S (words m) (.writeSize f)) :
    Advances S m (.writeSize f) (update m (.word f.freeptr) f.size) (.writeCookie f) := by
  obtain ⟨hf, ho, hze⟩ := hok
  have hz := hze (f.freeptr + 4) (by omega) (by omega)
  have hnew := fun b => ho.block_of_update (v := f.size) (b := b) hz
  refine ho.advances hz rfl hl hla ⟨le_rfl, by omega⟩ hnew
    ⟨hf, ho.grows (ho.quiet hz le_rfl (by omega)).grows fun b hb => .inl (hnew b hb), ?_⟩
    (.inr rfl)
  rw [update_self, update_of_ne (by omega), update_of_ne (by omega)]
  exact ⟨rfl, hz, hze _ (by omega) (by omega)⟩

theorem advances_writeWasted (hok : CallOk S (words m) (.writeWastedSize f)) :
    Advances S m (.writeWastedSize f)
      (update m (.word f.freeptr) (pageFree S f.freeptr)) (.writeWastedCookie f) := by
  obtain ⟨hf, hg, ho, hz⟩ := hok
  have hnew := fun b => ho.block_of_update (v := pageFree S f.freeptr) (b := b) hz
  refine ho.advances hz rfl hl hla ⟨le_rfl, by omega⟩ hnew
    ⟨hf, hg, ho.grows (ho.quiet hz le_rfl (by omega)).grows fun b hb => .inl (hnew b hb),
      ?_⟩ (.inr rfl)
  rw [update_of_ne (by omega)]
  exact hz

theorem advances_writeWastedCookie (hok : CallOk S (words m) (.writeWastedCookie f)) :
    Advances S m (.writeWastedCookie f)
      (update m (.word (f.freeptr + 4)) kBlockCookieWasted) (.testCorrupt f) := by
  obtain ⟨hf, hg, ho, hz⟩ := hok
  refine ho.advances hz rfl hl hla ⟨by omega, by omega⟩ (fun b hb => ?_) ⟨hf, hg, ?_⟩
    (.inl rfl)
  · rcases ho.block_of_update_cookie hb with h | ⟨-, h⟩
    · exact h
    · exact absurd h (by decide)
  · have := ho.pastMetadata
    have := ho.below
    rw [update_of_ne (by omega)]
    omega

/-- The cookie completes the header: from here on the range is a block. -/
theorem advances_writeCookie (hok : CallOk S (words m) (.writeCookie f)) :
    Advances S m (.writeCookie f)
      (update m (.word (f.freeptr + 4)) kBlockCookieAllocated) (.writeTypeId f) := by
  obtain ⟨hf, ho, hs, hz, hn⟩ := hok
  have hq : Quiet (words m) (f.freeptr + 4) := ho.quiet hz (by omega) (by omega)
  have hs' : update (words m) (f.freeptr + 4) kBlockCookieAllocated f.freeptr =
      f.size := by
    rw [update_of_ne (by omega), hs]
  refine .of_word hla (hl.write_quiet (n := f.freeptr) hq fun b hb => ?_)
    (.own rfl ho.size_ge (by omega) (by omega) hq fun b hb => ?_) ⟨hf, ⟨?_, ?_, ?_, ?_⟩, hs'⟩
    (.inr (.inl rfl))
  · refine (ho.block_of_update_cookie hb).imp_right fun ⟨hbf, _⟩ => ⟨hbf, ?_, ?_⟩
    · rw [hs']
      exact ho
    · rw [update_of_ne (by omega)]
      exact hn
  · refine (ho.block_of_update_cookie hb).imp_right fun ⟨hbf, _⟩ => ⟨hbf, hs', ?_⟩
    rw [update_of_ne (by omega)]
    exact hn
  · exact ho.pastMetadata
  · exact ho.aligned
  · exact update_self _ _ _
  · rw [hs']
    exact ho.size_ge

theorem advances_writeTypeId (hok : CallOk S (words m) (.writeTypeId f)) :
    Advances S m (.writeTypeId f) (update m (.word (f.freeptr + 8)) f.typeId) (.allocated f) := by
  obtain ⟨hf, hb, hs⟩ := hok
  have hq : Quiet (words m) (f.freeptr + 8) := hl.quiet_typeId hb
  refine .of_word hla
    (hl.write_quiet (n := 0) hq fun b h => .inl (hl.block_of_update_typeId hb h))
    (.own rfl hf.size_ge (by omega) (by omega) hq fun b h =>
      .inl (hl.block_of_update_typeId hb h))
    ⟨hf, hb.grows hq.grows, ?_⟩ (.inr (.inl rfl))
  rw [update_of_ne (by omega), hs]

theorem advances_flags (hok : CallOk S (update (words m) 36 v) l') (ho : l'.owned S = l.owned S) :
    Advances S m l (update m (.word flagsOffset) v) l' := by
  have hp := hl.good.pastMetadata
  have hq : Quiet (words m) 36 := ⟨by omega, by omega, fun b hb => by
    have := hb.pastMetadata
    omega⟩
  exact .of_word (a := 36) hla
    (hl.write_quiet (n := 0) hq fun b hb => .inl hb.of_update)
    .metadata hok (.inr (.inl ho))

end

theorem Layout.getBlock_block (hl : Layout S w) (hb : Block w r) :
    getBlock S.memSize w r 0 0 false false = some r := by
  have hbe := hl.below r hb
  have hin : r + w r ≤ S.memSize := hbe.trans hl.good.le_memSize
  have hs := hb.size_ge
  refine getBlock_eq_some_iff.mpr ⟨rfl, hb.pastMetadata, hb.aligned, ?_, hb.cookie, ?_, ?_,
    .inl rfl⟩
  · have h16 : r + 16 ≤ S.memSize := by omega
    exact (add32_eq_of_le h16).trans_le h16
  · exact Nat.le_trans (by decide) hs
  · exact (add32_eq_of_le hin).trans_le hin

theorem Layout.getBlock_node (hl : Layout S w) (hn : Node w r) :
    getBlock S.memSize w r 0 0 true false = some r := by
  rcases hn with rfl | hb
  · rfl
  · have := hb.pastMetadata
    have hne : r ≠ kReferenceQueue := by
      unfold kReferenceQueue
      omega
    simpa [getBlock, hne] using hl.getBlock_block hb

theorem advances_storeNext (hl : Layout S (words m)) (hla : LastLinked m)
    (hok : CallOk S (words m) (.storeNext ref)) :
    Advances S m (.storeNext ref) (update m (.word (ref + 12)) kReferenceQueue)
      (.loadTail ref) := by
  have hn : Node (words m) ref := .inr hok
  have hg : Guarantee S (.storeNext ref) (words m)
      (update (words m) (ref + 12) kReferenceQueue) :=
    .setNext hl hn hl.linked_queue.1 (by decide) nofun
  have hb : Block _ ref := Block.grows hok hg.toGrows
  refine .of_word hla (hl.setNext hn hl.linked_queue (by decide)) hg ⟨hb, .inr hb, ?_⟩
    (.inl rfl)
  rw [update_self]
  decide

theorem Layout.linked_startOf (hl : Layout S w) {startingAfter : ℕ}
    (hb : startingAfter = 0 ∨ Block w startingAfter) : Linked w (startOf S w startingAfter) := by
  unfold startOf
  split
  · exact hl.linked_queue
  · next h0 =>
    split
    · exact hl.linked_queue
    · next hn => exact ⟨.inr (hb.resolve_left h0), fun hz => hn (.inr hz)⟩

/-- A step of any call keeps the layout, the assertion about the call, and leaves alone what
the others rely on. -/
theorem advances_action (hl : Layout S (words m)) (hla : LastLinked m)
    (hok : CallOk S (words m) l) : (action S l).Ensures m (Advances S m l) := by
  cases l with
  -- `AllocateImpl`
  | loadFreeptr f =>
    exact .of_read hl hla ⟨Frame.Sized.setFreeptr hok _, hl.good, le_rfl⟩
  | testCorrupt f =>
    refine .read ?_
    split
    · exact .of_read hl hla trivial
    · obtain ⟨hc, ho⟩ := attempt_ok hok.1 hok.2.1 hok.2.2
      exact .of_read hl hla hc (.inl ho)
  | setFull => exact advances_flags hl hla trivial rfl
  | reserveWasted f =>
    obtain ⟨hf, hgo, hle, hlt⟩ := hok
    refine .exchange (fun hfr => ?_) fun _ => ?_
    · exact hf.advances_wasted hgo hlt hl hla hfr
    · exact .of_read hl hla ⟨hf.setFreeptr _, hl.good, le_rfl⟩
  | writeWastedSize f => exact advances_writeWasted hl hla hok
  | writeWastedCookie f => exact advances_writeWastedCookie hl hla hok
  | reserve f =>
    refine .exchange (fun hfr => ?_) fun _ => ?_
    · exact hok.1.advances hl hla hfr
    · exact .of_read hl hla ⟨hok.1.toSized.setFreeptr _, hl.good, le_rfl⟩
  | verify f field =>
    refine .read ?_
    dsimp only
    split
    · exact .of_read hl hla trivial
    · split <;> exact .of_read hl hla hok
  | writeSize f => exact advances_writeSize hl hla hok
  | writeCookie f => exact advances_writeCookie hl hla hok
  | writeTypeId f => exact advances_writeTypeId hl hla hok
  -- `MakeIterable`
  | makeIterable ref | checkBlock ref | checkTail ref tail | checkNext k count last next =>
    refine .read ?_
    split
    · exact .of_read hl hla trivial
    · exact .of_read hl hla hok
  | loadNext ref =>
    refine .read ?_
    dsimp only
    split
    · exact .of_read hl hla trivial
    · exact .of_read hl hla hok
  | storeNext ref => exact advances_storeNext hl hla hok
  | loadTail ref =>
    exact .of_read hl hla ⟨hok.1, hok.2, hl.tail⟩
  | link ref tail =>
    obtain ⟨hb, hli, ht⟩ := hok
    have hp := hb.pastMetadata
    refine .exchange (fun _ => ?_) fun _ => ?_
    · have hg : Guarantee S (.link ref tail) (words m)
          (update (words m) (tail + 12) ref) :=
        .setNext hl ht.1 hli.1 (by omega) nofun
      exact .of_word hla (hl.setNext ht.1 hli (by omega)) hg
        ⟨hb.grows hg.toGrows, hli.grows hg.toGrows, ht.grows hg.toGrows⟩ (.inl rfl)
    · exact .of_read hl hla ⟨hb, hli, ht, hl.next tail ht⟩
  | swingTail ref tail =>
    refine .exchange (fun _ => ?_) fun _ => ?_
    · exact .of_word (a := 44) hla (hl.setTail hok.2.1) .metadata
        trivial (.inl rfl)
    · exact .of_read hl hla trivial
  | helpTail ref tail next =>
    obtain ⟨hb, hli, ht, hn⟩ := hok
    refine .exchange (fun _ => ?_) fun _ => ?_
    · have hg : Guarantee S (.helpTail ref tail next) (words m)
          (update (words m) 44 next) := .metadata
      exact .of_word hla (hl.setTail hn) hg
        ⟨hb.grows hg.toGrows, hli.grows hg.toGrows, ht.grows hg.toGrows⟩ (.inl rfl)
    · exact .of_read hl hla ⟨hb, hli, hl.tail⟩
  -- iterators
  | construct k startingAfter =>
    exact .of_read hl hla (hl.linked_startOf hok)
  | storeLast k last =>
    exact .of_outside hl hla (by simp) (fun _ _ _ => hok) trivial (.inl rfl)
  | loadCount k | loadType k count next =>
    exact .of_read hl hla trivial
  | loadLast k count =>
    exact .of_read hl hla (hla k)
  | checkLast k count last =>
    refine .read ?_
    split
    · exact .of_read hl hla trivial
    · next hs =>
      refine .of_read hl hla (hok ?_)
      rintro rfl
      exact hs rfl
  | followLast k count last =>
    refine .read ?_
    dsimp only
    split
    · exact .of_read hl hla trivial
    · next hne => exact .of_read hl hla ⟨hok, hl.next last hok, hne⟩
  | advance k count last next =>
    refine .exchange (fun _ => ?_) fun _ => ?_
    · exact .of_outside hl hla (by simp) (fun _ _ _ => hok.2.1) trivial (.inl rfl)
    · exact .of_read hl hla (hla k)
  | testCount k count next type =>
    refine .read ?_
    dsimp only
    split <;> exact .of_read hl hla trivial
  | countRecord k next type =>
    exact .of_outside hl hla (by simp) (by simp) trivial (.inl rfl)
  | setCorrupt resume =>
    exact .of_outside hl hla (by simp) (by simp) hok (.inr rfl)
  | setCorruptFlag resume =>
    have hg : Guarantee S .idle (words m)
        (update (words m) 36 (setFlagCorrupt (m (.word flagsOffset)))) := .metadata
    exact advances_flags hl hla (CallOk.kept hg hok fun a _ ha => by cases ha) rfl
  | idle | allocated f | allocateFailed | madeIterable ref | constructed k | returned k next t
  | returnedNull k => trivial

end Step

variable (S) in
/-- The layout, what is known of each call, and that the ranges of the calls are apart. -/
def Sound (c : Config) : Prop :=
  Holds (fun _ m => Layout S (words m) ∧ LastLinked m) (fun _ m l => CallOk S (words m) l)
    (OwnedApart S) () c

section Sound

variable {c c' : Config}

theorem Sound.layout (h : Sound S c) : Layout S (words c.memory) := h.shared.1

theorem Sound.last (h : Sound S c) : LastLinked c.memory := h.shared.2

theorem Sound.block_of_returned (h : Sound S c) (hr : Returned c ref) :
    Block (words c.memory) ref := by
  obtain ⟨i, f, hc, rfl⟩ := hr
  have hok := h.call i
  rw [hc] at hok
  exact hok.2.1

theorem CallOk.owned_below (hl : Layout S w) (hk : CallOk S w k) {a : ℕ × ℕ}
    (ha : k.owned S = some a) : a.1 + a.2 ≤ w 40 := by
  induction k with
  | writeWastedSize f | writeWastedCookie f =>
    obtain rfl := Option.some.inj ha
    exact hk.2.2.1.below
  | verify f field | writeSize f | writeCookie f =>
    obtain rfl := Option.some.inj ha
    exact hk.2.1.below
  | writeTypeId f | allocated f =>
    obtain rfl := Option.some.inj ha
    have := hl.below _ hk.2.1
    rw [hk.2.2] at this
    exact this
  | setCorrupt resume ih | setCorruptFlag resume ih => exact ih hk ha
  | _ => cases ha

theorem Advances.apart {m m' : Memory} {l' : Call} (ha : Advances S m l m' l')
    (hl : Layout S (words m)) (hk : CallOk S (words m) k) (hr : OwnedApart S l k) :
    OwnedApart S l' k := by
  intro a b hla hkb
  rcases ha.owned with hn | hs | ⟨s, hnew⟩
  · rw [hn] at hla
    cases hla
  · exact hr a b (hs ▸ hla) hkb
  · rw [hnew] at hla
    obtain rfl := Option.some.inj hla
    exact .inr (hk.owned_below hl hkb)

theorem allocateImpl_ok (reqSize typeId : ℕ) (w : Words) :
    CallOk S w (allocateImpl S reqSize typeId) ∧
      (allocateImpl S reqSize typeId).owned S = none := by
  unfold allocateImpl
  split
  · exact ⟨trivial, rfl⟩
  · simp only
    split
    · exact ⟨trivial, rfl⟩
    · next hreq hs =>
      refine ⟨⟨le_rfl, ?_, ?_, ?_⟩, rfl⟩
      · simp only [roundUp, kAllocAlignment, sizeofBlockHeader] at hs ⊢
        omega
      · simp only
        omega
      · exact Nat.mul_mod_left _ _

theorem Start.ok (hs : Start S c l) (h : Sound S c) :
    CallOk S (words c.memory) l ∧ l.owned S = none := by
  cases hs with
  | allocate reqSize typeId => exact allocateImpl_ok reqSize typeId _
  | makeIterable hb _ => exact ⟨h.block_of_returned hb, rfl⟩
  | construct hb _ => exact ⟨hb.imp_right h.block_of_returned, rfl⟩
  | getNext _ => exact ⟨trivial, rfl⟩

/-- The step lemma of the allocator: every step keeps the layout and the assertions of all calls.
-/
theorem Sound.step (h : Sound S c) (hs : Step S c c') : Sound S c' := by
  have hsy : ∀ l k, OwnedApart S l k → OwnedApart S k l := fun _ _ h a b ha hb =>
    (h b a hb ha).symm
  cases hs with
  | @run i m l hp =>
    have ha := (advances_action h.layout h.last (h.call i)).of_perform hp
    exact Holds.update hsy h ⟨⟨ha.layout, ha.last⟩, ha.own, fun j _ hj hr =>
      ⟨hj.kept ha.guarantee hr, ha.apart h.layout hj hr⟩⟩
  | @start i l _ hst =>
    obtain ⟨hok, hn⟩ := hst.ok h
    refine Holds.update hsy h ⟨⟨h.layout, h.last⟩, hok, fun j _ hj _ =>
      ⟨hj, fun a _ ha => ?_⟩⟩
    rw [hn] at ha
    cases ha

theorem words_initialMemory {o : ℕ} (ho : 64 ≤ o) : words initialMemory o = 0 := by
  have hne : o ≠ freeptrOffset ∧ o ≠ tailptrOffset ∧ o ≠ kReferenceQueue ∧
      o ≠ kReferenceQueue + 4 ∧ o ≠ kReferenceQueue + 12 := by
    unfold freeptrOffset tailptrOffset kReferenceQueue
    omega
  simp [words, initialMemory, hne]

/-- A segment that has just been constructed, with no call started. -/
theorem sound_initial : Sound S initial := by
  have hm := S.metadata_le
  have hpa := S.memPage_ge
  have hbl : ∀ r, ¬ Block (words initialMemory) r := by
    intro r hb
    have hp := hb.pastMetadata
    have hc := hb.cookie
    rw [words_initialMemory (by omega)] at hc
    exact absurd hc (by decide)
  have hg : Good S 64 := by
    refine ⟨le_rfl, hm, rfl, ?_⟩
    rw [pageFree, Nat.mod_eq_of_lt (by omega)]
    omega
  have hq : Linked (words initialMemory) 48 := ⟨.inl rfl, by decide⟩
  refine ⟨⟨⟨hg, fun o ho => words_initialMemory ho, fun r hb => absurd hb (hbl r),
    fun r _ hb => absurd hb (hbl r), by decide, hq, fun r hr => ?_⟩,
    fun k hk => absurd rfl hk⟩, fun _ => trivial, fun _ _ _ a _ ha => by cases ha⟩
  · rcases hr.1 with rfl | hb
    · exact hq
    · exact absurd hb (hbl r)

theorem sound_of_reachable (h : Reachable S c) : Sound S c :=
  invariant_of_step sound_initial (fun _ _ hc hs => hc.step hs) h

end Sound

end ChromiumBase.PersistentMemoryAllocator
