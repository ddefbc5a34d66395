import ChromiumBase.Base.Metrics.PersistentMemoryAllocator.Layout

/-!
# The ranges that calls own

What is known of a call at each of its program points, as long as nobody else disturbs it.  A
call that has moved the free pointer owns the range it moved it over.  `Guarantee` says what a
step of one call leaves alone for all others, and `CallOk.kept` that this is enough for what
is asserted about them.
-/

open Function

namespace ChromiumBase.PersistentMemoryAllocator

open SharedMemory

@[simp] theorem words_update_word (m : Memory) (a v : ℕ) :
    words (update m (.word a) v) = update (words m) a v := by
  funext o
  by_cases h : o = a
  · subst h
    simp [words]
  · simp [words, h]

theorem words_update_of_ne (m : Memory) {l : Location} (v : ℕ) (h : ∀ a, l ≠ .word a) :
    words (update m l v) = words m := by
  funext o
  simp [words, update_of_ne (Ne.symm (h o))]

variable (S : Segment) {f : Frame}

structure Frame.Sized (f : Frame) : Prop where
  ge_request : roundUp (f.reqSize + sizeofBlockHeader) ≤ f.size
  size_ge : 24 ≤ f.size
  le_memPage : f.size ≤ S.memPage
  aligned : f.size % 8 = 0

/-- An attempt that leaves nothing of the page, or enough for another block. -/
structure Frame.Fits (f : Frame) : Prop extends f.Sized S where
  good : Good S f.freeptr
  inside : f.freeptr + f.size ≤ S.memSize
  rest : f.size = pageFree S f.freeptr ∨ f.size + 24 ≤ pageFree S f.freeptr

def Call.owned : Call → Option (ℕ × ℕ)
  | .writeWastedSize f | .writeWastedCookie f => some (f.freeptr, pageFree S f.freeptr)
  | .verify f _ | .writeSize f | .writeCookie f | .writeTypeId f | .allocated f =>
    some (f.freeptr, f.size)
  | .setCorrupt resume | .setCorruptFlag resume => resume.owned
  | _ => none

/-- The assertion about a call at each of its program points. -/
def CallOk (w : Words) : Call → Prop
  | .loadFreeptr f => f.Sized S
  | .testCorrupt f => f.Sized S ∧ Good S f.freeptr ∧ f.freeptr ≤ w 40
  | .reserveWasted f => f.Sized S ∧ Good S f.freeptr ∧ f.freeptr ≤ w 40 ∧ f.freeptr < S.memSize
  | .writeWastedSize f | .writeWastedCookie f =>
    f.Sized S ∧ Good S f.freeptr ∧ Owns w f.freeptr (pageFree S f.freeptr) ∧
      w (f.freeptr + 4) = 0
  | .reserve f => f.Fits S ∧ f.freeptr ≤ w 40
  | .verify f _ | .writeSize f =>
    f.Fits S ∧ Owns w f.freeptr f.size ∧ ∀ o, f.freeptr ≤ o → o < f.freeptr + 16 → w o = 0
  | .writeCookie f =>
    f.Fits S ∧ Owns w f.freeptr f.size ∧ w f.freeptr = f.size ∧ w (f.freeptr + 4) = 0 ∧
      w (f.freeptr + 12) = 0
  | .writeTypeId f | .allocated f => f.Fits S ∧ Block w f.freeptr ∧ w f.freeptr = f.size
  | .makeIterable ref | .checkBlock ref | .loadNext ref | .storeNext ref => Block w ref
  | .loadTail ref => Block w ref ∧ Linked w ref
  | .checkTail ref tail | .link ref tail | .swingTail ref tail =>
    Block w ref ∧ Linked w ref ∧ Linked w tail
  | .helpTail ref tail next => Block w ref ∧ Linked w ref ∧ Linked w tail ∧ Linked w next
  | .construct _ startingAfter => startingAfter = 0 ∨ Block w startingAfter
  | .checkLast _ _ last => last ≠ 0 → Linked w last
  | .storeLast _ last | .followLast _ _ last => Linked w last
  | .checkNext _ _ last next | .advance _ _ last next =>
    Linked w last ∧ Linked w next ∧ next ≠ kReferenceQueue
  | .setCorrupt resume | .setCorruptFlag resume => CallOk w resume
  | _ => True

def OwnedApart (l k : Call) : Prop :=
  ∀ a b, l.owned S = some a → k.owned S = some b → Apart a.1 a.2 b.1 b.2

/-- What a step of the call `l` leaves alone: the blocks, the headers in the ranges of other
calls and, unless it makes a block iterable, the links.  A block it completes lies in its own
range and is not linked. -/
structure Guarantee (l : Call) (w w' : Words) : Prop extends Grows w w' where
  fresh : ∀ b, Block w' b → Block w b ∨ l.owned S = some (b, w' b) ∧ w' (b + 12) = 0
  links : l.iterable = none → w' 44 = w 44 ∧ ∀ r, Node w r → w' (r + 12) = w (r + 12)
  header : ∀ r s, Owns w r s → w (r + 4) = 0 →
    (∀ a, l.owned S = some a → Apart a.1 a.2 r s) →
    ∀ o, r ≤ o → o < r + 16 → w' o = w o

variable {S} {w w' : Words} {l k : Call}

theorem Guarantee.refl (l : Call) (w : Words) : Guarantee S l w w where
  toGrows := Grows.refl w
  fresh := fun _ hb => .inl hb
  links := fun _ => ⟨rfl, fun _ _ => rfl⟩
  header := fun _ _ _ _ _ _ _ _ => rfl

theorem Guarantee.owns (hg : Guarantee S l w w') {r s : ℕ} (ho : Owns w r s)
    (ha : ∀ a, l.owned S = some a → Apart a.1 a.2 r s) : Owns w' r s :=
  ho.grows hg.toGrows fun b hb => (hg.fresh b hb).imp_right fun h => ha _ h.1

/-- What is known of a call stays true when another one keeps its guarantee. -/
theorem CallOk.kept (hg : Guarantee S l w w') (hk : CallOk S w k) (hr : OwnedApart S l k) :
    CallOk S w' k := by
  induction k with
  | testCorrupt f => exact ⟨hk.1, hk.2.1, hk.2.2.trans hg.freeptr_le⟩
  | reserveWasted f => exact ⟨hk.1, hk.2.1, hk.2.2.1.trans hg.freeptr_le, hk.2.2.2⟩
  | reserve f => exact ⟨hk.1, hk.2.trans hg.freeptr_le⟩
  | writeWastedSize f | writeWastedCookie f =>
    obtain ⟨hs, hgo, ho, hz⟩ := hk
    have hap := fun a ha => hr a _ ha rfl
    refine ⟨hs, hgo, hg.owns ho hap, ?_⟩
    rw [hg.header _ _ ho hz hap _ (by omega) (by omega), hz]
  | verify f field | writeSize f =>
    obtain ⟨hf, ho, hz⟩ := hk
    have hap := fun a ha => hr a _ ha rfl
    refine ⟨hf, hg.owns ho hap, fun o h₁ h₂ => ?_⟩
    rw [hg.header _ _ ho (hz _ (by omega) (by omega)) hap o h₁ h₂]
    exact hz o h₁ h₂
  | writeCookie f =>
    obtain ⟨hf, ho, hs, hc, hn⟩ := hk
    have hap := fun a ha => hr a _ ha rfl
    have hh := hg.header _ _ ho hc hap
    refine ⟨hf, hg.owns ho hap, ?_, ?_, ?_⟩
    · rw [hh _ (by omega) (by omega), hs]
    · rw [hh _ (by omega) (by omega), hc]
    · rw [hh _ (by omega) (by omega), hn]
  | writeTypeId f | allocated f =>
    obtain ⟨hf, hb, hs⟩ := hk
    exact ⟨hf, hb.grows hg.toGrows, (hg.size _ hb).trans hs⟩
  | makeIterable ref | checkBlock ref | loadNext ref | storeNext ref =>
    exact Block.grows hk hg.toGrows
  | loadTail ref => exact ⟨hk.1.grows hg.toGrows, hk.2.grows hg.toGrows⟩
  | checkTail ref tail | link ref tail | swingTail ref tail =>
    exact ⟨hk.1.grows hg.toGrows, hk.2.1.grows hg.toGrows, hk.2.2.grows hg.toGrows⟩
  | helpTail ref tail next =>
    exact ⟨hk.1.grows hg.toGrows, hk.2.1.grows hg.toGrows, hk.2.2.1.grows hg.toGrows,
      hk.2.2.2.grows hg.toGrows⟩
  | construct i startingAfter => exact Or.imp_right (fun hb => Block.grows hb hg.toGrows) hk
  | checkLast i count last => exact fun h => (hk h).grows hg.toGrows
  | storeLast i last | followLast i count last => exact Linked.grows hk hg.toGrows
  | checkNext i count last next | advance i count last next =>
    exact ⟨hk.1.grows hg.toGrows, hk.2.1.grows hg.toGrows, hk.2.2⟩
  | setCorrupt resume ih | setCorruptFlag resume ih => exact ih hk hr
  | loadFreeptr f => exact hk
  | _ => trivial

section Write

variable {a v r s b : ℕ}

theorem Guarantee.metadata (ha : a < 64 := by omega) (h60 : a ≠ 60 := by omega)
    (hv : a = 40 → w 40 ≤ v := by omega)
    (h44 : a = 44 → l.iterable ≠ none := by first | omega | nofun) :
    Guarantee S l w (update w a v) where
  toGrows := .of_metadata
  fresh := fun b hb => .inl hb.of_update
  links := fun hi => ⟨update_of_ne (fun h => h44 h.symm hi) _ _, fun r hn => hn.update_next⟩
  header := fun r s ho _ _ o h₁ _ => by
    have := ho.pastMetadata
    exact update_of_ne (by omega) _ _

theorem Guarantee.setNext (hl : Layout S w) (hn : Node w b) (hv : Node w v) (hv0 : v ≠ 0)
    (hi : l.iterable ≠ none) : Guarantee S l w (update w (b + 12) v) where
  toGrows := Grows.setNext hl hn hv0
  fresh := fun r hr => .inl (hr.of_setNext hn hv)
  links := fun h => absurd h hi
  header := fun r s ho hz _ o h₁ h₂ => by
    apply update_of_ne
    have hp := ho.pastMetadata
    have hs := ho.size_ge
    rcases hn with rfl | hb
    · omega
    · have hbs := hb.size_ge
      have hne : b ≠ r := by
        rintro rfl
        have hc := hb.cookie
        rw [hz] at hc
        exact absurd hc (by decide)
      rcases ho.apart b hb hne with h | h <;> omega

theorem Guarantee.own (how : l.owned S = some (r, s)) (hs : 24 ≤ s) (hr : r ≤ a) (hra : a < r + 16)
    (hq : Quiet w a) (hf : ∀ b, Block (update w a v) b → Block w b ∨
      b = r ∧ update w a v r = s ∧ update w a v (r + 12) = 0) : Guarantee S l w (update w a v) where
  toGrows := hq.grows
  fresh := fun b hb => (hf b hb).imp_right fun ⟨hbr, hsi, hne⟩ => by
    rw [how, hbr, hsi]
    exact ⟨rfl, hne⟩
  links := fun _ => ⟨update_of_ne hq.metadata.2.1.symm _ _, fun r hn => hq.node hn⟩
  header := fun r' s' ho _ ha o h₁ h₂ => by
    have hs' := ho.size_ge
    have hsep := ha (r, s) how
    apply update_of_ne
    rcases hsep with h | h <;> simp only at h <;> omega

theorem Owns.quiet (ho : Owns w r s) (hz : w (r + 4) = 0) (hr : r ≤ a) (hra : a < r + 16) :
    Quiet w a where
  metadata := by have := ho.pastMetadata; omega
  used := by have := ho.below; have := ho.size_ge; omega
  block := fun b hb => by
    have hs := ho.size_ge
    refine ho.ne_of_block hb ?_ hr (by omega)
    rintro rfl
    have hc := hb.cookie
    rw [hz] at hc
    exact absurd hc (by decide)

theorem Owns.block_of_update (ho : Owns w r s) (hz : w (r + 4) = 0) (hb : Block (update w r v) b) :
    Block w b := by
  have hm := hb.aligned
  have hr := ho.aligned
  have hc := hb.cookie
  have hs := hb.size_ge
  rw [update_of_ne (by omega)] at hc
  have hne : b ≠ r := by
    rintro rfl
    rw [hz] at hc
    exact absurd hc (by decide)
  rw [update_of_ne hne] at hs
  exact ⟨hb.pastMetadata, hm, hc, hs⟩

theorem Owns.block_of_update_cookie (ho : Owns w r s) (hb : Block (update w (r + 4) v) b) :
    Block w b ∨ b = r ∧ v = kBlockCookieAllocated := by
  have hm := hb.aligned
  have hr := ho.aligned
  have hc := hb.cookie
  have hs := hb.size_ge
  rw [update_of_ne (by omega)] at hs
  by_cases hne : b = r
  · subst hne
    rw [update_self] at hc
    exact .inr ⟨rfl, hc⟩
  · rw [update_of_ne (by omega)] at hc
    exact .inl ⟨hb.pastMetadata, hm, hc, hs⟩

theorem Layout.quiet_typeId (hl : Layout S w) (hb : Block w r) : Quiet w (r + 8) where
  metadata := by have := hb.pastMetadata; omega
  used := by have := hl.below r hb; have := hb.size_ge; omega
  block := fun c hc => by
    by_cases hne : c = r
    · omega
    · exact hl.block_ne hb hc hne (by omega)

/-- The type is written between the cookie and the link, and neither makes it a header. -/
theorem Layout.block_of_update_typeId (hl : Layout S w) (hr : Block w r)
    (hb : Block (update w (r + 8) v) b) : Block w b := by
  have hm := hb.aligned
  have hra := hr.aligned
  have hc := hb.cookie
  have hs := hb.size_ge
  rw [update_of_ne (by omega)] at hc
  have hne : b ≠ r + 8 := by
    rintro rfl
    by_cases hz : w (r + 12) = 0
    · rw [show r + 8 + 4 = r + 12 by omega, hz] at hc
      exact absurd hc (by decide)
    · exact (hl.next r ⟨.inr hr, hz⟩).1.ne_cookie hc
  rw [update_of_ne hne] at hs
  exact ⟨hb.pastMetadata, hm, hc, hs⟩

end Write

theorem add32_eq_of_le {a b : ℕ} (h : a + b ≤ S.memSize) : add32 a b = a + b := by
  have := S.memSize_le
  unfold kSegmentMaxSize at this
  exact add32_of_lt (by omega)

theorem memPage_le_memSize : S.memPage ≤ S.memSize := by
  obtain ⟨n, hn⟩ := Nat.dvd_of_mod_eq_zero S.memSize_pages
  have hm := S.metadata_le
  unfold sizeofSharedMetadata at hm
  rw [hn]
  refine Nat.le_mul_of_pos_right _ (Nat.pos_of_ne_zero ?_)
  rintro rfl
  omega

theorem Good.getBlock_free {f : ℕ} (hg : Good S f) (hf : f + 16 ≤ S.memSize) :
    getBlock S.memSize w f 0 0 false true = some f := by
  have h64 := hg.pastMetadata
  have hal := hg.aligned
  have h16 : add32 f (add32 0 sizeofBlockHeader) = f + 16 := add32_eq_of_le (b := 16) hf
  rw [getBlock, if_neg (by simp), if_neg (by unfold sizeofSharedMetadata; omega),
    if_neg (by unfold kAllocAlignment; omega), h16, if_neg (by omega), if_pos rfl]

theorem Frame.Sized.fits (hf : f.Sized S) (hg : Good S f.freeptr) (hlt : f.freeptr < S.memSize)
    {size : ℕ} (hle : f.size ≤ size)
    (hs : size = pageFree S f.freeptr ∨ size = f.size ∧ f.size + 24 ≤ pageFree S f.freeptr) :
    Frame.Fits S { f with size := size } := by
  have hend := add_pageFree_le hlt
  have hpm := pageFree_aligned (S := S) hg.aligned
  have hpl : pageFree S f.freeptr ≤ S.memPage := Nat.sub_le _ _
  have hal := hf.aligned
  have hreq := hf.ge_request
  have hge := hf.size_ge
  refine ⟨⟨?_, ?_, ?_, ?_⟩, hg, ?_, ?_⟩ <;> simp only <;> omega

/-- An attempt gives up, fills the rest of the page, or reserves a size that fits. -/
theorem attempt_cases (hf : f.Sized S) (hg : Good S f.freeptr) :
    attempt S w f = .setFull ∨ (attempt S w f = .reserveWasted f ∧ f.freeptr < S.memSize) ∨
    ∃ size, attempt S w f = .reserve { f with size := size } ∧
      Frame.Fits S { f with size := size } ∧ size ≤ f.size + 16 := by
  have hmem := S.memSize_le
  have hsi := hf.size_ge
  have hsum : add32 f.freeptr f.size = f.freeptr + f.size := by
    have hp := hf.le_memPage
    have hps := memPage_le_memSize (S := S)
    have hfr := hg.le_memSize
    unfold kSegmentMaxSize at hmem
    exact add32_of_lt (by omega)
  unfold attempt
  rw [hsum]
  by_cases hfu : S.memSize < f.freeptr + f.size
  · exact .inl (if_pos hfu)
  right
  have hlt : f.freeptr < S.memSize := by omega
  have hend := add_pageFree_le hlt
  have hpf := hg.pageFree_ge
  have hpm := pageFree_aligned (S := S) hg.aligned
  have hal := hf.aligned
  have hh : sizeofBlockHeader = 16 := rfl
  have hsl : sizeofBlockHeader + kAllocAlignment = 24 := rfl
  rw [if_neg hfu, hg.getBlock_free (by omega), if_neg (by simp)]
  by_cases hc : pageFree S f.freeptr < f.size
  · left
    rw [if_pos hc, if_neg (by omega)]
    exact ⟨rfl, hlt⟩
  right
  rw [if_neg hc]
  by_cases hs : pageFree S f.freeptr - f.size < sizeofBlockHeader + kAllocAlignment
  · refine ⟨pageFree S f.freeptr, ?_, hf.fits hg hlt (by omega) (.inl rfl), by omega⟩
    simp only [if_pos hs]
    rw [add32_eq_of_le hend, if_neg (by omega)]
  · refine ⟨f.size, ?_, hf.fits hg hlt le_rfl (.inr ⟨rfl, by omega⟩), by omega⟩
    simp only [if_neg hs]
    rw [hsum, if_neg hfu]

end ChromiumBase.PersistentMemoryAllocator
