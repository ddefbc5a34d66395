import Mathlib.Data.Nat.ModEq
import ChromiumBase.Base.Metrics.PersistentMemoryAllocator.Calls

/-!
# The layout of a segment

What holds of the words of a segment whatever the interleaving is, and how a single write
changes it.  Blocks lie apart from each other below the free pointer, and everything from the
free pointer on is still zero.  The `next` fields of the blocks that are being made iterable,
the tail pointer and the positions of the iterators refer to such blocks or to the header of
the queue.

Offsets are written out here: 40 is `freeptr`, 44 is `tailptr`, 48 the header of the queue,
and the four words of a header are at its offset plus 0, 4, 8 and 12.
-/

open Function

namespace ChromiumBase.PersistentMemoryAllocator

structure Block (w : Words) (ref : ℕ) : Prop where
  pastMetadata : 64 ≤ ref
  aligned : ref % 8 = 0
  cookie : w (ref + 4) = kBlockCookieAllocated
  size_ge : 24 ≤ w ref

def Apart (r s r' s' : ℕ) : Prop := r + s ≤ r' ∨ r' + s' ≤ r

theorem Apart.symm {r s r' s' : ℕ} (h : Apart r s r' s') : Apart r' s' r s := Or.symm h

def Node (w : Words) (ref : ℕ) : Prop := ref = 48 ∨ Block w ref

/-- A node with a successor: every node of the queue, and a block about to be linked. -/
def Linked (w : Words) (ref : ℕ) : Prop := Node w ref ∧ w (ref + 12) ≠ 0

/-- A range of offsets below the free pointer that is apart from all other blocks. -/
structure Owns (w : Words) (r s : ℕ) : Prop where
  pastMetadata : 64 ≤ r
  aligned : r % 8 = 0
  size_ge : 24 ≤ s
  below : r + s ≤ w 40
  apart : ∀ b, Block w b → b ≠ r → Apart b (w b) r s

variable (S : Segment)

/-- A value that the free pointer may have: what is left of its page is enough for a block. -/
structure Good (f : ℕ) : Prop where
  pastMetadata : 64 ≤ f
  le_memSize : f ≤ S.memSize
  aligned : f % 8 = 0
  pageFree_ge : 24 ≤ pageFree S f

structure Layout (w : Words) : Prop where
  good : Good S (w 40)
  unused : ∀ o, w 40 ≤ o → w o = 0
  below : ∀ r, Block w r → r + w r ≤ w 40
  apart : ∀ r r', Block w r → Block w r' → r ≠ r' → Apart r (w r) r' (w r')
  queue : w 60 ≠ 0
  tail : Linked w (w 44)
  next : ∀ r, Linked w r → Linked w (w (r + 12))

/-- What the segment keeps of a block once it is there. -/
structure Grows (w w' : Words) : Prop where
  freeptr_le : w 40 ≤ w' 40
  size : ∀ r, Block w r → w' r = w r
  cookie : ∀ r, Block w r → w' (r + 4) = w (r + 4)
  linked : ∀ r, Linked w r → w' (r + 12) ≠ 0

section Kept

variable {w w' : Words} {r s b n : ℕ}

theorem Grows.refl (w : Words) : Grows w w :=
  ⟨le_rfl, fun _ _ => rfl, fun _ _ => rfl, fun _ h => h.2⟩

theorem Block.grows (hb : Block w r) (hg : Grows w w') : Block w' r where
  pastMetadata := hb.pastMetadata
  aligned := hb.aligned
  cookie := (hg.cookie r hb).trans hb.cookie
  size_ge := by rw [hg.size r hb]; exact hb.size_ge

theorem Node.grows (hn : Node w r) (hg : Grows w w') : Node w' r :=
  hn.imp_right fun hb => hb.grows hg

theorem Linked.grows (hl : Linked w r) (hg : Grows w w') : Linked w' r :=
  ⟨hl.1.grows hg, hg.linked r hl⟩

theorem Owns.grows (ho : Owns w r s) (hg : Grows w w')
    (hnew : ∀ b, Block w' b → Block w b ∨ Apart b (w' b) r s) : Owns w' r s where
  pastMetadata := ho.pastMetadata
  aligned := ho.aligned
  size_ge := ho.size_ge
  below := ho.below.trans hg.freeptr_le
  apart := by
    intro b hb hne
    rcases hnew b hb with hold | ha
    · rw [hg.size b hold]
      exact ho.apart b hold hne
    · exact ha

variable {S}

theorem Owns.ne_of_block (ho : Owns w r s) {o : ℕ} (hb : Block w b) (hne : b ≠ r) (hr : r ≤ o)
    (hs : o < r + s) : o ≠ b ∧ o ≠ b + 4 ∧ o ≠ b + 12 := by
  have hsi := hb.size_ge
  rcases ho.apart b hb hne with h | h <;> omega

theorem Layout.block_ne (hl : Layout S w) {c k : ℕ} (hb : Block w b) (hc : Block w c) (hne : c ≠ b)
    (hk : k < 24) : b + k ≠ c ∧ b + k ≠ c + 4 ∧ b + k ≠ c + 12 := by
  have hbs := hb.size_ge
  have hcs := hc.size_ge
  rcases hl.apart b c hb hc (Ne.symm hne) with h | h <;> omega

theorem Node.mod_eight (hn : Node w r) : r % 8 = 0 := by
  rcases hn with rfl | hb
  · rfl
  · exact hb.aligned

theorem Node.ne_cookie (hn : Node w r) : r ≠ kBlockCookieAllocated := by
  rintro rfl
  have := hn.mod_eight
  simp [kBlockCookieAllocated] at this

theorem Layout.linked_queue (hl : Layout S w) : Linked w 48 := ⟨.inl rfl, hl.queue⟩

theorem Layout.node_below (hl : Layout S w) (hn : Node w r) : r + 16 ≤ w 40 := by
  have := hl.good.pastMetadata
  rcases hn with rfl | hb
  · omega
  · have := hl.below r hb
    have := hb.size_ge
    omega

/-- The layout after a change that keeps the blocks: there may be one new block, which was
apart from all others and is not linked, and where the tail pointer or a `next` field has
changed it refers to a linked node. -/
theorem Layout.of_grows (hl : Layout S w) (hg : Grows w w') (hgo : Good S (w' 40))
    (hu : ∀ o, w' 40 ≤ o → w' o = 0) (ht : Linked w (w' 44))
    (hnew : ∀ b, Block w' b → Block w b ∨ b = n ∧ Owns w n (w' n) ∧ w' (n + 12) = 0)
    (hnex : ∀ r, Node w r → w' (r + 12) = w (r + 12) ∨ Linked w (w' (r + 12))) : Layout S w' := by
  refine ⟨hgo, hu, fun r hb => ?_, fun r r' hb hb' hne => ?_,
    hg.linked 48 hl.linked_queue, ht.grows hg, fun r hr => ?_⟩
  · rcases hnew r hb with hold | ⟨rfl, ho, -⟩
    · rw [hg.size r hold]
      exact (hl.below r hold).trans hg.freeptr_le
    · exact ho.below.trans hg.freeptr_le
  · rcases hnew r hb with hold | ⟨rfl, ho, -⟩ <;> rcases hnew r' hb' with hold' | ⟨rfl, ho', -⟩
    · rw [hg.size r hold, hg.size r' hold']
      exact hl.apart r r' hold hold' hne
    · rw [hg.size r hold]
      exact ho'.apart r hold hne
    · rw [hg.size r' hold']
      exact (ho.apart r' hold' (Ne.symm hne)).symm
    · exact absurd rfl hne
  · have hn : Node w r := by
      refine hr.1.imp_right fun hb => ?_
      rcases hnew r hb with hold | ⟨rfl, -, hz⟩
      · exact hold
      · exact absurd hz hr.2
    rcases hnex r hn with heq | hli
    · have hold : Linked w r := ⟨hn, by rw [← heq]; exact hr.2⟩
      rw [heq]
      exact (hl.next r hold).grows hg
    · exact hli.grows hg

/-- The words of the layout that a write at `a` must not touch. -/
structure Quiet (w : Words) (a : ℕ) : Prop where
  metadata : a ≠ 40 ∧ a ≠ 44 ∧ a ≠ 60
  used : a < w 40
  block : ∀ b, Block w b → a ≠ b ∧ a ≠ b + 4 ∧ a ≠ b + 12

section Write

variable {a v : ℕ}

theorem Quiet.node (hq : Quiet w a) (hn : Node w r) : update w a v (r + 12) = w (r + 12) := by
  rcases hn with rfl | hb
  · exact update_of_ne hq.metadata.2.2.symm _ _
  · exact update_of_ne (hq.block r hb).2.2.symm _ _

theorem Quiet.grows (hq : Quiet w a) : Grows w (update w a v) where
  freeptr_le := (update_of_ne hq.metadata.1.symm v w).symm.le
  size := fun r hb => update_of_ne (hq.block r hb).1.symm _ _
  cookie := fun r hb => update_of_ne (hq.block r hb).2.1.symm _ _
  linked := fun r hl => by rw [hq.node hl.1]; exact hl.2

theorem Layout.unused_update (hl : Layout S w) (ha : a < w 40) (h40 : a ≠ 40) :
    ∀ o, update w a v 40 ≤ o → update w a v o = 0 := by
  intro o ho
  rw [update_of_ne (Ne.symm h40)] at ho
  rw [update_of_ne (by omega)]
  exact hl.unused o ho

theorem Layout.write_quiet (hl : Layout S w) (hq : Quiet w a)
    (hnew : ∀ b, Block (update w a v) b → Block w b ∨
      b = n ∧ Owns w n (update w a v n) ∧ update w a v (n + 12) = 0) : Layout S (update w a v) := by
  have hf : update w a v 40 = w 40 :=
    update_of_ne hq.metadata.1.symm _ _
  refine hl.of_grows hq.grows ?_ (hl.unused_update hq.used hq.metadata.1) ?_ hnew
    fun r hn => .inl (hq.node hn)
  · rw [hf]
    exact hl.good
  · rw [update_of_ne hq.metadata.2.1.symm]
    exact hl.tail

theorem Block.of_update (hb : Block (update w a v) r) (ha : a < 64 := by omega) : Block w r := by
  have hp := hb.pastMetadata
  have hc := hb.cookie
  have hs := hb.size_ge
  rw [update_of_ne (by omega)] at hc hs
  exact ⟨hp, hb.aligned, hc, hs⟩

theorem Grows.of_metadata (ha : a < 64 := by omega) (h60 : a ≠ 60 := by omega)
    (hv : a = 40 → w 40 ≤ v := by omega) : Grows w (update w a v) where
  freeptr_le := by
    by_cases h : a = 40
    · subst h
      simpa using hv rfl
    · exact (update_of_ne (Ne.symm h) v w).symm.le
  size := fun r hb => update_of_ne (by have := hb.pastMetadata; omega) _ _
  cookie := fun r hb => update_of_ne (by have := hb.pastMetadata; omega) _ _
  linked := fun r hl => by
    rw [update_of_ne]
    · exact hl.2
    · rcases hl.1 with rfl | hb
      · exact Ne.symm h60
      · have := hb.pastMetadata
        omega

theorem Node.update_next (hn : Node w r) (ha : a < 64 := by omega) (h60 : a ≠ 60 := by omega) :
    update w a v (r + 12) = w (r + 12) := by
  apply update_of_ne
  rcases hn with rfl | hb
  · exact Ne.symm h60
  · have := hb.pastMetadata
    omega

theorem Layout.setFreeptr (hl : Layout S w) (hv : w 40 ≤ v) (hg : Good S v) :
    Layout S (update w 40 v) := by
  refine hl.of_grows (n := 0) .of_metadata ?_ ?_ ?_ (fun b hb => .inl hb.of_update)
    fun r hn => .inl hn.update_next
  · simpa using hg
  · intro o ho
    have hp := hg.pastMetadata
    rw [update_self] at ho
    rw [update_of_ne (by omega)]
    exact hl.unused o (hv.trans ho)
  · exact hl.tail

theorem Layout.setTail (hl : Layout S w) (hv : Linked w v) : Layout S (update w 44 v) := by
  have hp := hl.good.pastMetadata
  exact hl.of_grows (n := 0) .of_metadata hl.good (hl.unused_update (by omega) (by omega)) hv
    (fun b hb => .inl hb.of_update) fun r hn => .inl hn.update_next

theorem Layout.next_ne (hl : Layout S w) (hn : Node w b) (hb : Block w r) :
    b + 12 ≠ r ∧ b + 12 ≠ r + 4 ∧ (b ≠ r → b + 12 ≠ r + 12) := by
  have hp := hb.pastMetadata
  rcases hn with rfl | hb'
  · omega
  · have := hb'.size_ge
    by_cases hne : b = r
    · omega
    · rcases hl.apart b r hb' hb hne with h | h <;> omega

theorem Grows.setNext (hl : Layout S w) (hn : Node w b) (hv : v ≠ 0) :
    Grows w (update w (b + 12) v) where
  freeptr_le := (update_of_ne (by have := hn.mod_eight; omega) v w).symm.le
  size := fun r hb => update_of_ne (hl.next_ne hn hb).1.symm _ _
  cookie := fun r hb => update_of_ne (hl.next_ne hn hb).2.1.symm _ _
  linked := fun r hr => by
    by_cases hrb : r = b
    · subst hrb
      simpa using hv
    · rw [update_of_ne (by omega)]
      exact hr.2

/-- A link is no cookie, so a new link does not look like the header of a block. -/
theorem Block.of_setNext (hn : Node w b) (hv : Node w v) (hb : Block (update w (b + 12) v) r) :
    Block w r := by
  have hm := hn.mod_eight
  have ha := hb.aligned
  have hc := hb.cookie
  have hs := hb.size_ge
  have hne : r + 4 ≠ b + 12 := by
    intro heq
    rw [heq, update_self] at hc
    exact hv.ne_cookie hc
  rw [update_of_ne hne] at hc
  rw [update_of_ne (by omega)] at hs
  exact ⟨hb.pastMetadata, ha, hc, hs⟩

/-- Links lead from nodes to nodes. -/
theorem Layout.setNext (hl : Layout S w) (hn : Node w b) (hv : Linked w v) (hv0 : v ≠ 0) :
    Layout S (update w (b + 12) v) := by
  have hm := hn.mod_eight
  have h40 : update w (b + 12) v 40 = w 40 := update_of_ne (by omega) _ _
  refine hl.of_grows (n := 0) (Grows.setNext hl hn hv0) ?_
    (hl.unused_update (by have := hl.node_below hn; omega) (by omega)) ?_
    (fun r hb => .inl (hb.of_setNext hn hv.1)) fun r _ => ?_
  · rw [h40]
    exact hl.good
  · rcases hn with rfl | hb
    · exact hl.tail
    · rw [update_of_ne (by have := hb.pastMetadata; omega)]
      exact hl.tail
  · by_cases hrb : r = b
    · subst hrb
      rw [update_self]
      exact .inr hv
    · exact .inl (update_of_ne (by omega) _ _)

end Write

end Kept

section Pages

variable {S} {f s : ℕ}

theorem mod_add_pageFree (f : ℕ) : f % S.memPage + pageFree S f = S.memPage := by
  have := S.memPage_ge
  have := Nat.mod_lt f (by omega : 0 < S.memPage)
  unfold pageFree
  omega

theorem pageFree_aligned (hf : f % 8 = 0) : pageFree S f % 8 = 0 := by
  have hp := S.memPage_aligned
  have hmod : f % S.memPage % 8 = f % 8 := Nat.mod_mod_of_dvd f (Nat.dvd_of_mod_eq_zero hp)
  have := mod_add_pageFree (S := S) f
  unfold kAllocAlignment at hp
  omega

theorem add_pageFree_mod (f : ℕ) : (f + pageFree S f) % S.memPage = 0 := by
  have hf := Nat.div_add_mod f S.memPage
  have hsum : f + pageFree S f = S.memPage * (f / S.memPage + 1) := by
    rw [Nat.mul_add, Nat.mul_one]
    have := mod_add_pageFree (S := S) f
    omega
  rw [hsum]
  exact Nat.mul_mod_right _ _

theorem add_pageFree_le (h : f < S.memSize) : f + pageFree S f ≤ S.memSize := by
  obtain ⟨n, hn⟩ := Nat.dvd_of_mod_eq_zero S.memSize_pages
  obtain ⟨k, hk⟩ := Nat.dvd_of_mod_eq_zero (add_pageFree_mod (S := S) f)
  have hf : pageFree S f ≤ S.memPage := Nat.sub_le _ _
  have hlt : S.memPage * k < S.memPage * (n + 1) := by
    rw [← hk, Nat.mul_add, ← hn, Nat.mul_one]
    omega
  have hkn : k ≤ n := Nat.lt_succ_iff.mp (Nat.lt_of_mul_lt_mul_left hlt)
  rw [hk, hn]
  exact Nat.mul_le_mul_left _ hkn

theorem Good.add_pageFree (hf : Good S f) (hlt : f < S.memSize) : Good S (f + pageFree S f) where
  pastMetadata := by have := hf.pastMetadata; omega
  le_memSize := add_pageFree_le hlt
  aligned := by
    have := hf.aligned
    have := pageFree_aligned (S := S) hf.aligned
    omega
  pageFree_ge := by
    have := S.memPage_ge
    rw [pageFree, add_pageFree_mod]
    omega

theorem Good.add (hf : Good S f) (hlt : f < S.memSize) (hs : s % 8 = 0)
    (hfit : s = pageFree S f ∨ s + 24 ≤ pageFree S f) : Good S (f + s) := by
  rcases hfit with rfl | hfit
  · exact hf.add_pageFree hlt
  have hmod := mod_add_pageFree (S := S) f
  have hsm : s % S.memPage = s := Nat.mod_eq_of_lt (by omega)
  have hsum : (f + s) % S.memPage = f % S.memPage + s := by
    rw [Nat.add_mod_of_add_mod_lt (by omega), hsm]
  have hend := add_pageFree_le hlt
  have hp := hf.pastMetadata
  have ha := hf.aligned
  exact ⟨by omega, by omega, by omega, by rw [pageFree, hsum]; omega⟩

end Pages

end ChromiumBase.PersistentMemoryAllocator
