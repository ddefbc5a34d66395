import Mathlib.Data.List.Perm.Subperm
import ChromiumBase.Lib.LinkedQueue
import ChromiumBase.Base.Metrics.PersistentMemoryAllocator.Steps

/-!
# The queue of iterable blocks

The blocks that have been linked form a queue from the header at offset 48, and the tail
pointer is some node of it, not necessarily the last.  A call that links a block appends it,
because the only node of the queue whose link is the queue header itself is the last one.  No
link of the queue ever changes, so a call may stop between linking its block and moving the
tail pointer.

An iterator only moves from a node to its successor, so the blocks that calls have taken from
it lie at or before its position, and no two calls take the same one.  The records counted
are some of the blocks taken.  There are at most as many as blocks fit below the free
pointer, which is why a count that was loaded before the free pointer is never too large.

The auxiliary value of the proof is the queue and, for each iterator, the blocks counted.
-/

open Function List

namespace ChromiumBase.PersistentMemoryAllocator

open SharedMemory LinkedQueue

def linkOf (w : Words) (ref : ℕ) : ℕ := w (ref + 12)

structure Aux where
  queue : List ℕ
  counted : ℕ → List ℕ

def Passed (Q : List ℕ) (last r : ℕ) : Prop :=
  r ∈ Q ∧ last ∈ Q ∧ (48 :: Q).idxOf r ≤ (48 :: Q).idxOf last

structure Queued (g : Aux) (m : Memory) : Prop where
  follows : Follows (linkOf (words m)) 48 48 g.queue
  nodup : (48 :: g.queue).Nodup
  block : ∀ r ∈ g.queue, Block (words m) r
  tail : words m 44 ∈ 48 :: g.queue
  waiting : ∀ r, Block (words m) r → r ∉ g.queue → words m (r + 12) = 0 ∨ words m (r + 12) = 48
  counted_nodup : ∀ k, (g.counted k).Nodup
  counted : ∀ k, ∀ r ∈ g.counted k, Passed g.queue (m (.lastRecord k)) r
  count : ∀ k, m (.recordCount k) = (g.counted k).length
  sane : isCorrupt m = false

def QueueOk (g : Aux) (m : Memory) : Call → Prop
  | .makeIterable ref | .checkBlock ref | .loadNext ref | .storeNext ref =>
    words m (ref + 12) = 0
  | .loadTail ref => words m (ref + 12) = 48 ∧ ref ∉ g.queue
  | .checkTail ref tail | .link ref tail =>
    words m (ref + 12) = 48 ∧ ref ∉ g.queue ∧ tail ∈ 48 :: g.queue
  | .helpTail ref tail next =>
    words m (ref + 12) = 48 ∧ ref ∉ g.queue ∧ tail ∈ 48 :: g.queue ∧ next ∈ g.queue
  | .swingTail ref _ | .madeIterable ref => ref ∈ g.queue
  | .construct k _ | .storeLast k _ => m (.lastRecord k) = 0
  | .constructed k | .loadCount k => m (.lastRecord k) ≠ 0
  | .loadLast k count => m (.lastRecord k) ≠ 0 ∧ count ≤ words m 40 / 24
  | .checkLast k count last | .followLast k count last =>
    m (.lastRecord k) ≠ 0 ∧ count ≤ words m 40 / 24 ∧ last ≠ 0
  | .checkNext k count last next | .advance k count last next =>
    m (.lastRecord k) ≠ 0 ∧ count ≤ words m 40 / 24 ∧ last ∈ 48 :: g.queue ∧
      words m (last + 12) = next ∧ next ∈ g.queue
  | .loadType k count next | .testCount k count next _ =>
    count ≤ words m 40 / 24 ∧ Passed g.queue (m (.lastRecord k)) next ∧ next ∉ g.counted k
  | .countRecord k next _ => Passed g.queue (m (.lastRecord k)) next ∧ next ∉ g.counted k
  | .returned k next _ => Passed g.queue (m (.lastRecord k)) next
  | .verify _ field => field ≤ 3
  | .setCorrupt _ | .setCorruptFlag _ => False
  | _ => True

/-- Two calls make different blocks iterable, construct different iterators, and have taken
different blocks from an iterator. -/
structure Distinct (l k : Call) : Prop where
  iterable : ∀ ref, l.iterable = some ref → k.iterable ≠ some ref
  constructs : ∀ i, l.constructs = some i → k.constructs ≠ some i
  taken : ∀ a, l.taken = some a → k.taken ≠ some a

theorem Distinct.symm {l k : Call} (h : Distinct l k) : Distinct k l :=
  ⟨fun ref hk hl => h.iterable ref hl hk, fun i hk hl => h.constructs i hl hk,
    fun a hk hl => h.taken a hl hk⟩

structure Continues (l : Call) (g : Aux) (m : Memory) (g' : Aux) (m' : Memory) : Prop where
  queue : g.queue <+: g'.queue
  freeptr_le : words m 40 ≤ words m' 40
  link : ∀ r ∈ 48 :: g.queue, words m (r + 12) ≠ 48 → words m' (r + 12) = words m (r + 12)
  waiting : ∀ r, Block (words m) r → r ∉ g.queue → l.iterable ≠ some r →
    words m' (r + 12) = words m (r + 12) ∧ r ∉ g'.queue
  unborn : ∀ k, l.constructs ≠ some k → m (.lastRecord k) = 0 → m' (.lastRecord k) = 0
  born : ∀ k, m (.lastRecord k) ≠ 0 → m' (.lastRecord k) ≠ 0
  passed : ∀ k r, Passed g.queue (m (.lastRecord k)) r → Passed g'.queue (m' (.lastRecord k)) r
  uncounted : ∀ k r, r ∉ g.counted k → l.taken ≠ some (k, r) → r ∉ g'.counted k

theorem Continues.refl (l : Call) (g : Aux) (m : Memory) : Continues l g m g m :=
  ⟨prefix_refl _, le_rfl, fun _ _ _ => rfl, fun _ _ h _ => ⟨rfl, h⟩, fun _ _ h => h,
    fun _ h => h, fun _ _ h => h, fun _ _ h _ => h⟩

variable {S : Segment} {g g' : Aux} {m m' : Memory} {l k l' : Call} {r a v ref : ℕ}

theorem Queued.link_ne_zero (hq : Queued g m) (hr : r ∈ 48 :: g.queue) : words m (r + 12) ≠ 0 := by
  rcases hq.follows.next_eq hr with h | h
  · exact fun hz => absurd (hz.symm.trans h) (by decide)
  · intro hz
    have := (hq.block _ h).pastMetadata
    unfold linkOf at this
    omega

theorem Queued.not_mem (hq : Queued g m) (hr : words m (r + 12) = 0) : r ∉ g.queue :=
  fun h => hq.link_ne_zero (mem_cons_of_mem _ h) hr

theorem Continues.mem {g g' : Aux} (hc : Continues l g m g' m') (hr : r ∈ g.queue) : r ∈ g'.queue :=
  hc.queue.subset hr

theorem Continues.mem_nodes (hc : Continues l g m g' m') (hr : r ∈ 48 :: g.queue) :
    r ∈ 48 :: g'.queue := by
  rcases mem_cons.mp hr with rfl | hr
  · exact mem_cons_self
  · exact mem_cons_of_mem _ (hc.mem hr)

/-- What is known of a call stays true when another call takes a step. -/
theorem QueueOk.kept (hc : Continues l g m g' m') (hq : Queued g m) (hca : CallOk S (words m) k)
    (hk : QueueOk g m k) (hd : Distinct l k) : QueueOk g' m' k := by
  have hco : ∀ {count : ℕ}, count ≤ words m 40 / 24 → count ≤ words m' 40 / 24 :=
    fun h => h.trans (Nat.div_le_div_right hc.freeptr_le)
  -- a block that another call is about to link
  have hw : ∀ ref, k.iterable = some ref → Block (words m) ref → ref ∉ g.queue →
      words m' (ref + 12) = words m (ref + 12) ∧ ref ∉ g'.queue := fun ref hi hb hn =>
    hc.waiting ref hb hn fun h => hd.iterable ref h hi
  cases k with
  | makeIterable ref | checkBlock ref | loadNext ref | storeNext ref =>
    exact (hw ref rfl hca (hq.not_mem hk)).1.trans hk
  | loadTail ref =>
    obtain ⟨hl, hmem⟩ := hw ref rfl hca.1 hk.2
    exact ⟨hl.trans hk.1, hmem⟩
  | checkTail ref tail | link ref tail =>
    obtain ⟨hl, hmem⟩ := hw ref rfl hca.1 hk.2.1
    exact ⟨hl.trans hk.1, hmem, hc.mem_nodes hk.2.2⟩
  | helpTail ref tail next =>
    obtain ⟨hl, hmem⟩ := hw ref rfl hca.1 hk.2.1
    exact ⟨hl.trans hk.1, hmem, hc.mem_nodes hk.2.2.1, hc.mem hk.2.2.2⟩
  | swingTail ref tail | madeIterable ref => exact hc.mem hk
  | construct i startingAfter | storeLast i last =>
    exact hc.unborn i (fun h => hd.constructs i h rfl) hk
  | constructed i | loadCount i => exact hc.born i hk
  | loadLast i count => exact ⟨hc.born i hk.1, hco hk.2⟩
  | checkLast i count last | followLast i count last =>
    exact ⟨hc.born i hk.1, hco hk.2.1, hk.2.2⟩
  | checkNext i count last next | advance i count last next =>
    obtain ⟨hbo, hle, hla, hl, hnex⟩ := hk
    have hne : words m (last + 12) ≠ 48 := by
      rw [hl]
      exact hq.follows.ne_stop hnex
    exact ⟨hc.born i hbo, hco hle, hc.mem_nodes hla, (hc.link last hla hne).trans hl, hc.mem hnex⟩
  | loadType i count next | testCount i count next type =>
    exact ⟨hco hk.1, hc.passed i next hk.2.1, hc.uncounted i next hk.2.2 fun h => hd.taken _ h rfl⟩
  | countRecord i next type =>
    exact ⟨hc.passed i next hk.1, hc.uncounted i next hk.2 fun h => hd.taken _ h rfl⟩
  | returned i next type => exact hc.passed i next hk
  | verify f field => exact hk
  | setCorrupt resume | setCorruptFlag resume => exact hk.elim
  | _ => trivial

/-- What a step of the call `l` does to the queue and the iterators.  A block that the call
takes from an iterator comes after all that have been taken from it. -/
structure Proceeds (g : Aux) (m : Memory) (l : Call) (g' : Aux) (m' : Memory) (l' : Call) :
    Prop where
  queued : Queued g' m'
  own : QueueOk g' m' l'
  continues : Continues l g m g' m'
  iterable : l'.iterable = l.iterable
  constructs : l'.constructs = l.constructs
  taken : ∀ k r, l'.taken = some (k, r) → l.taken = some (k, r) ∨ r ∈ g.queue ∧
    ∀ r', Passed g.queue (m (.lastRecord k)) r' →
      (48 :: g.queue).idxOf r' < (48 :: g.queue).idxOf r

theorem QueueOk.passed (hk : QueueOk g m k) {i : ℕ} (ht : k.taken = some (i, r)) :
    Passed g.queue (m (.lastRecord i)) r := by
  cases k with
  | loadType k count next | testCount k count next type =>
    obtain ⟨rfl, rfl⟩ := Prod.mk.inj (Option.some.inj ht)
    exact hk.2.1
  | countRecord k next type =>
    obtain ⟨rfl, rfl⟩ := Prod.mk.inj (Option.some.inj ht)
    exact hk.1
  | returned k next type =>
    obtain ⟨rfl, rfl⟩ := Prod.mk.inj (Option.some.inj ht)
    exact hk
  | _ => cases ht

theorem Proceeds.distinct (hp : Proceeds g m l g' m' l') (hk : QueueOk g m k)
    (hd : Distinct l k) : Distinct l' k := by
  refine ⟨fun ref hr => hd.iterable ref (hp.iterable ▸ hr),
    fun i hr => hd.constructs i (hp.constructs ▸ hr), ?_⟩
  rintro ⟨i, r⟩ hl hk'
  rcases hp.taken i r hl with hold | ⟨-, hnew⟩
  · exact hd.taken _ hold hk'
  · exact absurd (hnew r (hk.passed hk')) (lt_irrefl _)

theorem taken_of_same (ht : l'.taken = none ∨ l'.taken = l.taken) (i r : ℕ)
    (h : l'.taken = some (i, r)) : l.taken = some (i, r) := by
  rcases ht with ht | ht
  · rw [ht] at h
    cases h
  · exact ht ▸ h

theorem Proceeds.of_read (hq : Queued g m) (hok : QueueOk g m l')
    (hi : l'.iterable = l.iterable := by rfl) (hc : l'.constructs = l.constructs := by rfl)
    (ht : l'.taken = none ∨ l'.taken = l.taken := by first | exact .inl rfl | exact .inr rfl) :
    Proceeds g m l g m l' :=
  ⟨hq, hok, Continues.refl l g m, hi, hc, fun i r h => .inl (taken_of_same ht i r h)⟩

theorem Queued.node (hq : Queued g m) (hr : r ∈ 48 :: g.queue) : Node (words m) r := by
  rcases mem_cons.mp hr with rfl | hr
  · exact .inl rfl
  · exact .inr (hq.block r hr)

theorem Passed.mono {Q Q' : List ℕ} {last : ℕ} (h : Passed Q last r) (hpre : Q <+: Q') :
    Passed Q' last r := by
  obtain ⟨hr, hl, hle⟩ := h
  obtain ⟨rest, rfl⟩ := hpre
  refine ⟨mem_append_left _ hr, mem_append_left _ hl, ?_⟩
  rw [← cons_append, idxOf_append_of_mem (mem_cons_of_mem _ hr),
    idxOf_append_of_mem (mem_cons_of_mem _ hl)]
  exact hle

/-- A write to the segment leaves the iterators alone; what it does to the queue is left to
say. -/
theorem Proceeds.of_word {Q : List ℕ} (hq : Queued g m)
    (hg : Grows (words m) (update (words m) a v)) (hs : isCorrupt (update m (.word a) v) = false)
    (hpre : g.queue <+: Q) (hf : Follows (linkOf (update (words m) a v)) 48 48 Q)
    (hn : (48 :: Q).Nodup) (hb : ∀ r ∈ Q, Block (words m) r)
    (hta : update (words m) a v 44 ∈ 48 :: Q) (hw : ∀ r, Block (update (words m) a v) r → r ∉ Q →
      update (words m) a v (r + 12) = 0 ∨ update (words m) a v (r + 12) = 48)
    (hli : ∀ r ∈ 48 :: g.queue, words m (r + 12) ≠ 48 →
      update (words m) a v (r + 12) = words m (r + 12))
    (ho : ∀ r, Block (words m) r → r ∉ g.queue → l.iterable ≠ some r →
      update (words m) a v (r + 12) = words m (r + 12) ∧ r ∉ Q)
    (hok : QueueOk ⟨Q, g.counted⟩ (update m (.word a) v) l')
    (hi : l'.iterable = l.iterable := by rfl) (hc : l'.constructs = l.constructs := by rfl)
    (ht : l'.taken = none ∨ l'.taken = l.taken := by exact .inl rfl) :
    Proceeds g m l ⟨Q, g.counted⟩ (update m (.word a) v) l' := by
  have hl : ∀ k, update m (.word a) v (.lastRecord k) = m (.lastRecord k) :=
    fun k => update_of_ne (by simp) _ _
  refine ⟨⟨?_, hn, ?_, ?_, ?_, hq.counted_nodup, ?_, ?_, hs⟩, hok,
    ⟨hpre, ?_, ?_, ?_, ?_, ?_, ?_, fun _ _ h _ => h⟩, hi, hc,
    fun i r h => .inl (taken_of_same ht i r h)⟩
  · rwa [words_update_word]
  · rw [words_update_word]
    exact fun r hr => (hb r hr).grows hg
  · rwa [words_update_word]
  · rwa [words_update_word]
  · intro k r hr
    exact (hq.counted k r hr).mono hpre
  · intro k
    exact hq.count k
  · rw [words_update_word]
    exact hg.freeptr_le
  · rwa [words_update_word]
  · rwa [words_update_word]
  · intro k _ hz
    rwa [hl]
  · intro k hz
    rwa [hl]
  · intro k r h
    exact h.mono hpre

/-- A write to a word that is no link and no flag of the queue or of an iterator. -/
theorem Proceeds.of_quiet (hq : Queued g m)
    (hg : Guarantee S l (words m) (words (update m (.word a) v)))
    (hs : isCorrupt (update m (.word a) v) = false)
    (hok : QueueOk g (update m (.word a) v) l') (hi : l.iterable = none := by rfl)
    (hi' : l'.iterable = none := by rfl) (hc : l'.constructs = l.constructs := by rfl)
    (ht : l'.taken = none ∨ l'.taken = l.taken := by exact .inl rfl) :
    Proceeds g m l g (update m (.word a) v) l' := by
  rw [words_update_word] at hg
  obtain ⟨hta, hl⟩ := hg.links hi
  refine .of_word hq hg.toGrows hs (prefix_refl _) ?_ hq.nodup hq.block ?_ ?_
    (fun r hr _ => hl r (hq.node hr)) (fun r hb hr _ => ⟨hl r (.inr hb), hr⟩) hok
    (hi'.trans hi.symm) hc ht
  · exact hq.follows.congr fun b hb => hl b (hq.node hb)
  · rw [hta]
    exact hq.tail
  · intro r hb hr
    rcases hg.fresh r hb with hold | ⟨-, hz⟩
    · rw [hl r (.inr hold)]
      exact hq.waiting r hold hr
    · exact .inl hz

theorem Queued.sane_update (hq : Queued g m) (h : a ≠ 36 := by first | omega | decide) :
    isCorrupt (update m (.word a) v) = false := by
  have hsane := hq.sane
  unfold isCorrupt at hsane ⊢
  rwa [update_of_ne (by simp), update_of_ne]
  simpa [flagsOffset, eq_comm] using h

theorem isCorrupt_setFull (m : Memory) :
    isCorrupt (update m (.word flagsOffset) (setFlagFull (m (.word flagsOffset)))) =
      isCorrupt m := by
  have hmod : setFlagFull (m (.word flagsOffset)) % 2 = m (.word flagsOffset) % 2 := by
    unfold setFlagFull
    simpa using Nat.or_mod_two_pow (a := m (.word flagsOffset)) (b := 2) (n := 1)
  simp [isCorrupt, hmod]

theorem attempt_proceeds {f : Frame} (hq : Queued g m) (hf : f.Sized S)
    (hg : Good S f.freeptr) : Proceeds g m (.testCorrupt f) g m (attempt S (words m) f) := by
  rcases attempt_cases (w := words m) hf hg with h | ⟨h, -⟩ | ⟨size, h, -, -⟩ <;> rw [h] <;>
    exact .of_read hq trivial

theorem linkOf_update (w : Words) (t v : ℕ) :
    linkOf (update w (t + 12) v) = update (linkOf w) t v := by
  funext r
  by_cases h : r = t
  · subst h
    simp [linkOf]
  · simp [linkOf, h]

/-- The link of a block that is not in the queue yet is set to the header. -/
theorem proceeds_storeNext (hl : Layout S (words m)) (hq : Queued g m) (hb : Block (words m) ref)
    (hz : words m (ref + 12) = 0) :
    Proceeds g m (.storeNext ref) g (update m (.word (ref + 12)) kReferenceQueue)
      (.loadTail ref) := by
  have hn : Node (words m) ref := .inr hb
  have hp := hb.pastMetadata
  have hmem : ref ∉ g.queue := hq.not_mem hz
  have ho : ∀ r, r ≠ ref → update (words m) (ref + 12) kReferenceQueue (r + 12) =
      words m (r + 12) := fun r hr => update_of_ne (by omega) _ _
  have hno : ∀ r ∈ 48 :: g.queue, r ≠ ref := by
    rintro r hr rfl
    exact hq.link_ne_zero hr hz
  refine .of_word hq (.setNext hl hn (by decide)) hq.sane_update
    (prefix_refl _) (hq.follows.congr fun b hb => ho b (hno b hb)) hq.nodup hq.block
    ?_ (fun r hr hrq => ?_) (fun r hr _ => ho r (hno r hr))
    (fun r _ hr hne => ⟨ho r fun h => hne (by rw [h]; rfl), hr⟩) ⟨?_, hmem⟩
  · rw [update_of_ne (by omega)]
    exact hq.tail
  · by_cases hne : r = ref
    · subst hne
      exact .inr (update_self _ _ _)
    · rw [ho r hne]
      exact hq.waiting r (hr.of_setNext hn hl.linked_queue.1) hrq
  · rw [words_update_word]
    exact update_self _ _ _

/-- The exchange that appends a block to the queue. -/
theorem proceeds_link {tail : ℕ} (hl : Layout S (words m)) (hq : Queued g m)
    (hb : Block (words m) ref) (hok : QueueOk g m (.link ref tail))
    (hend : words m (tail + 12) = 48) : Proceeds g m (.link ref tail) ⟨g.queue ++ [ref], g.counted⟩
      (update m (.word (tail + 12)) ref) (.swingTail ref tail) := by
  obtain ⟨hli, hmem, ht⟩ := hok
  have hn : Node (words m) tail := hq.node ht
  have hp := hb.pastMetadata
  have hmem' : ref ∉ 48 :: g.queue := by
    rw [mem_cons, not_or]
    exact ⟨by omega, hmem⟩
  have ho : ∀ r, r ≠ tail → update (words m) (tail + 12) ref (r + 12) =
      words m (r + 12) := fun r hr => update_of_ne (by omega) _ _
  have hge : 48 ≤ tail := by
    rcases hn with rfl | htb
    · omega
    · have := htb.pastMetadata
      omega
  refine .of_word hq (.setNext hl hn (by omega)) hq.sane_update
    (prefix_append _ _) ?_ ?_ ?_ ?_ (fun r hr hrq => ?_) (fun r hr hne => ?_)
    (fun r hr hrq hne => ?_) (mem_append_right _ (mem_singleton_self ref))
  · rw [linkOf_update]
    exact hq.follows.append hq.nodup ht hend hmem' (by omega) hli
  · rw [← cons_append]
    exact hq.nodup.append (nodup_singleton ref) (by simpa using hmem')
  · intro r hr
    rcases mem_append.mp hr with hr | hr
    · exact hq.block r hr
    · rw [mem_singleton.mp hr]
      exact hb
  · rw [update_of_ne (by omega), ← cons_append]
    exact mem_append_left _ hq.tail
  · have hr' : Block (words m) r := hr.of_setNext hn (.inr hb)
    have hrq' : r ∉ g.queue := fun h => hrq (mem_append_left _ h)
    have hne : r ≠ tail := by
      rintro rfl
      rcases mem_cons.mp ht with rfl | h
      · have := hr'.pastMetadata
        omega
      · exact hrq' h
    rw [ho r hne]
    exact hq.waiting r hr' hrq'
  · exact ho r fun h => hne (h ▸ hend)
  · have hne' : r ≠ ref := fun h => hne (by rw [h]; rfl)
    have hnt : r ≠ tail := by
      rintro rfl
      rcases mem_cons.mp ht with rfl | h
      · have := hr.pastMetadata
        omega
      · exact hrq h
    refine ⟨ho r hnt, ?_⟩
    simp [hrq, hne']

/-- The tail may be moved to any node of the queue. -/
theorem proceeds_tail (hq : Queued g m) (hv : v ∈ 48 :: g.queue)
    (hok : QueueOk g (update m (.word 44) v) l') (hi : l'.iterable = l.iterable := by rfl)
    (hc : l'.constructs = l.constructs := by rfl)
    (ht : l'.taken = none ∨ l'.taken = l.taken := by exact .inl rfl) :
    Proceeds g m l g (update m (.word 44) v) l' := by
  have hno : ∀ r, Node (words m) r →
      update (words m) 44 v (r + 12) = words m (r + 12) := fun r hn => hn.update_next
  refine .of_word hq .of_metadata hq.sane_update (prefix_refl _)
    (hq.follows.congr fun b hb => hno b (hq.node hb)) hq.nodup hq.block ?_ (fun r hr hrq => ?_)
    (fun r hr _ => hno r (hq.node hr)) (fun r hr hrq _ => ⟨hno r (.inr hr), hrq⟩) hok hi
    hc ht
  · rw [update_self]
    exact hv
  · have hr' : Block (words m) r := hr.of_update
    rw [hno r (.inr hr')]
    exact hq.waiting r hr' hrq

end ChromiumBase.PersistentMemoryAllocator
