import ChromiumBase.Base.Metrics.PersistentMemoryAllocator.Iteration

/-!
# What holds in every interleaving

The two results about threads that share a segment: the blocks that `Allocate` returns, and
the queue of iterable blocks with its iterators.  The calls of both are interleaved here, so
each holds in the presence of the other.

The comment of `AllocateImpl` promises blocks at most two alignment units larger than needed.
An attempt keeps to that, but a call whose attempt enlarged the size and then lost its
exchange to another call starts its next attempt from the enlarged size, and may enlarge it
again.  The promise holds in the runs in which that does not happen.
-/

open Function List

namespace ChromiumBase.PersistentMemoryAllocator

open SharedMemory LinkedQueue

variable {S : Segment} {g g' g₀ : Aux} {c c' c₀ : Config} {i : ℕ}

/-- What a run does to the queue: it only grows, iterators only move on, and a block taken
during the run comes after all that were taken before it. -/
structure Later (g : Aux) (c : Config) (g' : Aux) (c' : Config) : Prop where
  queue : g.queue <+: g'.queue
  passed : ∀ k r, Passed g.queue (c.memory (.lastRecord k)) r →
    Passed g'.queue (c'.memory (.lastRecord k)) r
  taken : ∀ j k r, (c'.call j).taken = some (k, r) → (c.call j).taken = some (k, r) ∨
    ∀ r', Passed g.queue (c.memory (.lastRecord k)) r' →
      (48 :: g'.queue).idxOf r' < (48 :: g'.queue).idxOf r

theorem Later.refl (g : Aux) (c : Config) : Later g c g c :=
  ⟨prefix_refl _, fun _ _ h => h, fun _ _ _ h => .inl h⟩

theorem idxOf_grown {Q Q' : List ℕ} (hpre : Q <+: Q') {r : ℕ} (hr : r ∈ Q) :
    (48 :: Q').idxOf r = (48 :: Q).idxOf r := by
  obtain ⟨rest, rfl⟩ := hpre
  rw [← cons_append, idxOf_append_of_mem (mem_cons_of_mem _ hr)]

/-- A step of a call prolongs what a run has done to the queue. -/
theorem Later.run {m' : Memory} {l' : Call} (h : Later g₀ c₀ g c) (hc : Coherent S g c)
    (hp : Proceeds g c.memory (c.call i) g' m' l') : Later g₀ c₀ g' ⟨m', update c.call i l'⟩ := by
  refine ⟨h.queue.trans hp.continues.queue,
    fun k r hr => hp.continues.passed k r (h.passed k r hr), fun j k r hj => ?_⟩
  -- positions in the queue before the step are positions after it
  have hk : r ∈ g.queue → (∀ r', Passed g₀.queue (c₀.memory (.lastRecord k)) r' →
      (48 :: g.queue).idxOf r' < (48 :: g.queue).idxOf r) →
      ∀ r', Passed g₀.queue (c₀.memory (.lastRecord k)) r' →
        (48 :: g'.queue).idxOf r' < (48 :: g'.queue).idxOf r := by
    intro hr hlt r' hr'
    rw [idxOf_grown hp.continues.queue (h.passed k r' hr').1, idxOf_grown hp.continues.queue hr]
    exact hlt r' hr'
  have hold : (c.call j).taken = some (k, r) → (c₀.call j).taken = some (k, r) ∨
      ∀ r', Passed g₀.queue (c₀.memory (.lastRecord k)) r' →
        (48 :: g'.queue).idxOf r' < (48 :: g'.queue).idxOf r := fun ht =>
    (h.taken j k r ht).imp_right (hk ((hc.queue.call j).passed ht).1)
  by_cases hji : j = i
  · subst hji
    simp only [update_self] at hj
    rcases hp.taken k r hj with ht | ⟨hr, hlt⟩
    · exact hold ht
    · exact .inr (hk hr fun r' hr' => hlt r' (h.passed k r' hr'))
  · simp only [update_of_ne hji] at hj
    exact hold hj

theorem Later.start {l : Call} (h : Later g₀ c₀ g c) (ht : l.taken = none) :
    Later g₀ c₀ g ⟨c.memory, update c.call i l⟩ := by
  refine ⟨h.queue, h.passed, fun j k r hj => ?_⟩
  by_cases hji : j = i
  · subst hji
    simp only [update_self, ht] at hj
    cases hj
  · simp only [update_of_ne hji] at hj
    exact h.taken j k r hj

theorem Coherent.later (h : Coherent S g c) (hrun : Relation.ReflTransGen (Step S) c c') :
    ∃ g', Coherent S g' c' ∧ Later g c g' c' := by
  induction hrun with
  | refl => exact ⟨g, h, Later.refl g c⟩
  | tail _ hs ih =>
    obtain ⟨g₁, hc, hl⟩ := ih
    cases hs with
    | run i hp =>
      obtain ⟨g₂, hc', hpr⟩ := hc.run hp
      exact ⟨g₂, hc', hl.run hc hpr⟩
    | start i hi hst =>
      exact ⟨g₁, hc.start hi hst, hl.start (hc.start_ok hst).2.1⟩

theorem exists_coherent (h : Reachable S c) : ∃ g, Coherent S g c := by
  obtain ⟨g, hc, -⟩ := coherent_initial.later h
  exact ⟨g, hc⟩

/-- Following the `next` fields from the header of the queue meets the blocks `Q`, in this
order, and comes back to the header. -/
def QueueIs (m : Memory) (Q : List ℕ) : Prop :=
  Follows (linkOf (words m)) kReferenceQueue kReferenceQueue Q

/-- In every interleaving: from the state `c` to any later one the queue only grows at its
end, every block whose `MakeIterable` has returned is in it, once; the blocks that calls
have been returned from one iterator are different, and a call that had not yet moved the
iterator in `c` is returned a block that comes after all that had been returned by then. -/
theorem makeIterable_getNext_interleaved (S : Segment) {c c' : Config} (h : Reachable S c)
    (hrun : Relation.ReflTransGen (Step S) c c') :
    ∃ Q Q', QueueIs c.memory Q ∧ QueueIs c'.memory Q' ∧ Q <+: Q' ∧ Q'.Nodup ∧
      (∀ i ref, c'.call i = .madeIterable ref → ref ∈ Q') ∧
      (∀ i k r type, c'.call i = .returned k r type → r ∈ Q') ∧
      (∀ i j k r r' type type', i ≠ j → c'.call i = .returned k r type →
        c'.call j = .returned k r' type' → r ≠ r') ∧
      (∀ i j k r r' type type', c.call i = .returned k r type → (c.call j).taken = none →
        c'.call j = .returned k r' type' → Q'.idxOf r < Q'.idxOf r') ∧
      isCorrupt c'.memory = false := by
  obtain ⟨g, hc⟩ := exists_coherent h
  obtain ⟨g', hc', hl⟩ := hc.later hrun
  have hq' := hc'.queue.shared
  refine ⟨g.queue, g'.queue, hc.queue.shared.follows, hq'.follows, hl.queue,
    (nodup_cons.mp hq'.nodup).2, ?_, ?_, ?_, ?_, hq'.sane⟩
  · intro i ref hca
    have hok := hc'.queue.call i
    rw [hca] at hok
    exact hok
  · intro i k r type hca
    have hok := hc'.queue.call i
    rw [hca] at hok
    exact hok.1
  · rintro i j k r r' type type' hij hi hj rfl
    have hd := (hc'.queue.pair i j hij).taken (k, r)
    rw [hi, hj] at hd
    exact hd rfl rfl
  · intro i j k r r' type type' hi hn hj
    have hp : Passed g.queue (c.memory (.lastRecord k)) r := by
      have hok := hc.queue.call i
      rw [hi] at hok
      exact hok
    have ht : (c'.call j).taken = some (k, r') := by
      rw [hj]
      rfl
    have hlt := ((hl.taken j k r' ht).resolve_left (by simp [hn])) r hp
    have hmem : r ∈ g'.queue := hl.queue.subset hp.1
    have hok' := hc'.queue.call j
    rw [hj] at hok'
    have hne : ∀ x ∈ g'.queue, 48 ≠ x := fun x hx => by
      have := (hq'.block x hx).pastMetadata
      omega
    rw [idxOf_cons_ne _ (hne r hmem), idxOf_cons_ne _ (hne r' hok'.1)] at hlt
    omega

def twoPages : Segment :=
  ⟨256, 128, by decide, by decide, by decide, by decide, by decide⟩

def twoAllocated : Config :=
  schedule (action twoPages)
    ⟨initialMemory, update (update (fun _ => .idle) 0 (allocateImpl twoPages 8 0))
      1 (allocateImpl twoPages 8 0)⟩
    (List.replicate 10 0 ++ List.replicate 10 1)

/-- Two calls make the blocks iterable.  The first one stops before it moves the tail, and the
second one does it in its place. -/
def twoIterable : Config :=
  schedule (action twoPages)
    ⟨twoAllocated.memory, update (update twoAllocated.call 2 (.makeIterable 64))
      3 (.makeIterable 88)⟩
    (List.replicate 7 2 ++ List.replicate 14 3)

def twoIterator : Config :=
  schedule (action twoPages)
    ⟨twoIterable.memory, update twoIterable.call 4 (.construct 0 0)⟩
    (List.replicate 2 4)

/-- Two calls share it.  Both are about to move it on, and one of them does. -/
def onceIterated : Config :=
  schedule (action twoPages)
    ⟨twoIterator.memory, update (update twoIterator.call 5 (.loadCount 0)) 6 (.loadCount 0)⟩
    (List.replicate 5 5 ++ List.replicate 10 6)

/-- The other one has to try again. -/
def twiceIterated : Config :=
  schedule (action twoPages) onceIterated (List.replicate 9 5)

theorem forall_call {P : Call → Prop} {n : ℕ} (hidle : ∀ j, n ≤ j → c.call j = .idle)
    (hP : P .idle) (h : ∀ j < n, P (c.call j)) (j : ℕ) : P (c.call j) := by
  by_cases hj : j < n
  · exact h j hj
  · rw [hidle j (not_lt.mp hj)]
    exact hP

theorem twoAllocated_idle (j : ℕ) (hj : 2 ≤ j) : twoAllocated.call j = .idle := by
  rw [twoAllocated, schedule_call _ (by simp; omega)]
  simp [update_of_ne (by omega : j ≠ 0), update_of_ne (by omega : j ≠ 1)]

theorem twoIterable_idle (j : ℕ) (hj : 4 ≤ j) : twoIterable.call j = .idle := by
  rw [twoIterable, schedule_call _ (by simp; omega)]
  simp [update_of_ne (by omega : j ≠ 2), update_of_ne (by omega : j ≠ 3),
    twoAllocated_idle j (by omega)]

theorem reachable_onceIterated : Reachable twoPages onceIterated := by
  have h₁ : Reachable twoPages twoAllocated :=
    .trans (.tail (.single (.start 0 rfl (.allocate 8 0))) (.start 1 rfl (.allocate 8 0)))
      (reflTransGen_schedule _ _)
  have hone : ∀ j, (twoAllocated.call j).iterable ≠ some 64 :=
    forall_call twoAllocated_idle (P := fun l => l.iterable ≠ some 64) nofun (by decide)
  have htwo : ∀ j, (update twoAllocated.call 2 (.makeIterable 64) j).iterable ≠ some 88 :=
    forall_call (c := ⟨twoAllocated.memory, update twoAllocated.call 2 (.makeIterable 64)⟩) (n := 3)
      (P := fun l => l.iterable ≠ some 88)
      (fun j hj => (update_of_ne (by omega) _ _).trans (twoAllocated_idle j (by omega))) nofun
      (by decide)
  have h₂ : Reachable twoPages twoIterable :=
    .trans (.tail (.tail h₁ (.start 2 rfl (.makeIterable ⟨0, ⟨8, 0, 24, 64⟩, rfl, rfl⟩ hone)))
      (.start 3 rfl (.makeIterable ⟨1, ⟨8, 0, 40, 88⟩, rfl, rfl⟩ htwo)))
      (reflTransGen_schedule _ _)
  have hnew : ∀ j, (twoIterable.call j).constructs ≠ some 0 :=
    forall_call twoIterable_idle (P := fun l => l.constructs ≠ some 0) nofun (by decide +kernel)
  have h₃ : Reachable twoPages twoIterator :=
    .trans (.tail h₂ (.start 4 (twoIterable_idle 4 le_rfl) (.construct (.inl rfl) hnew)))
      (reflTransGen_schedule _ _)
  have h₄ : Reachable twoPages ⟨twoIterator.memory, update twoIterator.call 5 (.loadCount 0)⟩ :=
    .tail h₃ (.start 5 (by decide +kernel) (.getNext (i := 4) (by decide +kernel)))
  have h₅ : Reachable twoPages ⟨twoIterator.memory,
      update (update twoIterator.call 5 (.loadCount 0)) 6 (.loadCount 0)⟩ :=
    .tail h₄ (.start 6 (by decide +kernel) (.getNext (i := 4) (by decide +kernel)))
  exact h₅.trans (reflTransGen_schedule _ _)

theorem makeIterable_getNext_interleaved_two :
    twiceIterated.call 2 = .swingTail 64 48 ∧ twiceIterated.call 3 = .madeIterable 88 ∧
      onceIterated.call 6 = .returned 0 64 0 ∧ twiceIterated.call 5 = .returned 0 88 0 ∧
      ∃ Q, QueueIs twiceIterated.memory Q ∧ 64 ∈ Q ∧ 88 ∈ Q ∧ Q.idxOf 64 < Q.idxOf 88 := by
  have hrun : Relation.ReflTransGen (Step twoPages) onceIterated twiceIterated :=
    reflTransGen_schedule _ _
  obtain ⟨_, Q, -, hq, -, -, hmade, hret, -, hlt, -⟩ :=
    makeIterable_getNext_interleaved twoPages reachable_onceIterated hrun
  have hmade' : twiceIterated.call 3 = .madeIterable 88 := by decide +kernel
  have hfirst : onceIterated.call 6 = .returned 0 64 0 := by decide +kernel
  have hsecond : twiceIterated.call 5 = .returned 0 88 0 := by decide +kernel
  have hsame : twiceIterated.call 6 = onceIterated.call 6 := by
    rw [twiceIterated, schedule_call _ (by simp)]
  exact ⟨by decide +kernel, hmade', hfirst, hsecond, Q, hq, hret 6 0 64 0 (hsame.trans hfirst),
    hmade 3 88 hmade', hlt 6 5 0 64 88 0 0 hfirst (by decide +kernel) hsecond⟩

/-- A step in which a call loses its exchange after it has enlarged its size to the end of
the page. -/
def LosesEnlarged (c c' : Config) : Prop :=
  ∃ i f v, c.call i = .reserve f ∧ roundUp (f.reqSize + sizeofBlockHeader) < f.size ∧
    c'.call i = .testCorrupt { f with freeptr := v }

def Snug : Call → Prop
  | .loadFreeptr f | .testCorrupt f | .reserveWasted f | .writeWastedSize f
  | .writeWastedCookie f => f.size = roundUp (f.reqSize + sizeofBlockHeader)
  | .reserve f | .verify f _ | .writeSize f | .writeCookie f | .writeTypeId f | .allocated f =>
    f.size ≤ roundUp (f.reqSize + sizeofBlockHeader) + 2 * kAllocAlignment
  | .setCorrupt resume | .setCorruptFlag resume => Snug resume
  | _ => True

theorem Snug.allocateImpl (reqSize typeId : ℕ) : Snug (allocateImpl S reqSize typeId) := by
  unfold PersistentMemoryAllocator.allocateImpl
  split
  · trivial
  · simp only
    split
    · trivial
    · exact rfl

theorem Snug.start {l : Call} (hs : Start S c l) : Snug l := by
  cases hs with
  | allocate reqSize typeId => exact Snug.allocateImpl reqSize typeId
  | makeIterable _ _ => trivial
  | construct _ _ => trivial
  | getNext _ => trivial

theorem snug_action {m : Memory} {l : Call} (hl : Snug l) (hc : CallOk S (words m) l) :
    (action S l).Ensures m fun _ l' =>
      (∀ f v, l = .reserve f → roundUp (f.reqSize + sizeofBlockHeader) < f.size →
        l' ≠ .testCorrupt { f with freeptr := v }) → Snug l' := by
  cases l with
  | testCorrupt f =>
    refine .read fun _ => ?_
    split
    · trivial
    · rcases attempt_cases (w := words m) hc.1 hc.2.1 with h | ⟨h, -⟩ | ⟨size, h, -, hle⟩
      · rw [h]
        trivial
      · rw [h]
        exact hl
      · rw [h]
        have hs : f.size = roundUp (f.reqSize + sizeofBlockHeader) := hl
        rw [hs] at hle
        exact hle
  | reserve f =>
    refine .exchange (fun _ _ => hl) fun _ hk => ?_
    have hnot : ¬ roundUp (f.reqSize + sizeofBlockHeader) < f.size := fun hlt =>
      hk f _ rfl hlt rfl
    exact le_antisymm (Nat.not_lt.mp hnot) hc.1.ge_request
  | verify f field =>
    refine .read fun _ => ?_
    dsimp only
    split
    · trivial
    · split <;> exact hl
  | reserveWasted f => exact .exchange (fun _ _ => hl) fun _ _ => hl
  | loadFreeptr f | writeWastedSize f | writeWastedCookie f | writeSize f | writeCookie f
  | writeTypeId f | setCorrupt resume | setCorruptFlag resume => exact fun _ => hl
  -- the calls of the queue have no size
  | makeIterable ref | checkBlock ref | checkTail ref tail | checkLast i count last
  | checkNext i count last next =>
    refine .read fun _ => ?_
    split <;> trivial
  | loadNext ref | followLast i count last | testCount i count next type =>
    refine .read fun _ => ?_
    dsimp only
    split <;> trivial
  | setFull | countRecord i next type | loadTail ref | loadCount i | loadLast i count
  | loadType i count next | construct i startingAfter | storeNext ref | storeLast i last =>
    exact fun _ => trivial
  | link ref tail | swingTail ref tail | helpTail ref tail next | advance i count last next =>
    exact .exchange (fun _ _ => trivial) fun _ _ => trivial
  | idle | allocated f | allocateFailed | madeIterable ref | constructed i
  | returned i next type | returnedNull i => trivial

/-- In runs without such a step every call keeps to the size it needs. -/
theorem snug_of_run
    (h : Relation.ReflTransGen (fun c c' => Step S c c' ∧ ¬ LosesEnlarged c c') initial c) :
    Sound S c ∧ ∀ i, Snug (c.call i) := by
  induction h with
  | refl => exact ⟨sound_initial, fun _ => trivial⟩
  | @tail c c' _ hs ih =>
    obtain ⟨hso, hsn⟩ := ih
    obtain ⟨hst, hk⟩ := hs
    refine ⟨hso.step hst, fun j => ?_⟩
    cases hst with
    | @run i m l hp =>
      by_cases hji : j = i
      · subst hji
        simp only [update_self]
        refine (snug_action (hsn j) (hso.call j)).of_perform hp fun f v hf hlt heq => ?_
        exact hk ⟨j, f, v, hf, hlt, by simp [heq]⟩
      · simpa only [update_of_ne hji] using hsn j
    | @start i l _ hsta =>
      by_cases hji : j = i
      · subst hji
        simpa only [update_self] using Snug.start hsta
      · simpa only [update_of_ne hji] using hsn j

/-- In every interleaving the blocks that `Allocate` returns are aligned, lie in the segment
and in one page, hold the request and its header, and are apart; and the segment is never
marked as corrupt.  They exceed the rounded request by at most two alignment units in every
run in which no call loses its exchange for an enlarged block. -/
theorem allocate_interleaved (S : Segment) : (∀ c, Reachable S c → (∀ i f, c.call i = .allocated f →
        f.freeptr % kAllocAlignment = 0 ∧ sizeofSharedMetadata ≤ f.freeptr ∧
        f.freeptr + f.size ≤ S.memSize ∧ f.freeptr % S.memPage + f.size ≤ S.memPage ∧
        f.reqSize + sizeofBlockHeader ≤ f.size) ∧
      (∀ i j f f', i ≠ j → c.call i = .allocated f → c.call j = .allocated f' →
        Apart f.freeptr f.size f'.freeptr f'.size) ∧
      isCorrupt c.memory = false) ∧
    ∀ c, Relation.ReflTransGen (fun c c' => Step S c c' ∧ ¬ LosesEnlarged c c') initial c →
      ∀ i f, c.call i = .allocated f →
        f.size ≤ roundUp (f.reqSize + sizeofBlockHeader) + 2 * kAllocAlignment := by
  refine ⟨fun c h => ⟨fun i f hca => ?_, fun i j f f' hij hi hj => ?_, ?_⟩, fun c h i f hca => ?_⟩
  · have hok := (sound_of_reachable h).call i
    rw [hca] at hok
    have hf := hok.1
    have hp := mod_add_pageFree (S := S) f.freeptr
    have hr := hf.rest
    have hreq := hf.ge_request
    refine ⟨hf.good.aligned, hf.good.pastMetadata, hf.inside, by omega, ?_⟩
    unfold roundUp kAllocAlignment at hreq
    omega
  · exact (sound_of_reachable h).pair i j hij _ _ (by rw [hi]; rfl) (by rw [hj]; rfl)
  · obtain ⟨g, hc⟩ := exists_coherent h
    exact hc.queue.shared.sane
  · have hs := (snug_of_run h).2 i
    rw [hca] at hs
    exact hs

def threeCalls : Config :=
  ⟨initialMemory, update (update (update (fun _ => .idle)
    0 (allocateImpl twoPages 32 0)) 1 (allocateImpl twoPages 48 0))
    2 (allocateImpl twoPages 32 0)⟩

theorem reachable_threeCalls : Reachable twoPages threeCalls := by
  refine .tail (.tail (.tail .refl (.start 0 rfl (.allocate 32 0)))
    (.start 1 rfl (.allocate 48 0))) (.start 2 rfl (.allocate 32 0))

/-- A schedule in which the first call is overtaken by the two others. -/
def overtaken : Config :=
  schedule (action twoPages) threeCalls
    ([0, 0] ++ List.replicate 10 1 ++ List.replicate 10 2 ++ List.replicate 10 0)

theorem reachable_overtaken : Reachable twoPages overtaken :=
  reachable_threeCalls.trans (reflTransGen_schedule _ _)

def inTurn : List ℕ := List.replicate 10 0 ++ List.replicate 10 1 ++ List.replicate 10 2

def losesEnlarged (S : Segment) (c : Config) (i : ℕ) : Bool :=
  match c.call i, (advance (action S) c i).call i with
  | .reserve f, .testCorrupt _ => roundUp (f.reqSize + sizeofBlockHeader) < f.size
  | _, _ => false

theorem not_losesEnlarged_advance (h : losesEnlarged S c i = false) :
    ¬ LosesEnlarged c (advance (action S) c i) := by
  rintro ⟨j, f, v, hj, hlt, hj'⟩
  by_cases hji : j = i
  · subst hji
    rw [losesEnlarged, hj, hj'] at h
    exact of_decide_eq_false h hlt
  · have hsame : (advance (action S) c i).call j = c.call j :=
      schedule_call c (mt mem_singleton.1 hji)
    rw [hsame, hj] at hj'
    cases hj'

theorem not_losesEnlarged_start {l : Call} (hi : c.call i = .idle) :
    ¬ LosesEnlarged c ⟨c.memory, update c.call i l⟩ := by
  rintro ⟨j, f, v, hj, -, hj'⟩
  by_cases hji : j = i
  · subst hji
    rw [hi] at hj
    cases hj
  · have hsame : update c.call i l j = c.call j := update_of_ne hji _ _
    cases hj.symm.trans (hsame.symm.trans hj')

def keepsEnlarged (S : Segment) : Config → List ℕ → Bool
  | _, [] => true
  | c, i :: calls => !losesEnlarged S c i && keepsEnlarged S (advance (action S) c i) calls

theorem reflTransGen_keepsEnlarged {calls : List ℕ} (h : keepsEnlarged S c calls = true) :
    Relation.ReflTransGen (fun c c' => Step S c c' ∧ ¬ LosesEnlarged c c') c
      (schedule (action S) c calls) := by
  induction calls generalizing c with
  | nil => exact .refl
  | cons i calls ih =>
    rw [keepsEnlarged, Bool.and_eq_true, Bool.not_eq_true'] at h
    refine .trans ?_ (ih h.2)
    have hkeep := not_losesEnlarged_advance h.1
    unfold advance at hkeep ⊢
    split
    next m l hp =>
      rw [hp] at hkeep
      exact .single ⟨.run i hp, hkeep⟩
    · exact .refl

theorem allocate_interleaved_three : overtaken.call 1 = .allocated ⟨48, 0, 64, 64⟩ ∧
      overtaken.call 2 = .allocated ⟨32, 0, 48, 128⟩ ∧ Apart 64 64 128 48 ∧
      isCorrupt overtaken.memory = false ∧
      (schedule (action twoPages) threeCalls inTurn).call 0 = .allocated ⟨32, 0, 64, 64⟩ ∧
      64 ≤ roundUp (32 + sizeofBlockHeader) + 2 * kAllocAlignment := by
  obtain ⟨hfirst, hsecond⟩ := allocate_interleaved twoPages
  obtain ⟨-, ha, hs⟩ := hfirst overtaken reachable_overtaken
  have hstart : Relation.ReflTransGen (fun c c' => Step twoPages c c' ∧ ¬ LosesEnlarged c c')
      initial threeCalls :=
    .tail (.tail (.single ⟨.start 0 rfl (.allocate 32 0), not_losesEnlarged_start rfl⟩)
      ⟨.start 1 rfl (.allocate 48 0), not_losesEnlarged_start rfl⟩)
      ⟨.start 2 rfl (.allocate 32 0), not_losesEnlarged_start rfl⟩
  have hkeep : keepsEnlarged twoPages threeCalls inTurn = true := by decide +kernel
  have hrun := hstart.trans (reflTransGen_keepsEnlarged hkeep)
  have hcall : (schedule (action twoPages) threeCalls inTurn).call 0 = .allocated ⟨32, 0, 64, 64⟩ :=
    by decide +kernel
  exact ⟨rfl, rfl, ha 1 2 _ _ (by decide) rfl rfl, hs, hcall, hsecond _ hrun 0 _ hcall⟩

/-- The first call finds 64 bytes left of its page and takes them all for its 48; it loses
the exchange to the second call, and after the third one finds 80 bytes left and takes
those: 32 bytes more than it needs. -/
theorem allocate_enlarged_twice :
    ∃ c, Reachable twoPages c ∧ c.call 0 = .allocated ⟨32, 0, 80, 176⟩ ∧
      ¬ 80 ≤ roundUp (32 + sizeofBlockHeader) + 2 * kAllocAlignment :=
  ⟨overtaken, reachable_overtaken, rfl, by decide⟩

end ChromiumBase.PersistentMemoryAllocator
