import ChromiumBase.Base.Containers.IntrusiveHeap.Repair

/-!
# The operations keep the heap

Every operation, started on a heap with exact handles, ends on one, and holds
the elements it should. Each starts the repair with a hole whose surroundings
are in order; what remains for each is why the element can only be out of order
in the direction it is sent.
-/

open HeapOrder Function List Option

namespace ChromiumBase.IntrusiveHeap

variable {ι α : Type*} {x e : Element ι α} {out : ℕ × IntrusiveHeap ι α} {heap : List (Element ι α)}
  {b : Multiset (Element ι α)} {n : ℕ}

def IsMaxHeap (less : α → α → Bool) (heap : List (Element ι α)) : Prop :=
  ∀ i a b, 0 < i → heap[parent i]? = some a → heap[i]? = some b →
    less a.value b.value = false

/-- A max-heap whose elements know their indices, and in which no other element
has a valid handle. -/
structure Invariant (less : α → α → Bool) (s : IntrusiveHeap ι α) : Prop where
  heap : IsMaxHeap less s.heap
  handles : ∀ id i, s.handles id = some i ↔ ∃ x, s.heap[i]? = some x ∧ x.id = id

theorem bag_eq_coe {f : ℕ → Element ι α} (xs : List (Element ι α)) (hlen : xs.length = n)
    (hget : ∀ i, i < n → xs[i]? = some (f i)) : bag n f = (xs : Multiset (Element ι α)) := by
  have hxs : xs = (range n).map f := by
    apply ext_getElem?
    intro i
    by_cases hi : i < n
    · simp [hget i hi, hi]
    · simp [hlen, hi]
  rw [hxs]
  rfl

theorem invariant_empty (less : α → α → Bool) : Invariant less (empty : IntrusiveHeap ι α) :=
  ⟨fun i a b _ h => by simp [empty] at h, fun id i => by simp [empty]⟩

variable {less : α → α → Bool} {s t : IntrusiveHeap ι α} {last : Element ι α} {pos : ℕ}

theorem IsMaxHeap.isHeap (h : IsMaxHeap less heap) (e : Element ι α) :
    IsHeap (Lt less) heap.length fun i => heap.getD i e := by
  intro i hi hn hlt
  have hup := parent_lt hi
  have hp : parent i < heap.length := by omega
  have hl := h i heap[parent i] heap[i] hi (getElem?_eq_getElem hp)
    (getElem?_eq_getElem hn)
  have hlt' : less heap[parent i].value heap[i].value = true := by
    simpa [Lt, hp, hn] using hlt
  rw [hlt'] at hl
  cases hl

/-- A heap whose hole has been filled satisfies the invariant, whatever is left behind its end. -/
theorem Filled.invariant (h : Filled less n b e out) {s' : IntrusiveHeap ι α}
    (hh : s'.handles = out.2.handles) (hlen : s'.heap.length = n)
    (hget : ∀ i, i < n → s'.heap[i]? = out.2.heap[i]?) :
    Invariant less s' ∧ (s'.heap : Multiset (Element ι α)) = b := by
  obtain ⟨he, ⟨f, hf, hhe, hbag⟩, -, -⟩ := h
  have hs : ∀ i x, s'.heap[i]? = some x → i < n := by
    intro i x hx
    rw [← hlen]
    exact (List.getElem?_eq_some_iff.mp hx).1
  have hval : ∀ i, i < n → s'.heap[i]? = some (f i) := fun i hi => by rw [hget i hi, hf i hi]
  refine ⟨⟨?_, ?_⟩, ?_⟩
  · intro i a b hi ha hb
    have hin := hs i b hb
    rw [hval i hin] at hb
    rw [hval _ (hs _ a ha)] at ha
    cases ha
    cases hb
    exact Bool.eq_false_iff.mpr (hhe i hi hin)
  · intro id i
    rw [hh, he]
    constructor
    · rintro ⟨hi, x, hx, hid⟩
      exact ⟨x, by rwa [hget i hi], hid⟩
    · rintro ⟨x, hx, hid⟩
      have hi := hs i x hx
      exact ⟨hi, x, by rwa [← hget i hi], hid⟩
  · rw [← hbag]
    exact (bag_eq_coe _ hlen hval).symm

def Keeps (less : α → α → Bool) (b : Multiset (Element ι α)) (s' : IntrusiveHeap ι α) :
    Prop :=
  Invariant less s' ∧ (s'.heap : Multiset (Element ι α)) = b

theorem Filled.keeps (h : Filled less n b e out) (hlen : out.2.heap.length = n) :
    Keeps less b out.2 :=
  h.invariant rfl hlen fun _ _ => rfl

theorem dropLast_set_perm (hl : heap[heap.length - 1]? = some last) (hpos : pos < heap.length - 1) :
    (heap.dropLast.set pos last).Perm (heap.eraseIdx pos) := by
  have hne : heap ≠ [] := by
    rintro rfl
    simp at hl
  have hd : pos < heap.dropLast.length := by simpa using hpos
  have hget : heap.getLast hne = last := by
    rw [getLast_eq_getElem]
    rw [getElem?_eq_getElem (by omega)] at hl
    exact some.inj hl
  have happ := dropLast_append_getLast hne
  rw [hget] at happ
  calc heap.dropLast.set pos last
      |>.Perm (last :: heap.dropLast.eraseIdx pos) := set_perm_cons_eraseIdx hd last
    _ |>.Perm (heap.dropLast.eraseIdx pos ++ [last]) :=
        (perm_append_singleton last _).symm
    _ = heap.eraseIdx pos := by
        rw [← eraseIdx_append_of_lt_length hd, happ]

variable [DecidableEq ι]

theorem makeHole_eq (hx : s.heap[pos]? = some x) :
    makeHole pos s = ⟨s.heap, Function.update s.handles x.id none⟩ := by
  simp only [makeHole, clearHeapHandle, hx]

@[simp] theorem makeHole_heap (pos : ℕ) (s : IntrusiveHeap ι α) :
    (makeHole pos s).heap = s.heap := by
  unfold makeHole clearHeapHandle
  split <;> rfl

/-- The handles that are valid after a hole was made, if those of the slots `P`
were valid before. -/
theorem makeHole_handles {P : ℕ → Prop}
    (h : ∀ id i, s.handles id = some i ↔ P i ∧ ∃ x, s.heap[i]? = some x ∧ x.id = id) (hP : P pos)
    (hpos : pos < s.size) (id : ι) (i : ℕ) : (makeHole pos s).handles id = some i ↔
      (i ≠ pos ∧ P i) ∧ ∃ x, s.heap[i]? = some x ∧ x.id = id := by
  have hx : s.heap[pos]? = some s.heap[pos] := getElem?_eq_getElem hpos
  have hpos' := (h s.heap[pos].id pos).mpr ⟨hP, _, hx, rfl⟩
  rw [makeHole_eq hx]
  by_cases hid : id = s.heap[pos].id
  · subst hid
    simp only [Function.update_self, reduceCtorEq, false_iff, not_and, and_imp]
    intro hne hPi hex
    rw [(h _ i).mpr ⟨hPi, hex⟩] at hpos'
    exact hne (some.inj hpos')
  · simp only [update_of_ne hid, h]
    constructor
    · rintro ⟨hPi, x, hx', hxid⟩
      refine ⟨⟨?_, hPi⟩, x, hx', hxid⟩
      rintro rfl
      rw [hx] at hx'
      cases hx'
      exact hid hxid.symm
    · exact fun hex => ⟨hex.1.2, hex.2⟩

theorem Invariant.makeHole_handles (h : Invariant less s) (hpos : pos < s.size) (id : ι) (i : ℕ) :
    (makeHole pos s).handles id = some i ↔ i ≠ pos ∧ ∃ x, s.heap[i]? = some x ∧ x.id = id := by
  simpa using IntrusiveHeap.makeHole_handles (P := fun _ => True)
    (by simpa using h.handles) trivial hpos id i

/-- The state `t` has a hole at `pos` where `s` has an element; what is left in
the slot of the hole does not matter. -/
structure Opened (pos : ℕ) (s t : IntrusiveHeap ι α) : Prop where
  length_eq : t.heap.length = s.heap.length
  getElem?_eq : ∀ i, i ≠ pos → t.heap[i]? = s.heap[i]?
  handles_eq : t.handles = (makeHole pos s).handles

theorem opened_makeHole (pos : ℕ) (s : IntrusiveHeap ι α) : Opened pos s (makeHole pos s) :=
  ⟨by rw [makeHole_heap], fun i _ => by rw [makeHole_heap], rfl⟩

theorem Opened.hole (ht : Opened pos s t) (h : Invariant less s) (hpos : pos < s.size)
    (hf : t.handles e.id = none) : Hole s.size pos e t where
  lt := hpos
  le := by
    rw [ht.length_eq]
    exact hpos.le
  slots i hi _ := by rwa [ht.length_eq]
  handles id i := by
    rw [ht.handles_eq, h.makeHole_handles hpos]
    constructor
    · rintro ⟨hne, x, hx, hid⟩
      exact ⟨(List.getElem?_eq_some_iff.mp hx).1, hne, x, by rwa [ht.getElem?_eq i hne], hid⟩
    · rintro ⟨-, hne, x, hx, hid⟩
      exact ⟨hne, x, by rwa [← ht.getElem?_eq i hne], hid⟩
  fresh := hf

theorem Opened.view_of_ne {i : ℕ} (ht : Opened pos s t) (e : Element ι α) (h : i ≠ pos) :
    view pos e t i = s.heap.getD i e := by
  rw [view, if_neg h, getD_eq_getElem?_getD, ht.getElem?_eq i h, getD_eq_getElem?_getD]

/-- Erasing the last element needs no repair. -/
theorem dropLast_keeps (h : Invariant less s) (hpos : 0 < s.size) :
    Keeps less (s.heap.eraseIdx (s.size - 1) : Multiset (Element ι α))
      ⟨s.heap.dropLast, (makeHole (s.size - 1) s).handles⟩ := by
  have hget : ∀ i, s.heap.dropLast[i]? = if i < s.size - 1 then s.heap[i]? else none :=
    fun i => getElem?_dropLast
  refine ⟨⟨fun i a b hi ha hb => ?_, fun id i => ?_⟩, ?_⟩
  · simp only [hget, ite_none_right_eq_some] at ha hb
    exact h.heap i a b hi ha.2 hb.2
  · simp only [h.makeHole_handles (show s.size - 1 < s.size by omega), hget,
      ite_none_right_eq_some]
    constructor
    · rintro ⟨hne, x, hx, hid⟩
      have hi := (List.getElem?_eq_some_iff.mp hx).1
      unfold size at hne hpos ⊢
      exact ⟨x, ⟨by omega, hx⟩, hid⟩
    · rintro ⟨x, ⟨hi, hx⟩, hid⟩
      exact ⟨by omega, x, hx, hid⟩
  · rw [dropLast_eq_eraseIdx (i := s.size - 1) (by unfold size at hpos ⊢; omega)]

/-- The state in which `erase` of an element other than the last one moves the
hole: neither that element nor the last one has a valid handle. -/
def opened₂ (pos : ℕ) (s : IntrusiveHeap ι α) : IntrusiveHeap ι α :=
  makeHole (s.size - 1) (makeHole pos s)

@[simp] theorem opened₂_heap (pos : ℕ) (s : IntrusiveHeap ι α) : (opened₂ pos s).heap = s.heap := by
  rw [opened₂, makeHole_heap, makeHole_heap]

@[simp] theorem opened₂_size (pos : ℕ) (s : IntrusiveHeap ι α) : (opened₂ pos s).size = s.size := by
  rw [size, opened₂_heap, size]

theorem opened₂_hole (h : Invariant less s) (hpos : pos < s.size - 1)
    (hl : s.heap[s.size - 1]? = some last) : Hole (s.size - 1) pos last (opened₂ pos s) := by
  have hs : (makeHole pos s).size = s.size := by rw [size, makeHole_heap, size]
  have hh : ∀ id i, (opened₂ pos s).handles id = some i ↔
      (i ≠ s.size - 1 ∧ i ≠ pos) ∧ ∃ x, s.heap[i]? = some x ∧ x.id = id := by
    intro id i
    rw [opened₂, makeHole_handles (P := fun i => i ≠ pos) (by simpa using h.makeHole_handles (show
      pos < s.size by omega)) (by omega) (by omega), makeHole_heap]
  refine ⟨hpos, ?_, fun i hi _ => ?_, fun id i => ?_, ?_⟩
  · rw [opened₂_heap]
    unfold size at hpos
    omega
  · rw [opened₂_heap]
    unfold size at hi
    omega
  · rw [hh, opened₂_heap]
    constructor
    · rintro ⟨hne, x, hx, hid⟩
      have hi := (List.getElem?_eq_some_iff.mp hx).1
      unfold size at hne ⊢
      exact ⟨by omega, hne.2, x, hx, hid⟩
    · rintro ⟨hi, hne, hex⟩
      exact ⟨⟨by omega, hne⟩, hex⟩
  · rw [opened₂, makeHole_eq (x := last) (by rwa [makeHole_heap])]
    exact Function.update_self _ _ _

section

variable (h : Invariant less s)

include h

/-- The last element in the place of the erased one: the elements are those of the heap without
it. -/
theorem opened₂_bag (hpos : pos < s.size - 1)
    (hl : s.heap[s.size - 1]? = some last) : bag (s.size - 1) (view pos last (opened₂ pos s)) =
      (s.heap.eraseIdx pos : Multiset (Element ι α)) := by
  rw [bag_eq_coe (s.heap.dropLast.set pos last) (by simp [size])]
  · exact Multiset.coe_eq_coe.mpr (dropLast_set_perm hl hpos)
  · intro i hi
    rw [getElem?_set]
    by_cases hip : i = pos
    · subst hip
      have : i < s.heap.length - 1 := hi
      simp [this]
    · have hget := (opened₂_hole h hpos hl).getElem? hi hip
      have hi' : i < s.heap.length - 1 := hi
      rw [opened₂_heap] at hget
      rw [if_neg (Ne.symm hip), getElem?_dropLast, if_pos hi', hget]

theorem clearLoop_spec (k : ℕ) :
    ((List.range k).foldl (fun s i => clearHeapHandle i s) s).heap = s.heap ∧
      ∀ id i, ((List.range k).foldl (fun s i => clearHeapHandle i s) s).handles id = some i →
        k ≤ i ∧ s.handles id = some i := by
  induction k with
  | zero => exact ⟨rfl, fun id i hi => ⟨Nat.zero_le i, hi⟩⟩
  | succ k ih =>
    obtain ⟨hhe, hh⟩ := ih
    rw [range_succ, foldl_append, foldl_cons, foldl_nil]
    generalize foldl (fun s i => clearHeapHandle i s) s (range k) = t
      at hhe hh ⊢
    refine ⟨(makeHole_heap k _).trans hhe, fun id i hi => ?_⟩
    unfold clearHeapHandle at hi
    rw [hhe] at hi
    cases hx : s.heap[k]? with
    | none =>
      rw [hx] at hi
      obtain ⟨hk, hi⟩ := hh id i hi
      obtain ⟨x, hxi, -⟩ := (h.handles id i).mp hi
      refine ⟨Nat.lt_of_le_of_ne hk ?_, hi⟩
      rintro rfl
      rw [hx] at hxi
      cases hxi
    | some x =>
      rw [hx] at hi
      by_cases hid : id = x.id
      · subst hid
        simp at hi
      · simp only [update_of_ne hid] at hi
        obtain ⟨hk, hi⟩ := hh id i hi
        obtain ⟨y, hy, hyid⟩ := (h.handles id i).mp hi
        refine ⟨Nat.lt_of_le_of_ne hk ?_, hi⟩
        rintro rfl
        rw [hx] at hy
        cases hy
        exact hid hyid.symm

theorem clear_keeps : Keeps less 0 (clear s) := by
  obtain ⟨-, hh⟩ := clearLoop_spec h s.size
  refine ⟨⟨fun i a b _ ha => by simp [clear] at ha, fun id i => ?_⟩, rfl⟩
  constructor
  · intro hi
    obtain ⟨hle, hi⟩ := hh id i hi
    obtain ⟨x, hx, -⟩ := (h.handles id i).mp hi
    have hlt := (List.getElem?_eq_some_iff.mp hx).1
    unfold size at hle
    omega
  · rintro ⟨x, hx, -⟩
    simp [clear] at hx

end

variable [IsStrictWeakOrder α fun a b => less a b = true]

/-- Inserting an element without a handle adds it to the elements. -/
theorem insertImpl_keeps (h : Invariant less s) (hfr : s.handles e.id = none) :
    Keeps less (e ::ₘ (s.heap : Multiset (Element ι α))) (insertImpl less e s).2 := by
  have hh : Hole (s.heap.length + 1) s.heap.length e s := by
    refine ⟨by omega, le_rfl, fun i _ _ => by omega, fun id i => ?_, hfr⟩
    rw [h.handles]
    constructor
    · rintro ⟨x, hx, hid⟩
      have hi := (List.getElem?_eq_some_iff.mp hx).1
      exact ⟨by omega, by omega, x, hx, hid⟩
    · exact fun hex => hex.2.2
  have hv : ∀ i, i ≠ s.heap.length → view s.heap.length e s i = s.heap.getD i e :=
    fun i hi => if_neg hi
  have hno : ∀ c, 0 < c → c < s.heap.length + 1 → parent c ≠ s.heap.length := by
    intro c hc hcn
    have := parent_lt hc
    omega
  have ho : HoleOrder (Lt less) (s.heap.length + 1) (view s.heap.length e s)
      s.heap.length := by
    refine ⟨fun i hi hn hne hp => ?_, fun _ c hc hcn hcp => absurd hcp (hno c hc hcn)⟩
    rw [hv i hne, hv _ hp]
    exact h.heap.isHeap e i hi (by omega)
  have hb : Below (Lt less) (s.heap.length + 1) (view s.heap.length e s)
      s.heap.length := fun c hc hcn hcp => absurd hcp (hno c hc hcn)
  obtain ⟨hf, hlen⟩ := moveHoleUpAndFill_spec hh ho hb
  have hbag : bag (s.heap.length + 1) (view s.heap.length e s) =
      e ::ₘ (s.heap : Multiset (Element ι α)) := by
    rw [bag_eq_coe (s.heap ++ [e]) (by simp)]
    · rw [← Multiset.coe_add, Multiset.add_comm]
      rfl
    · intro i hi
      have hget := getElem?_place e (le_refl s.heap.length) i
      rw [place, if_pos rfl] at hget
      rw [hget]
      by_cases hii : i = s.heap.length
      · rw [if_pos hii, hii, view_hole]
      · rw [if_neg hii, hh.getElem? hi hii]
  rw [hbag] at hf
  exact hf.keeps (hlen.trans (by omega))

section

variable (ht : Opened pos s t) (h : Invariant less s) (hpos : pos < s.size)

include ht h hpos

/-- The start of `Replace`, `ReplaceTop` and `Update`: the order around the slot,
and the elements once it is filled. -/
theorem Opened.start : HoleOrder (Lt less) s.size (view pos e t) pos ∧
      bag s.size (view pos e t) = (s.heap.set pos e : Multiset (Element ι α)) := by
  refine ⟨(h.heap.isHeap e).holeOrder hpos fun i hi => ht.view_of_ne e hi, ?_⟩
  refine bag_eq_coe _ (by simp [size]) fun i hi => ?_
  have hi' : i < s.heap.length := hi
  rw [getElem?_set]
  by_cases hip : i = pos
  · subst hip
    simp [hi']
  · rw [if_neg (Ne.symm hip), ht.view_of_ne e hip, getD_eq_getElem?_getD,
      getElem?_eq_getElem hi']
    rfl

/-- An element that is not below its children is repaired upwards. -/
theorem Opened.up (hfr : t.handles e.id = none)
    (hb : ∀ c, 0 < c → c < s.size → parent c = pos → ¬ Lt less e (s.heap.getD c e)) :
    Keeps less (s.heap.set pos e : Multiset (Element ι α)) (moveHoleUpAndFill less pos e t).2 := by
  obtain ⟨ho, hbag⟩ := ht.start (e := e) h hpos
  have hb' : Below (Lt less) s.size (view pos e t) pos := by
    intro c hc hcn hcp
    have hne := (parent_lt hc).ne'
    rw [hcp] at hne
    rw [view_hole, ht.view_of_ne e hne]
    exact hb c hc hcn hcp
  obtain ⟨hf, hlen⟩ :=
    moveHoleUpAndFill_spec (ht.hole h hpos hfr) ho hb'
  rw [hbag] at hf
  refine hf.keeps (hlen.trans ?_)
  rw [ht.length_eq]
  exact max_self _

/-- An element that is not above its parent is repaired downwards. -/
theorem Opened.down
    (hfr : t.handles e.id = none) (ha : 0 < pos → ¬ Lt less (s.heap.getD (parent pos) e) e) :
    Keeps less (s.heap.set pos e : Multiset (Element ι α))
      (moveHoleDownAndFill less false pos e t).2 := by
  have hs : t.size = s.size := ht.length_eq
  obtain ⟨ho, hbag⟩ := ht.start (e := e) h hpos
  have ha' : Above (Lt less) (view pos e t) pos := by
    intro hpos'
    rw [view_hole, ht.view_of_ne e (parent_lt hpos').ne]
    exact ha hpos'
  have hh := ht.hole h hpos hfr
  rw [← hs] at hh ho
  obtain ⟨hf, hlen⟩ := moveHoleDownAndFill_spec hh ho ha'
  rw [hs, hbag] at hf
  exact hf.keeps (hlen.trans hs)

end

/-- An element that is not less than the one it replaces is not below the
children, one that is less is not above the parent. -/
theorem replaceImpl_keeps (h : Invariant less s) (hpos : pos < s.size)
    (hf : (makeHole pos s).handles e.id = none) :
    Keeps less (s.heap.set pos e : Multiset (Element ι α)) (replaceImpl less pos e s).2 := by
  have hlen : pos < s.heap.length := hpos
  have hold : lessThanAt less e pos (makeHole pos s) = true ↔
      Lt less e (s.heap.getD pos e) := by
    rw [lessThanAt, makeHole_heap, getD_eq_getElem?_getD, getElem?_eq_getElem hlen]
    rfl
  have hh := h.heap.isHeap e
  have ho := opened_makeHole pos s
  simp only [replaceImpl]
  split
  · rename_i hge
    refine ho.up h hpos hf fun c hc hcn hcp => ?_
    have hch := hh c hc hcn
    rw [hcp] at hch
    refine not_lt_trans (fun hlt => ?_) hch
    rw [hold.mpr hlt] at hge
    cases hge
  · rename_i hlt
    refine ho.down h hpos hf fun hpos' hup => ?_
    have hlt' := hold.mp (Bool.eq_true_of_not_eq_false hlt)
    exact hh pos hpos' hpos (IsTrans.trans _ _ _ hup hlt')

theorem opened_setValue (value : α) (hx : s.heap[pos]? = some x) :
    Opened pos s (makeHole pos (setValue pos value s)) ∧
      (makeHole pos (setValue pos value s)).heap[pos]? = some { x with value := value } := by
  have hpos := (List.getElem?_eq_some_iff.mp hx).1
  have hset : setValue pos value s =
      { s with heap := s.heap.set pos { x with value := value } } := by
    simp only [setValue, hx]
  have hget : (setValue pos value s).heap[pos]? = some { x with value := value } := by
    simp [hset, hpos]
  refine ⟨⟨?_, fun i hi => ?_, ?_⟩, ?_⟩
  · rw [makeHole_heap, hset]
    simp
  · rw [makeHole_heap, hset]
    simp [Ne.symm hi]
  · rw [makeHole_eq hget, makeHole_eq hx, hset]
  · rw [makeHole_heap, hget]

/-- An element that is not less than its parent is not below its children, since
these are not above the parent. -/
theorem update_keeps (value : α) (h : Invariant less s) (hx : s.heap[pos]? = some x) :
    Keeps less (s.heap.set pos { x with value := value } : Multiset (Element ι α))
      (update less pos (setValue pos value s)).2 := by
  have hpos : pos < s.size := (List.getElem?_eq_some_iff.mp hx).1
  obtain ⟨ho, hget⟩ := opened_setValue value hx
  have hf : (makeHole pos (setValue pos value s)).handles x.id = none := by
    rw [ho.handles_eq, makeHole_eq hx]
    exact Function.update_self _ _ _
  have hp : 0 < pos → (lessAt less pos (parent pos)
      (makeHole pos (setValue pos value s)) = true ↔
      Lt less { x with value := value }
        (s.heap.getD (parent pos) { x with value := value })) := by
    intro hpos'
    have hup := parent_lt hpos'
    have hlen : parent pos < s.heap.length := by
      unfold size at hpos
      omega
    rw [lessAt, hget, ho.getElem?_eq _ hup.ne, getD_eq_getElem?_getD, getElem?_eq_getElem hlen]
    rfl
  simp only [update, hget]
  split
  · rename_i hge
    refine ho.up h hpos hf fun c hc hcn hcp => ?_
    have ha := (ho.start (e := { x with value := value }) h hpos).1.across
      hge.1 c hc hcn hcp
    rw [ho.view_of_ne _ (parent_lt hge.1).ne, ho.view_of_ne _
      (by have := parent_lt hc; omega)] at ha
    refine not_lt_trans (fun hlt => ?_) ha
    have := (hp hge.1).mpr hlt
    rw [hge.2] at this
    cases this
  · rename_i hlt
    refine ho.down h hpos hf fun hpos' hup => ?_
    have hl : ¬ lessAt less pos (parent pos)
        (makeHole pos (setValue pos value s)) = true :=
      fun hl => not_lt_of_lt ((hp hpos').mp hl) hup
    exact hlt ⟨hpos', Bool.eq_false_iff.mpr hl⟩

theorem opened₂_order (last : Element ι α) (h : Invariant less s) (hpos : pos < s.size - 1) :
    HoleOrder (Lt less) (s.size - 1) (view pos last (opened₂ pos s)) pos := by
  have hh : IsHeap (Lt less) (s.size - 1) fun i => s.heap.getD i last := by
    intro i hi hn
    unfold size at hn
    exact h.heap.isHeap last i hi (by omega)
  refine hh.holeOrder hpos fun i hi => ?_
  rw [view, if_neg hi, opened₂_heap]

section

variable (h : Invariant less s)

include h

/-- The last element comes down to a leaf in the place of the erased one, and
goes up from there as far as it has to. -/
theorem erase_keeps (hpos : pos < s.size) :
    Keeps less (s.heap.eraseIdx pos : Multiset (Element ι α)) (erase less pos s) := by
  have hs : (makeHole pos s).size = s.size := by rw [size, makeHole_heap, size]
  by_cases hl : pos = s.size - 1
  · have he : erase less pos s =
        ⟨s.heap.dropLast, (makeHole (s.size - 1) s).handles⟩ := by
      rw [erase, if_neg (by rw [hs]; exact not_not.mpr hl), makeHole_heap, hl]
    rw [he, hl]
    exact dropLast_keeps h (by omega)
  · obtain ⟨last, hget⟩ : ∃ last, s.heap[s.size - 1]? = some last :=
      ⟨_, getElem?_eq_getElem (by unfold size at hpos ⊢; omega)⟩
    have hpos' : pos < s.size - 1 := by omega
    have hh := opened₂_hole h hpos' hget
    have ho := opened₂_order last h hpos'
    rw [← opened₂_size pos s] at hh ho
    obtain ⟨hf, hlen⟩ := moveHoleDownAndFill_leaf_spec hh ho
    rw [opened₂_size, opened₂_bag h hpos' hget] at hf
    rw [opened₂_size] at hlen
    have he : erase less pos s =
        ⟨(moveHoleDownAndFill less true pos last (opened₂ pos s)).2.heap.dropLast,
          (moveHoleDownAndFill less true pos last (opened₂ pos s)).2.handles⟩ := by
      have hget' : (opened₂ pos s).heap[s.size - 1]? = some last := by rw [opened₂_heap, hget]
      rw [erase, if_pos (by rw [hs]; exact hl), hs, ← opened₂]
      simp only [opened₂_size, hget']
    rw [he]
    refine hf.invariant rfl ?_ fun i hi => ?_
    · rw [length_dropLast, hlen]
    · rw [getElem?_dropLast, if_pos (by rw [hlen]; exact hi)]

def Op.expected (s : IntrusiveHeap ι α) : Op ι α → Multiset (Element ι α)
  | .insert e | .emplace e => e ::ₘ s.heap
  | .erase pos | .take pos => s.heap.eraseIdx pos
  | .replace pos e => s.heap.set pos e
  | .replaceTop e => s.heap.set 0 e
  | .update pos value => s.heap.modify pos fun x => { x with value := value }
  | .clear => 0

/-- Every operation keeps the invariant and leaves the elements it should. -/
theorem apply_keeps {op : Op ι α} (hv : op.Valid s) :
    Keeps less (op.expected s) (op.apply less s) := by
  cases op with
  | insert e => exact insertImpl_keeps h hv
  | emplace e => exact insertImpl_keeps h hv
  | erase pos => exact erase_keeps h hv
  | take pos => exact erase_keeps h hv
  | replace pos e => exact replaceImpl_keeps h hv.1 hv.2
  | replaceTop e => exact
    (opened_makeHole 0 s).down h hv.1 hv.2 fun hlt => absurd hlt (lt_irrefl 0)
  | update pos value =>
    have hx : s.heap[pos]? = some s.heap[pos] := getElem?_eq_getElem hv
    have hk := update_keeps value h hx
    rw [Op.expected, modify_eq_set_getElem?, hx]
    exact hk
  | clear => exact clear_keeps h

end

/-- The invariant holds after any sequence of valid operations. -/
theorem run_invariant {ops : List (Op ι α)} {s s' : IntrusiveHeap ι α}
    (h : Invariant less s) (hrun : run less ops s = some s') : Invariant less s' := by
  induction ops generalizing s with
  | nil =>
    cases hrun
    exact h
  | cons op ops ih =>
    rw [run] at hrun
    split at hrun
    · exact ih (apply_keeps h ‹_›).1 hrun
    · cases hrun

/-- After every operation of a sequence the vector is a max-heap of the expected
elements, and the valid handles are those of the elements in it, each the index
of its element. -/
theorem run_maxHeap_handles (less : α → α → Bool)
    [IsStrictWeakOrder α fun a b => less a b = true] (ops : List (Op ι α)) (op : Op ι α)
    (s : IntrusiveHeap ι α) (hrun : run less ops empty = some s) (hvalid : op.Valid s) :
    IsMaxHeap less (op.apply less s).heap ∧
      ((op.apply less s).heap : Multiset (Element ι α)) = op.expected s ∧
      ∀ id i, (op.apply less s).handles id = some i ↔
        ∃ x, (op.apply less s).heap[i]? = some x ∧ x.id = id := by
  obtain ⟨⟨hhe, hh⟩, he⟩ :=
    apply_keeps (run_invariant (invariant_empty less) hrun) hvalid
  exact ⟨hhe, he, hh⟩

/-- Three insertions, an erasure from the top and an update of what is then the
last element. -/
theorem run_maxHeap_handles_update :
    let less : ℕ → ℕ → Bool := fun a b => decide (a < b)
    let ops : List (Op ℕ ℕ) := [.insert ⟨0, 5⟩, .emplace ⟨1, 7⟩, .insert ⟨2, 6⟩, .erase 0]
    ∃ s, run less ops empty = some s ∧
      IsMaxHeap less ((Op.update 1 9).apply less s).heap ∧
      ((Op.update 1 9).apply less s).heap = [⟨0, 9⟩, ⟨2, 6⟩] := by
  intro less ops
  have ho : IsStrictWeakOrder ℕ fun a b => less a b = true := by
    have heq : (fun a b : ℕ => less a b = true) = (· < ·) := by
      simp [less]
    rw [heq]
    exact { incomp_trans := fun a b c => by omega }
  have hr : (run less ops empty).map (fun s =>
      (decide ((Op.update 1 9).Valid s), ((Op.update 1 9).apply less s).heap)) =
      some (true, [⟨0, 9⟩, ⟨2, 6⟩]) := by decide
  obtain ⟨s, hs, hr⟩ := map_eq_some_iff.mp hr
  obtain ⟨hv, hh⟩ := Prod.mk.inj hr
  exact ⟨s, hs, (run_maxHeap_handles less ops (.update 1 9) s hs
    (of_decide_eq_true hv)).1, hh⟩

def takeTops (less : α → α → Bool) : ℕ → IntrusiveHeap ι α → List (Element ι α)
  | 0, _ => []
  | n + 1, s => (take less 0 s).1.toList ++ takeTops less n (take less 0 s).2

/-- After any operations, taking the top as often as the heap has elements gives all of them,
none before a greater one. -/
theorem takeTops_run {ops : List (Op ι α)} (hrun : run less ops empty = some s) :
    (takeTops less s.size s).Perm s.heap ∧
      (takeTops less s.size s).Pairwise fun a b => less a.value b.value = false := by
  have h := run_invariant (invariant_empty less) hrun
  clear hrun
  induction hn : s.size generalizing s with
  | zero => simp [takeTops, length_eq_zero_iff.mp hn]
  | succ n ih =>
    obtain ⟨x, xs, hx⟩ := exists_cons_of_length_eq_add_one hn
    obtain ⟨hk, he⟩ := erase_keeps h (hn ▸ n.succ_pos : 0 < s.size)
    rw [hx, eraseIdx_cons_zero, Multiset.coe_eq_coe] at he
    obtain ⟨hperm, hp⟩ := ih hk (he.length_eq.trans (by simpa [size, hx] using hn))
    rw [takeTops, take, hx]
    refine ⟨(hperm.trans he).cons x, pairwise_cons.mpr ⟨fun y hy => ?_, hp⟩⟩
    obtain ⟨i, hi, rfl⟩ := mem_iff_getElem.mp ((hperm.trans he).mem_iff.mp hy)
    have htop := IsHeap.not_lt_top (h.heap.isHeap x) (i := i + 1) (by simpa [hx] using hi)
    simpa [hx, Lt, hi] using htop

theorem takeTops_run_two :
    let less : ℕ → ℕ → Bool := fun a b => decide (a < b)
    ∃ s, run less [.insert ⟨0, 5⟩, .emplace ⟨1, 7⟩] empty = some s ∧
      (takeTops less s.size s).Perm s.heap ∧
      (takeTops less s.size s).Pairwise fun a b => less a.value b.value = false := by
  intro less
  have ho : IsStrictWeakOrder ℕ fun a b => less a b = true := by
    simp only [less, decide_eq_true_eq]
    exact { incomp_trans := fun a b c => by omega }
  have hs : (run less [.insert ⟨0, 5⟩, .emplace ⟨1, 7⟩] (empty : IntrusiveHeap ℕ ℕ)).isSome :=
    by decide
  exact (isSome_iff_exists.mp hs).imp fun s hs => ⟨hs, takeTops_run hs⟩

end ChromiumBase.IntrusiveHeap
