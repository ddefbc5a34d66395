import ChromiumBase.Lib.DependencyTree
import ChromiumBase.Net.Spdy.Http2PriorityDependencies

/-!
# The peer's dependency tree

A peer that applies the dependencies of `Http2PriorityDependencies` in the order in which they
are sent has a dependency tree that is a single chain, through the streams by priority and,
within a priority, in the order in which they entered it.
-/

open Function List Prod Option

namespace ChromiumBase.Http2Priority

open DependencyTree Http2PriorityDependencies

inductive Operation where
  | creation (id priority : ℕ)
  | update (id newPriority : ℕ)
  | destruction (id : ℕ)
deriving DecidableEq, Repr

/-- Stream zero is the connection itself, and the source has lists for the priorities zero to
seven. -/
def Operation.Valid : Operation → Prop
  | .creation id priority => id ≠ 0 ∧ priority ≤ kV3LowestPriority
  | .update _ newPriority => newPriority ≤ kV3LowestPriority
  | .destruction _ => True

instance : DecidablePred Operation.Valid
  | .creation id priority => inferInstanceAs (Decidable (id ≠ 0 ∧ priority ≤ kV3LowestPriority))
  | .update _ newPriority => inferInstanceAs (Decidable (newPriority ≤ kV3LowestPriority))
  | .destruction _ => inferInstanceAs (Decidable True)

/-- The dependencies at one end of the connection, and the tree at the other, which is lost in
a protocol error. -/
structure Session where
  dependencies : Http2PriorityDependencies
  peer : Option (DependencyTree.Tree ℕ)

noncomputable def receive (peer : Option (DependencyTree.Tree ℕ))
    (updates : List DependencyUpdate) : Option (DependencyTree.Tree ℕ) :=
  updates.foldl (fun peer u =>
    peer.bind fun T => depend 0 T u.id u.parentStreamId u.exclusive) peer

noncomputable def Session.step (s : Session) : Operation → Session
  | .creation id priority =>
    let (d, dependency) := s.dependencies.onStreamCreation id priority
    ⟨d, receive s.peer dependency.toList⟩
  | .update id newPriority =>
    let (d, updates) := s.dependencies.onStreamUpdate id newPriority
    ⟨d, receive s.peer updates⟩
  | .destruction id => ⟨s.dependencies.onStreamDestruction id, s.peer.map fun T => close T id⟩

noncomputable def Session.run (ops : List Operation) : Session :=
  ops.foldl Session.step ⟨new, some fun _ => none⟩

section

variable (live : List (ℕ × ℕ))

/-- The live streams with their priorities, in the order in which they entered these. -/
def enter : Operation → List (ℕ × ℕ)
  | .creation id priority =>
    if id ∈ live.map Prod.fst then live else live ++ [(id, priority)]
  | .update id newPriority =>
    if id ∈ live.map Prod.fst ∧ (id, newPriority) ∉ live then
      live.filter (·.1 ≠ id) ++ [(id, newPriority)]
    else live
  | .destruction id => live.filter (·.1 ≠ id)

def entered (ops : List Operation) : List (ℕ × ℕ) := ops.foldl enter []

def atPriority (priority : ℕ) : List (ℕ × ℕ) :=
  live.filter (·.2 = priority)

/-- First the streams of the highest priority, in the order in which they entered it, and so
on. -/
def inOrder : List (ℕ × ℕ) :=
  (List.range (kV3LowestPriority + 1)).flatMap (atPriority live)

def band (a n : ℕ) : List (ℕ × ℕ) :=
  (List.range' a n).flatMap (atPriority live)

theorem inOrder_eq_band : inOrder live = band live 0 8 := by
  rfl

theorem band_add (a m n : ℕ) : band live a (m + n) = band live a m ++ band live (a + m) n := by
  rw [band, band, band, ← flatMap_append, ← range'_append_1]

theorem band_one (a : ℕ) : band live a 1 = atPriority live a := by
  simp [band]

end

variable {live : List (ℕ × ℕ)} {e : ℕ × ℕ}

theorem mem_band {a n : ℕ} : e ∈ band live a n ↔ e ∈ live ∧ a ≤ e.2 ∧ e.2 < a + n := by
  simp only [band, atPriority, mem_flatMap, mem_range'_1, mem_filter, decide_eq_true_eq]
  constructor
  · rintro ⟨p, hp, he, rfl⟩
    exact ⟨he, hp⟩
  · rintro ⟨he, hp⟩
    exact ⟨e.2, hp, he, rfl⟩

variable {E₁ E₂ : List (ℕ × ℕ)} {a n p id : ℕ}

theorem atPriority_append (E₁ E₂ : List (ℕ × ℕ)) (p : ℕ) :
    atPriority (E₁ ++ E₂) p = atPriority E₁ p ++ atPriority E₂ p := filter_append ..

theorem atPriority_middle_of_ne (hp : e.2 ≠ p) :
    atPriority (E₁ ++ e :: E₂) p = atPriority (E₁ ++ E₂) p := by
  simp [atPriority, hp]

theorem atPriority_middle (E₁ E₂ : List (ℕ × ℕ)) (e : ℕ × ℕ) :
    atPriority (E₁ ++ e :: E₂) e.2 = atPriority E₁ e.2 ++ e :: atPriority E₂ e.2 := by
  simp [atPriority]

theorem mem_of_mem_inOrder (h : id ∈ (inOrder live).map Prod.fst) : id ∈ live.map Prod.fst := by
  rw [inOrder_eq_band] at h
  obtain ⟨x, hx, hxid⟩ := mem_map.mp h
  exact mem_map.mpr ⟨x, (mem_band.mp hx).1, hxid⟩

theorem band_middle_of_notMem (h : e.2 < a ∨ a + n ≤ e.2 := by omega) :
    band (E₁ ++ e :: E₂) a n = band (E₁ ++ E₂) a n := by
  refine flatMap_congr fun p hp => atPriority_middle_of_ne ?_
  have := mem_range'_1.mp hp
  omega

def above (E₁ E₂ : List (ℕ × ℕ)) (p : ℕ) : List (ℕ × ℕ) :=
  band (E₁ ++ E₂) 0 p ++ atPriority E₁ p

def below (E₁ E₂ : List (ℕ × ℕ)) (p n : ℕ) : List (ℕ × ℕ) :=
  atPriority E₂ p ++ band (E₁ ++ E₂) (p + 1) n

theorem band_middle (E₁ E₂ : List (ℕ × ℕ)) (e : ℕ × ℕ) (n : ℕ) :
    band (E₁ ++ e :: E₂) 0 (e.2 + 1 + n) = above E₁ E₂ e.2 ++ e :: below E₁ E₂ e.2 n := by
  rw [band_add, band_add, band_one, band_middle_of_notMem,
    band_middle_of_notMem, Nat.zero_add, Nat.zero_add, atPriority_middle]
  simp [above, below]

theorem band_without (E₁ E₂ : List (ℕ × ℕ)) (p n : ℕ) :
    band (E₁ ++ E₂) 0 (p + 1 + n) = above E₁ E₂ p ++ below E₁ E₂ p n := by
  rw [band_add, band_add, band_one, Nat.zero_add, Nat.zero_add, atPriority_append]
  simp [above, below]

/-- The lists and entries are those of the live streams. -/
structure Represents (d : Http2PriorityDependencies) (live : List (ℕ × ℕ)) : Prop where
  lists : ∀ p, d.idPriorityLists p = atPriority live p
  entry : ∀ id, d.entryByStreamId id = live.find? (·.1 = id)
  nodup : (live.map Prod.fst).Nodup
  bound : ∀ e ∈ live, e.2 ≤ kV3LowestPriority
  positive : ∀ e ∈ live, e.1 ≠ 0

variable {d : Http2PriorityDependencies}

namespace Represents

theorem priorityLowerBound (hd : Represents d live) (p : ℕ) :
    d.priorityLowerBound p = (band live 0 (p + 1)).getLast? := by
  induction p with
  | zero => rw [Http2PriorityDependencies.priorityLowerBound, hd.lists, Nat.zero_add, band_one]
  | succ p ih =>
    rw [Http2PriorityDependencies.priorityLowerBound, hd.lists, ih, band_add live 0 (p + 1) 1,
      band_one, Nat.zero_add, getLast?_append]
    cases (atPriority live (p + 1)).getLast? <;> rfl

theorem split (hd : Represents d live) (he : d.entryByStreamId id = some e) :
    e.1 = id ∧ ∃ E₁ E₂, live = E₁ ++ e :: E₂ ∧ ∀ x ∈ E₁ ++ E₂, x.1 ≠ id := by
  rw [hd.entry] at he
  have hid : e.1 = id := by simpa using find?_some he
  obtain ⟨E₁, E₂, hl⟩ := append_of_mem (mem_of_find?_eq_some he)
  refine ⟨hid, E₁, E₂, hl, fun x hx hxid => ?_⟩
  have hn := hd.nodup
  rw [hl, map_append, map_cons, nodup_middle, ← map_append] at hn
  exact (nodup_cons.mp hn).1 (mem_map.mpr ⟨x, hx, hxid.trans hid.symm⟩)

end Represents

theorem mem_middle {x : ℕ × ℕ} (hx : x ∈ E₁ ++ E₂) : x ∈ E₁ ++ e :: E₂ := by
  rw [mem_append, mem_cons] at *
  exact hx.imp_right .inr

theorem filter_middle (h : ∀ x ∈ E₁ ++ E₂, x.1 ≠ e.1) :
    (E₁ ++ e :: E₂).filter (·.1 ≠ e.1) = E₁ ++ E₂ := by
  rw [filter_append, filter_cons_of_neg (by simp), ← filter_append]
  exact filter_eq_self.mpr (by simpa using h)

namespace Represents

variable (hd : Represents d (E₁ ++ e :: E₂)) (hne : ∀ x ∈ E₁ ++ E₂, x.1 ≠ e.1)

include hd hne

theorem lists_middle : d.idPriorityLists e.2 = atPriority E₁ e.2 ++ e :: atPriority E₂ e.2 ∧
    ∀ x ∈ atPriority E₁ e.2, x.1 ≠ e.1 := by
  rw [hd.lists, atPriority_middle]
  exact ⟨rfl, fun x hx => hne x (mem_append_left _ (mem_filter.mp hx).1)⟩

/-- The stream just above an entry is the last of the streams before it. -/
theorem parentOfStream : d.parentOfStream e = (above E₁ E₂ e.2).getLast? := by
  obtain ⟨hl, hb⟩ := lists_middle hd hne
  rw [Http2PriorityDependencies.parentOfStream, hl, takeWhile_append_of_pos (by simpa using hb),
    takeWhile_cons_of_neg (by simp), append_nil, above, getLast?_append]
  cases (atPriority E₁ e.2).getLast? with
  | some parent => rfl
  | none =>
    rw [none_or]
    dsimp only
    split
    case isTrue hz => rw [hz]; rfl
    case isFalse hpos =>
      have hs : e.2 - 1 + 1 = e.2 := by
        unfold kV3HighestPriority at hpos
        omega
      rw [hd.priorityLowerBound, hs, band_middle_of_notMem]

theorem childOfStream : d.childOfStream e = (below E₁ E₂ e.2 (7 - e.2)).head? := by
  obtain ⟨hl, hb⟩ := lists_middle hd hne
  rw [Http2PriorityDependencies.childOfStream, hl, dropWhile_append_of_pos (by simpa using hb),
    dropWhile_cons_of_neg (by simp), tail_cons, below, head?_append]
  cases (atPriority E₂ e.2).head? with
  | some child => rfl
  | none =>
    have hba : band (E₁ ++ e :: E₂) (e.2 + 1) (7 - e.2) =
        band (E₁ ++ E₂) (e.2 + 1) (7 - e.2) := band_middle_of_notMem
    rw [none_or, ← hba, band, head?_flatMap]
    simp only [hd.lists]
    rfl

theorem newParent (hp : e.2 ≠ p) :
    (if (d.priorityLowerBound p).map Prod.fst = some e.1 then d.parentOfStream e
      else d.priorityLowerBound p) = (band (E₁ ++ E₂) 0 (p + 1)).getLast? := by
  rw [hd.priorityLowerBound, parentOfStream hd hne]
  rcases Nat.lt_or_gt_of_ne hp with hlt | hgt
  · -- the stream moves down, and may be the lower bound itself
    obtain ⟨n, rfl⟩ : ∃ n, p = e.2 + n := ⟨p - e.2, by omega⟩
    rw [Nat.add_right_comm, band_middle, band_without]
    rcases eq_nil_or_concat (below E₁ E₂ e.2 n) with hnil | ⟨ys, y, hc⟩
    · simp [hnil]
    · have hmem : y ∈ band (E₁ ++ E₂) 0 (e.2 + 1 + n) := by
        rw [band_without, hc]
        simp
      have hl : (above E₁ E₂ e.2 ++ e :: below E₁ E₂ e.2 n).getLast? = some y := by
        simp [hc, getLast?_cons]
      have hl' : (above E₁ E₂ e.2 ++ below E₁ E₂ e.2 n).getLast? = some y := by
        simp [hc]
      rw [hl, hl', if_neg (by simpa using hne y (mem_band.mp hmem).1)]
  · rw [band_middle_of_notMem, if_neg]
    intro hl
    obtain ⟨x, hx, hxe⟩ := map_eq_some_iff.mp hl
    exact hne x (mem_band.mp (mem_of_getLast? hx)).1 hxe

end Represents

theorem receive_nil (peer : Option (DependencyTree.Tree ℕ)) : receive peer [] = peer := rfl

theorem receive_cons (T : DependencyTree.Tree ℕ) (u : DependencyUpdate)
    (updates : List DependencyUpdate) : receive (some T) (u :: updates) =
      receive (depend 0 T u.id u.parentStreamId u.exclusive) updates := rfl

theorem streamId_getLast? (l : List (ℕ × ℕ)) :
    streamId l.getLast? = (l.map Prod.fst).getLastD 0 := by
  rw [streamId, ← getLast?_map, getLastD_eq_getLast?]

theorem append_inj_of_getLast? {xs ys as bs : List ℕ} (happ : xs ++ ys = as ++ bs)
    (hn : (xs ++ ys).Nodup) (hl : xs.getLast? = as.getLast?) : xs = as := by
  have hp : ∀ {us vs c : List ℕ}, vs = us ++ c → vs.Nodup → us.getLast? = vs.getLast? →
      us = vs := by
    rintro us vs c rfl hvs hl
    rcases eq_nil_or_concat c with rfl | ⟨c, z, rfl⟩
    · simp
    · have hz : (us ++ c.concat z).getLast? = some z := by simp
      rw [hz] at hl
      have hmem := mem_of_getLast? hl
      have := disjoint_of_nodup_append hvs hmem (by simp)
      cases this
  rcases append_eq_append_iff.mp happ with ⟨c, hc, -⟩ | ⟨c, hc, -⟩
  · exact hp hc (happ ▸ hn).of_append_left hl
  · exact (hp hc hn.of_append_left hl.symm).symm

/-- The two updates of a move: the child takes the place of the stream, and then the stream,
which has no children any more, its new place. -/
theorem receive_move {xs as bs : List ℕ} {Y : List (ℕ × ℕ)} {weight' : ℕ} (weight : ℕ → ℕ)
    (happ : xs ++ Y.map Prod.fst = as ++ bs) (hn : (0 :: (xs ++ id :: Y.map Prod.fst)).Nodup) :
    receive (some (chain 0 (xs ++ id :: Y.map Prod.fst)))
      ((Y.head?.toList.map fun c => ⟨c.1, xs.getLastD 0, weight c.2, true⟩) ++
        [⟨id, as.getLastD 0, weight', true⟩]) = some (chain 0 (as ++ id :: bs)) := by
  have hm : (id :: 0 :: (xs ++ Y.map fst)).Nodup := by
    have : ((0 :: xs) ++ id :: Y.map fst).Nodup := hn
    exact nodup_middle.mp this
  obtain ⟨hid, hr⟩ := nodup_cons.mp hm
  cases Y with
  | nil =>
    rw [map_nil, append_nil] at happ hid hr
    have hxs : id ∉ xs := fun h => hid (mem_cons_of_mem _ h)
    refine depend_leaf (happ ▸ hr) (happ ▸ hid) (fun z hz => ?_) ?_
    · rw [← happ]
      by_cases hmem : z ∈ xs
      · exact chain_append_of_mem hmem
      · rw [chain_of_notMem hmem, chain_of_notMem (by simp [hmem, hz])]
    · rw [chain_self hxs]
      intro h
      have hmem := getLastD_mem_cons (l := xs) (a := 0)
      rw [some.inj h] at hmem
      exact hid hmem
  | cons c Y =>
    rw [map_cons] at happ hid hr hn ⊢
    rw [head?_cons, toList_some, map_cons, map_nil, singleton_append,
      receive_cons, depend_child hn, receive_cons, receive_nil]
    refine depend_leaf (happ ▸ hr) (happ ▸ hid) (fun z hz => ?_) ?_
    · rw [update_of_ne hz, happ]
    · rw [update_self]
      exact fun h => hid (some.inj h ▸ by simp)

/-- The peer's tree is the chain of the live streams. -/
structure InStep (s : Session) (live : List (ℕ × ℕ)) : Prop where
  represents : Represents s.dependencies live
  peer : s.peer = some (chain 0 ((inOrder live).map Prod.fst))

namespace Represents

theorem nodup_inOrder (hd : Represents d live) : (0 :: (inOrder live).map Prod.fst).Nodup := by
  rw [inOrder_eq_band]
  refine nodup_cons.mpr ⟨fun hz => ?_, ?_⟩
  · obtain ⟨x, hx, hx0⟩ := mem_map.mp hz
    exact hd.positive x (mem_band.mp hx).1 hx0
  · refine List.Nodup.map_on (fun x hx y hy => ?_) (nodup_flatMap.mpr ⟨fun p _ => ?_, ?_⟩)
    · exact inj_on_of_nodup_map hd.nodup (mem_band.mp hx).1 (mem_band.mp hy).1
    · exact hd.nodup.of_map.filter _
    · refine List.Pairwise.imp (fun {p q} hpq => ?_) nodup_range'
      intro x hxp hxq
      simp only [atPriority, mem_filter, decide_eq_true_eq] at hxp hxq
      exact hpq (hxp.2.symm.trans hxq.2)

theorem pushBack (hd : Represents d live) (hid : id ∉ live.map Prod.fst) (hpos : id ≠ 0)
    (hp : p ≤ kV3LowestPriority) : Represents (d.pushBack id p) (live ++ [(id, p)]) where
  lists q := by
    rw [Http2PriorityDependencies.pushBack, atPriority_append]
    dsimp only
    by_cases hq : q = p
    · subst hq
      simp [hd.lists, atPriority]
    · rw [update_of_ne hq, hd.lists]
      simp [atPriority, Ne.symm hq]
  entry i := by
    rw [Http2PriorityDependencies.pushBack, find?_append]
    dsimp only
    by_cases hi : i = id
    · subst hi
      have hn : live.find? (·.1 = i) = none := by
        rw [find?_eq_none]
        intro x hx hxi
        exact hid (mem_map.mpr ⟨x, hx, by simpa using hxi⟩)
      simp [hn]
    · rw [update_of_ne hi, hd.entry]
      simp [Ne.symm hi]
  nodup := by
    rw [map_append, map_singleton]
    exact hd.nodup.append (nodup_singleton id) (by simpa using hid)
  bound := forall_mem_append.mpr ⟨hd.bound, by simpa using hp⟩
  positive := forall_mem_append.mpr ⟨hd.positive, by simpa using hpos⟩

theorem erase (hd : Represents d (E₁ ++ e :: E₂)) (hne : ∀ x ∈ E₁ ++ E₂, x.1 ≠ e.1) :
    Represents { d.erase e with entryByStreamId := Function.update d.entryByStreamId e.1 none }
      (E₁ ++ E₂) where
  lists p := by
    rw [Http2PriorityDependencies.erase]
    dsimp only
    by_cases hp : p = e.2
    · subst hp
      obtain ⟨hl, hb⟩ := lists_middle hd hne
      rw [update_self, hl, eraseP_append_right _ (by simpa using hb), eraseP_cons_of_pos (by simp),
        atPriority_append]
    · rw [update_of_ne hp, hd.lists, atPriority_middle_of_ne (Ne.symm hp)]
  entry i := by
    dsimp only
    by_cases hi : i = e.1
    · rw [hi, update_self, eq_comm, find?_eq_none]
      intro x hx
      simpa using hne x hx
    · rw [update_of_ne hi, hd.entry, find?_append, find?_append,
        find?_cons_of_neg (by simpa using Ne.symm hi)]
  nodup := by
    have := hd.nodup
    rw [map_append, map_cons, nodup_middle, ← map_append] at this
    exact (nodup_cons.mp this).2
  bound x hx := hd.bound x (mem_middle hx)
  positive x hx := hd.positive x (mem_middle hx)

theorem new : Represents new [] where
  lists _ := rfl
  entry _ := rfl
  nodup := nodup_nil
  bound _ h := by cases h
  positive _ h := by cases h

end Represents

theorem inOrder_split (live : List (ℕ × ℕ)) (hp : p ≤ kV3LowestPriority) :
    inOrder live = band live 0 (p + 1) ++ band live (p + 1) (7 - p) := by
  have hsum : p + 1 + (7 - p) = 8 := by unfold kV3LowestPriority at hp; omega
  rw [inOrder_eq_band, ← hsum, band_add, Nat.zero_add]

theorem inOrder_append_singleton (live : List (ℕ × ℕ)) (hp : p ≤ kV3LowestPriority) :
    inOrder (live ++ [(id, p)]) = band live 0 (p + 1) ++ (id, p) :: band live (p + 1) (7 - p) := by
  have hsum : p + 1 + (7 - p) = 8 := by unfold kV3LowestPriority at hp; omega
  have hm := band_middle live [] (id, p) (7 - p)
  rw [hsum, ← inOrder_eq_band] at hm
  rw [hm, band_add live 0 p 1, band_one, Nat.zero_add]
  simp [above, below, atPriority]

theorem Represents.inOrder_middle (hd : Represents d (E₁ ++ e :: E₂)) :
    inOrder (E₁ ++ e :: E₂) = above E₁ E₂ e.2 ++ e :: below E₁ E₂ e.2 (7 - e.2) ∧
      inOrder (E₁ ++ E₂) = above E₁ E₂ e.2 ++ below E₁ E₂ e.2 (7 - e.2) := by
  have hb := hd.bound e (by simp)
  have hsum : e.2 + 1 + (7 - e.2) = 8 := by unfold kV3LowestPriority at hb; omega
  have hm := band_middle E₁ E₂ e (7 - e.2)
  have hw := band_without E₁ E₂ e.2 (7 - e.2)
  rw [hsum, ← inOrder_eq_band] at hm hw
  exact ⟨hm, hw⟩

theorem Represents.isSome_entry_iff (hd : Represents d live) (id : ℕ) :
    (d.entryByStreamId id).isSome ↔ id ∈ live.map Prod.fst := by
  rw [hd.entry, find?_isSome]
  simp

namespace InStep

variable {s : Session}

/-- A new stream comes behind all streams of its priority and above. -/
theorem creation (hs : InStep s live) (hid : id ≠ 0) (hp : p ≤ kV3LowestPriority) :
    InStep (s.step (.creation id p)) (enter live (.creation id p)) := by
  have hd := hs.represents
  rw [Session.step, onStreamCreation, enter]
  by_cases hl : id ∈ live.map fst
  · rw [if_pos ((hd.isSome_entry_iff id).mpr hl), if_pos hl]
    exact hs
  · rw [if_neg (mt (hd.isSome_entry_iff id).mp hl), if_neg hl]
    have hn := hd.nodup_inOrder
    have hnew : id ∉ 0 :: (inOrder live).map fst := by
      rw [mem_cons, not_or]
      exact ⟨hid, fun hmem => hl (mem_of_mem_inOrder hmem)⟩
    refine ⟨hd.pushBack hl hid hp, ?_⟩
    dsimp only
    rw [hs.peer, toList_some, receive_cons, receive_nil, hd.priorityLowerBound,
      streamId_getLast?, inOrder_append_singleton live hp, map_append, map_cons]
    rw [inOrder_split live hp, map_append] at hn hnew ⊢
    refine depend_leaf hn hnew (fun _ _ => rfl) ?_
    rw [chain_of_notMem fun h => hnew (mem_cons_of_mem _ h)]
    exact nofun

/-- The updates that move a stream to the end of another priority. -/
theorem move (hs : InStep s (E₁ ++ e :: E₂)) (hne : ∀ x ∈ E₁ ++ E₂, x.1 ≠ e.1)
    (hp : p ≤ kV3LowestPriority) (hsa : e.2 ≠ p) :
    let oldParent := s.dependencies.parentOfStream e
    let bound := s.dependencies.priorityLowerBound p
    let newParent := if bound.map fst = some e.1 then oldParent else bound
    let updates :=
      if oldParent.map fst ≠ newParent.map fst then
        ((s.dependencies.childOfStream e).toList.map fun oldChild =>
          (⟨oldChild.1, streamId oldParent,
            spdy3PriorityToHttp2Weight oldChild.2, true⟩ : DependencyUpdate)) ++
        [⟨e.1, streamId newParent, spdy3PriorityToHttp2Weight p, true⟩]
      else []
    InStep ⟨(s.dependencies.erase e).pushBack e.1 p, receive s.peer updates⟩
      (E₁ ++ E₂ ++ [(e.1, p)]) := by
  have hd := hs.represents
  have hn := hd.nodup_inOrder
  obtain ⟨hm, hw⟩ := hd.inOrder_middle
  dsimp only
  rw [hd.newParent hne hsa, hd.parentOfStream hne, hd.childOfStream hne]
  constructor
  · have hnot : e.1 ∉ (E₁ ++ E₂).map fst := fun h => by
      obtain ⟨x, hx, hxe⟩ := mem_map.mp h
      exact hne x hx hxe
    have hpu := (hd.erase hne).pushBack hnot (hd.positive e (by simp)) hp
    rwa [pushBack, update_idem] at hpu
  · have happ : (above E₁ E₂ e.2).map fst ++ (below E₁ E₂ e.2 (7 - e.2)).map fst =
        (band (E₁ ++ E₂) 0 (p + 1)).map fst ++
          (band (E₁ ++ E₂) (p + 1) (7 - p)).map fst := by
      rw [← map_append, ← map_append, ← hw, inOrder_split _ hp]
    rw [hs.peer, streamId_getLast?, streamId_getLast?, inOrder_append_singleton _ hp,
      map_append, map_cons, ← getLast?_map, ← getLast?_map]
    rw [hm, map_append, map_cons] at hn ⊢
    split
    case isTrue => exact receive_move _ happ hn
    case isFalse hl =>
      have hr : ((above E₁ E₂ e.2).map fst ++
          (below E₁ E₂ e.2 (7 - e.2)).map fst).Nodup :=
        (nodup_cons.mp (nodup_middle.mp (nodup_cons.mp hn).2)).2
      have hf := append_inj_of_getLast? happ hr (not_not.mp hl)
      rw [hf] at happ
      rw [receive_nil, hf, append_cancel_left happ]

/-- An update moves the stream in both trees. -/
theorem update (hs : InStep s live) (hp : p ≤ kV3LowestPriority) :
    InStep (s.step (.update id p)) (enter live (.update id p)) := by
  have hd := hs.represents
  have hiff := hd.isSome_entry_iff id
  rw [Session.step, onStreamUpdate, enter]
  cases he : s.dependencies.entryByStreamId id with
  | none =>
    rw [he, isSome_none] at hiff
    have hl : id ∉ live.map fst := fun h => by cases hiff.mpr h
    rw [if_neg fun h => hl h.1]
    exact hs
  | some e =>
    obtain ⟨rfl, E₁, E₂, rfl, hne⟩ := hd.split he
    have hmem : e.1 ∈ (E₁ ++ e :: E₂).map fst := by simp
    dsimp only
    by_cases hsa : e.2 = p
    · subst hsa
      rw [if_pos rfl, if_neg fun h => h.2 (by simp)]
      exact hs
    · have hnot : (e.1, p) ∉ E₁ ++ e :: E₂ := by
        intro h
        rcases mem_append.mp h with h | h
        · exact hne _ (mem_append_left _ h) rfl
        · rcases mem_cons.mp h with h | h
          · exact hsa (congrArg snd h).symm
          · exact hne _ (mem_append_right _ h) rfl
      have hl : e.1 ∈ (E₁ ++ e :: E₂).map fst ∧ (e.1, p) ∉ E₁ ++ e :: E₂ := ⟨hmem, hnot⟩
      rw [if_neg hsa, if_pos hl, filter_middle hne]
      exact hs.move hne hp hsa

/-- The children of the stream go to its parent in both trees. -/
theorem destruction (hs : InStep s live) (id : ℕ) :
    InStep (s.step (.destruction id)) (enter live (.destruction id)) := by
  have hd := hs.represents
  rw [Session.step, onStreamDestruction, enter]
  cases he : s.dependencies.entryByStreamId id with
  | none =>
    have hiff := hd.isSome_entry_iff id
    rw [he, isSome_none] at hiff
    have hl : id ∉ live.map fst := fun h => by cases hiff.mpr h
    have hf : live.filter (·.1 ≠ id) = live := by
      refine filter_eq_self.mpr fun x hx => ?_
      have : x.1 ≠ id := fun h => hl (mem_map.mpr ⟨x, hx, h⟩)
      simpa using this
    rw [hf]
    refine ⟨hd, ?_⟩
    rw [hs.peer, map_some, close, chain_of_notMem fun h => hl (mem_of_mem_inOrder h)]
  | some e =>
    obtain ⟨rfl, E₁, E₂, rfl, hne⟩ := hd.split he
    have hn := hd.nodup_inOrder
    obtain ⟨hm, hw⟩ := hd.inOrder_middle
    rw [filter_middle hne]
    refine ⟨hd.erase hne, ?_⟩
    rw [hs.peer, map_some, hw, map_append]
    rw [hm, map_append, map_cons] at hn ⊢
    rw [close_chain hn]

theorem step (hs : InStep s live) {op : Operation} (hop : op.Valid) :
    InStep (s.step op) (enter live op) := by
  cases op with
  | creation id p => exact hs.creation hop.1 hop.2
  | update id p => exact hs.update hop
  | destruction id => exact hs.destruction id

theorem foldl (hs : InStep s live) {ops : List Operation} (hops : ∀ op ∈ ops, op.Valid) :
    InStep (ops.foldl Session.step s) (ops.foldl enter live) := by
  induction ops generalizing s live with
  | nil => exact hs
  | cons op ops ih =>
    rw [forall_mem_cons] at hops
    exact ih (hs.step hops.1) hops.2

end InStep

/-- After any operations, the tree of the peer is the single chain of the live streams by
priority and, within a priority, in the order in which they entered it. -/
theorem peer_tree_is_chain (ops : List Operation) (hops : ∀ op ∈ ops, op.Valid) :
    (Session.run ops).peer = some (chain 0 ((inOrder (entered ops)).map Prod.fst)) ∧
      (0 :: (inOrder (entered ops)).map Prod.fst).Nodup ∧
      ∀ e, e ∈ inOrder (entered ops) ↔ e ∈ entered ops := by
  have hs : InStep (Session.run ops) (entered ops) := InStep.foldl ⟨Represents.new, rfl⟩ hops
  refine ⟨hs.peer, hs.represents.nodup_inOrder, fun e => ?_⟩
  rw [inOrder_eq_band, mem_band]
  refine ⟨And.left, fun he => ⟨he, Nat.zero_le _, ?_⟩⟩
  have := hs.represents.bound e he
  unfold kV3LowestPriority at this
  omega

/-- Stream five moves past stream three, to the end of the highest priority. -/
theorem peer_tree_is_chain_moved :
    (Session.run [.creation 1 0, .creation 3 1, .creation 5 2, .creation 7 2, .update 5 0,
      .destruction 1]).peer = some (chain 0 [5, 3, 7]) :=
  (peer_tree_is_chain _ (by decide)).1

end ChromiumBase.Http2Priority
