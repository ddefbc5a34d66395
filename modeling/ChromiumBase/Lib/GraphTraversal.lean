import ChromiumBase.Lib.WordGraph

/-!
# Depth-first traversal of a graph

A traversal follows references from a source.  A node is entered the first time it is
referred to, and its own references are followed at once; a later reference to it is only
noted.  The trail keeps the nodes in the order in which they were entered and every
reference that was followed, with the node it came from.

`Extends g t t' calls` says what following the references `calls` does to a trail, whatever
the order was: the entered nodes are new, and the references noted are `calls` and all those
of the nodes entered.
-/

open List

namespace WordGraph

variable {α : Type*} {ref : Option ℕ} {e : Edge}

/-- A reference that was followed, with the node it is a reference of (`none` for a
reference of the source). -/
abbrev Edge := Option ℕ × Option ℕ

def Graph.edges (g : Graph α) (p : ℕ) : List Edge :=
  (g.succ p).map fun child => (some p, child)

variable {g : Graph α} {n i : ℕ} {source refs : List (Option ℕ)} {t : Trail} {parent : Option ℕ}

@[simp] theorem Graph.mem_edges {p : ℕ} : e ∈ g.edges p ↔ e.1 = some p ∧ e.2 ∈ g.succ p := by
  obtain ⟨a, b⟩ := e
  simp only [edges, mem_map, Prod.mk.injEq]
  constructor
  · rintro ⟨child, hc, rfl, rfl⟩
    exact ⟨rfl, hc⟩
  · rintro ⟨rfl, hc⟩
    exact ⟨b, hc, rfl, rfl⟩

structure Trail where
  visited : List ℕ
  log : List Edge

def follow (g : Graph α) : ℕ → Option ℕ → Option ℕ → Trail → Trail
  | _, parent, none, t => { t with log := t.log ++ [(parent, none)] }
  | 0, _, some _, t => t
  | n + 1, parent, some i, t =>
    if i ∈ t.visited then { t with log := t.log ++ [(parent, some i)] }
    else
      (g.succ i).foldl (fun t child => follow g n (some i) child t)
        ⟨t.visited ++ [i], t.log ++ [(parent, some i)]⟩

def followFrom (g : Graph α) (n : ℕ) (source : List (Option ℕ)) : Trail :=
  source.foldl (fun t ref => follow g n none ref t) ⟨[], []⟩

/-- The trail `t'` is `t` after the references `calls` were followed. -/
def Extends (g : Graph α) (t t' : Trail) (calls : List Edge) : Prop :=
  ∃ new, t'.visited = t.visited ++ new ∧ new.Nodup ∧ (∀ i ∈ new, i ∉ t.visited) ∧
    t'.log.Perm (t.log ++ (calls ++ new.flatMap g.edges)) ∧
    (∀ e ∈ calls ++ new.flatMap g.edges, ∀ i, e.2 = some i → i ∈ t'.visited) ∧
    (∀ i ∈ new, ∃ e ∈ calls ++ new.flatMap g.edges, e.2 = some i)

namespace Extends

variable {t' t'' : Trail} {calls more : List Edge}

theorem refl (g : Graph α) (t : Trail) : Extends g t t [] :=
  ⟨[], by simp⟩

theorem visited_subset (h : Extends g t t' calls) (hi : i ∈ t.visited) : i ∈ t'.visited := by
  obtain ⟨new, hv, -⟩ := h
  rw [hv]
  exact mem_append_left new hi

theorem nodup (h : Extends g t t' calls) (ht : t.visited.Nodup) : t'.visited.Nodup := by
  obtain ⟨new, hv, hn, hd, -⟩ := h
  rw [hv]
  exact ht.append hn fun i hi hi' => hd i hi' hi

/-- Following more references. -/
theorem trans (h : Extends g t t' calls) (h' : Extends g t' t'' more) :
    Extends g t t'' (calls ++ more) := by
  have mono : ∀ i ∈ t'.visited, i ∈ t''.visited := fun _ hi => h'.visited_subset hi
  obtain ⟨new, hv, hn, hd, hl, hc, he⟩ := h
  obtain ⟨new', hv', hn', hd', hl', hc', he'⟩ := h'
  have regroup : ∀ e : Edge, e ∈ (calls ++ more) ++ (new ++ new').flatMap g.edges ↔
      e ∈ calls ++ new.flatMap g.edges ∨ e ∈ more ++ new'.flatMap g.edges := by
    simp only [flatMap_append, mem_append]
    tauto
  refine ⟨new ++ new', ?_, ?_, ?_, ?_, ?_, ?_⟩
  · rw [hv', hv, append_assoc]
  · refine hn.append hn' fun i hi hi' => hd' i hi' ?_
    rw [hv]
    exact mem_append_right t.visited hi
  · intro i hi hit
    rcases mem_append.1 hi with hi | hi
    · exact hd i hi hit
    · exact hd' i hi (hv ▸ mem_append_left new hit)
  · refine hl'.trans ((hl.append_right _).trans ?_)
    simp only [flatMap_append, append_assoc]
    refine (List.Perm.refl t.log).append ((List.Perm.refl calls).append ?_)
    simp only [← append_assoc]
    exact perm_append_comm.append_right _
  · intro e hem i hi
    rcases (regroup e).1 hem with hem | hem
    · exact mono i (hc e hem i hi)
    · exact hc' e hem i hi
  · intro i hi
    rcases mem_append.1 hi with hi | hi
    · obtain ⟨e, hem, hei⟩ := he i hi
      exact ⟨e, (regroup e).2 (.inl hem), hei⟩
    · obtain ⟨e, hem, hei⟩ := he' i hi
      exact ⟨e, (regroup e).2 (.inr hem), hei⟩

theorem note (h : ∀ i, ref = some i → i ∈ t.visited) :
    Extends g t { t with log := t.log ++ [(parent, ref)] } [(parent, ref)] := by
  refine ⟨[], by simp, by simp, by simp, by simp, ?_, by simp⟩
  intro e he i hi
  simp only [flatMap_nil, append_nil, mem_singleton] at he
  subst he
  exact h i hi

/-- A node that is entered has all its references followed. -/
theorem enter (hi : i ∉ t.visited)
    (h : Extends g ⟨t.visited ++ [i], t.log ++ [(parent, some i)]⟩ t' (g.edges i)) :
    Extends g t t' [(parent, some i)] := by
  obtain ⟨new, hv, hn, hd, hl, hc, hem⟩ := h
  refine ⟨i :: new, ?_, ?_, ?_, ?_, ?_, ?_⟩
  · simpa using hv
  · exact nodup_cons.2 ⟨fun hin => hd i hin (by simp), hn⟩
  · intro j hj
    rcases mem_cons.1 hj with rfl | hj
    · exact hi
    · exact fun hjt => hd j hj (mem_append_left _ hjt)
  · simpa using hl
  · intro e he j hj
    simp only [cons_append, mem_cons] at he
    rcases he with rfl | he
    · obtain rfl : i = j := by simpa using hj
      rw [hv]
      simp
    · exact hc e he j hj
  · intro j hj
    rcases mem_cons.1 hj with rfl | hj
    · exact ⟨(parent, some j), by simp, rfl⟩
    · obtain ⟨e, he, hej⟩ := hem j hj
      exact ⟨e, mem_cons_of_mem _ (by simpa using he), hej⟩

theorem foldl {f : Trail → Option ℕ → Trail}
    (hf : ∀ t, ∀ ref ∈ refs, Extends g t (f t ref) [(parent, ref)]) (t : Trail) :
    Extends g t (refs.foldl f t) (refs.map fun ref => (parent, ref)) := by
  induction refs generalizing t with
  | nil => exact refl g t
  | cons ref refs ih =>
    have first := hf t ref mem_cons_self
    exact first.trans (ih (fun t r hr => hf t r (mem_cons_of_mem ref hr)) (f t ref))

end Extends

theorem follow_extends (h : Within g n ref) (parent : Option ℕ) (t : Trail) :
    Extends g t (follow g n parent ref t) [(parent, ref)] := by
  induction h generalizing parent t with
  | sink n =>
    rw [show follow g n parent none t = { t with log := t.log ++ [(parent, none)] } by
      cases n <;> rfl]
    exact .note (by simp)
  | @step n i _ ih =>
    by_cases hi : i ∈ t.visited
    · simp only [follow, if_pos hi]
      exact .note fun j hj => by simpa using (Option.some.inj hj) ▸ hi
    · simp only [follow, if_neg hi]
      exact .enter hi (.foldl (fun t child hc => ih child hc (some i) t) _)

structure Trail.Sound (t : Trail) : Prop where
  nodup : t.visited.Nodup
  parent : ∀ e ∈ t.log, ∀ p, e.1 = some p → p ∈ t.visited
  child : ∀ e ∈ t.log, ∀ i, e.2 = some i → i ∈ t.visited

namespace Trail.Sound

theorem nil : Sound ⟨[], []⟩ :=
  ⟨nodup_nil, by simp, by simp⟩

theorem note (h : t.Sound) (hp : ∀ p, parent = some p → p ∈ t.visited)
    (hr : ∀ i, ref = some i → i ∈ t.visited) :
    Sound { t with log := t.log ++ [(parent, ref)] } := by
  refine ⟨h.nodup, fun e he => ?_, fun e he => ?_⟩
  · rcases mem_append.1 he with he | he
    · exact h.parent e he
    · obtain rfl := mem_singleton.1 he
      exact hp
  · rcases mem_append.1 he with he | he
    · exact h.child e he
    · obtain rfl := mem_singleton.1 he
      exact hr

theorem enter (h : t.Sound) (hp : ∀ p, parent = some p → p ∈ t.visited) (hi : i ∉ t.visited) :
    Sound ⟨t.visited ++ [i], t.log ++ [(parent, some i)]⟩ := by
  have wider : Sound { t with visited := t.visited ++ [i] } :=
    ⟨h.nodup.append (nodup_singleton i) (by simpa using hi),
      fun e he p hep => mem_append_left _ (h.parent e he p hep),
      fun e he j hej => mem_append_left _ (h.child e he j hej)⟩
  exact wider.note (fun p hpp => mem_append_left _ (hp p hpp)) (by simp)

theorem of_extends (h : t.Sound) {t' : Trail}
    (ht : Extends g t t' (refs.map fun ref => (parent, ref)))
    (hp : ∀ p, parent = some p → p ∈ t.visited) : t'.Sound := by
  have nodup := ht.nodup h.nodup
  have mono : ∀ i ∈ t.visited, i ∈ t'.visited := fun _ hi => ht.visited_subset hi
  obtain ⟨new, hv, -, -, hl, hc, -⟩ := ht
  refine ⟨nodup, fun e he p hep => ?_, fun e he i hei => ?_⟩
  · rcases mem_append.1 (hl.mem_iff.1 he) with he | he
    · exact mono p (h.parent e he p hep)
    rcases mem_append.1 he with he | he
    · obtain ⟨ref, -, rfl⟩ := mem_map.1 he
      exact mono p (hp p hep)
    · obtain ⟨q, hq, heq⟩ := mem_flatMap.1 he
      obtain rfl : q = p := Option.some.inj ((Graph.mem_edges.1 heq).1.symm.trans hep)
      rw [hv]
      exact mem_append_right _ hq
  · rcases mem_append.1 (hl.mem_iff.1 he) with he | he
    · exact mono i (h.child e he i hei)
    · exact hc e he i hei

theorem follow (h : t.Sound) {n : ℕ} (hw : Within g n ref)
    (hp : ∀ p, parent = some p → p ∈ t.visited) : (WordGraph.follow g n parent ref t).Sound := by
  have ht : Extends g t (WordGraph.follow g n parent ref t)
      ([ref].map fun ref => (parent, ref)) := follow_extends hw parent t
  exact h.of_extends ht hp

end Trail.Sound

/-- A state that is read off the trail follows it, if it does so for each reference. -/
theorem foldl_follow {σ : Type*} {read : Trail → σ} {run : Option ℕ → σ → σ} {parent : Option ℕ}
    {t : Trail} (h : t.Sound) (hp : ∀ p, parent = some p → p ∈ t.visited)
    (hw : ∀ c ∈ refs, Within g n c) (hr : ∀ c ∈ refs, ∀ t', t'.Sound → t.visited <+: t'.visited →
      run c (read t') = read (follow g n parent c t')) :
    refs.foldl (fun s c => run c s) (read t) =
      read (refs.foldl (fun t c => follow g n parent c t) t) := by
  induction refs generalizing t with
  | nil => rfl
  | cons c refs ih =>
    obtain ⟨hc, hw⟩ := forall_mem_cons.1 hw
    obtain ⟨hrc, hr⟩ := forall_mem_cons.1 hr
    obtain ⟨new, hv, -⟩ := follow_extends hc parent t
    have ht : t.visited <+: (follow g n parent c t).visited := ⟨new, hv.symm⟩
    rw [foldl_cons, foldl_cons, hrc t h prefix_rfl]
    exact ih (h.follow hc hp) (fun p hpp => ht.subset (hp p hpp)) hw
      fun c hc t' ht' hpre => hr c hc t' ht' (ht.trans hpre)

theorem followFrom_extends (h : ∀ ref ∈ source, Within g n ref) :
    Extends g ⟨[], []⟩ (followFrom g n source) (source.map fun ref => (none, ref)) :=
  .foldl (fun t ref href => follow_extends (h ref href) none t) _

structure Complete (g : Graph α) (source : List (Option ℕ)) (t : Trail) : Prop where
  nodup : t.visited.Nodup
  log : t.log.Perm (source.map (fun ref => (none, ref)) ++ t.visited.flatMap g.edges)
  source : ∀ i, some i ∈ source → i ∈ t.visited
  succ : ∀ p ∈ t.visited, ∀ i, some i ∈ g.succ p → i ∈ t.visited
  entered : ∀ i ∈ t.visited, ∃ e ∈ t.log, e.2 = some i

theorem followFrom_complete (h : ∀ ref ∈ source, Within g n ref) :
    Complete g source (followFrom g n source) := by
  have nodup := (followFrom_extends h).nodup nodup_nil
  obtain ⟨new, hv, hn, -, hl, hc, he⟩ := followFrom_extends h
  obtain rfl : (followFrom g n source).visited = new := by simpa using hv
  refine ⟨nodup, by simpa using hl, fun i hi => ?_, fun p hp i hi => ?_, fun i hi => ?_⟩
  · exact hc (none, some i) (mem_append_left _ (mem_map_of_mem hi)) i rfl
  · refine hc (some p, some i) (mem_append_right _ (mem_flatMap.2 ⟨p, hp, ?_⟩)) i rfl
    exact Graph.mem_edges.2 ⟨rfl, hi⟩
  · obtain ⟨e, hem, hei⟩ := he i hi
    exact ⟨e, hl.mem_iff.2 (by simpa using hem), hei⟩

namespace Complete

theorem mem_log (h : Complete g source t) : e ∈ t.log ↔
      (e.1 = none ∧ e.2 ∈ source) ∨ ∃ p ∈ t.visited, e.1 = some p ∧ e.2 ∈ g.succ p := by
  obtain ⟨a, b⟩ := e
  simp only [h.log.mem_iff, mem_append, mem_map, Prod.mk.injEq, mem_flatMap, Graph.mem_edges]
  constructor
  · rintro (⟨ref, href, rfl, rfl⟩ | hp)
    · exact .inl ⟨rfl, href⟩
    · exact .inr hp
  · rintro (⟨rfl, hb⟩ | hp)
    · exact .inl ⟨b, hb, rfl, rfl⟩
    · exact .inr hp

theorem log_nodup (h : Complete g source t) (hs : source.Nodup)
    (hg : ∀ p ∈ t.visited, (g.succ p).Nodup) : t.log.Nodup := by
  refine h.log.nodup_iff.2 (List.Nodup.append ?_ ?_ ?_)
  · exact hs.map fun a b hab => (Prod.mk.inj hab).2
  · refine nodup_flatMap.2 ⟨fun p hp => ?_, ?_⟩
    · exact (hg p hp).map fun a b hab => (Prod.mk.inj hab).2
    · refine h.nodup.imp_of_mem fun {p q} _ _ hpq e hep heq => hpq ?_
      exact Option.some.inj ((Graph.mem_edges.1 hep).1.symm.trans (Graph.mem_edges.1 heq).1)
  · intro e he he'
    obtain ⟨ref, -, rfl⟩ := mem_map.1 he
    obtain ⟨p, -, hp⟩ := mem_flatMap.1 he'
    simp at hp

theorem visited_lt (h : Complete g source t) (hs : ∀ i, some i ∈ source → i < g.length)
    (hg : ∀ p i, some i ∈ g.succ p → i < g.length) (hi : i ∈ t.visited) : i < g.length := by
  obtain ⟨⟨parent, ref⟩, he, rfl⟩ := h.entered i hi
  rcases h.mem_log.1 he with ⟨-, hsrc⟩ | ⟨p, -, -, hsu⟩
  · exact hs i hsrc
  · exact hg p i hsu

theorem visited_of_reaches (h : Complete g source t) {u : List α} (hr : Reaches g source i u) :
    i ∈ t.visited := by
  induction hr with
  | source hi => exact h.source _ hi
  | step _ hi ih => exact h.succ _ ih _ hi

end Complete

end WordGraph
