import ChromiumBase.Lib.GraphTraversal
import ChromiumBase.Net.Tools.Dafsa.JoinSuffixes

/-!
# Topological order

`top_sort` counts the references to every node and takes the nodes in an order in which no
reference to a node is left when the node is taken.  The count kept for a node is the number
of references from the nodes that have not been taken yet.
-/

open Function List Option

namespace ChromiumBase.MakeDafsa

open WordGraph

section Count

variable {g : Graph ℕ} {t : Trail} {i n : ℕ}

def references (t : Trail) (i : ℕ) : ℕ :=
  (t.log.map Prod.snd).count (some i)

def counts (t : Trail) (i : ℕ) : Option ℤ :=
  if i ∈ t.visited then some (references t i : ℤ) else none

theorem references_concat (t : Trail) (visited : List ℕ) (parent ref : Option ℕ) (i : ℕ) :
    references ⟨visited, t.log ++ [(parent, ref)]⟩ i =
      references t i + if ref = some i then 1 else 0 := by
  simp [references, count_singleton]

theorem counts_note (hi : i ∈ t.visited) (parent : Option ℕ) :
    counts { t with log := t.log ++ [(parent, some i)] } =
      update (counts t) i (some ((references t i : ℤ) + 1)) := by
  funext j
  by_cases hj : j = i
  · subst hj
    simp [counts, hi, references_concat]
  · have hij : i ≠ j := fun h => hj h.symm
    simp [counts, update_of_ne hj, references_concat, hij]

theorem counts_enter (h : t.Sound) (hi : i ∉ t.visited) (parent : Option ℕ) :
    counts ⟨t.visited ++ [i], t.log ++ [(parent, some i)]⟩ = update (counts t) i (some 1) := by
  funext j
  by_cases hj : j = i
  · subst hj
    have none : references t j = 0 := by
      refine count_eq_zero.2 fun hm => ?_
      obtain ⟨e, he, hej⟩ := mem_map.1 hm
      exact hi (h.child e he j hej)
    simp [counts, references_concat, none]
  · have hij : i ≠ j := fun h => hj h.symm
    simp [counts, references_concat, hij, hj]

theorem countIncoming_counts {ref : Option ℕ} (hw : Within g n ref) {parent : Option ℕ}
    (h : t.Sound) (hp : ∀ p, parent = some p → p ∈ t.visited) :
    countIncoming g n ref (counts t) = counts (follow g n parent ref t) := by
  induction hw generalizing parent t with
  | sink n =>
    have hlog : counts { t with log := t.log ++ [(parent, none)] } = counts t := by
      funext i
      simp [counts, references_concat]
    cases n <;> simp only [countIncoming, follow, hlog]
  | @step n i hc ih =>
    by_cases hi : i ∈ t.visited
    · have hm : counts t i = some (references t i : ℤ) := if_pos hi
      simp only [countIncoming, follow, hm, if_pos hi, counts_note hi]
    have hm : counts t i = none := if_neg hi
    simp only [countIncoming, follow, hm, if_neg hi, ← counts_enter h hi parent]
    exact foldl_follow (h.enter hp hi) (by simp) hc fun c hcm t' ht' hpre =>
      ih c hcm ht' (by simpa using hpre.subset (by simp : i ∈ _))

theorem countIncoming_source {source : List (Option ℕ)} (hw : ∀ ref ∈ source, Within g n ref) :
    source.foldl (fun incoming node => countIncoming g n node incoming) (fun _ => none) =
      counts (followFrom g n source) :=
  foldl_follow .nil (by simp) hw fun c hc _ ht _ => countIncoming_counts (hw c hc) ht (by simp)

end Count

section Loop

variable {refs : List (Option ℕ)}

def pending (g : Graph ℕ) (left : List ℕ) (i : ℕ) : ℕ :=
  (left.flatMap g.succ).count (some i)

variable {left all : List ℕ} {w : List ℕ × (ℕ → Option ℤ)}

theorem pending_eq_zero {i : ℕ} : pending g left i = 0 ↔ ∀ p ∈ left, some i ∉ g.succ p := by
  rw [pending, count_eq_zero]
  simp only [mem_flatMap, not_exists, not_and]

@[simp] theorem pending_cons (p : ℕ) (left : List ℕ) (i : ℕ) :
    pending g (p :: left) i = (g.succ p).count (some i) + pending g left i := by
  simp [pending]

theorem foldl_decrement (incoming : ℕ → Option ℤ) (l : List ℕ) (i : ℕ) :
    l.foldl decrement incoming i = (incoming i).map (· - (l.count i : ℤ)) := by
  induction l generalizing incoming with
  | nil => simp
  | cons a l ih =>
    rw [foldl_cons, ih]
    by_cases hai : a = i
    · subst hai
      simp only [decrement, update_self, Option.map_map, count_cons_self]
      congr 1
      funext x
      simp only [comp_apply]
      omega
    · have hia : i ≠ a := fun h => hai h.symm
      rw [decrement, update_of_ne hia, count_cons_of_ne hai]

/-- The state of the loop of `top_sort` while the references `refs` of the node taken last
are still to be released and the nodes of `left` have not been taken. -/
structure Waiting (g : Graph ℕ) (all left : List ℕ) (refs : List (Option ℕ))
    (w : List ℕ × (ℕ → Option ℤ)) : Prop where
  count : ∀ i ∈ all, w.2 i = some ((pending g left i + refs.count (some i) : ℕ) : ℤ)
  nodup : w.1.Nodup
  mem : ∀ i, i ∈ w.1 ↔ i ∈ left ∧ pending g left i + refs.count (some i) = 0

/-- A node waits as soon as the last reference to it is released. -/
theorem Waiting.release {ref : Option ℕ} (h : Waiting g all left (ref :: refs) w)
    (href : ∀ c, ref = some c → c ∈ all ∧ c ∈ left) : Waiting g all left refs (release w ref) := by
  obtain _ | c := ref
  · refine ⟨fun i hi => ?_, h.nodup, fun i => ?_⟩
    · simpa [MakeDafsa.release] using h.count i hi
    · simpa [MakeDafsa.release] using h.mem i
  obtain ⟨hall, hl⟩ := href c rfl
  have hc := h.count c hall
  have hdec : decrement w.2 c c = some ((pending g left c + refs.count (some c) : ℕ) : ℤ) := by
    simp only [decrement, update_self, hc, map_some, some.injEq, count_cons_self]
    omega
  have ho : ∀ i ≠ c, (some c :: refs).count (some i) = refs.count (some i) := by
    intro i hi
    exact count_cons_of_ne fun h => hi (some.inj h).symm
  have hout : c ∉ w.1 := by
    rw [h.mem, count_cons_self]
    omega
  refine ⟨fun i hi => ?_, ?_, fun i => ?_⟩
  · by_cases hic : i = c
    · subst hic
      exact hdec
    · rw [← ho i hic, ← h.count i hi]
      simp [MakeDafsa.release, decrement, update_of_ne hic]
  · simp only [MakeDafsa.release]
    split
    · exact nodup_cons.2 ⟨hout, h.nodup⟩
    · exact h.nodup
  · simp only [MakeDafsa.release, hdec, some.injEq, Int.natCast_eq_zero]
    by_cases hic : i = c
    · subst hic
      split
      · rename_i hz
        simp only [mem_cons_self, true_iff]
        exact ⟨hl, hz⟩
      · rename_i hz
        exact ⟨fun hm => absurd hm hout, fun hm => absurd hm.2 hz⟩
    · rw [← ho i hic, ← h.mem i]
      split
      · simp [hic]
      · rfl

theorem Waiting.foldl_release (h : Waiting g all left refs w)
    (hr : ∀ c, some c ∈ refs → c ∈ all ∧ c ∈ left) :
    Waiting g all left [] (refs.foldl MakeDafsa.release w) := by
  induction refs generalizing w with
  | nil => exact h
  | cons ref refs ih =>
    refine ih (h.release fun c hc => hr c ?_) fun c hc => hr c ?_
    · rw [hc]
      exact mem_cons_self
    · exact mem_cons_of_mem ref hc

theorem Waiting.take {waiting : List ℕ} {incoming : ℕ → Option ℤ} {node : ℕ} (hl : left.Nodup)
    (h : Waiting g all left [] (node :: waiting, incoming)) :
    Waiting g all (left.erase node) (g.succ node) (waiting, incoming) := by
  have hno : node ∈ left := ((h.mem node).1 mem_cons_self).1
  have hp : ∀ i, pending g left i =
      (g.succ node).count (some i) + pending g (left.erase node) i := by
    intro i
    rw [pending, ((perm_cons_erase hno).flatMap_right g.succ).count_eq, ← pending, pending_cons]
  obtain ⟨hnot, hn⟩ := nodup_cons.1 h.nodup
  refine ⟨fun i hi => ?_, hn, fun i => ?_⟩
  · rw [h.count i hi, hp i]
    simp [Int.add_comm]
  · have hm := h.mem i
    simp only [mem_cons, hp i] at hm
    rw [hl.mem_erase_iff, Nat.add_comm]
    constructor
    · intro hi
      have := hm.1 (.inr hi)
      exact ⟨⟨fun hin => hnot (hin ▸ hi), this.1⟩, this.2⟩
    · rintro ⟨⟨hne, hil⟩, hz⟩
      exact (hm.2 ⟨hil, hz⟩).resolve_left hne

/-- The loop takes every node once, parents first. -/
theorem topSortLoop_spec (hd : Descending g) {nodes : List ℕ} {n : ℕ} (hn : left.length < n)
    (hall : all.Perm (nodes ++ left)) (hnd : all.Nodup)
    (hclo : ∀ p ∈ all, ∀ i, some i ∈ g.succ p → i ∈ all) (hw : Waiting g all left [] w)
    (hdo : ∀ i ∈ nodes, ∀ p ∈ left, some i ∉ g.succ p)
    (ho : nodes.Pairwise fun a b => some a ∉ g.succ b) :
    ∃ result, topSortLoop g n w nodes = .ok result ∧ all.Perm result ∧
      result.Pairwise fun a b => some a ∉ g.succ b := by
  induction n generalizing left nodes w with
  | zero => omega
  | succ n ih =>
    have hl : ∀ i ∈ left, i ∈ all := fun i hi => hall.mem_iff.2 (by simp [hi])
    have hnl : left.Nodup := (nodup_append.1 (hall.nodup_iff.1 hnd)).2.1
    obtain ⟨_ | ⟨node, waiting⟩, incoming⟩ := w
    · -- The largest node left has no reference from a node left, so it would be waiting.
      obtain rfl : left = [] := by
        by_contra hne
        have hz : pending g left (left.max hne) = 0 := by
          refine pending_eq_zero.2 fun p hp hs => ?_
          have hlt := hd p _ hs
          have hle := le_max_of_mem hp
          omega
        exact not_mem_nil ((hw.mem _).2 ⟨max_mem hne, by simpa using hz⟩)
      exact ⟨nodes, rfl, by simpa using hall, ho⟩
    · obtain ⟨hno, hz⟩ := (hw.mem node).1 mem_cons_self
      have hf := pending_eq_zero.1 hz
      have hinc : incoming node = some 0 := by
        have hco := hw.count node (hl node hno)
        rw [hz] at hco
        exact hco
      have hpe : all.Perm ((nodes ++ [node]) ++ left.erase node) := by
        refine hall.trans ?_
        rw [append_assoc, singleton_append]
        exact (perm_cons_erase hno).append_left nodes
      rw [topSortLoop, if_pos hinc]
      refine ih ?_ hpe ?_ ?_ ?_
      · rw [length_erase_of_mem hno]
        have := length_pos_of_mem hno
        omega
      · refine (hw.take hnl).foldl_release fun c hc => ?_
        have hca := hclo node (hl node hno) c hc
        refine ⟨hca, (hnl.mem_erase_iff).2 ⟨?_, ?_⟩⟩
        · exact (hd node c hc).ne
        · rcases mem_append.1 (hall.mem_iff.1 hca) with hcn | hcl
          · exact absurd hc (hdo c hcn node hno)
          · exact hcl
      · intro i hi p hp
        have hpl := mem_of_mem_erase hp
        rcases mem_append.1 hi with hi | hi
        · exact hdo i hi p hpl
        · obtain rfl := mem_singleton.1 hi
          exact hf p hpl
      · refine pairwise_append.2 ⟨ho, pairwise_singleton _ _, ?_⟩
        intro a ha b hb
        obtain rfl := mem_singleton.1 hb
        exact hdo a ha b hno

end Loop

section Start

variable {d : Dafsa}

theorem references_eq (h : Complete d.graph d.source t) (i : ℕ) :
    references t i = d.source.count (some i) + pending d.graph t.visited i := by
  have hlog := (h.log.map Prod.snd).count_eq (some i)
  have he : (t.visited.flatMap d.graph.edges).map Prod.snd =
      t.visited.flatMap d.graph.succ := by
    simp [map_flatMap, Graph.edges]
  rw [references, hlog, map_append, he, count_append, pending]
  simp

theorem count_filterMap_id (source : List (Option ℕ)) (i : ℕ) :
    (source.filterMap id).count i = source.count (some i) := by
  rw [count_filterMap]
  rfl

theorem waiting_start (h : Complete d.graph d.source t) (hn : d.source.Nodup) :
    let incoming := (d.source.filterMap id).foldl decrement (counts t)
    let waiting := (d.source.filterMap id).filter fun node => incoming node = some 0
    Waiting d.graph t.visited t.visited [] (waiting.reverse, incoming) := by
  intro incoming waiting
  have hco : ∀ i ∈ t.visited, incoming i = some ((pending d.graph t.visited i : ℕ) : ℤ) := by
    intro i hi
    have hc : counts t i = some (references t i : ℤ) := if_pos hi
    simp only [incoming, foldl_decrement, hc, map_some, references_eq h,
      count_filterMap_id, some.injEq]
    omega
  refine ⟨fun i hi => by simpa using hco i hi, ?_, fun i => ?_⟩
  · refine nodup_reverse.2 (List.Nodup.filter _ (hn.filterMap ?_))
    intro a b c hac hbc
    rw [mem_def, id] at hac hbc
    rw [hac, hbc]
  · have hids : i ∈ d.source.filterMap id ↔ some i ∈ d.source := by
      simp
    simp only [waiting, mem_reverse, mem_filter, decide_eq_true_eq, hids, count_nil, Nat.add_zero]
    constructor
    · rintro ⟨hsrc, hz⟩
      have hi := h.source i hsrc
      rw [hco i hi, some.injEq, Int.natCast_eq_zero] at hz
      exact ⟨hi, hz⟩
    · rintro ⟨hi, hz⟩
      refine ⟨?_, by rw [hco i hi, hz]; rfl⟩
      -- Some reference led to the node, and none of them came from a node.
      obtain ⟨e, he, hei⟩ := h.entered i hi
      rcases h.mem_log.1 he with ⟨-, hsrc⟩ | ⟨p, hp, -, hs⟩
      · rwa [hei] at hsrc
      · rw [hei] at hs
        exact absurd hs (pending_eq_zero.1 hz p hp)

end Start

/-- `top_sort` lists every node reachable from the source once, and no node before one that
refers to it. -/
theorem topSort_spec {d : Dafsa} (hd : Descending d.graph) (hg : Proper d.graph)
    (hv : ∀ ref ∈ d.source, Valid d.graph ref) (hn : d.source.Nodup) :
    ∃ t nodes, Complete d.graph d.source t ∧ topSort d = .ok nodes ∧
      t.visited.Perm nodes ∧ nodes.Pairwise fun a b => some a ∉ d.graph.succ b := by
  have hw : ∀ ref ∈ d.source, Within d.graph (d.graph.length + 1) ref :=
    fun ref _ => hd.within_length ref
  have h := followFrom_complete hw
  have hin : ∀ i ∈ (followFrom d.graph (d.graph.length + 1) d.source).visited, i < d.graph.length :=
    fun i hi => h.visited_lt (fun i hi => hv (some i) hi i rfl) hg.closed hi
  have hlen : (followFrom d.graph (d.graph.length + 1) d.source).visited.length <
      d.graph.length + 1 := by
    have hsub := subperm_of_subset h.nodup fun i hi => mem_range.2 (hin i hi)
    have := hsub.length_le
    rw [length_range] at this
    omega
  obtain ⟨nodes, hrun, hp, ho⟩ := topSortLoop_spec hd hlen
    (List.Perm.of_eq (nil_append _).symm) h.nodup h.succ (waiting_start h hn) (by simp)
    List.Pairwise.nil
  refine ⟨_, nodes, h, ?_, hp, ho⟩
  rw [topSort, countIncoming_source hw]
  exact hrun

end ChromiumBase.MakeDafsa
