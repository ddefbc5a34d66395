import ChromiumBase.Lib.GraphTraversal
import ChromiumBase.Net.Tools.Dafsa.MakeDafsa

/-!
# Reversing a DAFSA

`reverse` makes one new node for every node it enters, in the order of a depth-first
traversal, and notes in it every reference that was followed to the old node.  Its result is
therefore read off the trail of the traversal, and the words of the new source are the
words of the old one, read backwards.
-/

open List

namespace ChromiumBase.MakeDafsa

open WordGraph Reversal

section Trail

def newRef (t : Trail) (p : Option ℕ) : Option ℕ :=
  p.map fun i => t.visited.idxOf i

/-- The new nodes for the nodes from which a reference was followed. -/
def parentsOf (t : Trail) (ref : Option ℕ) : List (Option ℕ) :=
  (t.log.filter fun e => e.2 = ref).map fun e => newRef t e.1

def Reversal.ofTrail (g : Graph ℕ) (t : Trail) : Reversal where
  graph := t.visited.map fun i => ⟨(g.label i).reverse, parentsOf t (some i)⟩
  nodemap := fun i => if i ∈ t.visited then some (t.visited.idxOf i) else none
  sink := parentsOf t none

variable {t : Trail} {i : ℕ} {g : Graph ℕ}

theorem newRef_append {p : Option ℕ} (h : ∀ i, p = some i → i ∈ t.visited) (new : List ℕ)
    (log : List Edge) : newRef ⟨t.visited ++ new, log⟩ p = newRef t p := by
  obtain _ | i := p
  · rfl
  · simp [newRef, idxOf_append_of_mem (h i rfl)]

theorem parentsOf_concat (t : Trail) (parent ref ref' : Option ℕ) :
    parentsOf { t with log := t.log ++ [(parent, ref)] } ref' =
      parentsOf t ref' ++ if ref = ref' then [newRef t parent] else [] := by
  by_cases h : ref = ref' <;> simp [parentsOf, h, newRef]

theorem parentsOf_append (h : t.Sound) (new : List ℕ) (ref : Option ℕ) :
    parentsOf { t with visited := t.visited ++ new } ref = parentsOf t ref := by
  refine map_congr_left fun e he => ?_
  exact newRef_append (h.parent e (mem_filter.1 he).1) new t.log

theorem parentsOf_eq_nil (h : t.Sound) (hi : i ∉ t.visited) : parentsOf t (some i) = [] := by
  rw [parentsOf, filter_eq_nil_iff.2, map_nil]
  intro e he hei
  exact hi (h.child e he i (by simpa using hei))

theorem modify_map_idxOf {β : Type*} {l : List ℕ} (hl : l.Nodup) (hi : i ∈ l) (f : ℕ → β)
    (h : β → β) :
    (l.map f).modify (l.idxOf i) h = l.map fun j => if i = j then h (f j) else f j := by
  induction l with
  | nil => simp at hi
  | cons a l ih =>
    obtain ⟨ha, hl⟩ := nodup_cons.1 hl
    by_cases hia : i = a
    · subst hia
      simp only [idxOf_cons_self, map_cons]
      refine congrArg (h (f i) :: ·) (map_congr_left fun j hj => ?_)
      rw [if_neg (fun hij : i = j => ha (hij ▸ hj))]
    · have hil : i ∈ l := (mem_cons.1 hi).resolve_left hia
      rw [idxOf_cons_ne l (Ne.symm hia)]
      simp [ih hl hil, hia]

theorem ofTrail_note (h : t.Sound) (hi : i ∈ t.visited) (parent : Option ℕ) :
    ofTrail g { t with log := t.log ++ [(parent, some i)] } = { ofTrail g t with
        graph := (ofTrail g t).graph.modify (t.visited.idxOf i) fun n =>
          { n with children := n.children ++ [newRef t parent] } } := by
  simp only [ofTrail, parentsOf_concat, modify_map_idxOf h.nodup hi, mk.injEq]
  refine ⟨map_congr_left fun j _ => ?_, trivial, by simp⟩
  by_cases hij : i = j <;> simp [hij]

theorem ofTrail_enter (h : t.Sound) (hi : i ∉ t.visited) {parent : Option ℕ}
    (hp : ∀ p, parent = some p → p ∈ t.visited) :
    ofTrail g ⟨t.visited ++ [i], t.log ++ [(parent, some i)]⟩ = { ofTrail g t with
        graph := (ofTrail g t).graph ++ [⟨(g.label i).reverse, [newRef t parent]⟩]
        nodemap := Function.update (ofTrail g t).nodemap i
          (some t.visited.length) } := by
  have parents : ∀ ref, parentsOf ⟨t.visited ++ [i], t.log ++ [(parent, some i)]⟩ ref =
      parentsOf t ref ++ if some i = ref then [newRef t parent] else [] := by
    intro ref
    have hc := parentsOf_concat { t with visited := t.visited ++ [i] } parent (some i) ref
    rw [parentsOf_append h] at hc
    rw [hc, newRef_append hp]
  simp only [ofTrail, parents, mk.injEq]
  refine ⟨?_, ?_, by simp⟩
  · rw [map_append, map_singleton, parentsOf_eq_nil h hi]
    simp only [if_true]
    congr 1
    refine map_congr_left fun j hj => ?_
    have hij : some i ≠ some j := fun hij => hi (Option.some.inj hij ▸ hj)
    rw [if_neg hij, append_nil]
  · funext j
    by_cases hji : j = i
    · subst hji
      simp [idxOf_append_of_notMem hi]
    · rw [Function.update_of_ne hji]
      by_cases hj : j ∈ t.visited
      · simp [hj, idxOf_append_of_mem hj]
      · simp [hj, hji]

end Trail

/-- The traversal builds the reversed graph of its trail. -/
theorem dfs_ofTrail {g : Graph ℕ} {n : ℕ} {ref : Option ℕ} (hw : Within g n ref) {parent : Option ℕ}
    {t : Trail} (h : t.Sound) (hp : ∀ p, parent = some p → p ∈ t.visited) :
    dfs g n ref (newRef t parent) (ofTrail g t) = ofTrail g (follow g n parent ref t) := by
  induction hw generalizing parent t with
  | sink n =>
    have hd : dfs g n none (newRef t parent) (ofTrail g t) =
        ofTrail g { t with log := t.log ++ [(parent, none)] } := by
      cases n <;> simp [dfs, ofTrail, parentsOf_concat]
    have ht : follow g n parent none t = { t with log := t.log ++ [(parent, none)] } := by
      cases n <;> rfl
    rw [hd, ht]
  | @step n i hc ih =>
    by_cases hi : i ∈ t.visited
    · have hm : (ofTrail g t).nodemap i = some (t.visited.idxOf i) := if_pos hi
      simp only [dfs, follow, hm, if_pos hi, ofTrail_note h hi]
    have hm : (ofTrail g t).nodemap i = none := if_neg hi
    have hlen : (ofTrail g t).graph.length = t.visited.length := by
      simp [ofTrail]
    simp only [dfs, follow, hm, if_neg hi, hlen, ← ofTrail_enter h hi hp]
    refine foldl_follow (h.enter hp hi) (by simp) hc fun c hcm t' ht' hpre => ?_
    have hit : i ∈ t'.visited := hpre.subset (by simp)
    -- the new index of the node stays the same
    have hidx : newRef t' (some i) = some t.visited.length := by
      obtain ⟨new, hv⟩ := hpre
      rw [newRef, ← hv, Option.map_some, idxOf_append_of_mem (by simp)]
      simp [idxOf_append_of_notMem hi]
    rw [← hidx]
    exact ih c hcm ht' (by simpa using hit)

/-- The new DAFSA in terms of the trail of the traversal of the old one. -/
structure Reversed (d d' : Dafsa) (t : Trail) : Prop where
  complete : Complete d.graph d.source t
  length : d'.graph.length = t.visited.length
  label : ∀ i ∈ t.visited, d'.graph.label (t.visited.idxOf i) = (d.graph.label i).reverse
  succ : ∀ i ∈ t.visited, d'.graph.succ (t.visited.idxOf i) = parentsOf t (some i)
  source : d'.source = parentsOf t none

/-- `reverse` is given by the trail of the whole traversal. -/
theorem reverse_reversed {d : Dafsa}
    (h : ∀ ref ∈ d.source, Within d.graph (d.graph.length + 1) ref) :
    Reversed d (reverse d) (followFrom d.graph (d.graph.length + 1) d.source) := by
  have start : (⟨[], fun _ => none, []⟩ : Reversal) =
      ofTrail d.graph ⟨[], []⟩ := by
    simp [ofTrail, parentsOf]
  have result : d.source.foldl (fun r c => dfs d.graph (d.graph.length + 1) c none r)
      (ofTrail d.graph ⟨[], []⟩) =
      ofTrail d.graph (followFrom d.graph (d.graph.length + 1) d.source) :=
    foldl_follow .nil (by simp) h fun c hc t ht _ =>
      dfs_ofTrail (h c hc) ht fun p (hp : none = some p) => nomatch hp
  rw [← start] at result
  have hcomplete := followFrom_complete h
  generalize followFrom d.graph (d.graph.length + 1) d.source = t at *
  have hg : (reverse d).graph = (ofTrail d.graph t).graph := by
    rw [reverse, result]
  have hs : (reverse d).source = (ofTrail d.graph t).sink := by
    rw [reverse, result]
  have node : ∀ i ∈ t.visited, (reverse d).graph[t.visited.idxOf i]? =
      some ⟨(d.graph.label i).reverse, parentsOf t (some i)⟩ := by
    intro i hi
    rw [hg, ofTrail, getElem?_map, getElem?_eq_getElem (idxOf_lt_length_of_mem hi), getElem_idxOf]
    rfl
  refine ⟨hcomplete, ?_, fun i hi => ?_, fun i hi => ?_, hs⟩
  · simp [hg, ofTrail]
  · simp [Graph.label, node i hi]
  · simp [Graph.succ, node i hi]

namespace Reversed

variable {d d' : Dafsa} (h : Reversed d d' t) {m : ℕ}

include h

theorem mem_parentsOf {ref q : Option ℕ} : q ∈ parentsOf t ref ↔ (q = none ∧ ref ∈ d.source) ∨
      ∃ p ∈ t.visited, ref ∈ d.graph.succ p ∧ q = some (t.visited.idxOf p) := by
  simp only [parentsOf, mem_map, mem_filter, decide_eq_true_eq, h.complete.mem_log]
  constructor
  · rintro ⟨⟨a, b⟩, ⟨⟨ha, hb⟩ | ⟨p, hp, ha, hb⟩, rfl⟩, rfl⟩
    · obtain rfl : a = none := ha
      exact .inl ⟨rfl, hb⟩
    · obtain rfl : a = some p := ha
      exact .inr ⟨p, hp, hb, rfl⟩
  · rintro (⟨rfl, hr⟩ | ⟨p, hp, hr, rfl⟩)
    · exact ⟨(none, ref), ⟨.inl ⟨rfl, hr⟩, rfl⟩, rfl⟩
    · exact ⟨(some p, ref), ⟨.inr ⟨p, hp, rfl, hr⟩, rfl⟩, rfl⟩

theorem exists_visited (hm : m < d'.graph.length) : ∃ i ∈ t.visited, m = t.visited.idxOf i := by
  rw [h.length] at hm
  exact ⟨t.visited[m], getElem_mem hm, (h.complete.nodup.idxOf_getElem m hm).symm⟩

theorem idxOf_lt {p : ℕ} (hp : p ∈ t.visited) : t.visited.idxOf p < d'.graph.length := by
  rw [h.length]
  exact idxOf_lt_length_of_mem hp

theorem closed {c : ℕ} (hc : some c ∈ d'.graph.succ m) : c < d'.graph.length := by
  obtain ⟨i, hi, rfl⟩ := h.exists_visited (Graph.lt_length_of_mem_succ hc)
  rw [h.succ i hi] at hc
  rcases h.mem_parentsOf.1 hc with ⟨hn, -⟩ | ⟨p, hp, -, heq⟩
  · cases hn
  · exact Option.some.inj heq ▸ h.idxOf_lt hp

theorem exists_parent (hi : i ∈ t.visited) : ∃ q, q ∈ parentsOf t (some i) := by
  obtain ⟨e, he, hei⟩ := h.complete.entered i hi
  exact ⟨_, mem_map.2 ⟨e, mem_filter.2 ⟨he, by simpa using hei⟩, rfl⟩⟩

variable {w : List ℕ}

/-- A node of the reversed graph spells what leads to the old one, backwards. -/
theorem spells_iff (hi : i ∈ t.visited) :
    Spells d'.graph (some (t.visited.idxOf i)) w ↔ Reaches d.graph d.source i w.reverse := by
  constructor
  · have key : ∀ ref w, Spells d'.graph ref w → ∀ i ∈ t.visited,
        ref = some (t.visited.idxOf i) → Reaches d.graph d.source i w.reverse := by
      intro ref w hs
      induction hs with
      | sink => rintro i - ⟨⟩
      | @step m child w hc _ ih =>
        rintro i hi heq
        obtain rfl := Option.some.inj heq
        rw [h.label i hi, reverse_append, reverse_reverse]
        rw [h.succ i hi] at hc
        rcases h.mem_parentsOf.1 hc with ⟨rfl, hsrc⟩ | ⟨p, hp, hsu, rfl⟩
        · obtain rfl := spells_none.1 ‹_›
          exact .source hsrc
        · exact .step (ih p hp rfl) hsu
    exact fun hs => key _ w hs i hi rfl
  · intro hr
    have key : ∀ i u, Reaches d.graph d.source i u →
        Spells d'.graph (some (t.visited.idxOf i)) u.reverse := by
      intro i u hr
      induction hr with
      | @source i hsrc =>
        have hi := h.complete.source i hsrc
        have hc : none ∈ d'.graph.succ (t.visited.idxOf i) := by
          rw [h.succ i hi]
          exact h.mem_parentsOf.2 (.inl ⟨rfl, hsrc⟩)
        simpa [h.label i hi] using Spells.step hc .sink
      | @step p i u hp hsu ih =>
        have hpv := h.complete.visited_of_reaches hp
        have hi := h.complete.succ p hpv i hsu
        have hc : some (t.visited.idxOf p) ∈ d'.graph.succ (t.visited.idxOf i) := by
          rw [h.succ i hi]
          exact h.mem_parentsOf.2 (.inr ⟨p, hpv, hsu, rfl⟩)
        simpa [h.label i hi] using Spells.step hc ih
    simpa using key i w.reverse hr

theorem spellsFrom_iff (hs : none ∉ d.source) :
    SpellsFrom d'.graph d'.source w ↔ SpellsFrom d.graph d.source w.reverse := by
  rw [spellsFrom_iff_reaches hs, h.source, SpellsFrom]
  constructor
  · rintro ⟨ref, href, hw⟩
    rcases h.mem_parentsOf.1 href with ⟨-, hn⟩ | ⟨p, hp, hsu, rfl⟩
    · exact absurd hn hs
    · exact ⟨p, (h.spells_iff hp).1 hw, hsu⟩
  · rintro ⟨p, hr, hsu⟩
    have hp := h.complete.visited_of_reaches hr
    exact ⟨some (t.visited.idxOf p), h.mem_parentsOf.2 (.inr ⟨p, hp, hsu, rfl⟩),
      (h.spells_iff hp).2 hr⟩

theorem source_ne_nil (hs : none ∉ d.source)
    (hw : SpellsFrom d.graph d.source w) : d'.source ≠ [] := by
  rw [← reverse_reverse w] at hw
  obtain ⟨ref, href, -⟩ := (h.spellsFrom_iff hs).2 hw
  exact ne_nil_of_mem href

theorem none_notMem_source (hs : none ∉ d.source) : none ∉ d'.source := by
  rw [h.source]
  intro hn
  rcases h.mem_parentsOf.1 hn with ⟨-, hn⟩ | ⟨p, -, -, hq⟩
  · exact hs hn
  · cases hq

theorem parentsOf_nodup (hs : d.source.Nodup)
    (hg : ∀ p ∈ t.visited, (d.graph.succ p).Nodup) (ref : Option ℕ) : (parentsOf t ref).Nodup := by
  have parent : ∀ e ∈ t.log, ∀ p, e.1 = some p → p ∈ t.visited := by
    intro e he p hp
    rcases h.complete.mem_log.1 he with ⟨hn, -⟩ | ⟨q, hq, heq, -⟩
    · rw [hn] at hp
      cases hp
    · exact Option.some.inj (heq.symm.trans hp) ▸ hq
  refine List.Nodup.map_on ?_ ((h.complete.log_nodup hs hg).filter _)
  rintro ⟨a, b⟩ hab ⟨a', b'⟩ hab' heq
  obtain ⟨ha, rfl⟩ : (a, b) ∈ t.log ∧ b = ref := by simpa using hab
  obtain ⟨-, rfl⟩ : (a', b') ∈ t.log ∧ b' = b := by simpa using hab'
  obtain _ | p := a <;> obtain _ | p' := a' <;> simp only [newRef, Option.map_some,
    Option.map_none, reduceCtorEq, Option.some.injEq] at heq ⊢
  rw [(idxOf_inj (parent (some p, b') ha p rfl)).1 heq]

/-- The new graph of a descending graph is acyclic: its references lead to larger old
indices. -/
theorem within (hd : Descending d.graph) (ref : Option ℕ)
    (href : ∀ m, ref = some m → m < d'.graph.length) :
    Within d'.graph (d'.graph.length + 1) ref := by
  have key : ∀ n, ∀ i ∈ t.visited, (t.visited.filter (i ≤ ·)).length ≤ n →
      Within d'.graph n (some (t.visited.idxOf i)) := by
    intro n
    induction n with
    | zero =>
      intro i hi hn
      have hmem : i ∈ t.visited.filter (i ≤ ·) := mem_filter.2 ⟨hi, by simp⟩
      exact absurd (length_pos_of_mem hmem) (by omega)
    | succ n ih =>
      intro i hi hn
      refine .step fun child hc => ?_
      rw [h.succ i hi] at hc
      rcases h.mem_parentsOf.1 hc with ⟨rfl, -⟩ | ⟨p, hp, hs, rfl⟩
      · exact .sink n
      refine ih p hp (Nat.le_of_lt_succ (lt_of_lt_of_le ?_ hn))
      have hip := hd p i hs
      have hsub : t.visited.filter (p ≤ ·) = (t.visited.filter (i ≤ ·)).filter (p ≤ ·) := by
        rw [filter_filter]
        refine filter_congr fun j _ => ?_
        simp only [← Bool.decide_and, decide_eq_decide]
        omega
      rw [hsub, length_filter_lt_length_iff_exists]
      exact ⟨i, mem_filter.2 ⟨hi, by simp⟩, by simpa using hip⟩
  obtain _ | m := ref
  · exact .sink _
  · obtain ⟨i, hi, rfl⟩ := h.exists_visited (href m rfl)
    refine (key _ i hi (length_filter_le _ _)).mono ?_
    rw [h.length]
    exact Nat.le_succ _

end Reversed

end ChromiumBase.MakeDafsa
