import ChromiumBase.Net.Tools.Dafsa.JoinSuffixes

/-!
# Joining labels

`join_labels` merges a node with its only child when the child has no other parent.  Which
nodes are merged does not matter for the words: the label of a new node is read along a path
of the old graph, and its children are those of the last node of the path.
-/

open List Option

namespace ChromiumBase.MakeDafsa

open WordGraph Labels

/-- The labels read on a path of only children from one node to another, both included. -/
inductive Chain (g : Graph ℕ) : ℕ → ℕ → List ℕ → Prop
  | single (i : ℕ) : Chain g i i (g.label i)
  | step {i c j : ℕ} {l : List ℕ} :
      g.succ i = [some c] → Chain g c j l → Chain g i j (g.label i ++ l)

variable {i j : ℕ} {l : List ℕ} {g : Graph ℕ}

theorem Chain.spells (h : Chain g i j l) {w : List ℕ} :
    Spells g (some i) w ↔ ∃ v, SpellsFrom g (g.succ j) v ∧ w = l ++ v := by
  induction h generalizing w with
  | single i => exact spells_some
  | @step i c j l hc _ ih =>
    rw [spells_some, hc]
    simp only [SpellsFrom, mem_singleton, exists_eq_left, ih]
    constructor
    · rintro ⟨u, ⟨v, hv, rfl⟩, rfl⟩
      exact ⟨v, hv, by simp⟩
    · rintro ⟨v, hv, rfl⟩
      exact ⟨l ++ v, ⟨v, hv, rfl⟩, by simp⟩

theorem Chain.label_prefix (h : Chain g i j l) : g.label i <+: l := by
  cases h with
  | single => exact prefix_rfl
  | step => exact prefix_append _ _

theorem Chain.lt_length (hg : Proper g) (h : Chain g i j l) (hi : i < g.length) : j < g.length := by
  induction h with
  | single => exact hi
  | @step i c j l hc _ ih => exact ih (hg.closed i c (by simp [hc]))

namespace Labels

def find (s : Labels) : Option ℕ → Option (Option ℕ)
  | none => some none
  | some i => (s.nodemap i).map some

structure Le (s s' : Labels) : Prop where
  graph : s.graph <+: s'.graph
  find : ∀ {c c'}, s.find c = some c' → s'.find c = some c'

theorem Le.refl (s : Labels) : Le s s :=
  ⟨prefix_rfl, fun h => h⟩

theorem Le.trans {s s' s'' : Labels} (h : Le s s') (h' : Le s' s'') : Le s s'' :=
  ⟨h.graph.trans h'.graph, fun hf => h'.find (h.find hf)⟩

def add (s : Labels) (i : ℕ) (node : Node ℕ) : Labels :=
  ⟨s.graph ++ [node], Function.update s.nodemap i (some s.graph.length)⟩

theorem find_add_self (s : Labels) (i : ℕ) (node : Node ℕ) :
    (s.add i node).find (some i) = some (some s.graph.length) := by
  simp [find, add]

theorem find_add_of_ne (s : Labels) {c : Option ℕ} (hc : c ≠ some i) (node : Node ℕ) :
    (s.add i node).find c = s.find c := by
  obtain _ | j := c
  · rfl
  · have hji : j ≠ i := fun h => hc (h ▸ rfl)
    simp [find, add, Function.update_of_ne hji]

theorem le_add {s : Labels} (hi : s.nodemap i = none) (node : Node ℕ) : Le s (s.add i node) := by
  refine ⟨prefix_append _ _, fun {c c'} hf => ?_⟩
  rw [find_add_of_ne s ?_ node, hf]
  rintro rfl
  simp [find, hi] at hf

end Labels

section Join

/-- The state of `join_labels`: a new node spells what the old one spells, and it was made
from a chain of old nodes. -/
structure Merged (g : Graph ℕ) (s : Labels) : Prop where
  descending : Descending s.graph
  valid : ∀ {c c'}, s.find c = some c' → Valid s.graph c'
  spells : ∀ {c c'}, s.find c = some c' → ∀ w, Spells s.graph c' w ↔ Spells g c w
  node : ∀ m < s.graph.length, ∃ i j, i < g.length ∧ s.find (some i) = some (some m) ∧
    Chain g i j (s.graph.label m) ∧
      List.Forall₂ (fun c c' => s.find c = some c') (g.succ j) (s.graph.succ m)
  made : ∀ i m, s.find (some i) = some (some m) → ∃ j, Chain g i j (s.graph.label m) ∧
      List.Forall₂ (fun c c' => s.find c = some c') (g.succ j) (s.graph.succ m)

theorem merged_start (g : Graph ℕ) : Merged g ⟨[], fun _ => none⟩ := by
  refine ⟨fun i c hc => ?_, fun {c c'} hf => ?_, fun {c c'} hf w => ?_, by simp, ?_⟩
  · simp [Graph.succ] at hc
  · obtain _ | i := c
    · obtain rfl : c' = none := by simpa [find] using hf.symm
      simp
    · simp [find] at hf
  · obtain _ | i := c
    · obtain rfl : c' = none := by simpa [find] using hf.symm
      simp
    · simp [find] at hf
  · intro i m hf
    simp [find] at hf

variable {n : ℕ} {s : Labels}

theorem joinedNode_chain (h : Merged g s) (parentcount : Option ℕ → Option ℕ)
    {children : List (Option ℕ)}
    (hc : List.Forall₂ (fun c c' => s.find c = some c') (g.succ i) children) :
    ∃ j, Chain g i j (joinedNode g parentcount s.graph i children).label ∧
      List.Forall₂ (fun c c' => s.find c = some c') (g.succ j)
        (joinedNode g parentcount s.graph i children).children := by
  have plain : ∃ j, Chain g i j (⟨g.label i, children⟩ : Node ℕ).label ∧
      List.Forall₂ (fun c c' => s.find c = some c') (g.succ j)
        (⟨g.label i, children⟩ : Node ℕ).children := ⟨i, .single i, hc⟩
  unfold joinedNode
  split
  · rename_i child node hs
    split
    · rw [hs, forall₂_cons] at hc
      obtain _ | c := child
      · simp [find] at hc
      obtain ⟨j, hch, hj⟩ := h.made c node hc.1
      exact ⟨j, .step hs hch, hj⟩
    · exact plain
  · exact plain

theorem Merged.add (h : Merged g s) (hi : i < g.length) (hn : s.nodemap i = none) {node : Node ℕ}
    {j : ℕ} (hch : Chain g i j node.label)
    (hj : List.Forall₂ (fun c c' => s.find c = some c') (g.succ j) node.children) :
    Merged g (s.add i node) := by
  have le := le_add hn node
  have below : ∀ c' ∈ node.children, Valid s.graph c' := by
    intro c' hc'
    obtain ⟨c, -, hf⟩ := exists_of_forall₂ hj hc'
    exact h.valid hf
  have cases : ∀ {c c'}, (s.add i node).find c = some c' →
      s.find c = some c' ∨ c = some i ∧ c' = some s.graph.length := by
    intro c c' hf
    by_cases hci : c = some i
    · subst hci
      rw [find_add_self] at hf
      exact .inr ⟨rfl, (some.inj hf).symm⟩
    · rw [find_add_of_ne s hci] at hf
      exact .inl hf
  have made : ∀ k m, (s.add i node).find (some k) = some (some m) →
      ∃ j, Chain g k j ((s.add i node).graph.label m) ∧
        List.Forall₂ (fun c c' => (s.add i node).find c = some c') (g.succ j)
          ((s.add i node).graph.succ m) := by
    intro k m hf
    rcases cases hf with hf | ⟨hk, hm⟩
    · obtain ⟨j, hc, hcs⟩ := h.made k m hf
      have hm : m < s.graph.length := h.valid hf m rfl
      rw [Labels.add, Graph.label_append_left hm, Graph.succ_append_left hm]
      exact ⟨j, hc, hcs.imp fun _ _ hcc => le.find hcc⟩
    · obtain rfl := some.inj hk
      obtain rfl := some.inj hm
      rw [add, Graph.label_concat_length, Graph.succ_concat_length]
      exact ⟨j, hch, hj.imp fun _ _ hcc => le.find hcc⟩
  refine ⟨h.descending.concat fun c hc => below (some c) hc c rfl, fun {c c'} hf => ?_,
    fun {c c'} hf w => ?_, fun m hm => ?_, made⟩
  · rcases cases hf with hf | ⟨-, rfl⟩
    · intro m hm
      exact lt_of_lt_of_le (h.valid hf m hm) le.graph.length_le
    · simp [Labels.add]
  · rcases cases hf with hf | ⟨rfl, rfl⟩
    · rw [← h.spells hf]
      exact spells_append_left h.descending (h.valid hf)
    · rw [hch.spells, Labels.add, spells_some, Graph.label_concat_length, Graph.succ_concat_length]
      have lists : ∀ v, SpellsFrom g (g.succ j) v ↔
          SpellsFrom (s.graph ++ [node]) node.children v := by
        refine fun v => spellsFrom_congr (hj.imp fun c c' hcc v => ?_)
        rw [spells_append_left h.descending (h.valid hcc), h.spells hcc]
      simp only [lists]
  · by_cases hm' : m < s.graph.length
    · obtain ⟨k, j, hk, hf, -⟩ := h.node m hm'
      obtain ⟨j, hc, hcs⟩ := made k m (le.find hf)
      exact ⟨k, j, hk, le.find hf, hc, hcs⟩
    · obtain rfl : m = s.graph.length := by
        rw [Labels.add, length_append, length_singleton] at hm
        omega
      obtain ⟨j, hc, hcs⟩ := made i _ (s.find_add_self i node)
      exact ⟨i, j, hi, s.find_add_self i node, hc, hcs⟩

/-- What joining `refs` to `nodes` does: entries are added only for the nodes of `refs` and
those below them. -/
structure MergeStep (g : Graph ℕ) (s s' : Labels) (refs nodes : List (Option ℕ)) : Prop where
  le : Le s s'
  merged : Merged g s'
  found : List.Forall₂ (fun c c' => s'.find c = some c') refs nodes
  new : ∀ k, s'.nodemap k = s.nodemap k ∨ ∃ i, some i ∈ refs ∧ k ≤ i

variable {ref node : Option ℕ}

theorem MergeStep.nil (h : Merged g s) : MergeStep g s s [] [] :=
  ⟨.refl s, h, .nil, fun _ => .inl rfl⟩

theorem MergeStep.cons {s' s'' : Labels} {refs nodes : List (Option ℕ)}
    (h : MergeStep g s s' [ref] [node]) (h' : MergeStep g s' s'' refs nodes) :
    MergeStep g s s'' (ref :: refs) (node :: nodes) := by
  refine ⟨h.le.trans h'.le, h'.merged, .cons ?_ h'.found, fun k => ?_⟩
  · exact h'.le.find (forall₂_cons.1 h.found).1
  · rcases h'.new k with hk | ⟨i, hi, hk⟩
    · rcases h.new k with hk' | ⟨i, hi, hk'⟩
      · exact .inl (hk.trans hk')
      · exact .inr ⟨i, mem_cons.2 (.inl (mem_singleton.1 hi)), hk'⟩
    · exact .inr ⟨i, mem_cons_of_mem ref hi, hk⟩

theorem MergeStep.of_find (h : Merged g s) (hf : s.find ref = some node) :
    MergeStep g s s [ref] [node] :=
  ⟨.refl s, h, .cons hf .nil, fun _ => .inl rfl⟩

variable (parentcount : Option ℕ → Option ℕ)

/-- Joining one reference, by induction over the nodes that its paths can pass. -/
theorem joinLabel_step (hd : Descending g) (hg : Proper g) (hn : Within g n ref) (hv : Valid g ref)
    (h : Merged g s) : ∃ node s', (joinLabel g parentcount n ref).run s = (node, s') ∧
      MergeStep g s s' [ref] [node] := by
  induction hn generalizing s with
  | sink n => exact ⟨none, s, by cases n <;> rfl, .of_find h rfl⟩
  | @step n i hc ih =>
    rcases eq_none_or_eq_some (s.nodemap i) with hf | ⟨m, hf⟩
    · obtain ⟨children, s', hrun, hst⟩ := run_mapM (MergeStep g) MergeStep.merged .nil .cons
        (fun c hcm s hs => ih c hcm (hg.valid hcm) hs) h
      -- The nodes joined for the children are all below `i`.
      have below : ∀ c, some c ∈ g.succ i → c < i := fun c hcm => hd i c hcm
      have hf' : s'.nodemap i = none := by
        rcases hst.new i with hk | ⟨c, hcm, hk⟩
        · rw [hk, hf]
        · exact absurd (below c hcm) (by omega)
      obtain ⟨j, hch, hj⟩ := joinedNode_chain hst.merged parentcount hst.found
      refine ⟨some s'.graph.length, s'.add i (joinedNode g parentcount s'.graph i children),
        by simp [joinLabel, hf, hrun]; rfl, hst.le.trans (le_add hf' _),
        hst.merged.add (hv i rfl) hf' hch hj,
        .cons (s'.find_add_self i _) .nil, fun k => ?_⟩
      by_cases hki : k = i
      · exact .inr ⟨i, mem_singleton.2 rfl, hki.le⟩
      · rcases hst.new k with hk | ⟨c, hcm, hk⟩
        · exact .inl ((Function.update_of_ne hki _ _).trans hk)
        · exact .inr ⟨i, mem_singleton.2 rfl, hk.trans (below c hcm).le⟩
    · exact ⟨some m, s, by simp [joinLabel, hf]; rfl, .of_find h (by simp [find, hf])⟩

end Join

/-- The result of `join_labels`.  `join` maps the references of the old DAFSA that were
joined to references of the new one. -/
structure LabelsJoined (d d' : Dafsa) (join : Option ℕ → Option (Option ℕ)) : Prop where
  descending : Descending d'.graph
  source : List.Forall₂ (fun c c' => join c = some c') d.source d'.source
  node : ∀ {i m}, join (some i) = some (some m) → ∃ j, Chain d.graph i j (d'.graph.label m) ∧
    List.Forall₂ (fun c c' => join c = some c') (d.graph.succ j) (d'.graph.succ m)
  surjective : ∀ m < d'.graph.length, ∃ i < d.graph.length, join (some i) = some (some m)
  valid : ∀ {c c'}, join c = some c' → Valid d'.graph c'
  spells : ∀ {c c'}, join c = some c' → ∀ w, Spells d'.graph c' w ↔ Spells d.graph c w
  sink : ∀ {c}, join none = some c → c = none

/-- `join_labels` keeps the words of every reference. -/
theorem joinLabels_joined {d : Dafsa} (hd : Descending d.graph) (hg : Proper d.graph)
    (hs : ∀ ref ∈ d.source, Valid d.graph ref) : ∃ join, LabelsJoined d (joinLabels d) join := by
  obtain ⟨source, s, hrun, hst⟩ := run_mapM (MergeStep d.graph) MergeStep.merged .nil .cons
    (fun ref href s h => joinLabel_step _ hd hg (hd.within_length ref) (hs ref href) h)
    (merged_start d.graph)
  have heq : joinLabels d = ⟨s.graph, source⟩ := by
    simp only [joinLabels]
    rw [hrun]
  rw [heq]
  refine ⟨s.find, hst.merged.descending, hst.found, hst.merged.made _ _,
    fun m hm => ?_, hst.merged.valid, hst.merged.spells,
    fun hc => (some.inj hc).symm⟩
  obtain ⟨i, -, hi, hf, -⟩ := hst.merged.node m hm
  exact ⟨i, hi, hf⟩

end ChromiumBase.MakeDafsa
