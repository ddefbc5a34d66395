import ChromiumBase.Net.Tools.Dafsa.MakeDafsa

/-!
# Joining the nodes with equal suffixes

`join_suffixes` makes one node for each set of words that a node of the old graph spells.
The new graph spells the same words, and two of its nodes never spell the same set.
-/

open List

namespace ChromiumBase.MakeDafsa

open WordGraph Suffixes

structure Proper (g : Graph ℕ) : Prop where
  label : ∀ i < g.length, g.label i ≠ []
  succ : ∀ i < g.length, g.succ i ≠ []
  closed : ∀ i c, some c ∈ g.succ i → c < g.length

def Valid (g : Graph ℕ) (ref : Option ℕ) : Prop :=
  ∀ i, ref = some i → i < g.length

@[simp] theorem valid_none (g : Graph ℕ) : Valid g none := by
  rintro i ⟨⟩

variable {g : Graph ℕ} {ref node : Option ℕ} {s'' s s' : Suffixes} {i n : ℕ} {ws : List (List ℕ)}

@[simp] theorem valid_some : Valid g (some i) ↔ i < g.length := by
  simp [Valid]

theorem Proper.valid (h : Proper g) {c : Option ℕ} (hc : c ∈ g.succ i) : Valid g c := by
  rintro j rfl
  exact h.closed i j hc

theorem Proper.exists_spells (h : Proper g) (hw : Within g n ref) (hv : Valid g ref) :
    ∃ w, Spells g ref w := by
  induction hw with
  | sink n => exact ⟨[], .sink⟩
  | @step n i _ ih =>
    obtain ⟨c, hc⟩ := exists_mem_of_ne_nil _ (h.succ i (hv i rfl))
    obtain ⟨w, hw⟩ := ih c hc (h.valid hc)
    exact ⟨g.label i ++ w, .step hc hw⟩

theorem mem_toWords (h : Within g n ref) {w : List ℕ} : w ∈ toWords g n ref ↔ Spells g ref w := by
  induction h generalizing w with
  | sink n => cases n <;> simp [toWords]
  | @step n i _ ih =>
    simp only [toWords, mem_flatMap, mem_map, spells_some]
    constructor
    · rintro ⟨c, hc, v, hv, rfl⟩
      exact ⟨v, ⟨c, hc, (ih c hc).1 hv⟩, rfl⟩
    · rintro ⟨v, ⟨c, hc, hv⟩, rfl⟩
      exact ⟨c, hc, v, (ih c hc).2 hv, rfl⟩

theorem sameWords_iff {a b : List (List ℕ)} : sameWords a b = true ↔ ∀ w, w ∈ a ↔ w ∈ b := by
  simp only [sameWords, Bool.and_eq_true, all_eq_true, contains_iff_mem]
  exact ⟨fun h w => ⟨h.1 w, h.2 w⟩, fun h => ⟨fun w => (h w).1, fun w => (h w).2⟩⟩

namespace Suffixes

theorem exists_of_find (h : s.find ws = some node) :
    ∃ entry ∈ s.nodemap, entry.2 = node ∧ ∀ w, w ∈ entry.1 ↔ w ∈ ws := by
  obtain ⟨entry, he, hn⟩ := Option.map_eq_some_iff.1 h
  have same : sameWords entry.1 ws = true := by simpa using find?_some he
  exact ⟨entry, mem_of_find?_eq_some he, hn, sameWords_iff.1 same⟩

theorem find_congr {ws' : List (List ℕ)} (h : ∀ w, w ∈ ws ↔ w ∈ ws') : s.find ws = s.find ws' := by
  have hp : (fun entry : List (List ℕ) × Option ℕ => sameWords entry.1 ws) =
      fun entry => sameWords entry.1 ws' := by
    funext entry
    rw [Bool.eq_iff_iff, sameWords_iff, sameWords_iff]
    simp only [h]
  rw [find, find, hp]

/-- Nodes and entries are only ever added. -/
structure Le (s s' : Suffixes) : Prop where
  graph : s.graph <+: s'.graph
  nodemap : s.nodemap <+: s'.nodemap

theorem Le.refl (s : Suffixes) : Le s s :=
  ⟨prefix_rfl, prefix_rfl⟩

theorem Le.trans (h : Le s s') (h' : Le s' s'') : Le s s'' :=
  ⟨h.graph.trans h'.graph, h.nodemap.trans h'.nodemap⟩

theorem Le.find (h : Le s s') (hf : s.find ws = some node) : s'.find ws = some node := by
  obtain ⟨more, hm⟩ := h.nodemap
  obtain ⟨entry, he, rfl⟩ := Option.map_eq_some_iff.1 hf
  simp [find, ← hm, he]

theorem le_add (s : Suffixes) (ws : List (List ℕ)) (node : Node ℕ) : Le s (s.add ws node) :=
  ⟨prefix_append _ _, prefix_append _ _⟩

theorem find_add (h : s.find ws = none) (node : Node ℕ) :
    (s.add ws node).find ws = some (some s.graph.length) := by
  have hn : s.nodemap.find? (fun entry => sameWords entry.1 ws) = none := by
    simpa [find] using h
  have hs : sameWords ws ws = true := sameWords_iff.2 fun _ => Iff.rfl
  simp [find, add, hn, hs]

end Suffixes

section Join

abbrev suffixesOf (g : Graph ℕ) (ref : Option ℕ) : List (List ℕ) :=
  toWords g (g.length + 1) ref

/-- The state of `join_suffixes`: every entry of the dictionary is spelled by its node, and
every node was made for a node of the old graph. -/
structure Joined (g : Graph ℕ) (s : Suffixes) : Prop where
  sink : s.find [[]] = some none
  descending : Descending s.graph
  valid : ∀ entry ∈ s.nodemap, Valid s.graph entry.2
  spells : ∀ entry ∈ s.nodemap, ∀ w, Spells s.graph entry.2 w ↔ w ∈ entry.1
  node : ∀ m < s.graph.length, ∃ i < g.length,
    s.find (suffixesOf g (some i)) = some (some m) ∧ s.graph.label m = g.label i ∧
      List.Forall₂ (fun c c' => s.find (suffixesOf g c) = some c') (g.succ i) (s.graph.succ m)

theorem joined_start (g : Graph ℕ) : Joined g ⟨[], [([[]], none)]⟩ := by
  refine ⟨rfl, ?_, by simp, by simp, by simp⟩
  intro i c hc
  simp [Graph.succ] at hc

variable {children : List (Option ℕ)} {w : List ℕ}

theorem Joined.valid_of_find (h : Joined g s) (hf : s.find ws = some node) :
    Valid s.graph node := by
  obtain ⟨entry, he, rfl, -⟩ := exists_of_find hf
  exact h.valid entry he

theorem Joined.spells_of_find (h : Joined g s) (hf : s.find ws = some node) :
    Spells s.graph node w ↔ w ∈ ws := by
  obtain ⟨entry, he, rfl, hw⟩ := exists_of_find hf
  rw [h.spells entry he, hw]

section

variable (h : Joined g s) (hw : ∀ ref, Valid g ref → Within g (g.length + 1) ref) (hg : Proper g)
  (hi : i < g.length)
  (hc : List.Forall₂ (fun c c' => s.find (suffixesOf g c) = some c') (g.succ i) children)

include h hw hg hi hc

theorem Joined.spells_new : Spells (s.graph ++ [⟨g.label i, children⟩]) (some s.graph.length) w ↔
      w ∈ suffixesOf g (some i) := by
  rw [mem_toWords (hw (some i) (by simpa using hi)), spells_some, spells_some,
    Graph.label_concat_length, Graph.succ_concat_length]
  have lists : ∀ v, SpellsFrom g (g.succ i) v ↔
      SpellsFrom (s.graph ++ [⟨g.label i, children⟩]) children v := by
    intro v
    refine spellsFrom_congr ?_
    refine ((forall₂_and_left _ _).2 ⟨fun c hcm => hcm, hc⟩).imp ?_
    rintro c c' ⟨hcm, hf⟩ v
    rw [spells_append_left h.descending (h.valid_of_find hf), h.spells_of_find hf,
      mem_toWords (hw c (hg.valid hcm))]
  simp only [lists]

theorem Joined.add (hf : s.find (suffixesOf g (some i)) = none) :
    Joined g (s.add (suffixesOf g (some i)) ⟨g.label i, children⟩) := by
  have le := s.le_add (suffixesOf g (some i)) ⟨g.label i, children⟩
  have below : ∀ c' ∈ children, Valid s.graph c' := by
    intro c' hc'
    obtain ⟨c, -, hf⟩ := exists_of_forall₂ hc hc'
    exact h.valid_of_find hf
  have old : ∀ m < (s.graph ++ [(⟨g.label i, children⟩ : Node ℕ)]).length,
      m < s.graph.length ∨ m = s.graph.length := by
    intro m hm
    rw [length_append, length_singleton] at hm
    omega
  refine ⟨le.find h.sink, h.descending.concat fun c hc => below (some c) hc c rfl,
    fun entry he => ?_, fun entry he w => ?_, fun m hm => ?_⟩
  · rcases mem_append.1 he with he | he
    · intro m hm
      exact lt_of_lt_of_le (h.valid entry he m hm) le.graph.length_le
    · obtain rfl := mem_singleton.1 he
      simp [Suffixes.add]
  · rcases mem_append.1 he with he | he
    · rw [← h.spells entry he]
      exact spells_append_left h.descending (h.valid entry he)
    · obtain rfl := mem_singleton.1 he
      exact h.spells_new hw hg hi hc
  · rcases old m hm with hm | rfl
    · obtain ⟨j, hj, hfj, hl, hcs⟩ := h.node m hm
      refine ⟨j, hj, le.find hfj, ?_, ?_⟩
      · rw [Suffixes.add, Graph.label_append_left hm, hl]
      · rw [Suffixes.add, Graph.succ_append_left hm]
        exact hcs.imp fun _ _ hcc => le.find hcc
    · refine ⟨i, hi, find_add hf _, ?_, ?_⟩
      · rw [Suffixes.add, Graph.label_concat_length]
      · rw [Suffixes.add, Graph.succ_concat_length]
        exact hc.imp fun _ _ hcc => le.find hcc

end

/-- What joining `refs` to `nodes` does: the entries it adds are those of word sets all of
whose words end a word of `refs`. -/
structure JoinStep (g : Graph ℕ) (s s' : Suffixes) (refs nodes : List (Option ℕ)) : Prop where
  le : Le s s'
  joined : Joined g s'
  found : List.Forall₂ (fun c c' => s'.find (suffixesOf g c) = some c') refs nodes
  new : ∀ entry ∈ s'.nodemap, entry ∈ s.nodemap ∨
    ∀ w ∈ entry.1, ∃ u, SpellsFrom g refs (u ++ w)

theorem joinSuffix_run_found (h : s.find (suffixesOf g ref) = some node) :
    (joinSuffix g (n + 1) ref).run s = (node, s) := by
  have h' : s.find (toWords g (g.length + 1) ref) = some node := h
  simp [joinSuffix, h']
  rfl

theorem joinSuffix_run_new (h : s.find (suffixesOf g (some i)) = none)
    (hc : ((g.succ i).mapM (joinSuffix g n)).run s = (children, s')) :
    (joinSuffix g (n + 1) (some i)).run s =
      (some s'.graph.length, s'.add (suffixesOf g (some i)) ⟨g.label i, children⟩) := by
  have h' : s.find (toWords g (g.length + 1) (some i)) = none := h
  simp [joinSuffix, h', hc]
  rfl

theorem JoinStep.nil (h : Joined g s) : JoinStep g s s [] [] :=
  ⟨.refl s, h, .nil, fun _ he => .inl he⟩

theorem JoinStep.of_find (h : Joined g s) (hf : s.find (suffixesOf g ref) = some node) :
    JoinStep g s s [ref] [node] :=
  ⟨.refl s, h, .cons hf .nil, fun _ he => .inl he⟩

theorem JoinStep.cons {refs nodes : List (Option ℕ)} (h : JoinStep g s s' [ref] [node])
    (h' : JoinStep g s' s'' refs nodes) : JoinStep g s s'' (ref :: refs) (node :: nodes) := by
  refine ⟨h.le.trans h'.le, h'.joined, .cons ?_ h'.found, fun entry he => ?_⟩
  · exact h'.le.find (forall₂_cons.1 h.found).1
  · rcases h'.new entry he with he | hw
    · rcases h.new entry he with he | hw
      · exact .inl he
      · refine .inr fun w hwe => ?_
        obtain ⟨u, r, hr, hu⟩ := hw w hwe
        exact ⟨u, r, mem_cons.2 (.inl (mem_singleton.1 hr)), hu⟩
    · refine .inr fun w hwe => ?_
      obtain ⟨u, r, hr, hu⟩ := hw w hwe
      exact ⟨u, r, mem_cons_of_mem ref hr, hu⟩

/-- The set of words of a node is not among those that joining its children adds, since each
of these words continues to a longer one of the node. -/
theorem JoinStep.find_eq_none (h : JoinStep g s s' (g.succ i) children) (hg : Proper g)
    (hi : i < g.length) (hw : Within g (g.length + 1) (some i))
    (hf : s.find (suffixesOf g (some i)) = none) : s'.find (suffixesOf g (some i)) = none := by
  by_contra hne
  obtain ⟨node, hn⟩ := Option.ne_none_iff_exists'.1 hne
  obtain ⟨entry, he, -, hs⟩ := exists_of_find hn
  rcases h.new entry he with he | hl
  · have hall := find?_eq_none.1 (Option.map_eq_none_iff.1 hf) entry he
    exact hall (sameWords_iff.2 hs)
  have grow : ∀ k, ∃ w ∈ suffixesOf g (some i), k ≤ w.length := by
    intro k
    induction k with
    | zero =>
      obtain ⟨w, hsp⟩ := hg.exists_spells hw (by simpa using hi)
      exact ⟨w, (mem_toWords hw).2 hsp, Nat.zero_le _⟩
    | succ k ih =>
      obtain ⟨w, hwi, hk⟩ := ih
      obtain ⟨u, hu⟩ := hl w ((hs w).2 hwi)
      refine ⟨_, (mem_toWords hw).2 (spells_some.2 ⟨u ++ w, hu, rfl⟩), ?_⟩
      have hpos := length_pos_iff.2 (hg.label i hi)
      simp only [length_append]
      omega
  obtain ⟨w, hwi, hlen⟩ := grow ((suffixesOf g (some i)).flatten.length + 1)
  have := (sublist_flatten_of_mem hwi).length_le
  omega

/-- Joining one reference, by induction over the nodes that its paths can pass. -/
theorem joinSuffix_step (hw : ∀ ref, Valid g ref → Within g (g.length + 1) ref) (hg : Proper g)
    (hn : Within g n ref) (hv : Valid g ref) (h : Joined g s) :
    ∃ node s', (joinSuffix g (n + 1) ref).run s = (node, s') ∧ JoinStep g s s' [ref] [node] := by
  induction hn generalizing s with
  | sink n => exact ⟨none, s, joinSuffix_run_found h.sink, .of_find h h.sink⟩
  | @step n i hc ih =>
    rcases Option.eq_none_or_eq_some (s.find (suffixesOf g (some i))) with hf | ⟨node, hf⟩
    · have hi : i < g.length := hv i rfl
      obtain ⟨children, s', hrun, hst⟩ := run_mapM (JoinStep g) JoinStep.joined .nil .cons
        (fun c hcm s hs => ih c hcm (hg.valid hcm) hs) h
      have hf' := hst.find_eq_none hg hi (hw (some i) hv) hf
      refine ⟨_, _, joinSuffix_run_new hf hrun, hst.le.trans (s'.le_add _ _),
        hst.joined.add hw hg hi hst.found hf', .cons (find_add hf' _) .nil, ?_⟩
      intro entry he
      rcases mem_append.1 he with he | he
      · rcases hst.new entry he with he | hl
        · exact .inl he
        · refine .inr fun w hwe => ?_
          obtain ⟨u, hu⟩ := hl w hwe
          refine ⟨g.label i ++ u, some i, mem_singleton.2 rfl, ?_⟩
          exact spells_some.2 ⟨u ++ w, hu, by simp⟩
      · obtain rfl := mem_singleton.1 he
        refine .inr fun w hwe => ⟨[], some i, mem_singleton.2 rfl, ?_⟩
        exact (mem_toWords (hw (some i) hv)).1 hwe
    · exact ⟨node, s, joinSuffix_run_found hf, .of_find h hf⟩

end Join

/-- The result of `join_suffixes`.  `join` maps the references of the old DAFSA that were
joined to references of the new one. -/
structure SuffixesJoined (d d' : Dafsa) (join : Option ℕ → Option (Option ℕ)) : Prop where
  descending : Descending d'.graph
  source : List.Forall₂ (fun c c' => join c = some c') d.source d'.source
  node : ∀ m < d'.graph.length, ∃ i < d.graph.length, join (some i) = some (some m) ∧
    d'.graph.label m = d.graph.label i ∧
      List.Forall₂ (fun c c' => join c = some c') (d.graph.succ i) (d'.graph.succ m)
  valid : ∀ {c c'}, join c = some c' → Valid d'.graph c'
  spells : ∀ {c c'}, Valid d.graph c → join c = some c' →
    ∀ w, Spells d'.graph c' w ↔ Spells d.graph c w
  congr : ∀ {c c'}, Valid d.graph c → Valid d.graph c' →
    (∀ w, Spells d.graph c w ↔ Spells d.graph c' w) → join c = join c'

/-- `join_suffixes` keeps the words of every reference. -/
theorem joinSuffixes_joined {d : Dafsa} (hg : Proper d.graph)
    (hw : ∀ ref, Valid d.graph ref → Within d.graph (d.graph.length + 1) ref)
    (hs : ∀ ref ∈ d.source, Valid d.graph ref) :
    ∃ join, SuffixesJoined d (joinSuffixes d) join := by
  obtain ⟨source, s, hrun, hst⟩ := run_mapM (JoinStep d.graph) JoinStep.joined .nil .cons
    (fun ref href s h => joinSuffix_step hw hg (hw ref (hs ref href)) (hs ref href) h)
    (joined_start d.graph)
  have heq : joinSuffixes d = ⟨s.graph, source⟩ := by
    simp only [joinSuffixes]
    rw [hrun]
  rw [heq]
  refine ⟨fun c => s.find (suffixesOf d.graph c), hst.joined.descending, hst.found,
    hst.joined.node, hst.joined.valid_of_find, ?_, ?_⟩
  · intro c c' hc hf w
    rw [hst.joined.spells_of_find hf, mem_toWords (hw c hc)]
  · intro c c' hc hc' hsa
    refine find_congr fun w => ?_
    rw [mem_toWords (hw c hc), mem_toWords (hw c' hc'), hsa]

end ChromiumBase.MakeDafsa
