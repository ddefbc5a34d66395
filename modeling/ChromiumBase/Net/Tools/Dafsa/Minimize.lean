import ChromiumBase.Net.Tools.Dafsa.JoinLabels
import ChromiumBase.Net.Tools.Dafsa.Reverse
import ChromiumBase.Net.Tools.Dafsa.ToDafsa

/-!
# Minimizing the graph

The passes between `to_dafsa` and `encode`.  Reversing the threads of the words and joining
equal suffixes leaves one node for each reversed prefix of a word, so that reversing again
gives a tree in which the children of a node start with different characters.  The last two
joins keep that, and every pass keeps the words.
-/

open List

namespace ChromiumBase.MakeDafsa

open WordGraph

variable {d d' : Dafsa} {join : Option ℕ → Option (Option ℕ)}

section Words

variable {g : Graph ℕ} {ref : Option ℕ}

theorem Proper.spells_nil_iff (h : Proper g) (hv : Valid g ref) : Spells g ref [] ↔ ref = none := by
  constructor
  · intro hs
    obtain _ | i := ref
    · rfl
    · obtain ⟨v, -, heq⟩ := spells_some.1 hs
      exact absurd (append_eq_nil_iff.1 heq.symm).1 (h.label i (hv i rfl))
  · rintro rfl
    exact .sink

theorem Proper.first_eq (h : Proper g) (hv : Valid g ref) {w : List ℕ} (hs : Spells g ref w) :
    first g ref = w.head? := by
  obtain _ | i := ref
  · rw [spells_none.1 hs]
    rfl
  · obtain ⟨v, -, rfl⟩ := spells_some.1 hs
    rw [first, head?_append_of_ne_nil _ (h.label i (hv i rfl))]

end Words

/-- What a join of nodes leaves as it was: the sink, the first characters, the words. -/
structure Keeps (d d' : Dafsa) (join : Option ℕ → Option (Option ℕ)) : Prop where
  proper : Proper d.graph
  proper' : Proper d'.graph
  within : ∀ ref, Valid d.graph ref → Within d.graph (d.graph.length + 1) ref
  valid : ∀ {c c'}, join c = some c' → Valid d'.graph c'
  spells : ∀ {c c'}, Valid d.graph c → join c = some c' →
    ∀ w, Spells d'.graph c' w ↔ Spells d.graph c w

namespace Keeps

theorem eq_none_iff (h : Keeps d d' join) {c c' : Option ℕ} (hv : Valid d.graph c)
    (hj : join c = some c') : c' = none ↔ c = none := by
  rw [← h.proper'.spells_nil_iff (h.valid hj), ← h.proper.spells_nil_iff hv, h.spells hv hj]

theorem first_eq (h : Keeps d d' join) {c c' : Option ℕ} (hv : Valid d.graph c)
    (hj : join c = some c') : first d'.graph c' = first d.graph c := by
  obtain ⟨w, hw⟩ := h.proper.exists_spells (h.within c hv) hv
  rw [h.proper.first_eq hv hw, h.proper'.first_eq (h.valid hj) ((h.spells hv hj w).2 hw)]

variable {refs refs' : List (Option ℕ)}

section

variable (h : Keeps d d' join) (hv : ∀ c ∈ refs, Valid d.graph c)
  (hj : List.Forall₂ (fun c c' => join c = some c') refs refs')

include h hv hj

theorem distinct (hd : Distinct d.graph refs) : Distinct d'.graph refs' := by
  refine pairwise_of_forall₂ hj hd fun a ha a' ha' b b' hne hb hb' => ?_
  rwa [h.first_eq (hv a ha) hb, h.first_eq (hv a' ha') hb']

theorem none_mem_iff (hn : none ∉ refs) : none ∉ refs' := by
  intro hmem
  obtain ⟨c, hc, hcj⟩ := exists_of_forall₂ hj hmem
  exact hn ((h.eq_none_iff (hv c hc) hcj).1 rfl ▸ hc)

end

theorem eq_singleton_none (h : Keeps d d' join)
    (hj : List.Forall₂ (fun c c' => join c = some c') [none] refs') : refs' = [none] := by
  obtain ⟨c', rest, hc', hr, rfl⟩ := forall₂_cons_left_iff.1 hj
  rw [forall₂_nil_left_iff.1 hr, (h.eq_none_iff (valid_none _) hc').2 rfl]

theorem spellsFrom (h : Keeps d d' join) (hv : ∀ c ∈ refs, Valid d.graph c)
    (hj : List.Forall₂ (fun c c' => join c = some c') refs refs') (w : List ℕ) :
    SpellsFrom d'.graph refs' w ↔ SpellsFrom d.graph refs w := by
  refine (spellsFrom_congr (((forall₂_and_left _ _).2 ⟨hv, hj⟩).imp ?_)).symm
  rintro c c' ⟨hc, hcj⟩ w
  exact (h.spells hc hcj w).symm

end Keeps

theorem Proper.joined {d d' : Dafsa} (h : Proper d.graph) (join : Option ℕ → Option (Option ℕ))
    (hv : ∀ {c c'}, join c = some c' → Valid d'.graph c')
    (hm : ∀ m < d'.graph.length, d'.graph.label m ≠ [] ∧ ∃ j < d.graph.length,
      List.Forall₂ (fun c c' => join c = some c') (d.graph.succ j) (d'.graph.succ m)) :
    Proper d'.graph := by
  refine ⟨fun m hlt => (hm m hlt).1, fun m hlt => ?_, fun m c hc => ?_⟩
  · obtain ⟨-, j, hj, hs⟩ := hm m hlt
    exact ne_nil_of_forall₂ hs (h.succ j hj)
  · obtain ⟨-, j, -, hs⟩ := hm m (Graph.lt_length_of_mem_succ hc)
    obtain ⟨c₀, -, hj⟩ := exists_of_forall₂ hs hc
    exact hv hj c rfl

theorem Reversed.proper {d d' : Dafsa} {t : Trail} (h : Reversed d d' t)
    (hl : ∀ i ∈ t.visited, d.graph.label i ≠ []) : Proper d'.graph := by
  refine ⟨fun m hm => ?_, fun m hm => ?_, fun _ _ => h.closed⟩
  · obtain ⟨i, hi, rfl⟩ := h.exists_visited hm
    simpa [h.label i hi] using hl i hi
  · obtain ⟨i, hi, rfl⟩ := h.exists_visited hm
    rw [h.succ i hi]
    exact ne_nil_of_mem (h.exists_parent hi).choose_spec

theorem SuffixesJoined.keeps {d d' : Dafsa} {join : Option ℕ → Option (Option ℕ)}
    (h : SuffixesJoined d d' join) (hg : Proper d.graph)
    (hw : ∀ ref, Valid d.graph ref → Within d.graph (d.graph.length + 1) ref) :
    Keeps d d' join := by
  refine ⟨hg, hg.joined join h.valid fun m hm => ?_, hw, h.valid, h.spells⟩
  obtain ⟨i, hi, -, hl, hs⟩ := h.node m hm
  exact ⟨hl ▸ hg.label i hi, i, hi, hs⟩

/-- Every node has one character and one child.  The source refers to the return values, and
only to them, and no two references of it spell the same words. -/
structure Backward (d : Dafsa) : Prop where
  proper : Proper d.graph
  within : ∀ ref, Valid d.graph ref → Within d.graph (d.graph.length + 1) ref
  single : ∀ i < d.graph.length, ∃ c, d.graph.succ i = [c]
  label : ∀ i < d.graph.length, ∃ x, d.graph.label i = [x]
  child : ∀ i c, some c ∈ d.graph.succ i → ∃ x, 0x20 ≤ x ∧ x < 0x80 ∧ d.graph.label c = [x]
  value : ∀ ref ∈ d.source, ∃ s < d.graph.length, ref = some s ∧
    ∃ v < 0x20, d.graph.label s = [v]
  words : d.source.Pairwise fun a b => ¬ ∀ w, Spells d.graph a w ↔ Spells d.graph b w
  ne_nil : d.source ≠ []

namespace Backward

theorem valid (h : Backward d) {ref : Option ℕ} (href : ref ∈ d.source) : Valid d.graph ref := by
  obtain ⟨s, hs, rfl, -⟩ := h.value ref href
  simpa using hs

theorem none_notMem (h : Backward d) : none ∉ d.source := by
  intro hn
  obtain ⟨s, -, heq, -⟩ := h.value none hn
  cases heq

theorem nodup (h : Backward d) : d.source.Nodup :=
  h.words.imp fun hne heq => hne fun w => by rw [heq]

end Backward

theorem Threads.none_notMem (h : Threads d) : none ∉ d.source := by
  intro hn
  obtain ⟨s, -, heq⟩ := h.source none hn
  cases heq

theorem Threads.reaches (h : Threads d) {p : ℕ} {u : List ℕ} (hr : Reaches d.graph d.source p u) :
    ∃ s, some s ∈ d.source ∧ p ≤ s ∧ (∀ j, p < j → j ≤ s → none ∉ d.graph.succ j) ∧
      ∀ v, SpellsFrom d.graph (d.graph.succ p) v → Spells d.graph (some s) (u ++ v) := by
  induction hr with
  | @source i hi =>
    refine ⟨i, hi, le_rfl, fun j hj hj' => by omega, fun v hv => ?_⟩
    exact spells_some.2 ⟨v, hv, rfl⟩
  | @step p i u _ hsu ih =>
    obtain ⟨s, hs, hle, hno, hsp⟩ := ih
    have hp := Graph.lt_length_of_mem_succ hsu
    obtain ⟨hend, -⟩ | ⟨hpos, hpr, -⟩ := h.succ p hp
    · simp [hend] at hsu
    obtain rfl : i = p - 1 := by simpa [hpr] using hsu
    refine ⟨s, hs, by omega, fun j hj hj' => ?_, fun v hv => ?_⟩
    · rcases Nat.eq_or_lt_of_le (show p ≤ j by omega) with rfl | hlt
      · simp [hpr]
      · exact hno j hlt hj'
    · rw [append_assoc]
      exact hsp _ ⟨some (p - 1), hsu, spells_some.2 ⟨v, hv, rfl⟩⟩

theorem Threads.eq_of_mem_succ (h : Threads d) {i p : ℕ} (hi : some i ∈ d.graph.succ p) :
    p = i + 1 := by
  obtain ⟨hend, -⟩ | ⟨hpos, hp, -⟩ := h.succ p (Graph.lt_length_of_mem_succ hi)
  · simp [hend] at hi
  · obtain rfl : i = p - 1 := by simpa [hp] using hi
    omega

/-- The threads read backwards start with the return values. -/
theorem Threads.reverse (h : Threads d) (hne : d.source ≠ [])
    (hspe : ∀ ref ∈ d.source, ∃ w, Spells d.graph ref w)
    (hwo : d.source.Pairwise fun a b => ∀ w, Spells d.graph a w → ¬ Spells d.graph b w) :
    Backward (MakeDafsa.reverse d) := by
  have hrev := reverse_reversed fun ref _ => h.descending.within_length ref
  set t := followFrom d.graph (d.graph.length + 1) d.source
  set d' := MakeDafsa.reverse d
  have hin : ∀ i ∈ t.visited, i < d.graph.length := by
    intro i hi
    refine hrev.complete.visited_lt (fun i hi => ?_) (fun p i hi => ?_) hi
    · obtain ⟨s, hs, heq⟩ := h.source _ hi
      exact Option.some.inj heq ▸ hs
    · exact lt_trans (h.descending p i hi) (Graph.lt_length_of_mem_succ hi)
  have hnod : d.source.Nodup := by
    refine hwo.imp_of_mem fun {a b} ha _ hno heq => ?_
    obtain ⟨w, hw⟩ := hspe a ha
    exact hno w hw (heq ▸ hw)
  have hsu : ∀ p ∈ t.visited, (d.graph.succ p).Nodup := by
    intro p hp
    obtain ⟨hend, -⟩ | ⟨-, hpre, -⟩ := h.succ p (hin p hp)
    · simp [hend]
    · simp [hpre]
  have hpa := hrev.parentsOf_nodup hnod hsu
  have hla : ∀ i ∈ t.visited, ∀ x, d.graph.label i = [x] →
      d'.graph.label (t.visited.idxOf i) = [x] := by
    intro i hi x hx
    rw [hrev.label i hi, hx, reverse_singleton]
  have hch : ∀ i < d'.graph.length, ∃ x, d'.graph.label i = [x] := by
    intro m hm
    obtain ⟨i, hi, rfl⟩ := hrev.exists_visited hm
    obtain ⟨-, v, -, hv⟩ | ⟨-, -, c, -, -, hc⟩ := h.succ i (hin i hi)
    · exact ⟨v, hla i hi v hv⟩
    · exact ⟨c, hla i hi c hc⟩
  have hpr : Proper d'.graph := by
    refine hrev.proper fun i hi => ?_
    obtain ⟨-, v, -, hv⟩ | ⟨-, -, c, -, -, hc⟩ := h.succ i (hin i hi)
    · simp [hv]
    · simp [hc]
  have hso : ∀ ref ∈ d'.source, ∃ p ∈ t.visited, d.graph.succ p = [none] ∧
      (∃ v < 0x20, d.graph.label p = [v]) ∧ ref = some (t.visited.idxOf p) := by
    intro ref href
    rw [hrev.source] at href
    rcases hrev.mem_parentsOf.1 href with ⟨-, hn⟩ | ⟨p, hp, hsp, rfl⟩
    · exact absurd hn h.none_notMem
    obtain ⟨hend, hv⟩ | ⟨-, hpre, -⟩ := h.succ p (hin p hp)
    · exact ⟨p, hp, hend, hv, rfl⟩
    · simp [hpre] at hsp
  refine ⟨hpr, hrev.within h.descending, ?_, hch, ?_, ?_, ?_, ?_⟩
  · intro m hm
    obtain ⟨i, hi, rfl⟩ := hrev.exists_visited hm
    rw [hrev.succ i hi]
    obtain ⟨r, hmem⟩ := hrev.exists_parent hi
    -- A node is the child of the next one or of the source, never of both.
    refine ⟨r, eq_singleton_of_nodup (hpa (some i)) hmem fun q hq => ?_⟩
    rcases hrev.mem_parentsOf.1 hq with ⟨rfl, hs⟩ | ⟨p, -, hp, rfl⟩ <;>
      rcases hrev.mem_parentsOf.1 hmem with ⟨heq, hs'⟩ | ⟨p', -, hp', heq⟩
    · exact heq.symm
    · exact absurd (h.eq_of_mem_succ hp' ▸ hp') (h.top i hs)
    · exact absurd (h.eq_of_mem_succ hp ▸ hp) (h.top i hs')
    · rw [heq, h.eq_of_mem_succ hp, h.eq_of_mem_succ hp']
  · intro m c hc
    obtain ⟨i, hi, rfl⟩ := hrev.exists_visited (Graph.lt_length_of_mem_succ hc)
    rw [hrev.succ i hi] at hc
    rcases hrev.mem_parentsOf.1 hc with ⟨hn, -⟩ | ⟨p, hp, hsp, heq⟩
    · cases hn
    obtain rfl := Option.some.inj heq
    obtain ⟨hend, -⟩ | ⟨-, -, x, hx, hx', hl⟩ := h.succ p (hin p hp)
    · simp [hend] at hsp
    · exact ⟨x, hx, hx', hla p hp x hl⟩
  · intro ref href
    obtain ⟨p, hp, -, ⟨v, hv, hl⟩, rfl⟩ := hso ref href
    exact ⟨_, hrev.idxOf_lt hp, rfl, v, hv, hla p hp v hl⟩
  · have hnd : d'.source.Nodup := by
      rw [hrev.source]
      exact hpa none
    refine hnd.imp_of_mem fun {a b} ha hb hab hsa => hab ?_
    obtain ⟨p, hp, hend, -, rfl⟩ := hso a ha
    obtain ⟨q, hq, hend', -, rfl⟩ := hso b hb
    have hvp := valid_some.2 (hrev.idxOf_lt hp)
    obtain ⟨w, hw⟩ := hpr.exists_spells (hrev.within h.descending _ hvp) hvp
    obtain ⟨s, hs, hle, hno, hu⟩ := h.reaches ((hrev.spells_iff hp).1 hw)
    obtain ⟨s', hs', hle', hno', hu'⟩ := h.reaches ((hrev.spells_iff hq).1 ((hsa w).1 hw))
    have hws := hu [] ⟨none, by simp [hend], .sink⟩
    have hws' := hu' [] ⟨none, by simp [hend'], .sink⟩
    obtain rfl : s = s' := by
      by_contra hne
      have : Std.Symm fun a b => ∀ w, Spells d.graph a w → ¬ Spells d.graph b w :=
        ⟨fun _ _ h w hw hw' => h w hw' hw⟩
      exact hwo.forall hs hs' (fun heq => hne (Option.some.inj heq)) _ hws hws'
    rcases Nat.lt_trichotomy p q with hpq | rfl | hqp
    · exact absurd (by simp [hend']) (hno q hpq hle')
    · rfl
    · exact absurd (by simp [hend]) (hno' p hqp hle)
  · obtain ⟨ref, href⟩ := exists_mem_of_ne_nil _ hne
    obtain ⟨w, hw⟩ := hspe ref href
    exact hrev.source_ne_nil h.none_notMem ⟨ref, href, hw⟩

def Reduced (g : Graph ℕ) : Prop :=
  ∀ m < g.length, ∀ m' < g.length, (∀ w, Spells g (some m) w ↔ Spells g (some m') w) → m = m'

theorem SuffixesJoined.reduced (h : SuffixesJoined d d' join) : Reduced d'.graph := by
  intro m hm m' hm' hs
  obtain ⟨i, hi, hj, -⟩ := h.node m hm
  obtain ⟨i', hi', hj', -⟩ := h.node m' hm'
  have hc : join (some i) = join (some i') := by
    refine h.congr (valid_some.2 hi) (valid_some.2 hi') fun w => ?_
    rw [← h.spells (valid_some.2 hi) hj w, ← h.spells (valid_some.2 hi') hj' w]
    exact hs w
  rw [hj, hj'] at hc
  simpa using hc

/-- Joining suffixes keeps this shape. -/
theorem Backward.joinSuffixes (h : Backward d) (hj : SuffixesJoined d d' join) : Backward d' := by
  have hk := hj.keeps h.proper h.within
  have hla : ∀ m < d'.graph.length, ∃ x, d'.graph.label m = [x] := by
    intro m hm
    obtain ⟨i, hi, -, hl, -⟩ := hj.node m hm
    rw [hl]
    exact h.label i hi
  -- The label of a joined node is its first character.
  have hsa : ∀ i m x, i < d.graph.length → join (some i) = some (some m) →
      d.graph.label i = [x] → d'.graph.label m = [x] := by
    intro i m x hi hjo hx
    obtain ⟨y, hy⟩ := hla m (hj.valid hjo m rfl)
    have hf := hk.first_eq (valid_some.2 hi) hjo
    rw [first, first, hx, hy] at hf
    obtain rfl : y = x := by simpa using hf
    exact hy
  refine ⟨hk.proper', fun ref _ => hj.descending.within_length ref, ?_, hla, ?_, ?_, ?_, ?_⟩
  · intro m hm
    obtain ⟨i, hi, -, -, hs⟩ := hj.node m hm
    obtain ⟨c, hc⟩ := h.single i hi
    rw [hc] at hs
    obtain ⟨c', rest, -, hr, heq⟩ := forall₂_cons_left_iff.1 hs
    exact ⟨c', by rw [heq, forall₂_nil_left_iff.1 hr]⟩
  · intro m c hc
    obtain ⟨i, hi, -, -, hs⟩ := hj.node m (Graph.lt_length_of_mem_succ hc)
    obtain ⟨c₀, hc₀, hjo⟩ := exists_of_forall₂ hs hc
    obtain _ | k := c₀
    · cases (hk.eq_none_iff (valid_none _) hjo).2 rfl
    · obtain ⟨x, hx, hx', hl⟩ := h.child i k hc₀
      exact ⟨x, hx, hx', hsa k c x (h.proper.closed i k hc₀) hjo hl⟩
  · intro ref' href'
    obtain ⟨ref, href, hjo⟩ := exists_of_forall₂ hj.source href'
    obtain ⟨s, hs, rfl, v, hv, hl⟩ := h.value ref href
    obtain _ | m := ref'
    · cases (hk.eq_none_iff (valid_some.2 hs) hjo).1 rfl
    · exact ⟨m, hj.valid hjo m rfl, rfl, v, hv, hsa s m v hs hjo hl⟩
  · refine pairwise_of_forall₂ hj.source h.words fun a ha a' ha' b b' hne hb hb' hall => hne ?_
    intro w
    rw [← hj.spells (h.valid ha) hb w, ← hj.spells (h.valid ha') hb' w]
    exact hall w
  · exact ne_nil_of_forall₂ hj.source h.ne_nil

/-- A graph of printable keys and return values whose references start with different
characters. -/
structure Keyed (d : Dafsa) : Prop where
  proper : Proper d.graph
  within : ∀ ref, Valid d.graph ref → Within d.graph (d.graph.length + 1) ref
  shape : ∀ i < d.graph.length, Shape d.graph i
  distinct : ∀ i < d.graph.length, Distinct d.graph (d.graph.succ i)
  valid : ∀ ref ∈ d.source, Valid d.graph ref
  none_notMem : none ∉ d.source
  ne_nil : d.source ≠ []
  distinctSource : Distinct d.graph d.source

theorem Backward.eq_of_label (h : Backward d) (hr : Reduced d.graph) {p q : ℕ}
    (hp : p < d.graph.length) (hq : q < d.graph.length) {ref : Option ℕ}
    (hsp : ref ∈ d.graph.succ p) (hsq : ref ∈ d.graph.succ q)
    (hl : d.graph.label p = d.graph.label q) : p = q := by
  obtain ⟨c, hc⟩ := h.single p hp
  obtain ⟨c', hc'⟩ := h.single q hq
  rw [hc, mem_singleton] at hsp
  rw [hc', mem_singleton] at hsq
  refine hr p hp q hq fun w => ?_
  rw [spells_some, spells_some, hl, hc, hc', ← hsp, ← hsq]

/-- Read forwards again, the graph starts with the characters of the keys. -/
theorem Backward.reverse (h : Backward d) (hd : Descending d.graph) (hr : Reduced d.graph) :
    Keyed (MakeDafsa.reverse d) := by
  have hrev := reverse_reversed fun ref _ => hd.within_length ref
  set t := followFrom d.graph (d.graph.length + 1) d.source
  set d' := MakeDafsa.reverse d
  have hin : ∀ i ∈ t.visited, i < d.graph.length := fun i hi =>
    hrev.complete.visited_lt (fun i hi => h.valid hi i rfl) h.proper.closed hi
  have hpa := hrev.parentsOf_nodup h.nodup fun p hp => by
    obtain ⟨c, hc⟩ := h.single p (hin p hp)
    simp [hc]
  have hla : ∀ i ∈ t.visited, d'.graph.label (t.visited.idxOf i) = d.graph.label i := by
    intro i hi
    obtain ⟨x, hx⟩ := h.label i (hin i hi)
    rw [hrev.label i hi, hx, reverse_singleton]
  -- Parents of one node have different characters.
  have hdi : ∀ ref, none ∉ parentsOf t ref → Distinct d'.graph (parentsOf t ref) := by
    intro ref hno
    refine (hpa ref).imp_of_mem fun {a b} ha hb hab heq => hab ?_
    rcases hrev.mem_parentsOf.1 ha with ⟨rfl, -⟩ | ⟨p, hp, hsp, rfl⟩
    · exact absurd ha hno
    rcases hrev.mem_parentsOf.1 hb with ⟨rfl, -⟩ | ⟨q, hq, hsq, rfl⟩
    · exact absurd hb hno
    rw [first, first, hla p hp, hla q hq] at heq
    obtain ⟨x, hx⟩ := h.label p (hin p hp)
    obtain ⟨y, hy⟩ := h.label q (hin q hq)
    have hxy : d.graph.label p = d.graph.label q := by
      rw [hx, hy] at heq ⊢
      obtain rfl : x = y := by simpa using heq
      rfl
    rw [h.eq_of_label hr (hin p hp) (hin q hq) hsp hsq hxy]
  -- The nodes of the return values are the ones before the new sink.
  have hsh : ∀ i ∈ t.visited, (parentsOf t (some i) = [none] ∧ ∃ v < 0x20, d.graph.label i = [v]) ∨
        (none ∉ parentsOf t (some i) ∧ ∃ x, 0x20 ≤ x ∧ x < 0x80 ∧ d.graph.label i = [x]) := by
    intro i hi
    by_cases hs : some i ∈ d.source
    · obtain ⟨s, hs', heq, v, hv, hl⟩ := h.value _ hs
      obtain rfl := Option.some.inj heq
      refine .inl ⟨eq_singleton_of_nodup (hpa (some i))
        (hrev.mem_parentsOf.2 (.inl ⟨rfl, hs⟩)) fun q hq => ?_, v, hv, hl⟩
      rcases hrev.mem_parentsOf.1 hq with ⟨rfl, -⟩ | ⟨p, -, hsp, -⟩
      · rfl
      · obtain ⟨x, hx, -, hlx⟩ := h.child p i hsp
        rw [hl] at hlx
        obtain rfl : v = x := by simpa using hlx
        omega
    · refine .inr ⟨fun hn => ?_, ?_⟩
      · rcases hrev.mem_parentsOf.1 hn with ⟨-, hs'⟩ | ⟨p, -, -, heq⟩
        · exact hs hs'
        · cases heq
      · obtain ⟨⟨parent, ref⟩, he, rfl⟩ := hrev.complete.entered i hi
        rcases hrev.complete.mem_log.1 he with ⟨-, hs'⟩ | ⟨p, -, -, hsp⟩
        · exact absurd hs' hs
        · exact h.child p i hsp
  have hne : d'.source ≠ [] := by
    obtain ⟨ref, href⟩ := exists_mem_of_ne_nil _ h.ne_nil
    obtain ⟨w, hw⟩ := h.proper.exists_spells (h.within ref (h.valid href)) (h.valid href)
    exact hrev.source_ne_nil h.none_notMem ⟨ref, href, hw⟩
  have hnon := hrev.none_notMem_source h.none_notMem
  refine ⟨hrev.proper fun i hi => h.proper.label i (hin i hi), hrev.within hd, fun m hm => ?_,
    fun m hm => ?_, fun ref href => ?_, hnon, hne, ?_⟩
  · obtain ⟨i, hi, rfl⟩ := hrev.exists_visited hm
    rw [Shape, hrev.succ i hi, hla i hi]
    rcases hsh i hi with ⟨hend, v, hv, hl⟩ | ⟨hno, x, hx, hx', hl⟩
    · exact .inl ⟨hend, [], v, hl, by simp [Printable], hv⟩
    · refine .inr ⟨hno, fun c hc => ?_⟩
      rw [hl, mem_singleton] at hc
      omega
  · obtain ⟨i, hi, rfl⟩ := hrev.exists_visited hm
    rw [hrev.succ i hi]
    rcases hsh i hi with ⟨hend, -⟩ | ⟨hno, -⟩
    · rw [hend]
      exact pairwise_singleton _ _
    · exact hdi (some i) hno
  · rw [hrev.source] at href
    rcases hrev.mem_parentsOf.1 href with ⟨rfl, -⟩ | ⟨p, hp, -, rfl⟩
    · exact valid_none _
    · exact valid_some.2 (hrev.idxOf_lt hp)
  · rw [hrev.source] at hnon ⊢
    exact hdi none hnon

/-- A join that makes every node out of the references of an old one and a label that suits
them. -/
theorem Keyed.joined (h : Keyed d) (hk : Keeps d d' join) (hd : Descending d'.graph)
    (hs : List.Forall₂ (fun c c' => join c = some c') d.source d'.source)
    (hm : ∀ m < d'.graph.length, ∃ j < d.graph.length,
      List.Forall₂ (fun c c' => join c = some c') (d.graph.succ j) (d'.graph.succ m) ∧
      ((d.graph.succ j = [none] ∧ ∃ l v, d'.graph.label m = l ++ [v] ∧ Printable l ∧ v < 0x20) ∨
        (none ∉ d.graph.succ j ∧ Printable (d'.graph.label m)))) : Keyed d' := by
  refine ⟨hk.proper', fun ref _ => hd.within_length ref, fun m hlt => ?_, fun m hlt => ?_,
    fun ref' href' => ?_, hk.none_mem_iff h.valid hs h.none_notMem, ne_nil_of_forall₂ hs h.ne_nil,
    hk.distinct h.valid hs h.distinctSource⟩
  · obtain ⟨j, -, hj, ⟨hend, hl⟩ | ⟨hno, hp⟩⟩ := hm m hlt
    · rw [hend] at hj
      exact .inl ⟨hk.eq_singleton_none hj, hl⟩
    · exact .inr ⟨hk.none_mem_iff (fun c hc => h.proper.valid hc) hj hno, hp⟩
  · obtain ⟨j, hlt, hj, -⟩ := hm m hlt
    exact hk.distinct (fun c hc => h.proper.valid hc) hj (h.distinct j hlt)
  · obtain ⟨ref, -, hj⟩ := exists_of_forall₂ hs href'
    exact hk.valid hj

theorem Keyed.joinSuffixes (h : Keyed d) (hj : SuffixesJoined d d' join) : Keyed d' := by
  refine h.joined (hj.keeps h.proper h.within) hj.descending hj.source fun m hm => ?_
  obtain ⟨i, hi, -, hl, hs⟩ := hj.node m hm
  exact ⟨i, hi, hs, hl ▸ h.shape i hi⟩

/-- The labels along a chain: printable characters, and the return value where the chain ends
at the sink. -/
theorem Keyed.chain (h : Keyed d) {i j : ℕ} {l : List ℕ} (hc : Chain d.graph i j l)
    (hi : i < d.graph.length) :
    (d.graph.succ j = [none] ∧ ∃ l' v, l = l' ++ [v] ∧ Printable l' ∧ v < 0x20) ∨
      (none ∉ d.graph.succ j ∧ Printable l) := by
  induction hc with
  | single i => exact h.shape i hi
  | @step i c j l hs _ ih =>
    have hp : Printable (d.graph.label i) := by
      rcases h.shape i hi with ⟨hend, -⟩ | ⟨-, hp⟩
      · rw [hs] at hend
        cases hend
      · exact hp
    have ha : ∀ l', Printable l' → Printable (d.graph.label i ++ l') := by
      intro l' hl' x hx
      rcases mem_append.1 hx with hx | hx
      · exact hp x hx
      · exact hl' x hx
    rcases ih (h.proper.closed i c (by simp [hs])) with ⟨hend, l', v, rfl, hl', hv⟩ | ⟨hno, hl⟩
    · exact .inl ⟨hend, d.graph.label i ++ l', v, by simp, ha l' hl', hv⟩
    · exact .inr ⟨hno, ha l hl⟩

theorem LabelsJoined.keeps (h : LabelsJoined d d' join) (hg : Keyed d) : Keeps d d' join := by
  refine ⟨hg.proper, hg.proper.joined join h.valid fun m hm => ?_, hg.within, h.valid,
    fun _ hj => h.spells hj⟩
  obtain ⟨i, hi, hj⟩ := h.surjective m hm
  obtain ⟨j, hc, hs⟩ := h.node hj
  refine ⟨fun hnil => hg.proper.label i hi ?_, j, hc.lt_length hg.proper hi, hs⟩
  exact prefix_nil.1 (hnil ▸ hc.label_prefix)

theorem Keyed.joinLabels (h : Keyed d) (hj : LabelsJoined d d' join) : Keyed d' := by
  refine h.joined (hj.keeps h) hj.descending hj.source fun m hm => ?_
  obtain ⟨i, hi, hjo⟩ := hj.surjective m hm
  obtain ⟨j, hc, hs⟩ := hj.node hjo
  exact ⟨j, hc.lt_length h.proper hi, hs, h.chain hc hi⟩

/-- The passes keep the words, and leave a graph that can be encoded. -/
theorem minimize_spec {d : Dafsa} (h : Threads d) (hne : d.source ≠ [])
    (hs : ∀ ref ∈ d.source, ∃ w, Spells d.graph ref w)
    (hw : d.source.Pairwise fun a b => ∀ w, Spells d.graph a w → ¬ Spells d.graph b w) :
    Keyed (minimize d) ∧ Descending (minimize d).graph ∧
      ∀ w, SpellsFrom (minimize d).graph (minimize d).source w ↔ SpellsFrom d.graph d.source w := by
  have hrev₁ := reverse_reversed fun ref (_ : ref ∈ d.source) => h.descending.within_length ref
  have h₁ := h.reverse hne hs hw
  obtain ⟨join₂, hj₂⟩ := joinSuffixes_joined h₁.proper h₁.within fun ref href => h₁.valid href
  have h₂ := h₁.joinSuffixes hj₂
  have hrev₃ := reverse_reversed (d := joinSuffixes (reverse d))
    fun ref _ => hj₂.descending.within_length ref
  have h₃ := h₂.reverse hj₂.descending hj₂.reduced
  obtain ⟨join₄, hj₄⟩ := joinSuffixes_joined h₃.proper h₃.within h₃.valid
  have h₄ := h₃.joinSuffixes hj₄
  obtain ⟨join₅, hj₅⟩ := joinLabels_joined hj₄.descending h₄.proper h₄.valid
  refine ⟨h₄.joinLabels hj₅, hj₅.descending, fun w => ?_⟩
  calc SpellsFrom _ _ w
      ↔ SpellsFrom _ _ w := (hj₅.keeps h₄).spellsFrom h₄.valid hj₅.source w
    _ ↔ SpellsFrom _ _ w := (hj₄.keeps h₃.proper h₃.within).spellsFrom h₃.valid hj₄.source w
    _ ↔ SpellsFrom _ _ w.reverse := hrev₃.spellsFrom_iff h₂.none_notMem
    _ ↔ SpellsFrom _ _ w.reverse := (hj₂.keeps h₁.proper h₁.within).spellsFrom
          (fun c hc => h₁.valid hc) hj₂.source w.reverse
    _ ↔ SpellsFrom _ _ w := by rw [hrev₁.spellsFrom_iff h.none_notMem, reverse_reverse]

end ChromiumBase.MakeDafsa
