import Mathlib.Data.List.Nodup

/-!
# Graphs that spell words

A graph is a list of labelled nodes; a reference is the index of a node, or `none` for the
sink.  A reference spells the words read along its paths to the sink.

`Within g n ref` says that no path from `ref` passes more than `n` nodes.  It is what a
recursion over the graph with a bounded depth needs, and it holds of every reference of a
graph whose references all point to smaller indices.
-/

open List

namespace WordGraph

structure Node (α : Type*) where
  label : List α
  children : List (Option ℕ)
  deriving DecidableEq, Repr

abbrev Graph (α : Type*) := List (Node α)

namespace Graph

variable {α : Type*}

def label (g : Graph α) (i : ℕ) : List α :=
  (g[i]?.map Node.label).getD []

def succ (g : Graph α) (i : ℕ) : List (Option ℕ) :=
  (g[i]?.map Node.children).getD []

variable {g : Graph α} {i : ℕ}

theorem lt_length_of_mem_succ {child : Option ℕ} (h : child ∈ g.succ i) : i < g.length := by
  by_contra hi
  simp [succ, getElem?_eq_none (Nat.not_lt.mp hi)] at h

variable {g' : Graph α}

theorem label_append_left (h : i < g.length) : Graph.label (g ++ g') i = g.label i := by
  simp [label, getElem?_append_left h]

theorem succ_append_left (h : i < g.length) : Graph.succ (g ++ g') i = g.succ i := by
  simp [succ, getElem?_append_left h]

@[simp] theorem label_concat_length (g : Graph α) (n : Node α) :
    Graph.label (g ++ [n]) g.length = n.label := by
  simp [label]

@[simp] theorem succ_concat_length (g : Graph α) (n : Node α) :
    Graph.succ (g ++ [n]) g.length = n.children := by
  simp [succ]

end Graph

variable {α : Type*} {i : ℕ}

inductive Spells (g : Graph α) : Option ℕ → List α → Prop
  | sink : Spells g none []
  | step {i : ℕ} {child : Option ℕ} {w : List α} :
      child ∈ g.succ i → Spells g child w → Spells g (some i) (g.label i ++ w)

def SpellsFrom (g : Graph α) (source : List (Option ℕ)) (w : List α) : Prop :=
  ∃ ref ∈ source, Spells g ref w

variable {g : Graph α} {w : List α} {β : Type*}

@[simp] theorem spells_none : Spells g none w ↔ w = [] := by
  constructor
  · rintro ⟨⟩
    rfl
  · rintro rfl
    exact .sink

theorem spells_some :
    Spells g (some i) w ↔ ∃ v, SpellsFrom g (g.succ i) v ∧ w = g.label i ++ v := by
  constructor
  · rintro (_ | ⟨hc, hv⟩)
    exact ⟨_, ⟨_, hc, hv⟩, rfl⟩
  · rintro ⟨v, ⟨child, hc, hv⟩, rfl⟩
    exact .step hc hv

variable {l : List β} {g' : Graph α} {ref : Option ℕ} {source : List (Option ℕ)}

theorem exists_of_forall₂ {γ : Type*} {R : β → γ → Prop} {l' : List γ} (h : List.Forall₂ R l l')
    {b : γ} (hb : b ∈ l') : ∃ a ∈ l, R a b := by
  induction h with
  | nil => simp at hb
  | @cons a b' l l' hr _ ih =>
    rcases mem_cons.1 hb with rfl | hb
    · exact ⟨a, mem_cons_self, hr⟩
    · obtain ⟨a, ha, hr⟩ := ih hb
      exact ⟨a, mem_cons_of_mem _ ha, hr⟩

theorem ne_nil_of_forall₂ {γ : Type*} {R : β → γ → Prop} {l' : List γ} (h : List.Forall₂ R l l')
    (hne : l ≠ []) : l' ≠ [] := by
  rintro rfl
  exact hne (forall₂_nil_right_iff.1 h)

theorem pairwise_of_forall₂ {γ : Type*} {R : β → γ → Prop} {P : β → β → Prop} {Q : γ → γ → Prop}
    {l' : List γ} (h : List.Forall₂ R l l') (hl : l.Pairwise P)
    (hQ : ∀ a ∈ l, ∀ a' ∈ l, ∀ b b', P a a' → R a b → R a' b' → Q b b') : l'.Pairwise Q := by
  induction h with
  | nil => exact .nil
  | @cons a b l l' hr hre ih =>
    obtain ⟨ha, hl⟩ := pairwise_cons.1 hl
    refine pairwise_cons.2 ⟨fun b' hb' => ?_, ih hl ?_⟩
    · obtain ⟨a', ha', hr'⟩ := exists_of_forall₂ hre hb'
      exact hQ a mem_cons_self a' (mem_cons_of_mem _ ha') b b' (ha a' ha') hr hr'
    · exact fun x hx x' hx' =>
        hQ x (mem_cons_of_mem _ hx) x' (mem_cons_of_mem _ hx')

theorem eq_singleton_of_nodup (hl : l.Nodup) {a : β} (ha : a ∈ l) (h : ∀ b ∈ l, b = a) :
    l = [a] := by
  refine perm_singleton.1 ((perm_ext_iff_of_nodup hl (nodup_singleton a)).2 ?_)
  intro b
  rw [mem_singleton]
  exact ⟨h b, fun hb => hb ▸ ha⟩

theorem spellsFrom_congr {refs refs' : List (Option ℕ)}
    (h : List.Forall₂ (fun ref ref' => ∀ w, Spells g ref w ↔ Spells g' ref' w) refs refs') :
    SpellsFrom g refs w ↔ SpellsFrom g' refs' w := by
  induction h with
  | nil => simp [SpellsFrom]
  | cons hr _ ih =>
    simp only [SpellsFrom, mem_cons, exists_eq_or_imp] at ih ⊢
    rw [hr w, ih]

/-- The paths from `ref` to the sink pass at most `n` nodes. -/
inductive Within (g : Graph α) : ℕ → Option ℕ → Prop
  | sink (n : ℕ) : Within g n none
  | step {n i : ℕ} : (∀ child ∈ g.succ i, Within g n child) → Within g (n + 1) (some i)

theorem Within.mono {n m : ℕ} (h : Within g n ref) (hm : n ≤ m) : Within g m ref := by
  induction h generalizing m with
  | sink n => exact .sink m
  | @step n i _ ih =>
    obtain ⟨k, rfl⟩ : ∃ k, m = k + 1 := ⟨m - 1, by omega⟩
    exact .step fun child hc => ih child hc (by omega)

def Descending (g : Graph α) : Prop :=
  ∀ i c, some c ∈ g.succ i → c < i

theorem Descending.concat (h : Descending g) {n : Node α}
    (hn : ∀ c, some c ∈ n.children → c < g.length) : Descending (g ++ [n]) := by
  intro i c hc
  by_cases hi : i < g.length
  · rw [Graph.succ_append_left hi] at hc
    exact h i c hc
  · have hlt := Graph.lt_length_of_mem_succ hc
    obtain rfl : i = g.length := by
      rw [length_append, length_singleton] at hlt
      omega
    rw [Graph.succ_concat_length] at hc
    exact hn c hc

theorem Descending.within (h : Descending g) (i : ℕ) : Within g (i + 1) (some i) := by
  induction i using Nat.strongRecOn with
  | ind i ih =>
    refine .step fun child hc => ?_
    obtain _ | c := child
    · exact .sink i
    · exact (ih c (h i c hc)).mono (h i c hc)

theorem Descending.within_length (h : Descending g) (ref : Option ℕ) :
    Within g (g.length + 1) ref := by
  obtain _ | i := ref
  · exact .sink _
  by_cases hi : i < g.length
  · exact (h.within i).mono (by omega)
  · have leaf : Within g 1 (some i) :=
      .step fun child hc => absurd (Graph.lt_length_of_mem_succ hc) hi
    exact leaf.mono (by omega)

/-- Nodes that are added change no word. -/
theorem spells_append_left (hg : Descending g) (href : ∀ i, ref = some i → i < g.length) :
    Spells (g ++ g') ref w ↔ Spells g ref w := by
  have key : ∀ n, ∀ ref, (∀ i, ref = some i → i < n ∧ i < g.length) → ∀ w,
      Spells (g ++ g') ref w ↔ Spells g ref w := by
    intro n
    induction n with
    | zero =>
      rintro (_ | i) h w
      · simp
      · exact absurd (h i rfl).1 (Nat.not_lt_zero i)
    | succ n ih =>
      rintro (_ | i) h w
      · simp
      obtain ⟨hn, hi⟩ := h i rfl
      have below : ∀ child ∈ g.succ i, ∀ v, Spells (g ++ g') child v ↔ Spells g child v := by
        intro child hc
        refine ih child fun c hcc => ?_
        have hlt := hg i c (hcc ▸ hc)
        omega
      simp only [spells_some, Graph.label_append_left hi, Graph.succ_append_left hi]
      constructor
      · rintro ⟨v, ⟨child, hc, hv⟩, rfl⟩
        exact ⟨v, ⟨child, hc, (below child hc v).1 hv⟩, rfl⟩
      · rintro ⟨v, ⟨child, hc, hv⟩, rfl⟩
        exact ⟨v, ⟨child, hc, (below child hc v).2 hv⟩, rfl⟩
  exact key g.length ref (fun i hi => ⟨href i hi, href i hi⟩) w

/-- The words read on the paths from the source to a node, its own label included. -/
inductive Reaches (g : Graph α) (source : List (Option ℕ)) : ℕ → List α → Prop
  | source {i : ℕ} : some i ∈ source → Reaches g source i (g.label i)
  | step {p i : ℕ} {u : List α} :
      Reaches g source p u → some i ∈ g.succ p → Reaches g source i (u ++ g.label i)

theorem Reaches.spells {u : List α} (h : Reaches g source i u) {v : List α}
    (hv : SpellsFrom g (g.succ i) v) : SpellsFrom g source (u ++ v) := by
  induction h generalizing v with
  | @source i hi => exact ⟨some i, hi, spells_some.2 ⟨v, hv, rfl⟩⟩
  | @step p i u _ hi ih =>
    rw [append_assoc]
    exact ih ⟨some i, hi, spells_some.2 ⟨v, hv, rfl⟩⟩

/-- A word of a source without the sink is read on a path to a node that has the sink as a
child. -/
theorem spellsFrom_iff_reaches (hs : none ∉ source) :
    SpellsFrom g source w ↔ ∃ i, Reaches g source i w ∧ none ∈ g.succ i := by
  constructor
  · rintro ⟨ref, href, h⟩
    have key : ∀ ref w, Spells g ref w → ∀ i u, ref = some i →
        Reaches g source i (u ++ g.label i) →
        ∃ j, Reaches g source j (u ++ w) ∧ none ∈ g.succ j := by
      intro ref w h
      induction h with
      | sink => rintro i u ⟨⟩
      | @step i child w hc _ ih =>
        rintro _ u ⟨⟩ hr
        obtain _ | c := child
        · obtain rfl := spells_none.1 ‹_›
          exact ⟨i, by simpa using hr, hc⟩
        · simpa using ih c (u ++ g.label i) rfl (.step hr hc)
    obtain _ | i := ref
    · exact absurd href hs
    · simpa using key (some i) w h i [] rfl (by simpa using Reaches.source href)
  · rintro ⟨i, h, hc⟩
    have := h.spells (v := []) ⟨none, hc, .sink⟩
    simpa using this

end WordGraph
