import ChromiumBase.Net.Tools.Dafsa.Encode

/-!
# The fully expanded graph

`to_dafsa` makes one thread of nodes for each word: the node of the last character first,
each further node with the one before as its only child.  The last character is the digit of
the return value.
-/

open List

namespace ChromiumBase.MakeDafsa

open WordGraph

/-- The word of a key and its return value in the word list: the key and a digit. -/
def wordOf (e : List ℕ × ℕ) : List ℕ :=
  e.1 ++ [0x30 + e.2]

def spelling (e : List ℕ × ℕ) : List ℕ :=
  e.1 ++ [e.2]

/-- A printable key with a return value from 0 to 7. -/
structure IsEntry (e : List ℕ × ℕ) : Prop where
  key : ∀ c ∈ e.1, 0x20 ≤ c ∧ c ≤ 0x7F
  value : e.2 ≤ 7

/-- The nodes from `start` on are the thread of one word, whose first character is the last
node. -/
structure Thread (g : Graph ℕ) (start : ℕ) (w : List ℕ) : Prop where
  lt : start < g.length
  bottom : g.succ start = [none]
  above : ∀ i, start < i → i < g.length → g.succ i = [some (i - 1)]
  value : ∃ v < 0x20, g.label start = [v]
  char : ∀ i, start < i → i < g.length → ∃ c, 0x20 ≤ c ∧ c < 0x80 ∧ g.label i = [c]
  spells : ∀ u, Spells g (some (g.length - 1)) u ↔ u = w

/-- A word becomes a thread of its own. -/
theorem toNodes_spec {key : List ℕ} {v : ℕ} (h : IsEntry (key, v)) (g : Graph ℕ)
    (hg : Descending g) :
    ∃ g', toNodes g (wordOf (key, v)) = .ok (g', g'.length - 1) ∧ g <+: g' ∧ Descending g' ∧
      Thread g' g.length (spelling (key, v)) := by
  induction key with
  | nil =>
    have hv : v ≤ 7 := h.value
    have hdi : ∀ v ≤ 7, (0x30 + v) &&& 0x0F = v := by decide
    have hm := hdi v hv
    have hr : 0x1F < 0x30 + v ∧ 0x30 + v < 0x80 := by omega
    refine ⟨g ++ [⟨[v], [none]⟩], ?_, prefix_append _ _, hg.concat (by simp), ?_⟩
    · simp [wordOf, toNodes, hr, hm]
    · refine ⟨by simp, by simp, ?_, ⟨v, by omega, by simp⟩, ?_, ?_⟩
      · intro i hi hi'
        rw [length_append, length_singleton] at hi'
        omega
      · intro i hi hi'
        rw [length_append, length_singleton] at hi'
        omega
      · intro u
        simp [spells_some, SpellsFrom, spelling]
  | cons c key ih =>
    obtain ⟨hc, hc'⟩ := h.key c mem_cons_self
    have hkey : IsEntry (key, v) := ⟨fun x hx => h.key x (mem_cons_of_mem _ hx), h.value⟩
    obtain ⟨g', hrun, hpre, hd, ht⟩ := ih hkey
    have hlen := ht.lt
    have hr : 0x1F < c ∧ c < 0x80 := by omega
    have hne : wordOf (key, v) ≠ [] := by simp [wordOf]
    refine ⟨g' ++ [⟨[c], [some (g'.length - 1)]⟩], ?_, hpre.trans (prefix_append _ _),
      hd.concat ?_, ?_⟩
    · have hw : wordOf (c :: key, v) = c :: wordOf (key, v) := rfl
      rw [hw, toNodes, if_pos hr, if_neg hne, hrun]
      simp
      rfl
    · intro j hj
      obtain rfl : j = g'.length - 1 := by simpa using hj
      omega
    · have split : ∀ i, i < (g' ++ [(⟨[c], [some (g'.length - 1)]⟩ : Node ℕ)]).length →
          i < g'.length ∨ i = g'.length := by
        intro i hi
        rw [length_append, length_singleton] at hi
        omega
      refine ⟨?_, ?_, ?_, ?_, ?_, ?_⟩
      · rw [length_append]
        omega
      · rw [Graph.succ_append_left ht.lt]
        exact ht.bottom
      · intro i hi hi'
        rcases split i hi' with hi' | rfl
        · rw [Graph.succ_append_left hi']
          exact ht.above i hi hi'
        · simp
      · rw [Graph.label_append_left ht.lt]
        exact ht.value
      · intro i hi hi'
        rcases split i hi' with hi' | rfl
        · rw [Graph.label_append_left hi']
          exact ht.char i hi hi'
        · exact ⟨c, hc, by omega, by simp⟩
      · intro u
        have hch : ∀ u, Spells (g' ++ [(⟨[c], [some (g'.length - 1)]⟩ : Node ℕ)])
            (some (g'.length - 1)) u ↔ u = spelling (key, v) := by
          intro u
          rw [← ht.spells u]
          refine spells_append_left hd ?_
          rintro i ⟨⟩
          omega
        rw [length_append, length_singleton, Nat.add_sub_cancel, spells_some,
          Graph.label_concat_length, Graph.succ_concat_length]
        simp only [SpellsFrom, mem_singleton, exists_eq_left, hch]
        simp [spelling]

/-- The graph of `to_dafsa`: threads that share no node. -/
structure Threads (d : Dafsa) : Prop where
  descending : Descending d.graph
  succ : ∀ i < d.graph.length, (d.graph.succ i = [none] ∧ ∃ v < 0x20, d.graph.label i = [v]) ∨
      (0 < i ∧ d.graph.succ i = [some (i - 1)] ∧
        ∃ c, 0x20 ≤ c ∧ c < 0x80 ∧ d.graph.label i = [c])
  source : ∀ ref ∈ d.source, ∃ s < d.graph.length, ref = some s
  top : ∀ s, some s ∈ d.source → some s ∉ d.graph.succ (s + 1)

theorem Threads.start : Threads ⟨[], []⟩ := by
  refine ⟨fun i c hc => ?_, by simp, by simp, by simp⟩
  simp [Graph.succ] at hc

theorem Threads.add {d : Dafsa} (h : Threads d) {g : Graph ℕ} {w : List ℕ}
    (hpre : d.graph <+: g) (hd : Descending g) (ht : Thread g d.graph.length w) :
    Threads ⟨g, d.source ++ [some (g.length - 1)]⟩ := by
  obtain ⟨new, rfl⟩ := hpre
  have hlen := ht.lt
  refine ⟨hd, fun i hi => ?_, fun ref href => ?_, fun s hs hmem => ?_⟩
  · by_cases hi' : i < d.graph.length
    · rw [Graph.succ_append_left hi', Graph.label_append_left hi']
      exact h.succ i hi'
    · rcases Nat.eq_or_lt_of_le (Nat.not_lt.1 hi') with rfl | hlt
      · exact .inl ⟨ht.bottom, ht.value⟩
      · exact .inr ⟨by omega, ht.above i hlt hi, ht.char i hlt hi⟩
  · rcases mem_append.1 href with href | href
    · obtain ⟨s, hs, rfl⟩ := h.source ref href
      exact ⟨s, by simp only; omega, rfl⟩
    · exact ⟨(d.graph ++ new).length - 1, by simp only; omega, mem_singleton.1 href⟩
  · rcases mem_append.1 hs with hs | hs
    · obtain ⟨s', hs', heq⟩ := h.source _ hs
      obtain rfl := Option.some.inj heq
      by_cases hn : s + 1 < d.graph.length
      · simp only at hmem
        rw [Graph.succ_append_left hn] at hmem
        exact h.top s hs hmem
      · obtain heq : s + 1 = d.graph.length := by omega
        simp only [heq] at hmem
        rw [ht.bottom] at hmem
        simp at hmem
    · obtain rfl : s = (d.graph ++ new).length - 1 := by simpa using hs
      have hlt := Graph.lt_length_of_mem_succ hmem
      simp only at hlt
      omega

variable {entries : List (List ℕ × ℕ)}

/-- Every entry becomes a thread, by induction over the entries. -/
theorem toDafsaFrom_spec (he : ∀ e ∈ entries, IsEntry e) {d : Dafsa} (h : Threads d) :
    ∃ d', toDafsaFrom d (entries.map wordOf) = .ok d' ∧ Threads d' ∧ d.graph <+: d'.graph ∧
      ∃ refs, d'.source = d.source ++ refs ∧
        List.Forall₂ (fun e ref => ∀ u, Spells d'.graph ref u ↔ u = spelling e) entries refs := by
  induction entries generalizing d with
  | nil => exact ⟨d, rfl, h, prefix_rfl, [], by simp, .nil⟩
  | cons e entries ih =>
    obtain ⟨g, hrun, hpre, hd, ht⟩ :=
      toNodes_spec (he e mem_cons_self) d.graph h.descending
    obtain ⟨d', hrun', hd', hpre', refs, hr, hall⟩ :=
      ih (fun e' he' => he e' (mem_cons_of_mem _ he')) (h.add hpre hd ht)
    refine ⟨d', ?_, hd', hpre.trans hpre', some (g.length - 1) :: refs, by simp [hr], .cons ?_ hall⟩
    · rw [map_cons, toDafsaFrom, show wordOf e = wordOf (e.1, e.2) from rfl, hrun]
      exact hrun'
    · intro u
      obtain ⟨new, hnew⟩ := hpre'
      rw [← ht.spells u, ← hnew]
      refine spells_append_left hd ?_
      rintro i ⟨⟩
      have := ht.lt
      dsimp only
      omega

theorem toDafsa_spec (hne : entries ≠ []) (he : ∀ e ∈ entries, IsEntry e) :
    ∃ d, toDafsa (entries.map wordOf) = .ok d ∧ Threads d ∧
      List.Forall₂ (fun e ref => ∀ u, Spells d.graph ref u ↔ u = spelling e) entries d.source := by
  obtain ⟨d, hrun, hd, -, refs, hr, hall⟩ := toDafsaFrom_spec he Threads.start
  refine ⟨d, ?_, hd, ?_⟩
  · rw [toDafsa, if_neg (by simpa using hne), hrun]
  · rw [hr]
    exact hall

end ChromiumBase.MakeDafsa
