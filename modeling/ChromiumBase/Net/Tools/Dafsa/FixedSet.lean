import ChromiumBase.Net.Tools.Dafsa.Minimize

/-!
# Compiled fixed sets

A list of keys with return values is compiled by `make_dafsa.py` and read by
`LookupStringInFixedSet`.  The lookup gives every listed key its value, and every other
string the answer that it is not in the set.
-/

open List

namespace ChromiumBase.MakeDafsa

open WordGraph Outcome FixedSet

def wordsOf (entries : List (List ℕ × ℕ)) : Set (List ℤ) :=
  {w | ∃ e ∈ entries, w = (spelling e).map Nat.cast}

variable {entries : List (List ℕ × ℕ)} {key : List ℤ}

/-- The compiler succeeds unless the array is too long, and its array serves the words. -/
theorem wordsToCxx_returns (hne : entries ≠ []) (hke : (entries.map Prod.fst).Nodup)
    (he : ∀ e ∈ entries, IsEntry e) :
    ReturnsUnless TooLong (wordsToCxx (entries.map wordOf)) fun bytes =>
      Serves ⟨some bytes, false⟩ (wordsOf entries) := by
  obtain ⟨d, hrun, hd, hall⟩ := toDafsa_spec hne he
  have hsp : ∀ ref ∈ d.source, ∃ w, Spells d.graph ref w := by
    intro ref href
    obtain ⟨e, -, hs⟩ := exists_of_forall₂ hall href
    exact ⟨_, (hs _).2 rfl⟩
  have hn : entries.Pairwise (· ≠ ·) := List.Nodup.of_map _ hke
  have hwo : d.source.Pairwise fun a b =>
      ∀ w, Spells d.graph a w → ¬ Spells d.graph b w := by
    refine pairwise_of_forall₂ hall hn fun e _ e' _ a b hne ha hb w hw hw' => hne ?_
    obtain ⟨hk, hv⟩ := append_inj' (((ha w).1 hw).symm.trans ((hb w).1 hw')) rfl
    exact Prod.ext hk (by simpa using hv)
  obtain ⟨hk, hde, hl⟩ := minimize_spec hd (ne_nil_of_forall₂ hall hne) hsp hwo
  have hen := encode_returns ⟨hde, hk.proper, hk.shape, hk.distinct⟩
    hk.valid hk.none_notMem hk.ne_nil hk.distinctSource
  have hset : languageFrom (minimize d).graph (minimize d).source = wordsOf entries := by
    ext w
    constructor
    · rintro ⟨ref, href, v, hv, rfl⟩
      obtain ⟨ref', href', hv'⟩ := (hl v).1 ⟨ref, href, hv⟩
      obtain ⟨e, hem, hs⟩ := exists_of_forall₂ hall href'
      exact ⟨e, hem, by rw [(hs v).1 hv']⟩
    · rintro ⟨e, hem, rfl⟩
      obtain ⟨ref', href', hs⟩ := exists_of_forall₂ hall.flip hem
      obtain ⟨ref, href, hv⟩ := (hl (spelling e)).2 ⟨ref', href', (hs _).2 rfl⟩
      exact ⟨ref, href, _, hv, rfl⟩
  rw [wordsToCxx, hrun, returnsUnless_ok_bind]
  rw [hset] at hen
  exact hen

theorem mem_wordsOf {v : ℤ} :
    key ++ [v] ∈ wordsOf entries ↔ ∃ e ∈ entries, key = e.1.map Nat.cast ∧ v = e.2 := by
  simp only [wordsOf, spelling, map_append]
  constructor
  · rintro ⟨e, hem, heq⟩
    obtain ⟨hk, hv⟩ := append_inj' heq rfl
    exact ⟨e, hem, hk, by simpa using hv⟩
  · rintro ⟨e, hem, rfl, rfl⟩
    exact ⟨e, hem, rfl⟩

theorem exists_continuation_iff (hne : entries ≠ []) :
    (key = [] ∨ ∃ w, w ≠ [] ∧ key ++ w ∈ wordsOf entries) ↔
      ∃ e ∈ entries, key <+: e.1.map Nat.cast := by
  constructor
  · rintro (rfl | ⟨w, hw, hmem⟩)
    · obtain ⟨e, hem⟩ := exists_mem_of_ne_nil _ hne
      exact ⟨e, hem, nil_prefix⟩
    · rcases eq_nil_or_concat w with rfl | ⟨w, v, rfl⟩
      · exact absurd rfl hw
      · rw [concat_eq_append, ← append_assoc, mem_wordsOf] at hmem
        obtain ⟨e, hem, heq, -⟩ := hmem
        exact ⟨e, hem, w, heq⟩
  · rintro ⟨e, hem, w, heq⟩
    refine .inr ⟨w ++ [(e.2 : ℤ)], by simp, ?_⟩
    rw [← append_assoc]
    exact mem_wordsOf.2 ⟨e, hem, heq, rfl⟩

theorem isValue_wordsOf (hke : (entries.map Prod.fst).Nodup) (he : ∀ e ∈ entries, IsEntry e)
    {r : ℤ} (h : IsValue (wordsOf entries) key r) :
    (∀ e ∈ entries, key = e.1.map Nat.cast → r = e.2) ∧
      ((∀ e ∈ entries, key ≠ e.1.map Nat.cast) → r = kDafsaNotFound) := by
  have hu : ∀ e ∈ entries, ∀ e' ∈ entries,
      e.1.map (Nat.cast : ℕ → ℤ) = e'.1.map Nat.cast → e = e' := by
    intro e hem e' hem' heq
    have hfst : e.1 = e'.1 := map_injective_iff.2 (fun a b => Int.ofNat.inj) heq
    exact inj_on_of_nodup_map hke hem hem' hfst
  rcases h with ⟨-, -, hmem⟩ | ⟨rfl, hno⟩
  · obtain ⟨e, hem, rfl, rfl⟩ := mem_wordsOf.1 hmem
    refine ⟨fun e' hem' heq => ?_, fun hall => absurd rfl (hall e hem)⟩
    rw [hu e hem e' hem' heq]
  · refine ⟨fun e hem hk => ?_, fun _ => rfl⟩
    have hv := (he e hem).value
    exact absurd (mem_wordsOf.2 ⟨e, hem, hk, rfl⟩) (hno e.2 (by omega) (by omega))

/-- For every list of distinct printable keys with return values from 0 to 7, none of whose
links is too long: the compilation succeeds, and the lookup of a string gives its listed
value, or `kDafsaNotFound` for every other string.  The incremental lookup gives the same
result after every input, and its flag says whether the input can still become a key. -/
theorem lookupStringInFixedSet_wordsToCxx (entries : List (List ℕ × ℕ)) (hne : entries ≠ [])
    (hkeys : (entries.map Prod.fst).Nodup)
    (hprintable : ∀ e ∈ entries, ∀ c ∈ e.1, 0x20 ≤ c ∧ c ≤ 0x7F) (hvalues : ∀ e ∈ entries, e.2 ≤ 7)
    (hlinks : wordsToCxx (entries.map wordOf) ≠ .error .linkTooLong) :
    ∃ bytes, wordsToCxx (entries.map wordOf) = .ok bytes ∧ ∀ key : List ℤ,
      ∃ r, lookupStringInFixedSet bytes key = some r ∧
        (∀ e ∈ entries, key = e.1.map Nat.cast → r = e.2) ∧
        ((∀ e ∈ entries, key ≠ e.1.map Nat.cast) → r = kDafsaNotFound) ∧
        ∃ found l, Lookup.advanceAll ⟨some bytes, false⟩ key = some (found, l) ∧
          l.getResultForCurrentSequence = some r ∧
          (found = true ↔ ∃ e ∈ entries, key <+: e.1.map Nat.cast) := by
  have he : ∀ e ∈ entries, IsEntry e := fun e hem => ⟨hprintable e hem, hvalues e hem⟩
  have hret := wordsToCxx_returns hne hkeys he
  cases hrun : wordsToCxx (entries.map wordOf) with
  | error e =>
    rw [hrun, returnsUnless_error] at hret
    exact absurd (hrun.trans (congrArg _ hret)) hlinks
  | ok bytes =>
    rw [hrun, returnsUnless_ok] at hret
    refine ⟨bytes, rfl, fun key => ?_⟩
    obtain ⟨r, hr, hv⟩ := lookupFrom_of_answers (hret.answers key)
    obtain ⟨found, l, r', hadv, hf, hr', hv'⟩ := advanceAll_of_answers (hret.answers key)
    obtain ⟨hl, ho⟩ := isValue_wordsOf hkeys he hv
    obtain ⟨hl', ho'⟩ := isValue_wordsOf hkeys he hv'
    obtain rfl : r = r' := by
      by_cases hkey : ∃ e ∈ entries, key = e.1.map Nat.cast
      · obtain ⟨e, hem, hk⟩ := hkey
        rw [hl e hem hk, hl' e hem hk]
      · have hnot : ∀ e ∈ entries, key ≠ e.1.map Nat.cast :=
          fun e hem hk => hkey ⟨e, hem, hk⟩
        rw [ho hnot, ho' hnot]
    exact ⟨r, hr, hl, ho, found, l, hadv, hr', hf.trans (exists_continuation_iff hne)⟩

-- `aa` has the value 1 and `a` the value 2.
theorem lookupStringInFixedSet_wordsToCxx_two :
    ∃ bytes, wordsToCxx ([([0x61, 0x61], 1), ([0x61], 2)].map wordOf) = .ok bytes ∧
      lookupStringInFixedSet bytes [0x61] = some 2 := by
  obtain ⟨bytes, hrun, hlo⟩ := lookupStringInFixedSet_wordsToCxx
    [([0x61, 0x61], 1), ([0x61], 2)] (by decide) (by decide) (by decide) (by decide) (by decide)
  obtain ⟨r, hr, hl, -⟩ := hlo [0x61]
  have hv := hl ([0x61], 2) (by decide) rfl
  exact ⟨bytes, hrun, by rw [hr, hv]; rfl⟩

end ChromiumBase.MakeDafsa
