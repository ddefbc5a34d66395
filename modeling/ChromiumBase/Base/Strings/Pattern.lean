import Mathlib.Algebra.Order.Ring.Nat
import Mathlib.Data.List.Infix
import Mathlib.Data.List.TakeWhile
import Mathlib.Data.Nat.Find

/-!
# Matching a string against a pattern with wildcards

`MatchPattern` (`base/strings/pattern.cc`) takes the wildcards and the characters behind them in
turn, and looks for the characters at the nearest place the wildcards allow.  It never goes back.

Strings are the characters that `next` returns one after the other, so that both instances of
`MatchPatternT` are meant.  `tokens` and `Matches` say what the documentation promises.  The search
finds the matches with every run of characters at its first occurrence (`MatchesFirst`), so that it
is right about a string and a pattern exactly if, of all matches there are, one is of this kind
(`matchPattern_iff`).  There always is one if a `*` follows wherever there is a choice
(`matchesFirst_of_anchored`).
-/

open List

namespace ChromiumBase.Pattern

/-- A character; nothing is `CBU_SENTINEL`, an ill-formed sequence. -/
abbrev UChar32 := Option ℕ

def toInt (z : ℤ) : ℤ := z.bmod (2 ^ 32)

def isWildcard (c : UChar32) : Bool := c = some 0x2a || c = some 0x3f

/-- How a search at one place of the string ends: with the rest of the pattern and of the string,
because the string is at its end, or with a mismatch and the flag `escape` at that time. -/
inductive Attempt
  | found (pattern string : List UChar32)
  | atEnd
  | mismatch (escape : Bool)

/-- The loop of `SearchForChars` up to a mismatch. -/
def attempt (escape : Bool) : List UChar32 → List UChar32 → Attempt
  | [], string => if string = [] then .found [] [] else .mismatch escape
  | p :: pattern, string =>
    if !escape && isWildcard p then .found (p :: pattern) string
    else if !escape && p = some 0x5c then attempt true pattern string
    else match string with
      | [] => .atEnd
      | c :: string =>
        if p = c ∧ p ≠ none then attempt false pattern string else .mismatch false

/-- A negative distance is unlimited.  The flag `escape` is not reset when the search starts again.
-/
def searchForChars (pattern : List UChar32) (escape : Bool) (maximumDistance : ℤ)
    (string : List UChar32) : Option (List UChar32 × List UChar32) :=
  match attempt escape pattern string with
  | .found pattern string => some (pattern, string)
  | .atEnd => none
  | .mismatch escape =>
    if maximumDistance = 0 then none
    else match string with
      | [] => none
      | _ :: string => searchForChars pattern escape (toInt (maximumDistance - 1)) string

def eatLoop (numQuestionMarks : ℤ) (hasAsterisk : Bool) : List UChar32 → ℤ × List UChar32
  | [] => (if hasAsterisk then -1 else numQuestionMarks, [])
  | c :: pattern =>
    if c = some 0x3f then eatLoop (toInt (numQuestionMarks + 1)) hasAsterisk pattern
    else if c = some 0x2a then eatLoop numQuestionMarks true pattern
    else (if hasAsterisk then -1 else numQuestionMarks, c :: pattern)

def eatWildcards (pattern : List UChar32) : ℤ × List UChar32 := eatLoop 0 false pattern

/-- The loop of `MatchPatternT`; a round takes at least one character of the pattern. -/
def matchLoop : ℕ → List UChar32 → List UChar32 → Bool
  | 0, _, _ => false
  | fuel + 1, eval, pattern =>
    match searchForChars (eatWildcards pattern).2 false (eatWildcards pattern).1 eval with
    | none => false
    | some (pattern, eval) => pattern.isEmpty || matchLoop fuel eval pattern

def matchPattern (eval pattern : List UChar32) : Bool :=
  matchLoop (pattern.length + 1) eval pattern

inductive Token
  | star
  | mark
  | char (c : UChar32)
deriving DecidableEq

def Token.isWild : Token → Bool
  | char _ => false
  | _ => true

/-- A backslash makes the character behind it literal; without one it is literal itself. -/
def tokens (escape : Bool) : List UChar32 → List Token
  | [] => if escape then [.char (some 0x5c)] else []
  | c :: pattern =>
    if escape then .char c :: tokens false pattern
    else if c = some 0x2a then .star :: tokens false pattern
    else if c = some 0x3f then .mark :: tokens false pattern
    else if c = some 0x5c then tokens true pattern
    else .char c :: tokens false pattern

/-- The language of a pattern; an ill-formed sequence is no character, so nothing matches it. -/
def Matches : List Token → List UChar32 → Prop
  | [], s => s = []
  | .star :: p, s => ∃ n, Matches p (s.drop n)
  | .mark :: p, s => Matches p s ∨ ∃ c t, s = c :: t ∧ Matches p t
  | .char c :: p, s => c ≠ none ∧ ∃ t, s = c :: t ∧ Matches p t

/-- Wildcards can take so many characters. -/
def Within (ws : List Token) (n : ℕ) : Prop := .star ∈ ws ∨ n ≤ ws.length

/-- The string matches with every run of characters that wildcards follow at its first occurrence
behind the run before.  The last run has no choice, as it ends the string. -/
inductive MatchesFirst : List Token → List UChar32 → Prop
  | last (ws : List Token) (l : List UChar32) (n : ℕ) {s : List UChar32}
    (hws : ∀ w ∈ ws, w.isWild) (hl : none ∉ l) (hn : Within ws n) (hs : s.drop n = l) :
    MatchesFirst (ws ++ l.map .char) s
  | run (ws : List Token) (l : List UChar32) (n : ℕ) {w : Token} {p : List Token}
    {s t : List UChar32} (hws : ∀ w ∈ ws, w.isWild) (hl : none ∉ l) (hne : l ≠ [])
    (hw : w.isWild) (hn : Within ws n) (hs : s.drop n = l ++ t)
    (hfirst : ∀ k < n, ¬ l <+: s.drop k) (ht : MatchesFirst (w :: p) t) :
    MatchesFirst (ws ++ (l.map .char ++ w :: p)) s

/-- No backslash at the end that escapes nothing. -/
def Complete (escape : Bool) : List UChar32 → Prop
  | [] => escape = false
  | c :: pattern => Complete (!escape && c = some 0x5c) pattern

/-- A run of wildcards behind a character that has a wildcard before it contains a `*`. -/
def Anchored (p : List Token) : Prop :=
  ∀ l c ws r, p = l ++ .char c :: (ws ++ r) → (∃ w ∈ l, w.isWild) → ws ≠ [] →
    (∀ w ∈ ws, w.isWild) → (∀ w ∈ r.head?, w.isWild = false) → .star ∈ ws

variable {p q l s t u : List UChar32} {escape : Bool} {n k : ℕ} {ws : List Token}

theorem Within.of_le (h : Within ws n) (hk : k ≤ n) : Within ws k := h.imp_right hk.trans

theorem matches_wilds (hws : ∀ w ∈ ws, w.isWild) {p : List Token} :
    Matches (ws ++ p) s ↔ ∃ n, Within ws n ∧ Matches p (s.drop n) := by
  induction ws generalizing s with
  | nil =>
    refine ⟨fun h => ⟨0, .inr le_rfl, h⟩, fun ⟨n, hn, h⟩ => ?_⟩
    obtain rfl : n = 0 := Nat.le_zero.mp (hn.resolve_left not_mem_nil)
    exact h
  | cons w ws ih =>
    replace ih {s : List UChar32} := @ih s fun w hw => hws w (mem_cons_of_mem _ hw)
    cases w with
    | star =>
      constructor
      · rintro ⟨m, h⟩
        obtain ⟨n, -, h⟩ := ih.mp h
        exact ⟨m + n, .inl mem_cons_self, by rwa [drop_drop] at h⟩
      · rintro ⟨n, -, h⟩
        exact ⟨n, ih.mpr ⟨0, .inr (Nat.zero_le _), h⟩⟩
    | mark =>
      have hcons {m : ℕ} : Within (.mark :: ws) (m + 1) ↔ Within ws m := by simp [Within]
      constructor
      · rintro (h | ⟨c, t, rfl, h⟩)
        · obtain ⟨n, hn, h⟩ := ih.mp h
          exact ⟨n, (hcons.mpr hn).of_le (Nat.le_succ n), h⟩
        · obtain ⟨n, hn, h⟩ := ih.mp h
          exact ⟨n + 1, hcons.mpr hn, h⟩
      · rintro ⟨n, hn, h⟩
        cases n with
        | zero => exact .inl (ih.mpr ⟨0, .inr (Nat.zero_le _), h⟩)
        | succ n =>
          cases s with
          | nil => exact .inl (ih.mpr ⟨0, .inr (Nat.zero_le _), h⟩)
          | cons c s => exact .inr ⟨c, s, rfl, ih.mpr ⟨n, hcons.mp hn, h⟩⟩
    | char c => exact absurd (hws _ mem_cons_self) (by simp [Token.isWild])

theorem matches_chars {p : List Token} :
    Matches (l.map .char ++ p) s ↔ none ∉ l ∧ ∃ t, s = l ++ t ∧ Matches p t := by
  induction l generalizing s with
  | nil => simp
  | cons c l ih =>
    simp only [map_cons, cons_append, Matches, ih, mem_cons, not_or, ne_comm (a := c)]
    constructor
    · rintro ⟨hc, t, rfl, hl, u, rfl, h⟩
      exact ⟨⟨hc, hl⟩, u, rfl, h⟩
    · rintro ⟨⟨hc, hl⟩, u, rfl, h⟩
      exact ⟨hc, _, rfl, hl, u, rfl, h⟩

theorem MatchesFirst.matches {p : List Token} (h : MatchesFirst p s) : Matches p s := by
  induction h with
  | last ws l n hws hl hn hs =>
    refine (matches_wilds hws).mpr ⟨n, hn, ?_⟩
    rw [hs, ← append_nil (l.map Token.char)]
    exact matches_chars.mpr ⟨hl, [], (append_nil l).symm, rfl⟩
  | run ws l n hws hl hne hw hn hs hfirst ht ih =>
    exact (matches_wilds hws).mpr ⟨n, hn, matches_chars.mpr ⟨hl, _, hs, ih⟩⟩

section Runs

/-- A list starts with elements of one kind in one way only. -/
theorem append_inj_of_head {α : Type} {f : α → Bool} {a a' b b' : List α} (h : a ++ b = a' ++ b')
    (ha : ∀ x ∈ a, f x) (ha' : ∀ x ∈ a', f x) (hb : ∀ x ∈ b.head?, f x = false)
    (hb' : ∀ x ∈ b'.head?, f x = false) : a = a' ∧ b = b' := by
  have htake {a b : List α} (ha : ∀ x ∈ a, f x) (hb : ∀ x ∈ b.head?, f x = false) :
      (a ++ b).takeWhile f = a := by
    rw [takeWhile_append_of_pos ha]
    cases b with
    | nil => exact append_nil a
    | cons x b => rw [takeWhile_cons_of_neg (by simp [hb x rfl]), append_nil]
  have heq : a = a' := (htake ha hb).symm.trans ((congrArg _ h).trans (htake ha' hb'))
  subst heq
  exact ⟨rfl, append_cancel_left h⟩

variable {p q : List Token}

theorem isWild_char_head (hl : l = [] → q = []) :
    ∀ w ∈ (l.map Token.char ++ q).head?, w.isWild = false := by
  cases l with
  | nil => simp [hl rfl]
  | cons c l => simp [Token.isWild]

theorem runs_inj {ws' : List Token} {l' : List UChar32} {q' : List Token}
    (h : ws ++ (l.map .char ++ q) = ws' ++ (l'.map .char ++ q')) (hws : ∀ w ∈ ws, w.isWild)
    (hws' : ∀ w ∈ ws', w.isWild) (hl : l = [] → q = []) (hl' : l' = [] → q' = [])
    (hq : ∀ w ∈ q.head?, w.isWild) (hq' : ∀ w ∈ q'.head?, w.isWild) :
    ws = ws' ∧ l = l' ∧ q = q' := by
  obtain ⟨rfl, hrest⟩ :=
    append_inj_of_head h hws hws' (isWild_char_head hl) (isWild_char_head hl')
  have hchar {l : List UChar32} : ∀ w ∈ l.map Token.char, (!w.isWild) = true := by
    simp [Token.isWild]
  obtain ⟨hmap, rfl⟩ := append_inj_of_head (f := fun w => !w.isWild) hrest hchar hchar
    (by simpa using hq) (by simpa using hq')
  exact ⟨rfl, map_injective_iff.mpr (fun _ _ => Token.char.inj) hmap, rfl⟩

/-- One round: the wildcards, the run behind them, and the rest. -/
theorem matchesFirst_iff (hws : ∀ w ∈ ws, w.isWild) (hl : l = [] → q = [])
    (hq : ∀ w ∈ q.head?, w.isWild) : MatchesFirst (ws ++ (l.map .char ++ q)) s ↔
      none ∉ l ∧ ∃ n t, Within ws n ∧ s.drop n = l ++ t ∧ (q = [] → t = []) ∧
        (q ≠ [] → (∀ k < n, ¬ l <+: s.drop k) ∧ MatchesFirst q t) := by
  constructor
  · intro h
    generalize hp : ws ++ (l.map .char ++ q) = p at h
    cases h with
    | last ws' l' n hws' hnone hn hs =>
      rw [← append_nil (l'.map Token.char)] at hp
      obtain ⟨rfl, rfl, rfl⟩ := runs_inj hp hws hws' hl (fun _ => rfl) hq (by simp)
      exact ⟨hnone, n, [], hn, by rw [hs, append_nil], fun _ => rfl, fun h => absurd rfl h⟩
    | run ws' l' n hws' hnone hne hw hn hs hfirst ht =>
      obtain ⟨rfl, rfl, rfl⟩ := runs_inj hp hws hws' hl (fun h => absurd h hne) hq (by simpa)
      exact ⟨hnone, n, _, hn, hs, fun h => absurd h (cons_ne_nil _ _),
        fun _ => ⟨hfirst, ht⟩⟩
  · rintro ⟨hnone, n, t, hn, hs, hnil, hcons⟩
    cases q with
    | nil =>
      rw [hnil rfl, append_nil] at hs
      rw [append_nil]
      exact .last ws l n hws hnone hn hs
    | cons w q =>
      obtain ⟨hfirst, ht⟩ := hcons (cons_ne_nil _ _)
      exact .run ws l n hws hnone (fun h => nomatch hl h) (hq w rfl) hn hs hfirst ht

/-- Every pattern is wildcards, characters and then nothing or a wildcard. -/
theorem exists_runs (p : List Token) : ∃ ws l q, p = ws ++ (l.map .char ++ q) ∧
    (∀ w ∈ ws, w.isWild) ∧ (l = [] → q = []) ∧ ∀ w ∈ q.head?, w.isWild := by
  induction p with
  | nil => exact ⟨[], [], [], rfl, by simp, fun _ => rfl, by simp⟩
  | cons w p ih =>
    obtain ⟨ws, l, q, rfl, hws, hl, hq⟩ := ih
    by_cases hw : w.isWild
    · exact ⟨w :: ws, l, q, rfl, forall_mem_cons.mpr ⟨hw, hws⟩, hl, hq⟩
    cases w with
    | star => exact absurd rfl hw
    | mark => exact absurd rfl hw
    | char c =>
      cases ws with
      | nil => exact ⟨[], c :: l, q, rfl, by simp, by simp, hq⟩
      | cons v ws =>
        exact ⟨[], [c], v :: ws ++ (l.map .char ++ q), rfl, by simp, by simp,
          by simpa using hws v mem_cons_self⟩

theorem Anchored.of_append {l r : List Token} (h : Anchored (l ++ r)) : Anchored r :=
  fun l' c ws r' heq ⟨w, hw, hiw⟩ => h (l ++ l') c ws r' (by rw [heq, append_assoc])
    ⟨w, mem_append_right _ hw, hiw⟩

/-- With a `*` in front, what matches behind a string matches the string. -/
theorem matches_of_drop (ha : Anchored (ws ++ (l.map .char ++ q))) (hws : ws ≠ [])
    (hiw : ∀ w ∈ ws, w.isWild) (hl : l ≠ []) (hne : q ≠ []) (hq : ∀ w ∈ q.head?, w.isWild)
    (h : Matches q (t.drop n)) : Matches q t := by
  obtain ⟨vs, m, r, rfl, hvs, hm, -⟩ := exists_runs q
  have hne' : vs ≠ [] := by
    rintro rfl
    obtain ⟨c, hc⟩ : ∃ c, c ∈ (m.map Token.char ++ r).head? :=
      ⟨_, head_mem_head? (by simpa using hne)⟩
    have := (hq c hc).symm.trans (isWild_char_head hm c hc)
    cases this
  obtain ⟨l, c, rfl⟩ := eq_nil_or_concat l |>.resolve_left hl
  obtain ⟨w, ws, rfl⟩ := exists_cons_of_ne_nil hws
  have hstar : .star ∈ vs := ha (w :: ws ++ l.map .char) c vs _ (by simp)
    ⟨w, by simp, hiw w mem_cons_self⟩ hne' hvs (isWild_char_head hm)
  obtain ⟨k, -, h⟩ := (matches_wilds hvs).mp h
  refine (matches_wilds hvs).mpr ⟨n + k, .inl hstar, ?_⟩
  rwa [← drop_drop]

theorem drop_eq_of_le (hn : s.drop n = l ++ t) (hk : s.drop k = l ++ u) (hnk : n ≤ k) :
    u = t.drop (k - n) := by
  have := congrArg (drop l.length) hk
  rw [drop_left, ← Nat.add_sub_cancel' hnk, ← drop_drop, hn, drop_drop, Nat.add_comm,
    ← drop_drop, drop_left] at this
  exact this.symm

/-- If a `*` follows wherever there is a choice, the first occurrence is as good as any. -/
theorem matchesFirst_of_anchored (ha : Anchored p) (h : Matches p s) : MatchesFirst p s := by
  induction hlen : p.length using Nat.strong_induction_on generalizing p s with
  | h m ih =>
    obtain ⟨ws, l, q, rfl, hws, hl, hq⟩ := exists_runs p
    obtain ⟨n, hn, h⟩ := (matches_wilds hws).mp h
    obtain ⟨hnone, t, hs, h⟩ := matches_chars.mp h
    refine (matchesFirst_iff hws hl hq).mpr ⟨hnone, ?_⟩
    by_cases hne : q = []
    · subst hne
      exact ⟨n, t, hn, hs, fun _ => h, fun h => absurd rfl h⟩
    -- The run is moved to its first occurrence, which is within reach.
    have hex : ∃ k, l <+: s.drop k := ⟨n, t, hs.symm⟩
    obtain ⟨t', ht'⟩ := Nat.find_spec hex
    have hle : Nat.find hex ≤ n := Nat.find_min' hex ⟨t, hs.symm⟩
    refine ⟨Nat.find hex, t', hn.of_le hle, ht'.symm, fun h => absurd h hne,
      fun _ => ⟨fun k hk => Nat.find_min hex hk, ?_⟩⟩
    have hm : Matches q t' := by
      rw [drop_eq_of_le ht'.symm hs hle] at h
      by_cases hnil : ws = []
      · subst hnil
        obtain rfl : n = 0 := Nat.le_zero.mp (hn.resolve_left not_mem_nil)
        rwa [Nat.zero_sub] at h
      · exact matches_of_drop ha hnil hws (fun h => hne (hl h)) hne hq h
    have hlt : q.length < m := by
      have := length_pos_iff.mpr fun h => hne (hl h)
      rw [← hlen, length_append, length_append, length_map]
      omega
    exact ih q.length hlt ha.of_append.of_append hm rfl

end Runs

theorem toInt_eq {z : ℤ} (hge : -2 ^ 31 ≤ z) (hlt : z < 2 ^ 31) : toInt z = z :=
  Int.bmod_eq_of_le (by omega) (by omega)

/-- `q` is what is left of `p` behind the wildcards `ws`. -/
structure Eats (ws : List Token) (p q : List UChar32) : Prop where
  tokens_eq : tokens false p = ws ++ tokens false q
  isWild : ∀ w ∈ ws, w.isWild
  head : ∀ c ∈ q.head?, isWildcard c = false
  complete : Complete false p → Complete false q
  length_le : ws.length + q.length ≤ p.length

theorem Eats.cons {w : Token} {c : UChar32} (h : Eats ws p q)
    (ht : tokens false (c :: p) = w :: tokens false p) (hw : w.isWild) (hc : c ≠ some 0x5c) :
    Eats (w :: ws) (c :: p) q where
  tokens_eq := by rw [ht, h.tokens_eq, cons_append]
  isWild := forall_mem_cons.mpr ⟨hw, h.isWild⟩
  head := h.head
  complete hr := h.complete (by simpa [Complete, hc] using hr)
  length_le := by
    have := h.length_le
    simp only [length_cons]
    omega

theorem eatLoop_spec (n : ℕ) (has : Bool) (p : List UChar32) (hn : n + p.length < 2 ^ 31) :
    ∃ ws, Eats ws p (eatLoop n has p).2 ∧
      (eatLoop n has p).1 = if has ∨ .star ∈ ws then -1 else ((n + ws.length : ℕ) : ℤ) := by
  induction p generalizing n has with
  | nil => exact ⟨[], ⟨rfl, by simp, by simp [eatLoop], id, by simp [eatLoop]⟩, by simp [eatLoop]⟩
  | cons c p ih =>
    rw [length_cons] at hn
    by_cases hmark : c = some 0x3f
    · have hint : toInt (n + 1) = (n + 1 : ℕ) := toInt_eq (by omega) (by omega)
      obtain ⟨ws, he, hd⟩ := ih (n + 1) has (by omega)
      rw [eatLoop, if_pos hmark, hint]
      refine ⟨.mark :: ws, he.cons (by simp [tokens, hmark]) rfl (by simp [hmark]), ?_⟩
      rw [hd, length_cons, Nat.add_assoc, Nat.add_comm 1]
      simp
    by_cases hstar : c = some 0x2a
    · obtain ⟨ws, he, hd⟩ := ih n true (by omega)
      rw [eatLoop, if_neg hmark, if_pos hstar]
      refine ⟨.star :: ws, he.cons (by simp [tokens, hstar]) rfl (by simp [hstar]), ?_⟩
      rw [hd, if_pos (.inl rfl), if_pos (.inr mem_cons_self)]
    · rw [eatLoop, if_neg hmark, if_neg hstar]
      exact ⟨[], ⟨rfl, by simp, by simp [isWildcard, hmark, hstar], id, by simp⟩, by simp⟩

/-- The characters `l` are at the front of the string; at the end of the pattern they are all. -/
def Found (l q s t : List UChar32) : Prop := none ∉ l ∧ s = l ++ t ∧ (q = [] → t = [])

/-- `p` is the characters `l`, then `q`, which is empty or starts with a wildcard. -/
structure Takes (escape : Bool) (p l q : List UChar32) : Prop where
  tokens_eq : tokens escape p = l.map .char ++ tokens false q
  complete : Complete false q
  head : ∀ c ∈ q.head?, isWildcard c
  length_le : q.length + l.length ≤ p.length
  eq_of_nil : l = [] → escape = false ∧ q = p
  attempt_cases (s : List UChar32) :
    (∃ t, Found l q s t ∧ attempt escape p s = .found q t) ∨ (∀ t, ¬ Found l q s t) ∧
      (attempt escape p s = .atEnd ∧ s.length < l.length ∨
        attempt escape p s = .mismatch false ∧ s ≠ [])

theorem exists_takes (h : Complete escape p) : ∃ l q, Takes escape p l q := by
  induction p generalizing escape with
  | nil =>
    obtain rfl : escape = false := h
    refine ⟨[], [], rfl, rfl, by simp, le_rfl, fun _ => ⟨rfl, rfl⟩, fun s => ?_⟩
    cases s with
    | nil => exact .inl ⟨[], ⟨not_mem_nil, rfl, fun _ => rfl⟩, rfl⟩
    | cons c s => exact .inr ⟨by simp [Found], .inr ⟨rfl, by simp⟩⟩
  | cons c p ih =>
    by_cases hw : (!escape && isWildcard c) = true
    · obtain ⟨rfl, hw'⟩ : escape = false ∧ isWildcard c = true := by simpa using hw
      refine ⟨[], c :: p, rfl, h, by simpa using hw', le_rfl, fun _ => ⟨rfl, rfl⟩, fun s => ?_⟩
      exact .inl ⟨s, ⟨not_mem_nil, rfl, by simp⟩, if_pos hw⟩
    by_cases hb : (!escape && c = some 0x5c) = true
    · obtain ⟨rfl, rfl⟩ : escape = false ∧ c = some 0x5c := by simpa using hb
      rw [Complete, hb] at h
      obtain ⟨l, q, ht⟩ := ih h
      refine ⟨l, q, ht.tokens_eq, ht.complete, ht.head, Nat.le_succ_of_le ht.length_le,
        fun hl => ?_, ht.attempt_cases⟩
      cases (ht.eq_of_nil hl).1
    · rw [Bool.not_eq_true] at hb
      rw [Complete, hb] at h
      obtain ⟨l, q, ht⟩ := ih h
      refine ⟨c :: l, q, ?_, ht.complete, ht.head, Nat.succ_le_succ ht.length_le, by simp,
        fun s => ?_⟩
      · rw [map_cons, cons_append, ← ht.tokens_eq]
        cases escape <;> simp_all [tokens, isWildcard]
      · cases s with
        | nil => exact .inr ⟨by simp [Found], .inl ⟨by simp [attempt, hw, hb], by simp⟩⟩
        | cons d s =>
          rw [attempt, if_neg hw, if_neg (by simp [hb])]
          by_cases hd : c = d ∧ c ≠ none
          · obtain ⟨rfl, hc⟩ := hd
            have := ht.attempt_cases s
            simp only [Found, cons_append, cons.injEq, true_and, hc, ne_eq, not_false_eq_true,
              length_cons, Nat.add_lt_add_iff_right, reduceCtorEq, and_true, mem_cons, not_or,
              Ne.symm hc]
            exact this.imp_right fun h => ⟨h.1, h.2.imp_right And.left⟩
          · refine .inr ⟨fun t hf => hd ?_, .inr ⟨if_neg hd, by simp⟩⟩
            obtain ⟨hnone, hcons, -⟩ := hf
            exact ⟨(List.cons.inj hcons).1.symm, fun hc => hnone (by simp [hc])⟩

/-- The search may go so far. -/
def Allows (d : ℤ) (n : ℕ) : Prop := d < 0 ∨ n ≤ d

/-- A search finds the first place the distance allows, or there is none. -/
theorem Takes.search_cases (h : Takes false p l q) (d : ℤ) (s : List UChar32)
    (hlo : s.length - 2 ^ 31 ≤ d) (hhi : d < 2 ^ 31) :
    (∃ n t, searchForChars p false d s = some (q, t) ∧ Allows d n ∧ Found l q (s.drop n) t ∧
      ∀ k u, Allows d k → Found l q (s.drop k) u → n ≤ k) ∨
    searchForChars p false d s = none ∧ ∀ k u, Allows d k → ¬ Found l q (s.drop k) u := by
  rcases h.attempt_cases s with ⟨t, hf, ha⟩ | ⟨hnot, ⟨ha, hlen⟩ | ⟨ha, hne⟩⟩
  · refine .inl ⟨0, t, by rw [searchForChars, ha], ?_, hf, by simp⟩
    rw [Allows]
    omega
  · refine .inr ⟨by rw [searchForChars, ha], fun k u _ ⟨_, hs, _⟩ => ?_⟩
    have := congrArg length hs
    rw [length_drop, length_append] at this
    omega
  obtain ⟨c, s, rfl⟩ := exists_cons_of_ne_nil hne
  rw [length_cons] at hlo
  by_cases hd : d = 0
  · refine .inr ⟨by rw [searchForChars, ha]; exact if_pos hd, fun k u hk => ?_⟩
    obtain rfl : k = 0 := by
      rw [Allows] at hk
      omega
    exact hnot u
  have hs : searchForChars p false d (c :: s) = searchForChars p false (d - 1) s := by
    rw [searchForChars, ha]
    dsimp only
    rw [if_neg hd, toInt_eq (by omega) (by omega)]
  have hpred {k : ℕ} : Allows d (k + 1) ↔ Allows (d - 1) k := by
    simp only [Allows]
    omega
  rw [hs]
  have hrest := h.search_cases (d - 1) s (by omega) (by omega)
  rcases hrest with ⟨n, t, hn, hm, hf, hl⟩ | ⟨hn, hf⟩
  · refine .inl ⟨n + 1, t, hn, hpred.mpr hm, hf, fun k u hk hu => ?_⟩
    cases k with
    | zero => exact absurd hu (hnot u)
    | succ k => exact Nat.succ_le_succ (hl k u (hpred.mp hk) hu)
  · refine .inr ⟨hn, fun k u hk hu => ?_⟩
    cases k with
    | zero => exact hnot u hu
    | succ k => exact hf k u (hpred.mp hk) hu

theorem tokens_eq_nil_iff (h : ∀ c ∈ p.head?, isWildcard c) : tokens false p = [] ↔ p = [] := by
  cases p with
  | nil => exact iff_of_true rfl rfl
  | cons c p =>
    have hc : isWildcard c = true := h c rfl
    simp only [isWildcard, Bool.or_eq_true, decide_eq_true_eq] at hc
    rcases hc with rfl | rfl <;> simp [tokens]

theorem isWild_head_tokens (h : ∀ c ∈ p.head?, isWildcard c) :
    ∀ w ∈ (tokens false p).head?, w.isWild := by
  cases p with
  | nil => simp [tokens]
  | cons c p =>
    have hc : isWildcard c = true := h c rfl
    simp only [isWildcard, Bool.or_eq_true, decide_eq_true_eq] at hc
    rcases hc with rfl | rfl <;> simp [tokens, Token.isWild]

theorem allows_iff_within (n : ℕ) :
    Allows (if .star ∈ ws then -1 else (ws.length : ℤ)) n ↔ Within ws n := by
  rw [Allows, Within]
  split_ifs with hstar
  · exact iff_of_true (.inl (by omega)) (.inl hstar)
  · simp only [hstar, false_or]
    omega

theorem Takes.eq_nil_of_nil (h : Takes false p l q) (hp : ∀ c ∈ p.head?, isWildcard c = false)
    (hl : l = []) : q = [] := by
  cases q with
  | nil => rfl
  | cons c q =>
    rw [← (h.eq_of_nil hl).2] at hp
    exact absurd (h.head c rfl) (by simp [hp c rfl])

theorem Found.length_le (h : Found l q (s.drop n) t) : t.length ≤ s.length := by
  have := congrArg length h.2.1
  rw [length_drop, length_append] at this
  omega

/-- At the first place the distance allows, only the rest is left to match. -/
theorem Found.first_iff {d : ℤ} {p : List Token} (hf : Found l q (s.drop n) t) (hn : Allows d n)
    (hle : ∀ k u, Allows d k → Found l q (s.drop k) u → n ≤ k) (hq : q ≠ []) :
    (none ∉ l ∧ ∃ k u, Allows d k ∧ s.drop k = l ++ u ∧ (q = [] → u = []) ∧
      (q ≠ [] → (∀ j < k, ¬ l <+: s.drop j) ∧ MatchesFirst p u)) ↔ MatchesFirst p t := by
  constructor
  · rintro ⟨-, k, u, hk, hu, -, hcons⟩
    obtain ⟨hfirst, h⟩ := hcons hq
    have hnk := hle k u hk ⟨hf.1, hu, fun h => absurd h hq⟩
    obtain rfl : n = k := by
      by_contra hne
      exact hfirst n (by omega) ⟨t, hf.2.1.symm⟩
    rwa [append_cancel_left (hu.symm.trans hf.2.1)] at h
  · intro h
    refine ⟨hf.1, n, t, hn, hf.2.1, hf.2.2, fun _ => ⟨fun k hk hpre => ?_, h⟩⟩
    obtain ⟨u, hu⟩ := hpre
    have hallow : Allows d k := hn.imp_right fun h => by omega
    have := hle k u hallow ⟨hf.1, hu.symm, fun h => absurd h hq⟩
    omega

theorem matchLoop_iff {fuel : ℕ} (hf : p.length < fuel) (hp : Complete false p)
    (hlen : p.length < 2 ^ 31) (hs : s.length < 2 ^ 31) :
    matchLoop fuel s p = true ↔ MatchesFirst (tokens false p) s := by
  induction fuel generalizing p s with
  | zero => exact absurd hf (Nat.not_lt_zero _)
  | succ fuel ih =>
    obtain ⟨ws, he, hd⟩ := eatLoop_spec 0 false p (by omega)
    obtain ⟨l, q, ht⟩ := exists_takes (he.complete hp)
    rw [matchLoop, eatWildcards]
    change Eats ws p (eatLoop 0 false p).2 at he
    replace hd : (eatLoop 0 false p).1 = if .star ∈ ws then -1 else (ws.length : ℤ) := by
      simpa using hd
    generalize eatLoop 0 false p = r at *
    have hwithin (n : ℕ) : Within ws n ↔ Allows r.1 n := by rw [hd, allows_iff_within]
    have hl := ht.eq_nil_of_nil he.head
    have hep := he.length_le
    have htr := ht.length_le
    have hhi : -1 ≤ r.1 ∧ r.1 < 2 ^ 31 := by
      rw [hd]
      split_ifs <;> omega
    rw [he.tokens_eq, ht.tokens_eq, matchesFirst_iff he.isWild
      (fun h => (tokens_eq_nil_iff ht.head).mpr (hl h)) (isWild_head_tokens ht.head)]
    simp only [ne_eq, tokens_eq_nil_iff ht.head, hwithin]
    rcases ht.search_cases r.1 s (by omega) hhi.2 with
      ⟨n, t, hn, hnd, hfo, hle⟩ | ⟨hn, hnot⟩ <;> rw [hn]
    · by_cases hq : q = []
      · subst hq
        exact iff_of_true rfl ⟨hfo.1, n, t, hnd, hfo.2.1, hfo.2.2, fun h => absurd rfl h⟩
      have hpos := length_pos_iff.mpr fun h => hq (hl h)
      have hts := hfo.length_le
      have hne : q.isEmpty = false := by simpa using hq
      simp only [hne, Bool.false_or]
      rw [ih (by omega) ht.complete (by omega) (by omega)]
      exact (hfo.first_iff hnd hle hq).symm
    · refine iff_of_false (by simp) ?_
      rintro ⟨hnone, k, u, hk, hu, hnil, -⟩
      exact hnot k u hk ⟨hnone, hu, hnil⟩

end ChromiumBase.Pattern
