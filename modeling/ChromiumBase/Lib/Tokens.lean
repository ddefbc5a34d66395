import Mathlib.Data.List.Basic

/-!
# Tokens between delimiters

`tokens delim input` are the longest parts of a list without a delimiter that are not empty, as a
tokenizer returns them one after the other: delimiters are skipped, however many come together.
Lists put together from lines with delimiters behind them give back the lines that are not empty.
-/

open List

namespace Tokens

variable {α : Type*} {delim : α → Bool} {c : α} {l ends : List α} (token : List α)

def tokensFrom [DecidableEq α] (delim : α → Bool) : List α → List α → List (List α)
  | token, [] => if token = [] then [] else [token]
  | token, c :: rest =>
    if delim c then
      if token = [] then tokensFrom delim [] rest else token :: tokensFrom delim [] rest
    else tokensFrom delim (token ++ [c]) rest

def tokens [DecidableEq α] (delim : α → Bool) (input : List α) : List (List α) :=
  tokensFrom delim [] input

def Free (delim : α → Bool) (l : List α) : Prop := ∀ c ∈ l, delim c = false

theorem Free.nil : Free delim [] := fun _ h => absurd h not_mem_nil

theorem Free.append {a b : List α} (ha : Free delim a) (hb : Free delim b) :
    Free delim (a ++ b) := fun c hc => (mem_append.mp hc).elim (ha c) (hb c)

theorem append_eq_append_cons {x : α} {line rest a b : List α} (h : x ∉ line)
    (heq : line ++ rest = a ++ x :: b) : ∃ a', rest = a' ++ x :: b := by
  rcases append_eq_append_iff.mp heq with ⟨a', -, h'⟩ | ⟨_ | ⟨y, c⟩, rfl, hb⟩
  · exact ⟨a', h'⟩
  · exact ⟨[], hb.symm⟩
  · obtain ⟨rfl, -⟩ := List.cons.inj hb
    exact absurd (mem_append_right _ mem_cons_self) h

variable [DecidableEq α]

def close (token : List α) : List (List α) := if token = [] then [] else [token]

theorem tokensFrom_cons_delim (hc : delim c = true) (rest : List α) :
    tokensFrom delim token (c :: rest) = close token ++ tokens delim rest := by
  rw [tokensFrom, if_pos hc, close]
  split <;> rfl

theorem tokensFrom_cons_free (hc : delim c = false) (rest : List α) :
    tokensFrom delim token (c :: rest) = tokensFrom delim (token ++ [c]) rest := by
  rw [tokensFrom, if_neg (by simp [hc])]

theorem tokens_cons_delim (hc : delim c = true) (rest : List α) :
    tokens delim (c :: rest) = tokens delim rest :=
  tokensFrom_cons_delim [] hc rest

theorem tokensFrom_append_free (hl : Free delim l) (rest : List α) :
    tokensFrom delim token (l ++ rest) = tokensFrom delim (token ++ l) rest := by
  induction l generalizing token with
  | nil => rw [nil_append, append_nil]
  | cons c l ih =>
    rw [cons_append, tokensFrom_cons_free token (hl c mem_cons_self),
      ih (token ++ [c]) fun c hc => hl c (mem_cons_of_mem _ hc), append_assoc,
      singleton_append]

theorem tokens_append_delim (hl : Free delim l) (hc : delim c = true) (rest : List α) :
    tokens delim (l ++ c :: rest) = close l ++ tokens delim rest := by
  rw [tokens, tokensFrom_append_free [] hl, nil_append, tokensFrom_cons_delim l hc]

theorem tokens_append_delims (hl : Free delim l) (hne : ends ≠ []) (he : ∀ c ∈ ends, delim c = true)
    (rest : List α) : tokens delim (l ++ (ends ++ rest)) = close l ++ tokens delim rest := by
  obtain ⟨c, ends, rfl⟩ := exists_cons_of_ne_nil hne
  rw [cons_append, tokens_append_delim hl (he c mem_cons_self)]
  replace he := fun c hc => he c (mem_cons_of_mem _ hc)
  clear hne
  induction ends with
  | nil => rfl
  | cons c ends ih =>
    rw [cons_append, tokens_cons_delim (he c mem_cons_self),
      ih fun c hc => he c (mem_cons_of_mem _ hc)]

theorem tokens_flatMap {lines : List (List α)} (hl : ∀ line ∈ lines, Free delim line)
    (hne : ends ≠ []) (he : ∀ c ∈ ends, delim c = true) (rest : List α) :
    tokens delim (lines.flatMap (· ++ ends) ++ rest) =
      lines.filter (· ≠ []) ++ tokens delim rest := by
  induction lines with
  | nil => rfl
  | cons line lines ih =>
    rw [flatMap_cons, append_assoc, append_assoc, tokens_append_delims (hl line mem_cons_self) hne
      he, ih fun line hli => hl line (mem_cons_of_mem _ hli), close, filter_cons]
    by_cases hnil : line = [] <;> simp [hnil]

theorem tokensFrom_spec {token input : List α} (hto : Free delim token) :
    ∀ t ∈ tokensFrom delim token input, Free delim t := by
  have hcl : ∀ {token : List α}, Free delim token → ∀ t ∈ close token, Free delim t := by
    intro token hto t ht
    rw [close] at ht
    split at ht
    · exact absurd ht not_mem_nil
    · rwa [mem_singleton.mp ht]
  induction input generalizing token with
  | nil => exact hcl hto
  | cons c input ih =>
    cases hc : delim c with
    | true =>
      rw [tokensFrom_cons_delim token hc]
      intro t ht
      exact (mem_append.mp ht).elim (hcl hto t) (ih Free.nil t)
    | false =>
      rw [tokensFrom_cons_free token hc]
      refine ih (hto.append fun d hd => ?_)
      rwa [mem_singleton.mp hd]

theorem flatten_tokensFrom (input : List α) :
    (tokensFrom delim token input).flatten = token ++ input.filter (!delim ·) := by
  have hcl : ∀ token : List α, (close token).flatten = token := by
    intro token
    rw [close]
    split
    next hnil => rw [hnil, flatten_nil]
    · rw [flatten_singleton]
  induction input generalizing token with
  | nil => exact (hcl token).trans (append_nil token).symm
  | cons c input ih =>
    cases hc : delim c with
    | true =>
      rw [tokensFrom_cons_delim token hc, flatten_append, hcl, tokens, ih,
        filter_cons_of_neg (by simp [hc]), nil_append]
    | false =>
      rw [tokensFrom_cons_free token hc, ih, filter_cons_of_pos (by simp [hc]),
        append_assoc, singleton_append]

theorem flatten_tokens (delim : α → Bool) (input : List α) :
    (tokens delim input).flatten = input.filter (!delim ·) :=
  flatten_tokensFrom [] input

end Tokens
