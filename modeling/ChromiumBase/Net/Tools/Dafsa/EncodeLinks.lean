import ChromiumBase.Lib.Outcome
import ChromiumBase.Net.Base.LookupStringInFixedSet
import ChromiumBase.Net.Tools.Dafsa.MakeDafsa

/-!
# The links of an encoded node

`encode_links` writes the distances to the children of a node, and the walk of
`LookupStringInFixedSet` reads them back.  The distance of the first link depends on the
length of the links themselves; the length is guessed, and the guesses only get smaller, so
that the loop ends with the right one.
-/

open List Except

namespace ChromiumBase.MakeDafsa

open Outcome FixedSet

/-- The only failure that depends on the size of the input. -/
abbrev TooLong (e : Failure) : Prop :=
  e = .linkTooLong

theorem length_encodeDistance_mono {a b : ℕ} (h : a ≤ b) :
    (encodeDistance a).length ≤ (encodeDistance b).length := by
  unfold encodeDistance
  split_ifs <;> simp_all <;> omega

/-! The first byte of a link, without and with the mark of the last link. -/

theorem first_byte_short : ∀ x < 64, isEOL x = false ∧ isEOL (x ||| 1 <<< 7) = true ∧
    ∀ b ∈ [x, x ||| 1 <<< 7], ¬ b &&& 0x60 = 0x60 ∧ ¬ b &&& 0x60 = 0x40 ∧ b &&& 0x3F = x := by
  decide

theorem first_byte_medium : ∀ x < 32, isEOL (0x40 ||| x) = false ∧
    isEOL ((0x40 ||| x) ||| 1 <<< 7) = true ∧ ∀ b ∈ [0x40 ||| x, (0x40 ||| x) ||| 1 <<< 7],
      ¬ b &&& 0x60 = 0x60 ∧ b &&& 0x60 = 0x40 ∧ b &&& 0x1F = x := by
  decide

theorem first_byte_long : ∀ x < 32, isEOL (0x60 ||| x) = false ∧
    isEOL ((0x60 ||| x) ||| 1 <<< 7) = true ∧ ∀ b ∈ [0x60 ||| x, (0x60 ||| x) ||| 1 <<< 7],
      b &&& 0x60 = 0x60 ∧ b &&& 0x1F = x := by
  decide

theorem shiftRight_shiftLeft_or (d : ℕ) : (d >>> 8) <<< 8 ||| (d &&& 0xFF) = d := by
  rw [show d &&& 0xFF = d % 256 from Nat.and_two_pow_sub_one_eq_mod d 8,
    ← Nat.shiftLeft_add_eq_or_of_lt (by omega), Nat.shiftRight_eq_div_pow, Nat.shiftLeft_eq]
  omega

theorem three_bytes (d : ℕ) :
    (d >>> 16) <<< 16 ||| ((d >>> 8) &&& 0xFF) <<< 8 ||| (d &&& 0xFF) = d := by
  have high : (d >>> 16) <<< 16 ||| ((d >>> 8) &&& 0xFF) <<< 8 = (d >>> 8) <<< 8 := by
    have h := congrArg (· <<< 8) (shiftRight_shiftLeft_or (d >>> 8))
    simpa [Nat.shiftLeft_or_distrib, ← Nat.shiftLeft_add, ← Nat.shiftRight_add] using h
  rw [high, shiftRight_shiftLeft_or]

variable {d offset : ℕ} {buf : List (List ℕ)} {ks memory : List ℕ} (link : List ℕ)

/-- A distance is read back, with the mark for the last link or without. -/
theorem exists_encodeDistance (hd : d < 1 <<< 21) :
    ∃ b bytes, encodeDistance d = b :: bytes ∧ isEOL b = false ∧
      isEOL (b ||| 1 <<< 7) = true ∧ ∀ first ∈ [b, b ||| 1 <<< 7], ∀ tail,
        readOffset (first :: (bytes ++ tail)) = some (d, bytes.length + 1) := by
  unfold encodeDistance
  split_ifs with h6 h13
  · obtain ⟨he, he', hb⟩ := first_byte_short d h6
    refine ⟨d, [], rfl, he, he', fun first hf tail => ?_⟩
    obtain ⟨h1, h2, h3⟩ := hb first hf
    simp [readOffset, h1, h2, h3]
  · have hx : d >>> 8 < 32 := by
      omega
    obtain ⟨he, he', hb⟩ := first_byte_medium _ hx
    refine ⟨_, [d &&& 0xFF], rfl, he, he', fun first hf tail => ?_⟩
    obtain ⟨h1, h2, h3⟩ := hb first hf
    simp [readOffset, h2, h3, shiftRight_shiftLeft_or]
  · have hx : d >>> 16 < 32 := by
      omega
    obtain ⟨he, he', hb⟩ := first_byte_long _ hx
    refine ⟨_, [(d >>> 8) &&& 0xFF, d &&& 0xFF], rfl, he, he', fun first hf tail => ?_⟩
    obtain ⟨h1, h2⟩ := hb first hf
    simp [readOffset, h1, h2, three_bytes]

theorem getNextOffset_encodeDistance (hd : d < 1 <<< 21) (tail offset : List ℕ) :
    getNextOffset (encodeDistance d ++ tail) offset = some (some tail, offset.drop d) := by
  obtain ⟨b, bytes, heq, he, -, hr⟩ := exists_encodeDistance hd
  rw [heq, cons_append, getNextOffset, hr b (by simp) tail]
  simp [he]

theorem getNextOffset_markFirst (hd : d < 1 <<< 21) (tail offset : List ℕ) :
    getNextOffset (markFirst (encodeDistance d) ++ tail) offset = some (none, offset.drop d) := by
  obtain ⟨b, bytes, heq, -, he, hr⟩ := exists_encodeDistance hd
  rw [heq, markFirst, cons_append, getNextOffset, hr _ (by simp) tail]
  simp only [Option.map_some, he, if_true]

theorem length_markFirst (bytes : List ℕ) : (markFirst bytes).length = bytes.length := by
  cases bytes <;> rfl

theorem markLast_singleton : markLast [link] = markFirst link := by
  simp [markLast]

theorem markLast_cons (h : buf ≠ []) : markLast (link :: buf) = link ++ markLast buf := by
  simp [markLast, dropLast_cons_of_ne_nil h, getLast?_cons, getLast?_eq_some_getLast h]

theorem length_markLast (buf : List (List ℕ)) : (markLast buf).length = buf.flatten.length := by
  induction buf with
  | nil => rfl
  | cons link buf ih =>
    by_cases h : buf = []
    · subst h
      simp [markLast_singleton, length_markFirst]
    · rw [markLast_cons link h, length_append, ih, flatten_cons, length_append]

def target (memory : List ℕ) (k : ℕ) : ℕ × List ℕ :=
  match memory.drop (memory.length - k) with
  | [] => (0, [])
  | b :: rest => (b, rest)

theorem target_cons {k : ℕ} (hk : 0 < k) (hle : k ≤ memory.length) :
    (target memory k).1 :: (target memory k).2 = memory.drop (memory.length - k) := by
  have hne : memory.drop (memory.length - k) ≠ [] := by
    rw [← length_pos_iff, length_drop]
    omega
  rw [target]
  split
  · contradiction
  · rename_i heq
    exact heq.symm

/-- The links lead to the children they were written for. -/
theorem links_encodeDistances {tail : List ℕ} (h : encodeDistances offset ks = .ok buf)
    (hne : ks ≠ []) (hoff : offset ≤ memory.length) (hks : ∀ k ∈ ks, 0 < k) :
    buf ≠ [] ∧ Links (markLast buf ++ tail) (memory.drop (memory.length - offset))
      (ks.map (target memory)) := by
  induction ks generalizing offset buf with
  | nil => exact absurd rfl hne
  | cons k ks ih =>
    rw [encodeDistances] at h
    split_ifs at h with hlt hlo
    obtain ⟨buf', hbuf', heq⟩ := exists_of_bind_eq_ok h
    obtain rfl := ok.inj heq
    have hd : (memory.drop (memory.length - offset)).drop (offset - k) =
        (target memory k).1 :: (target memory k).2 := by
      rw [target_cons (hks k mem_cons_self) (by omega), drop_drop]
      congr 1
      omega
    refine ⟨cons_ne_nil _ _, ?_⟩
    by_cases hks' : ks = []
    · subst hks'
      obtain rfl : buf' = [] := by
        exact (ok.inj hbuf').symm
      have hn := getNextOffset_markFirst hlo tail (memory.drop (memory.length - offset))
      rw [hd] at hn
      rw [markLast_singleton, map_singleton]
      exact .last hn
    · obtain ⟨hne', hl⟩ := ih hbuf' hks' (by omega)
        fun k hk => hks k (mem_cons_of_mem _ hk)
      have hn := getNextOffset_encodeDistance hlo (markLast buf' ++ tail)
        (memory.drop (memory.length - offset))
      rw [hd] at hn
      rw [← target_cons (hks k mem_cons_self) (by omega)] at hl
      rw [markLast_cons _ hne', append_assoc, map_cons]
      exact .more hn hl

theorem encodeDistances_returns (h : (offset :: ks).Pairwise (· > ·)) :
    ReturnsUnless TooLong (encodeDistances offset ks) fun buf =>
      ks.length ≤ buf.flatten.length ∧ buf.flatten.length ≤ 3 * ks.length := by
  induction ks generalizing offset with
  | nil => simp [encodeDistances]
  | cons k ks ih =>
    obtain ⟨hlt, hks⟩ := pairwise_cons.1 h
    rw [encodeDistances, if_pos (hlt k mem_cons_self)]
    split_ifs with hl
    · refine (ih hks).bind fun buf hbuf => ?_
      have : 0 < (encodeDistance (offset - k)).length ∧
          (encodeDistance (offset - k)).length ≤ 3 := by
        unfold encodeDistance
        split_ifs <;> simp
      simp only [returnsUnless_ok, flatten_cons, length_append, length_cons]
      omega
    · rfl

theorem length_encodeDistances_mono {a b : ℕ} (hab : a ≤ b) {buf' : List (List ℕ)}
    (h : encodeDistances b ks = .ok buf) (h' : encodeDistances a ks = .ok buf') :
    buf'.flatten.length ≤ buf.flatten.length := by
  obtain _ | ⟨k, ks⟩ := ks
  · rw [encodeDistances] at h h'
    rw [← ok.inj h, ← ok.inj h']
  · rw [encodeDistances] at h h'
    split_ifs at h with hlt hl
    split_ifs at h' with hlt' hl'
    obtain ⟨rest, hr, heq⟩ := exists_of_bind_eq_ok h
    obtain ⟨rest', hr', heq'⟩ := exists_of_bind_eq_ok h'
    obtain rfl := ok.inj heq
    obtain rfl := ok.inj heq'
    obtain rfl : rest = rest' := ok.inj (hr.symm.trans hr')
    have := length_encodeDistance_mono (show a - k ≤ b - k by omega)
    simp only [flatten_cons, length_append]
    omega

/-- Once the links are not longer than the guess, every further guess is the length of the
links for the guess before, and the guesses decrease to one that is right. -/
theorem guessLinks_returns {current : ℕ} (hne : ks ≠ []) (hks : ks.Pairwise (· > ·))
    (hle : ∀ k ∈ ks, k ≤ current) {n guess : ℕ} (hn : guess < n) (hpos : 0 < guess)
    (hg : ∀ buf, encodeDistances (current + guess) ks = .ok buf → buf.flatten.length ≤ guess) :
    ReturnsUnless TooLong (guessLinks ks current n guess) fun buf =>
      encodeDistances (current + buf.flatten.length) ks = .ok buf := by
  induction n generalizing guess with
  | zero => omega
  | succ n ih =>
    have hs : ((current + guess) :: ks).Pairwise (· > ·) := by
      refine pairwise_cons.2 ⟨fun k hk => ?_, hks⟩
      have := hle k hk
      omega
    have hret := encodeDistances_returns hs
    rw [guessLinks]
    cases hbuf : encodeDistances (current + guess) ks with
    | error e =>
      rw [hbuf] at hret
      exact hret
    | ok buf =>
      rw [hbuf, returnsUnless_ok] at hret
      rw [returnsUnless_ok_bind]
      split_ifs with hlen
      · rw [returnsUnless_ok, hlen, hbuf]
      · have hle' := hg buf hbuf
        have hpos' := length_pos_iff.2 hne
        refine ih (by omega) (by omega) fun buf' hbuf' => ?_
        exact length_encodeDistances_mono (by omega) hbuf hbuf'

end ChromiumBase.MakeDafsa
