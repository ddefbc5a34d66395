import Mathlib.Data.List.Basic
import Mathlib.Logic.Relation

/-!
# Replacing the matches in a string

`DoReplaceMatchesAfterOffset` (`base/strings/string_util.cc`) serves `ReplaceSubstringsAfterOffset`,
`ReplaceChars` and `RemoveChars`.  It overwrites matches of the same length, moves the text down if
it gets shorter, and if it gets longer either builds a new string or first moves the text up.

All of them give `replaceMatches`, as long as the result is not longer than a string can be.  The
length of a longer result is computed modulo the range of `size_t`, and the text may then be written
past the end of the buffer (`doReplaceMatchesAfterOffset_iff`).
-/

open List Option

namespace ChromiumBase.StringUtil

variable {α : Type*}

/-- What is looked for: whether a match starts in front of the text, and its length. -/
structure Matcher (α : Type*) where
  isMatch : List α → Bool
  matchSize : ℕ
  bounds : ∀ l, isMatch l → 0 < matchSize ∧ matchSize ≤ l.length

/-- An empty string is never looked for. -/
def substringMatcher [DecidableEq α] (findThis : List α) : Matcher α where
  isMatch l := findThis ≠ [] && findThis.isPrefixOf l
  matchSize := findThis.length
  bounds l h := by
    simp only [ne_eq, Bool.and_eq_true, decide_eq_true_eq, isPrefixOf_iff_prefix] at h
    exact ⟨length_pos_iff.mpr h.1, h.2.length_le⟩

def characterMatcher [DecidableEq α] (findAnyOfThese : List α) : Matcher α where
  isMatch l := l.head?.any (· ∈ findAnyOfThese)
  matchSize := 1
  bounds l h := by
    cases l with
    | nil => cases h
    | cons c l => simp

def Matcher.search (m : Matcher α) : List α → Option ℕ
  | [] => none
  | c :: l => if m.isMatch (c :: l) then some 0 else (m.search l).map (· + 1)

/-- Nothing is `npos`. -/
def Matcher.find (m : Matcher α) (input : List α) (pos : ℕ) : Option ℕ :=
  (m.search (input.drop pos)).map (pos + ·)

/-- The range of `size_t`, and `max_size()` of strings. -/
structure Platform where
  modulus : ℕ
  maxSize : ℕ
  maxSize_lt : maxSize < modulus

inductive ReplaceType
  | replaceAll
  | replaceFirst
deriving DecidableEq

section Source

variable (p : Platform) (m : Matcher α) (replaceWith : List α)

/-- `copy` into a buffer; nothing is a write outside of it. -/
def copy (buffer : List α) (offset : ℕ) (l : List α) : Option (List α) :=
  if offset + l.length ≤ buffer.length then
    some (buffer.take offset ++ (l ++ buffer.drop (offset + l.length)))
  else none

/-- A string that an operation of the library makes; it cannot be longer than `max_size()`. -/
def allocate (l : List α) : Option (List α) := if l.length ≤ p.maxSize then some l else none

variable [Inhabited α] (capacity : ℕ) (str : List α) (firstMatch : ℕ)

def resize (l : List α) (n : ℕ) : Option (List α) :=
  allocate p (l.take n ++ replicate (n - l.length) default)

def overwriteLoop : ℕ → Option ℕ → List α → Option (List α)
  | _, none, buffer => some buffer
  | 0, some _, _ => none
  | fuel + 1, some offset, buffer => do
    let buffer ← copy buffer offset replaceWith
    overwriteLoop fuel (m.find buffer (offset + replaceWith.length)) buffer

def countLoop (str : List α) : ℕ → Option ℕ → ℕ → ℕ → ℕ × ℕ
  | fuel + 1, some i, expansion, numMatches =>
    countLoop str fuel (m.find str (i + m.matchSize))
      ((expansion + (replaceWith.length - m.matchSize)) % p.modulus) (numMatches + 1)
  | _, _, expansion, numMatches => (expansion, numMatches)

def appendLoop (src : List α) : ℕ → ℕ → ℕ → List α → List α
  | numMatches + 1, i, pos, str =>
    let str := str ++ (src.drop pos).take (i - pos) ++ replaceWith
    let pos := i + m.matchSize
    if numMatches = 0 then str ++ src.drop pos
    else appendLoop src numMatches ((m.find src pos).getD 0) pos str
  | 0, _, _, str => str

structure State (α : Type*) where
  buffer : List α
  writeOffset : ℕ
  readOffset : ℕ

/-- A round of the loop that works in place.  A negative length is a huge one, and the move then
leaves the buffer. -/
def step (strLength : ℕ) (s : State α) : Option (State α) := do
  let buffer ← copy s.buffer s.writeOffset replaceWith
  let writeOffset := s.writeOffset + replaceWith.length
  let readOffset := (s.readOffset + m.matchSize) % p.modulus
  let i := min ((m.find buffer readOffset).getD strLength) strLength
  if readOffset ≤ i ∧ i ≤ buffer.length then
    let buffer ← copy buffer writeOffset ((buffer.drop readOffset).take (i - readOffset))
    return ⟨buffer, writeOffset + (i - readOffset), i⟩
  else none

def inPlaceLoop (strLength : ℕ) : ℕ → State α → Option (List α)
  | 0, _ => none
  | fuel + 1, s => do
    let s ← step p m replaceWith strLength s
    if s.readOffset < strLength then inPlaceLoop strLength fuel s
    else resize p s.buffer s.writeOffset

/-- The characters from `shiftSrc` on are moved to `shiftDst`, which may be behind the end. -/
def shift (shiftSrc shiftDst : ℕ) : Option (List α) :=
  let padded := str ++ replicate (shiftDst - str.length) default
  let tail := str.drop shiftSrc
  allocate p (padded.take shiftDst ++ (tail ++ padded.drop (shiftDst + tail.length)))

/-- How a string is made longer: a new string, or the length and the state of the loop in place. -/
def grow : Option (List α ⊕ ℕ × State α) :=
  let (expansion, numMatches) :=
    countLoop p m replaceWith str str.length (some firstMatch) 0 0
  let finalLength := (str.length + expansion) % p.modulus
  if capacity < finalLength then
    (allocate p (appendLoop m replaceWith str numMatches firstMatch 0 [])).map .inl
  else do
    let shiftSrc := firstMatch + m.matchSize
    let shiftDst := (shiftSrc + expansion) % p.modulus
    let shifted ← shift p str shiftSrc shiftDst
    return .inr (finalLength, ⟨shifted, firstMatch, (firstMatch + expansion) % p.modulus⟩)

/-- The start of the loop in place, or the result of the branches without it. -/
def prepare : Option (List α ⊕ ℕ × State α) :=
  if m.matchSize = replaceWith.length then
    (overwriteLoop m replaceWith str.length (some firstMatch) str).map .inl
  else if m.matchSize < replaceWith.length then
    grow p m replaceWith capacity str firstMatch
  else some (.inr (str.length, ⟨str, firstMatch, firstMatch⟩))

def replaceAll : Option (List α) := do
  match ← prepare p m replaceWith capacity str firstMatch with
  | .inl str => some str
  | .inr (strLength, s) => inPlaceLoop p m replaceWith strLength str.length s

/-- Whether there was a match, and the string; nothing if the program ends or writes outside of
the buffer. -/
def doReplaceMatchesAfterOffset (replaceType : ReplaceType) (capacity : ℕ)
    (str : List α) (initialOffset : ℕ) : Option (Bool × List α) :=
  if m.matchSize = 0 then some (false, str)
  else match m.find str initialOffset with
    | none => some (false, str)
    | some firstMatch => (true, ·) <$> match replaceType with
      | .replaceFirst => allocate p
          (str.take firstMatch ++ (replaceWith ++ str.drop (firstMatch + m.matchSize)))
      | .replaceAll => replaceAll p m replaceWith capacity str firstMatch

end Source

section Scan

variable (m : Matcher α) (replaceWith : List α)

/-- Every match is replaced, from left to right; `skip` characters belong to the last one. -/
def replaceMatches : ℕ → List α → List α
  | _, [] => []
  | skip + 1, _ :: l => replaceMatches skip l
  | 0, c :: l =>
    if m.isMatch (c :: l) then replaceWith ++ replaceMatches (m.matchSize - 1) l
    else c :: replaceMatches 0 l

/-- The matches of a text, one after the other, and the text with replacements. -/
inductive Scan : ℕ → List α → List α → Prop
  | rest {l : List α} (h : m.search l = none) : Scan 0 l l
  | found {gap mid rest out : List α} {n : ℕ} (h : m.search (gap ++ (mid ++ rest)) = gap.length)
      (hpos : 0 < m.matchSize) (hm : mid.length = m.matchSize) (hs : Scan n rest out) :
      Scan (n + 1) (gap ++ (mid ++ rest)) (gap ++ (replaceWith ++ out))

end Scan

variable {p : Platform} {m : Matcher α} {r l out : List α} {n : ℕ}

theorem Scan.cons {c : α} (hc : ¬ m.isMatch (c :: l)) (h : Scan m r n l out) :
    Scan m r n (c :: l) (c :: out) := by
  have hs : m.search (c :: l) = (m.search l).map (· + 1) := if_neg hc
  cases h with
  | rest h => exact .rest (by rw [hs, h]; rfl)
  | @found gap _ _ _ _ h hpos hm h' =>
    exact @Scan.found _ _ _ (c :: gap) _ _ _ _ (by rw [cons_append, hs, h]; rfl) hpos hm h'

/-- The matches of the rest of a text, behind the characters that belong to the last one. -/
theorem exists_scan (l : List α) (k : ℕ) : ∃ n, Scan m r n (l.drop k) (replaceMatches m r k l) := by
  induction l generalizing k with
  | nil => exact ⟨0, by rw [drop_nil, replaceMatches]; exact .rest rfl⟩
  | cons c l ih =>
    cases k with
    | succ k => exact ih k
    | zero =>
      rw [replaceMatches, drop_zero]
      split_ifs with hc
      · obtain ⟨hpos, hle⟩ := m.bounds _ hc
        obtain ⟨n, h⟩ := ih (m.matchSize - 1)
        rw [← drop_succ_cons (a := c), Nat.sub_add_cancel hpos] at h
        have := @Scan.found _ m r [] ((c :: l).take m.matchSize) _ _ n
          (by rw [nil_append, take_append_drop]; exact if_pos hc) hpos (length_take_of_le hle) h
        rw [take_append_drop] at this
        exact ⟨n + 1, this⟩
      · obtain ⟨n, h⟩ := ih 0
        exact ⟨n, .cons hc h⟩

theorem Scan.length_eq (h : Scan m r n l out) :
    out.length + n * m.matchSize = l.length + n * r.length := by
  induction h with
  | rest => simp
  | found _ _ hm _ ih =>
    simp only [length_append, Nat.succ_mul]
    omega

theorem Scan.exists_fuel (h : Scan m r n l out) (pre : List α) {mid : List α}
    (hm : mid.length = m.matchSize) (hpos : 0 < m.matchSize) :
    ∃ k, (pre ++ (mid ++ l)).length = k + n + 1 := by
  have hle : n ≤ l.length := by
    induction h with
    | rest => simp
    | found _ _ hm _ ih =>
      simp only [length_append]
      omega
  exact ⟨pre.length + mid.length + l.length - n - 1, by simp only [length_append]; omega⟩

theorem find_behind (pre mid l : List α) : m.find (pre ++ (mid ++ l)) (pre.length + mid.length) =
      (m.search l).map (pre.length + mid.length + ·) := by
  rw [Matcher.find, ← append_assoc, ← length_append, drop_left]

theorem copy_append (done l : List α) {a : List α} (h : a.length = r.length) :
    copy (done ++ (a ++ l)) done.length r = some (done ++ (r ++ l)) := by
  rw [copy, if_pos (by simp only [length_append]; omega), take_left, ← h, ← drop_drop, drop_left,
    drop_left]

theorem exists_split {k : ℕ} (h : k ≤ l.length) : ∃ a b, l = a ++ b ∧ a.length = k :=
  ⟨l.take k, l.drop k, (take_append_drop ..).symm, length_take_of_le h⟩

/-! ## The loops without moves

Each of them is at a match `mid`, behind which there are `n` more. -/

section Loops

variable {mid rest : List α} (h : Scan m r n rest out) (hm : mid.length = m.matchSize)

include h hm

theorem Scan.overwrite (heq : m.matchSize = r.length) (pre : List α) (k : ℕ) :
    overwriteLoop m r (k + n + 1) (some pre.length) (pre ++ (mid ++ rest)) =
      some (pre ++ (r ++ out)) := by
  induction h generalizing pre mid <;>
    rw [overwriteLoop, copy_append pre _ (hm.trans heq), bind_eq_bind, bind_some,
      find_behind]
  case rest h =>
    rw [h]
    cases k <;> rfl
  case found gap mid' rest out n h _ hm' _ ih =>
    have := ih hm' (pre ++ (r ++ gap))
    rw [h, map_some]
    simpa [Nat.add_assoc] using this

theorem Scan.count (pre : List α) (k expansion c : ℕ) :
    countLoop p m r (pre ++ (mid ++ rest)) (k + n + 1) (some pre.length) expansion c =
      ((expansion + (n + 1) * (r.length - m.matchSize)) % p.modulus, c + (n + 1)) := by
  induction h generalizing pre mid expansion c <;> rw [countLoop, ← hm, find_behind]
  case rest h =>
    rw [h]
    cases k <;> simp [countLoop]
  case found gap mid' rest out n h _ hm' _ ih =>
    have := ih hm' (pre ++ (mid ++ gap)) ((expansion + (r.length - mid.length)) % p.modulus) (c + 1)
    rw [h, map_some]
    simp only [append_assoc, length_append, ← Nat.add_assoc, ← hm] at this
    rw [← Nat.add_assoc k, this, Nat.mod_add_mod, Nat.succ_mul (n + 1), Nat.add_assoc,
      Nat.add_comm (r.length - _), Nat.add_right_comm c, Nat.add_assoc c, Nat.add_assoc c]

theorem Scan.append (pre gap str : List α) :
    appendLoop m r (pre ++ (gap ++ (mid ++ rest))) (n + 1) (pre.length + gap.length) pre.length
      str = str ++ (gap ++ (r ++ out)) := by
  induction h generalizing pre gap mid str <;>
    rw [appendLoop, drop_left, Nat.add_sub_cancel_left, take_left, ← hm, ← append_assoc pre,
      ← length_append]
  case rest h =>
    rw [if_pos rfl, ← length_append, ← append_assoc, drop_left]
    simp
  case found gap' mid' rest out n h _ hm' _ ih =>
    have := ih hm' (pre ++ (gap ++ mid)) gap' (str ++ gap ++ r)
    rw [if_neg (Nat.succ_ne_zero n), find_behind, h, map_some, getD_some]
    simpa [Nat.add_assoc] using this

end Loops

/-- At the start of a round, `done` is written, and in front of the rest `l` of the text there is
room for `n` more replacements. -/
def Ready (m : Matcher α) (r : List α) (s : State α) (n : ℕ) (done l : List α) : Prop :=
  ∃ junk : List α, s.buffer = done ++ (junk ++ l) ∧ s.writeOffset = done.length ∧
    s.readOffset + m.matchSize = done.length + junk.length ∧
    ∀ k ≤ n, (k + 1) * r.length ≤ junk.length + k * m.matchSize

abbrev Reaches (p : Platform) (m : Matcher α) (r : List α) (strLength : ℕ) :
    State α → State α → Prop :=
  Relation.ReflTransGen fun s s' => step p m r strLength s = some s' ∧ s'.readOffset < strLength

/-- The text that has not been searched is still there, and the replacement is written before
it. -/
def Intact (m : Matcher α) (r str : List α) (s : State α) : Prop :=
  s.writeOffset + r.length ≤ s.readOffset + m.matchSize ∧
    s.buffer.drop (s.readOffset + m.matchSize) <:+ str

section Step

variable {s : State α} {done : List α} {strLength : ℕ} (h : Ready m r s n done l)

include h

theorem Ready.intact : Intact m r l s := by
  obtain ⟨junk, hb, hw, hr, hroom⟩ := h
  have h0 := hroom 0 (Nat.zero_le _)
  have hd : s.buffer.drop (s.readOffset + m.matchSize) = l := by
    rw [hr, hb, ← append_assoc, ← length_append, drop_left]
  exact ⟨by omega, hd ▸ suffix_rfl⟩

variable (hl : s.buffer.length = strLength) (hlt : strLength < p.modulus)

include hl hlt

/-- A round writes the replacement and moves the text in front of the next match. -/
theorem Ready.step_eq {gap rest : List α} (heq : l = gap ++ rest)
    (hi : (m.search l).getD l.length = gap.length) : ∃ s' junk, step p m r strLength s = some s' ∧
      s'.buffer = done ++ (r ++ gap) ++ (junk ++ rest) ∧ s'.buffer.length = strLength ∧
      s'.writeOffset = (done ++ (r ++ gap)).length ∧
      s'.readOffset = (done ++ (r ++ gap)).length + junk.length ∧
      ∀ k ≤ n, (k + 1) * r.length ≤ junk.length + r.length + k * m.matchSize := by
  obtain ⟨junk, hb, hw, hr, hroom⟩ := h
  obtain ⟨a, b, rfl, ha⟩ := exists_split (by simpa using hroom 0 n.zero_le : r.length ≤ junk.length)
  obtain ⟨a', junk, hj, ha'⟩ := exists_split (by simp : gap.length ≤ (b ++ gap).length)
  have hlen := congrArg length hj
  rw [hb] at hl
  simp only [length_append] at hl hr hroom hlen
  have hread : s.readOffset + m.matchSize = (done ++ r).length + b.length := by
    rw [length_append]
    omega
  have hstr : (done ++ r).length + b.length + l.length = strLength := by
    omega
  have hle : gap.length ≤ l.length := by simp [heq]
  refine ⟨⟨_, _, _⟩, junk, ?_, rfl, ?_, rfl, rfl, fun k hk => ?_⟩
  · rw [step, hb, hw, hread, Nat.mod_eq_of_lt (by omega), append_assoc a, copy_append done _ ha,
      ← append_assoc]
    simp only [bind_eq_bind, bind_some, find_behind, ← hstr,
      getD_map ((done ++ r).length + b.length + ·), hi]
    rw [Nat.min_eq_left (by omega), if_pos (by simp only [length_append]; omega),
      Nat.add_sub_cancel_left, ← drop_drop, drop_left, drop_left, heq, take_left, ← append_assoc b,
      hj, append_assoc a', ← length_append, copy_append _ _ ha']
    simp only [append_assoc, length_append, bind_some, Nat.add_assoc]
    congr 2
    omega
  · rw [heq] at hl
    simp only [length_append] at hl ⊢
    omega
  · have := hroom k hk
    omega

/-- The result of the loop, and what it leaves alone on the way. -/
theorem Ready.run [Inhabited α] (hsc : Scan m r n l out) (k : ℕ)
    (hmax : (done ++ (r ++ out)).length ≤ p.maxSize) :
    inPlaceLoop p m r strLength (k + n + 1) s = some (done ++ (r ++ out)) ∧
      ∀ s', Reaches p m r strLength s s' → Intact m r l s' := by
  induction hsc generalizing s done
  case rest l hs =>
    obtain ⟨s₁, junk, hst, hb, hlen, hw, hr, -⟩ :=
      h.step_eq hl hlt (append_nil l).symm (by rw [hs]; rfl)
    have hend : ¬ s₁.readOffset < strLength := by
      simp only [← hlen, hb, hr, length_append, length_nil]
      omega
    refine ⟨?_, fun s' hre => ?_⟩
    · rw [inPlaceLoop, hst, bind_eq_bind, bind_some, if_neg hend, resize, hb, hw,
        take_left, Nat.sub_eq_zero_of_le (by simp), replicate_zero, append_nil, allocate,
        if_pos hmax]
    · rcases hre.cases_head with rfl | ⟨_, ⟨hst', hread⟩, -⟩
      · exact h.intact
      · cases hst.symm.trans hst'
        exact absurd hread hend
  case found gap mid rest out n hs hpos hm _ ih =>
    obtain ⟨s₁, junk, hst, hb, hlen, hw, hr, hroom⟩ := h.step_eq hl hlt rfl (by rw [hs]; rfl)
    have hread : s₁.readOffset < strLength := by
      simp only [← hlen, hb, hr, length_append]
      omega
    obtain ⟨hrun, hre⟩ := ih ⟨junk ++ mid, by rw [hb, append_assoc junk], hw,
      by simp [hr, hm, Nat.add_assoc], fun k hk => by
        have := hroom (k + 1) (Nat.succ_le_succ hk)
        simp only [Nat.succ_mul, length_append] at this ⊢
        omega⟩ hlen (by simpa using hmax)
    refine ⟨?_, fun s' hre' => ?_⟩
    · rw [inPlaceLoop, hst, bind_eq_bind, bind_some, if_pos hread]
      simpa [Nat.add_assoc] using hrun
    · rcases hre'.cases_head with rfl | ⟨_, ⟨hst', -⟩, hre'⟩
      · exact h.intact
      · cases hst.symm.trans hst'
        exact (hre _ hre').imp_right fun h => h.trans ⟨gap ++ mid, by simp⟩

end Step

theorem allocate_length_le (h : allocate p l = some out) : out.length ≤ p.maxSize := by
  rw [allocate] at h
  split_ifs at h with hle
  cases h
  exact hle

variable [Inhabited α] {capacity : ℕ}

theorem inPlaceLoop_length_le {strLength fuel : ℕ} {s : State α}
    (h : inPlaceLoop p m r strLength fuel s = some out) : out.length ≤ p.maxSize := by
  induction fuel generalizing s with
  | zero => cases h
  | succ fuel ih =>
    obtain ⟨s', -, h⟩ := bind_eq_some_iff.mp h
    split_ifs at h
    · exact ih h
    · exact allocate_length_le h

theorem prepare_length_le {i : ℕ} {str : List α} (hne : m.matchSize ≠ r.length)
    (h : prepare p m r capacity str i = some (.inl out)) : out.length ≤ p.maxSize := by
  rw [prepare, if_neg hne] at h
  split_ifs at h
  · rw [grow] at h
    dsimp only at h
    split_ifs at h
    · obtain ⟨l, hl, heq⟩ := map_eq_some_iff.mp h
      cases heq
      exact allocate_length_le hl
    · obtain ⟨l, -, heq⟩ := bind_eq_some_iff.mp h
      cases heq
  · cases h

/-- Moving the rest makes room in front of it. -/
theorem shift_spec (pre mid rest : List α) (expansion : ℕ)
    (h : pre.length + mid.length + rest.length + expansion ≤ p.maxSize) :
    ∃ junk, shift p (pre ++ (mid ++ rest)) (pre.length + mid.length)
        (pre.length + mid.length + expansion) = some (pre ++ (junk ++ rest)) ∧
      junk.length = mid.length + expansion := by
  have hdrop : (pre ++ (mid ++ rest)).drop (pre.length + mid.length) = rest := by
    rw [← append_assoc, ← length_append, drop_left]
  refine ⟨(mid ++ (rest ++ replicate (pre.length + mid.length + expansion -
    (pre ++ (mid ++ rest)).length) default)).take (mid.length + expansion), ?_, ?_⟩
  · simp only [shift, hdrop, append_assoc]
    rw [drop_eq_nil_of_le (by simp only [length_append, length_replicate]; omega), Nat.add_assoc,
      take_length_add_append, append_nil, append_assoc, allocate, if_pos]
    simp only [length_append, length_take]
    omega
  · simp only [length_append, length_take, length_replicate]
    omega

section Branches

variable {pre mid rest : List α} (hm : mid.length = m.matchSize) (hsc : Scan m r n rest out)
  (hstr : (pre ++ (mid ++ rest)).length ≤ p.maxSize)

include hm hsc hstr

/-- What is longer than a string can be is not returned. -/
theorem Scan.length_le
    (h : replaceAll p m r capacity (pre ++ (mid ++ rest)) pre.length = some (pre ++ (r ++ out))) :
    (pre ++ (r ++ out)).length ≤ p.maxSize := by
  by_cases hne : m.matchSize = r.length
  · have := hsc.length_eq
    rw [hne] at this hm
    simp only [length_append] at hstr ⊢
    omega
  · obtain ⟨l | ⟨strLength, s⟩, hp, h⟩ := bind_eq_some_iff.mp h
    · cases h
      exact prepare_length_le hne hp
    · exact inPlaceLoop_length_le h

variable (hpos : 0 < m.matchSize) (hmax : (pre ++ (r ++ out)).length ≤ p.maxSize)

include hpos hmax

/-- The branches without the loop in place give the result, the others its start. -/
theorem Scan.prepare_eq :
    prepare p m r capacity (pre ++ (mid ++ rest)) pre.length = some (.inl (pre ++ (r ++ out))) ∨
      ∃ strLength s, prepare p m r capacity (pre ++ (mid ++ rest)) pre.length =
        some (.inr (strLength, s)) ∧ Ready m r s n pre rest ∧ s.buffer.length = strLength ∧
          strLength < p.modulus := by
  have hmod := p.maxSize_lt
  have hlen := hsc.length_eq
  have hlen' : (pre ++ (mid ++ rest)).length = pre.length + (m.matchSize + rest.length) := by
    simp only [length_append, hm]
  obtain ⟨f, hf⟩ := hsc.exists_fuel pre hm hpos
  rw [prepare]
  split_ifs with heq hlt
  · exact .inl (by rw [hf, hsc.overwrite hm heq]; rfl)
  · have hmul (k) : k * (r.length - m.matchSize) + k * m.matchSize = k * r.length := by
      rw [← Nat.mul_add, Nat.sub_add_cancel (Nat.le_of_lt hlt)]
    have hroom (k) (hk : k ≤ n) : (k + 1) * r.length ≤
        m.matchSize + (n + 1) * (r.length - m.matchSize) + k * m.matchSize := by
      have := Nat.mul_le_mul_right (r.length - m.matchSize) (Nat.add_le_add_right hk 1)
      rw [← hmul, Nat.succ_mul k m.matchSize]
      omega
    have hex : (n + 1) * (r.length - m.matchSize) + rest.length + m.matchSize =
        r.length + out.length := by
      have := hmul (n + 1)
      rw [Nat.succ_mul n m.matchSize, Nat.succ_mul n r.length] at this
      omega
    rw [length_append, length_append] at hmax
    rw [grow, hf, hsc.count hm, ← hf]
    generalize (n + 1) * (r.length - m.matchSize) = expansion at hroom hex
    simp only [Nat.zero_add]
    rw [Nat.mod_eq_of_lt (by omega : expansion < p.modulus), Nat.mod_eq_of_lt (by omega),
      Nat.mod_eq_of_lt (by omega), Nat.mod_eq_of_lt (by omega)]
    split_ifs with hnew
    · have happ := hsc.append hm [] pre []
      rw [nil_append, nil_append, length_nil, Nat.zero_add] at happ
      rw [happ, allocate, if_pos (by simp only [length_append]; omega)]
      exact .inl rfl
    · obtain ⟨junk, hshift, hjunk⟩ := shift_spec pre mid rest expansion (by omega : _ ≤ p.maxSize)
      rw [hm] at hshift hjunk
      rw [hshift]
      refine .inr ⟨_, _, rfl, ⟨junk, rfl, rfl, by simp only; omega, by rwa [hjunk]⟩, ?_,
        by omega⟩
      simp only [length_append]
      omega
  · refine .inr ⟨_, _, rfl, ⟨mid, rfl, rfl, by rw [hm], fun k _ => ?_⟩, rfl, by omega⟩
    have := Nat.mul_le_mul_left (k + 1) (Nat.le_of_not_lt hlt)
    simp only [Nat.succ_mul] at *
    omega

theorem Scan.replaceAll_eq :
    replaceAll p m r capacity (pre ++ (mid ++ rest)) pre.length = some (pre ++ (r ++ out)) ∧
      ∀ strLength start s, prepare p m r capacity (pre ++ (mid ++ rest)) pre.length =
        some (.inr (strLength, start)) → Reaches p m r strLength start s →
          Intact m r (pre ++ (mid ++ rest)) s := by
  rw [replaceAll]
  rcases hsc.prepare_eq hm hstr hpos hmax with h | ⟨k, s, h, hrdy, hk, hlt⟩ <;> rw [h]
  · exact ⟨rfl, fun _ _ _ h => by cases h⟩
  · obtain ⟨f, hf⟩ := hsc.exists_fuel pre hm hpos
    obtain ⟨hrun, hre⟩ := hrdy.run hk hlt hsc f hmax
    refine ⟨by rw [hf]; exact hrun, fun _ _ s' heq h => ?_⟩
    cases heq
    exact (hre s' h).imp_right fun h => h.trans ⟨pre ++ mid, by simp⟩

end Branches

def replaceAfter (m : Matcher α) (r str : List α) (offset : ℕ) : List α :=
  str.take offset ++ replaceMatches m r 0 (str.drop offset)

/-- Every branch gives the string with replacements, and the loop in place leaves the text that it
has not searched as it is, if and only if that string is not too long. -/
theorem doReplaceMatchesAfterOffset_iff {str : List α} (hstr : str.length ≤ p.maxSize)
    (offset : ℕ) : (doReplaceMatchesAfterOffset p m r .replaceAll capacity str offset =
        some ((m.find str offset).isSome, replaceAfter m r str offset) ∧
      ∀ i strLength start s, m.find str offset = some i →
        prepare p m r capacity str i = some (.inr (strLength, start)) →
        Reaches p m r strLength start s → Intact m r str s) ↔
      (replaceAfter m r str offset).length ≤ p.maxSize := by
  rw [doReplaceMatchesAfterOffset, replaceAfter, Matcher.find]
  obtain ⟨n, hsc⟩ := exists_scan (m := m) (r := r) (str.drop offset) 0
  rw [drop_zero] at hsc
  generalize hl : str.drop offset = l at hsc ⊢
  generalize replaceMatches m r 0 l = out at hsc ⊢
  cases hsc with
  | rest h =>
    rw [h, ← hl, take_append_drop]
    exact iff_of_true ⟨ite_self _, fun _ _ _ _ h => by cases h⟩ hstr
  | @found gap mid rest out n h hpos hm hsc =>
    have hpre : str = str.take offset ++ gap ++ (mid ++ rest) := by
      rw [append_assoc, ← hl, take_append_drop]
    have hoff : offset + gap.length = (str.take offset ++ gap).length := by
      have := congrArg length hl
      simp only [length_drop, length_append, length_take] at this ⊢
      omega
    rw [h, map_some, hoff, ← append_assoc, if_neg (Nat.ne_of_gt hpos)]
    generalize str.take offset ++ gap = pre at hpre ⊢
    subst hpre
    constructor
    · rintro ⟨h, -⟩
      obtain ⟨out, ho, heq⟩ := map_eq_some_iff.mp h
      cases heq
      exact hsc.length_le hm hstr ho
    · intro hmax
      obtain ⟨hrun, hre⟩ := hsc.replaceAll_eq hm hstr hpos hmax
      refine ⟨congrArg (Option.map _) hrun, fun i k start s hi h => ?_⟩
      cases hi
      exact hre k start s h

def platform32 : Platform := ⟨4294967296, 2147483648, by decide⟩

theorem doReplaceMatchesAfterOffset_grow :
    doReplaceMatchesAfterOffset platform32 (substringMatcher ['a', 'b']) ['c', 'c', 'd']
        .replaceAll 15 ['a', 'b', 'a', 'b', 'a', 'b'] 1 =
      some (true, ['a', 'b', 'c', 'c', 'd', 'c', 'c', 'd']) :=
  ((doReplaceMatchesAfterOffset_iff (by decide) 1).mpr (by decide)).1

omit [Inhabited α] in
theorem scan_replicate [DecidableEq α] (r : List α) (c : α) (n : ℕ) :
    Scan (characterMatcher [c]) r n (replicate n c) (replicate n r).flatten := by
  induction n with
  | zero => exact .rest rfl
  | succ n ih =>
    exact @Scan.found _ _ _ [] [c] _ _ _ (if_pos (by simp [characterMatcher])) Nat.one_pos rfl ih

/-- The expansion wraps around to zero, no room is made, and the first replacement is written past
the end. -/
theorem doReplaceMatchesAfterOffset_past_end :
    prepare platform32 (characterMatcher ['a']) (replicate 268435457 'b') 16 (replicate 16 'a') 0 =
        some (.inr (16, ⟨replicate 16 'a', 0, 0⟩)) ∧
      doReplaceMatchesAfterOffset platform32 (characterMatcher ['a']) (replicate 268435457 'b')
        .replaceAll 16 (replicate 16 'a') 0 = none := by
  have hr : (replicate 268435457 'b').length = 268435457 := length_replicate
  generalize replicate 268435457 'b' = r at hr ⊢
  have hc : countLoop platform32 (characterMatcher ['a']) r (replicate 16 'a') 16 (some 0) 0 0 =
      (0, 16) := by
    have := @Scan.count _ platform32 _ r _ 15 ['a'] _ (scan_replicate r 'a' 15) rfl [] 0 0 0
    rw [hr] at this
    exact this
  have hp : prepare platform32 (characterMatcher ['a']) r 16 (replicate 16 'a') 0 =
      some (.inr (16, ⟨replicate 16 'a', 0, 0⟩)) := by
    rw [prepare, hr, if_neg (by decide), if_pos (by decide), grow, length_replicate, hc]
    rfl
  have hs : step platform32 (characterMatcher ['a']) r 16 ⟨replicate 16 'a', 0, 0⟩ = none := by
    rw [step, copy, hr, if_neg (by decide)]
    rfl
  refine ⟨hp, ?_⟩
  change (replaceAll platform32 (characterMatcher ['a']) r 16 (replicate 16 'a') 0).map _ = none
  rw [replaceAll, hp, length_replicate, bind_eq_bind, bind_some]
  dsimp only
  rw [inPlaceLoop, hs]
  rfl

end ChromiumBase.StringUtil
