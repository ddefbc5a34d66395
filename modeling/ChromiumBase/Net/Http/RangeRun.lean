import ChromiumBase.Net.Http.PartialData

/-!
# Serving a byte range

What the functions of `PartialData` do while a range is served from a sparse entry, and the
invariant of the transaction: the ranges handed out so far lie one behind the other and reach up
to the current range, which ends within the request.

`Setup` says what stays as it is.  `Invariant.complete_cases` says once what a validation can do;
the invariant is kept as long as nothing goes wrong (`Step.invariant`).
-/

namespace ChromiumBase.PartialContent

open Tiling Transaction PartialData

variable {first last size result len : ℤ} {stored : ℤ → Bool} {t t' : Transaction}

/-- What stays the same while a request for bytes up to `last` is served. -/
structure Setup (last size : ℤ) (t : Transaction) : Prop where
  sparseEntry : t.partialData.sparseEntry = true
  truncated : t.partialData.truncated = false
  lastBytePosition : t.partialData.byteRange.lastBytePosition = last
  resourceSize : t.partialData.resourceSize = size
  mode : t.mode = .readWrite
  last_nonneg : 0 ≤ last
  last_lt : last < size

namespace Setup

theorem hasLastBytePosition (h : Setup last size t) :
    t.partialData.byteRange.hasLastBytePosition = true := by
  have hl := h.last_nonneg
  have hne : last ≠ kPositionNotSpecified := by
    have : kPositionNotSpecified = -1 := rfl
    omega
  rw [HttpByteRange.hasLastBytePosition, h.lastBytePosition]
  exact decide_eq_true hne

theorem getNextRangeLen_eq (h : Setup last size t) :
    t.partialData.getNextRangeLen = min (last - t.partialData.currentRangeStart + 1) int32Max := by
  rw [getNextRangeLen, h.hasLastBytePosition, h.lastBytePosition, if_pos rfl]
  split <;> omega

end Setup

namespace Transaction

def handOut (t : Transaction) (available : ℤ × ℤ) (last : ℤ) (present final : Bool) :
    Transaction :=
  { t with
    partialData := { t.partialData with
      cachedStart := available.1
      cachedMinLen := available.2
      currentRangeEnd := last
      rangePresent := present
      finalRange := final }
    phase := if present then .cacheRead else .sendRequest
    handedOut := t.handedOut ++ [⟨⟨t.partialData.currentRangeStart, last⟩, present, final⟩] }

end Transaction

namespace Setup

variable (h : Setup last size t)

include h

theorem of_frame (hs : t'.partialData.sparseEntry = t.partialData.sparseEntry := by rfl)
    (ht : t'.partialData.truncated = t.partialData.truncated := by rfl)
    (hr : t'.partialData.byteRange = t.partialData.byteRange := by rfl)
    (hsi : t'.partialData.resourceSize = t.partialData.resourceSize := by rfl)
    (hm : t'.mode = t.mode := by rfl) : Setup last size t' :=
  ⟨hs.trans h.sparseEntry, ht.trans h.truncated,
    (congrArg HttpByteRange.lastBytePosition hr).trans h.lastBytePosition,
    hsi.trans h.resourceSize, hm.trans h.mode, h.last_nonneg, h.last_lt⟩

/-- Handing out a range inside of the request. -/
theorem handOut (available : ℤ × ℤ) (e : ℤ) (present final : Bool) :
    Setup last size (t.handOut available e present final) :=
  h.of_frame

theorem complete_of_end (hcur : t.partialData.currentRangeStart = last + 1) (available : ℤ × ℤ) :
    t.completePartialCacheValidation available = { t with phase := .requestCompleted } := by
  have hlen : t.partialData.getNextRangeLen = 0 := by
    rw [h.getNextRangeLen_eq]
    have : int32Max = 2147483647 := rfl
    omega
  have hr : t.partialData.shouldValidateCache available = (0, t.partialData) := by
    rw [shouldValidateCache, hlen]
    rfl
  rw [completePartialCacheValidation, h.mode, hr]
  rfl

section Open

variable (hle : t.partialData.currentRangeStart ≤ last)

include hle

theorem getNextRangeLen_pos : 0 < t.partialData.getNextRangeLen := by
  rw [h.getNextRangeLen_eq]
  have : int32Max = 2147483647 := rfl
  omega

theorem shouldValidateCache (available : ℤ × ℤ) (hlen : 0 ≤ available.2) :
    t.partialData.shouldValidateCache available =
      (1, { t.partialData with cachedMinLen := available.2, cachedStart := available.1 }) := by
  have hpos := h.getNextRangeLen_pos hle
  rw [PartialData.shouldValidateCache, if_neg (by omega), if_pos h.sparseEntry]
  exact if_neg (not_lt.mpr hlen)

theorem complete_eq (available : ℤ × ℤ) (hlen : 0 ≤ available.2) :
    t.completePartialCacheValidation available =
      let p := prepareCacheValidation
        { t.partialData with cachedMinLen := available.2, cachedStart := available.1 }
      { t with
        partialData := p
        phase := if p.rangePresent then .cacheRead else .sendRequest
        handedOut := t.handedOut ++
          [⟨⟨p.currentRangeStart, p.currentRangeEnd⟩, p.rangePresent, p.finalRange⟩] } := by
  rw [completePartialCacheValidation, h.mode, h.shouldValidateCache hle available hlen]
  rfl

theorem complete_of_none (start : ℤ) : t.completePartialCacheValidation (start, 0) =
      t.handOut (t.partialData.currentRangeStart + t.partialData.getNextRangeLen, 0)
        (t.partialData.currentRangeStart + t.partialData.getNextRangeLen - 1) false true := by
  have hpos := h.getNextRangeLen_pos hle
  have hne : t.partialData.currentRangeStart ≠
      t.partialData.currentRangeStart + t.partialData.getNextRangeLen := by omega
  rw [h.complete_eq hle (start, 0) le_rfl]
  simp only [prepareCacheValidation, getNextRangeLen, h.hasLastBytePosition, if_true] at hne ⊢
  rw [if_neg hne]
  rfl

theorem complete_of_cached (hlen : 0 < len) :
    t.completePartialCacheValidation (t.partialData.currentRangeStart, len) =
      t.handOut (t.partialData.currentRangeStart, len)
        (t.partialData.currentRangeStart + len - 1) true
        (t.partialData.finalRange || t.partialData.getNextRangeLen = len) := by
  have hne : len ≠ 0 := by omega
  rw [h.complete_eq hle _ hlen.le]
  simp only [prepareCacheValidation, hne, if_false]
  rfl

theorem complete_of_network {start : ℤ} (hs : t.partialData.currentRangeStart < start)
    (hlen : 0 < len) :
    t.completePartialCacheValidation (start, len) =
      t.handOut (start, len) (start - 1) false t.partialData.finalRange := by
  have hne : len ≠ 0 := by omega
  rw [h.complete_eq hle _ hlen.le]
  simp only [prepareCacheValidation, hne, hs.ne, if_false]
  rfl

end Open

theorem partialCacheReadCompleted_zero :
    t.partialCacheReadCompleted 0 = { t with phase := .startPartialCacheValidation } := by
  exact if_pos ⟨rfl, h.mode⟩

theorem partialNetworkReadCompleted_zero :
    (t.partialNetworkReadCompleted 0).partialData = t.partialData ∧
      (t.partialNetworkReadCompleted 0).phase =
        (if t.partialData.finalRange then .requestCompleted else .startPartialCacheValidation) := by
  rw [partialNetworkReadCompleted]
  cases hf : t.partialData.finalRange with
  | true =>
    rw [if_neg (by simp [h.truncated])]
    exact ⟨rfl, rfl⟩
  | false =>
    rw [if_pos (by simp [h.mode])]
    exact ⟨rfl, rfl⟩

/-- `ResponseHeadersOK` for an answer of the stored size.  An end `0` is taken for one that has not
been set yet, and becomes the end of the whole request. -/
theorem responseHeadersOK_cases (start e contentLength : ℤ) :
    t.partialData.responseHeadersOK start e t.partialData.resourceSize contentLength =
      if (contentLength ≤ 0 ∨ contentLength = e - start + 1) ∧
          start = t.partialData.currentRangeStart then
        let l := if t.partialData.currentRangeEnd = 0 then last else t.partialData.currentRangeEnd
        (decide (e = l), { t.partialData with currentRangeEnd := l })
      else (false, t.partialData) := by
  have hla := h.last_nonneg
  have hlt := h.last_lt
  have hs := h.resourceSize
  have hpos : ¬ t.partialData.resourceSize ≤ 0 := by omega
  have hne : t.partialData.resourceSize ≠ 0 := by omega
  have hb : ¬ t.partialData.resourceSize ≤ t.partialData.byteRange.lastBytePosition := by
    rw [h.lastBytePosition]
    omega
  have hf : ¬ (t.partialData.truncated = true ∧
      (!t.partialData.byteRange.hasLastBytePosition) = true) := by
    rw [h.truncated]
    simp
  rw [responseHeadersOK, if_neg hpos]
  by_cases hc : contentLength ≤ 0 ∨ contentLength = e - start + 1
  · rw [if_neg (by omega), if_neg (by simp)]
    simp only [hne, hf, hb, hc, if_false, true_and]
    by_cases hst : start = t.partialData.currentRangeStart
    · rw [if_neg (not_not.mpr hst), if_pos hst, h.lastBytePosition]
      by_cases hend : t.partialData.currentRangeEnd = 0 <;> simp only [hend, if_true, if_false]
      · by_cases hl : e = last <;> simp [hl]
      · by_cases hl : e = t.partialData.currentRangeEnd <;> simp [hl]
    · rw [if_pos hst, if_neg hst]
  · rw [if_pos (by omega), if_neg fun hn => hc hn.1]

section Respond

variable {contentLength : ℤ} (hl : contentLength ≤ 0 ∨ contentLength =
    t.partialData.currentRangeEnd - t.partialData.currentRangeStart + 1)

include hl

theorem responseHeadersOK_eq :
    t.partialData.responseHeadersOK t.partialData.currentRangeStart t.partialData.currentRangeEnd
        t.partialData.resourceSize contentLength =
      (decide (t.partialData.currentRangeEnd = 0 → last = 0), { t.partialData with
          currentRangeEnd :=
            if t.partialData.currentRangeEnd = 0 then last
            else t.partialData.currentRangeEnd }) := by
  rw [h.responseHeadersOK_cases, if_pos ⟨hl, rfl⟩]
  refine Prod.ext (decide_eq_decide.mpr ?_) rfl
  split <;> omega

theorem validatePartialResponse_eq (hend : t.partialData.currentRangeEnd = 0 → last = 0) :
    t.validatePartialResponse t.partialData.currentRangeStart t.partialData.currentRangeEnd
      t.partialData.resourceSize contentLength = { t with phase := .networkRead } := by
  have hk : (if t.partialData.currentRangeEnd = 0 then last else t.partialData.currentRangeEnd) =
      t.partialData.currentRangeEnd := by
    split <;> omega
  rw [validatePartialResponse, h.responseHeadersOK_eq hl, decide_eq_true hend, hk]
  rfl

theorem validatePartialResponse_failed (hend : ¬ (t.partialData.currentRangeEnd = 0 → last = 0)) :
    (t.validatePartialResponse t.partialData.currentRangeStart t.partialData.currentRangeEnd
      t.partialData.resourceSize contentLength).phase = .failed := by
  rw [validatePartialResponse, h.responseHeadersOK_eq hl, decide_eq_false hend]
  rfl

end Respond

end Setup

theorem partialCacheReadCompleted_pos (t : Transaction) (hr : 0 < result) :
    t.partialCacheReadCompleted result = { t with
        partialData := { t.partialData with
          currentRangeStart := t.partialData.currentRangeStart + result
          cachedMinLen := t.partialData.cachedMinLen - result } } := by
  rw [partialCacheReadCompleted, onCacheReadCompleted, if_pos hr,
    if_neg (by omega), if_neg (by omega)]

theorem partialNetworkReadCompleted_pos (t : Transaction) (hr : 0 < result) :
    (t.partialNetworkReadCompleted result).partialData =
      { t.partialData with currentRangeStart := t.partialData.currentRangeStart + result } ∧
      (t.partialNetworkReadCompleted result).phase = t.phase := by
  have hne : result ≠ 0 := by omega
  rw [partialNetworkReadCompleted, if_pos (.inl hne)]
  refine ⟨if_pos hr, if_neg hne⟩

theorem partialNetworkReadCompleted_frame (t : Transaction) (result : ℤ) :
    (t.partialNetworkReadCompleted result).mode = t.mode ∧
      (t.partialNetworkReadCompleted result).handedOut = t.handedOut ∧
      ∀ b, t.partialData.currentRangeStart + result ≤ b →
        (t.partialNetworkReadCompleted result).stored b = t.stored b := by
  have hs : ∀ b, t.partialData.currentRangeStart + result ≤ b →
      (t.stored b || (decide (t.partialData.currentRangeStart ≤ b) &&
        decide (b < t.partialData.currentRangeStart + result))) = t.stored b := by
    intro b hb
    rw [decide_eq_false (not_lt.mpr hb), Bool.and_false, Bool.or_false]
  rw [partialNetworkReadCompleted]
  split <;> exact ⟨rfl, rfl, hs⟩

def Transaction.segments (t : Transaction) : List Segment := t.handedOut.map HandedOut.toSegment

structure InRange (first last : ℤ) (t : Transaction) : Prop where
  tiles : Tiles first t.segments (t.partialData.currentRangeEnd + 1)
  start_le : t.partialData.currentRangeStart ≤ t.partialData.currentRangeEnd + 1
  end_le : t.partialData.currentRangeEnd ≤ last
  isLast : t.partialData.finalRange = true → t.partialData.currentRangeEnd = last

structure FirstByteAlone (first last : ℤ) (stored : ℤ → Bool) : Prop where
  first_eq : first = 0
  last_ne : last ≠ 0
  notStored : stored 0 = false
  isStored : stored 1 = true

def AtPhase (first last : ℤ) (stored : ℤ → Bool) (t : Transaction) : Prop :=
  match t.phase with
  | .startPartialCacheValidation =>
    Tiles first t.segments t.partialData.currentRangeStart ∧
      (t.partialData.finalRange = true → t.partialData.currentRangeStart = last + 1)
  | .cacheRead => InRange first last t ∧
      t.partialData.currentRangeStart + t.partialData.cachedMinLen =
        t.partialData.currentRangeEnd + 1
  | .sendRequest => InRange first last t ∧
      (t.partialData.currentRangeEnd = 0 → last = 0 ∨ FirstByteAlone first last stored)
  | .networkRead => InRange first last t
  | .requestCompleted => Tiles first t.segments (last + 1)
  | .failed => False

/-- What holds of every state in which nothing has gone wrong. -/
structure Invariant (first last size : ℤ) (stored : ℤ → Bool) (t : Transaction) : Prop where
  setup : Setup last size t
  first_nonneg : 0 ≤ first
  first_le : first ≤ t.partialData.currentRangeStart
  start_le : t.partialData.currentRangeStart ≤ last + 1
  stored_eq : ∀ b, t.partialData.currentRangeStart ≤ b → t.stored b = stored b
  isLast : ∀ r ∈ t.handedOut, r.isLastRange = true → r.last = last
  atPhase : AtPhase first last stored t

/-- Nothing has gone wrong: the transaction has not given up, and only the end of the request is
called the last range. -/
structure Sound (last : ℤ) (t : Transaction) : Prop where
  not_failed : t.phase ≠ .failed
  isLast : ∀ r ∈ t.handedOut, r.isLastRange = true → r.last = last

namespace Invariant

variable {available : ℤ × ℤ} (h : Invariant first last size stored t)

include h

theorem sound : Sound last t where
  isLast := h.isLast
  not_failed hp := by
    have := h.atPhase
    rw [AtPhase, hp] at this
    exact this

theorem handOut (hph : t.phase = .startPartialCacheValidation) {e : ℤ} {present final : Bool}
    (hst : t.partialData.currentRangeStart ≤ e) (hend : e ≤ last)
    (hp : present = true → available.2 = e + 1 - t.partialData.currentRangeStart)
    (hre : present = false → e = 0 → last = 0 ∨ FirstByteAlone first last stored)
    (hs : Sound last (t.handOut available e present final)) :
    Invariant first last size stored (t.handOut available e present final) := by
  have hap := h.atPhase
  rw [AtPhase, hph] at hap
  have hr : InRange first last (t.handOut available e present final) := by
    refine ⟨?_, by change t.partialData.currentRangeStart ≤ e + 1; omega, hend, fun hf => ?_⟩
    · have ht := hap.1.append_singleton hst
      rw [Transaction.segments, Transaction.handOut, List.map_append]
      exact ht
    · refine hs.isLast _ (List.mem_append_right _ List.mem_cons_self) hf
  refine ⟨h.setup.handOut _ _ _ _, h.first_nonneg, h.first_le, h.start_le, h.stored_eq,
    hs.isLast, ?_⟩
  cases present with
  | true =>
    have hlen := hp rfl
    refine ⟨hr, ?_⟩
    change t.partialData.currentRangeStart + available.2 = e + 1
    omega
  | false => exact ⟨hr, hre rfl⟩

theorem inRange_of_cacheRead (hp : t.phase = .cacheRead) : InRange first last t ∧
      t.partialData.currentRangeStart + t.partialData.cachedMinLen =
        t.partialData.currentRangeEnd + 1 := by
  have hap := h.atPhase
  rwa [AtPhase, hp] at hap

theorem inRange_of_networkRead (hp : t.phase = .networkRead) : InRange first last t := by
  have hap := h.atPhase
  rwa [AtPhase, hp] at hap

theorem tiles_of_validation (hp : t.phase = .startPartialCacheValidation) :
    Tiles first t.segments t.partialData.currentRangeStart ∧
      (t.partialData.finalRange = true → t.partialData.currentRangeStart = last + 1) := by
  have hap := h.atPhase
  rwa [AtPhase, hp] at hap

theorem window_le : t.partialData.currentRangeStart + t.partialData.getNextRangeLen ≤ last + 1 := by
  rw [h.setup.getNextRangeLen_eq]
  omega

section

variable (hp : t.phase = .startPartialCacheValidation)
  (ha : Available t.stored t.partialData.currentRangeStart t.partialData.getNextRangeLen available)

include hp ha

/-- What a validation can do: come to the end of the request, or hand out a range.  Only a range
that fills a window with equal answers becomes the last. -/
theorem complete_cases : (t.partialData.currentRangeStart = last + 1 ∧
      t.completePartialCacheValidation available = { t with phase := .requestCompleted }) ∨
    ∃ rest e present final,
      t.completePartialCacheValidation available = t.handOut rest e present final ∧
      t.partialData.currentRangeStart ≤ e ∧ e ≤ last ∧
      (present = true → rest.2 = e + 1 - t.partialData.currentRangeStart) ∧
      (present = false → e = 0 → last = 0 ∨ FirstByteAlone first last stored) ∧
      (final = true →
        e = t.partialData.currentRangeStart + t.partialData.getNextRangeLen - 1 ∧
        ∃ v, ∀ b, t.partialData.currentRangeStart ≤ b →
          b < t.partialData.currentRangeStart + t.partialData.getNextRangeLen →
          t.stored b = v) := by
  have hw := h.window_le
  have hfi := h.first_nonneg
  have hcur := h.first_le
  by_cases hend : t.partialData.currentRangeStart = last + 1
  · exact .inl ⟨hend, h.setup.complete_of_end hend available⟩
  have hle : t.partialData.currentRangeStart ≤ last := by
    have := h.start_le
    omega
  have hf : t.partialData.finalRange = false :=
    Bool.eq_false_of_not_eq_true fun hf => hend ((h.tiles_of_validation hp).2 hf)
  have hpos := h.setup.getNextRangeLen_pos hle
  obtain ⟨start, len⟩ := available
  right
  rcases ha with ⟨hn, hnot⟩ | ⟨hlen, hst, hsto, hbe, hs⟩
  · obtain rfl : len = 0 := hn
    refine ⟨_, _, _, _, h.setup.complete_of_none hle start, by omega, by omega, by simp,
      fun _ hz => .inl ?_, fun _ => ⟨rfl, false, hnot⟩⟩
    rw [h.setup.getNextRangeLen_eq] at hz
    have : int32Max = 2147483647 := rfl
    omega
  · dsimp only at hlen hst hsto hbe hs
    by_cases hc : start = t.partialData.currentRangeStart
    · subst hc
      refine ⟨_, _, _, _, h.setup.complete_of_cached hle hlen, by omega, by omega,
        fun _ => by dsimp only; omega, by simp, fun hall => ?_⟩
      rw [hf, Bool.false_or] at hall
      have hall : t.partialData.getNextRangeLen = len := of_decide_eq_true hall
      exact ⟨by rw [hall], true, fun b hb hlt => hs b hb (by rw [← hall]; exact hlt)⟩
    · refine ⟨_, _, _, _, h.setup.complete_of_network hle (by omega) hlen, by omega, by omega,
        by simp, fun _ hz => .inr ?_, fun hnot => ?_⟩
      · -- A range that ends with byte `0` is this byte alone.
        refine ⟨by omega, by omega, ?_, ?_⟩
        · rw [← h.stored_eq 0 (by omega)]
          exact hbe 0 (by omega) (by omega)
        · rw [← h.stored_eq 1 (by omega)]
          exact hs 1 (by omega) (by omega)
      · rw [hf] at hnot
        cases hnot

theorem validate (hs : Sound last (t.completePartialCacheValidation available)) :
    Invariant first last size stored (t.completePartialCacheValidation available) := by
  rcases h.complete_cases hp ha with
    ⟨hend, hc⟩ | ⟨rest, e, present, final, hc, hst, hle, hpr, hr, -⟩
  · have ht := (h.tiles_of_validation hp).1
    rw [hend] at ht
    rw [hc]
    exact ⟨h.setup.of_frame, h.first_nonneg, h.first_le, h.start_le,
      h.stored_eq, h.isLast, ht⟩
  · rw [hc] at hs ⊢
    exact h.handOut hp hst hle hpr hr hs

end

/-- The answer to the range request, which is accepted. -/
theorem respond (hp : t.phase = .sendRequest)
    {contentLength : ℤ} (hl : contentLength ≤ 0 ∨ contentLength =
      t.partialData.currentRangeEnd - t.partialData.currentRangeStart + 1)
    (hs : Sound last (t.validatePartialResponse t.partialData.currentRangeStart
      t.partialData.currentRangeEnd t.partialData.resourceSize contentLength)) :
    Invariant first last size stored (t.validatePartialResponse t.partialData.currentRangeStart
      t.partialData.currentRangeEnd t.partialData.resourceSize contentLength) := by
  have hap := h.atPhase
  rw [AtPhase, hp] at hap
  have hend : t.partialData.currentRangeEnd = 0 → last = 0 := by
    by_contra hend
    exact hs.not_failed (h.setup.validatePartialResponse_failed hl hend)
  rw [h.setup.validatePartialResponse_eq hl hend]
  obtain ⟨ht, hst, hle, hf⟩ := hap.1
  exact ⟨h.setup.of_frame,
    h.first_nonneg, h.first_le, h.start_le, h.stored_eq, h.isLast, ht, hst, hle, hf⟩

theorem cacheRead (hph : t.phase = .cacheRead) {dataLen : ℤ} (hd : 0 < dataLen)
    (hr : result ≤ t.partialData.cacheReadLen dataLen)
    (hp : 0 < result ∨ (t.partialData.cacheReadLen dataLen = 0 ∧ result = 0)) :
    Invariant first last size stored (t.partialCacheReadCompleted result) := by
  obtain ⟨⟨ht, hs, hle, hf⟩, hlen⟩ := h.inRange_of_cacheRead hph
  have hfi := h.first_le
  rw [cacheReadLen] at hr hp
  rcases hp with hp | ⟨hz, rfl⟩
  · rw [partialCacheReadCompleted_pos t hp]
    refine ⟨h.setup.of_frame, h.first_nonneg, ?_, ?_,
      fun b hb => h.stored_eq b ?_, h.isLast, ?_⟩
    · change first ≤ t.partialData.currentRangeStart + result
      omega
    · change t.partialData.currentRangeStart + result ≤ last + 1
      omega
    · have hb : t.partialData.currentRangeStart + result ≤ b := hb
      omega
    · rw [AtPhase, hph]
      refine ⟨⟨ht, ?_, hle, hf⟩, ?_⟩
      · change t.partialData.currentRangeStart + result ≤ t.partialData.currentRangeEnd + 1
        omega
      · change t.partialData.currentRangeStart + result + (t.partialData.cachedMinLen - result) =
          t.partialData.currentRangeEnd + 1
        omega
  · have hcur : t.partialData.currentRangeStart = t.partialData.currentRangeEnd + 1 := by omega
    rw [h.setup.partialCacheReadCompleted_zero]
    refine ⟨h.setup.of_frame, h.first_nonneg, h.first_le, h.start_le,
      h.stored_eq, h.isLast, ?_, fun hl => ?_⟩
    · change Tiles first t.segments t.partialData.currentRangeStart
      rwa [hcur]
    · change t.partialData.currentRangeStart = last + 1
      rw [hcur, hf hl]

theorem networkRead (hph : t.phase = .networkRead)
    (hr : t.partialData.currentRangeStart + result ≤ t.partialData.currentRangeEnd + 1)
    (hp : 0 < result ∨
      (t.partialData.currentRangeStart = t.partialData.currentRangeEnd + 1 ∧ result = 0)) :
    Invariant first last size stored (t.partialNetworkReadCompleted result) := by
  obtain ⟨ht, hsta, hle, hf⟩ := h.inRange_of_networkRead hph
  obtain ⟨hm, hh, hst⟩ := partialNetworkReadCompleted_frame t result
  have hfi := h.first_le
  have hl : ∀ r ∈ (t.partialNetworkReadCompleted result).handedOut,
      r.isLastRange = true → r.last = last := by
    rw [hh]
    exact h.isLast
  have hs : (t.partialNetworkReadCompleted result).segments = t.segments := by
    rw [segments, hh, segments]
  rcases hp with hp | ⟨hcur, rfl⟩
  · obtain ⟨hd, hn⟩ := partialNetworkReadCompleted_pos t hp
    refine ⟨h.setup.of_frame ?_ ?_ ?_ ?_ hm, h.first_nonneg, ?_, ?_, fun b hb => ?_, hl, ?_⟩
    iterate 4 rw [hd]
    · rw [hd]
      change first ≤ t.partialData.currentRangeStart + result
      omega
    · rw [hd]
      change t.partialData.currentRangeStart + result ≤ last + 1
      omega
    · rw [hd] at hb
      have hb : t.partialData.currentRangeStart + result ≤ b := hb
      rw [hst b hb, h.stored_eq b (by omega)]
    · rw [AtPhase, hn, hph]
      refine ⟨?_, ?_, ?_, ?_⟩ <;> rw [hd]
      · rwa [hs]
      · exact hr
      · exact hle
      · exact hf
  · obtain ⟨hd, hn⟩ := h.setup.partialNetworkReadCompleted_zero
    refine ⟨h.setup.of_frame ?_ ?_ ?_ ?_ hm, h.first_nonneg, ?_, ?_, fun b hb => ?_, hl, ?_⟩
    iterate 4 rw [hd]
    · rw [hd]
      exact h.first_le
    · rw [hd]
      exact h.start_le
    · rw [hd] at hb
      rw [hst b (by omega), h.stored_eq b hb]
    · rw [AtPhase, hn]
      cases hfl : t.partialData.finalRange with
      | true =>
        rwa [hs, ← hf hfl]
      | false =>
        refine ⟨?_, fun hnot => ?_⟩
        · rwa [hd, hs, hcur]
        · rw [hd, hfl] at hnot
          cases hnot

end Invariant

theorem Step.invariant (hst : Step t t') (h : Invariant first last size stored t)
    (hs : Sound last t') : Invariant first last size stored t' := by
  cases hst with
  | validate available hp ha => exact h.validate hp ha hs
  | respond contentLength hp hl => exact h.respond hp hl hs
  | cacheRead dataLen result hp hd hr hpo =>
    exact h.cacheRead hp hd hr hpo
  | networkRead result hp hr hpo => exact h.networkRead hp hr hpo

end ChromiumBase.PartialContent
