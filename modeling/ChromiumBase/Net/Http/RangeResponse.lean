import ChromiumBase.Net.Http.RangeCoverage

/-!
# The answer to a range request

`ResponseHeadersOK` is to accept exactly the sub-range that `PrepareCacheValidation` has put into
the `Range` header.  It does so unless the sub-range ends with byte `0`, which stands for an end
that is not known, or the answer has the content length `0`, which is never compared
(`Request.accepts_iff`).
-/

namespace ChromiumBase.PartialContent

variable {last size : ℤ} {p₀ p : PartialData}

namespace PartialData

def round (p : PartialData) (available : ℤ × ℤ) : PartialData :=
  (p.shouldValidateCache available).2.prepareCacheValidation

/-- The states that rounds lead to, with an answer to the range request and reads in between. -/
inductive Rounds (p₀ : PartialData) : PartialData → Prop
  | start : Rounds p₀ p₀
  | round {p : PartialData} (available : ℤ × ℤ) (h : Rounds p₀ p) : Rounds p₀ (p.round available)
  | respond {p : PartialData} (start last contentLength : ℤ) (h : Rounds p₀ p) :
      Rounds p₀ (p.responseHeadersOK start last p.resourceSize contentLength).2
  | cacheRead {p : PartialData} (result : ℤ) (h : Rounds p₀ p) :
      Rounds p₀ (p.onCacheReadCompleted result)
  | networkRead {p : PartialData} (result : ℤ) (h : Rounds p₀ p) :
      Rounds p₀ (p.onNetworkReadCompleted result)

/-- The content length of an answer, `-1` if there is none, agrees with its range. -/
abbrev Agrees (start last contentLength : ℤ) : Prop :=
  contentLength = -1 ∨ contentLength = last - start + 1

def Asked (p : PartialData) (start last contentLength : ℤ) : Prop :=
  start = p.currentRangeStart ∧ last = p.currentRangeEnd ∧ Agrees start last contentLength

/-- An answer that is taken for another: the end `0` of the range for the end `final` of the whole
request, or a content length `0` for none. -/
def Misread (p : PartialData) (final start last contentLength : ℤ) : Prop :=
  start = p.currentRangeStart ∧
    if p.currentRangeEnd = 0 ∧ final ≠ 0 then
      (last = 0 ∧ Agrees start last contentLength) ∨
        (last = final ∧ (contentLength ≤ 0 ∨ contentLength = last - start + 1))
    else last = p.currentRangeEnd ∧ contentLength = 0 ∧ start ≠ last + 1

variable {stored : ℤ → Bool}

theorem Rounds.setup (hr : Rounds p₀ p) (h : Setup last size (.start p₀ stored)) :
    Setup last size (.start p stored) := by
  induction hr with
  | start => exact h
  | @round p available hr ih =>
    have hf : (p.round available).sparseEntry = p.sparseEntry ∧
        (p.round available).truncated = p.truncated ∧
        (p.round available).byteRange = p.byteRange ∧
        (p.round available).resourceSize = p.resourceSize := by
      grind [PartialData.round, shouldValidateCache, prepareCacheValidation]
    exact ih.of_frame hf.1 hf.2.1 hf.2.2.1 hf.2.2.2 rfl
  | @respond p b e contentLength hr ih =>
    have hc : p.responseHeadersOK b e p.resourceSize contentLength = _ :=
      ih.responseHeadersOK_cases b e contentLength
    rw [hc]
    split <;> exact ih.of_frame
  | cacheRead result hr ih =>
    rw [onCacheReadCompleted]
    split <;> exact ih.of_frame
  | networkRead result hr ih =>
    rw [onNetworkReadCompleted]
    split <;> exact ih.of_frame

end PartialData

open PartialData

/-- `ResponseHeadersOK` accepts an answer exactly if it is one to the `Range` header, but for the
answers that are misread. -/
theorem Request.accepts_iff (request : Request) (size : ℤ) (h : request.validate size = some p₀)
    (hr : Rounds p₀ p) (available : ℤ × ℤ) (b e contentLength : ℤ) (hc : -1 ≤ contentLength) :
    (((p.round available).responseHeadersOK b e size contentLength).1 = true ↔
        Asked (p.round available) b e contentLength) ↔
      ¬ Misread (p.round available) (request.lastByte size) b e contentLength := by
  have hs := (hr.round available).setup ((validate_spec h).invariant fun _ => false).setup
  have hcs := hs.responseHeadersOK_cases b e contentLength
  rw [hs.resourceSize] at hcs
  dsimp only [Transaction.start] at hcs
  rw [hcs]
  simp only [Asked, Misread, Agrees]
  grind

/-- Of ten bytes with the first one missing, the first round asks for byte `0`.  The answer for
this byte is rejected, the answer for all ten bytes is accepted. -/
theorem first_byte_rejected : ∃ p, (Request.bounded 0 9).validate 10 = some p ∧
    let q := p.round (1, 9)
    (q.currentRangeStart, q.currentRangeEnd) = (0, 0) ∧
      (q.responseHeadersOK 0 0 10 1).1 = false ∧ (q.responseHeadersOK 0 9 10 10).1 = true :=
  ⟨_, rfl, by decide⟩

/-- Of ten bytes, two in the middle are stored: the first four have come from the network and
the two from the cache, and the answer for the last four is accepted. -/
theorem accepts_last_bytes : ∃ p, (Request.bounded 0 9).validate 10 = some p ∧
    let q := ((p.round (4, 2)).responseHeadersOK 0 3 10 4).2.onNetworkReadCompleted 4
    let q := ((q.round (4, 2)).onCacheReadCompleted 2).round (0, 0)
    (q.currentRangeStart, q.currentRangeEnd) = (6, 9) ∧
      ((q.responseHeadersOK 6 9 10 4).1 = true ↔ Asked q 6 9 4) :=
  ⟨_, rfl, by decide, (Request.accepts_iff (.bounded 0 9) 10 rfl
    (.cacheRead 2 (.round (4, 2) (.networkRead 4 (.respond 0 3 4 (.round (4, 2) .start)))))
    (0, 0) 6 9 4 (by decide)).mpr fun hm => absurd hm.2 (by decide)⟩

end ChromiumBase.PartialContent
