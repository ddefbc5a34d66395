import ChromiumBase.Net.Http.RangeRun

/-!
# The ranges that make up a requested range

The ranges that `PartialData` hands out lie one behind the other and make up what was requested,
and only the one at the end is called the last, exactly if two things do not happen
(`Request.served_iff`).

`GetNextRangeLen` never looks further than `int32Max` bytes.  If this window does not reach the
end of the request and is all in the cache or all outside, `PrepareCacheValidation` takes what it
sees for the rest of the request.  And `ResponseHeadersOK` takes the end `0` of a range for an end
that has not been set, and rejects the answer to a request for the first byte alone.

A run that goes wrong is made from the start of the run of bytes that fills such a window, which
validations reach one stored byte or one gap after the other.
-/

open List Option

namespace ChromiumBase.PartialContent

open Tiling Transaction

variable {first last size e q : ℤ} {stored : ℤ → Bool} {t t' : Transaction} {available : ℤ × ℤ}
  {v present final : Bool}

/-- Every window of the largest length that does not reach the end of the request has bytes that
are stored and bytes that are not. -/
def MixedWindows (first last : ℤ) (stored : ℤ → Bool) : Prop :=
  ∀ c, first ≤ c → c + int32Max ≤ last → ∀ v, ∃ b, c ≤ b ∧ b < c + int32Max ∧ stored b = v

section

variable (h : Invariant first last size stored t)

include h

theorem Invariant.window_eq (hm : MixedWindows first last stored)
    (he : ∀ b, t.partialData.currentRangeStart ≤ b →
      b < t.partialData.currentRangeStart + t.partialData.getNextRangeLen → t.stored b = v) :
    t.partialData.currentRangeStart + t.partialData.getNextRangeLen = last + 1 := by
  by_contra hne
  have hlen : t.partialData.getNextRangeLen = int32Max ∧
      t.partialData.currentRangeStart + int32Max ≤ last := by
    rw [h.setup.getNextRangeLen_eq] at hne ⊢
    omega
  obtain ⟨b, hle, hlt, hb⟩ := hm _ h.first_le hlen.2 (!v)
  rw [← h.stored_eq b hle, he b hle (by omega)] at hb
  exact Bool.eq_not_self v |>.mp hb

theorem Sound.handOut (available : ℤ × ℤ) (hf : final = true → e = last) :
    Sound last (t.handOut available e present final) where
  not_failed := by
    change (if present then Phase.cacheRead else Phase.sendRequest) ≠ Phase.failed
    cases present <;> decide
  isLast r hr hl := by
    rcases mem_append.mp hr with hr | hr
    · exact h.isLast r hr hl
    · obtain rfl := mem_singleton.mp hr
      exact hf hl

theorem Invariant.sound_validate (hp : t.phase = .startPartialCacheValidation)
    (ha : Available t.stored t.partialData.currentRangeStart
      t.partialData.getNextRangeLen available) (hm : MixedWindows first last stored) :
    Sound last (t.completePartialCacheValidation available) := by
  rcases h.complete_cases hp ha with
    ⟨-, hc⟩ | ⟨rest, e, present, final, hc, -, -, -, -, hf⟩
  · rw [hc]
    exact ⟨Phase.noConfusion, h.isLast⟩
  · rw [hc]
    refine Sound.handOut h rest fun hl => ?_
    obtain ⟨he, v, heq⟩ := hf hl
    have := h.window_eq hm heq
    omega

end

/-- A step from a sound state, if the windows are mixed and the first byte is not alone. -/
theorem Step.sound (hs : Step t t') (h : Invariant first last size stored t)
    (hm : MixedWindows first last stored) (hal : ¬ FirstByteAlone first last stored) :
    Sound last t' := by
  cases hs with
  | validate available hp ha => exact h.sound_validate hp ha hm
  | respond contentLength hp hl =>
    have hap := h.atPhase
    rw [AtPhase, hp] at hap
    rw [h.setup.validatePartialResponse_eq hl fun hend => (hap.2 hend).resolve_right hal]
    exact ⟨Phase.noConfusion, h.isLast⟩
  | cacheRead dataLen result hp hd hr hpo =>
    exact (h.cacheRead hp hd hr hpo).sound
  | networkRead result hp hr hpo =>
    exact (h.networkRead hp hr hpo).sound

def Transaction.stepsLeft (last : ℤ) (t : Transaction) : ℕ :=
  let inRange := 4 * (last - t.partialData.currentRangeEnd) +
    (t.partialData.currentRangeEnd + 1 - t.partialData.currentRangeStart) + 2
  match t.phase with
  | .startPartialCacheValidation => (4 * (last + 1 - t.partialData.currentRangeStart) + 1).toNat
  | .cacheRead => inRange.toNat
  | .sendRequest => (inRange + 1).toNat
  | .networkRead => inRange.toNat
  | .requestCompleted => 0
  | .failed => 0

theorem stepsLeft_handOut_lt (hp : t.phase = .startPartialCacheValidation)
    (hs : t.partialData.currentRangeStart ≤ e) (hend : e ≤ last) :
    (t.handOut available e present final).stepsLeft last < t.stepsLeft last := by
  have hl : t.stepsLeft last =
      (4 * (last + 1 - t.partialData.currentRangeStart) + 1).toNat := by
    rw [stepsLeft, hp]
  have hn : (t.handOut available e present final).stepsLeft last ≤
      (4 * (last - e) + (e + 1 - t.partialData.currentRangeStart) + 2 + 1).toNat := by
    cases present with
    | true => exact Int.toNat_le_toNat (by dsimp only [handOut]; omega)
    | false => exact le_rfl
  omega

/-- Every step brings the request closer to its end. -/
theorem Step.stepsLeft_lt (hst : Step t t') (h : Invariant first last size stored t) :
    t'.stepsLeft last < t.stepsLeft last := by
  cases hst with
  | validate available hp ha =>
    rcases h.complete_cases hp ha with
      ⟨hend, hc⟩ | ⟨rest, e, present, final, hc, hs, hle, -⟩
    · rw [hc, stepsLeft, stepsLeft, hp]
      dsimp only
      omega
    · rw [hc]
      exact stepsLeft_handOut_lt hp hs hle
  | respond contentLength hp hl =>
    have hap := h.atPhase
    rw [AtPhase, hp] at hap
    obtain ⟨-, hs, hle, -⟩ := hap.1
    by_cases hend : t.partialData.currentRangeEnd = 0 → last = 0
    · rw [h.setup.validatePartialResponse_eq hl hend, stepsLeft, stepsLeft, hp]
      dsimp only
      omega
    · have hf := h.setup.validatePartialResponse_failed hl hend
      rw [stepsLeft, stepsLeft, hf, hp]
      dsimp only
      omega
  | cacheRead dataLen result hp hd hr hpo =>
    obtain ⟨⟨-, hs, hle, -⟩, hlen⟩ := h.inRange_of_cacheRead hp
    rw [PartialData.cacheReadLen] at hr hpo
    rcases hpo with hpo | ⟨hz, rfl⟩
    · rw [partialCacheReadCompleted_pos t hpo, stepsLeft, stepsLeft, hp]
      dsimp only
      omega
    · rw [h.setup.partialCacheReadCompleted_zero, stepsLeft, stepsLeft, hp]
      dsimp only
      omega
  | networkRead result hp hr hpo =>
    obtain ⟨-, hs, hle, -⟩ := h.inRange_of_networkRead hp
    rcases hpo with hpo | ⟨hcur, rfl⟩
    · obtain ⟨hd, hn⟩ := partialNetworkReadCompleted_pos t hpo
      rw [stepsLeft, stepsLeft, hn, hd, hp]
      dsimp only
      omega
    · obtain ⟨hd, hn⟩ := h.setup.partialNetworkReadCompleted_zero
      rw [stepsLeft, stepsLeft, hn, hd, hp]
      cases t.partialData.finalRange with
      | true =>
        rw [if_pos rfl]
        dsimp only
        omega
      | false =>
        rw [if_neg Bool.false_ne_true]
        dsimp only
        omega

theorem exists_available (stored : ℤ → Bool) (offset len : ℤ) :
    ∃ available, Available stored offset len available := by
  by_cases hany : ∃ b, offset ≤ b ∧ b < offset + len ∧ stored b = true
  · obtain ⟨b, hle, hlt, hb⟩ := hany
    obtain ⟨q, hq, hqb, hs, hbe⟩ := exists_first hle hb
    refine ⟨(q, 1), .inr ⟨one_pos, hq, by dsimp only; omega, hbe, fun c hqc hcq => ?_⟩⟩
    obtain rfl : c = q := by omega
    exact hs
  · refine ⟨(0, 0), .inl ⟨rfl, fun b hle hlt => ?_⟩⟩
    exact Bool.eq_false_of_not_eq_true fun hb => hany ⟨b, hle, hlt, hb⟩

section

variable (h : Invariant first last size stored t)

include h

/-- A request that is not completed goes on. -/
theorem Invariant.exists_step (hp : t.phase ≠ .requestCompleted) : ∃ t', Step t t' := by
  cases hc : t.phase with
  | startPartialCacheValidation =>
    obtain ⟨available, ha⟩ := exists_available t.stored t.partialData.currentRangeStart
      t.partialData.getNextRangeLen
    exact ⟨_, Step.validate available hc ha⟩
  | cacheRead =>
    obtain ⟨⟨-, hs, -, -⟩, hlen⟩ := h.inRange_of_cacheRead hc
    by_cases hz : t.partialData.cachedMinLen = 0
    · have hr : t.partialData.cacheReadLen 1 = 0 := by
        rw [PartialData.cacheReadLen]
        omega
      exact ⟨_, Step.cacheRead 1 0 hc one_pos hr.ge (.inr ⟨hr, rfl⟩)⟩
    · have hr : 1 ≤ t.partialData.cacheReadLen 1 := by
        rw [PartialData.cacheReadLen]
        omega
      exact ⟨_, Step.cacheRead 1 1 hc one_pos hr (.inl one_pos)⟩
  | sendRequest => exact ⟨_, Step.respond 0 hc (.inl le_rfl)⟩
  | networkRead =>
    have hs := (h.inRange_of_networkRead hc).start_le
    by_cases hend : t.partialData.currentRangeStart = t.partialData.currentRangeEnd + 1
    · exact ⟨_, Step.networkRead 0 hc (by omega) (.inr ⟨hend, rfl⟩)⟩
    · exact ⟨_, Step.networkRead 1 hc (by omega) (.inl one_pos)⟩
  | requestCompleted => exact absurd hc hp
  | failed => exact absurd hc h.sound.not_failed

theorem Invariant.exists_completed
    (hm : MixedWindows first last stored) (ha : ¬ FirstByteAlone first last stored) :
    ∃ t', Reaches t t' ∧ t'.phase = .requestCompleted := by
  induction hn : t.stepsLeft last using Nat.strong_induction_on generalizing t with
  | _ n ih =>
    by_cases hp : t.phase = .requestCompleted
    · exact ⟨t, Relation.ReflTransGen.refl, hp⟩
    · obtain ⟨t₁, hs⟩ := h.exists_step hp
      have hlt := hs.stepsLeft_lt h
      have hne := hs.invariant h (hs.sound h hm ha)
      obtain ⟨t', hr, hd⟩ := ih _ (hn ▸ hlt) hne rfl
      exact ⟨t', Relation.ReflTransGen.head hs hr, hd⟩

/-- The ranges handed out are adjacent and disjoint parts of the request, only one that ends the
request is called the last, and the request gets completed with all of it handed out. -/
structure Served (first last : ℤ) (t : Transaction) : Prop where
  adjacent : t.segments.IsChain fun r s => s.first = r.last + 1
  disjoint : t.segments.Pairwise fun r s => ∀ b, ¬ (r.Contains b ∧ s.Contains b)
  within : ∀ r ∈ t.segments, ∀ b, r.Contains b → first ≤ b ∧ b ≤ last
  isLast : ∀ r ∈ t.handedOut, r.isLastRange = true → r.last = last
  covers : t.phase = .requestCompleted →
    ∀ b, first ≤ b → b ≤ last → ∃ r ∈ t.segments, r.Contains b
  completes : ∃ t', Reaches t t' ∧ t'.phase = .requestCompleted

theorem Invariant.exists_tiles : ∃ stop ≤ last + 1, Tiles first t.segments stop ∧
      (t.phase = .requestCompleted → stop = last + 1) := by
  have hap := h.atPhase
  have hs := h.start_le
  rw [AtPhase] at hap
  have hr (hr : InRange first last t) (hne : t.phase ≠ .requestCompleted) :
      ∃ stop ≤ last + 1, Tiles first t.segments stop ∧
        (t.phase = .requestCompleted → stop = last + 1) :=
    ⟨_, add_le_add_left hr.end_le 1, hr.tiles, fun hd => absurd hd hne⟩
  cases hp : t.phase with rw [hp] at hap
  | startPartialCacheValidation => exact ⟨_, hs, hap.1, Phase.noConfusion⟩
  | cacheRead | sendRequest => exact hp ▸ hr hap.1 (by rw [hp]; decide)
  | networkRead => exact hp ▸ hr hap (by rw [hp]; decide)
  | requestCompleted => exact ⟨_, le_rfl, hap, fun _ => rfl⟩
  | failed => exact hap.elim

theorem Invariant.served (hm : MixedWindows first last stored)
    (ha : ¬ FirstByteAlone first last stored) : Served first last t := by
  obtain ⟨stop, hst, ht, hd⟩ := h.exists_tiles
  refine ⟨ht.isChain, ?_, fun r hr b hb => ?_, h.isLast, fun hp b hf hl => ?_,
    h.exists_completed hm ha⟩
  · refine ht.pairwise.imp ?_
    rintro r s hlt b ⟨⟨-, hr⟩, ⟨hs, -⟩⟩
    omega
  · have := (ht.exists_contains_iff b).mp ⟨r, hr, hb⟩
    omega
  · have := hd hp
    exact (ht.exists_contains_iff b).mpr ⟨hf, by omega⟩

end

theorem Step.phase_ne_failed (hs : Step t t') : t.phase ≠ .failed := by
  intro hf
  cases hs with
  | validate _ hp _ | respond _ hp _ | cacheRead _ _ hp _ _ _ | networkRead _ hp _ _ =>
    exact Phase.noConfusion (hp.symm.trans hf)

theorem Served.sound (h : Served first last t) : Sound last t where
  isLast := h.isLast
  not_failed hf := by
    obtain ⟨t', hr, hd⟩ := h.completes
    rcases Relation.ReflTransGen.cases_head hr with rfl | ⟨t₁, hs, -⟩
    · rw [hf] at hd
      cases hd
    · exact hs.phase_ne_failed hf

theorem Setup.reaches_of_cacheRead (h : Setup last size t) (hp : t.phase = .cacheRead)
    (hlen : 0 < t.partialData.cachedMinLen) :
    ∃ t', Reaches t t' ∧ t'.phase = .startPartialCacheValidation ∧
      t'.partialData.currentRangeStart =
        t.partialData.currentRangeStart + t.partialData.cachedMinLen := by
  have hr := Step.cacheRead _ _ hp hlen (le_of_eq (min_self _).symm) (.inl hlen)
  rw [partialCacheReadCompleted_pos t hlen] at hr
  obtain ⟨t₁, hr, hd, hm, hp₁⟩ : ∃ t₁, Step t t₁ ∧
      t₁.partialData = { t.partialData with
        currentRangeStart := t.partialData.currentRangeStart + t.partialData.cachedMinLen
        cachedMinLen := t.partialData.cachedMinLen - t.partialData.cachedMinLen } ∧
      t₁.mode = t.mode ∧ t₁.phase = .cacheRead := ⟨_, hr, rfl, rfl, hp⟩
  have hs : Setup last size t₁ :=
    h.of_frame (by rw [hd]) (by rw [hd]) (by rw [hd]) (by rw [hd]) hm
  have hz : t₁.partialData.cacheReadLen 1 = 0 := by
    rw [hd, PartialData.cacheReadLen]
    dsimp only
    omega
  have hend := Step.cacheRead 1 0 hp₁ one_pos hz.ge (.inr ⟨hz, rfl⟩)
  rw [hs.partialCacheReadCompleted_zero] at hend
  exact ⟨_, (Relation.ReflTransGen.single hr).tail hend, rfl, congrArg _ hd⟩

theorem Setup.reaches_of_networkRead (h : Setup last size t) (hp : t.phase = .networkRead)
    (hlt : t.partialData.currentRangeStart ≤ t.partialData.currentRangeEnd)
    (hf : t.partialData.finalRange = false) :
    ∃ t', Reaches t t' ∧ t'.phase = .startPartialCacheValidation ∧
      t'.partialData.currentRangeStart = t.partialData.currentRangeEnd + 1 := by
  have hlen : 0 < t.partialData.currentRangeEnd + 1 - t.partialData.currentRangeStart := by omega
  have hr := Step.networkRead _ hp (by omega) (.inl hlen)
  obtain ⟨hd, hp₁⟩ := partialNetworkReadCompleted_pos t hlen
  have hm := (partialNetworkReadCompleted_frame t
    (t.partialData.currentRangeEnd + 1 - t.partialData.currentRangeStart)).1
  generalize t.partialNetworkReadCompleted
    (t.partialData.currentRangeEnd + 1 - t.partialData.currentRangeStart) = t₁
    at hr hd hp₁ hm
  have hs : Setup last size t₁ :=
    h.of_frame (by rw [hd]) (by rw [hd]) (by rw [hd]) (by rw [hd]) hm
  have hcur : t₁.partialData.currentRangeStart = t.partialData.currentRangeEnd + 1 := by
    rw [hd]
    dsimp only
    omega
  have hc : t₁.partialData.currentRangeStart = t₁.partialData.currentRangeEnd + 1 := by
    rw [hcur, hd]
  have hend := Step.networkRead 0 (hp₁.trans hp) (by omega) (.inr ⟨hc, rfl⟩)
  obtain ⟨hd₂, hp₂⟩ := hs.partialNetworkReadCompleted_zero
  refine ⟨_, (Relation.ReflTransGen.single hr).tail hend, ?_, ?_⟩
  · have hf₁ : t₁.partialData.finalRange = false := by rw [hd, hf]
    rw [hp₂, hf₁]
    rfl
  · rw [hd₂, hcur]

section

variable (h : Invariant first last size stored t) (hp : t.phase = .startPartialCacheValidation)

include h hp

theorem Invariant.advance_cached (hle : t.partialData.currentRangeStart ≤ last)
    (hs : stored t.partialData.currentRangeStart = true) :
    ∃ t', Reaches t t' ∧ t'.phase = .startPartialCacheValidation ∧
      t'.partialData.currentRangeStart = t.partialData.currentRangeStart + 1 := by
  have hpos := h.setup.getNextRangeLen_pos hle
  have ha : Available t.stored t.partialData.currentRangeStart
      t.partialData.getNextRangeLen (t.partialData.currentRangeStart, 1) := by
    refine .inr ⟨one_pos, le_rfl, by dsimp only; omega, fun b hb hlt => ?_, fun b hb hlt => ?_⟩
    · exact absurd hlt (not_lt.mpr hb)
    · dsimp only at hb hlt
      obtain rfl : b = t.partialData.currentRangeStart := by omega
      rw [h.stored_eq _ le_rfl, hs]
  have hv := Step.validate _ hp ha
  rw [h.setup.complete_of_cached hle one_pos] at hv
  have hse := h.setup.handOut (t.partialData.currentRangeStart, 1)
    (t.partialData.currentRangeStart + 1 - 1) true
    (t.partialData.finalRange || t.partialData.getNextRangeLen = 1)
  obtain ⟨t', hr, hp', hcur⟩ := hse.reaches_of_cacheRead rfl one_pos
  exact ⟨t', Relation.ReflTransGen.head hv hr, hp', hcur⟩

theorem Invariant.advance_network (hal : ¬ FirstByteAlone first last stored)
    (hlt : t.partialData.currentRangeStart < q)
    (hw : q < t.partialData.currentRangeStart + t.partialData.getNextRangeLen)
    (hbe : ∀ b, t.partialData.currentRangeStart ≤ b → b < q → stored b = false)
    (hs : stored q = true) : ∃ t', Reaches t t' ∧ t'.phase = .startPartialCacheValidation ∧
      t'.partialData.currentRangeStart = q := by
  have hl := h.window_le
  have hfi := h.first_le
  have hn := h.first_nonneg
  have hle : t.partialData.currentRangeStart ≤ last := by omega
  have hf : t.partialData.finalRange = false := Bool.eq_false_of_not_eq_true fun hf => by
    have := (h.tiles_of_validation hp).2 hf
    omega
  have ha : Available t.stored t.partialData.currentRangeStart
      t.partialData.getNextRangeLen (q, 1) := by
    refine .inr ⟨one_pos, hlt.le, by dsimp only; omega, fun b hb hbq => ?_, fun b hb hbq => ?_⟩
    · rw [h.stored_eq b hb, hbe b hb hbq]
    · dsimp only at hb hbq
      obtain rfl : b = q := by omega
      rw [h.stored_eq _ hlt.le, hs]
  have hv := Step.validate _ hp ha
  rw [h.setup.complete_of_network hle hlt one_pos, hf] at hv
  have hse := h.setup.handOut (q, 1) (q - 1) false false
  have hend : q - 1 = 0 → last = 0 := fun hz => absurd
    ⟨by omega, by omega, hbe 0 (by omega) (by omega), by rw [← hs]; congr 1; omega⟩ hal
  have hr := Step.respond (t := t.handOut (q, 1) (q - 1) false false) 0 rfl (.inl le_rfl)
  rw [hse.validatePartialResponse_eq (.inl le_rfl) hend] at hr
  have hre : Setup last size
      { t.handOut (q, 1) (q - 1) false false with phase := .networkRead } :=
    hse.of_frame
  obtain ⟨t', hrea, hp', hcur⟩ := hre.reaches_of_networkRead rfl
    (by change t.partialData.currentRangeStart ≤ q - 1; omega) rfl
  refine ⟨t', (Relation.ReflTransGen.single hv).trans
    (Relation.ReflTransGen.head hr hrea), hp', ?_⟩
  rw [hcur]
  change q - 1 + 1 = q
  omega

/-- A window with equal answers that does not reach the end of the request is called the last
range. -/
theorem Invariant.exists_wrong_last (hle : t.partialData.currentRangeStart + int32Max ≤ last)
    (he : ∀ b, t.partialData.currentRangeStart ≤ b →
      b < t.partialData.currentRangeStart + int32Max → stored b = v) :
    ∃ t', Step t t' ∧ ¬ Sound last t' := by
  have hmax : int32Max = 2147483647 := rfl
  have hlen : t.partialData.getNextRangeLen = int32Max := by
    rw [h.setup.getNextRangeLen_eq]
    omega
  have hs : t.partialData.currentRangeStart ≤ last := by omega
  have hu (available : ℤ × ℤ) (present : Bool) : ¬ Sound last
      (t.handOut available (t.partialData.currentRangeStart + int32Max - 1) present true) := by
    intro hso
    have := hso.isLast _ (mem_append_right _ mem_cons_self) rfl
    dsimp only at this
    omega
  cases v with
  | false =>
    have hv := Step.validate (0, 0) hp
      (.inl ⟨rfl, fun b hb hlt => by rw [h.stored_eq b hb, he b hb (hlen ▸ hlt)]⟩)
    rw [h.setup.complete_of_none hs, hlen] at hv
    exact ⟨_, hv, hu _ _⟩
  | true =>
    have ha : Available t.stored t.partialData.currentRangeStart
        t.partialData.getNextRangeLen (t.partialData.currentRangeStart, int32Max) := by
      refine .inr ⟨(by decide : 0 < int32Max), le_rfl, by rw [hlen], fun b hb hlt => ?_,
        fun b hb hlt => ?_⟩
      · exact absurd hlt (not_lt.mpr hb)
      · rw [h.stored_eq b hb, he b hb hlt]
    have hv := Step.validate _ hp ha
    rw [h.setup.complete_of_cached hs (by decide), hlen, decide_eq_true rfl, Bool.or_true] at hv
    exact ⟨_, hv, hu _ _⟩

end

section Necessary

variable {t₀ : Transaction}

variable (h₀ : Invariant first last size stored t₀)

include h₀

theorem Reaches.invariant (hso : ∀ t, Reaches t₀ t → Sound last t) (hr : Reaches t₀ t) :
    Invariant first last size stored t := by
  induction hr with
  | refl => exact h₀
  | tail hr hs ih => exact hs.invariant ih (hso _ (hr.tail hs))

/-- A transaction that nothing goes wrong for comes to the start of every long run of bytes. -/
theorem exists_reaches_run_start (hso : ∀ t, Reaches t₀ t → Sound last t)
    (ha : ¬ FirstByteAlone first last stored) (hq : q + int32Max ≤ last)
    (hrun : ∀ b, q ≤ b → b < q + int32Max → stored b = v) (hbe : first < q → stored (q - 1) = !v)
    (hre : Reaches t₀ t) (hp : t.phase = .startPartialCacheValidation)
    (hle : t.partialData.currentRangeStart ≤ q) :
    ∃ t', Reaches t₀ t' ∧ t'.phase = .startPartialCacheValidation ∧
      t'.partialData.currentRangeStart = q := by
  have hmax : int32Max = 2147483647 := rfl
  induction hn : (q - t.partialData.currentRangeStart).toNat using Nat.strong_induction_on
    generalizing t with
  | _ n ih =>
    by_cases heq : t.partialData.currentRangeStart = q
    · exact ⟨t, hre, hp, heq⟩
    have h := hre.invariant h₀ hso
    have hf := h.first_le
    have hne {t' : Transaction} (hre' : Reaches t t')
        (hp' : t'.phase = .startPartialCacheValidation)
        (hlt : t.partialData.currentRangeStart < t'.partialData.currentRangeStart)
        (hle' : t'.partialData.currentRangeStart ≤ q) :=
      ih _ (by omega) (hre.trans hre') hp' hle' rfl
    cases hcur : stored t.partialData.currentRangeStart with
    | true =>
      obtain ⟨t', hre', hp', hcur'⟩ := h.advance_cached hp (by omega) hcur
      exact hne hre' hp' (by omega) (by omega)
    | false =>
      -- The last byte before the run is stored, or else the first one of the run.
      obtain ⟨s, hs, hsq, hsv⟩ : ∃ s, t.partialData.currentRangeStart ≤ s ∧ s ≤ q ∧
          stored s = true := by
        cases v with
        | true => exact ⟨q, hle, le_rfl, hrun q le_rfl (by omega)⟩
        | false => exact ⟨q - 1, by omega, by omega, hbe (by omega)⟩
      obtain ⟨r, hr, hrs, hrst, hrb⟩ := exists_first hs hsv
      have hrne : r ≠ t.partialData.currentRangeStart := by
        rintro rfl
        rw [hcur] at hrst
        cases hrst
      by_cases hw :
          r < t.partialData.currentRangeStart + t.partialData.getNextRangeLen
      · obtain ⟨t', hre', hp', hcur'⟩ :=
          h.advance_network hp ha (by omega) hw hrb hrst
        exact hne hre' hp' (by omega) (by omega)
      · rw [h.setup.getNextRangeLen_eq] at hw
        obtain ⟨t', hst, hu⟩ := h.exists_wrong_last hp (by omega)
          fun b hb hlt => hrb b hb (by omega)
        exact absurd (hso t' (hre.tail hst)) hu

/-- A window that is not mixed would be called the last range. -/
theorem mixedWindows_of_sound (hp : t₀.phase = .startPartialCacheValidation)
    (hsta : t₀.partialData.currentRangeStart = first) (hs : ∀ t, Reaches t₀ t → Sound last t)
    (ha : ¬ FirstByteAlone first last stored) : MixedWindows first last stored := by
  intro c hc hl v
  by_contra hn
  have he : ∀ b, c ≤ b → b < c + int32Max → stored b = !v := by
    intro b hb hlt
    exact Bool.eq_not_of_ne fun heq => hn ⟨b, hb, hlt, heq⟩
  obtain ⟨q, hq, hqc, hrun, hbe⟩ := exists_run_start hc he
  obtain ⟨t, hr, hp', hcur⟩ := exists_reaches_run_start h₀ hs ha (by omega)
    (fun b hb hlt => hrun b hb (by omega)) hbe Relation.ReflTransGen.refl hp (by omega)
  obtain ⟨t', hst, hu⟩ := (hr.invariant h₀ hs).exists_wrong_last hp'
    (by omega) fun b hb hlt => hrun b (by omega) (by omega)
  exact hu (hs t' (hr.tail hst))

/-- The answer for the first byte alone would be refused. -/
theorem not_firstByteAlone_of_sound
    (hp : t₀.phase = .startPartialCacheValidation) (hst : t₀.partialData.currentRangeStart = first)
    (hso : ∀ t, Reaches t₀ t → Sound last t) : ¬ FirstByteAlone first last stored := by
  rintro ⟨rfl, hl, hz, hone⟩
  have hmax : int32Max = 2147483647 := rfl
  have hn := h₀.setup.last_nonneg
  have ha : Available t₀.stored t₀.partialData.currentRangeStart
      t₀.partialData.getNextRangeLen (1, 1) := by
    refine .inr ⟨one_pos, by dsimp only; omega, ?_, fun b hb hlt => ?_, fun b hb hlt => ?_⟩
    · rw [h₀.setup.getNextRangeLen_eq]
      omega
    · dsimp only at hlt
      obtain rfl : b = 0 := by omega
      rw [h₀.stored_eq _ hb, hz]
    · dsimp only at hb hlt
      obtain rfl : b = 1 := by omega
      rw [h₀.stored_eq _ (by omega), hone]
  have hv := Step.validate _ hp ha
  rw [h₀.setup.complete_of_network (by omega) (by omega) one_pos] at hv
  have hs := h₀.setup.handOut (1, 1) (1 - 1) false t₀.partialData.finalRange
  have hr := Step.respond
    (t := t₀.handOut (1, 1) (1 - 1) false t₀.partialData.finalRange) 0 rfl (.inl le_rfl)
  exact (hso _ ((Relation.ReflTransGen.single hv).tail hr)).not_failed
    (hs.validatePartialResponse_failed (.inl le_rfl) fun himp => hl (himp rfl))

end Necessary

namespace HttpByteRange

theorem computeBounds_bounded (hs : 0 < size) (hv : (bounded first last).isValid = true)
    (hok : ((bounded first last).computeBounds size).1 = true) :
    0 ≤ first ∧ first < size ∧ (last = kPositionNotSpecified ∨ first ≤ last) ∧
      ((bounded first last).computeBounds size).2.lastBytePosition =
        if last = kPositionNotSpecified then size - 1 else min last (size - 1) := by
  have hb := of_decide_eq_true hv
  simp only [bounded, kPositionNotSpecified] at hb
  simp only [computeBounds, bounded, hasFirstBytePosition, hasLastBytePosition,
    isSuffixByteRange, kPositionNotSpecified] at hok ⊢
  grind

theorem computeBounds_suffix {length : ℤ} (hs : 0 < size) (hv : (suffix length).isValid = true) :
    0 < length ∧ ((suffix length).computeBounds size).2.firstBytePosition = max 0 (size - length) ∧
      ((suffix length).computeBounds size).2.lastBytePosition = size - 1 := by
  have hb := of_decide_eq_true hv
  simp only [suffix, kPositionNotSpecified] at hb
  simp only [computeBounds, suffix, isSuffixByteRange, isValid, kPositionNotSpecified]
  grind

end HttpByteRange

namespace Request

variable {request : Request} {p : PartialData}

theorem validate_of_init (request : Request) {range : HttpByteRange}
    (hi : request.partialData = PartialData.init range) (h : request.validate size = some p) :
    range.isValid = true ∧ 0 < size ∧ (range.computeBounds size).1 = true ∧ p = {
        byteRange := (range.computeBounds size).2
        rangeRequested := true
        resourceSize := size
        currentRangeStart :=
          if range.firstBytePosition < 0 then (range.computeBounds size).2.firstBytePosition
          else range.firstBytePosition } := by
  rw [validate, hi] at h
  obtain ⟨p₀, hi, h⟩ := bind_eq_some_iff.mp h
  obtain ⟨p₁, hu, h⟩ := bind_eq_some_iff.mp h
  obtain ⟨hok, h⟩ := ite_none_right_eq_some.mp h
  obtain ⟨hv, hi⟩ := ite_none_right_eq_some.mp hi
  obtain ⟨hs, hu⟩ := ite_none_left_eq_some.mp hu
  cases hu
  cases h
  simp only [PartialData.isRequestedRangeOK] at hok ⊢
  grind

theorem validate_whole (h : whole.validate size = some p) :
    0 < size ∧ p = { byteRange := { lastBytePosition := size - 1 }, resourceSize := size } := by
  obtain ⟨p₁, hu, h⟩ := bind_eq_some_iff.mp h
  obtain ⟨hs, hu⟩ := ite_none_left_eq_some.mp hu
  cases hu
  cases h
  exact ⟨not_le.mp hs, rfl⟩

/-- A request that is accepted is for bytes of the resource. -/
structure Accepted (request : Request) (size : ℤ) (p : PartialData) : Prop where
  first_nonneg : 0 ≤ request.firstByte size
  first_le : request.firstByte size ≤ request.lastByte size
  last_lt : request.lastByte size < size
  currentRangeStart : p.currentRangeStart = request.firstByte size
  lastBytePosition : p.byteRange.lastBytePosition = request.lastByte size
  resourceSize : p.resourceSize = size
  sparseEntry : p.sparseEntry = true
  truncated : p.truncated = false
  finalRange : p.finalRange = false

theorem accepted_bounded (h : (bounded first last).validate size = some p) :
    Accepted (bounded first last) size p := by
  obtain ⟨hv, hs, hok, rfl⟩ := validate_of_init (bounded first last) rfl h
  obtain ⟨hf, hlt, hle, hl⟩ := HttpByteRange.computeBounds_bounded hs hv hok
  have hb : first ≤ (bounded first last).lastByte size ∧
      (bounded first last).lastByte size < size := by
    rw [lastByte]
    split <;> omega
  exact ⟨hf, hb.1, hb.2, if_neg (not_lt.mpr hf), hl, rfl, rfl, rfl, rfl⟩

/-- What `ValidateEntryHeadersAndContinue` has checked. -/
theorem validate_spec (h : request.validate size = some p) : Accepted request size p := by
  have hlt : size - 1 < size := by omega
  cases request with
  | whole =>
    obtain ⟨hs, rfl⟩ := validate_whole h
    exact ⟨le_rfl, Int.le_sub_one_of_lt hs, hlt, rfl, rfl, rfl, rfl, rfl, rfl⟩
  | bounded first last => exact accepted_bounded h
  | rightUnbounded first =>
    -- Both requests make the same range.
    have hb : (bounded first kPositionNotSpecified).validate size = some p := h
    have ha := accepted_bounded hb
    exact ⟨ha.first_nonneg, ha.first_le, ha.last_lt,
      ha.currentRangeStart, ha.lastBytePosition, ha.resourceSize,
      ha.sparseEntry, ha.truncated, ha.finalRange⟩
  | suffix length =>
    obtain ⟨hv, hs, -, rfl⟩ := validate_of_init (suffix length) rfl h
    obtain ⟨hpos, hf, hl⟩ := HttpByteRange.computeBounds_suffix hs hv
    refine ⟨le_max_left _ _, ?_, hlt, hf, hl, rfl, rfl, rfl, rfl⟩
    change max 0 (size - length) ≤ size - 1
    omega

theorem Accepted.invariant (h : Accepted request size p) (stored : ℤ → Bool) :
    Invariant (request.firstByte size) (request.lastByte size) size stored
      (start p stored) where
  setup := ⟨h.sparseEntry, h.truncated, h.lastBytePosition, h.resourceSize, rfl,
    h.first_nonneg.trans h.first_le, h.last_lt⟩
  first_nonneg := h.first_nonneg
  first_le := h.currentRangeStart.ge
  start_le := h.currentRangeStart.le.trans (h.first_le.trans (Int.le_add_one le_rfl))
  stored_eq _ _ := rfl
  isLast _ hr := absurd hr not_mem_nil
  atPhase := ⟨h.currentRangeStart.symm, fun hf => by
    have hf : p.finalRange = true := hf
    rw [h.finalRange] at hf
    cases hf⟩

/-- The ranges handed out for a request make it up in every run exactly if no window of the
largest length before its end is all stored or all missing, and it does not start with byte `0`
alone missing. -/
theorem served_iff (request : Request) (size : ℤ) (stored : ℤ → Bool)
    (h : request.validate size = some p) : (∀ t, Reaches (start p stored) t →
        Served (request.firstByte size) (request.lastByte size) t) ↔
      MixedWindows (request.firstByte size) (request.lastByte size) stored ∧
        ¬ FirstByteAlone (request.firstByte size) (request.lastByte size) stored := by
  have ha := validate_spec h
  have hs := ha.invariant stored
  constructor
  · intro hse
    have hso := fun t ht => (hse t ht).sound
    have hal := not_firstByteAlone_of_sound hs rfl ha.currentRangeStart hso
    exact ⟨mixedWindows_of_sound hs rfl ha.currentRangeStart hso hal, hal⟩
  · rintro ⟨hm, hal⟩ t hr
    have hi : Invariant (request.firstByte size) (request.lastByte size) size stored t := by
      induction hr with
      | refl => exact hs
      | tail _ hst ih => exact hst.invariant ih (hst.sound ih hm hal)
    exact hi.served hm hal

theorem served_small : ∃ p, whole.validate 10 = some p ∧
    ∀ t, Reaches (start p fun b => b = 4) t → Served 0 9 t := by
  refine ⟨_, rfl, (served_iff whole 10 (fun b => b = 4) rfl).mpr
    ⟨fun c hc hl => ?_, fun h => ?_⟩⟩
  · have hc : 0 ≤ c := hc
    have hl : c + int32Max ≤ 9 := hl
    have : int32Max = 2147483647 := rfl
    omega
  · exact absurd h.isStored (by decide)

/-- Of a resource of 2 GiB with nothing stored, the first range is called the last, although one
byte is left. -/
theorem served_two_gib : ∃ p t, whole.validate 2147483648 = some p ∧
    Step (start p fun _ => false) t ∧
    t.handedOut = [⟨⟨0, 2147483646⟩, false, true⟩] ∧ ¬ Served 0 2147483647 t := by
  refine ⟨_, _, rfl, Step.validate (0, 0) rfl (.inl ⟨rfl, fun _ _ _ => rfl⟩), by decide, ?_⟩
  intro hs
  have hl := hs.isLast ⟨⟨0, 2147483646⟩, false, true⟩ (by decide) rfl
  exact absurd hl (by decide)

end Request

end ChromiumBase.PartialContent
