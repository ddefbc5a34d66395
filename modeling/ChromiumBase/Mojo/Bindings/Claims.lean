import ChromiumBase.Lib.OrderedSpans
import ChromiumBase.Lib.Outcome
import ChromiumBase.Mojo.Bindings.Containers

/-!
# What an accepted container has claimed

Memory and the two kinds of handle indices are claimed from their low ends on, so everything an
accepted container leads to lies in the order of the visits.  `Claimed` records the claims
between two contexts; it composes, and a loop over elements claims what its rounds claim.
-/

open Memory Outcome List

namespace ChromiumBase.Bindings

namespace ValidationContext

def indexBegin (ctx : ValidationContext) : Bool → ℕ
  | false => ctx.handleBegin
  | true => ctx.associatedEndpointHandleBegin

def indexEnd (ctx : ValidationContext) : Bool → ℕ
  | false => ctx.handleEnd
  | true => ctx.associatedEndpointHandleEnd

structure Bounded (ctx : ValidationContext) : Prop where
  data : ctx.dataBegin ≤ ctx.dataEnd
  index : ∀ a, ctx.indexBegin a ≤ ctx.indexEnd a

end ValidationContext

def indexSpan (index : ℕ) : Span := ⟨index, 1⟩

/-- From `ctx` to `ctx'` exactly these spans of memory and these indices have been claimed. -/
structure Claimed (ss : List Span) (indices : Bool → List ℕ) (ctx ctx' : ValidationContext) :
    Prop where
  memory : InOrder ctx.dataBegin ss ctx'.dataBegin
  index : ∀ a, InOrder (ctx.indexBegin a) ((indices a).map indexSpan) (ctx'.indexBegin a)
  dataEnd : ctx'.dataEnd = ctx.dataEnd
  indexEnd : ∀ a, ctx'.indexEnd a = ctx.indexEnd a
  stackDepth : ctx'.stackDepth = ctx.stackDepth
  bounded : ctx.Bounded → ctx'.Bounded

variable {m : Mem} {ctx ctx' ctx'' : ValidationContext} {ss ts : List Span}
  {indices indices' : Bool → List ℕ} {data slot n : ℕ}

namespace Claimed

theorem refl (ctx : ValidationContext) : Claimed [] (fun _ => []) ctx ctx where
  memory := Nat.le_refl _
  index _ := Nat.le_refl _
  dataEnd := rfl
  indexEnd _ := rfl
  stackDepth := rfl
  bounded := id

theorem trans (h₁ : Claimed ss indices ctx ctx') (h₂ : Claimed ts indices' ctx' ctx'') :
    Claimed (ss ++ ts) (fun a => indices a ++ indices' a) ctx ctx'' where
  memory := h₁.memory.append h₂.memory
  index a := by
    rw [map_append]
    exact (h₁.index a).append (h₂.index a)
  dataEnd := h₂.dataEnd.trans h₁.dataEnd
  indexEnd a := (h₂.indexEnd a).trans (h₁.indexEnd a)
  stackDepth := h₂.stackDepth.trans h₁.stackDepth
  bounded h := h₂.bounded (h₁.bounded h)

/-- A claim that succeeds takes a span of the range that is left. -/
theorem of_claimMemory {position : ℕ} (hn : n < 2 ^ 32)
    (h : ctx.claimMemory position n = some ctx') :
    Claimed [⟨position, n⟩] (fun _ => []) ctx ctx' := by
  obtain ⟨hbe, hle, rfl⟩ := ValidationContext.claimMemory_eq_some hn h
  exact
    { memory := InOrder.singleton hbe
      index := fun a => by cases a <;> exact Nat.le_refl _
      dataEnd := rfl
      indexEnd := fun a => by cases a <;> rfl
      stackDepth := rfl
      bounded := fun hb => ⟨hle, fun a => by
        cases a
        · exact hb.index false
        · exact hb.index true⟩ }

/-- A claim that succeeds takes an index of its kind. -/
theorem of_claim {kind : HandleKind} {index : ℕ} (h : claim kind ctx index = some ctx') :
    Claimed [] (fun a => handleIndex kind a index) ctx ctx' := by
  simp only [claim, handleIndex] at h ⊢
  generalize kind.associated = b at h ⊢
  cases b
  all_goals
    rcases ValidationContext.claimed_or_invalid h with ⟨hi, rfl⟩ | ⟨hv, hr, rfl⟩
    · simpa [hi] using refl ctx'
    · rw [not_or, Nat.not_lt, Nat.not_le] at hr
      exact
        { memory := Nat.le_refl _
          index := fun a => by
            cases a <;> simp [hv, InOrder, indexSpan, ValidationContext.indexBegin, hr, Span.stop]
          dataEnd := rfl
          indexEnd := fun a => by cases a <;> rfl
          stackDepth := rfl
          bounded := fun hb => ⟨hb.data, fun a => by
            have := hb.index a
            cases a <;> first | exact this | exact hr.2⟩ }

theorem of_scoped (h : Claimed ss indices { ctx with stackDepth := ctx.stackDepth + 1 } ctx') :
    Claimed ss indices ctx { ctx' with stackDepth := ctx'.stackDepth - 1 } where
  memory := h.memory
  index a := by
    have := h.index a
    cases a <;> exact this
  dataEnd := h.dataEnd
  indexEnd a := by
    have := h.indexEnd a
    cases a <;> exact this
  stackDepth := by
    have : ctx'.stackDepth = ctx.stackDepth + 1 := h.stackDepth
    dsimp only
    omega
  bounded hb := by
    have hb' := h.bounded ⟨hb.data, fun a => by
      have := hb.index a
      cases a <;> exact this⟩
    exact ⟨hb'.data, fun a => by
      have := hb'.index a
      cases a <;> exact this⟩

end Claimed

/-- What every round of a loop claims, and a fact `P` that every round establishes. -/
theorem forElements_claimed {f : ℕ → ValidationContext → Validated ValidationContext}
    (spansAt : ℕ → List Span) (indicesAt : ℕ → Bool → List ℕ) (P : ℕ → Prop)
    (hf : ∀ i c c', c.stackDepth = ctx.stackDepth → f i c = .ok c' →
      Claimed (spansAt i) (indicesAt i) c c' ∧ P i) (h : forElements n f ctx = .ok ctx') :
    Claimed ((List.range n).flatMap spansAt)
        (fun a => (List.range n).flatMap fun i => indicesAt i a) ctx ctx' ∧
      ∀ i < n, P i := by
  induction n generalizing ctx' with
  | zero =>
    cases h
    exact ⟨Claimed.refl ctx, fun i hi => absurd hi (Nat.not_lt_zero i)⟩
  | succ n ih =>
    unfold forElements at h
    rw [range_succ, foldlM_append] at h
    obtain ⟨c, hc, h⟩ := exists_of_bind_eq_ok h
    obtain ⟨hcl, hP⟩ := ih hc
    obtain ⟨c', hc', h⟩ := exists_of_bind_eq_ok h
    cases h
    obtain ⟨hl, hp⟩ := hf n c _ hcl.stackDepth hc'
    refine ⟨?_, fun i hi => ?_⟩
    · simpa [range_succ] using hcl.trans hl
    · rcases Nat.lt_succ_iff_lt_or_eq.mp hi with hi | rfl
      · exact hP i hi
      · exact hp

theorem validateContainer_eq_ok {validate : ℕ → ValidationContext → Validated ValidationContext}
    (h : validateContainer m validate slot ctx = .ok ctx') :
    ∃ c, ctx.stackDepth + 1 ≤ kMaxRecursionDepth ∧ ValidateEncodedPointer m slot ∧
      validate (decodePointer m slot) { ctx with stackDepth := ctx.stackDepth + 1 } = .ok c ∧
      ctx' = { c with stackDepth := c.stackDepth - 1 } := by
  obtain ⟨_, hd, h⟩ := exists_of_bind_eq_ok h
  obtain ⟨_, hp, h⟩ := exists_of_bind_eq_ok h
  obtain ⟨c, hc, h⟩ := exists_of_bind_eq_ok h
  have hd := require_eq_ok hd
  exact ⟨c, not_lt.mp hd, require_eq_ok hp, hc, (Except.ok.inj h).symm⟩

theorem decodePointer_ge (h : ValidateEncodedPointer m slot) (hne : readUInt64 m slot ≠ 0) :
    slot ≤ decodePointer m slot := by
  obtain ⟨hs, hge⟩ := h
  rw [Nat.mod_eq_of_lt (by omega : readUInt64 m slot < 2 ^ 32)] at hge
  rw [decodePointer, if_neg hne]
  exact hge

theorem validateStructHeaderAndClaimMemory_eq_ok
    (h : validateStructHeaderAndClaimMemory m data ctx = .ok ctx') :
    IsAligned data ∧ ctx.claimMemory data (numBytes m data) = some ctx' := by
  obtain ⟨_, ha, h⟩ := exists_of_bind_eq_ok h
  obtain ⟨_, _, h⟩ := exists_of_bind_eq_ok h
  obtain ⟨_, _, h⟩ := exists_of_bind_eq_ok h
  exact ⟨require_eq_ok ha, orReport_eq_ok h⟩

end ChromiumBase.Bindings
