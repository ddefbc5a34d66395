import Mathlib.Data.Bool.Basic
import Mathlib.Data.List.Lattice

/-!
# How two address lists differ

The lists are compared endpoint by endpoint in two nested loops, which return early as soon as
one endpoint of the first list is in the second and another is not.  Whether the second list
has endpoints that the first has not is never looked at: where the sizes agree, it is taken to
follow, and with repeated endpoints it does not.
-/

namespace ChromiumBase.DnsUtil

inductive AddressListDeltaType where
  | identical
  | reordered
  | overlap
  | disjoint
deriving DecidableEq

/-- The flags of the two loops; `thisMatch` is reset for each endpoint of the first list. -/
structure Flags where
  pairwiseMismatch : Bool := false
  anyMatch : Bool := false
  anyMissing : Bool := false
  thisMatch : Bool := false

variable {α : Type*} [DecidableEq α]

/-- The inner loop for the endpoint `x` at `i`, over the second list with its indices; `none`
is an early `DELTA_OVERLAP`. -/
def compareEndpoint (x : α) (i : ℕ) : List (α × ℕ) → Flags → Option Flags
  | [], f => some f
  | (y, j) :: ys, f =>
    if x = y then
      if f.anyMissing then none
      else compareEndpoint x i ys { f with anyMatch := true, thisMatch := true }
    else compareEndpoint x i ys
      (if i = j then { f with pairwiseMismatch := true } else f)

def compareEndpoints (b : List α) : List (α × ℕ) → Flags → Option Flags
  | [], f => some f
  | (x, i) :: xs, f => do
    let f ← compareEndpoint x i b.zipIdx { f with thisMatch := false }
    if f.thisMatch then compareEndpoints b xs f
    else if f.anyMatch then none
    else compareEndpoints b xs { f with anyMissing := true }

def findAddressListDeltaType (a b : List α) : AddressListDeltaType :=
  match compareEndpoints b a.zipIdx {} with
  | none => .overlap
  | some f =>
    if a.length = b.length ∧ !f.pairwiseMismatch then .identical
    else if a.length = b.length ∧ !f.anyMissing then .reordered
    else if f.anyMatch then .overlap
    else .disjoint

theorem compareEndpoint_eq (x : α) (i : ℕ) (ys : List (α × ℕ)) (f : Flags) :
    compareEndpoint x i ys f =
      if f.anyMissing ∧ x ∈ ys.map Prod.fst then none
      else some { f with
        pairwiseMismatch := f.pairwiseMismatch || ys.any fun q => q.1 ≠ x ∧ q.2 = i
        anyMatch := f.anyMatch || x ∈ ys.map Prod.fst
        thisMatch := f.thisMatch || x ∈ ys.map Prod.fst } := by
  induction ys generalizing f with
  | nil => simp [compareEndpoint]
  | cons q ys ih =>
    simp only [compareEndpoint, ih]
    grind

/-- The loops return early exactly when there is both a match and a missing endpoint. -/
theorem compareEndpoints_spec (b : List α) (xs : List (α × ℕ)) {f : Flags}
    (hf : ¬(f.anyMatch ∧ f.anyMissing)) :
    match compareEndpoints b xs f with
    | none =>
      (f.anyMatch ∨ ∃ x ∈ xs.map Prod.fst, x ∈ b) ∧
      (f.anyMissing ∨ ∃ x ∈ xs.map Prod.fst, x ∉ b)
    | some g =>
      (g.pairwiseMismatch ↔
        f.pairwiseMismatch ∨ ∃ p ∈ xs, ∃ q ∈ b.zipIdx, q.1 ≠ p.1 ∧ q.2 = p.2) ∧
      (g.anyMatch ↔ f.anyMatch ∨ ∃ x ∈ xs.map Prod.fst, x ∈ b) ∧
      (g.anyMissing ↔ f.anyMissing ∨ ∃ x ∈ xs.map Prod.fst, x ∉ b) ∧
      ¬(g.anyMatch ∧ g.anyMissing) := by
  induction xs generalizing f with
  | nil => simpa [compareEndpoints] using hf
  | cons p xs ih =>
    -- what the inner loop leaves behind when it does not return
    let g : Flags := { f with
      pairwiseMismatch := f.pairwiseMismatch || b.zipIdx.any fun q => q.1 ≠ p.1 ∧ q.2 = p.2 }
    simp only [compareEndpoints, compareEndpoint_eq, List.zipIdx_map_fst, List.map_cons,
      List.exists_mem_cons_iff]
    by_cases hx : p.1 ∈ b
    · by_cases hm : f.anyMissing
      · simp [hx, hm]
      · simpa [g, hx, hm, or_assoc] using
          @ih { g with anyMatch := true, thisMatch := true } (by simpa [g] using hm)
    · by_cases hm : f.anyMatch
      · simp [hx, hm]
      · simpa [g, hx, hm, or_assoc] using
          @ih { g with anyMissing := true, thisMatch := false } (by simpa [g] using hm)

theorem pairwise_eq_iff {a b : List α} (h : a.length = b.length) :
    (¬∃ p ∈ a.zipIdx, ∃ q ∈ b.zipIdx, q.1 ≠ p.1 ∧ q.2 = p.2) ↔ a = b := by
  refine ⟨fun hp => List.ext_getElem h fun k ha hb => ?_, ?_⟩
  · by_contra hk
    exact hp ⟨(a[k], k), List.mk_mem_zipIdx_iff_getElem?.2 (by simp), (b[k], k),
      List.mk_mem_zipIdx_iff_getElem?.2 (by simp), Ne.symm hk, rfl⟩
  · rintro rfl ⟨⟨x, i⟩, hx, ⟨y, j⟩, hy, hne, rfl⟩
    rw [List.mk_mem_zipIdx_iff_getElem?] at hx hy
    grind

/-- What the loops compute: lists of one size are taken to be permutations of each other where
the second has all endpoints of the first. -/
theorem findAddressListDeltaType_spec (a b : List α) :
    (findAddressListDeltaType a b = .identical ↔ a = b) ∧
    (findAddressListDeltaType a b = .reordered ↔ a ≠ b ∧ a.length = b.length ∧ a ⊆ b) ∧
    (findAddressListDeltaType a b = .disjoint ↔ a ≠ b ∧ a.Disjoint b) := by
  have h := @compareEndpoints_spec _ _ b a.zipIdx {} (by simp)
  have hp := @pairwise_eq_iff _ _ a b
  have hsub : a ⊆ b ↔ ¬∃ x ∈ a, x ∉ b := by simp [List.subset_def]
  have hdisj : a.Disjoint b ↔ ¬∃ x ∈ a, x ∈ b := by simp [List.Disjoint]
  have hshare : a ≠ b → a.length = b.length → a ⊆ b → ¬a.Disjoint b := by
    cases a <;> cases b <;> simp [List.subset_def, List.Disjoint]; grind
  simp only [List.zipIdx_map_fst] at h
  unfold findAddressListDeltaType
  grind

/-- The answer `t` as it is meant; `DELTA_OVERLAP` is what remains. -/
def Classifies (a b : List α) (t : AddressListDeltaType) : Prop :=
  (t = .identical ↔ a = b) ∧ (t = .reordered ↔ a ≠ b ∧ a.Perm b) ∧
    (t = .disjoint ↔ a ≠ b ∧ a.Disjoint b)

/-- The answer is the one that is meant, and the same for the lists the other way round, exactly
if lists of one size one of which has all endpoints of the other are permutations. -/
theorem classifies_symmetric_iff (a b : List α) :
    Classifies a b (findAddressListDeltaType a b) ∧
        findAddressListDeltaType a b = findAddressListDeltaType b a ↔
      (a.length = b.length → a ⊆ b ∨ b ⊆ a → a.Perm b) := by
  rcases eq_or_ne a b with rfl | hne
  · simp [Classifies, (findAddressListDeltaType_spec a a).1.2]
  · have hperm : a.Perm b → a.length = b.length ∧ a ⊆ b ∧ b ⊆ a := fun h =>
      ⟨h.length_eq, h.subset, h.symm.subset⟩
    have hab := findAddressListDeltaType_spec a b
    have hba := findAddressListDeltaType_spec b a
    unfold Classifies
    generalize findAddressListDeltaType a b = s at *
    generalize findAddressListDeltaType b a = t at *
    rw [List.disjoint_comm, eq_comm (a := b.length)] at hba
    cases s <;> cases t <;> grind

/-- With a repeated endpoint, a list is reported as reordered that is not. -/
theorem repeated_endpoint_reordered :
    findAddressListDeltaType [1, 1] [1, 2] = .reordered ∧ ¬[1, 1].Perm [1, 2] ∧
      findAddressListDeltaType [1, 2] [1, 1] = .overlap := by
  decide

end ChromiumBase.DnsUtil
