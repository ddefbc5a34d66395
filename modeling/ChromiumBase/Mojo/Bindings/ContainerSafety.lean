import ChromiumBase.Mojo.Bindings.Claims

/-!
# Safety of accepted containers

A container that `Validate` accepts leads only to aligned objects inside the buffer that do not
meet each other, to distinct handle indices in range, to maps with as many keys as values, and
no deeper than the limit.  Whether every element lies in its own array depends on the arrays of
bools: their storage size is computed in 32 bits, and for the seven largest element counts the
sum wraps to the size of an empty array.
-/

open Memory Outcome List

namespace ChromiumBase.Bindings

variable {m : Mem} {ctx ctx' : ValidationContext} {data n elements : ℕ}

namespace Visit

/-- What `Validate` has checked of the object on its own. -/
def HeaderChecked (m : Mem) (v : Visit) : Prop :=
  match v.type with
  | .array (.mk element expectedNumElements) =>
    numElements m v.data ≤ element.kMaxNumElements ∧
      element.getStorageSize (numElements m v.data) ≤ numBytes m v.data ∧
      (expectedNumElements = 0 ∨ numElements m v.data = expectedNumElements)
  | .map _ _ =>
    numBytes m v.data = 24 ∧ decodePointer m (v.data + 8) ≠ 0 ∧
      decodePointer m (v.data + 16) ≠ 0 ∧
      numElements m (decodePointer m (v.data + 8)) = numElements m (decodePointer m (v.data + 16))

structure Checked (m : Mem) (v : Visit) : Prop where
  header : v.data ≠ 0 → IsAligned v.data ∧ v.HeaderChecked m
  depth : v.depth ≤ kMaxRecursionDepth

end Visit

def spansOf (m : Mem) (vs : List Visit) : List Span := vs.flatMap (Visit.spans m)

def indicesOf (m : Mem) (vs : List Visit) (associated : Bool) : List ℕ :=
  vs.flatMap (Visit.handleIndices m associated)

/-- The visits were accepted between the two contexts; `own` are the indices of the array whose
elements are visited. -/
structure Accepted (m : Mem) (vs : List Visit) (own : Bool → List ℕ)
    (ctx ctx' : ValidationContext) : Prop where
  claimed : Claimed (spansOf m vs) (fun a => own a ++ indicesOf m vs a) ctx ctx'
  checked : ∀ v ∈ vs, v.Checked m

def noIndices : Bool → List ℕ := fun _ => []

theorem Accepted.refl (m : Mem) (ctx : ValidationContext) : Accepted m [] noIndices ctx ctx where
  claimed := Claimed.refl ctx
  checked _ hv := by cases hv

variable {vs : List Visit} {v : Visit} {c : ValidationContext} {l : List ℕ}

theorem validateContainer_accepted {slot : ℕ}
    {validate : ℕ → ValidationContext → Validated ValidationContext}
    (hv : ∀ c c', c.stackDepth = ctx.stackDepth + 1 → c.stackDepth ≤ kMaxRecursionDepth →
      validate (decodePointer m slot) c = .ok c' → Accepted m vs noIndices c c')
    (h : validateContainer m validate slot ctx = .ok ctx') : Accepted m vs noIndices ctx ctx' := by
  obtain ⟨c, hd, -, hc, rfl⟩ := validateContainer_eq_ok h
  obtain ⟨hcl, hch⟩ := hv _ c rfl hd hc
  exact ⟨hcl.of_scoped, hch⟩

theorem validateHandleElement_claimed {kind : HandleKind} {elementIsNullable : Bool} {address : ℕ}
    (h : validateHandleElement m kind elementIsNullable address ctx = .ok ctx') :
    Claimed [] (fun a => handleIndex kind a (readUInt32 m address)) ctx ctx' := by
  obtain ⟨_, _, h⟩ := exists_of_bind_eq_ok h
  exact Claimed.of_claim (orReport_eq_ok h)

theorem Accepted.cons {own : Bool → List ℕ} (hd : v.data ≠ 0)
    (hown : ∀ a, v.handleIndices m a = own a)
    (hc : ctx.claimMemory v.data (numBytes m v.data) = some c) (hv : v.Checked m)
    (h : Accepted m vs own c ctx') : Accepted m (v :: vs) noIndices ctx ctx' where
  claimed := by
    have hse := Claimed.of_claimMemory (numBytes_lt m v.data) hc
    have hs : v.spans m = [⟨v.data, numBytes m v.data⟩] := if_neg hd
    simpa [spansOf, indicesOf, noIndices, hs, hown] using hse.trans h.claimed
  checked := forall_mem_cons.mpr ⟨hv, h.checked⟩

theorem Accepted.append {ws : List Visit} (h₁ : Accepted m vs noIndices ctx c)
    (h₂ : Accepted m ws noIndices c ctx') : Accepted m (vs ++ ws) noIndices ctx ctx' where
  claimed := by
    simpa [spansOf, indicesOf, noIndices] using h₁.claimed.trans h₂.claimed
  checked v hv := (mem_append.mp hv).elim (h₁.checked v) (h₂.checked v)

theorem flatMap_nil {α β : Type} (l : List α) : l.flatMap (fun _ => ([] : List β)) = [] :=
  flatMap_eq_nil_iff.mpr fun _ _ => rfl

theorem accepted_null {type : ContainerType} (hd : ctx.stackDepth ≤ kMaxRecursionDepth) :
    Accepted m [⟨type, 0, ctx.stackDepth⟩] noIndices ctx ctx where
  claimed := by
    have hi : ∀ a, Visit.handleIndices m a ⟨type, 0, ctx.stackDepth⟩ = [] := by
      intro a
      cases type with
      | array type => cases type; rfl
      | map keys values => rfl
    simpa [spansOf, indicesOf, noIndices, Visit.spans, hi] using Claimed.refl ctx
  checked := by
    intro v hv
    obtain rfl := mem_singleton.mp hv
    exact ⟨fun h => absurd rfl h, hd⟩

mutual

/-- The elements of an array that is accepted, with the containers they point to. -/
theorem ElementType.validateElements_accepted (t : ElementType) {n elements : ℕ}
    {ctx ctx' : ValidationContext} (h : t.validateElements m n elements ctx = .ok ctx') :
    Accepted m (t.visits m n elements (ctx.stackDepth + 1))
      (fun a => t.handleIndices m a n elements) ctx ctx' := by
  match t with
  | .bool =>
    cases h
    exact Accepted.refl m ctx
  | .integer _ none =>
    cases h
    exact Accepted.refl m ctx
  | .integer width (some validateEnumFunc) =>
    obtain ⟨hc, -⟩ := forElements_claimed (fun _ => []) (fun _ _ => [])
      (fun _ => True) (fun i c c' _ hr => by
        obtain ⟨_, _, hr⟩ := exists_of_bind_eq_ok hr
        cases hr
        exact ⟨Claimed.refl c, trivial⟩) h
    rw [flatMap_nil, flatMap_nil] at hc
    exact ⟨hc, fun v hv => by cases hv⟩
  | .handle kind elementIsNullable =>
    obtain ⟨hc, -⟩ := forElements_claimed _ _ (fun _ => True)
      (fun i c c' _ hr => ⟨validateHandleElement_claimed hr, trivial⟩) h
    rw [flatMap_nil] at hc
    refine ⟨?_, fun v hv => by cases hv⟩
    simpa [spansOf, indicesOf, ElementType.visits, ElementType.handleIndices] using hc
  | .pointer target elementIsNullable =>
    -- every round is one `ValidateContainer`, at the depth of the array plus one
    let visitsAt := fun i =>
      target.visits m (decodePointer m (elements + 8 * i)) (ctx.stackDepth + 1)
    obtain ⟨hc, hch⟩ := forElements_claimed
      (fun i => spansOf m (visitsAt i)) (fun i => indicesOf m (visitsAt i))
      (fun i => ∀ v ∈ visitsAt i, v.Checked m) (fun i c c' hd hr => by
        obtain ⟨_, _, hr⟩ := exists_of_bind_eq_ok hr
        have ha : Accepted m (visitsAt i) noIndices c c' :=
          validateContainer_accepted (fun e e' he hed hva => by
            have := ContainerType.validate_accepted target hed hva
            rw [he, hd] at this
            exact this) hr
        exact ⟨ha.claimed, ha.checked⟩) h
    refine ⟨?_, fun v hv => ?_⟩
    · simpa [spansOf, indicesOf, ElementType.visits, ElementType.handleIndices, visitsAt,
        flatMap_assoc] using hc
    · rw [ElementType.visits, mem_flatMap] at hv
      obtain ⟨i, hi, hv⟩ := hv
      exact hch i (mem_range.mp hi) v hv

/-- An array that is accepted, header and elements. -/
theorem ArrayType.validate_accepted (t : ArrayType) {data : ℕ} {ctx ctx' : ValidationContext}
    (hd : ctx.stackDepth ≤ kMaxRecursionDepth) (h : t.validate m data ctx = .ok ctx') :
    Accepted m (t.visits m data ctx.stackDepth) noIndices ctx ctx' := by
  match t with
  | .mk element expectedNumElements =>
    rw [ArrayType.validate] at h
    rw [ArrayType.visits]
    by_cases hda : data = 0
    · subst hda
      cases h
      exact accepted_null hd
    · rw [if_neg hda] at h ⊢
      obtain ⟨_, ha, h⟩ := exists_of_bind_eq_ok h
      obtain ⟨_, _, h⟩ := exists_of_bind_eq_ok h
      obtain ⟨_, hh, h⟩ := exists_of_bind_eq_ok h
      obtain ⟨_, hex, h⟩ := exists_of_bind_eq_ok h
      obtain ⟨c, hc, h⟩ := exists_of_bind_eq_ok h
      have hc := orReport_eq_ok hc
      have hh := require_eq_ok hh
      have hde : c.stackDepth = ctx.stackDepth :=
        (Claimed.of_claimMemory (numBytes_lt m data) hc).stackDepth
      have he := ElementType.validateElements_accepted element h
      rw [hde] at he
      exact Accepted.cons hda (fun a => if_neg hda) hc
        ⟨fun _ => ⟨require_eq_ok ha, hh.1, hh.2, require_eq_ok hex⟩, hd⟩
        he

/-- A container that is accepted, with all that it points to. -/
theorem ContainerType.validate_accepted (t : ContainerType) {data : ℕ}
    {ctx ctx' : ValidationContext} (hd : ctx.stackDepth ≤ kMaxRecursionDepth)
    (h : t.validate m data ctx = .ok ctx') :
    Accepted m (t.visits m data ctx.stackDepth) noIndices ctx ctx' := by
  match t with
  | .array type => exact ArrayType.validate_accepted type hd h
  | .map keys values =>
    rw [ContainerType.validate] at h
    rw [ContainerType.visits]
    by_cases hda : data = 0
    · subst hda
      cases h
      exact accepted_null hd
    · rw [if_neg hda] at h ⊢
      obtain ⟨c₀, hc, h⟩ := exists_of_bind_eq_ok h
      obtain ⟨_, hh, h⟩ := exists_of_bind_eq_ok h
      obtain ⟨_, hknn, h⟩ := exists_of_bind_eq_ok h
      obtain ⟨c₁, hk, h⟩ := exists_of_bind_eq_ok h
      obtain ⟨_, hvnn, h⟩ := exists_of_bind_eq_ok h
      obtain ⟨c₂, hval, h⟩ := exists_of_bind_eq_ok h
      obtain ⟨_, hs, h⟩ := exists_of_bind_eq_ok h
      cases h
      obtain ⟨ha, hc⟩ := validateStructHeaderAndClaimMemory_eq_ok hc
      have hkp := (validateContainer_eq_ok hk).choose_spec.2.1
      have hvp := (validateContainer_eq_ok hval).choose_spec.2.1
      have hkg := decodePointer_ge hkp (require_eq_ok hknn)
      have hvg := decodePointer_ge hvp (require_eq_ok hvnn)
      have hkn : decodePointer m (data + 8) ≠ 0 := by omega
      have hvn : decodePointer m (data + 16) ≠ 0 := by omega
      have hde₀ : c₀.stackDepth = ctx.stackDepth :=
        (Claimed.of_claimMemory (numBytes_lt m data) hc).stackDepth
      have hka : Accepted m
          (keys.visits m (decodePointer m (data + 8)) (ctx.stackDepth + 1)) noIndices c₀ c₁ :=
        validateContainer_accepted (fun e e' he hed hv => by
          have := ArrayType.validate_accepted keys hed hv
          rw [he, hde₀] at this
          exact this) hk
      have hde₁ : c₁.stackDepth = ctx.stackDepth :=
        hka.claimed.stackDepth.trans hde₀
      have hva : Accepted m
          (values.visits m (decodePointer m (data + 16)) (ctx.stackDepth + 1)) noIndices c₁
            ctx' :=
        validateContainer_accepted (fun e e' he hed hv => by
          have := ArrayType.validate_accepted values hed hv
          rw [he, hde₁] at this
          exact this) hval
      exact Accepted.cons hda (fun _ => rfl) hc
        ⟨fun _ => ⟨ha, (require_eq_ok hh).1, hkn, hvn, require_eq_ok hs⟩, hd⟩ (hka.append hva)

end

namespace Visit

def ElementsInside (m : Mem) (v : Visit) : Prop :=
  match v.type with
  | .array (.mk element _) => ∀ i < numElements m v.data,
    v.data ≤ (element.location v.data i).start ∧
      (element.location v.data i).stop ≤ v.data + numBytes m v.data
  | .map _ _ => True

def SameLength (m : Mem) (v : Visit) : Prop :=
  match v.type with
  | .array _ => True
  | .map _ _ => numElements m (decodePointer m (v.data + 8)) =
    numElements m (decodePointer m (v.data + 16))

/-- An array of bools whose storage size was computed without wrapping, or that takes the bytes
its elements need all the same. -/
def BoolsFit (m : Mem) (v : Visit) : Prop :=
  match v.type with
  | .array (.mk .bool _) => numElements m v.data ≤ 2 ^ 32 - 8 ∨ 2 ^ 29 + 8 ≤ numBytes m v.data
  | _ => True

end Visit

def objects (vs : List Visit) : List Visit := vs.filter (·.data ≠ 0)

structure Safe (m : Mem) (base size numHandles numAssociatedEndpointHandles : ℕ)
    (vs : List Visit) : Prop where
  inside : ∀ v ∈ objects vs, base ≤ v.data ∧ v.data + numBytes m v.data ≤ base + size
  aligned : ∀ v ∈ objects vs, IsAligned v.data
  disjoint : (objects vs).Pairwise fun v w =>
    v.data + numBytes m v.data ≤ w.data ∨ w.data + numBytes m w.data ≤ v.data
  elements : ∀ v ∈ objects vs, v.ElementsInside m
  handles : (indicesOf m vs false).Nodup ∧ ∀ index ∈ indicesOf m vs false, index < numHandles
  associatedEndpointHandles : (indicesOf m vs true).Nodup ∧
    ∀ index ∈ indicesOf m vs true, index < numAssociatedEndpointHandles
  maps : ∀ v ∈ objects vs, v.SameLength m
  depth : ∀ v ∈ vs, v.depth ≤ kMaxRecursionDepth

theorem mem_objects : v ∈ objects vs ↔ v ∈ vs ∧ v.data ≠ 0 := by
  simp [objects]

theorem spansOf_eq_map (m : Mem) (vs : List Visit) :
    spansOf m vs = (objects vs).map fun v => ⟨v.data, numBytes m v.data⟩ := by
  induction vs with
  | nil => rfl
  | cons v vs ih =>
    unfold spansOf objects at ih ⊢
    rw [flatMap_cons, ih, filter_cons]
    by_cases hd : v.data = 0 <;> simp [Visit.spans, hd]

theorem ValidationContext.new_bounded (data dataNumBytes h a : ℕ) :
    (new data dataNumBytes h a).Bounded where
  data := by
    unfold new
    dsimp only
    split <;> omega
  index a := by cases a <;> exact Nat.zero_le _

theorem ValidationContext.dataEnd_new_le (data dataNumBytes h a : ℕ) :
    (new data dataNumBytes h a).dataEnd ≤ data + dataNumBytes := by
  unfold new
  dsimp only
  split <;> omega

theorem ValidationContext.indexEnd_new_le (data dataNumBytes h a : ℕ) (associated : Bool) :
    (new data dataNumBytes h a).indexEnd associated ≤ if associated then a else h := by
  cases associated <;> simp only [new, indexEnd] <;> split <;> simp <;> omega

namespace ElementType

/-- Every element but a bool lies in the storage that was checked. -/
theorem location_inside {t : ElementType} {i bytes : ℕ} (ht : t ≠ .bool)
    (hmax : n ≤ t.kMaxNumElements) (hs : t.getStorageSize n ≤ bytes) (hi : i < n) :
    data ≤ (t.location data i).start ∧ (t.location data i).stop ≤ data + bytes := by
  have hpos : 0 < t.storageBytes := by
    cases t with
    | bool => exact absurd rfl ht
    | integer width _ =>
      change 0 < width.bytes
      cases width <;> decide
    | handle kind _ =>
      change 0 < kind.bytes
      cases kind <;> decide
    | pointer _ _ => exact Nat.succ_pos 7
  have hmax' : n ≤ (2 ^ 32 - 1 - kHeaderSize) / t.storageBytes := by
    cases t <;> first | exact absurd rfl ht | exact hmax
  have hs' : (kHeaderSize + t.storageBytes * n) % 2 ^ 32 ≤ bytes := by
    cases t <;> first | exact absurd rfl ht | exact hs
  have hloc : t.location data i =
      ⟨data + kHeaderSize + t.storageBytes * i, t.storageBytes⟩ := by
    cases t <;> first | exact absurd rfl ht | rfl
  have hmul : t.storageBytes * n ≤ 2 ^ 32 - 1 - kHeaderSize := by
    rw [Nat.mul_comm]
    exact (Nat.le_div_iff_mul_le hpos).mp hmax'
  have hst : t.storageBytes * i + t.storageBytes ≤ t.storageBytes * n := by
    exact Nat.mul_le_mul_left _ hi
  rw [hloc]
  unfold Span.stop
  dsimp only
  omega

/-- The bits of an array of bools lie in its storage unless the number of bytes has wrapped. -/
theorem bool_inside_iff {bytes : ℕ} (hn : n < 2 ^ 32) (hsi : bool.getStorageSize n ≤ bytes) :
    (∀ i < n, data ≤ (bool.location data i).start ∧ (bool.location data i).stop ≤ data + bytes) ↔
      n ≤ 2 ^ 32 - 8 ∨ 2 ^ 29 + 8 ≤ bytes := by
  have hh : kHeaderSize = 8 := rfl
  have hst : (kHeaderSize + (n + 7) % 2 ^ 32 / 8) % 2 ^ 32 ≤ bytes := hsi
  unfold location Span.stop
  dsimp only
  constructor
  · intro h
    by_cases hs : n ≤ 2 ^ 32 - 8
    · exact .inl hs
    · obtain ⟨-, hl⟩ := h (n - 1) (by omega)
      exact .inr (by omega)
  · intro h i hi
    omega

end ElementType

theorem Visit.elementsInside_iff (hv : v.HeaderChecked m) : v.ElementsInside m ↔ v.BoolsFit m := by
  rcases v with ⟨type, data, depth⟩
  cases type with
  | map keys values => exact Iff.rfl
  | array type =>
    cases type with
    | mk element expectedNumElements =>
      obtain ⟨hmax, hs, -⟩ := hv
      cases element with
      | bool => exact ElementType.bool_inside_iff (readUInt32_lt m _) hs
      | integer | handle | pointer =>
        exact ⟨fun _ => trivial, fun _ i hi =>
          ElementType.location_inside (by simp) hmax hs hi⟩

theorem Visit.sameLength (hv : v.HeaderChecked m) : v.SameLength m := by
  rcases v with ⟨type, data, depth⟩
  cases type with
  | array type => trivial
  | map keys values => exact hv.2.2.2

theorem nodup_of_inOrder {lo hi : ℕ} (h : InOrder lo (l.map indexSpan) hi) : l.Nodup := by
  have hp := pairwise_map.mp h.pairwise
  refine hp.imp fun {i j} hij => ?_
  unfold Span.stop indexSpan at hij
  dsimp only at hij
  omega

theorem lt_of_inOrder {lo hi index : ℕ} (h : InOrder lo (l.map indexSpan) hi) (hin : index ∈ l) :
    index < hi := by
  have hs := (h.bounds (mem_map.mpr ⟨index, hin, rfl⟩)).2
  exact hs

section Received

variable {base size numHandles numAssociatedEndpointHandles : ℕ}

/-- Accepted from a fresh context, a container is safe up to its arrays of bools. -/
theorem Accepted.safe_iff
    (h : Accepted m vs noIndices (.new base size numHandles numAssociatedEndpointHandles) ctx') :
    Safe m base size numHandles numAssociatedEndpointHandles vs ↔
      ∀ v ∈ objects vs, v.BoolsFit m := by
  have hb := h.claimed.bounded (ValidationContext.new_bounded _ _ _ _)
  have hc : ∀ v ∈ objects vs, IsAligned v.data ∧ v.HeaderChecked m := fun v hv =>
    (h.checked v (mem_objects.mp hv).1).header (mem_objects.mp hv).2
  have hm := h.claimed.memory
  rw [spansOf_eq_map] at hm
  have hend : ctx'.dataBegin ≤ base + size := by
    have hle := ValidationContext.dataEnd_new_le base size numHandles
      numAssociatedEndpointHandles
    have hd := hb.data
    rw [h.claimed.dataEnd] at hd
    omega
  have hi : ∀ a, (indicesOf m vs a).Nodup ∧ ∀ index ∈ indicesOf m vs a,
      index < if a then numAssociatedEndpointHandles else numHandles := by
    intro a
    have ho : InOrder _ ((indicesOf m vs a).map indexSpan) _ := h.claimed.index a
    refine ⟨nodup_of_inOrder ho, fun index hmem => ?_⟩
    have hlt := lt_of_inOrder ho hmem
    have hle := hb.index a
    rw [h.claimed.indexEnd a] at hle
    have hnew := ValidationContext.indexEnd_new_le base size numHandles
      numAssociatedEndpointHandles a
    exact lt_of_lt_of_le (lt_of_lt_of_le hlt hle) hnew
  constructor
  · intro hsa v hv
    exact (Visit.elementsInside_iff (hc v hv).2).mp (hsa.elements v hv)
  · intro hbo
    exact
      { inside := fun v hv => by
          have hs := hm.bounds (mem_map.mpr ⟨v, hv, rfl⟩)
          exact ⟨hs.1, hs.2.trans hend⟩
        aligned := fun v hv => (hc v hv).1
        disjoint := (pairwise_map.mp hm.pairwise).imp fun h => .inl h
        elements := fun v hv => (Visit.elementsInside_iff (hc v hv).2).mpr (hbo v hv)
        handles := hi false
        associatedEndpointHandles := hi true
        maps := fun v hv => Visit.sameLength (hc v hv).2
        depth := fun v hv => (h.checked v hv).depth }

/-- A container accepted in a fresh context is safe exactly if no array of bools in it has an
element count near the top of its range in too few bytes. -/
theorem validate_safe_iff (t : ContainerType)
    (h : t.validate m data (.new base size numHandles numAssociatedEndpointHandles) = .ok ctx') :
    Safe m base size numHandles numAssociatedEndpointHandles (t.visits m data 0) ↔
      ∀ v ∈ objects (t.visits m data 0), v.BoolsFit m :=
  have hd : (0 : ℤ) ≤ kMaxRecursionDepth := by decide
  Accepted.safe_iff (t.validate_accepted hd h)

end Received

def nestedArray : Mem :=
  ofList [0, 0, 0, 0, 0, 0, 0, 0, 16, 0, 0, 0, 1, 0, 0, 0, 8, 0, 0, 0, 0, 0, 0, 0,
    9, 0, 0, 0, 3, 0, 0, 0, 5]

def nestedArrayType : ContainerType :=
  .array (.mk (.pointer (.array (.mk .bool 0)) false) 0)

theorem validate_safe_nestedArray :
    Safe nestedArray 8 25 0 0 (nestedArrayType.visits nestedArray 8 0) :=
  have ha : nestedArrayType.validate nestedArray 8 (.new 8 25 0 0) =
      .ok ⟨33, 33, 0, 0, 0, 0, 0⟩ := rfl
  (validate_safe_iff nestedArrayType ha).mpr (by
      intro v hv
      have hvi : nestedArrayType.visits nestedArray 8 0 =
        [⟨nestedArrayType, 8, 0⟩, ⟨.array (.mk .bool 0), 24, 1⟩] := rfl
      rw [mem_objects, hvi] at hv
      simp only [mem_cons, not_mem_nil, or_false] at hv
      rcases hv.1 with rfl | rfl
      · trivial
      · exact .inl (by decide))

/-- Eight bytes that claim to hold 2³² - 1 bools. -/
def wrappedBools : Mem :=
  ofList [0, 0, 0, 0, 0, 0, 0, 0, 8, 0, 0, 0, 255, 255, 255, 255]

theorem validate_wrappedBools :
    (ContainerType.array (.mk .bool 0)).validate wrappedBools 8 (.new 8 8 0 0) =
        .ok ⟨16, 16, 0, 0, 0, 0, 0⟩ ∧
      ¬ Safe wrappedBools 8 8 0 0
        ((ContainerType.array (.mk .bool 0)).visits wrappedBools 8 0) := by
  refine ⟨rfl, fun hs => ?_⟩
  have hmem : (⟨.array (.mk .bool 0), 8, 0⟩ : Visit) ∈
      objects ((ContainerType.array (.mk .bool 0)).visits wrappedBools 8 0) :=
    mem_objects.mpr ⟨mem_cons_self, by decide⟩
  have hf := hs.elements _ hmem 0 (by decide)
  exact absurd hf.2 (by decide)

end ChromiumBase.Bindings
