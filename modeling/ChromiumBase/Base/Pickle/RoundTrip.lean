import ChromiumBase.Base.Pickle.Read

/-!
# Reading back what was written

The readers invert `Pickle.encode`, one item at a time, over the memory that
holds the rest of the payload. With `Pickle.writeAll_extends` this gives the
round trip through a whole pickle, both for an iterator over the pickle itself
and for one over a copy of its bytes.
-/

open Memory Traced LittleEndian List

namespace ChromiumBase.PickleIterator

open Pickle

/-- The bytes `bs` are what the iterator has left to read. -/
def Holds (m : Mem) (it : PickleIterator) (bs : List UInt8) : Prop :=
  ∃ base, it.payload = some base ∧ HoldsAt m (base + it.readIndex) bs ∧
    bs.length = it.endIndex - it.readIndex

variable {it : PickleIterator} {m : Mem} {α β : Type} {item : Item} {p p₀ : Pickle}
  {dataLen headerSize n : ℕ} {ops : List WriteOp} {r : Read α} {value : List UInt16} {a : α}
  {kind : Kind} {b : β} (bs : List UInt8)

/-- An iterator steps over padded bytes to those behind them. -/
theorem Holds.advance {rest : List UInt8} (hlen : bs.length < 2 ^ 32)
    (h : Holds m it (padded bs ++ rest)) : ∃ base, it.payload = some base ∧
      slice m (base + it.readIndex) bs.length = bs ∧
      bs.length ≤ it.endIndex - it.readIndex ∧
      Holds m (it.advance bs.length) rest := by
  obtain ⟨base, hba, hb, hl⟩ := h
  have hro := (align_bounds (n := bs.length) (a := 4) (by decide) (by omega)).1
  have hp := length_padded hro
  rw [length_append, hp] at hl
  refine ⟨base, hba, hb.left.left, by omega, base, ?_⟩
  unfold PickleIterator.advance
  rw [dif_neg (by omega)]
  refine ⟨hba, ?_, by simp only; omega⟩
  have hr := hb.right
  rwa [hp, Nat.add_assoc] at hr

/-- A reader returns `a` from the bytes `bs` and steps over them. -/
def Decodes {α : Type} (m : Mem) (r : Read α) (bs : List UInt8) (a : α) : Prop :=
  ∀ it rest, Holds m it (bs ++ rest) →
    (r it).result.1 = some a ∧ Holds m (r it).result.2 rest

theorem Decodes.map {bs : List UInt8} (f : α → β) (h : Decodes m r bs a) :
    Decodes m (r.map f) bs (f a) := by
  intro it rest hit
  obtain ⟨hs, hr⟩ := h it rest hit
  exact ⟨by simp [Read.map, Read.filterMap, hs], hr⟩

theorem Decodes.bind {f : α → Read β} {bs cs : List UInt8} (h : Decodes m r bs a)
    (hf : Decodes m (f a) cs b) : Decodes m (r.bind f) (bs ++ cs) b := by
  intro it rest hit
  rw [append_assoc] at hit
  obtain ⟨hs, hr⟩ := h it _ hit
  simp only [Read.bind, result_bind, hs]
  exact hf _ rest hr

theorem decodes_readBuiltinType (m : Mem) {size value : ℕ} (hs : size < 2 ^ 32)
    (hv : value < 256 ^ size) :
    Decodes m (readBuiltinType m size) (encodePOD size value) value := by
  intro it rest hit
  have hlen : (toBytes size value).length = size :=
    length_toBytes _ _
  obtain ⟨base, hba, hb, hle, hr⟩ :=
    Holds.advance (toBytes size value) (by omega) hit
  rw [hlen] at hb hle hr
  rw [readBuiltinType_of_le m hba hle, hb, ofBytes_toBytes hv]
  exact ⟨rfl, hr⟩

/-- A fixed-width type: the conversion `f` must undo the one the writer made. -/
theorem decodes_pod (m : Mem) {size value : ℕ} (f : ℕ → α) (hv : value < 256 ^ size)
    (hf : f value = a := by simp) (hs : size < 2 ^ 32 := by decide) :
    Decodes m ((readBuiltinType m size).map f) (encodePOD size value) a := by
  subst hf
  exact (decodes_readBuiltinType m hs hv).map f

theorem decodes_readInt (m : Mem) (value : Int32) :
    Decodes m (readInt m) (encodePOD 4 value.toUInt32.toNat) value :=
  decodes_pod m _ value.toUInt32.toNat_lt

theorem decodes_readInt_ofNat (m : Mem) (h : n < 2 ^ 31) :
    Decodes m (readInt m) (encodePOD 4 n) (Int32.ofNat n) := by
  have hw : (Int32.ofNat n).toUInt32.toNat = n := by
    change n % 2 ^ 32 = n
    omega
  have hr := decodes_readInt m (Int32.ofNat n)
  rwa [hw] at hr

theorem toInt_ofNat_toNat (h : n < 2 ^ 31) : (Int32.ofNat n).toInt.toNat = n := by
  rw [Int32.toInt_ofNat_of_lt h]
  rfl

theorem decodes_readBytes (m : Mem) (block : Block) :
    Decodes m (readBytes m (Int32.ofNat block.1.length)) (padded block.1) block := by
  intro it rest hit
  have hlen := block.2
  obtain ⟨base, hba, hby, hle, hr⟩ := Holds.advance _ (by omega) hit
  have hnat := toInt_ofNat_toNat hlen
  have hpos : ¬ (Int32.ofNat block.1.length).toInt < 0 := by
    rw [Int32.toInt_ofNat_of_lt hlen]
    omega
  rw [readBytes, getReadPointerAndAdvanceBytes_eq, if_neg hpos, hnat,
    getReadPointerAndAdvance, if_neg (by omega), hba]
  refine ⟨?_, hr⟩
  have hb : (loadBlock m (base + it.readIndex)
      (Int32.ofNat block.1.length)).result = block := by
    apply Subtype.ext
    change slice m _ (Int32.ofNat block.1.length).toInt.toNat = block.1
    rw [hnat, hby]
  exact congrArg some hb

theorem string16OfBytes_string16Bytes (value : List UInt16) :
    string16OfBytes (string16Bytes value) = value := by
  induction value with
  | nil => rfl
  | cons c cs ih =>
    have hc : ofBytes (toBytes 2 c.toNat) = c.toNat :=
      ofBytes_toBytes c.toNat_lt
    have hco : string16OfBytes (string16Bytes (c :: cs)) =
        UInt16.ofNat (ofBytes (toBytes 2 c.toNat)) ::
          string16OfBytes (string16Bytes cs) := rfl
    rw [hco, hc, ih, UInt16.ofNat_toNat]

theorem decodes_readElements16 (m : Mem) (h : 2 * value.length < 2 ^ 31) :
    Decodes m (readElements16 m (Int32.ofNat value.length))
      (padded (string16Bytes value)) value := by
  intro it rest hit
  have hlen := length_string16Bytes value
  obtain ⟨base, hba, hb, hle, hr⟩ := Holds.advance _ (by omega) hit
  rw [hlen] at hb hle hr
  have hnat := toInt_ofNat_toNat (n := value.length) (by omega)
  have hpos : ¬ ((Int32.ofNat value.length).toInt < 0 ∨
      2 ^ 30 ≤ (Int32.ofNat value.length).toInt) := by
    rw [Int32.toInt_ofNat_of_lt (by omega)]
    omega
  rw [readElements16, getReadPointerAndAdvanceElements_two, if_neg hpos, hnat,
    getReadPointerAndAdvance, if_neg (by omega), hba]
  refine ⟨?_, hr⟩
  have hc : string16OfBytes (slice m (base + it.readIndex) (2 * value.length)) =
      value := by
    rw [hb, string16OfBytes_string16Bytes]
  exact congrArg some hc

/-- Every value that fits is read back from its bytes. -/
theorem decodes_read (m : Mem) (hf : item.Fits) :
    Decodes m (read m (kindOf item)) (encode item) item := by
  cases item with
  | bool value =>
    have hone : encode (.bool value) = encodePOD 1 value.toNat := by
      cases value <;> rfl
    rw [hone]
    exact decodes_pod m _ (by cases value <;> decide)
      (by cases value <;> rfl)
  | int value => exact (decodes_readInt m value).map _
  | long value | int64 value => exact decodes_pod m _ value.toUInt64.toNat_lt
  | uint16 value | uint32 value | uint64 value | float value | double value =>
    exact decodes_pod m _ value.toNat_lt
  | string value =>
    have hb := (decodes_readInt_ofNat m hf).bind
      (decodes_readBytes m ⟨value, hf⟩)
    exact (hb.map Subtype.val).map _
  | string16 value =>
    have hf' : 2 * value.length < 2 ^ 31 := hf
    exact ((decodes_readInt_ofNat m (by omega)).bind
      (decodes_readElements16 m hf')).map _
  | data value =>
    exact ((decodes_readInt_ofNat m value.2).bind (decodes_readBytes m value)).map _
  | bytes value => exact (decodes_readBytes m value).map _

theorem readAll_encode {items : List Item} (hf : ∀ item ∈ items, item.Fits)
    (h : Holds m it (items.flatMap encode)) :
    (readAll m (items.map kindOf) it).result.1 = items.map some := by
  induction items generalizing it with
  | nil => rfl
  | cons item items ih =>
    obtain ⟨hs, hr⟩ := decodes_read m (hf item (by simp)) it _ h
    have ht := ih (fun i hi => hf i (by simp [hi])) hr
    simp [readAll, hs, ht]

theorem two_mul_length_string16OfBytes : 2 * (string16OfBytes bs).length ≤ bs.length := by
  fun_induction string16OfBytes bs with
  | case1 low high bs ih =>
    simp only [length_cons]
    omega
  | case2 bs _ => simp

theorem readElements16_length {length : Int32}
    (h : (readElements16 m length it).result.1 = some value) : 2 * value.length < 2 ^ 31 := by
  by_cases hbad : length.toInt < 0 ∨ 2 ^ 30 ≤ length.toInt
  · rw [readElements16_of_refused m it hbad] at h
    cases h
  · unfold readElements16 at h
    split at h
    · cases h
    · cases h
      have hle := two_mul_length_string16OfBytes (slice m ‹ℕ› (2 * length.toInt.toNat))
      rw [length_slice] at hle
      simp only [load_result]
      omega

theorem map_eq_some {f : α → β} (h : ((r.map f) it).result.1 = some b) :
    ∃ a, (r it).result.1 = some a ∧ f a = b := by
  obtain ⟨a, ha, hb⟩ := Option.bind_eq_some_iff.mp h
  exact ⟨a, ha, Option.some.inj hb⟩

theorem read_fits (h : (read m kind it).result.1 = some item) : item.Fits := by
  cases kind with
  | string =>
    obtain ⟨value, hv, rfl⟩ := map_eq_some h
    obtain ⟨block, -, rfl⟩ := map_eq_some hv
    exact block.2
  | string16 =>
    obtain ⟨value, hv, rfl⟩ := map_eq_some h
    simp only [readString16, Read.bind, result_bind] at hv
    split at hv
    · cases hv
    · exact readElements16_length hv
  | _ =>
    obtain ⟨value, -, rfl⟩ := map_eq_some h
    exact Nat.two_pow_pos 31

theorem readAll_fits (m : Mem) (kinds : List Kind) (it : PickleIterator)
    (h : some item ∈ (readAll m kinds it).result.1) : item.Fits := by
  induction kinds generalizing it with
  | nil => cases h
  | cons kind kinds ih =>
    rcases mem_cons.mp h with h | h
    · exact read_fits h.symm
    · exact ih _ h

/-- The memory holds the pickle at address 0: its payload size, whatever else
its header has, and its payload. -/
structure HoldsPickle (m : Mem) (p : Pickle) : Prop where
  header : HoldsAt m 0 (toBytes 4 p.payloadSize)
  payload : HoldsAt m p.headerSize p.payload

theorem ofBytes_header (hp : Wf p) (hm : HoldsPickle m p) :
    ofBytes (slice m 0 4) = p.payload.length := by
  have hh := hm.header
  rw [HoldsAt, length_toBytes, hp.size_eq] at hh
  rw [hh]
  exact ofBytes_toBytes hp.lt

/-- The constructor finds the header size of a pickle, unless the pickle is so
large that its length is cut when it is compared with the header size. -/
theorem headerSizeOfData_size (hp : Wf p) (hm : HoldsPickle m p) :
    (headerSizeOfData m (size p)).result = if size p < 2 ^ 32 then p.headerSize else 0 := by
  have hw := ofBytes_header hp hm
  obtain ⟨-, hs, hlt, -, -, hpos, hdvd, hle⟩ := hp
  simp only [payloadUnit] at hle
  have hd : (size p + (2 ^ 64 - ofBytes (slice m 0 4))) % 2 ^ 64 =
      p.headerSize := by
    rw [hw, size]
    omega
  have ha : p.headerSize = align p.headerSize 4 := by
    rw [align_eq (by omega)]
    omega
  have hlen : 4 ≤ size p := by
    omega
  simp only [headerSizeOfData, if_pos hlen, result_bind, load_result,
    result_pure, hd, checkedHeaderSize]
  by_cases hbig : size p < 2 ^ 32
  · have hmod : size p % 2 ^ 32 = size p := Nat.mod_eq_of_lt hbig
    rw [if_pos hbig, hmod, if_neg (show ¬ p.headerSize > size p by rw [size]; omega),
      if_neg (not_not.mpr ha)]
  · have hcut : p.headerSize > size p % 2 ^ 32 := by
      rw [size] at hbig ⊢
      omega
    rw [if_neg hbig, if_pos hcut]

theorem ofData_size (hp : Wf p) (hm : HoldsPickle m p) : (ofData m (size p)).result =
      if size p < 2 ^ 32 then ofPickle p else ⟨none, 0, 0, le_rfl, fun _ => rfl⟩ := by
  have hh := headerSizeOfData_size hp hm
  have hpos := hp.header_pos
  simp only [ofData, result_bind, hh]
  by_cases hbig : size p < 2 ^ 32
  · simp only [if_pos hbig]
    rw [if_neg (by omega)]
    simp only [result_bind, result_pure, load_result, ofPickle, ofBytes_header hp hm, hp.size_eq]
  · simp only [if_neg hbig]
    rfl

theorem read_null (hn : it.payload = none) : (read m kind it).result.1 = none := by
  by_cases hk : kind.NonEmpty
  · exact read_atEnd (atEnd_of_null hn) hk
  · cases kind with
    | bytes length =>
      apply result_map_eq_none.mpr
      rw [readBytes, getReadPointerAndAdvanceBytes_eq, getReadPointerAndAdvance, hn]
      split_ifs <;> rfl
    | _ => exact absurd trivial hk

theorem checkedHeaderSize_eq (h : checkedHeaderSize dataLen headerSize ≠ 0) :
    checkedHeaderSize dataLen headerSize = headerSize ∧ headerSize ≤ dataLen % 2 ^ 32 := by
  unfold checkedHeaderSize at h ⊢
  split at h
  · exact absurd rfl h
  · rename_i hcut
    rw [if_neg hcut]
    split at h
    · exact absurd rfl h
    · rename_i ha
      rw [if_neg ha]
      exact ⟨rfl, not_lt.mp hcut⟩

theorem headerSizeOfData_result (hlen : dataLen < 2 ^ 64)
    (h : (headerSizeOfData m dataLen).result ≠ 0) :
    (headerSizeOfData m dataLen).result + ofBytes (slice m 0 4) = dataLen := by
  have hw := ofBytes_lt (slice m 0 4)
  rw [length_slice] at hw
  unfold headerSizeOfData at h ⊢
  by_cases hs : 4 ≤ dataLen
  · simp only [if_pos hs, result_bind, result_pure, load_result] at h ⊢
    obtain ⟨heq, hle⟩ := checkedHeaderSize_eq h
    omega
  · simp only [if_neg hs, result_pure] at h
    exact absurd (checkedHeaderSize_eq h).1 h

theorem ofData_payload {base : ℕ} (hlen : dataLen < 2 ^ 64)
    (h : (ofData m dataLen).result.payload = some base) :
    base + (ofData m dataLen).result.endIndex = dataLen := by
  simp only [ofData, result_bind] at h ⊢
  by_cases hz : (headerSizeOfData m dataLen).result = 0
  · simp only [if_pos hz] at h
    cases h
  · simp only [if_neg hz] at h ⊢
    cases h
    exact headerSizeOfData_result hlen hz

theorem within_ofData (m : Mem) (dataLen : ℕ) : Traced.Within dataLen (ofData m dataLen) := by
  unfold ofData headerSizeOfData
  by_cases hs : 4 ≤ dataLen
  · simp only [if_pos hs]
    refine within_bind (within_bind (within_load m hs)
      (within_pure _ _)) ?_
    split
    · exact within_pure _ _
    · exact within_bind (within_load m hs) (within_pure _ _)
  · have hc : checkedHeaderSize dataLen 0 = 0 := by
      simp [checkedHeaderSize]
    simp only [if_neg hs]
    exact within_bind (within_pure _ _) (within_pure _ _)

theorem readAll_ofPickle (hnew : Pickle.new headerSize = some p₀) (hp : writeAll ops p₀ = some p)
    (hm : HoldsPickle m p) (hf : ∀ item ∈ items ops, item.Fits) :
    (readAll m ((items ops).map kindOf) (ofPickle p)).result.1 = (items ops).map some := by
  obtain ⟨hwf₀, he⟩ := wf_new hnew
  have hext := writeAll_extends hwf₀ hf hp
  apply readAll_encode hf
  have hpa := hext.payload_eq
  rw [he, nil_append] at hpa
  rw [← hpa]
  exact ⟨p.headerSize, rfl, hm.payload, hext.wf.size_eq.symm⟩

theorem fits_of_readAll
    (h : (readAll m ((items ops).map kindOf) it).result.1 = (items ops).map some) :
    ∀ item ∈ items ops, item.Fits := by
  intro item hi
  apply readAll_fits m ((items ops).map kindOf) it
  rw [h]
  exact mem_map_of_mem hi

theorem readAll_null (hn : it.payload = none)
    (h : (readAll m ((items ops).map kindOf) it).result.1 = (items ops).map some) :
    items ops = [] := by
  cases hi : items ops with
  | nil => rfl
  | cons item rest =>
    rw [hi] at h
    have hh := (List.cons.inj h).1
    rw [read_null hn] at hh
    cases hh

theorem readAll_ofData (hnew : Pickle.new headerSize = some p₀) (hp : writeAll ops p₀ = some p)
    (hm : HoldsPickle m p) (hf : ∀ item ∈ items ops, item.Fits) (hs : size p < 2 ^ 32) :
    (readAll m ((items ops).map kindOf) (ofData m (size p)).result).result.1 =
      (items ops).map some := by
  have hext := writeAll_extends (wf_new hnew).1 hf hp
  rw [ofData_size hext.wf hm, if_pos hs]
  exact readAll_ofPickle hnew hp hm hf

/-- A pickle from which everything is read back as data has less than 2³² bytes. -/
theorem size_lt_of_readAll_ofData (hnew : Pickle.new headerSize = some p₀)
    (hp : writeAll ops p₀ = some p) (hm : HoldsPickle m p)
    (h : (readAll m ((items ops).map kindOf) (ofData m (size p)).result).result.1 =
      (items ops).map some) : size p < 2 ^ 32 := by
  obtain ⟨hwf₀, he⟩ := wf_new hnew
  have hext := writeAll_extends hwf₀ (fits_of_readAll h) hp
  by_contra hbig
  rw [ofData_size hext.wf hm, if_neg hbig] at h
  have hn := readAll_null rfl h
  have hpa := hext.payload_eq
  rw [he, hn, flatMap_nil, nil_append] at hpa
  have hs := hext.wf.size_eq
  have hh := hext.wf.header_le
  rw [hpa, length_nil] at hs
  simp only [size, payloadUnit] at hbig hh
  omega

def ReachedOver (m : Mem) (dataLen : ℕ) (it : PickleIterator) : Prop :=
  ∃ kinds, (readAll m kinds (ofData m dataLen).result).result.2 = it

theorem reachedOver_ofData (m : Mem) (dataLen : ℕ) :
    ReachedOver m dataLen (ofData m dataLen).result := ⟨[], rfl⟩

/-- Writing and reading back, and reading arbitrary data.

A sequence of writes reads back, from the pickle itself, exactly when every
string fits; from its bytes when moreover the size of the pickle fits 32 bits.
Every read from arbitrary data stays inside its payload, and a failed read
leaves nothing to read exactly when it did not stop at a length it refuses. -/
theorem reads_back_and_fails_at_end (headerSize : ℕ) (ops : List WriteOp)
    (p₀ p : Pickle) (m : Mem) (hnew : Pickle.new headerSize = some p₀)
    (hp : writeAll ops p₀ = some p) (hm : HoldsPickle m p)
    (m' : Mem) (dataLen : ℕ) (it : PickleIterator) (kind : Kind)
    (hlen : dataLen < 2 ^ 64) (hit : ReachedOver m' dataLen it) :
    (((readAll m ((items ops).map kindOf) (ofPickle p)).result.1 = (items ops).map some ↔
        ∀ item ∈ items ops, item.Fits) ∧
      ((readAll m ((items ops).map kindOf) (ofData m (size p)).result).result.1 =
          (items ops).map some ↔
        (∀ item ∈ items ops, item.Fits) ∧ size p < 2 ^ 32)) ∧
    ((∀ s ∈ (ofData m' dataLen).spans, s.start + s.len ≤ dataLen) ∧
      (∀ base, it.payload = some base → base + it.endIndex = dataLen) ∧
      (∀ s ∈ (read m' kind it).spans, InPayload it s) ∧
      ((read m' kind it).result.1 = none → ((AtEnd (read m' kind it).result.2 ∧ ∀ later : List Kind,
          List.Forall₂ (fun k o => k.NonEmpty → o = none) later
            (readAll m' later (read m' kind it).result.2).result.1) ↔
          ¬ LeavesRest m' kind it))) := by
  constructor
  · have hba := readAll_ofPickle hnew hp hm
    exact ⟨⟨fits_of_readAll, hba⟩, fun h => ⟨fits_of_readAll h,
      size_lt_of_readAll_ofData hnew hp hm h⟩,
      fun h => readAll_ofData hnew hp hm h.1 h.2⟩
  · obtain ⟨before, rfl⟩ := hit
    have hf := (safe_readAll m' before (ofData m' dataLen).result).1
    refine ⟨within_ofData m' dataLen, ?_, (safe_read m' kind _).2, ?_⟩
    · intro base hb
      rw [hf.payload_eq] at hb
      rw [hf.end_eq]
      exact ofData_payload hlen hb
    · intro hn
      rw [← read_failed hn]
      exact ⟨And.left, fun hend => ⟨hend, fun later => readAll_atEnd hend⟩⟩

/-- A pickle with an integer and a 16-bit string, and a read that fails at a
negative length and does move to the end. -/
theorem reads_back_int_string16 :
    let ops : List WriteOp := [.item (.int 7), .reserve 100, .item (.string16 [104, 105])]
    let p : Pickle := ⟨4, 256, 12, 12, [7, 0, 0, 0, 2, 0, 0, 0, 104, 0, 105, 0]⟩
    let m := ofList (12 :: 0 :: 0 :: 0 :: p.payload)
    let m' := ofList [8, 0, 0, 0, 255, 255, 255, 255, 7, 0, 0, 0]
    (readAll m ((items ops).map kindOf) (ofData m (size p)).result).result.1 =
      (items ops).map some ∧
    AtEnd (read m' .data (ofData m' 12).result).result.2 := by
  intro ops p m m'
  obtain ⟨hb, hr⟩ := reads_back_and_fails_at_end 4 ops ⟨4, 64, 0, 0, []⟩ p m rfl rfl
    ⟨by decide, by decide⟩ m' 12 (ofData m' 12).result .data (by decide)
    (reachedOver_ofData m' 12)
  have hend := (hr.2.2.2 (by decide)).mpr (by decide)
  exact ⟨hb.2.mpr ⟨by decide, by decide⟩, hend.1⟩

/-- A 16-bit string with a negative length: the failed read does not move to the
end, and the next read returns the word behind the length. -/
theorem readString16_negative_length :
    let m := ofList [8, 0, 0, 0, 255, 255, 255, 255, 7, 0, 0, 0]
    let it := (ofData m 12).result
    (readAll m [.string16, .int] it).result.1 = [none, some (.int 7)] ∧
      ¬ AtEnd (read m .string16 it).result.2 := by
  decide

end ChromiumBase.PickleIterator
