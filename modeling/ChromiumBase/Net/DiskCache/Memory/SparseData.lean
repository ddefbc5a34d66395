import ChromiumBase.Net.DiskCache.Memory.MemEntryImpl

/-!
# What sparse reads return

Next to an entry, two records of its sparse writes are kept: the byte that was written last at
each offset, and the bytes of these that no later write to the same child has cut off.  The
bytes of a child from its first position on are always among the latter.
-/

open List

namespace ChromiumBase.MemEntry

open MemEntryImpl

abbrev Contents := ℕ → Option UInt8

def overwrite (c : Contents) (offset : ℕ) (buf : ℕ → UInt8) (n : ℕ) : Contents := fun b =>
  if offset ≤ b ∧ b < offset + n then some (buf (b - offset)) else c b

/-- The same, where the write cuts off what the child of its last byte has behind it. -/
def store (c : Contents) (offset : ℕ) (buf : ℕ → UInt8) (n : ℕ) : Contents := fun b =>
  if n ≠ 0 ∧ offset + n ≤ b ∧ b / 4096 = (offset + n - 1) / 4096 then none
  else overwrite c offset buf n b

theorem kMaxChildEntrySize_eq : kMaxChildEntrySize = 4096 := rfl

theorem toChildIndex_eq (offset : ℕ) : toChildIndex offset = offset / 4096 :=
  Nat.shiftRight_eq_div_pow offset 12

theorem toChildOffset_eq (offset : ℕ) : toChildOffset offset = offset % 4096 :=
  Nat.and_two_pow_sub_one_eq_mod offset 12

namespace MemEntryImpl

theorem getChild_setChild {e : MemEntryImpl} (he : e.children.isSome) (index j : ℕ)
    (child : Child) :
    (e.setChild index child).getChild j = if j = index then some child else e.getChild j := by
  obtain ⟨c, hc⟩ := Option.isSome_iff_exists.mp he
  unfold setChild getChild
  by_cases hi : index = 0
  · subst hi
    by_cases hj : j = 0 <;> simp [hc, hj]
  · by_cases hj : j = 0
    · simp [hi, hj, hc, Ne.symm hi]
    · by_cases hij : j = index
      · simp [hi, hij, hc]
      · simp [hi, hij, hc]

end MemEntryImpl

structure Child.Valid (child : Child) (index : ℕ) (c : Contents) : Prop where
  length_le : child.data.length ≤ 4096
  contents : ∀ i v, child.childFirstPos ≤ i → child.data[i]? = some v →
    c (4096 * index + i) = some v

/-- The same for all the children of an entry; there is nothing before there are children. -/
def Valid (e : MemEntryImpl) (c : Contents) : Prop :=
  ∀ index child, e.getChild index = some child → child.Valid index c

variable {c : Contents} {e : MemEntryImpl} {b : Backend}
  {fuel remaining offset n consumed fuel' index : ℕ}
  {buf : ℕ → UInt8} {exceeded : Bool} {child : Child} {data' : List UInt8} (data : List UInt8)

theorem Valid.initSparseInfo {e' : MemEntryImpl} (he : Valid e c)
    (hi : e.initSparseInfo = some e') : e'.children.isSome ∧ Valid e' c := by
  unfold MemEntryImpl.initSparseInfo at hi
  split at hi
  case h_1 children hch =>
    cases hi
    exact ⟨by rw [hch]; rfl, he⟩
  case h_2 hch =>
    split at hi
    case isTrue => cases hi
    case isFalse hlen =>
      cases hi
      refine ⟨rfl, fun index child hc => ?_⟩
      unfold getChild at hc
      dsimp only at hc
      split at hc
      case isTrue =>
        cases hc
        have hnil : e.own.data = [] := eq_nil_of_length_eq_zero (not_not.mp hlen)
        exact ⟨by rw [hnil]; exact Nat.zero_le _, fun i v _ h => by rw [hnil] at h; cases h⟩
      case isFalse => cases hc

theorem internalReadData_eq (offset bufLen : ℕ) :
    internalReadData data offset bufLen = (data.drop offset).take bufLen := by
  unfold internalReadData
  split
  case isTrue h =>
    rcases h with h | h
    · rw [drop_eq_nil_of_le h, take_nil]
    · rw [h, take_zero]
  case isFalse h =>
    split
    case isTrue hlt =>
      rw [take_of_length_le (by rw [length_drop]), take_of_length_le (by rw [length_drop]; omega)]
    case isFalse => rfl

/-- Every byte that is read is one of the contents. -/
theorem readChildren_valid (he : Valid e c) (offset : ℕ) {consumed : List UInt8}
    (hc : ∀ i v, consumed[i]? = some v → c (offset + i) = some v) :
    ∀ i v, (e.readChildren offset fuel consumed remaining)[i]? = some v →
      c (offset + i) = some v := by
  induction fuel generalizing consumed remaining with
  | zero => exact hc
  | succ fuel ih =>
    unfold readChildren
    split
    case isTrue => exact hc
    case isFalse =>
    split
    case h_1 => exact hc
    case h_2 child hch =>
    dsimp only
    split
    case isTrue => exact hc
    case isFalse hpos =>
    split
    case isTrue => exact hc
    case isFalse =>
      apply ih
      intro i v hv
      by_cases hi : i < consumed.length
      · rw [getElem?_append_left hi] at hv
        exact hc i v hv
      · rw [getElem?_append_right (by omega), internalReadData_eq, getElem?_take]
          at hv
        split at hv
        case isFalse => cases hv
        case isTrue =>
          rw [getElem?_drop] at hv
          have hb := (he _ child hch).contents _ v (by omega) hv
          rw [toChildIndex_eq, toChildOffset_eq] at hb
          rwa [show offset + i = 4096 * ((offset + consumed.length) / 4096) +
            ((offset + consumed.length) % 4096 + (i - consumed.length)) by omega]

/-- As many rounds as bytes are enough. -/
theorem readChildren_fuel (e : MemEntryImpl) (offset : ℕ) (consumed : List UInt8)
    (h : remaining ≤ fuel) (h' : remaining ≤ fuel') :
    e.readChildren offset fuel consumed remaining =
      e.readChildren offset fuel' consumed remaining := by
  induction fuel generalizing fuel' consumed remaining with
  | zero =>
    cases fuel' with
    | zero => rfl
    | succ fuel' =>
      rw [readChildren, readChildren, if_pos (by omega)]
  | succ fuel ih =>
    cases fuel' with
    | zero => rw [readChildren, readChildren, if_pos (by omega)]
    | succ fuel' =>
      rw [readChildren, readChildren]
      split
      case isTrue => rfl
      case isFalse =>
      split
      case h_1 => rfl
      case h_2 =>
      dsimp only
      split
      case isTrue => rfl
      case isFalse =>
      split
      case isTrue => rfl
      case isFalse => exact ih _ (by omega) (by omega)

theorem length_resize (n : ℕ) : (resize data n).length = n := by
  simp only [resize, length_take, length_append, length_replicate]
  omega

/-- What a truncating write leaves in a child: what was in front of it, and the bytes. -/
theorem internalWriteData_truncate {data buf : List UInt8}
    (hw : internalWriteData b exceeded data offset buf true = .ok data') :
    data' = (resize data (offset + buf.length)).take offset ++ buf := by
  unfold internalWriteData at hw
  dsimp only at hw
  split at hw
  case isTrue => cases hw
  case isFalse =>
  split at hw
  case isTrue => cases hw
  case isFalse =>
  rw [if_pos (.inl rfl)] at hw
  split at hw
  case isTrue => cases hw
  case isFalse =>
    cases hw
    rw [drop_eq_nil_of_le (by rw [length_resize]), append_nil]

/-- A write to a child cuts off what it had behind. -/
theorem Child.Valid.write {pos : ℕ} (hc : child.Valid index c) (hend : pos + n ≤ 4096)
    (hw : internalWriteData b exceeded child.data pos ((List.range n).map buf) true = .ok data') :
    (⟨data', if child.data.length ≠ pos then pos else child.childFirstPos⟩ : Child).Valid index
      (store c (4096 * index + pos) buf n) := by
  have hlen : ((List.range n).map buf).length = n := by simp
  have hd := internalWriteData_truncate hw
  rw [hlen] at hd
  have hfr : ((resize child.data (pos + n)).take pos).length = pos := by
    rw [length_take, length_resize, Nat.min_eq_left (Nat.le_add_right pos n)]
  subst hd
  constructor
  · dsimp only
    rw [length_append, hfr, hlen]
    exact hend
  · intro i v hf hv
    dsimp only at hf hv
    by_cases hi : i < pos
    · -- in front of the bytes: only what was valid and continues
      have hco : child.data.length = pos := by
        by_contra hne
        rw [if_pos hne] at hf
        omega
      rw [if_neg (not_not.mpr hco)] at hf
      rw [getElem?_append_left (by omega), getElem?_take_of_lt hi, resize,
        take_of_length_le (by omega), getElem?_append_left (by omega)] at hv
      rw [store, if_neg (by omega), overwrite, if_neg (by omega)]
      exact hc.contents i v hf hv
    · rw [getElem?_append_right (by omega), hfr, getElem?_map] at hv
      obtain ⟨k, hk, rfl⟩ := Option.map_eq_some_iff.mp hv
      obtain ⟨hlt, hk⟩ := List.getElem?_eq_some_iff.mp hk
      rw [List.getElem_range] at hk
      rw [List.length_range] at hlt
      rw [store, if_neg (by omega), overwrite, if_pos (by omega)]
      congr 2
      omega

theorem store_store (c : Contents) (offset k n : ℕ) (buf : ℕ → UInt8) :
    store (store c offset buf k) (offset + k) (fun i => buf (k + i)) n =
      store c offset buf (k + n) := by
  funext b
  simp only [store, overwrite]
  split_ifs
  all_goals first
    | rfl
    | omega
    | congr 2; omega

theorem store_zero (c : Contents) (offset : ℕ) (buf : ℕ → UInt8) : store c offset buf 0 = c := by
  funext b
  rw [store, if_neg (by omega), overwrite, if_neg (by omega)]

theorem Valid.setChild {c' : Contents} (he : Valid e c) (hs : e.children.isSome)
    (hc : child.Valid index c') (ho : ∀ b, b / 4096 ≠ index → c' b = c b) :
    Valid (e.setChild index child) c' := by
  intro j child' hget
  rw [getChild_setChild hs] at hget
  split at hget
  case isTrue hj =>
    cases hget
    rwa [hj]
  case isFalse hj =>
    have hold := he j child' hget
    refine ⟨hold.length_le, fun i v hi hv => ?_⟩
    have hlt := (List.getElem?_eq_some_iff.mp hv).1
    have hle := hold.length_le
    rw [ho _ (by omega)]
    exact hold.contents i v hi hv

theorem Valid.getD (he : Valid e c) (index : ℕ) :
    ((e.getChild index).getD ⟨[], 0⟩).Valid index c := by
  cases hget : e.getChild index with
  | none => exact ⟨Nat.zero_le _, fun i v _ h => by cases h⟩
  | some child => exact he index child hget

/-- The contents follow the writes, by induction over the rounds, the last of which may fail. -/
theorem writeChildren_valid (hs : e.children.isSome) (he : Valid e (store c offset buf consumed)) :
    Valid (writeChildren b buf offset fuel e consumed remaining).1
      (store c offset buf (writeChildren b buf offset fuel e consumed
        remaining).2.1) := by
  induction fuel generalizing e consumed remaining with
  | zero => exact he
  | succ fuel ih =>
    unfold writeChildren
    split
    case isTrue => exact he
    case isFalse hr =>
    have hsi := kMaxChildEntrySize_eq
    have hi := toChildIndex_eq (offset + consumed)
    have ho := toChildOffset_eq (offset + consumed)
    dsimp only
    split
    case h_1 err hw => exact he.setChild hs (he.getD _) fun b _ => rfl
    case h_2 data hw =>
      refine ih (by unfold setChild; split <;> simpa using hs) ?_
      have hc := (he.getD _).write (by omega) hw
      rw [hi, ho, Nat.div_add_mod, store_store] at hc
      rw [hi, ho]
      refine he.setChild hs hc fun x hx => ?_
      rw [← store_store]
      rw [store, if_neg (by omega), overwrite, if_neg (by omega)]

theorem writeChildren_fuel (b : Backend) (buf : ℕ → UInt8) (offset : ℕ) (e : MemEntryImpl)
    (h : remaining ≤ fuel) (h' : remaining ≤ fuel') :
    writeChildren b buf offset fuel e consumed remaining =
      writeChildren b buf offset fuel' e consumed remaining := by
  induction fuel generalizing fuel' e consumed remaining with
  | zero =>
    cases fuel' with
    | zero => rfl
    | succ fuel' =>
      rw [writeChildren, writeChildren, if_pos (by omega)]
  | succ fuel ih =>
    cases fuel' with
    | zero => rw [writeChildren, writeChildren, if_pos (by omega)]
    | succ fuel' =>
      rw [writeChildren, writeChildren]
      have hs := kMaxChildEntrySize_eq
      have ho := toChildOffset_eq (offset + consumed)
      split
      case isTrue => rfl
      case isFalse =>
      dsimp only
      split
      case h_1 => rfl
      case h_2 => exact ih _ (by omega) (by omega)

inductive Operation where
  | read (offset bufLen : ℤ)
  | write (b : Backend) (offset : ℤ) (buf : ℕ → UInt8) (bufLen : ℤ)

/-- An entry, with the bytes that were written last and those of them that are not cut off. -/
structure History where
  entry : MemEntryImpl
  written : Contents
  kept : Contents

/-- A write that fails part-way has written what it consumed before. -/
def History.step (h : History) : Operation → History
  | .read offset bufLen => { h with entry := (h.entry.internalReadSparseData offset bufLen).1 }
  | .write b offset buf bufLen =>
    let (entry, consumed, _) := h.entry.internalWriteSparseData b offset buf bufLen
    ⟨entry, overwrite h.written offset.toNat buf consumed, store h.kept offset.toNat buf consumed⟩

def History.start (own : Child) : History := ⟨⟨own, none⟩, fun _ => none, fun _ => none⟩

def History.run (own : Child) (ops : List Operation) : History :=
  ops.foldl History.step (History.start own)

structure History.Valid (h : History) : Prop where
  entry : MemEntry.Valid h.entry h.kept
  kept : ∀ b v, h.kept b = some v → h.written b = some v

theorem internalReadSparseData_valid (he : Valid e c) (offset bufLen : ℤ) :
    Valid (e.internalReadSparseData offset bufLen).1 c := by
  unfold internalReadSparseData
  split
  case h_1 => exact he
  case h_2 e' hi =>
    have he' := (he.initSparseInfo hi).2
    split <;> exact he'

theorem internalWriteSparseData_valid (he : Valid e c) (b : Backend) (offset : ℤ) (buf : ℕ → UInt8)
    (bufLen : ℤ) : Valid (e.internalWriteSparseData b offset buf bufLen).1
      (store c offset.toNat buf (e.internalWriteSparseData b offset buf bufLen).2.1) := by
  have hz := store_zero c offset.toNat buf
  unfold internalWriteSparseData
  split
  case h_1 => rwa [hz]
  case h_2 e' hi =>
    obtain ⟨hs, he'⟩ := he.initSparseInfo hi
    split
    case isTrue => rwa [hz]
    case isFalse =>
      split
      case isTrue => rwa [hz]
      case isFalse => exact writeChildren_valid hs (by rwa [hz])

theorem store_eq_some {w : Contents} (hcw : ∀ b v, c b = some v → w b = some v) {b : ℕ} {v : UInt8}
    (h : store c offset buf n b = some v) : overwrite w offset buf n b = some v := by
  rw [store] at h
  split at h
  case isTrue => cases h
  case isFalse =>
    rw [overwrite] at h ⊢
    split at h
    case isTrue hin => rwa [if_pos hin]
    case isFalse hout =>
      rw [if_neg hout]
      exact hcw b v h

theorem History.Valid.step {h : History} (hh : h.Valid) (op : Operation) : (h.step op).Valid := by
  cases op with
  | read offset bufLen => exact ⟨internalReadSparseData_valid hh.entry offset bufLen, hh.kept⟩
  | write b offset buf bufLen =>
    exact ⟨internalWriteSparseData_valid hh.entry b offset buf bufLen,
      fun _ _ => store_eq_some hh.kept⟩

theorem History.valid_run (own : Child) (ops : List Operation) : (History.run own ops).Valid := by
  have hs : (History.start own).Valid :=
    ⟨fun _ _ h => (by cases h), fun _ _ h => (by cases h)⟩
  unfold History.run
  generalize History.start own = h at hs
  induction ops generalizing h with
  | nil => exact hs
  | cons op ops ih => exact ih _ (hs.step op)

/-- After any sparse operations on an entry, every byte that a sparse read returns is the one
that was written last at its offset, and no later write has cut it off. -/
theorem sparse_read_last_written (own : Child) (ops : List Operation) (offset bufLen : ℤ)
    {bytes : List UInt8}
    (hread : ((History.run own ops).entry.internalReadSparseData offset bufLen).2 = .ok bytes)
    {i : ℕ} {v : UInt8} (hv : bytes[i]? = some v) :
    (History.run own ops).written (offset.toNat + i) = some v ∧
      (History.run own ops).kept (offset.toNat + i) = some v := by
  have hh := History.valid_run own ops
  have hk : (History.run own ops).kept (offset.toNat + i) = some v := by
    unfold internalReadSparseData at hread
    split at hread
    case h_1 => cases hread
    case h_2 e' hi =>
      have he' := (hh.entry.initSparseInfo hi).2
      split at hread
      case isTrue => cases hread
      case isFalse =>
        cases hread
        exact readChildren_valid he' _ (fun i v h => by cases h) i v hv
  exact ⟨hh.kept _ _ hk, hk⟩

/-- Five bytes, of which a shorter write then replaces the third and cuts off the rest. -/
theorem sparse_read_last_written_shorter :
    (History.run ⟨[], 0⟩ [.write ⟨true, 4096, fun _ => false⟩ 10 (fun i => .ofNat (i + 1)) 5,
      .write ⟨true, 4096, fun _ => false⟩ 12 (fun _ => 9) 1]).written 12 = some 9 :=
  (sparse_read_last_written ⟨[], 0⟩ _ 12 10 (show _ = Except.ok [9] from rfl) (i := 0) rfl).1

end ChromiumBase.MemEntry
