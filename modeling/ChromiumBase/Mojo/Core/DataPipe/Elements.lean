import ChromiumBase.Mojo.Core.DataPipe.Conservation

/-!
# Whole elements

The calls of a pipe check the byte counts of their callers against the size of an
element, and then cut them to what is free, available or left up to the end of the
ring. The counts they report stay multiples of the size of an element if the
capacity is one, which `data_pipe.h` asks of the options and
`Core::CreateDataPipe` does not check.
-/

open Option

namespace ChromiumBase.DataPipe

/-- `Core::CreateDataPipe`. There is no shared memory of more than `INT_MAX`
bytes. -/
def createBackedDataPipe (options : Option CreateOptions) : Except MojoResult Pipe := do
  let pipe ← createDataPipe options
  if pipe.options.capacityNumBytes < 2 ^ 31 then
    return pipe
  else
    throw .resourceExhausted

namespace History

def reports (s : History) : Step → Option ℕ
  | .writeData elements allOrNone =>
    match s.pipe.producer.writeData s.pipe.options elements allOrNone s.pipe.ring with
    | some ⟨.ok, _, _, _, committed⟩ => some committed.length
    | _ => none
  | .beginWriteData =>
    match s.pipe.producer.beginWriteData s.pipe.options with
    | some (.ok, n, _) => some n
    | _ => none
  | .readData flags n =>
    match s.pipe.consumer.readData s.pipe.options flags n.toNat s.pipe.ring with
    | some ⟨.ok, _, _, n, _, _⟩ => some n
    | _ => none
  | .beginReadData =>
    match s.pipe.consumer.beginReadData s.pipe.options with
    | some (.ok, n, _) => some n
    | _ => none
  | _ => none

/-- No call tears an element. -/
def Whole (s : History) : Prop :=
  (∀ a n, s.reports a = some n → s.pipe.options.elementNumBytes ∣ n) ∧
    s.pipe.options.elementNumBytes ∣ s.pipe.consumer.bytesAvailable

end History

variable {o : Options} {s : History}

/-- The counts that the calls report are cut from multiples by multiples. -/
theorem Aligned.whole (ha : Aligned o.elementNumBytes s) (h : Consistent o s)
    (hcap : o.elementNumBytes ∣ o.capacityNumBytes) : s.Whole := by
  obtain rfl := h.options_eq
  have hri := h.ring_length
  have hsum := h.conserved
  refine ⟨fun a n hn => ?_, ha.bytesAvailable⟩
  cases a with
  | writeData elements allOrNone =>
    simp only [History.reports] at hn
    rcases Producer.writeData_eq elements allOrNone hri h.capacity_lt h.available_le
      h.write_lt with ⟨result, hw⟩ | ⟨m, -, hle, -, hm, hw⟩ <;> rw [hw] at hn
    · split at hn
      next heq =>
        cases heq
        exact some.inj hn ▸ Nat.dvd_zero _
      next => cases hn
    · rw [← some.inj hn, List.length_take_of_le hle]
      exact hm (ha.availableCapacity h hcap)
  | beginWriteData =>
    simp only [History.reports] at hn
    rcases Producer.beginWriteData_eq h.write_lt with ⟨result, hok, hb⟩ | ⟨m, -, -, hm, hb⟩ <;>
      rw [hb] at hn
    · split at hn
      next heq =>
        cases heq
        exact absurd rfl hok
      next => cases hn
    · rw [← some.inj hn, hm]
      exact dvd_min_of_dvd (Nat.dvd_sub hcap (ha.writeOffset h hcap))
        (ha.availableCapacity h hcap)
  | readData flags k =>
    simp only [History.reports] at hn
    rcases Consumer.readData_eq flags k.toNat hri h.capacity_lt (by omega) h.read_lt
      with ⟨result, m, data, hr, hm⟩ | ⟨m, -, -, hm, hr⟩ <;> rw [hr] at hn
    · split at hn
      next heq =>
        cases heq
        exact some.inj hn ▸ hm rfl ha.bytesAvailable
      next => cases hn
    · rw [← some.inj hn]
      exact hm ha.bytesAvailable
  | beginReadData =>
    simp only [History.reports] at hn
    rcases Consumer.beginReadData_eq h.read_lt with ⟨result, hb⟩ | ⟨m, -, -, hm, hb⟩ <;>
      rw [hb] at hn
    · split at hn
      next heq =>
        cases heq
        exact some.inj hn ▸ Nat.dvd_zero _
      next => cases hn
    · rw [← some.inj hn, hm]
      exact dvd_min_of_dvd ha.bytesAvailable (Nat.dvd_sub hcap ha.readOffset)
  | _ => exact nomatch hn

theorem createDataPipe_of_backed {options : Option CreateOptions} {pipe : Pipe}
    (h : createBackedDataPipe options = .ok pipe) :
    createDataPipe options = .ok pipe ∧ pipe.options.capacityNumBytes < 2 ^ 31 := by
  simp only [createBackedDataPipe] at h
  cases hc : createDataPipe options with
  | error result => simp [hc, bind, Except.bind] at h
  | ok created =>
    simp only [hc, bind, Except.bind] at h
    split at h
    · rename_i hlt
      cases h
      exact ⟨rfl, hlt⟩
    · exact nomatch h

/-- In every run of a pipe all reported counts are whole elements exactly if the
capacity is. -/
theorem run_whole_iff (options : Option CreateOptions) (pipe : Pipe)
    (hcreate : createBackedDataPipe options = .ok pipe) :
    (∀ steps s, (History.mk pipe [] []).run steps = some s → s.Whole) ↔
      pipe.options.elementNumBytes ∣ pipe.options.capacityNumBytes := by
  obtain ⟨hcreate, hlt⟩ := createDataPipe_of_backed hcreate
  have h := consistent_create hcreate hlt
  obtain ⟨o, hpos, hle, rfl⟩ := createDataPipe_eq hcreate
  constructor
  · -- a new pipe hands out its whole ring
    intro hw
    refine (hw [] _ rfl).1 .beginWriteData _ ?_
    have hcap : 0 < o.capacityNumBytes := hpos.trans_le hle
    simp [History.reports, Producer.beginWriteData, check_of hcap, Nat.ne_of_gt hcap]
  · intro hcap steps s hs
    obtain ⟨s', hs', hk⟩ := h.run steps
    obtain rfl : s' = s := some.inj (hs'.symm.trans hs)
    have ha := hk.aligned hcap
      ⟨Nat.dvd_zero _, Nat.dvd_zero _, List.forall_mem_nil _, List.forall_mem_nil _⟩
    exact ha.whole hk.consistent hcap

/-- Elements of three bytes in a ring of six. -/
theorem run_whole_iff_six :
    (∀ steps s, (History.mk ⟨⟨3, 6⟩, [0, 0, 0, 0, 0, 0], ⟨0, 6, false, false, false, false⟩,
        ⟨0, 0, false, 0, false, false, false⟩, [], [], 0⟩ [] []).run steps = some s →
      s.Whole) ↔ 3 ∣ 6 :=
  run_whole_iff (some ⟨16, 3, 6⟩) _ rfl

/-- A ring of four bytes takes one element and a third of the next, and the consumer
reads both. -/
theorem run_torn : ∃ pipe s, createBackedDataPipe (some ⟨16, 3, 4⟩) = .ok pipe ∧
      (History.mk pipe [] []).reports (.writeData [1, 2, 3, 4, 5, 6] false) = some 4 ∧
      (History.mk pipe [] []).run
        [.writeData [1, 2, 3, 4, 5, 6] false, .deliverToConsumer 1 false] = some s ∧
      s.reports (.readData ⟨false, false, false, false⟩ 6) = some 4 :=
  ⟨_, _, rfl, rfl, rfl, rfl⟩

end ChromiumBase.DataPipe
