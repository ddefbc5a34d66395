import ChromiumBase.Lib.Framing
import ChromiumBase.Lib.LittleEndian

/-!
# Reading IPC messages

`ChannelReader::TranslateInputData` (`ipc/ipc_channel_reader.cc`) with `Message::FindNext`
and `Pickle::PeekNext`. The reader gets the stream in reads of at most `kReadBufferSize`
bytes, dispatches the messages that are complete and keeps the rest in an overflow buffer.
What `HandleTranslatedMessage` answers to a message is a parameter, and there are no
attachments that `DidEmptyInputBuffers` could miss.

Before a read is appended to the overflow buffer, the length of both is checked against the
maximal size of one message. The read may hold the end of the message and more, so that a
message that is not too big is refused: which streams are read in the same way however they
are cut depends on how near their messages come to the maximal size.
-/

open Framing List Prod

namespace ChromiumBase.Ipc

open Framer

def kMaximumMessageSize : ℕ := 128 * 1024 * 1024

def kReadBufferSize : ℕ := 4 * 1024

/-- `sizeof(Message::Header)`, with the number of descriptors. -/
def headerSize : ℕ := 20

/-- `Pickle::PeekNext` for the header of a message; the size is a `size_t`. -/
def peekNext (range : List UInt8) : Option ℕ :=
  if range.length < 4 then none
  else if range.length < headerSize then none
  else some (headerSize + LittleEndian.ofBytes (range.take 4))

structure NextMessageInfo where
  messageSize : ℕ
  messageFound : Bool

def findNext (range : List UInt8) : NextMessageInfo :=
  match peekNext range with
  | none => ⟨0, false⟩
  | some pickleSize => ⟨pickleSize, pickleSize ≤ range.length⟩

/-- The overflow buffer, the messages that were dispatched, and whether a call has returned
an error. -/
structure ChannelReader where
  inputOverflowBuf : List UInt8
  dispatched : List (List UInt8)
  failed : Bool

namespace ChannelReader

variable (handle : List UInt8 → Bool)

/-- The loop of `TranslateInputData` over the bytes from `p` on, which takes a byte at least
in every round. -/
def dispatchLoop : ℕ → List UInt8 → List (List UInt8) → ChannelReader
  | 0, p, dispatched => ⟨p, dispatched, false⟩
  | k + 1, p, dispatched =>
    if p.isEmpty then ⟨[], dispatched, false⟩
    else
      let info := findNext p
      if info.messageFound then
        let message := p.take info.messageSize
        if handle message then
          dispatchLoop k (p.drop info.messageSize) (dispatched ++ [message])
        else ⟨p, dispatched, true⟩
      else if info.messageSize ≤ kMaximumMessageSize then ⟨p, dispatched, false⟩
      else ⟨[], dispatched, true⟩

/-- A reader that has failed is not used any more. -/
def translateInputData (r : ChannelReader) (inputData : List UInt8) : ChannelReader :=
  if r.failed then r
  else if r.inputOverflowBuf.isEmpty then
    dispatchLoop handle inputData.length inputData r.dispatched
  else if r.inputOverflowBuf.length + inputData.length ≤ kMaximumMessageSize then
    let buffer := r.inputOverflowBuf ++ inputData
    dispatchLoop handle buffer.length buffer r.dispatched
  else ⟨[], r.dispatched, true⟩

def run (reads : List (List UInt8)) : ChannelReader :=
  reads.foldl (translateInputData handle) ⟨[], [], false⟩

/-- What is there of the first message, if its size is not refused. -/
def next (s : List UInt8) : Verdict Unit :=
  match peekNext s with
  | none => .wait
  | some size =>
    if size > kMaximumMessageSize then .fail
    else if s.length < size then .wait
    else if handle (s.take size) then .frame size ()
    else .fail

variable {handle} {s t : List UInt8} {n k : ℕ}

theorem peekNext_of_length (h : headerSize ≤ s.length) :
    peekNext s = some (headerSize + LittleEndian.ofBytes (s.take 4)) := by
  have hh : headerSize = 20 := rfl
  rw [peekNext, if_neg (by omega), if_neg (by omega)]

theorem peekNext_eq_some (h : peekNext s = some n) : headerSize ≤ s.length ∧ headerSize ≤ n := by
  unfold peekNext at h
  split at h
  · cases h
  split at h
  · cases h
  · cases h
    omega

theorem peekNext_take_append (hn : headerSize ≤ n) (hs : n ≤ s.length) (t : List UInt8) :
    peekNext (s.take n ++ t) = peekNext s := by
  have hh : headerSize = 20 := rfl
  have hl := length_take_of_le hs
  rw [peekNext_of_length (by rw [length_append]; omega), peekNext_of_length (by omega),
    take_append_of_le_length (by omega), take_take, Nat.min_eq_left (by omega)]

theorem next_eq_frame : next handle s = .frame n () ↔ peekNext s = some n ∧
    n ≤ kMaximumMessageSize ∧ n ≤ s.length ∧ handle (s.take n) = true := by
  unfold next
  grind

theorem next_eq_fail : next handle s = .fail ↔ ∃ n, peekNext s = some n ∧
    (kMaximumMessageSize < n ∨ n ≤ s.length ∧ handle (s.take n) = false) := by
  unfold next
  grind

variable (handle) in
def framer : Framer UInt8 Unit where
  next := next handle
  length_le s n d h := by
    obtain ⟨hpeek, -, hle, -⟩ := next_eq_frame.1 h
    exact ⟨Nat.lt_of_lt_of_le (by decide) (peekNext_eq_some hpeek).2, hle⟩
  frame_take s t n d h := by
    obtain ⟨hpeek, hmax, hle, hhandle⟩ := next_eq_frame.1 h
    have hlength := length_take_of_le hle
    refine next_eq_frame.2 ⟨?_, hmax, ?_, ?_⟩
    · rw [peekNext_take_append (peekNext_eq_some hpeek).2 hle, hpeek]
    · rw [length_append]
      omega
    · rwa [take_left' hlength]
  fail_append s t h := by
    obtain ⟨n, hpeek, hn⟩ := next_eq_fail.1 h
    have happend := peekNext_take_append (peekNext_eq_some hpeek).1 le_rfl t
    rw [take_length] at happend
    refine next_eq_fail.2 ⟨n, happend.trans hpeek, hn.imp_right fun hn => ?_⟩
    rw [length_append, take_append_of_le_length hn.1]
    exact ⟨by omega, hn.2⟩

theorem next_take_of_frame (h : next handle s = .frame n ()) (hk : k < n) :
    next handle (s.take k) = .wait := by
  obtain ⟨hp, hmax, hle, -⟩ := next_eq_frame.1 h
  have hl := length_take_of_le (hk.le.trans hle)
  by_cases hh : headerSize ≤ k
  · have ht := peekNext_take_append hh (hk.le.trans hle) []
    rw [append_nil, hp] at ht
    simp only [next, ht]
    rw [if_neg (by omega), if_pos (by omega)]
  · cases hn : peekNext (s.take k) with
    | none => simp only [next, hn]
    | some m => exact absurd (peekNext_eq_some hn).1 (by omega)

theorem length_lt_of_wait (h : next handle s = .wait) : s.length < kMaximumMessageSize := by
  by_cases hh : headerSize ≤ s.length
  · have hp := peekNext_of_length hh
    simp only [next, hp] at h
    split_ifs at h with hmax hs
    omega
  · have hsm : headerSize < kMaximumMessageSize := by decide
    omega

/-- A round of the loop, on no more bytes than a message may have. -/
theorem dispatchLoop_succ (hs : s.length ≤ kMaximumMessageSize) (k : ℕ)
    (dispatched : List (List UInt8)) : dispatchLoop handle (k + 1) s dispatched =
      match next handle s with
      | .frame n () => dispatchLoop handle k (s.drop n) (dispatched ++ [s.take n])
      | .wait => ⟨s, dispatched, false⟩
      | .fail => ⟨if (findNext s).messageFound then s else [], dispatched, true⟩ := by
  rw [dispatchLoop]
  unfold next findNext
  cases hp : peekNext s with
  | none =>
    split
    next he => rw [isEmpty_iff.1 he]
    next => rfl
  | some size =>
    have hh := (peekNext_eq_some hp).1
    have hne : ¬ s.isEmpty = true := by
      rw [isEmpty_iff_length_eq_zero]
      exact Nat.ne_of_gt (Nat.lt_of_lt_of_le (by decide) hh)
    simp only [if_neg hne, decide_eq_true_eq]
    by_cases hsh : s.length < size
    · rw [if_neg (by omega)]
      by_cases hmax : size > kMaximumMessageSize
      · simp only [if_neg (not_le.2 hmax), if_pos hmax, if_neg (not_le.2 hsh)]
      · simp only [if_pos (not_lt.1 hmax), if_neg hmax, if_pos hsh]
    · simp only [if_pos (not_lt.1 hsh), if_neg (show ¬ size > kMaximumMessageSize by omega)]
      split <;> rfl

/-- On no more bytes than one message may have, the loop is the framer. -/
theorem dispatchLoop_eq_run (hs : s.length ≤ kMaximumMessageSize) (hk : s.length ≤ k)
    (dispatched : List (List UInt8)) :
    let r := (framer handle).run s
    (dispatchLoop handle k s dispatched).dispatched = dispatched ++ r.frames.map fst ∧
      (dispatchLoop handle k s dispatched).failed = r.failed ∧
      (r.failed = false → (dispatchLoop handle k s dispatched).inputOverflowBuf = r.rest) := by
  induction k generalizing s dispatched with
  | zero =>
    obtain rfl := length_eq_zero_iff.1 (Nat.le_zero.1 hk)
    rw [run_wait (F := framer handle) rfl]
    simp [dispatchLoop]
  | succ k ih =>
    rw [dispatchLoop_succ hs]
    cases hne : next handle s with
    | frame n _ =>
      have hn := (framer handle).length_le s n () hne
      rw [run_frame (F := framer handle) hne]
      simpa using ih (s := s.drop n) (by rw [length_drop]; omega)
        (by rw [length_drop]; omega) (dispatched ++ [s.take n])
    | wait => simp [run_wait (F := framer handle) hne]
    | fail => simp [run_fail (F := framer handle) hne]

/-- The reader is where the framer is, unless it has given up before. -/
structure Follows (handle : List UInt8 → Bool) (r : ChannelReader) (s : List UInt8) : Prop where
  dispatched : r.dispatched = ((framer handle).run s).frames.map Prod.fst
  failed : r.failed = ((framer handle).run s).failed
  rest : r.failed = false → r.inputOverflowBuf = ((framer handle).run s).rest

variable {r : ChannelReader} {c : List UInt8}

theorem Follows.eq {frames : List (List UInt8 × Unit)} (h : Follows handle r s)
    (hrun : (framer handle).run s = ⟨frames, t, false⟩) : r = ⟨t, frames.map Prod.fst, false⟩ := by
  obtain ⟨hd, hf, hr⟩ := h
  rw [hrun] at hd hf hr
  cases r
  cases hf
  cases hd
  cases hr rfl
  rfl

/-- A read is followed if the overflow buffer takes it, or the framer gives up at the first
message that it completes. -/
theorem Follows.translate (h : Follows handle r s) (hc : c.length ≤ kMaximumMessageSize)
    (hfi : r.failed = false → r.inputOverflowBuf ≠ [] →
      r.inputOverflowBuf.length + c.length ≤ kMaximumMessageSize ∨
        next handle (r.inputOverflowBuf ++ c) = .fail) :
    Follows handle (r.translateInputData handle c) (s ++ c) := by
  by_cases hf : r.failed
  · rw [translateInputData, if_pos hf]
    refine ⟨?_, ?_, fun hr => absurd hf (by simp [hr])⟩ <;>
      rw [run_append, if_pos (h.failed ▸ hf)]
    · exact h.dispatched
    · exact h.failed
  have hre := h.rest (by simpa using hf)
  have hrun := run_append (F := framer handle) s c
  rw [if_neg (h.failed ▸ hf), ← hre] at hrun
  -- what the loop does with the buffer and the read
  have hl (hle : (r.inputOverflowBuf ++ c).length ≤ kMaximumMessageSize) :
      Follows handle (dispatchLoop handle (r.inputOverflowBuf ++ c).length
        (r.inputOverflowBuf ++ c) r.dispatched) (s ++ c) := by
    obtain ⟨hd, hf', hre'⟩ := dispatchLoop_eq_run hle le_rfl r.dispatched
    refine ⟨?_, ?_, fun hr => ?_⟩ <;> rw [hrun]
    · rw [hd, h.dispatched, map_append]
    · exact hf'
    · exact hre' (hf' ▸ hr)
  rw [translateInputData, if_neg hf]
  by_cases he : r.inputOverflowBuf = []
  · rw [if_pos (isEmpty_iff.2 he)]
    rw [he, nil_append] at hl
    exact hl hc
  · rw [if_neg (mt List.isEmpty_iff.1 he)]
    rcases hfi (by simpa using hf) he with hle | hfa
    · rw [if_pos hle]
      exact hl (by rwa [length_append])
    · split
      next hle => exact hl (by rwa [length_append])
      next =>
        rw [run_fail (F := framer handle) hfa] at hrun
        refine ⟨?_, ?_, nofun⟩ <;> rw [hrun]
        simpa using h.dispatched

section

variable (handle)

/-- The messages of a stream, as they are dispatched if it comes byte by byte. -/
def messages (s : List UInt8) : List (List UInt8) := ((framer handle).run s).frames.map Prod.fst

/-- No message that is dispatched comes within a read of the maximal size with that much of
the stream behind its beginning. -/
def Fits (s : List UInt8) : Prop :=
  ∀ done m later, messages handle s = done ++ m :: later →
    m.length + kReadBufferSize ≤ kMaximumMessageSize + 1 ∨
      s.length ≤ done.flatten.length + kMaximumMessageSize

def IsCut (reads : List (List UInt8)) (s : List UInt8) : Prop :=
  (∀ c ∈ reads, c ≠ [] ∧ c.length ≤ kReadBufferSize) ∧ reads.flatten = s

theorem messages_append (s t : List UInt8) :
    ∃ later, messages handle (s ++ t) = messages handle s ++ later := by
  unfold messages
  rw [run_append]
  split
  · exact ⟨[], by simp⟩
  · exact ⟨_, by rw [map_append]⟩

theorem length_eq (s : List UInt8) :
    s.length = (messages handle s).flatten.length + ((framer handle).run s).rest.length := by
  conv_lhs => rw [← flatMap_frames (F := framer handle) s]
  rw [length_append, messages, flatMap_def]

/-- A message by itself, of a size that is not refused, that is handled. -/
structure IsMessage (m : List UInt8) : Prop where
  size : peekNext m = some m.length
  length_le : m.length ≤ kMaximumMessageSize
  handled : handle m = true

theorem follows_nil : Follows handle ⟨[], [], false⟩ [] := by
  have hrun := run_wait (F := framer handle) (s := []) rfl
  exact ⟨by rw [hrun]; rfl, by rw [hrun], fun _ => by rw [hrun]⟩

end

theorem run_flatten {ms : List (List UInt8)} (h : ∀ m ∈ ms, IsMessage handle m) :
    (framer handle).run ms.flatten = ⟨ms.map (·, ()), [], false⟩ := by
  induction ms with
  | nil => exact run_wait (F := framer handle) rfl
  | cons m ms ih =>
    obtain ⟨hm, hms⟩ := forall_mem_cons.1 h
    have hone : next handle m = .frame m.length () :=
      next_eq_frame.2 ⟨hm.size, hm.length_le, le_rfl, by rw [take_length]; exact hm.handled⟩
    have hnext := (framer handle).frame_take m ms.flatten _ _ hone
    rw [take_length] at hnext
    rw [flatten_cons, run_frame hnext, take_left, drop_left, ih hms, map_cons]

/-- The reader stays with the framer on a stream that fits. -/
theorem Follows.translate_of_fits (h : Follows handle r s) (hc : c.length ≤ kReadBufferSize)
    (hfi : Fits handle (s ++ c ++ t)) :
    Follows handle (r.translateInputData handle c) (s ++ c) := by
  refine h.translate (hc.trans (by decide)) fun hf hne => ?_
  have hr := h.rest hf
  have hw : next handle r.inputOverflowBuf = .wait :=
    hr ▸ next_rest s (h.failed ▸ hf)
  by_cases hle : r.inputOverflowBuf.length + c.length ≤ kMaximumMessageSize
  · exact .inl hle
  refine .inr ?_
  cases hnex : next handle (r.inputOverflowBuf ++ c) with
  | fail => rfl
  | wait =>
    have hlt := length_lt_of_wait hnex
    rw [length_append] at hlt
    omega
  | frame n _ =>
    have hn : r.inputOverflowBuf.length < n := by
      by_contra hn
      have ht := (framer handle).frame_take _ (r.inputOverflowBuf.drop n) n () hnex
      rw [take_append_of_le_length (not_lt.1 hn), take_append_drop] at ht
      exact nomatch hw.symm.trans ht
    have hm : ∃ later, messages handle (s ++ c) =
        messages handle s ++ (r.inputOverflowBuf ++ c).take n :: later := by
      unfold messages
      rw [run_append, if_neg (by simp [← h.failed, hf]), ← hr, run_frame (F := framer handle) hnex]
      exact ⟨_, by rw [map_append, map_cons]⟩
    obtain ⟨later, hl⟩ := hm
    obtain ⟨later', hl'⟩ := messages_append handle (s ++ c) t
    rw [hl, append_assoc _ (_ :: _), cons_append] at hl'
    have hfit := hfi _ _ _ hl'
    have hlen := length_eq handle s
    rw [length_take_of_le ((framer handle).length_le _ n () hnex).2, length_append,
      length_append] at hfit
    rw [← hr] at hlen
    omega

theorem Follows.foldl (h : Follows handle r s) {reads : List (List UInt8)}
    (hr : ∀ c ∈ reads, c.length ≤ kReadBufferSize) (hf : Fits handle (s ++ reads.flatten)) :
    Follows handle (reads.foldl (translateInputData handle) r) (s ++ reads.flatten) := by
  induction reads generalizing r s with
  | nil => simpa using h
  | cons c reads ih =>
    obtain ⟨hc, hr⟩ := forall_mem_cons.1 hr
    rw [flatten_cons, ← append_assoc] at hf ⊢
    exact ih (h.translate_of_fits hc hf) hr hf

theorem Follows.bytes (h : Follows handle r s) (t : List UInt8) :
    Follows handle ((t.map ([·])).foldl (translateInputData handle) r) (s ++ t) := by
  induction t generalizing r s with
  | nil => simpa using h
  | cons b t ih =>
    have hb : Follows handle (r.translateInputData handle [b]) (s ++ [b]) := by
      refine h.translate (by decide : 1 ≤ kMaximumMessageSize) fun hf _ => .inl ?_
      have hw : next handle r.inputOverflowBuf = .wait :=
        h.rest hf ▸ next_rest s (h.failed ▸ hf)
      exact length_lt_of_wait hw
    simpa using ih hb

theorem isCut_bytes (s : List UInt8) : IsCut (s.map ([·])) s :=
  ⟨by simp [kReadBufferSize], flatMap_singleton' s⟩

theorem foldl_of_failed (h : r.failed = true) (reads : List (List UInt8)) :
    reads.foldl (translateInputData handle) r = r := by
  induction reads with
  | nil => rfl
  | cons c reads ih => rw [foldl_cons, translateInputData, if_pos h, ih]

/-- A message that does not fit is cut before its last byte, and the next read is so long that
the overflow buffer must not take it. -/
theorem exists_cut_of_not_fits (h : ¬ Fits handle s) :
    ∃ reads, IsCut reads s ∧ (run handle reads).dispatched ≠ messages handle s := by
  unfold Fits at h
  push Not at h
  obtain ⟨done, m, later, hme, hm, hs⟩ := h
  obtain ⟨fs, fs', hf, rfl, hl⟩ := map_eq_append_iff.1 hme
  obtain ⟨f, fs'', rfl, rfl, -⟩ := map_eq_cons_iff.1 hl
  -- the stream from the message on
  obtain ⟨u, hu⟩ : ∃ u, s = fs.flatMap fst ++ u := by
    refine ⟨f.1 ++ fs''.flatMap fst ++ ((framer handle).run s).rest, ?_⟩
    conv_lhs => rw [← flatMap_frames (F := framer handle) s, hf]
    simp
  have hrun := run_frames_append hf
  have hr : ((framer handle).run u).frames = f :: fs'' := by
    have := congrArg Taken.frames (hrun u)
    rw [← hu, hf] at this
    exact (append_cancel_left this).symm
  rw [← flatMap_def, hu, length_append] at hs
  cases hne : next handle u with
  | wait => simp [run_wait (F := framer handle) hne] at hr
  | fail => simp [run_fail (F := framer handle) hne] at hr
  | frame n _ =>
    obtain ⟨hp, hmax, hn, -⟩ := next_eq_frame.1 hne
    have hh := (peekNext_eq_some hp).2
    have hsi : headerSize = 20 := rfl
    rw [run_frame (F := framer handle) hne, List.cons.injEq] at hr
    rw [← hr.1, length_take_of_le hn] at hm
    have hw : (framer handle).run (fs.flatMap fst ++ u.take (n - 1)) =
        ⟨fs, u.take (n - 1), false⟩ := by
      rw [hrun, run_wait (F := framer handle) (next_take_of_frame hne (by omega))]
      simp
    have hfo := (follows_nil handle).bytes (fs.flatMap fst ++ u.take (n - 1))
    have hle := length_take_of_le (show n - 1 ≤ u.length by omega)
    have hc : ((u.drop (n - 1)).take (kMaximumMessageSize + 2 - n)).length =
        kMaximumMessageSize + 2 - n := by
      rw [length_take, length_drop]
      omega
    refine ⟨(fs.flatMap fst ++ u.take (n - 1)).map ([·]) ++
      (u.drop (n - 1)).take (kMaximumMessageSize + 2 - n) ::
        ((u.drop (n - 1)).drop (kMaximumMessageSize + 2 - n)).map ([·]), ⟨?_, ?_⟩, ?_⟩
    · refine forall_mem_append.2 ⟨(isCut_bytes _).1,
        forall_mem_cons.2 ⟨⟨fun hnil => ?_, by omega⟩, (isCut_bytes _).1⟩⟩
      rw [hnil, length_nil] at hc
      omega
    · rw [flatten_append, flatten_cons, (isCut_bytes _).2, (isCut_bytes _).2,
        take_append_drop, append_assoc, take_append_drop, hu]
    · rw [run, foldl_append, hfo.eq hw, foldl_cons, translateInputData, if_neg Bool.false_ne_true,
        if_neg, if_neg (by dsimp only; omega), foldl_of_failed rfl, hme]
      · simp
      · rw [isEmpty_iff_length_eq_zero]
        dsimp only
        omega

theorem not_fits_of_frame (h : next handle s = .frame n ())
    (hn : kMaximumMessageSize + 1 < n + kReadBufferSize) (hs : kMaximumMessageSize < s.length) :
    ¬ Fits handle s := by
  intro hfi
  have hf := hfi [] _ _ (congrArg (·.frames.map fst)
    (run_frame (F := framer handle) h))
  rw [length_take_of_le (next_eq_frame.1 h).2.2.1, flatten_nil, length_nil] at hf
  omega

end ChannelReader

open ChannelReader

/-- The verdict on a stream and the messages that are dispatched do not depend on how the
stream is cut into reads exactly if every message fits; and then a stream of messages is accepted
with all of them, however it is cut. -/
theorem translateInputData_cuts_iff (handle : List UInt8 → Bool) (s : List UInt8) :
    ((∀ reads reads', IsCut reads s → IsCut reads' s →
      (run handle reads).dispatched = (run handle reads').dispatched ∧
        (run handle reads).failed = (run handle reads').failed) ↔ Fits handle s) ∧
    ∀ ms, (∀ m ∈ ms, IsMessage handle m) → ms.flatten = s → Fits handle s →
      ∀ reads, IsCut reads s → run handle reads = ⟨[], ms, false⟩ := by
  have hb := (follows_nil handle).bytes s
  refine ⟨⟨?_, ?_⟩, ?_⟩
  · intro h
    by_contra hfi
    obtain ⟨reads, hcut, hne⟩ := exists_cut_of_not_fits hfi
    exact hne ((h reads _ hcut (isCut_bytes s)).1.trans hb.dispatched)
  · rintro hfi reads reads' ⟨hr, rfl⟩ ⟨hr', heq⟩
    have hf := (follows_nil handle).foldl (fun c hc => (hr c hc).2) hfi
    have hf' := (follows_nil handle).foldl (fun c hc => (hr' c hc).2) (heq ▸ hfi)
    rw [heq] at hf'
    exact ⟨hf.dispatched.trans hf'.dispatched.symm, hf.failed.trans hf'.failed.symm⟩
  · rintro ms hms hs hfi reads ⟨hr, hflat⟩
    have hf := (follows_nil handle).foldl (fun c hc => (hr c hc).2) (hflat ▸ hfi)
    rw [nil_append, hflat, ← hs] at hf
    refine (hf.eq (run_flatten hms)).trans ?_
    rw [List.map_map, show fst ∘ (fun m : List UInt8 => (m, ())) = id from rfl, List.map_id]

/-- Two messages without payload, cut inside of the second header. -/
theorem translateInputData_cuts_headers :
    run (fun _ => true) [List.replicate 25 0, List.replicate 15 0] =
      ⟨[], [List.replicate 20 0, List.replicate 20 0], false⟩ := by
  have hmsg : IsMessage (fun _ => true) (List.replicate 20 0) := ⟨rfl, by decide, rfl⟩
  refine (translateInputData_cuts_iff _ (List.replicate 40 0)).2 _ (by simpa using hmsg) rfl
    (fun done m later _ => .inr ?_) _ ⟨by decide, rfl⟩
  exact Nat.le_add_left_of_le (by decide)

def fullMessages : List UInt8 :=
  [0xEC, 0xFF, 0xFF, 0x07] ++ List.replicate (kMaximumMessageSize + 16) 0

/-- Whether the two messages are dispatched depends on the cut. -/
theorem fullMessages_cuts_differ : ∃ reads reads', IsCut reads fullMessages ∧
    IsCut reads' fullMessages ∧
      (run (fun _ => true) reads).dispatched ≠ (run (fun _ => true) reads').dispatched := by
  have hl : fullMessages.length = kMaximumMessageSize + 20 := by
    rw [fullMessages, length_append, length_replicate]
    rfl
  have hp : peekNext fullMessages = some kMaximumMessageSize := by
    rw [peekNext_of_length (by rw [hl]; exact Nat.le_add_left ..), fullMessages,
      take_append_of_le_length (by decide)]
    rfl
  have hn : next (fun _ => true) fullMessages = .frame kMaximumMessageSize () :=
    next_eq_frame.2 ⟨hp, le_rfl, by omega, rfl⟩
  obtain ⟨reads, hcut, hne⟩ := exists_cut_of_not_fits
    (not_fits_of_frame hn (by decide) (by omega))
  exact ⟨reads, _, hcut, isCut_bytes _,
    fun h => hne (h.trans ((follows_nil _).bytes fullMessages).dispatched)⟩

end ChromiumBase.Ipc
