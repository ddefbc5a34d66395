import ChromiumBase.Net.WebSockets.Frame

/-!
# The WebSocket frame parser

`WebSocketFrameParser::Decode` (`net/websockets/websocket_frame_parser.cc`), which is
given the bytes of a connection buffer by buffer. Over it stands a parser that takes
one byte at a time: `Decode` of a buffer does what the bytes of the buffer do one after
the other, up to how the payload of a frame is divided into chunks. So the chunks,
joined frame by frame, depend on the bytes alone.
-/

open List

namespace ChromiumBase.WebSocket

structure FrameChunk where
  header : Option FrameHeader
  finalChunk : Bool
  payload : List UInt8
  deriving DecidableEq

/-- `WebSocketFrameParser`. No error stands for `kWebSocketNormalClosure`. -/
structure FrameParser where
  incompleteHeaderBuffer : List UInt8 := []
  currentFrameHeader : Option FrameHeader := none
  frameOffset : ℕ := 0
  websocketError : Option WebSocketError := none

namespace FrameParser

/-- `DecodeFramePayload` for the current header: the chunk, the parser and the data
that is left. -/
def decodeFramePayload (firstChunk : Bool) (header : FrameHeader) (parser : FrameParser)
    (data : List UInt8) : FrameChunk × FrameParser × List UInt8 :=
  let chunkDataSize := min data.length (header.payloadLength - parser.frameOffset)
  let frameOffset := parser.frameOffset + chunkDataSize
  let chunk : FrameChunk :=
    { header := if firstChunk then some header else none
      finalChunk := frameOffset = header.payloadLength
      payload := data.take chunkDataSize }
  let parser :=
    if frameOffset = header.payloadLength then
      { parser with currentFrameHeader := none, frameOffset := 0 }
    else
      { parser with frameOffset }
  (chunk, parser, data.drop chunkDataSize)

/-- The loop of `Decode`: the parser, the chunks and the result. Every round but a first
one with `firstChunk` takes some of the data, so the length of the data and one is a
bound for the rounds. -/
def decodeLoop : ℕ → Bool → FrameParser → List UInt8 → FrameParser × List FrameChunk × Bool
  | 0, _, parser, _ => (parser, [], true)
  | rounds + 1, firstChunk, parser, data =>
    if data = [] ∧ firstChunk = false then
      (parser, [], true)
    else
      match parser.currentFrameHeader with
      | some header =>
        let (chunk, parser, data) := decodeFramePayload firstChunk header parser data
        let (parser, chunks, result) := decodeLoop rounds false parser data
        (parser, chunk :: chunks, result)
      | none =>
        match decodeFrameHeader data with
        | .failed error => ({ parser with websocketError := some error }, [], false)
        | .incomplete =>
          ({ parser with
              incompleteHeaderBuffer := parser.incompleteHeaderBuffer ++ data }, [], true)
        | .decoded header consumed =>
          let (chunk, parser, data) := decodeFramePayload true header
            { parser with currentFrameHeader := some header } (data.drop consumed)
          let (parser, chunks, result) := decodeLoop rounds false parser data
          (parser, chunk :: chunks, result)

def decode (parser : FrameParser) (data : List UInt8) : FrameParser × List FrameChunk × Bool :=
  if parser.websocketError.isSome then
    (parser, [], false)
  else if data = [] then
    (parser, [], true)
  else if parser.incompleteHeaderBuffer ≠ [] then
    let originalSize := parser.incompleteHeaderBuffer.length
    let buffer := parser.incompleteHeaderBuffer ++
      data.take (min data.length (kMaximumFrameHeaderSize - originalSize))
    match decodeFrameHeader buffer with
    | .failed error =>
      ({ parser with incompleteHeaderBuffer := buffer, websocketError := some error }, [], false)
    | .incomplete => ({ parser with incompleteHeaderBuffer := buffer }, [], true)
    | .decoded header consumed =>
      let data := data.drop (consumed - originalSize)
      decodeLoop (data.length + 1) true
        { parser with incompleteHeaderBuffer := [], currentFrameHeader := some header } data
  else
    decodeLoop (data.length + 1) false parser data

/-- `Decode` of one buffer after the other: the parser, all chunks, and whether every
call returned `true`. -/
def decodeAll : FrameParser → List (List UInt8) → FrameParser × List FrameChunk × Bool
  | parser, [] => (parser, [], true)
  | parser, data :: buffers =>
    let (parser, chunks, result) := parser.decode data
    let (parser, chunks', result') := decodeAll parser buffers
    (parser, chunks ++ chunks', result && result')

end FrameParser

/-- A frame put together from its chunks, with the number of final chunks; chunks in front of
the first header make a frame without one. -/
structure JoinedFrame where
  header : Option FrameHeader
  payload : List UInt8
  finalChunks : ℕ
  deriving DecidableEq

/-- Adds a chunk to the frames so far, the last of which comes first. -/
def joinChunk : List JoinedFrame → FrameChunk → List JoinedFrame
  | frames, ⟨some header, finalChunk, payload⟩ =>
    ⟨some header, payload, finalChunk.toNat⟩ :: frames
  | ⟨header, payload, finalChunks⟩ :: frames, ⟨none, finalChunk, payload'⟩ =>
    ⟨header, payload ++ payload', finalChunks + finalChunk.toNat⟩ :: frames
  | [], ⟨none, finalChunk, payload⟩ => [⟨none, payload, finalChunk.toNat⟩]

def joinChunks (chunks : List FrameChunk) : List JoinedFrame :=
  (chunks.foldl joinChunk []).reverse

/-- Two lists of chunks that join to the same frames behind any chunks. -/
def SameJoin (chunks chunks' : List FrameChunk) : Prop :=
  ∀ frames, chunks.foldl joinChunk frames = chunks'.foldl joinChunk frames

namespace SameJoin

variable {chunks₁ chunks₂ chunks₃ chunks₄ : List FrameChunk}

theorem refl (chunks : List FrameChunk) : SameJoin chunks chunks := fun _ => rfl

theorem symm (h : SameJoin chunks₁ chunks₂) : SameJoin chunks₂ chunks₁ :=
  fun frames => (h frames).symm

theorem trans (h : SameJoin chunks₁ chunks₂) (h' : SameJoin chunks₂ chunks₃) :
    SameJoin chunks₁ chunks₃ := fun frames => (h frames).trans (h' frames)

theorem append (h : SameJoin chunks₁ chunks₂) (h' : SameJoin chunks₃ chunks₄) :
    SameJoin (chunks₁ ++ chunks₃) (chunks₂ ++ chunks₄) := by
  intro frames
  rw [foldl_append, foldl_append, h frames, h']

theorem joinChunks_eq (h : SameJoin chunks₁ chunks₂) : joinChunks chunks₁ = joinChunks chunks₂ := by
  rw [joinChunks, joinChunks, h]

theorem split (header : Option FrameHeader) (finalChunk : Bool) (payload payload' : List UInt8) :
    SameJoin [⟨header, finalChunk, payload ++ payload'⟩]
      [⟨header, false, payload⟩, ⟨none, finalChunk, payload'⟩] := by
  intro frames
  cases header with
  | some header => simp [joinChunk]
  | none =>
    cases frames with
    | nil => simp [joinChunk]
    | cons frame frames => simp [joinChunk]

end SameJoin

inductive Stage where
  | header (buffer : List UInt8)
  | payload (header : FrameHeader) (frameOffset : ℕ)
  | failed (error : WebSocketError)
  deriving DecidableEq

namespace Stage

def after (header : FrameHeader) (frameOffset : ℕ) : Stage :=
  if frameOffset = header.payloadLength then .header [] else .payload header frameOffset

/-- One byte: the next stage and the chunks of the byte. A header gives a chunk without
payload as soon as it is complete. -/
def feedByte : Stage → UInt8 → Stage × List FrameChunk
  | failed error, _ => (failed error, [])
  | header buffer, b =>
    match decodeFrameHeader (buffer ++ [b]) with
    | .incomplete => (header (buffer ++ [b]), [])
    | .failed error => (failed error, [])
    | .decoded frameHeader _ =>
      (after frameHeader 0, [⟨some frameHeader, 0 = frameHeader.payloadLength, []⟩])
  | payload frameHeader frameOffset, b =>
    (after frameHeader (frameOffset + 1),
      [⟨none, frameOffset + 1 = frameHeader.payloadLength, [b]⟩])

def feed : Stage → List UInt8 → Stage × List FrameChunk
  | stage, [] => (stage, [])
  | stage, b :: bytes =>
    let (stage, chunks) := stage.feedByte b
    let (stage, chunks') := feed stage bytes
    (stage, chunks ++ chunks')

theorem feed_append (stage : Stage) (bytes bytes' : List UInt8) : stage.feed (bytes ++ bytes') =
      ((stage.feed bytes).1.feed bytes' |>.1,
        (stage.feed bytes).2 ++ ((stage.feed bytes).1.feed bytes').2) := by
  induction bytes generalizing stage with
  | nil => rfl
  | cons b bytes ih => simp [feed, ih]

@[simp] theorem feed_failed (error : WebSocketError) (bytes : List UInt8) :
    (failed error).feed bytes = (failed error, []) := by
  induction bytes with
  | nil => rfl
  | cons b bytes ih => simp [feed, feedByte, ih]

variable {frameHeader : FrameHeader} {bytes buffer : List UInt8}

/-- Bytes of a payload, one by one, join to one chunk. -/
theorem feed_payload {frameOffset : ℕ} (hne : bytes ≠ [])
    (hle : frameOffset + bytes.length ≤ frameHeader.payloadLength) :
    ((payload frameHeader frameOffset).feed bytes).1 =
        after frameHeader (frameOffset + bytes.length) ∧
      SameJoin [⟨none, frameOffset + bytes.length = frameHeader.payloadLength, bytes⟩]
        ((payload frameHeader frameOffset).feed bytes).2 := by
  induction bytes generalizing frameOffset with
  | nil => exact absurd rfl hne
  | cons b bytes ih =>
    rw [length_cons] at hle
    cases bytes with
    | nil => exact ⟨rfl, .refl _⟩
    | cons c bytes =>
      rw [length_cons] at hle
      have ha : after frameHeader (frameOffset + 1) =
          payload frameHeader (frameOffset + 1) := if_neg (by omega)
      have hf : decide (frameOffset + 1 = frameHeader.payloadLength) = false :=
        decide_eq_false (by omega)
      have hlen : frameOffset + (b :: c :: bytes).length =
          frameOffset + 1 + (c :: bytes).length := by
        simp only [length_cons]
        omega
      obtain ⟨hs, hj⟩ := ih (by simp)
        (by rw [length_cons]; omega :
          frameOffset + 1 + (c :: bytes).length ≤ frameHeader.payloadLength)
      rw [feed, feedByte, ha, hf, hlen]
      exact ⟨hs, (SameJoin.split none _ [b] (c :: bytes)).trans
        ((SameJoin.refl [_]).append hj)⟩

theorem decodeFrameHeader_next (buffer : List UInt8) (b : UInt8) (bytes : List UInt8) :
    decodeFrameHeader (buffer ++ [b]) = .incomplete ∨
      decodeFrameHeader (buffer ++ [b]) = decodeFrameHeader (buffer ++ b :: bytes) := by
  by_cases h : decodeFrameHeader (buffer ++ [b]) = .incomplete
  · exact .inl h
  · have := bounded_decodeFrameHeader.append _ bytes h
    rw [append_assoc, singleton_append] at this
    exact .inr this.symm

theorem feed_header_incomplete (h : decodeFrameHeader (buffer ++ bytes) = .incomplete) :
    (header buffer).feed bytes = (header (buffer ++ bytes), []) := by
  induction bytes generalizing buffer with
  | nil => rw [append_nil]; rfl
  | cons b bytes ih =>
    have hb : decodeFrameHeader (buffer ++ [b]) = .incomplete := by
      rcases decodeFrameHeader_next buffer b bytes with hb | hb
      · exact hb
      · exact hb.trans h
    rw [append_cons] at h
    simp [feed, feedByte, hb, ih h]

theorem feed_header_failed {error : WebSocketError} (hbu : decodeFrameHeader buffer = .incomplete)
    (h : decodeFrameHeader (buffer ++ bytes) = .failed error) :
    (header buffer).feed bytes = (failed error, []) := by
  induction bytes generalizing buffer with
  | nil =>
    rw [append_nil, hbu] at h
    cases h
  | cons b bytes ih =>
    rcases decodeFrameHeader_next buffer b bytes with hb | hb
    · rw [append_cons] at h
      simp [feed, feedByte, hb, ih hb h]
    · rw [h] at hb
      simp [feed, feedByte, hb]

/-- The bytes up to the end of a header, and what follows it. -/
theorem feed_header_decoded {consumed : ℕ} (hbu : decodeFrameHeader buffer = .incomplete)
    (h : decodeFrameHeader (buffer ++ bytes) = .decoded frameHeader consumed) :
    buffer.length < consumed ∧ (header buffer).feed bytes =
        (((after frameHeader 0).feed (bytes.drop (consumed - buffer.length))).1,
          ⟨some frameHeader, 0 = frameHeader.payloadLength, []⟩ ::
            ((after frameHeader 0).feed (bytes.drop (consumed - buffer.length))).2) := by
  induction bytes generalizing buffer with
  | nil =>
    rw [append_nil, hbu] at h
    cases h
  | cons b bytes ih =>
    rcases decodeFrameHeader_next buffer b bytes with hb | hb
    · rw [append_cons] at h
      obtain ⟨hlt, hf⟩ := ih hb h
      rw [length_append, length_singleton] at hlt
      have hd : consumed - buffer.length = consumed - (buffer ++ [b]).length + 1 := by
        rw [length_append, length_singleton]
        omega
      refine ⟨by omega, ?_⟩
      rw [hd, drop_succ_cons]
      simp [feed, feedByte, hb, hf]
    · rw [h] at hb
      obtain ⟨-, hle, ht⟩ := bounded_decodeFrameHeader.take _ _ _ hb
      rw [length_append, length_singleton] at hle
      -- the bytes before the last one do not suffice
      have hlt : buffer.length < consumed := by
        by_contra hge
        rw [take_append_of_le_length (by omega)] at ht
        have happ := bounded_decodeFrameHeader.append _ (buffer.drop consumed)
          (by rw [ht]; simp)
        rw [take_append_drop, hbu, ht] at happ
        cases happ
      obtain rfl : consumed = buffer.length + 1 := by omega
      simp [feed, feedByte, hb]

end Stage

namespace FrameParser

open Stage (after)

def stage (parser : FrameParser) : Stage :=
  match parser.websocketError with
  | some error => .failed error
  | none =>
    match parser.currentFrameHeader with
    | some header => .payload header parser.frameOffset
    | none => .header parser.incompleteHeaderBuffer

/-- A parser between two calls of `Decode`: without a current header it has an
incomplete one, and with a current header it waits for payload. -/
def WellFormed (parser : FrameParser) : Prop :=
  parser.websocketError = none →
    match parser.currentFrameHeader with
    | some header =>
      parser.incompleteHeaderBuffer = [] ∧ parser.frameOffset < header.payloadLength
    | none =>
      parser.frameOffset = 0 ∧ decodeFrameHeader parser.incompleteHeaderBuffer = .incomplete

structure Reads (result : FrameParser × List FrameChunk × Bool) (opening : List FrameChunk)
    (stage : Stage) (bytes : List UInt8) : Prop where
  wellFormed : result.1.WellFormed
  stage_eq : result.1.stage = (stage.feed bytes).1
  join : SameJoin result.2.1 (opening ++ (stage.feed bytes).2)
  result_eq : result.2.2 = result.1.websocketError.isNone

def opening (firstChunk : Bool) (header : FrameHeader) : List FrameChunk :=
  if firstChunk then [⟨some header, 0 = header.payloadLength, []⟩] else []

/-- A parser with a current header, and no payload yet if its first chunk is due. -/
structure AtPayload (firstChunk : Bool) (parser : FrameParser) (header : FrameHeader) : Prop where
  error : parser.websocketError = none
  header_eq : parser.currentFrameHeader = some header
  buffer : parser.incompleteHeaderBuffer = []
  offset : if firstChunk then parser.frameOffset = 0 else parser.frameOffset < header.payloadLength

structure AtHeader (parser : FrameParser) : Prop where
  error : parser.websocketError = none
  header_eq : parser.currentFrameHeader = none
  buffer : parser.incompleteHeaderBuffer = []
  offset : parser.frameOffset = 0

variable {parser : FrameParser} {frameOffset : ℕ} {result : FrameParser × List FrameChunk × Bool}

theorem AtHeader.stage_eq (h : AtHeader parser) : parser.stage = .header [] := by
  simp [stage, h.error, h.header_eq, h.buffer]

variable {firstChunk : Bool} {data : List UInt8}

theorem AtPayload.stage_eq {header : FrameHeader} (h : AtPayload firstChunk parser header) :
    parser.stage = .payload header parser.frameOffset := by
  simp [stage, h.error, h.header_eq]

theorem at_after {header : FrameHeader} (he : parser.websocketError = none)
    (hh : parser.currentFrameHeader = some header) (hb : parser.incompleteHeaderBuffer = [])
    (hle : frameOffset ≤ header.payloadLength) : let parser' :=
      if frameOffset = header.payloadLength then
        { parser with currentFrameHeader := none, frameOffset := 0 }
      else
        { parser with frameOffset }
    (AtHeader parser' ∨ AtPayload false parser' header) ∧
      parser'.stage = after header frameOffset := by
  unfold Stage.after
  split
  · have h : AtHeader { parser with currentFrameHeader := none, frameOffset := 0 } :=
      ⟨he, rfl, hb, rfl⟩
    exact ⟨.inl h, h.stage_eq⟩
  · have h : AtPayload false { parser with frameOffset } header :=
      ⟨he, hh, hb, by simp; omega⟩
    exact ⟨.inr h, h.stage_eq⟩

/-- Bytes of a payload, from any offset: nothing happens for no bytes. -/
theorem feed_after {header : FrameHeader}
    (hle : frameOffset + bytes.length ≤ header.payloadLength) :
    ((after header frameOffset).feed bytes).1 = after header (frameOffset + bytes.length) ∧
      (bytes ≠ [] → SameJoin [⟨none, frameOffset + bytes.length = header.payloadLength, bytes⟩]
        ((after header frameOffset).feed bytes).2) := by
  by_cases hne : bytes = []
  · subst hne
    exact ⟨rfl, fun h => absurd rfl h⟩
  · have hpos := length_pos_iff.mpr hne
    have ha : after header frameOffset = .payload header frameOffset := if_neg (by omega)
    obtain ⟨hs, hj⟩ := Stage.feed_payload hne hle
    rw [ha]
    exact ⟨hs, fun _ => hj⟩

/-- A chunk is what its bytes give one by one. -/
theorem decodeFramePayload_spec {header : FrameHeader} (h : AtPayload firstChunk parser header)
    (hd : data ≠ [] ∨ firstChunk = true) :
    ∃ chunk parser' n, decodeFramePayload firstChunk header parser data =
        (chunk, parser', data.drop n) ∧
      (firstChunk = false → 0 < n) ∧ (AtHeader parser' ∨ AtPayload false parser' header) ∧
      parser'.stage = ((after header parser.frameOffset).feed (data.take n)).1 ∧
      SameJoin [chunk]
        (opening firstChunk header ++
          ((after header parser.frameOffset).feed (data.take n)).2) := by
  obtain ⟨he, hh, hb, ho⟩ := h
  have hle : parser.frameOffset ≤ header.payloadLength := by
    cases firstChunk with
    | true => rw [if_pos rfl] at ho; omega
    | false => exact (show _ < _ from ho).le
  generalize hn : min data.length (header.payloadLength - parser.frameOffset) = n
  have hlen : (data.take n).length = n := length_take_of_le (by omega)
  obtain ⟨hat, hs⟩ := at_after he hh hb
    (by omega : parser.frameOffset + n ≤ header.payloadLength)
  obtain ⟨hf, hj⟩ := feed_after
    (by omega : parser.frameOffset + (data.take n).length ≤ header.payloadLength)
  rw [hlen] at hf hj
  have hpos : firstChunk = false → 0 < n := by
    rintro rfl
    have hd' : 0 < data.length := length_pos_iff.mpr (by simpa using hd)
    have : parser.frameOffset < header.payloadLength := ho
    omega
  refine ⟨_, _, n, by rw [decodeFramePayload, hn], hpos, hat, by rw [hs, hf], ?_⟩
  cases firstChunk with
  | false =>
    have hne : data.take n ≠ [] := length_pos_iff.mp (by rw [hlen]; exact hpos rfl)
    exact hj hne
  | true =>
    have hz : parser.frameOffset = 0 := ho
    rw [hz] at hj ⊢
    by_cases hne : data.take n = []
    · rw [hne, length_nil] at hlen
      subst hlen
      exact .refl _
    · have hnp := length_pos_iff.mpr hne
      have hfi : decide (0 = header.payloadLength) = false := decide_eq_false (by omega)
      rw [opening, if_pos rfl, hfi]
      exact (SameJoin.split (some header) _ [] (data.take n)).trans
        ((SameJoin.refl [_]).append (hj hne))

theorem Reads.cons {chunk : FrameChunk} {opening : List FrameChunk} {stage : Stage} {n : ℕ}
    (hj : SameJoin [chunk] (opening ++ (stage.feed (bytes.take n)).2))
    (h : Reads result [] (stage.feed (bytes.take n)).1 (bytes.drop n)) :
    Reads (result.1, chunk :: result.2.1, result.2.2) opening stage bytes where
  wellFormed := h.wellFormed
  stage_eq := by
    rw [h.stage_eq, ← take_append_drop n bytes, Stage.feed_append]
    simp
  join := by
    have hf := Stage.feed_append stage (bytes.take n) (bytes.drop n)
    rw [take_append_drop] at hf
    rw [hf, ← append_assoc]
    exact hj.append h.join
  result_eq := h.result_eq

/-- A parser inside the loop of `Decode` whose chunks so far are complete. -/
def Ready (parser : FrameParser) : Prop :=
  AtHeader parser ∨ ∃ header, AtPayload false parser header

theorem decodeFrameHeader_nil : decodeFrameHeader [] = .incomplete := rfl

theorem Ready.wellFormed (h : Ready parser) : parser.WellFormed := by
  intro _
  rcases h with h | ⟨header, h⟩
  · rw [h.header_eq, h.buffer]
    exact ⟨h.offset, decodeFrameHeader_nil⟩
  · rw [h.header_eq]
    exact ⟨h.buffer, h.offset⟩

theorem Ready.error (h : Ready parser) : parser.websocketError = none := by
  rcases h with h | ⟨header, h⟩
  · exact h.error
  · exact h.error

theorem reads_payload {header : FrameHeader} (h : AtPayload firstChunk parser header)
    (hd : data ≠ [] ∨ firstChunk = true)
    {loop : FrameParser → List UInt8 → FrameParser × List FrameChunk × Bool}
    (hl : ∀ parser' n, Ready parser' → (firstChunk = false → 0 < n) →
      Reads (loop parser' (data.drop n)) [] parser'.stage (data.drop n)) :
    Reads
      (let (chunk, parser, data) := decodeFramePayload firstChunk header parser data
       let (parser, chunks, result) := loop parser data
       (parser, chunk :: chunks, result))
      (opening firstChunk header) (after header parser.frameOffset) data := by
  obtain ⟨chunk, parser', n, heq, hpos, hat, hs, hj⟩ := decodeFramePayload_spec h hd
  have hre : Ready parser' := hat.imp id fun h => ⟨header, h⟩
  have hr := hl parser' n hre hpos
  rw [hs] at hr
  rw [heq]
  exact hr.cons hj

theorem reads_nil (h : Ready parser) : Reads (parser, [], true) [] parser.stage [] :=
  ⟨h.wellFormed, rfl, .refl _, by simp [h.error]⟩

theorem Reads.header {header : FrameHeader} {consumed : ℕ}
    (hb : decodeFrameHeader buffer = .incomplete)
    (hh : decodeFrameHeader (buffer ++ data) = .decoded header consumed)
    (h : Reads result (opening true header) (after header 0)
      (data.drop (consumed - buffer.length))) : Reads result [] (.header buffer) data := by
  obtain ⟨-, hf⟩ := Stage.feed_header_decoded hb hh
  refine ⟨h.wellFormed, ?_, ?_, h.result_eq⟩
  · rw [hf]
    exact h.stage_eq
  · rw [hf]
    exact h.join

theorem reads_incomplete (he : parser.websocketError = none) (hh : parser.currentFrameHeader = none)
    (ho : parser.frameOffset = 0) (h : decodeFrameHeader (buffer ++ data) = .incomplete) :
    Reads ({ parser with incompleteHeaderBuffer := buffer ++ data }, [], true) []
      (.header buffer) data := by
  have hf := Stage.feed_header_incomplete h
  refine ⟨fun _ => ?_, ?_, ?_, by simp [he]⟩
  · simp only [hh]
    exact ⟨ho, h⟩
  · simp [stage, he, hh, hf]
  · rw [hf]
    exact .refl _

variable {error : WebSocketError}

theorem reads_failed (he : parser.websocketError = some error)
    (hb : decodeFrameHeader buffer = .incomplete)
    (h : decodeFrameHeader (buffer ++ data) = .failed error) :
    Reads (parser, [], false) [] (.header buffer) data := by
  have hf := Stage.feed_header_failed hb h
  refine ⟨fun h => ?_, ?_, ?_, by simp [he]⟩
  · simp [he] at h
  · simp [stage, he, hf]
  · rw [hf]
    exact .refl _

/-- The loop reads its data as if it came byte by byte. -/
theorem reads_decodeLoop {rounds : ℕ} (hro : data.length ≤ rounds) (h : Ready parser) :
    Reads (decodeLoop rounds false parser data) [] parser.stage data := by
  induction rounds generalizing parser data with
  | zero =>
    obtain rfl : data = [] := length_eq_zero_iff.mp (by omega)
    exact reads_nil h
  | succ rounds ih =>
    by_cases hd : data = []
    · subst hd
      exact reads_nil h
    · have hlen := length_pos_iff.mpr hd
      rw [decodeLoop, if_neg fun h => hd h.1]
      rcases h with h | ⟨header, h⟩
      · simp only [h.header_eq]
        rw [h.stage_eq]
        cases hh : decodeFrameHeader data with
        | incomplete =>
          rw [h.buffer, ← h.header_eq]
          exact reads_incomplete h.error h.header_eq h.offset hh
        | failed error => exact reads_failed rfl decodeFrameHeader_nil hh
        | decoded header consumed =>
          obtain ⟨hpos, -⟩ := Stage.feed_header_decoded decodeFrameHeader_nil hh
          refine Reads.header decodeFrameHeader_nil hh ?_
          have hat : AtPayload true { parser with currentFrameHeader := some header } header :=
            ⟨h.error, rfl, h.buffer, h.offset⟩
          have ha : after header 0 = after header parser.frameOffset := by rw [h.offset]
          rw [ha]
          refine reads_payload hat (.inr rfl) fun parser' n hr _ => ih ?_ hr
          rw [length_drop, length_drop]
          omega
      · simp only [h.header_eq]
        have ha : after header parser.frameOffset = parser.stage := by
          rw [h.stage_eq]
          exact if_neg (show _ < _ from h.offset).ne
        rw [← ha]
        refine reads_payload h (.inl hd) fun parser' n hr hpos => ih ?_ hr
        have := hpos rfl
        rw [length_drop]
        omega

theorem reads_decodeLoop_first {header : FrameHeader} (h : AtPayload true parser header)
    (data : List UInt8) :
    Reads (decodeLoop (data.length + 1) true parser data) (opening true header) (after header 0)
      data := by
  have ho : parser.frameOffset = 0 := h.offset
  have ha : after header 0 = after header parser.frameOffset := by rw [ho]
  rw [decodeLoop, if_neg fun h => Bool.noConfusion h.2, ha]
  simp only [h.header_eq]
  refine reads_payload h (.inr rfl) fun parser' n hr _ => reads_decodeLoop ?_ hr
  rw [length_drop]
  omega

theorem decodeFrameHeader_take (buffer data : List UInt8) : decodeFrameHeader (buffer ++
        data.take (min data.length (kMaximumFrameHeaderSize - buffer.length))) =
      decodeFrameHeader (buffer ++ data) := by
  rcases Nat.lt_or_ge (buffer.length + data.length) kMaximumFrameHeaderSize with hlt | hge
  · rw [take_of_length_le (by omega)]
  · generalize hn : min data.length (kMaximumFrameHeaderSize - buffer.length) = n
    have hc := bounded_decodeFrameHeader.complete (buffer ++ data.take n)
      (by rw [length_append, length_take]; omega)
    have happ := bounded_decodeFrameHeader.append _ (data.drop n) hc
    rw [append_assoc, take_append_drop] at happ
    exact happ.symm

theorem reads_decode_header (he : parser.websocketError = none)
    (hh : parser.currentFrameHeader = none) (ho : parser.frameOffset = 0)
    (hi : decodeFrameHeader parser.incompleteHeaderBuffer = .incomplete)
    (hb : parser.incompleteHeaderBuffer ≠ []) (hda : data ≠ []) :
    Reads (parser.decode data) [] (.header parser.incompleteHeaderBuffer) data := by
  have ht := decodeFrameHeader_take parser.incompleteHeaderBuffer data
  rw [decode, if_neg (by simp [he]), if_neg hda, if_pos hb]
  generalize ha : parser.incompleteHeaderBuffer ++ data.take (min data.length
    (kMaximumFrameHeaderSize - parser.incompleteHeaderBuffer.length)) = buffer at ht
  simp only [ha]
  cases hd : decodeFrameHeader buffer with
  | failed error => exact reads_failed rfl hi (ht.symm.trans hd)
  | incomplete =>
    -- an incomplete header has room for all the data
    have hlt : buffer.length < kMaximumFrameHeaderSize :=
      not_le.mp fun hge => bounded_decodeFrameHeader.complete _ hge hd
    have hall : buffer = parser.incompleteHeaderBuffer ++ data := by
      rw [← ha, length_append, length_take] at hlt
      rw [← ha, take_of_length_le (by omega)]
    rw [hall]
    exact reads_incomplete he hh ho (hall ▸ hd)
  | decoded header consumed =>
    have hat : AtPayload true { parser with
        incompleteHeaderBuffer := [], currentFrameHeader := some header } header :=
      ⟨he, rfl, rfl, ho⟩
    exact Reads.header hi (ht.symm.trans hd) (reads_decodeLoop_first hat _)

/-- A call of `Decode` reads its buffer as the parser that takes bytes one by one. -/
theorem reads_decode (h : parser.WellFormed) (data : List UInt8) :
    Reads (parser.decode data) [] parser.stage data := by
  rcases Option.eq_none_or_eq_some parser.websocketError with he | ⟨error, he⟩
  · by_cases hd : data = []
    · rw [decode, if_neg (by simp [he]), if_pos hd, hd]
      exact ⟨h, rfl, .refl _, by simp [he]⟩
    · have hwf := h he
      rcases Option.eq_none_or_eq_some parser.currentFrameHeader with hh | ⟨header, hh⟩
      · rw [hh] at hwf
        obtain ⟨ho, hi⟩ := hwf
        by_cases hb : parser.incompleteHeaderBuffer = []
        · rw [decode, if_neg (by simp [he]), if_neg hd, if_neg (not_not.mpr hb)]
          exact reads_decodeLoop (by omega) (.inl ⟨he, hh, hb, ho⟩)
        · have hs : parser.stage = .header parser.incompleteHeaderBuffer := by
            simp [stage, he, hh]
          rw [hs]
          exact reads_decode_header he hh ho hi hb hd
      · rw [hh] at hwf
        rw [decode, if_neg (by simp [he]), if_neg hd, if_neg (not_not.mpr hwf.1)]
        exact reads_decodeLoop (by omega) (.inr ⟨header, he, hh, hwf.1, hwf.2⟩)
  · have hs : parser.stage = .failed error := by simp [stage, he]
    rw [decode, if_pos (by simp [he]), hs]
    refine ⟨h, ?_, ?_, by simp [he]⟩
    · rw [Stage.feed_failed, hs]
    · rw [Stage.feed_failed]
      exact .refl _

theorem decodeAll_of_error (he : parser.websocketError = some error) (buffers : List (List UInt8)) :
    (parser.decodeAll buffers).1 = parser := by
  induction buffers with
  | nil => rfl
  | cons data buffers ih =>
    have hd : parser.decode data = (parser, [], false) := by
      rw [decode, if_pos (by simp [he])]
    simp only [decodeAll, hd]
    exact ih

/-- The parser is where the parser byte by byte is, by induction over the buffers. -/
theorem reads_decodeAll (h : parser.WellFormed) (buffers : List (List UInt8)) :
    (parser.decodeAll buffers).1.stage = (parser.stage.feed buffers.flatten).1 ∧
      SameJoin (parser.decodeAll buffers).2.1 (parser.stage.feed buffers.flatten).2 ∧
      (parser.websocketError = none →
        (parser.decodeAll buffers).2.2 = (parser.decodeAll buffers).1.websocketError.isNone) := by
  induction buffers generalizing parser with
  | nil => exact ⟨rfl, .refl _, fun he => by simp [decodeAll, he]⟩
  | cons data buffers ih =>
    have hr := reads_decode h data
    obtain ⟨hs, hj, hre⟩ := ih hr.wellFormed
    rw [hr.stage_eq] at hs hj
    rw [flatten_cons, Stage.feed_append]
    refine ⟨hs, hr.join.append hj, fun _ => ?_⟩
    have hf := hr.result_eq
    simp only [decodeAll]
    rcases Option.eq_none_or_eq_some (parser.decode data).1.websocketError with
      hn | ⟨error, hso⟩
    · rw [hre hn, hf, hn]
      rfl
    · rw [decodeAll_of_error hso, hf, hso]
      rfl

theorem websocketError_of_stage_eq {parser' : FrameParser} (h : parser.stage = parser'.stage) :
    parser.websocketError = parser'.websocketError := by
  have he : ∀ parser : FrameParser, parser.websocketError = match parser.stage with
        | .failed error => some error
        | _ => none := by
    intro parser
    rw [stage]
    cases parser.websocketError with
    | some error => rfl
    | none => cases parser.currentFrameHeader <;> rfl
  rw [he, he, h]

theorem wellFormed_new : WellFormed {} := fun _ => ⟨rfl, rfl⟩

end FrameParser

/-- A frame as it is sent: a header that `WriteWebSocketFrameHeader` has written, and its
payload. -/
structure WrittenFrame where
  header : FrameHeader
  maskingKey : MaskingKey
  bufferSize : ℕ
  headerBytes : List UInt8
  written : writeWebSocketFrameHeader header maskingKey bufferSize = some headerBytes
  payload : List UInt8
  length_payload : payload.length = header.payloadLength
  payloadLength_le : header.payloadLength ≤ 2 ^ 31 - 1

namespace WrittenFrame

def bytes (frame : WrittenFrame) : List UInt8 := frame.headerBytes ++ frame.payload

/-- The frame on the other side: with the masking key in its header, complete, and with
one final chunk. -/
def received (frame : WrittenFrame) : JoinedFrame :=
  ⟨some (frame.header.withKey frame.maskingKey), frame.payload, 1⟩

/-- A frame that was written gives one frame. -/
theorem feed_bytes (frame : WrittenFrame) : ((Stage.header []).feed frame.bytes).1 = .header [] ∧
      SameJoin [⟨some (frame.header.withKey frame.maskingKey), true, frame.payload⟩]
        ((Stage.header []).feed frame.bytes).2 := by
  have hd : decodeFrameHeader ([] ++ (frame.headerBytes ++ frame.payload)) = _ :=
    decodeFrameHeader_write frame.payloadLength_le frame.written frame.payload
  obtain ⟨-, hf⟩ := Stage.feed_header_decoded FrameParser.decodeFrameHeader_nil hd
  generalize hh : frame.header.withKey frame.maskingKey = header at hf ⊢
  have hlen : frame.payload.length = header.payloadLength := by
    rw [← hh, frame.length_payload]
    rfl
  rw [length_nil, Nat.sub_zero, drop_left] at hf
  obtain ⟨hs, hj⟩ := FrameParser.feed_after
    (by omega : 0 + frame.payload.length ≤ header.payloadLength)
  rw [bytes, hf]
  refine ⟨?_, ?_⟩
  · rw [hs, Stage.after, if_pos (by omega)]
  · by_cases hne : frame.payload = []
    · rw [hne, length_nil] at hlen
      rw [hne, ← hlen]
      exact .refl _
    · have hpos := length_pos_iff.mpr hne
      have hfi : decide (0 = header.payloadLength) = false := decide_eq_false (by omega)
      have hl : decide (0 + frame.payload.length = header.payloadLength) = true :=
        decide_eq_true (by omega)
      have hj := hj hne
      rw [hl] at hj
      rw [hfi]
      exact (SameJoin.split (some header) true [] frame.payload).trans
        ((SameJoin.refl [_]).append hj)

theorem feed_flatMap_bytes (frames : List WrittenFrame) :
    ((Stage.header []).feed (frames.flatMap bytes)).1 = .header [] ∧
      ∀ joined, ((Stage.header []).feed (frames.flatMap bytes)).2.foldl joinChunk joined =
        (frames.map received).reverse ++ joined := by
  induction frames with
  | nil => exact ⟨rfl, fun _ => rfl⟩
  | cons frame frames ih =>
    obtain ⟨hs, hj⟩ := frame.feed_bytes
    rw [flatMap_cons, Stage.feed_append, hs]
    refine ⟨ih.1, fun joined => ?_⟩
    rw [foldl_append, ← hj joined, ih.2]
    simp [joinChunk, received]

end WrittenFrame

/-- What frames were written is read back, however their bytes are cut, and of any bytes
the frames and the error do not depend on the cuts. -/
theorem decodeAll_correct : (∀ (frames : List WrittenFrame) (buffers : List (List UInt8)),
      buffers.flatten = frames.flatMap WrittenFrame.bytes →
        (FrameParser.decodeAll {} buffers).2.2 = true ∧
        (FrameParser.decodeAll {} buffers).1.websocketError = none ∧
        joinChunks (FrameParser.decodeAll {} buffers).2.1 = frames.map WrittenFrame.received) ∧
    ∀ buffers buffers' : List (List UInt8), buffers.flatten = buffers'.flatten →
      joinChunks (FrameParser.decodeAll {} buffers).2.1 =
        joinChunks (FrameParser.decodeAll {} buffers').2.1 ∧
      (FrameParser.decodeAll {} buffers).1.websocketError =
        (FrameParser.decodeAll {} buffers').1.websocketError := by
  constructor
  · intro frames buffers hb
    obtain ⟨hs, hj, hr⟩ :=
      FrameParser.reads_decodeAll FrameParser.wellFormed_new buffers
    obtain ⟨hfe, hf⟩ := WrittenFrame.feed_flatMap_bytes frames
    rw [hb] at hs hj
    have he : (FrameParser.decodeAll {} buffers).1.websocketError =
        FrameParser.websocketError {} :=
      FrameParser.websocketError_of_stage_eq (hs.trans hfe)
    refine ⟨by rw [hr rfl, he]; rfl, he, ?_⟩
    rw [hj.joinChunks_eq, joinChunks]
    rw [show FrameParser.stage {} = .header [] from rfl, hf]
    simp
  · intro buffers buffers' hb
    obtain ⟨hs, hj, -⟩ := FrameParser.reads_decodeAll FrameParser.wellFormed_new buffers
    obtain ⟨hs', hj', -⟩ := FrameParser.reads_decodeAll FrameParser.wellFormed_new buffers'
    rw [← hb] at hs' hj'
    exact ⟨(hj.trans hj'.symm).joinChunks_eq,
      FrameParser.websocketError_of_stage_eq (hs.trans hs'.symm)⟩

def WrittenFrame.text : WrittenFrame where
  header := ⟨true, false, false, false, ⟨1, by decide⟩, false, .zero, 2⟩
  maskingKey := .zero
  bufferSize := 2
  headerBytes := [0x81, 0x02]
  written := rfl
  payload := [0x48, 0x69]
  length_payload := rfl
  payloadLength_le := by decide

def WrittenFrame.ping : WrittenFrame where
  header := ⟨true, false, false, false, ⟨9, by decide⟩, true, .zero, 0⟩
  maskingKey := ⟨[1, 2, 3, 4], rfl⟩
  bufferSize := 6
  headerBytes := [0x89, 0x80, 1, 2, 3, 4]
  written := rfl
  payload := []
  length_payload := rfl
  payloadLength_le := by decide

/-- The two frames, cut inside the first payload and inside the masking key. -/
theorem decodeAll_correct_text_ping : joinChunks (FrameParser.decodeAll {}
        [[0x81, 0x02, 0x48], [0x69, 0x89, 0x80, 1], [2, 3, 4]]).2.1 =
      [WrittenFrame.text, WrittenFrame.ping].map WrittenFrame.received ∧
    joinChunks (FrameParser.decodeAll {} [[0x81, 0x02, 0x48], [0x69]]).2.1 =
      joinChunks (FrameParser.decodeAll {} [[0x81, 0x02, 0x48, 0x69]]).2.1 :=
  ⟨(decodeAll_correct.1 [.text, .ping]
      [[0x81, 0x02, 0x48], [0x69, 0x89, 0x80, 1], [2, 3, 4]] rfl).2.2,
    (decodeAll_correct.2 [[0x81, 0x02, 0x48], [0x69]] [[0x81, 0x02, 0x48, 0x69]] rfl).1⟩

end ChromiumBase.WebSocket
