import ChromiumBase.Base.Strings.NumberConversions
import Mathlib.Data.List.DropRight

/-!
# The decoder of the chunked transfer encoding

`HttpChunkedDecoder` (`net/http/http_chunked_decoder.cc`), which takes the framing of
chunks out of the buffers of a response as they come. A line that is not complete at the
end of a buffer is kept for the next one, without a carriage return at its end, and only
lines that are kept in this way are limited in length.

Beside the calls of `FilterBuf` stands a reader of single bytes that never sees the end
of a buffer. Where no line has a stray carriage return and no line that is accepted is too
long, all cuts of a stream are decoded alike: up to the bytes of a call that fails, which
are not returned.
-/

open List Option

namespace ChromiumBase.HttpChunkedDecoder

open NumberConversions

def cr : UInt8 := 0x0d

def lf : UInt8 := 0x0a

def semicolon : UInt8 := 0x3b

def kMaxLineBufLen : ℕ := 16384

def int64Max : ℕ := 2 ^ 63 - 1

def readHexDigits (output : ℕ) : List UInt8 → Option ℕ
  | [] => some output
  | c :: s =>
    (charToDigit 16 c).bind fun newDigit =>
      if output > int64Max / 16 ∨ (output = int64Max / 16 ∧ newDigit > int64Max % 16) then none
      else readHexDigits (output * 16 + newDigit) s

/-- `HexStringToInt64` for a string of digits, the only ones `ParseChunkSize` passes on:
there is no sign, no white space and no `0x` in them. -/
def hexStringToInt64 (s : List UInt8) : Option ℕ :=
  if s = [] then none else readHexDigits 0 s

def parseChunkSize (s : List UInt8) : Option ℕ :=
  let chunkSize := s.rdropWhile (· = 0x20)
  if chunkSize.all fun c => (charToDigit 16 c).isSome then hexStringToInt64 chunkSize else none

/-- `HttpChunkedDecoder`. The lengths, which are `int`s in the source, are numbers. -/
structure Decoder where
  chunkRemaining : ℕ := 0
  lineBuf : List UInt8 := []
  chunkTerminatorRemaining : Bool := false
  reachedLastChunk : Bool := false
  reachedEof : Bool := false
  bytesAfterEof : ℕ := 0
  deriving DecidableEq

def dropCr (line : List UInt8) : List UInt8 :=
  if line.getLast? = some cr then line.dropLast else line

namespace Decoder

/-- What `ScanForChunkRemaining` does with a complete line; nothing is
`ERR_INVALID_CHUNKED_ENCODING`. -/
def endLine (decoder : Decoder) (line : List UInt8) : Option Decoder :=
  if decoder.reachedLastChunk then
    if line ≠ [] then some { decoder with lineBuf := [] }
    else some { decoder with lineBuf := [], reachedEof := true }
  else if decoder.chunkTerminatorRemaining then
    if line ≠ [] then none
    else some { decoder with lineBuf := [], chunkTerminatorRemaining := false }
  else if line ≠ [] then
    match parseChunkSize (line.takeWhile (· ≠ semicolon)) with
    | none => none
    | some chunkRemaining =>
      some { decoder with
        lineBuf := []
        chunkRemaining
        reachedLastChunk := decoder.reachedLastChunk || chunkRemaining = 0 }
  else none

def scanForChunkRemaining (decoder : Decoder) (buf : List UInt8) : Option (Decoder × ℕ) :=
  if lf ∈ buf then
    let line := buf.takeWhile (· ≠ lf)
    (decoder.endLine (decoder.lineBuf ++ dropCr line)).map fun decoder =>
      (decoder, line.length + 1)
  else if decoder.lineBuf.length + (dropCr buf).length > kMaxLineBufLen then none
  else some ({ decoder with lineBuf := decoder.lineBuf ++ dropCr buf }, buf.length)

def takeChunk (decoder : Decoder) (num : ℕ) : Decoder :=
  { decoder with
    chunkRemaining := decoder.chunkRemaining - num
    chunkTerminatorRemaining :=
      decoder.chunkTerminatorRemaining || decoder.chunkRemaining - num = 0 }

def skip (decoder : Decoder) (num : ℕ) : Decoder :=
  { decoder with bytesAfterEof := decoder.bytesAfterEof + num }

/-- The loop of `FilterBuf`: the decoder and the bytes left in the buffer. Every round
takes some of the buffer, so its length bounds the rounds. -/
def filterLoop : ℕ → Decoder → List UInt8 → Option (Decoder × List UInt8)
  | 0, decoder, _ => some (decoder, [])
  | rounds + 1, decoder, buf =>
    if buf = [] then some (decoder, [])
    else if 0 < decoder.chunkRemaining then
      let num := min decoder.chunkRemaining buf.length
      (filterLoop rounds (decoder.takeChunk num) (buf.drop num)).map fun (decoder, body) =>
        (decoder, buf.take num ++ body)
    else if decoder.reachedEof then some (decoder.skip buf.length, [])
    else
      (decoder.scanForChunkRemaining buf).bind fun (decoder, bytesConsumed) =>
        filterLoop rounds decoder (buf.drop bytesConsumed)

/-- A call that fails leaves `reached_eof_` and `bytes_after_eof_` as they were. -/
def filterBuf (decoder : Decoder) (buf : List UInt8) : Option (Decoder × List UInt8) :=
  filterLoop buf.length decoder buf

end Decoder

/-- What the owner of a decoder has seen: the bytes that were returned, whether a call
failed, and the two results about the end. -/
structure Outcome where
  body : List UInt8
  error : Bool
  reachedEof : Bool
  bytesAfterEof : ℕ
  deriving DecidableEq

/-- Calls of `FilterBuf` for one buffer after the other, up to the first that fails. -/
def decodeAll (decoder : Decoder) : List (List UInt8) → Outcome
  | [] => ⟨[], false, decoder.reachedEof, decoder.bytesAfterEof⟩
  | buf :: bufs =>
    match decoder.filterBuf buf with
    | none => ⟨[], true, decoder.reachedEof, decoder.bytesAfterEof⟩
    | some (decoder, body) =>
      let outcome := decodeAll decoder bufs
      { outcome with body := body ++ outcome.body }

namespace Decoder

theorem takeChunk_takeChunk {decoder : Decoder} {m : ℕ} (h : m < decoder.chunkRemaining) (n : ℕ) :
    (decoder.takeChunk m).takeChunk n = decoder.takeChunk (m + n) := by
  have hm : decoder.chunkRemaining - m ≠ 0 := by omega
  simp [takeChunk, hm, Nat.sub_sub]

theorem skip_skip (decoder : Decoder) (m n : ℕ) :
    (decoder.skip m).skip n = decoder.skip (m + n) := by
  simp [skip, Nat.add_assoc]

end Decoder

/-- A decoder in the middle of a buffer, with the bytes of the buffer since the last line
or chunk. -/
structure Scan where
  decoder : Decoder
  piece : List UInt8 := []

namespace Scan

def step (scan : Scan) (b : UInt8) : Option (Scan × List UInt8) :=
  if 0 < scan.decoder.chunkRemaining then
    some (⟨scan.decoder.takeChunk 1, scan.piece⟩, [b])
  else if scan.decoder.reachedEof then some (⟨scan.decoder.skip 1, scan.piece⟩, [])
  else if b = lf then
    (scan.decoder.endLine (scan.decoder.lineBuf ++ dropCr scan.piece)).map fun decoder =>
      (⟨decoder, []⟩, [])
  else some ({ scan with piece := scan.piece ++ [b] }, [])

/-- The body bytes up to an error or the end of the stream, and what is reached there. -/
def read : Scan → List UInt8 → List UInt8 × Option Scan
  | scan, [] => ([], some scan)
  | scan, b :: s =>
    match scan.step b with
    | none => ([], none)
    | some (scan, body) => (body ++ (read scan s).1, (read scan s).2)

def flush (scan : Scan) : Option Decoder :=
  if scan.piece = [] then some scan.decoder
  else if scan.decoder.lineBuf.length + (dropCr scan.piece).length > kMaxLineBufLen then none
  else some { scan.decoder with lineBuf := scan.decoder.lineBuf ++ dropCr scan.piece }

def InLine (scan : Scan) : Prop :=
  scan.decoder.chunkRemaining = 0 ∧ scan.decoder.reachedEof = false

variable {scan : Scan} {decoder : Decoder} {s : List UInt8}

theorem step_of_inLine (h : scan.InLine) (b : UInt8) : scan.step b = if b = lf then
        (scan.decoder.endLine (scan.decoder.lineBuf ++ dropCr scan.piece)).map fun decoder =>
          (⟨decoder, []⟩, [])
      else some ({ scan with piece := scan.piece ++ [b] }, []) := by
  rw [step, if_neg (by simp [h.1]), if_neg (by simp [h.2])]

theorem read_append (scan : Scan) (s t : List UInt8) : scan.read (s ++ t) = match scan.read s with
      | (body, none) => (body, none)
      | (body, some scan') => (body ++ (scan'.read t).1, (scan'.read t).2) := by
  induction s generalizing scan with
  | nil => rfl
  | cons b s ih =>
    rw [cons_append, read, read]
    cases scan.step b with
    | none => rfl
    | some result =>
      simp only [ih]
      rcases result.1.read s with ⟨body, _ | scan'⟩
      · rfl
      · simp

theorem read_piece (h : scan.InLine) (hs : lf ∉ s) :
    scan.read s = ([], some { scan with piece := scan.piece ++ s }) := by
  induction s generalizing scan with
  | nil => simp [read]
  | cons b s ih =>
    obtain ⟨hb, hs⟩ := not_or.mp (mt mem_cons.mpr hs)
    have hn : InLine { scan with piece := scan.piece ++ [b] } := h
    rw [read, step_of_inLine h, if_neg (Ne.symm hb)]
    simp [ih hn hs]

theorem read_line (h : scan.InLine) {line : List UInt8} (hl : lf ∉ line) (s : List UInt8) :
    scan.read (line ++ lf :: s) =
      match scan.decoder.endLine (scan.decoder.lineBuf ++ dropCr (scan.piece ++ line)) with
      | none => ([], none)
      | some decoder => (Scan.mk decoder []).read s := by
  have hn : InLine { scan with piece := scan.piece ++ line } := h
  rw [read_append, read_piece h hl]
  simp only [read, step_of_inLine hn]
  cases scan.decoder.endLine (scan.decoder.lineBuf ++ dropCr (scan.piece ++ line)) with
  | none => rfl
  | some decoder => rfl

theorem read_chunk (hne : s ≠ []) (h : s.length ≤ decoder.chunkRemaining) (piece : List UInt8) :
    (Scan.mk decoder piece).read s = (s, some ⟨decoder.takeChunk s.length, piece⟩) := by
  induction s generalizing decoder with
  | nil => exact absurd rfl hne
  | cons b s ih =>
    rw [length_cons] at h
    rw [read, step, if_pos (by simp only; omega)]
    by_cases hs : s = []
    · subst hs
      rfl
    · have hpos := length_pos_iff.mpr hs
      have hle : s.length ≤ (decoder.takeChunk 1).chunkRemaining := by
        simp only [Decoder.takeChunk]
        omega
      simp only [ih hs hle, singleton_append, length_cons]
      rw [Decoder.takeChunk_takeChunk (by omega), Nat.add_comm]

theorem read_eof (h : decoder.chunkRemaining = 0) (heof : decoder.reachedEof = true)
    (piece s : List UInt8) :
    (Scan.mk decoder piece).read s = ([], some ⟨decoder.skip s.length, piece⟩) := by
  induction s generalizing decoder with
  | nil => rfl
  | cons b s ih =>
    have hn : (Scan.mk (decoder.skip 1) piece).read s = _ := ih h heof
    rw [read, step, if_neg (by simp only; omega), if_pos heof]
    simp only [hn, nil_append, length_cons]
    rw [Decoder.skip_skip, Nat.add_comm]

end Scan

variable {decoder : Decoder} {buf line t : List UInt8} {whole scan : Scan} {b : UInt8}

/-- A call reads the buffer byte by byte and keeps the piece of a line at its end. -/
theorem filterLoop_eq {rounds : ℕ} (hro : buf.length ≤ rounds) : decoder.filterLoop rounds buf =
      match (Scan.mk decoder []).read buf with
      | (_, none) => none
      | (body, some scan) => scan.flush.map fun decoder => (decoder, body) := by
  induction rounds generalizing decoder buf with
  | zero =>
    obtain rfl : buf = [] := length_eq_zero_iff.mp (by omega)
    rfl
  | succ rounds ih =>
    rw [Decoder.filterLoop]
    by_cases hbuf : buf = []
    · subst hbuf
      rfl
    · have hpos := length_pos_iff.mpr hbuf
      rw [if_neg hbuf]
      by_cases hc : 0 < decoder.chunkRemaining
      · generalize hnum : min decoder.chunkRemaining buf.length = num
        have ht : (buf.take num).length = num := length_take_of_le (by omega)
        have hr := Scan.read_append ⟨decoder, []⟩ (buf.take num) (buf.drop num)
        have hne : buf.take num ≠ [] := length_pos_iff.mp (by omega)
        rw [Scan.read_chunk hne (by omega), take_append_drop, ht] at hr
        have hre : (buf.drop num).length ≤ rounds := by
          rw [length_drop]
          omega
        rw [if_pos hc, hr]
        simp only [ih hre]
        rcases (Scan.mk (decoder.takeChunk num) []).read (buf.drop num) with ⟨body, _ | scan⟩
        · rfl
        · simp only [Option.map_map]
          rfl
      · rw [if_neg hc]
        by_cases heof : decoder.reachedEof = true
        · rw [if_pos heof, Scan.read_eof (by omega) heof]
          rfl
        · have hl : (Scan.mk decoder []).InLine := ⟨by simp only; omega, by simpa using heof⟩
          rw [if_neg heof, Decoder.scanForChunkRemaining]
          by_cases hlf : lf ∈ buf
          · obtain ⟨line, s, rfl, hnot⟩ := eq_append_cons_of_mem hlf
            have ht : (line ++ lf :: s).takeWhile (· ≠ lf) = line := by
              have hall : ∀ b ∈ line, decide (b ≠ lf) = true := by
                rintro b hb
                exact decide_eq_true fun h => hnot (h ▸ hb)
              rw [takeWhile_append_of_pos hall]
              simp
            rw [if_pos hlf, Scan.read_line hl hnot, ht, nil_append]
            simp only
            rw [length_append, length_cons] at hro
            cases decoder.endLine (decoder.lineBuf ++ dropCr line) with
            | none => rfl
            | some decoder =>
              have hdr : (line ++ lf :: s).drop (line.length + 1) = s := by
                rw [append_cons, drop_left' (by simp)]
              simp only [map_some, bind_some, hdr]
              exact ih (by omega)
          · rw [if_neg hlf, Scan.read_piece hl hlf, nil_append]
            simp only [Scan.flush]
            split
            · rfl
            · have hd : ∀ decoder : Decoder,
                  decoder.filterLoop rounds [] = some (decoder, []) := fun decoder =>
                (ih (by simp)).trans rfl
              simp only [bind_some, drop_length, hd, map_some]

theorem filterBuf_eq (decoder : Decoder) (buf : List UInt8) : decoder.filterBuf buf =
      match (Scan.mk decoder []).read buf with
      | (_, none) => none
      | (body, some scan) => scan.flush.map fun decoder => (decoder, body) :=
  filterLoop_eq le_rfl

/-- The second list is the first one without some of its carriage returns. -/
inductive Dropped : List UInt8 → List UInt8 → Prop
  | nil : Dropped [] []
  | keep (b : UInt8) {s t : List UInt8} : Dropped s t → Dropped (b :: s) (b :: t)
  | drop {s t : List UInt8} : Dropped s t → Dropped (cr :: s) t

namespace Dropped

theorem refl : ∀ s, Dropped s s
  | [] => nil
  | b :: s => keep b (refl s)

variable {s : List UInt8}

variable (h : Dropped s t)

include h

theorem append {s' t' : List UInt8} (h' : Dropped s' t') : Dropped (s ++ s') (t ++ t') := by
  induction h with
  | nil => exact h'
  | keep b _ ih => exact keep b ih
  | drop _ ih => exact drop ih

theorem trans {u : List UInt8} (h' : Dropped t u) : Dropped s u := by
  induction h generalizing u with
  | nil => exact h'
  | keep b _ ih =>
    cases h' with
    | keep _ h' => exact keep b (ih h')
    | drop h' => exact drop (ih h')
  | drop _ ih => exact drop (ih h')

theorem length_le : t.length ≤ s.length := by
  induction h with
  | nil => exact le_rfl
  | keep b _ ih => exact Nat.succ_le_succ ih
  | drop _ ih => exact Nat.le_succ_of_le ih

theorem length_filter_le : (s.filter (· ≠ cr)).length ≤ t.length := by
  induction h with
  | nil => exact le_rfl
  | keep b _ ih =>
    rw [filter_cons]
    split
    · exact Nat.succ_le_succ ih
    · exact Nat.le_succ_of_le ih
  | drop _ ih => simpa using ih

theorem mem (hb : b ∈ s) (hne : b ≠ cr) : b ∈ t := by
  induction h with
  | nil => exact hb
  | keep c _ ih =>
    rcases mem_cons.mp hb with rfl | hb
    · exact mem_cons_self
    · exact mem_cons_of_mem c (ih hb)
  | drop _ ih =>
    rcases mem_cons.mp hb with rfl | hb
    · exact absurd rfl hne
    · exact ih hb

theorem takeWhile_eq (hcr : cr ∉ s.takeWhile (· ≠ semicolon)) :
    t.takeWhile (· ≠ semicolon) = s.takeWhile (· ≠ semicolon) := by
  induction h with
  | nil => rfl
  | keep b _ ih =>
    rw [takeWhile_cons] at hcr ⊢
    rw [takeWhile_cons]
    split at hcr
    · rw [ih fun h => hcr (mem_cons_of_mem b h)]
    · rw [if_neg ‹_›, if_neg ‹_›]
  | drop _ ih => simp [cr, semicolon] at hcr

end Dropped

theorem dropCr_append (h : t ≠ []) (s : List UInt8) : dropCr (s ++ t) = s ++ dropCr t := by
  rw [dropCr, dropCr, getLast?_append_of_ne_nil s h, dropLast_append_of_ne_nil h]
  split <;> rfl

theorem dropped_dropCr (s : List UInt8) : Dropped s (dropCr s) := by
  rw [dropCr]
  split
  · rename_i h
    obtain ⟨t, rfl⟩ := getLast?_eq_some_iff.mp h
    simpa using (Dropped.refl t).append (.drop .nil)
  · exact .refl s

theorem length_dropCr_le_append (s t : List UInt8) :
    (dropCr s).length ≤ (dropCr (s ++ t)).length := by
  by_cases h : t = []
  · rw [h, append_nil]
  · rw [dropCr_append h, length_append]
    exact Nat.le_add_right_of_le (dropped_dropCr s).length_le

variable {s : List UInt8}

theorem Dropped.content {buffered : List UInt8} (h : Dropped (dropCr s) buffered)
    (piece : List UInt8) : Dropped (dropCr (s ++ piece)) (buffered ++ dropCr piece) := by
  by_cases hp : piece = []
  · subst hp
    simpa [dropCr] using h
  · rw [dropCr_append hp]
    exact ((dropped_dropCr s).trans h).append (.refl _)

/-- A line without a stray carriage return: in the chunk size there is none, and a line
that is not empty has another byte. -/
def Unstrayed (decoder : Decoder) (line : List UInt8) : Prop :=
  if decoder.reachedLastChunk ∨ decoder.chunkTerminatorRemaining then
    dropCr line = [] ∨ ∃ b ∈ dropCr line, b ≠ cr
  else cr ∉ (dropCr line).takeWhile (· ≠ semicolon)

/-- A stream, read from a decoder and the bytes of a line so far, in which no line has a
stray carriage return and every line that is accepted has at most `kMaxLineBufLen` bytes.
If a last line that is not complete is longer, this is not due to carriage returns. What
follows an error or the end does not matter. -/
def Regular (scan : Scan) : List UInt8 → Prop
  | [] => (dropCr scan.piece).length ≤ kMaxLineBufLen ∨
      kMaxLineBufLen < (scan.piece.filter (· ≠ cr)).length
  | b :: s =>
    if 0 < scan.decoder.chunkRemaining then Regular ⟨scan.decoder.takeChunk 1, scan.piece⟩ s
    else if scan.decoder.reachedEof then True
    else if b = lf then
      Unstrayed scan.decoder scan.piece ∧
        ∀ decoder ∈ scan.decoder.endLine (dropCr scan.piece),
          (dropCr scan.piece).length ≤ kMaxLineBufLen ∧ Regular ⟨decoder, []⟩ s
    else Regular ⟨scan.decoder, scan.piece ++ [b]⟩ s

instance (decoder : Decoder) (line : List UInt8) : Decidable (Unstrayed decoder line) :=
  inferInstanceAs (Decidable (ite _ _ _))

instance Regular.decidable : (scan : Scan) → (s : List UInt8) → Decidable (Regular scan s)
  | _, [] => inferInstanceAs (Decidable (_ ∨ _))
  | _, _ :: s =>
    have := fun scan => Regular.decidable scan s
    inferInstanceAs (Decidable (ite _ _ _))

theorem regular_eof (h : decoder.chunkRemaining = 0) (heof : decoder.reachedEof = true)
    (s : List UInt8) : Regular ⟨decoder, []⟩ s := by
  cases s with
  | nil => exact .inl (by simp [dropCr])
  | cons b s =>
    rw [Regular, if_neg (by simp only; omega), if_pos heof]
    trivial

/-- The line feed of a line without stray carriage returns does the same for the line and
for what is left of it. -/
theorem endLine_of_dropped {content : List UInt8} (h : Unstrayed decoder line)
    (hco : Dropped (dropCr line) content) (lineBuf : List UInt8) :
    Decoder.endLine { decoder with lineBuf } content = decoder.endLine (dropCr line) := by
  rw [Unstrayed] at h
  have hnil : dropCr line = [] → content = [] := by
    intro hl
    have hle := hco.length_le
    rw [hl] at hle
    exact length_eq_zero_iff.mp (Nat.le_zero.mp hle)
  by_cases he : decoder.reachedLastChunk ∨ decoder.chunkTerminatorRemaining
  · rw [if_pos he] at h
    have hiff : content = [] ↔ dropCr line = [] := by
      refine ⟨fun hc => ?_, hnil⟩
      rcases h with h | ⟨b, hb, hne⟩
      · exact h
      · exact absurd (hco.mem hb hne) (by simp [hc])
    rcases he with hla | ht
    · simp [Decoder.endLine, hla, hiff]
    · simp [Decoder.endLine, ht, hiff]
  · rw [if_neg he] at h
    have hs := hco.takeWhile_eq h
    have hiff : content = [] ↔ dropCr line = [] := by
      refine ⟨fun hc => ?_, hnil⟩
      -- a chunk size that starts with a dropped byte would start with a carriage return
      subst hc
      cases hl : dropCr line with
      | nil => rfl
      | cons b s =>
        rw [hl] at hco h
        cases hco with
        | drop _ => simp [cr, semicolon] at h
    simp only [Decoder.endLine, hs, ne_eq, hiff]

/-- The error of a stream: at a line, or because its last line is too long. -/
def Fails (scan : Scan) (s : List UInt8) : Prop :=
  match (scan.read s).2 with
  | none => True
  | some scan => scan.flush = none

theorem fails_append {scan' : Scan} {body : List UInt8} (h : scan.read s = (body, some scan')) :
    Fails scan (s ++ t) ↔ Fails scan' t := by
  rw [Fails, Fails, Scan.read_append, h]

theorem fails_of_long (h : Regular scan s) (hl : scan.InLine) (hbuf : scan.decoder.lineBuf = [])
    (hlo : kMaxLineBufLen < (dropCr scan.piece).length) : Fails scan s := by
  induction s generalizing scan with
  | nil =>
    have hne : scan.piece ≠ [] := by
      rintro hp
      rw [hp] at hlo
      exact absurd hlo (by simp [dropCr])
    simp only [Fails, Scan.read, Scan.flush]
    rw [if_neg hne, if_pos (by rw [hbuf, length_nil]; omega)]
  | cons b s ih =>
    rw [Regular, if_neg (by simp [hl.1]), if_neg (by simp [hl.2])] at h
    simp only [Fails, Scan.read, Scan.step_of_inLine hl]
    by_cases hb : b = lf
    · rw [if_pos hb] at h ⊢
      have hend : scan.decoder.endLine (dropCr scan.piece) = none := by
        rcases eq_none_or_eq_some (scan.decoder.endLine (dropCr scan.piece)) with
          hn | ⟨decoder, hs⟩
        · exact hn
        · exact absurd (h.2 decoder hs).1 (by omega)
      rw [hbuf, nil_append, hend]
      trivial
    · rw [if_neg hb] at h ⊢
      have hlon := length_dropCr_le_append scan.piece [b]
      exact ih h hl hbuf (by simp only; omega)

/-- A scan with cuts behind one without: the line buffer and the piece are the line, but
for carriage returns that were dropped. -/
structure Follows (whole scan : Scan) : Prop where
  lineBuf_nil : whole.decoder.lineBuf = []
  decoder_eq : scan.decoder = { whole.decoder with lineBuf := scan.decoder.lineBuf }
  dropped : ∃ line, whole.piece = line ++ scan.piece ∧
    Dropped (dropCr line) scan.decoder.lineBuf
  length_le : scan.decoder.lineBuf.length ≤ kMaxLineBufLen
  piece_nil : ¬ whole.InLine → whole.piece = []
  bytesAfterEof_zero : whole.decoder.reachedEof = false → whole.decoder.bytesAfterEof = 0
  chunkRemaining_zero : whole.decoder.reachedEof = true → whole.decoder.chunkRemaining = 0

theorem endLine_spec {decoder' : Decoder} (h : decoder.endLine line = some decoder')
    (hc : decoder.chunkRemaining = 0) (heof : decoder.reachedEof = false) :
    decoder'.lineBuf = [] ∧ decoder'.bytesAfterEof = decoder.bytesAfterEof ∧
      (decoder'.reachedEof = true → decoder'.chunkRemaining = 0) := by
  rw [Decoder.endLine] at h
  split_ifs at h
  · cases h
    exact ⟨rfl, rfl, fun _ => hc⟩
  · cases h
    exact ⟨rfl, rfl, fun _ => hc⟩
  · cases h
    exact ⟨rfl, rfl, fun _ => hc⟩
  · split at h
    · cases h
    · cases h
      exact ⟨rfl, rfl, fun h => absurd (heof.symm.trans h) (by decide)⟩

namespace Follows

section

variable (h : Follows whole scan)

include h

theorem eq_of_not_inLine (hl : ¬ whole.InLine) : scan = whole := by
  obtain ⟨line, hp, hdr⟩ := h.dropped
  rw [h.piece_nil hl, eq_comm, append_eq_nil_iff] at hp
  obtain ⟨rfl, hs⟩ := hp
  have hbuf : scan.decoder.lineBuf = [] :=
    length_eq_zero_iff.mp (Nat.le_zero.mp hdr.length_le)
  have hd := h.decoder_eq
  rw [hbuf, ← h.lineBuf_nil] at hd
  have hw := h.piece_nil hl
  cases scan
  cases whole
  simp_all

theorem chunkRemaining_eq : scan.decoder.chunkRemaining = whole.decoder.chunkRemaining := by
  rw [h.decoder_eq]

theorem reachedEof_eq : scan.decoder.reachedEof = whole.decoder.reachedEof := by rw [h.decoder_eq]

theorem bytesAfterEof_eq : scan.decoder.bytesAfterEof = whole.decoder.bytesAfterEof := by
  rw [h.decoder_eq]

end

theorem of_decoder {decoder : Decoder} (hbuf : decoder.lineBuf = [])
    (ha : decoder.reachedEof = false → decoder.bytesAfterEof = 0)
    (hc : decoder.reachedEof = true → decoder.chunkRemaining = 0) :
    Follows ⟨decoder, []⟩ ⟨decoder, []⟩ where
  lineBuf_nil := hbuf
  decoder_eq := rfl
  dropped := ⟨[], rfl, by rw [hbuf]; exact .nil⟩
  length_le := by simp [hbuf]
  piece_nil := fun _ => rfl
  bytesAfterEof_zero := ha
  chunkRemaining_zero := hc

/-- One byte of a regular stream, read with cuts before it and without. -/
theorem step (h : Follows whole scan) (hr : Regular whole (b :: s)) :
    (whole.step b = none ∧ scan.step b = none) ∨
      ∃ whole' scan' body, whole.step b = some (whole', body) ∧
        scan.step b = some (scan', body) ∧ Follows whole' scan' ∧ Regular whole' s := by
  by_cases hl : whole.InLine
  · rw [Regular, if_neg (by simp [hl.1]), if_neg (by simp [hl.2])] at hr
    obtain ⟨line, hp, hd⟩ := h.dropped
    rw [Scan.step_of_inLine hl,
      Scan.step_of_inLine (by rwa [Scan.InLine, h.chunkRemaining_eq, h.reachedEof_eq])]
    by_cases hb : b = lf
    · rw [if_pos hb] at hr
      rw [if_pos hb, if_pos hb, h.lineBuf_nil, nil_append]
      have hend := endLine_of_dropped hr.1
        (hp ▸ hd.content scan.piece) scan.decoder.lineBuf
      rw [← h.decoder_eq] at hend
      rw [hend]
      cases hre : whole.decoder.endLine (dropCr whole.piece) with
      | none => exact .inl ⟨rfl, rfl⟩
      | some decoder =>
        obtain ⟨hbuf, ha, hc⟩ := endLine_spec hre hl.1 hl.2
        have hz := h.bytesAfterEof_zero hl.2
        exact .inr ⟨_, _, _, rfl, rfl, of_decoder hbuf (fun _ => ha.trans hz) hc,
          (hr.2 decoder hre).2⟩
    · rw [if_neg hb] at hr
      rw [if_neg hb, if_neg hb]
      refine .inr ⟨_, _, _, rfl, rfl, ⟨h.lineBuf_nil, h.decoder_eq, ?_, h.length_le,
        fun hnot => absurd hl hnot, h.bytesAfterEof_zero, h.chunkRemaining_zero⟩, hr⟩
      exact ⟨line, by simp [hp], hd⟩
  · obtain rfl := h.eq_of_not_inLine hl
    obtain ⟨decoder, piece⟩ := scan
    obtain rfl : piece = [] := h.piece_nil hl
    rw [Regular] at hr
    rw [Scan.step]
    by_cases hc : 0 < decoder.chunkRemaining
    · rw [if_pos hc] at hr
      rw [if_pos hc]
      have heof : decoder.reachedEof = false := by
        by_contra heof
        have := h.chunkRemaining_zero (by simpa using heof)
        simp only at this
        omega
      exact .inr ⟨_, _, _, rfl, rfl, of_decoder h.lineBuf_nil h.bytesAfterEof_zero
          (fun ht => absurd (heof.symm.trans ht) (by decide)), hr⟩
    · have heof : decoder.reachedEof = true := by
        by_contra heof
        exact hl ⟨by simp only; omega, by simpa using heof⟩
      rw [if_neg hc, if_pos heof]
      refine .inr ⟨_, _, _, rfl, rfl, of_decoder h.lineBuf_nil
        (fun hf => absurd (heof.symm.trans hf) (by decide)) h.chunkRemaining_zero, ?_⟩
      have hs : (decoder.skip 1).chunkRemaining = 0 := Nat.eq_zero_of_not_pos hc
      exact regular_eof hs heof s

theorem read {buf : List UInt8} (h : Follows whole scan) (hr : Regular whole (buf ++ s)) :
    (∃ body, whole.read buf = (body, none) ∧ scan.read buf = (body, none)) ∨
      ∃ whole' scan' body, whole.read buf = (body, some whole') ∧
        scan.read buf = (body, some scan') ∧ Follows whole' scan' ∧ Regular whole' s := by
  induction buf generalizing whole scan with
  | nil => exact .inr ⟨_, _, _, rfl, rfl, h, hr⟩
  | cons b buf ih =>
    simp only [Scan.read]
    rcases h.step hr with ⟨hw, hs⟩ | ⟨whole', scan', body, hw, hs, h', hr'⟩
    · rw [hw, hs]
      exact .inl ⟨_, rfl, rfl⟩
    · rw [hw, hs]
      rcases ih h' hr' with ⟨rest, hw, hs⟩ | ⟨whole₂, scan₂, rest, hw, hs, h₂⟩
      · exact .inl ⟨body ++ rest, by simp [hw], by simp [hs]⟩
      · exact .inr ⟨whole₂, scan₂, body ++ rest, by simp [hw], by simp [hs], h₂⟩

/-- The end of a buffer is not noticed, unless it finds a line too long. -/
theorem flush (h : Follows whole scan) (hr : Regular whole s) :
    (scan.flush = none ∧ Fails whole s) ∨
      ∃ decoder, scan.flush = some decoder ∧ Follows whole ⟨decoder, []⟩ := by
  obtain ⟨line, hp, hd⟩ := h.dropped
  rw [Scan.flush]
  by_cases hnil : scan.piece = []
  · rw [if_pos hnil]
    exact .inr ⟨_, rfl, h.lineBuf_nil, h.decoder_eq, ⟨line, by rw [hp, hnil], hd⟩,
      h.length_le, h.piece_nil, h.bytesAfterEof_zero, h.chunkRemaining_zero⟩
  · have hc := hd.content scan.piece
    rw [← hp] at hc
    have hle := hc.length_le
    rw [length_append] at hle
    rw [if_neg hnil]
    split
    · have hl : whole.InLine := by
        by_contra hnot
        have he := h.piece_nil hnot
        rw [hp] at he
        exact hnil (append_eq_nil_iff.mp he).2
      exact .inl ⟨rfl, fails_of_long hr hl h.lineBuf_nil (by omega)⟩
    · refine .inr ⟨_, rfl, h.lineBuf_nil, ?_, ⟨whole.piece, by simp, hc⟩, ?_, h.piece_nil,
        h.bytesAfterEof_zero, h.chunkRemaining_zero⟩
      · rw [h.decoder_eq]
      · simp only [length_append]
        omega

end Follows

structure Agrees (whole : Scan) (s : List UInt8) (outcome : Outcome) : Prop where
  error_iff : outcome.error = true ↔ Fails whole s
  body_isPrefix : outcome.body <+: (whole.read s).1
  clean : outcome.error = false → ∃ scan, whole.read s = (outcome.body, some scan) ∧
    outcome.reachedEof = scan.decoder.reachedEof ∧
    outcome.bytesAfterEof = scan.decoder.bytesAfterEof
  failed : outcome.error = true → outcome.reachedEof = false ∧ outcome.bytesAfterEof = 0

theorem reachedEof_of_filterBuf (h : Follows whole ⟨decoder, []⟩)
    (hfa : decoder.filterBuf buf = none) :
    decoder.reachedEof = false ∧ decoder.bytesAfterEof = 0 := by
  have heof : decoder.reachedEof = whole.decoder.reachedEof := h.reachedEof_eq
  have hc : decoder.chunkRemaining = whole.decoder.chunkRemaining := h.chunkRemaining_eq
  have ha : decoder.bytesAfterEof = whole.decoder.bytesAfterEof := h.bytesAfterEof_eq
  rcases Bool.eq_false_or_eq_true whole.decoder.reachedEof with ht | hf
  · rw [filterBuf_eq, Scan.read_eof (hc.trans (h.chunkRemaining_zero ht)) (heof.trans ht)] at hfa
    cases hfa
  · exact ⟨heof.trans hf, ha.trans (h.bytesAfterEof_zero hf)⟩

theorem not_fails_nil (h : Follows whole ⟨decoder, []⟩) (hr : Regular whole []) :
    ¬ Fails whole [] := by
  obtain ⟨line, hp, hd⟩ := h.dropped
  rw [append_nil] at hp
  have hle : (dropCr whole.piece).length ≤ kMaxLineBufLen := by
    rcases hr with hle | hl
    · exact hle
    · have hfi := ((dropped_dropCr line).trans hd).length_filter_le
      have := h.length_le
      rw [hp] at hl
      omega
  intro hf
  simp only [Fails, Scan.read, Scan.flush, h.lineBuf_nil, length_nil] at hf
  split_ifs at hf
  omega

/-- A regular stream is read alike however it is cut, by induction over the buffers. -/
theorem decodeAll_agrees (h : Follows whole ⟨decoder, []⟩) (bufs : List (List UInt8))
    (hr : Regular whole bufs.flatten) : Agrees whole bufs.flatten (decodeAll decoder bufs) := by
  induction bufs generalizing whole decoder with
  | nil =>
    refine ⟨?_, nil_prefix, fun _ => ⟨whole, rfl, ?_, ?_⟩, fun he => ?_⟩
    · simpa [decodeAll] using not_fails_nil h hr
    · exact h.reachedEof_eq
    · exact h.bytesAfterEof_eq
    · cases he
  | cons buf bufs ih =>
    rw [flatten_cons] at hr ⊢
    -- a failing call returns nothing
    have hfai : decoder.filterBuf buf = none → Fails whole (buf ++ bufs.flatten) →
        Agrees whole (buf ++ bufs.flatten) (decodeAll decoder (buf :: bufs)) := by
      intro hn hfa
      rw [decodeAll, hn]
      refine ⟨by simp [hfa], nil_prefix, fun he => ?_, fun _ =>
        reachedEof_of_filterBuf h hn⟩
      cases he
    have hf := filterBuf_eq decoder buf
    rcases h.read hr with ⟨body, hw, hs⟩ |
      ⟨whole', scan', body, hw, hs, h', hr'⟩
    · rw [hs] at hf
      refine hfai hf ?_
      rw [Fails, Scan.read_append, hw]
      trivial
    · rw [hs] at hf
      rcases h'.flush hr' with ⟨hn, hfa⟩ | ⟨decoder', hso, h''⟩
      · simp only [hn] at hf
        exact hfai hf ((fails_append hw).mpr hfa)
      · simp only [hso] at hf
        obtain ⟨he, hb, hc, hfailed⟩ := ih h'' hr'
        have hre := Scan.read_append whole buf bufs.flatten
        rw [hw] at hre
        rw [decodeAll, hf]
        refine ⟨he.trans (fails_append hw).symm, ?_, fun hfal => ?_, hfailed⟩
        · rw [hre]
          exact (prefix_append_right_inj body).mpr hb
        · obtain ⟨scan, hs, hend⟩ := hc hfal
          simp only [hs] at hre
          exact ⟨scan, hre, hend⟩

/-- Of a regular stream all cuts give the same verdict, end and bytes after the end, and
the same body unless there is an error. The body up to an error stops at the buffer that
has the error. -/
theorem decodeAll_eq_of_regular (s : List UInt8) (hregular : Regular ⟨{}, []⟩ s)
    (bufs bufs' : List (List UInt8)) (hbufs : bufs.flatten = s) (hbufs' : bufs'.flatten = s) :
    let outcome := decodeAll {} bufs
    let outcome' := decodeAll {} bufs'
    outcome.error = outcome'.error ∧ outcome.reachedEof = outcome'.reachedEof ∧
      outcome.bytesAfterEof = outcome'.bytesAfterEof ∧
      (outcome.error = false → outcome.body = outcome'.body) ∧
      (outcome.body <+: outcome'.body ∨ outcome'.body <+: outcome.body) := by
  have hs : Follows ⟨{}, []⟩ ⟨{}, []⟩ :=
    .of_decoder rfl (fun _ => rfl) (fun _ => rfl)
  have h := decodeAll_agrees hs bufs (hbufs ▸ hregular)
  have h' := decodeAll_agrees hs bufs' (hbufs' ▸ hregular)
  rw [hbufs] at h
  rw [hbufs'] at h'
  intro outcome outcome'
  have he : outcome.error = outcome'.error :=
    Bool.eq_iff_iff.mpr (h.error_iff.trans h'.error_iff.symm)
  have hc := prefix_or_prefix_of_prefix h.body_isPrefix h'.body_isPrefix
  cases hf : outcome.error with
  | true =>
    obtain ⟨heof, ha⟩ := h.failed hf
    obtain ⟨heof', ha'⟩ := h'.failed (he ▸ hf)
    exact ⟨he ▸ hf.symm, heof.trans heof'.symm, ha.trans ha'.symm,
      fun hfa => absurd hfa (by decide), hc⟩
  | false =>
    obtain ⟨scan, hr, heof, ha⟩ := h.clean hf
    obtain ⟨scan', hr', heof', ha'⟩ := h'.clean (he ▸ hf)
    rw [hr, Prod.mk.injEq, some.injEq] at hr'
    obtain ⟨hb, rfl⟩ := hr'
    exact ⟨he ▸ hf.symm, heof.trans heof'.symm, ha.trans ha'.symm, fun _ => hb, hc⟩

/-- `3`, three bytes, the last chunk and one more byte, in one buffer and in three. -/
theorem decodeAll_eq_of_regular_abc :
    decodeAll {} [[0x33, 0x0d, 0x0a, 0x61, 0x62, 0x63, 0x0d, 0x0a, 0x30, 0x0d, 0x0a, 0x0d, 0x0a,
        0x78]] = ⟨[0x61, 0x62, 0x63], false, true, 1⟩ ∧
      (decodeAll {} [[0x33, 0x0d], [0x0a, 0x61, 0x62, 0x63, 0x0d, 0x0a, 0x30, 0x0d, 0x0a, 0x0d],
        [0x0a, 0x78]]).body = [0x61, 0x62, 0x63] := by
  have hw : decodeAll {} [[0x33, 0x0d, 0x0a, 0x61, 0x62, 0x63, 0x0d, 0x0a, 0x30, 0x0d, 0x0a,
      0x0d, 0x0a, 0x78]] = ⟨[0x61, 0x62, 0x63], false, true, 1⟩ := by decide
  have h := decodeAll_eq_of_regular _ (by decide)
    [[0x33, 0x0d, 0x0a, 0x61, 0x62, 0x63, 0x0d, 0x0a, 0x30, 0x0d, 0x0a, 0x0d, 0x0a, 0x78]]
    [[0x33, 0x0d], [0x0a, 0x61, 0x62, 0x63, 0x0d, 0x0a, 0x30, 0x0d, 0x0a, 0x0d], [0x0a, 0x78]]
    rfl rfl
  simp only [hw] at h
  exact ⟨hw, (h.2.2.2.1 trivial).symm⟩

/-- A chunk of one byte that is not terminated: its byte is returned if the buffer ends
behind it, and not if the error is in the same buffer. -/
theorem decodeAll_unterminated :
    [[0x31, 0x0a, 0x61, 0x62, 0x0a]].flatten = [[0x31, 0x0a, 0x61], [0x62, 0x0a]].flatten ∧
      (decodeAll {} [[0x31, 0x0a, 0x61, 0x62, 0x0a]]).body = [] ∧
      (decodeAll {} [[0x31, 0x0a, 0x61], [0x62, 0x0a]]).body = [0x61] := by
  decide

end ChromiumBase.HttpChunkedDecoder
