import ChromiumBase.Lib.Tiling

/-!
# Byte ranges from the cache and from the network

`PartialData` (`net/http/partial_data.cc`) takes a byte range that was requested to pieces: what
the sparse cache entry has stored is read from there, what it has not is fetched, and the
transaction of the cache (`net/http/http_cache_transaction.cc`) goes from one piece to the next.

Positions are integers.  They stay between `-1` and the size of the resource, so that no sum
leaves the 64 bits of the source (`Invariant` of the run states the bounds).

What is around is a step relation: `GetAvailableRange` answers with a piece of what is stored,
the server sends the range it is asked for, and the reads return it in pieces of any size.
-/

namespace ChromiumBase.PartialContent

def kPositionNotSpecified : ℤ := -1

structure HttpByteRange where
  firstBytePosition : ℤ := kPositionNotSpecified
  lastBytePosition : ℤ := kPositionNotSpecified
  suffixLength : ℤ := kPositionNotSpecified
  hasComputedBounds : Bool := false
deriving DecidableEq

namespace HttpByteRange

def bounded (first last : ℤ) : HttpByteRange where
  firstBytePosition := first
  lastBytePosition := last

def rightUnbounded (first : ℤ) : HttpByteRange where
  firstBytePosition := first

def suffix (length : ℤ) : HttpByteRange where
  suffixLength := length

def isSuffixByteRange (r : HttpByteRange) : Bool := r.suffixLength ≠ kPositionNotSpecified

def hasFirstBytePosition (r : HttpByteRange) : Bool := r.firstBytePosition ≠ kPositionNotSpecified

def hasLastBytePosition (r : HttpByteRange) : Bool := r.lastBytePosition ≠ kPositionNotSpecified

def isValid (r : HttpByteRange) : Bool :=
  0 < r.suffixLength ∨ (0 ≤ r.firstBytePosition ∧
    (r.lastBytePosition = kPositionNotSpecified ∨ r.firstBytePosition ≤ r.lastBytePosition))

def computeBounds (r : HttpByteRange) (size : ℤ) : Bool × HttpByteRange :=
  if size < 0 then (false, r)
  else if r.hasComputedBounds then (false, r)
  else
    let r := { r with hasComputedBounds := true }
    if !r.hasFirstBytePosition && !r.hasLastBytePosition && !r.isSuffixByteRange then
      (true, { r with firstBytePosition := 0, lastBytePosition := size - 1 })
    else if !r.isValid then (false, r)
    else if r.isSuffixByteRange then
      (true, { r with
        firstBytePosition := size - min size r.suffixLength, lastBytePosition := size - 1 })
    else if r.firstBytePosition < size then
      (true, { r with
        lastBytePosition :=
          if r.hasLastBytePosition then min (size - 1) r.lastBytePosition else size - 1 })
    else (false, r)

end HttpByteRange

def int32Max : ℤ := 2147483647

structure PartialData where
  currentRangeStart : ℤ := 0
  currentRangeEnd : ℤ := 0
  cachedStart : ℤ := 0
  cachedMinLen : ℤ := 0
  resourceSize : ℤ := 0
  byteRange : HttpByteRange := {}
  rangeRequested : Bool := false
  rangePresent : Bool := false
  finalRange : Bool := false
  sparseEntry : Bool := true
  truncated : Bool := false

namespace PartialData

/-- `Init` with the only range of the `Range` header; nothing if it returns false. -/
def init (range : HttpByteRange) : Option PartialData :=
  if range.isValid then
    some {
      byteRange := range
      rangeRequested := true
      currentRangeStart := range.firstBytePosition }
  else none

variable (p : PartialData)

/-- `UpdateFromStoredHeaders` for a stored 206 response with strong validators, whose
`Content-Length` is the size of the resource. -/
def updateFromStoredHeaders (contentLength : ℤ) : Option PartialData :=
  if contentLength ≤ 0 then none
  else some { p with resourceSize := contentLength, sparseEntry := true }

def isRequestedRangeOK : Bool × PartialData :=
  let accept (p : PartialData) : Bool × PartialData :=
    if 0 ≤ p.currentRangeStart then (true, p) else (false, { p with currentRangeStart := 0 })
  if p.byteRange.isValid then
    let bounds := p.byteRange.computeBounds p.resourceSize
    let p := { p with byteRange := bounds.2 }
    if !bounds.1 then (false, p)
    else if p.truncated then (true, p)
    else if p.currentRangeStart < 0 then
      accept { p with currentRangeStart := p.byteRange.firstBytePosition }
    else accept p
  else
    accept { p with
      currentRangeStart := 0
      byteRange := { p.byteRange with lastBytePosition := p.resourceSize - 1 } }

def getNextRangeLen : ℤ :=
  let rangeLen :=
    if p.byteRange.hasLastBytePosition then
      p.byteRange.lastBytePosition - p.currentRangeStart + 1
    else int32Max
  if int32Max < rangeLen then int32Max else rangeLen

/-- `ShouldValidateCache`, where `GetAvailableRange` answers `available` for the current start and
the next range length: the start of what is stored and its length. -/
def shouldValidateCache (available : ℤ × ℤ) : ℤ × PartialData :=
  let len := p.getNextRangeLen
  if len = 0 then (0, p)
  else
    let p :=
      if p.sparseEntry then { p with cachedMinLen := available.2, cachedStart := available.1 }
      else if !p.truncated then
        { p with
          cachedMinLen :=
            if p.byteRange.hasFirstBytePosition ∧ p.resourceSize ≤ p.byteRange.firstBytePosition
            then 0 else len
          cachedStart := p.currentRangeStart }
      else p
    if p.cachedMinLen < 0 then (p.cachedMinLen, p) else (1, p)

def prepareCacheValidation : PartialData :=
  let len := p.getNextRangeLen
  let p := { p with rangePresent := false }
  let p :=
    if p.cachedMinLen = 0 then
      { p with
        finalRange := true
        cachedStart :=
          if p.byteRange.hasLastBytePosition then p.currentRangeStart + len else 0 }
    else p
  if p.currentRangeStart = p.cachedStart then
    { p with
      rangePresent := true
      currentRangeEnd := p.cachedStart + p.cachedMinLen - 1
      finalRange := p.finalRange || len = p.cachedMinLen }
  else { p with currentRangeEnd := p.cachedStart - 1 }

/-- `ResponseHeadersOK` for a 206 response that has the content range `start` to `last` of
`total` bytes; a `Content-Length` that is not positive is not there. -/
def responseHeadersOK (start last total contentLength : ℤ) : Bool × PartialData :=
  if total ≤ 0 then (false, p)
  else if 0 < contentLength ∧ contentLength ≠ last - start + 1 then (false, p)
  else if p.resourceSize ≠ 0 ∧ p.resourceSize ≠ total then (false, p)
  else
    let p :=
      if p.resourceSize = 0 then
        let p := { p with resourceSize := total }
        let p :=
          if !p.byteRange.hasFirstBytePosition then
            { p with
              byteRange := { p.byteRange with firstBytePosition := start }
              currentRangeStart := start }
          else p
        if !p.byteRange.hasLastBytePosition then
          { p with byteRange := { p.byteRange with lastBytePosition := last } }
        else p
      else p
    let p :=
      if p.truncated ∧ !p.byteRange.hasLastBytePosition then
        { p with byteRange := { p.byteRange with lastBytePosition := last } }
      else p
    if start ≠ p.currentRangeStart then (false, p)
    else
      let p :=
        if p.currentRangeEnd = 0 then
          if p.resourceSize ≤ p.byteRange.lastBytePosition then
            { p with
              currentRangeEnd := last
              byteRange := { p.byteRange with lastBytePosition := last } }
          else { p with currentRangeEnd := p.byteRange.lastBytePosition }
        else p
      if last ≠ p.currentRangeEnd then (false, p) else (true, p)

def cacheReadLen (dataLen : ℤ) : ℤ := min dataLen p.cachedMinLen

def onCacheReadCompleted (result : ℤ) : PartialData :=
  if 0 < result then
    { p with
      currentRangeStart := p.currentRangeStart + result
      cachedMinLen := p.cachedMinLen - result }
  else p

def onNetworkReadCompleted (result : ℤ) : PartialData :=
  if 0 < result then { p with currentRangeStart := p.currentRangeStart + result } else p

end PartialData

inductive Mode
  | none
  | read
  | write
  | readWrite
  | update
deriving DecidableEq

/-- Where the transaction is: before `DoStartPartialCacheValidation`, while it reads from the
entry, before and behind the answer to a range request, and when it is done with the entry or has
given up on it. -/
inductive Phase
  | startPartialCacheValidation
  | cacheRead
  | sendRequest
  | networkRead
  | requestCompleted
  | failed
deriving DecidableEq

structure HandedOut extends Tiling.Segment where
  isCurrentRangeCached : Bool
  isLastRange : Bool
deriving DecidableEq

/-- The transaction with the bytes its entry has stored, and the ranges handed out so far. -/
structure Transaction where
  partialData : PartialData
  mode : Mode
  phase : Phase
  stored : ℤ → Bool
  handedOut : List HandedOut

namespace Transaction

/-- `DoStartPartialCacheValidation` and `DoCompletePartialCacheValidation`, where `available` is
what `GetAvailableRange` answers. -/
def completePartialCacheValidation (t : Transaction) (available : ℤ × ℤ) : Transaction :=
  if t.mode = .none then { t with phase := .failed } else
  let (result, p) := t.partialData.shouldValidateCache available
  if result = 0 then { t with partialData := p, phase := .requestCompleted }
  else if result < 0 then { t with partialData := p, phase := .failed }
  else
    let p := p.prepareCacheValidation
    { t with
      partialData := p
      phase := if p.rangePresent then .cacheRead else .sendRequest
      handedOut := t.handedOut ++
        [⟨⟨p.currentRangeStart, p.currentRangeEnd⟩, p.rangePresent, p.finalRange⟩] }

/-- `ValidatePartialResponse` for a 206 response to a range that is not in the cache. -/
def validatePartialResponse (t : Transaction) (start last total contentLength : ℤ) :
    Transaction :=
  let (ok, p) := t.partialData.responseHeadersOK start last total contentLength
  if ok then { t with partialData := p, phase := .networkRead }
  else { t with partialData := p, mode := .none, phase := .failed }

def partialCacheReadCompleted (t : Transaction) (result : ℤ) : Transaction :=
  let t := { t with partialData := t.partialData.onCacheReadCompleted result }
  if result = 0 ∧ t.mode = .readWrite then { t with phase := .startPartialCacheValidation }
  else if result < 0 then { t with phase := .failed }
  else t

/-- `DoPartialNetworkReadCompleted`, for bytes that have been written to the entry. -/
def partialNetworkReadCompleted (t : Transaction) (result : ℤ) : Transaction :=
  let p := t.partialData
  let t := { t with
    stored := fun b =>
      t.stored b || (p.currentRangeStart ≤ b && b < p.currentRangeStart + result) }
  if result ≠ 0 ∨ p.truncated ∨ ¬ (p.finalRange ∨ t.mode = .write) then
    { t with
      partialData := p.onNetworkReadCompleted result
      phase := if result = 0 then .startPartialCacheValidation else t.phase }
  else { t with phase := .requestCompleted }

end Transaction

/-- An answer of `GetAvailableRange` for the `len` bytes from `offset` on, as `disk_cache.h` has
it: the first byte stored, and a number of consecutive stored bytes that may be smaller than what
is stored; or no bytes if none is stored. -/
def Available (stored : ℤ → Bool) (offset len : ℤ) (available : ℤ × ℤ) : Prop :=
  (available.2 = 0 ∧ ∀ b, offset ≤ b → b < offset + len → stored b = false) ∨
  (0 < available.2 ∧ offset ≤ available.1 ∧ available.1 + available.2 ≤ offset + len ∧
    (∀ b, offset ≤ b → b < available.1 → stored b = false) ∧
    ∀ b, available.1 ≤ b → b < available.1 + available.2 → stored b = true)

/-- One step of a transaction.  The server answers a range request with the range asked for, and
its bytes arrive in pieces of any size; the same holds for reads from the entry into a buffer of
any size. -/
inductive Step : Transaction → Transaction → Prop
  | validate {t : Transaction} (available : ℤ × ℤ)
      (hphase : t.phase = .startPartialCacheValidation)
      (havailable : Available t.stored t.partialData.currentRangeStart
        t.partialData.getNextRangeLen available) :
      Step t (t.completePartialCacheValidation available)
  | respond {t : Transaction} (contentLength : ℤ) (hphase : t.phase = .sendRequest)
      (hlength : contentLength ≤ 0 ∨ contentLength =
        t.partialData.currentRangeEnd - t.partialData.currentRangeStart + 1) :
      Step t (t.validatePartialResponse t.partialData.currentRangeStart
        t.partialData.currentRangeEnd t.partialData.resourceSize contentLength)
  | cacheRead {t : Transaction} (dataLen result : ℤ) (hphase : t.phase = .cacheRead)
      (hdata : 0 < dataLen) (hresult : result ≤ t.partialData.cacheReadLen dataLen)
      (hpositive : 0 < result ∨ (t.partialData.cacheReadLen dataLen = 0 ∧ result = 0)) :
      Step t (t.partialCacheReadCompleted result)
  | networkRead {t : Transaction} (result : ℤ) (hphase : t.phase = .networkRead)
      (hresult : t.partialData.currentRangeStart + result ≤ t.partialData.currentRangeEnd + 1)
      (hpositive : 0 < result ∨
        (t.partialData.currentRangeStart = t.partialData.currentRangeEnd + 1 ∧ result = 0)) :
      Step t (t.partialNetworkReadCompleted result)

def Reaches : Transaction → Transaction → Prop := Relation.ReflTransGen Step

/-- What a request asks for: the whole resource, or what one range of a `Range` header says. -/
inductive Request
  | whole
  | bounded (first last : ℤ)
  | rightUnbounded (first : ℤ)
  | suffix (length : ℤ)
deriving DecidableEq

namespace Request

def partialData : Request → Option PartialData
  | whole => some {}
  | bounded first last => PartialData.init (.bounded first last)
  | rightUnbounded first => PartialData.init (.rightUnbounded first)
  | suffix length => PartialData.init (.suffix length)

/-- `ValidateEntryHeadersAndContinue` with a stored resource of the given size, which finds
nothing wrong. -/
def validate (request : Request) (size : ℤ) : Option PartialData := do
  let p ← request.partialData
  let p ← p.updateFromStoredHeaders size
  if p.isRequestedRangeOK.1 then some p.isRequestedRangeOK.2 else none

def firstByte (size : ℤ) : Request → ℤ
  | whole => 0
  | bounded first _ => first
  | rightUnbounded first => first
  | suffix length => max 0 (size - length)

/-- The last byte of the resource that a request asks for; a last position that is not specified
is the end of the resource. -/
def lastByte (size : ℤ) : Request → ℤ
  | whole => size - 1
  | bounded _ last => if last = kPositionNotSpecified then size - 1 else min last (size - 1)
  | rightUnbounded _ => size - 1
  | suffix _ => size - 1

end Request

def Transaction.start (p : PartialData) (stored : ℤ → Bool) : Transaction where
  partialData := p
  mode := .readWrite
  phase := .startPartialCacheValidation
  stored := stored
  handedOut := []

end ChromiumBase.PartialContent
