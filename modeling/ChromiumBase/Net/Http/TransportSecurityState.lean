import Mathlib.Data.List.DropRight
import Mathlib.Data.List.Nodup
import Mathlib.Data.Nat.Bitwise

/-!
# Preloaded transport security

`TransportSecurityStateTrieEntry::WriteEntry`
(`net/tools/transport_security_state_generator/transport_security_state_entry.cc`) writes the
policy of a host into the preloaded data, and `DecodeHSTSPreload`
(`net/http/transport_security_state.cc`) looks a host up in them. Which entries
`PreloadDecoder::Decode` meets on its way is a parameter, as are the bits behind an entry.

The longest name that is the host or a parent of it decides, since every entry that the decoder
meets on a label boundary takes the place of the one before. The writer binds a 32-bit id to a
`uint8_t` before it checks the id, so that an id beyond 255 may be read back as another one.
-/

open List Option

namespace ChromiumBase.TransportSecurityState

abbrev Text := List UInt8

abbrev Bits := List Bool

structure Entry where
  hostname : Text
  includeSubdomains : Bool
  forceHttps : Bool
  hpkpIncludeSubdomains : Bool
  pinset : Text
  expectCt : Bool
  expectCtReportUri : Text

abbrev NameIDMap := Text → Option UInt32

structure Maps where
  expectCtReportUriMap : NameIDMap
  pinsetsMap : NameIDMap

def isSimpleEntry (e : Entry) : Bool :=
  e.forceHttps && e.includeSubdomains && e.pinset.isEmpty && !e.expectCt

def writeBits (bits : ℕ) : ℕ → Bits
  | 0 => []
  | n + 1 => bits.testBit n :: writeBits bits n

/-- The id is bound to a `uint8_t` before it is checked. -/
def writeId (ids : NameIDMap) (name : Text) : Option Bits := do
  let id ← ids name
  if id.toUInt8 > 15 then none else some (writeBits id.toUInt8.toNat 4)

section

variable (maps : Maps)

def writePins (e : Entry) : Option Bits :=
  if e.pinset.isEmpty then some [false]
  else (writeId maps.pinsetsMap e.pinset).map fun pinId =>
    true :: pinId ++ if e.includeSubdomains then [] else [e.hpkpIncludeSubdomains]

def writeExpectCt (e : Entry) : Option Bits :=
  if e.expectCt then (writeId maps.expectCtReportUriMap e.expectCtReportUri).map (true :: ·)
  else some [false]

/-- The bits, or nothing where the source returns false. -/
def writeEntry (e : Entry) : Option Bits :=
  if isSimpleEntry e then some [true]
  else do
    let pins ← writePins maps e
    let expectCt ← writeExpectCt maps e
    some (false :: e.includeSubdomains :: e.forceHttps :: pins ++ expectCt)

def next : Bits → Option (Bool × Bits)
  | [] => none
  | bit :: bits => some (bit, bits)

def read : ℕ → Bits → Option (ℕ × Bits)
  | 0, bits => some (0, bits)
  | n + 1, bits => do
    let (bit, bits) ← next bits
    let (ret, bits) ← read n bits
    some (bit.toNat <<< n ||| ret, bits)

def readIf {α : Type} (c : Bool) (reader : Bits → Option (α × Bits)) (default : α)
    (bits : Bits) : Option (α × Bits) :=
  if c then reader bits else some (default, bits)

structure PreloadResult where
  pinsetId : ℕ := 0
  hostnameOffset : ℕ := 0
  stsIncludeSubdomains : Bool := false
  pkpIncludeSubdomains : Bool := false
  forceHttps : Bool := false
  hasPins : Bool := false
  expectCt : Bool := false
  expectCtReportUriId : ℕ := 0

/-- What `ReadEntry` reads, and the bits behind it. -/
def readPolicy (bits : Bits) : Option (PreloadResult × Bits) := do
  let (isSimpleEntry, bits) ← next bits
  if isSimpleEntry then some ({ forceHttps := true, stsIncludeSubdomains := true }, bits)
  else
    let (stsIncludeSubdomains, bits) ← next bits
    let (forceHttps, bits) ← next bits
    let (hasPins, bits) ← next bits
    let (pinsetId, bits) ← readIf hasPins (read 4) 0 bits
    let (pkpIncludeSubdomains, bits) ←
      readIf (hasPins && !stsIncludeSubdomains) next stsIncludeSubdomains bits
    let (expectCt, bits) ← next bits
    let (expectCtReportUriId, bits) ← readIf expectCt (read 4) 0 bits
    some ({ pinsetId, stsIncludeSubdomains, pkpIncludeSubdomains, forceHttps, hasPins, expectCt,
            expectCtReportUriId }, bits)

def dot : UInt8 := 0x2e

/-- Whether the host counts as found, and the result that is remembered. -/
def readEntry (bits : Bits) (search : Text) (currentSearchOffset : ℕ)
    (found : Bool × PreloadResult) : Option (Bool × PreloadResult) := do
  let (tmp, _) ← readPolicy bits
  let tmp := { tmp with hostnameOffset := currentSearchOffset }
  if currentSearchOffset = 0 ∨ search[currentSearchOffset - 1]? = some dot then
    if currentSearchOffset > 0 then
      some (tmp.stsIncludeSubdomains || tmp.pkpIncludeSubdomains,
        { tmp with forceHttps := tmp.forceHttps && tmp.stsIncludeSubdomains })
    else some (true, tmp)
  else some found

/-- The preloaded data: the entries that are met on the way to a name, and the bits that stand
behind an entry. -/
structure Trie where
  visited : Text → List Entry
  behind : Entry → Bits

/-- `PreloadDecoder::Decode`, which is done when the whole name has been read. -/
def decode (maps : Maps) (trie : Trie) (search : Text) :
    List Entry → Bool × PreloadResult → Option (Bool × PreloadResult)
  | [], found => some found
  | e :: es, found => do
    let bits ← writeEntry maps e
    let currentSearchOffset := search.length - e.hostname.length
    let found ← readEntry (bits ++ trie.behind e) search currentSearchOffset found
    if currentSearchOffset = 0 then some found else decode maps trie search es found

def kMaxLabelLength : ℕ := 63

def kMaxNameLength : ℕ := 255

def isValidHostLabelCharacter (c : UInt8) (isFirstChar : Bool) : Bool :=
  (0x61 ≤ c && c ≤ 0x7a) || (0x41 ≤ c && c ≤ 0x5a) || (0x30 ≤ c && c ≤ 0x39) ||
    (!isFirstChar && c == 0x2d) || c == 0x5f

def addLabel (name label : Text) : Option Text :=
  if name.length + label.length + 1 > kMaxNameLength then none
  else some (name ++ UInt8.ofNat label.length :: label)

def dnsDomainLoop : Text → Text → Text → Option Text
  | [], label, name => if label.isEmpty then some name else addLabel name label
  | ch :: buf, label, name =>
    if ch = dot then
      if label.isEmpty then none else (addLabel name label).bind (dnsDomainLoop buf [])
    else if label.length ≥ kMaxLabelLength then none
    else if !isValidHostLabelCharacter ch label.isEmpty then none
    else dnsDomainLoop buf (label ++ [ch]) name

def dnsDomainFromDot (dotted : Text) : Option Text := do
  let name ← dnsDomainLoop dotted [] []
  if name.length + 1 > kMaxNameLength then none
  else if name.isEmpty then none
  else some (name ++ [0])

def toLowerASCII (c : UInt8) : UInt8 := if 0x41 ≤ c ∧ c ≤ 0x5a then c + 0x20 else c

def lowerLabels : ℕ → Text → Text
  | k + 1, labelLength :: host =>
    if labelLength = 0 then labelLength :: host
    else labelLength :: (host.take labelLength.toNat).map toLowerASCII ++
      lowerLabels k (host.drop labelLength.toNat)
  | _, host => host

def canonicalizeHost (host : Text) : Text :=
  match dnsDomainFromDot host with
  | none => []
  | some newHost => lowerLabels newHost.length newHost

/-- The name that is searched for: without dots at the end, and in lower case. -/
def searchName (searchHostname : Text) : Text :=
  (searchHostname.rdropWhile (· = dot)).map toLowerASCII

def decodeHSTSPreload (trie : Trie) (searchHostname : Text) : Option PreloadResult :=
  if (canonicalizeHost searchHostname).isEmpty then none
  else
    let hostname := searchName searchHostname
    if hostname.isEmpty then none
    else
      match decode maps trie hostname (trie.visited hostname) (false, {}) with
      | some (true, result) => some result
      | _ => none

def Covers (name search : Text) : Prop := name = search ∨ dot :: name <:+ search

instance (name search : Text) : Decidable (Covers name search) :=
  inferInstanceAs (Decidable (_ ∨ _))

/-- The entry has the longest of the names that cover the host. -/
def Decides (entries : List Entry) (search : Text) (e : Entry) : Prop :=
  e ∈ entries ∧ Covers e.hostname search ∧
    ∀ e' ∈ entries, Covers e'.hostname search → e'.hostname.length ≤ e.hostname.length

/-- What is asked of a host, with the ids of its pinset and of its report URI. -/
structure Policy where
  forceHttps : Bool
  includeSubdomains : Bool
  pinset : Option ℕ
  expectCt : Option ℕ
  deriving DecidableEq

def PreloadResult.policy (r : PreloadResult) : Policy where
  forceHttps := r.forceHttps
  includeSubdomains := r.stsIncludeSubdomains
  pinset := if r.hasPins then some r.pinsetId else none
  expectCt := if r.expectCt then some r.expectCtReportUriId else none

def Entry.policy (search : Text) (pinset expectCt : Option ℕ) (e : Entry) : Policy where
  forceHttps := e.forceHttps && (e.hostname = search || e.includeSubdomains)
  includeSubdomains := e.includeSubdomains
  pinset := if e.pinset = [] then none else pinset
  expectCt := if e.expectCt then expectCt else none

def Entry.policyFor (search : Text) (e : Entry) : Option Policy :=
  if e.hostname = search ∨ e.includeSubdomains ∨ e.pinset ≠ [] ∧ e.hpkpIncludeSubdomains then
    some (e.policy search ((maps.pinsetsMap e.pinset).map UInt32.toNat)
      ((maps.expectCtReportUriMap e.expectCtReportUri).map UInt32.toNat))
  else none

def Decided (entries : List Entry) (search : Text) (r : Option Policy) : Prop :=
  (∀ e, Decides entries search e → r = e.policyFor maps search) ∧
    ((∀ e ∈ entries, ¬ Covers e.hostname search) → r = none)

/-- The entries whose names are suffixes of the host, shortest first. -/
structure Walk (entries : List Entry) (search : Text) (visited : List Entry) : Prop where
  mem_iff : ∀ e, e ∈ visited ↔ e ∈ entries ∧ e.hostname <:+ search
  sorted : visited.Pairwise (·.hostname.length < ·.hostname.length)

def Entry.IdsKept (e : Entry) : Prop :=
  (e.pinset ≠ [] → ∀ id ∈ maps.pinsetsMap e.pinset, id.toNat < 256) ∧
    (e.expectCt → ∀ id ∈ maps.expectCtReportUriMap e.expectCtReportUri, id.toNat < 256)

end

variable {maps : Maps} {e : Entry} {bits : Bits} {search name : Text} {ids : NameIDMap}

theorem read_writeBits (value n : ℕ) (rest : Bits) :
    read n (writeBits value n ++ rest) = some (value % 2 ^ n, rest) := by
  induction n with
  | zero => simp [read, writeBits, Nat.mod_one]
  | succ n ih =>
    have hlt : value % 2 ^ n < 2 ^ n := Nat.mod_lt _ (Nat.two_pow_pos n)
    simp only [read, writeBits, cons_append, next, bind_eq_bind, bind_some, ih]
    rw [← Nat.shiftLeft_add_eq_or_of_lt hlt, Nat.shiftLeft_eq, Nat.toNat_testBit,
      Nat.mod_pow_succ, add_comm, mul_comm]

def storedId (ids : NameIDMap) (name : Text) : ℕ := (ids name).elim 0 (·.toNat % 256)

/-- An id is read back as the low bits that were written. -/
theorem writeId_eq_some (h : writeId ids name = some bits) :
    (ids name).isSome ∧ ∀ rest, read 4 (bits ++ rest) = some (storedId ids name, rest) := by
  unfold writeId at h
  cases hid : ids name with
  | none => simp [hid] at h
  | some id =>
    simp only [hid, bind_eq_bind, bind_some] at h
    split at h
    · cases h
    next hle =>
      cases h
      have hlt : id.toUInt8.toNat ≤ 15 := not_lt.1 hle
      refine ⟨rfl, fun rest => ?_⟩
      rw [read_writeBits, Nat.mod_eq_of_lt (by omega), storedId, hid]
      rfl

def Entry.stored (maps : Maps) (e : Entry) : PreloadResult where
  pinsetId := if e.pinset.isEmpty then 0 else storedId maps.pinsetsMap e.pinset
  stsIncludeSubdomains := e.includeSubdomains
  pkpIncludeSubdomains :=
    !isSimpleEntry e && (e.includeSubdomains || !e.pinset.isEmpty && e.hpkpIncludeSubdomains)
  forceHttps := e.forceHttps
  hasPins := !e.pinset.isEmpty
  expectCt := e.expectCt
  expectCtReportUriId :=
    if e.expectCt then storedId maps.expectCtReportUriMap e.expectCtReportUri else 0

theorem writePins_eq_some (h : writePins maps e = some bits) :
    (e.pinset ≠ [] → (maps.pinsetsMap e.pinset).isSome) ∧ ∃ pinId, bits = (!e.pinset.isEmpty) ::
        (pinId ++ if !e.pinset.isEmpty && !e.includeSubdomains then [e.hpkpIncludeSubdomains]
          else []) ∧
        ∀ rest, readIf (!e.pinset.isEmpty) (read 4) 0 (pinId ++ rest) =
          some ((e.stored maps).pinsetId, rest) := by
  unfold writePins at h
  cases hp : e.pinset.isEmpty with
  | true =>
    rw [if_pos hp] at h
    cases h
    exact ⟨fun hne => absurd (List.isEmpty_iff.1 hp) hne, [], by simp,
      fun rest => by simp [readIf, Entry.stored, hp]⟩
  | false =>
    rw [if_neg (by simp [hp])] at h
    obtain ⟨pinId, hid, rfl⟩ := map_eq_some_iff.1 h
    obtain ⟨hs, hr⟩ := writeId_eq_some hid
    refine ⟨fun _ => hs, pinId, ?_, fun rest => ?_⟩
    · cases e.includeSubdomains <;> rfl
    · simp [readIf, hr, Entry.stored, hp]

theorem writeExpectCt_eq_some (h : writeExpectCt maps e = some bits) :
    (e.expectCt → (maps.expectCtReportUriMap e.expectCtReportUri).isSome) ∧ ∃ reportId,
      bits = e.expectCt :: reportId ∧ ∀ rest, readIf e.expectCt (read 4) 0 (reportId ++ rest) =
        some ((e.stored maps).expectCtReportUriId, rest) := by
  unfold writeExpectCt at h
  cases hct : e.expectCt with
  | true =>
    rw [if_pos hct] at h
    obtain ⟨reportId, hid, rfl⟩ := map_eq_some_iff.1 h
    obtain ⟨hs, hr⟩ := writeId_eq_some hid
    exact ⟨fun _ => hs, reportId, rfl, fun rest => by simp [readIf, hr, Entry.stored, hct]⟩
  | false =>
    rw [if_neg (by simp [hct])] at h
    cases h
    exact ⟨nofun, [], rfl, fun rest => by simp [readIf, Entry.stored, hct]⟩

/-- An entry that is written is read back with the ids that were stored. -/
theorem writeEntry_eq_some (h : writeEntry maps e = some bits) :
    (e.pinset ≠ [] → (maps.pinsetsMap e.pinset).isSome) ∧
      (e.expectCt → (maps.expectCtReportUriMap e.expectCtReportUri).isSome) ∧
      ∀ rest, readPolicy (bits ++ rest) = some (e.stored maps, rest) := by
  unfold writeEntry at h
  split at h
  next hs =>
    cases h
    simp only [isSimpleEntry, Bool.and_eq_true, Bool.not_eq_true', List.isEmpty_iff] at hs
    obtain ⟨⟨⟨hf, hi⟩, hp⟩, hct⟩ := hs
    simp [readPolicy, next, Entry.stored, isSimpleEntry, hf, hi, hp, hct]
  next hs =>
    simp only [bind_eq_bind, bind_eq_some_iff, some.injEq] at h
    obtain ⟨pins, hp, report, hr, rfl⟩ := h
    obtain ⟨hps, pinId, rfl, hpi⟩ := writePins_eq_some hp
    obtain ⟨hrs, reportId, rfl, hri⟩ := writeExpectCt_eq_some hr
    have hpkp (rest : Bits) : readIf (!e.pinset.isEmpty && !e.includeSubdomains) next
        e.includeSubdomains ((if !e.pinset.isEmpty && !e.includeSubdomains then
          [e.hpkpIncludeSubdomains] else []) ++ rest) =
        some ((e.stored maps).pkpIncludeSubdomains, rest) := by
      simp only [Entry.stored, hs]
      cases e.pinset.isEmpty <;> cases e.includeSubdomains <;> rfl
    refine ⟨hps, hrs, fun rest => ?_⟩
    simp only [readPolicy, next, cons_append, append_assoc, bind_eq_bind, bind_some, hpi, hpkp, hri]
    rfl

theorem Covers.suffix (h : Covers name search) : name <:+ search := by
  rcases h with rfl | h
  · exact suffix_rfl
  · exact (suffix_cons dot name).trans h

def Entry.answer (maps : Maps) (search : Text) (e : Entry) : Bool × PreloadResult :=
  let tmp := { e.stored maps with hostnameOffset := search.length - e.hostname.length }
  if e.hostname = search then (true, tmp)
  else (tmp.stsIncludeSubdomains || tmp.pkpIncludeSubdomains,
    { tmp with forceHttps := tmp.forceHttps && tmp.stsIncludeSubdomains })

theorem readEntry_writeEntry (h : writeEntry maps e = some bits) (hs : e.hostname <:+ search)
    (rest : Bits) (found : Bool × PreloadResult) :
    readEntry (bits ++ rest) search (search.length - e.hostname.length) found =
      some (if Covers e.hostname search then e.answer maps search else found) := by
  obtain ⟨t, ht⟩ := hs
  have hl : search.length - e.hostname.length = t.length := by
    rw [← ht, length_append]
    omega
  simp only [readEntry, (writeEntry_eq_some h).2.2, bind_eq_bind, bind_some, Entry.answer]
  rw [hl]
  rcases t.eq_nil_or_concat with rfl | ⟨t, c, rfl⟩
  · have heq : e.hostname = search := ht
    rw [if_pos (.inl rfl), if_neg (by simp), if_pos (.inl heq), if_pos heq]
  · have hne : e.hostname ≠ search := by
      intro heq
      rw [heq] at hl
      simp at hl
    have hch : search[(t.concat c).length - 1]? = some c := by simp [← ht]
    have hco : Covers e.hostname search ↔ c = dot := by
      have hs : c :: e.hostname <:+ search := ⟨t, by simp [← ht]⟩
      refine ⟨fun h => ?_, fun h => .inr (h ▸ hs)⟩
      have hdot := suffix_of_suffix_length_le hs (h.resolve_left hne) (by simp)
      exact (cons.inj (hdot.eq_of_length (by simp))).1
    rw [hch]
    by_cases hc : c = dot
    · rw [if_pos (.inr (congrArg some hc)), if_pos (by simp), if_pos (hco.2 hc), if_neg hne]
    · rw [if_neg (by simp [hc]), if_neg (mt hco.1 hc)]

/-- The last entry on the way that covers the host is the one that is remembered. -/
theorem decode_visited (trie : Trie) {visited : List Entry}
    (hw : ∀ e ∈ visited, (writeEntry maps e).isSome) (hsu : ∀ e ∈ visited, e.hostname <:+ search)
    (hs : visited.Pairwise (·.hostname.length < ·.hostname.length)) (found : Bool × PreloadResult) :
    ∃ found', decode maps trie search visited found = some found' ∧
      ((∀ e ∈ visited, ¬ Covers e.hostname search) ∧ found' = found ∨
        ∃ e, Decides visited search e ∧ found' = e.answer maps search) := by
  induction visited generalizing found with
  | nil => exact ⟨found, rfl, .inl ⟨nofun, rfl⟩⟩
  | cons e es ih =>
    obtain ⟨he, hes⟩ := forall_mem_cons.1 hsu
    obtain ⟨hlt, hs⟩ := pairwise_cons.1 hs
    obtain ⟨bits, hb⟩ := isSome_iff_exists.1 (hw e mem_cons_self)
    simp only [decode, hb, bind_eq_bind, bind_some, readEntry_writeEntry hb he]
    split
    next ho =>
      -- the whole name has been read, and no other entry is as long
      have heq : e.hostname = search := he.eq_of_length (he.length_le.antisymm (by omega))
      have hnil : es = [] := eq_nil_iff_forall_not_mem.2 fun e' he' => by
        have := hlt e' he'
        have := (hes e' he').length_le
        omega
      subst hnil
      rw [if_pos (.inl heq)]
      exact ⟨_, rfl, .inr ⟨e, ⟨mem_cons_self, .inl heq, by simp⟩, rfl⟩⟩
    next =>
      obtain ⟨found', hd, hf⟩ := ih (fun e' he' => hw e' (mem_cons_of_mem e he'))
        hes hs (if Covers e.hostname search then e.answer maps search else found)
      refine ⟨found', hd, ?_⟩
      rcases hf with ⟨hn, rfl⟩ | ⟨e', ⟨hmem, hc, hmax⟩, rfl⟩
      · by_cases hc : Covers e.hostname search
        · rw [if_pos hc]
          refine .inr ⟨e, ⟨mem_cons_self, hc, forall_mem_cons.2
            ⟨fun _ => le_rfl, fun e' he' h => absurd h (hn e' he')⟩⟩, rfl⟩
        · rw [if_neg hc]
          exact .inl ⟨forall_mem_cons.2 ⟨hc, hn⟩, rfl⟩
      · exact .inr ⟨e', ⟨mem_cons_of_mem e hmem, hc, forall_mem_cons.2
          ⟨fun _ => (hlt e' hmem).le, hmax⟩⟩, rfl⟩

theorem searchName_ne_nil {host : Text} (h : canonicalizeHost host ≠ []) :
    searchName host ≠ [] := by
  intro hnil
  have hd := rdropWhile_eq_nil_iff.1 (map_eq_nil_iff.1 hnil)
  refine h ?_
  unfold canonicalizeHost dnsDomainFromDot
  cases host with
  | nil => rfl
  | cons c host =>
    have hc : c = dot := by simpa using hd c mem_cons_self
    simp [dnsDomainLoop, hc]

theorem storedId_eq_iff (h : (ids name).isSome) :
    some (storedId ids name) = (ids name).map UInt32.toNat ↔ ∀ id ∈ ids name, id.toNat < 256 := by
  obtain ⟨id, hid⟩ := isSome_iff_exists.1 h
  simp only [storedId, hid, elim_some, map_some, some.injEq, mem_some_iff, forall_eq']
  omega

/-- The answer of an entry is what it states, unless it is found with ids that were cut. -/
theorem policy_answer_iff (h : (writeEntry maps e).isSome) :
    (if (e.answer maps search).1 then some (e.answer maps search).2.policy else none) =
        e.policyFor maps search ↔
      ((e.policyFor maps search).isSome → e.IdsKept maps) := by
  obtain ⟨bits, hb⟩ := isSome_iff_exists.1 h
  obtain ⟨hpi, hct, -⟩ := writeEntry_eq_some hb
  have hf : (e.answer maps search).1 ↔
      e.hostname = search ∨ e.includeSubdomains ∨ e.pinset ≠ [] ∧ e.hpkpIncludeSubdomains := by
    by_cases heq : e.hostname = search
    · simp [Entry.answer, heq]
    · cases hi : e.includeSubdomains <;>
        simp [Entry.answer, Entry.stored, isSimpleEntry, heq, hi]
  have hp : (e.answer maps search).2.policy =
      e.policy search (some (storedId maps.pinsetsMap e.pinset))
        (some (storedId maps.expectCtReportUriMap e.expectCtReportUri)) := by
    by_cases heq : e.hostname = search <;> by_cases hnil : e.pinset = [] <;>
      cases he : e.expectCt <;>
        simp [Entry.answer, Entry.stored, PreloadResult.policy, Entry.policy, heq, hnil, he]
  rw [if_congr hf rfl rfl, hp, Entry.policyFor]
  split
  next =>
    rw [some.injEq, Entry.policy, Entry.policy, Policy.mk.injEq, Entry.IdsKept]
    simp only [isSome_some, true_and, true_implies]
    refine and_congr ?_ ?_
    · by_cases hnil : e.pinset = []
      · simp [hnil]
      · simpa [hnil] using storedId_eq_iff (hpi hnil)
    · by_cases he : e.expectCt
      · simpa [he] using storedId_eq_iff (hct he)
      · simp [he]
  next => simp

/-- The longest name that covers the host decides, exactly if the ids of that entry fit in the
eight bits that are stored of them. -/
theorem decodeHSTSPreload_decided_iff {entries : List Entry} {trie : Trie} {host : Text}
    (hvalid : canonicalizeHost host ≠ []) (hwritten : ∀ e ∈ entries, (writeEntry maps e).isSome)
    (hwalk : Walk entries (searchName host) (trie.visited (searchName host))) :
    Decided maps entries (searchName host)
        ((decodeHSTSPreload maps trie host).map PreloadResult.policy) ↔
      ∀ e, Decides entries (searchName host) e →
        (e.policyFor maps (searchName host)).isSome → e.IdsKept maps := by
  have hna := searchName_ne_nil hvalid
  rw [decodeHSTSPreload, if_neg (mt List.isEmpty_iff.1 hvalid)]
  rw [if_neg (mt List.isEmpty_iff.1 hna)]
  generalize searchName host = search at hwalk ⊢
  obtain ⟨found, hde, hf⟩ := decode_visited trie
    (fun e he => hwritten e ((hwalk.mem_iff e).1 he).1)
    (fun e he => ((hwalk.mem_iff e).1 he).2) hwalk.sorted (false, {})
  have hv {e : Entry} (he : e ∈ entries) (hc : Covers e.hostname search) :
      e ∈ trie.visited search := (hwalk.mem_iff e).2 ⟨he, hc.suffix⟩
  rw [hde]
  rcases hf with ⟨hn, rfl⟩ | ⟨e, ⟨hmem, hc, hmax⟩, rfl⟩
  · have hno {e : Entry} (h : Decides entries search e) : False :=
      hn e (hv h.1 h.2.1) h.2.1
    exact ⟨fun _ e he => (hno he).elim, fun _ => ⟨fun e he => (hno he).elim, fun _ => rfl⟩⟩
  · have he : Decides entries search e :=
      ⟨((hwalk.mem_iff e).1 hmem).1, hc, fun e' he' h => hmax e' (hv he' h) h⟩
    have hu (e' : Entry) (he' : Decides entries search e') : e' = e :=
      inj_on_of_nodup_map (f := (·.hostname.length))
        (pairwise_map.2 (hwalk.sorted.imp fun h => h.ne)) (hv he'.1 he'.2.1) hmem
        ((he.2.2 e' he'.1 he'.2.1).antisymm (he'.2.2 e he.1 hc))
    have hr : (Option.map PreloadResult.policy
        (match some (e.answer maps search) with
        | some (true, result) => some result
        | _ => none)) =
        if (e.answer maps search).1 then some (e.answer maps search).2.policy else none := by
      rcases e.answer maps search with ⟨_ | _, result⟩ <;> rfl
    rw [hr]
    constructor
    · rintro ⟨hd, -⟩ e' he'
      cases hu e' he'
      exact (policy_answer_iff (hwritten e he.1)).1 (hd e he)
    · intro hk
      refine ⟨fun e' he' => ?_, fun hn => absurd hc (hn e he.1)⟩
      cases hu e' he'
      exact (policy_answer_iff (hwritten e he.1)).2 (hk e he)

def Entry.trie (e : Entry) : Trie where
  visited search := if e.hostname <:+ search then [e] else []
  behind _ := []

theorem walk_trie (e : Entry) (search : Text) : Walk [e] search (e.trie.visited search) := by
  unfold Entry.trie
  dsimp only
  split
  next h => exact ⟨by simpa using h, pairwise_singleton _ _⟩
  next h => exact ⟨by simpa using h, List.Pairwise.nil⟩

def pinnedHost : Entry := ⟨[0x61], false, true, true, [0x70], false, []⟩

def mapsTo (id : UInt32) : Maps where
  expectCtReportUriMap _ := none
  pinsetsMap name := if name = [0x70] then some id else none

theorem decided_parent : Decided (mapsTo 7) [pinnedHost] (searchName [0x42, 0x2e, 0x41, 0x2e])
    ((decodeHSTSPreload (mapsTo 7) pinnedHost.trie [0x42, 0x2e, 0x41, 0x2e]).map
      PreloadResult.policy) :=
  (decodeHSTSPreload_decided_iff (by decide) (by decide) (walk_trie _ _)).2 fun e he _ => by
    exact ⟨fun _ => by simp [mapsTo], nofun⟩

/-- The 257th pinset is taken for the first one. -/
theorem not_decided_pinset : (writeEntry (mapsTo 256) pinnedHost).isSome ∧
    Walk [pinnedHost] (searchName [0x61]) (pinnedHost.trie.visited (searchName [0x61])) ∧
    ¬ Decided (mapsTo 256) [pinnedHost] (searchName [0x61])
      ((decodeHSTSPreload (mapsTo 256) pinnedHost.trie [0x61]).map PreloadResult.policy) := by
  refine ⟨by decide, walk_trie _ _, fun h => ?_⟩
  have hp := h.1 pinnedHost ⟨mem_singleton_self _, .inl rfl, by simp⟩
  revert hp
  decide

end ChromiumBase.TransportSecurityState
