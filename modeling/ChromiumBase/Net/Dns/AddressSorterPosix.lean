import ChromiumBase.Lib.StrictWeakOrder
import Mathlib.Data.Prod.Lex

/-!
# The order of destination addresses

`AddressSorterPosix` sorts the addresses to connect to by the rules of RFC 3484.  All rules but
one compare a value of each destination; the rule of the longest prefix compares destinations of
one address family only, so that one of the other family may be incomparable to both of two that
are in order.

What the system answers is given: the source address that a socket gets for a destination, or
none if it cannot be connected, and what is known of the interface of a source address.
-/

open List StrictWeakOrder

namespace ChromiumBase.AddressSorter

/-- The bytes of an IPv4 or an IPv6 address. -/
abbrev IPAddress := List UInt8

def isIPv4 (address : IPAddress) : Bool := address.length = 4

def isIPv6 (address : IPAddress) : Bool := address.length = 16

def convertIPv4ToIPv4MappedIPv6 (address : IPAddress) : IPAddress :=
  replicate 10 0 ++ [0xff, 0xff] ++ address

def ipAddressPrefixCheck (address ipPrefix : IPAddress) (lengthInBits : ℕ) : Bool :=
  let entire := lengthInBits / 8
  let remainingBits := lengthInBits % 8
  address.take entire = ipPrefix.take entire &&
    (remainingBits = 0 ||
      let mask : UInt8 := 0xff <<< (8 - remainingBits).toUInt8
      address.getD entire 0 &&& mask = ipPrefix.getD entire 0 &&& mask)

def commonPrefixLength : IPAddress → IPAddress → ℕ
  | a :: as, b :: bs =>
    let diff := a ^^^ b
    if diff = 0 then 8 + commonPrefixLength as bs
    else ((List.range 8).takeWhile fun j => (diff <<< j.toUInt8) &&& 0x80 = 0).length
  | _, _ => 0

structure PolicyEntry where
  ipPrefix : IPAddress
  prefixLength : ℕ
  value : ℕ

/-- Sorts the table by decreasing prefix size to allow longest prefix matching. -/
def loadPolicy (table : List PolicyEntry) : List PolicyEntry :=
  table.insertionSort fun p q => q.prefixLength ≤ p.prefixLength

def getPolicyValue (table : List PolicyEntry) (address : IPAddress) : ℕ :=
  let address := if isIPv4 address then convertIPv4ToIPv4MappedIPv6 address else address
  match table.find? fun e => ipAddressPrefixCheck address e.ipPrefix e.prefixLength with
  | some e => e.value
  | none => (table.getLast?.map (·.value)).getD 0

def policyEntry (bytes : List UInt8) (prefixLength value : ℕ) : PolicyEntry :=
  ⟨bytes ++ replicate (16 - bytes.length) 0, prefixLength, value⟩

def scopeNodeLocal : ℕ := 1
def scopeLinkLocal : ℕ := 2
def scopeSiteLocal : ℕ := 5
def scopeGlobal : ℕ := 14

def precedenceTable : List PolicyEntry := loadPolicy [
  policyEntry [0, 0, 0, 0, 0, 0, 0, 0, 0, 0, 0, 0, 0, 0, 0, 1] 128 50,
  policyEntry [] 0 40,
  policyEntry [0, 0, 0, 0, 0, 0, 0, 0, 0, 0, 0xff, 0xff] 96 35,
  policyEntry [0x20, 0x02] 16 30,
  policyEntry [0x20, 0x01, 0, 0] 32 5,
  policyEntry [0xfc] 7 3,
  policyEntry [0, 0, 0, 0, 0, 0, 0, 0, 0, 0, 0, 0] 96 1,
  policyEntry [0xfe, 0xc0] 10 1,
  policyEntry [0x3f, 0xfe] 16 1]

def labelTable : List PolicyEntry := loadPolicy [
  policyEntry [0, 0, 0, 0, 0, 0, 0, 0, 0, 0, 0, 0, 0, 0, 0, 1] 128 0,
  policyEntry [] 0 1,
  policyEntry [0, 0, 0, 0, 0, 0, 0, 0, 0, 0, 0xff, 0xff] 96 4,
  policyEntry [0x20, 0x02] 16 2,
  policyEntry [0x20, 0x01, 0, 0] 32 5,
  policyEntry [0xfc] 7 13,
  policyEntry [0, 0, 0, 0, 0, 0, 0, 0, 0, 0, 0, 0] 96 3,
  policyEntry [0xfe, 0xc0] 10 11,
  policyEntry [0x3f, 0xfe] 16 12]

def ipv4ScopeTable : List PolicyEntry := loadPolicy [
  policyEntry [0, 0, 0, 0, 0, 0, 0, 0, 0, 0, 0xff, 0xff, 0x7f] 104 scopeLinkLocal,
  policyEntry [0, 0, 0, 0, 0, 0, 0, 0, 0, 0, 0xff, 0xff, 0xa9, 0xfe] 112 scopeLinkLocal,
  policyEntry [] 0 scopeGlobal]

def isIPv6Multicast (address : IPAddress) : Bool := address.getD 0 0 = 0xff

def getIPv6MulticastScope (address : IPAddress) : ℕ := (address.getD 1 0 &&& 0x0f).toNat

def isIPv6Loopback (address : IPAddress) : Bool := address = replicate 15 0 ++ [1]

def isIPv6LinkLocal (address : IPAddress) : Bool :=
  address.getD 0 0 = 0xfe && address.getD 1 0 &&& 0xc0 = 0x80

def isIPv6SiteLocal (address : IPAddress) : Bool :=
  address.getD 0 0 = 0xfe && address.getD 1 0 &&& 0xc0 = 0xc0

def getScope (address : IPAddress) : ℕ :=
  if isIPv6 address then
    if isIPv6Multicast address then getIPv6MulticastScope address
    else if isIPv6Loopback address || isIPv6LinkLocal address then scopeLinkLocal
    else if isIPv6SiteLocal address then scopeSiteLocal
    else scopeGlobal
  else if isIPv4 address then getPolicyValue ipv4ScopeTable address
  else scopeNodeLocal

/-- What the system tells about a source address. -/
structure Interface where
  prefixLength : ℕ
  deprecated : Bool
  home : Bool
  native : Bool

structure SourceAddressInfo extends Interface where
  scope : ℕ
  label : ℕ

structure DestinationInfo where
  address : IPAddress
  scope : ℕ
  precedence : ℕ
  label : ℕ
  src : SourceAddressInfo
  commonPrefixLength : ℕ

def fillPolicy (interface : Interface) (address : IPAddress) : SourceAddressInfo :=
  { interface with scope := getScope address, label := getPolicyValue labelTable address }

section

variable (interfaces : IPAddress → Interface)

/-- The record of a destination that is reached from the source address. -/
def destinationInfo (address src : IPAddress) : DestinationInfo where
  address := address
  scope := getScope address
  precedence := getPolicyValue precedenceTable address
  label := getPolicyValue labelTable address
  src := fillPolicy (interfaces src) src
  commonPrefixLength :=
    if address.length = src.length then
      min (commonPrefixLength address src) (interfaces src).prefixLength
    else 0

/-- The records that `Sort` makes, for the addresses that have a source address. -/
def sortList (list : List (IPAddress × Option IPAddress)) : List DestinationInfo :=
  list.filterMap fun (address, src) => src.map (destinationInfo interfaces address)

end

def compareDestinations (a b : DestinationInfo) : Bool :=
  -- Rule 2: Prefer matching scope.
  let scopeMatch (d : DestinationInfo) : Bool := d.src.scope = d.scope
  if scopeMatch a ≠ scopeMatch b then scopeMatch a
  -- Rule 3: Avoid deprecated addresses.
  else if a.src.deprecated ≠ b.src.deprecated then !a.src.deprecated
  -- Rule 4: Prefer home addresses.
  else if a.src.home ≠ b.src.home then a.src.home
  -- Rule 5: Prefer matching label.
  else
    let labelMatch (d : DestinationInfo) : Bool := d.src.label = d.label
    if labelMatch a ≠ labelMatch b then labelMatch a
    -- Rule 6: Prefer higher precedence.
    else if a.precedence ≠ b.precedence then a.precedence > b.precedence
    -- Rule 7: Prefer native transport.
    else if a.src.native ≠ b.src.native then a.src.native
    -- Rule 8: Prefer smaller scope.
    else if a.scope ≠ b.scope then a.scope < b.scope
    -- Rule 9: Use longest matching prefix. Only for matching address families.
    else if a.address.length = b.address.length ∧ a.commonPrefixLength ≠ b.commonPrefixLength then
      a.commonPrefixLength > b.commonPrefixLength
    else false

/-- The records of the result, in its order. -/
def sort (interfaces : IPAddress → Interface) (list : List (IPAddress × Option IPAddress)) :
    List DestinationInfo :=
  (sortList interfaces list).mergeSort fun a b => !compareDestinations b a

/-! ### The rules as one order -/

/-- What rules 2 to 8 compare. -/
def rank (d : DestinationInfo) : Bool ×ₗ Bool ×ₗ Bool ×ₗ Bool ×ₗ ℕᵒᵈ ×ₗ Bool ×ₗ ℕ :=
  toLex (d.src.scope ≠ d.scope, toLex (d.src.deprecated, toLex (!d.src.home,
    toLex (d.src.label ≠ d.label, toLex (OrderDual.toDual d.precedence,
      toLex (!d.src.native, d.scope))))))

section

variable {α β : Type*} [LinearOrder α] [LinearOrder β]

theorem lex_lt_or {a a' : α} {b b' : β} {P : Prop} :
    (toLex (a, b) < toLex (a', b') ∨ toLex (a, b) = toLex (a', b') ∧ P) ↔
      a < a' ∨ a = a' ∧ (b < b' ∨ b = b' ∧ P) := by
  rw [Prod.Lex.toLex_lt_toLex, toLex_inj, Prod.mk.injEq]
  tauto

variable {m n : ℕ} {a b x : Bool} {P : Prop}

theorem ite_ne_lt : (if m ≠ n then decide (m < n) else x) = true ↔ m < n ∨ m = n ∧ x = true := by
  by_cases h : m = n <;> simp [h]

theorem ite_ne_gt : (if m ≠ n then decide (m > n) else x) = true ↔ n < m ∨ m = n ∧ x = true := by
  by_cases h : m = n <;> simp [h]

theorem ite_and_ne_gt [Decidable P] :
    (if P ∧ m ≠ n then decide (m > n) else false) = true ↔ P ∧ n < m := by
  by_cases h : m = n <;> simp [h]

theorem ite_ne_not : (if a ≠ b then !a else x) = true ↔ a < b ∨ a = b ∧ x = true := by
  cases a <;> cases b <;> simp

theorem ite_ne_self :
    (if a ≠ b then a else x) = true ↔ (!a) < (!b) ∨ (!a) = (!b) ∧ x = true := by
  cases a <;> cases b <;> simp

end

theorem compareDestinations_iff (a b : DestinationInfo) : compareDestinations a b ↔
    ByRank rank (·.address.length) (·.commonPrefixLength) a b := by
  simp only [ByRank, rank, lex_lt_or, decide_not, OrderDual.toDual_lt_toDual,
    OrderDual.toDual_inj, compareDestinations, ite_ne_self, ite_ne_not, ite_ne_gt, ite_ne_lt,
    ite_and_ne_gt]

/-- Where rules 2 to 8 leave a destination between two of the other family open, these have
prefixes of the same length. -/
def PrefixesAgree (l : List DestinationInfo) : Prop :=
  ∀ a ∈ l, ∀ b ∈ l, ∀ c ∈ l, rank a = rank b → rank b = rank c →
    a.address.length = c.address.length → b.address.length ≠ a.address.length →
      a.commonPrefixLength = c.commonPrefixLength

theorem isStrictWeakOrder_iff (l : List DestinationInfo) :
    IsStrictWeakOrder {d // d ∈ l} (fun a b => compareDestinations a b) ↔ PrefixesAgree l := by
  have h : (fun a b : {d // d ∈ l} => compareDestinations a b = true) =
      ByRank (fun d => rank d.1) (fun d => d.1.address.length)
        (fun d => d.1.commonPrefixLength) := by
    funext a b
    exact propext (compareDestinations_iff a b)
  rw [h, isStrictWeakOrder_byRank_iff]
  simp only [PrefixesAgree, Subtype.forall]

/-- The comparison is always a strict order.  Where it is a weak one too, the result is sorted,
and depends on the order of the list only for incomparable destinations. -/
theorem sort_spec (interfaces : IPAddress → Interface)
    (list : List (IPAddress × Option IPAddress)) :
    (∀ a, ¬compareDestinations a a) ∧
      (∀ a b c, compareDestinations a b → compareDestinations b c → compareDestinations a c) ∧
      (IsStrictWeakOrder {d // d ∈ sortList interfaces list}
          (fun a b => compareDestinations a b) ↔ PrefixesAgree (sortList interfaces list)) ∧
      (PrefixesAgree (sortList interfaces list) →
        (sort interfaces list).Pairwise (fun a b => ¬compareDestinations b a) ∧
        ∀ list', list' ~ list → Forall₂ (IncompRel fun a b => compareDestinations a b)
          (sort interfaces list') (sort interfaces list)) := by
  refine ⟨fun a => ?_, fun a b c => ?_, isStrictWeakOrder_iff _, fun h => ?_⟩
  · simpa only [compareDestinations_iff] using ByRank.irrefl a
  · simpa only [compareDestinations_iff] using ByRank.trans
  · have hw := (isStrictWeakOrder_iff _).2 h
    refine ⟨pairwise_mergeSort_of_forall hw fun _ => id, fun list' hp => ?_⟩
    exact forall₂_mergeSort_of_forall hw (fun _ => id) (hp.filterMap _)

/-- An IPv4-mapped destination is incomparable to two IPv4 destinations that are in order. -/
theorem mapped_destination_incomparable :
    let interfaces : IPAddress → Interface := fun _ => ⟨24, false, false, false⟩
    let src : IPAddress := [1, 2, 0, 1]
    let mapped := convertIPv4ToIPv4MappedIPv6
    let list := [([1, 2, 3, 4], some src), (mapped [9, 9, 9, 9], some (mapped src)),
      ([1, 3, 0, 1], some src)]
    ¬IsStrictWeakOrder {d // d ∈ sortList interfaces list}
      (fun a b => compareDestinations a b) := by
  intro interfaces src mapped list hw
  let a := destinationInfo interfaces [1, 2, 3, 4] src
  let b := destinationInfo interfaces (mapped [9, 9, 9, 9]) (mapped src)
  let c := destinationInfo interfaces [1, 3, 0, 1] src
  have ha : a ∈ sortList interfaces list := .head _
  have hb : b ∈ sortList interfaces list := .tail _ (.head _)
  have hc : c ∈ sortList interfaces list := .tail _ (.tail _ (.head _))
  have hab : ¬compareDestinations a b ∧ ¬compareDestinations b a := by decide +kernel
  have hbc : ¬compareDestinations b c ∧ ¬compareDestinations c b := by decide +kernel
  have hac : compareDestinations a c := by decide +kernel
  exact (hw.incomp_trans ⟨a, ha⟩ ⟨b, hb⟩ ⟨c, hc⟩ hab hbc).1 hac

end ChromiumBase.AddressSorter
