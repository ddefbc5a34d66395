import ChromiumBase.Net.Cookies.CanonicalCookie
import Mathlib.Algebra.Order.Ring.Nat

/-!
# The cookie store

`CookieMonster` (`net/cookies/cookie_monster.cc`): the map from keys to cookies, setting, loading
and deleting cookies, and garbage collection.  An entry of the map carries the address of its
cookie as `id`, by which an iterator denotes it.  Deletions are recorded with their cause, as they
are dispatched to listeners.  The persistent store, the queues of pending tasks, histograms and
logs are left out, and with them the insertions dispatched to listeners.

Where the source sorts by the time of the last access, cookies that compare equal may come in any
order: `Sorting` is any implementation of `std::sort` and `std::partial_sort`.
-/

namespace ChromiumBase.Cookies

open RegistryControlledDomains (dot Graph getDomainAndRegistry)

def kDomainMaxCookies : ℕ := 180

def kDomainPurgeCookies : ℕ := 30

def kMaxCookies : ℕ := 3300

def kPurgeCookies : ℕ := 300

def kDomainCookiesQuotaLow : ℕ := 30

def kDomainCookiesQuotaMedium : ℕ := 50

def kDomainCookiesQuotaHigh : ℕ :=
  kDomainMaxCookies - kDomainPurgeCookies - kDomainCookiesQuotaLow - kDomainCookiesQuotaMedium

def safeFromGlobalPurge : ℤ := 30 * 24 * 60 * 60 * 1000000

inductive DeletionCause where
  | explicit
  | overwrite
  | expired
  | duplicateInBackingStore
  | evictedDomain
  | evictedGlobal
  | expiredOverwrite
  | controlChar
  deriving DecidableEq, Repr

structure Entry where
  id : ℕ
  key : Text
  cookie : CanonicalCookie
  deriving DecidableEq, Repr

structure Deletion where
  entry : Entry
  cause : DeletionCause
  deriving DecidableEq, Repr

/-- The public-suffix rules and the test for IP addresses; no address begins with a dot. -/
structure Registry where
  graph : Graph
  hostIsIPAddress : Text → Bool
  not_isIPAddress_dot : ∀ text, hostIsIPAddress (dot :: text) = false

def LraLess (a b : Entry) : Prop :=
  a.cookie.lastAccessDate < b.cookie.lastAccessDate ∨
    a.cookie.lastAccessDate = b.cookie.lastAccessDate ∧
      a.cookie.creationDate < b.cookie.creationDate

instance (a b : Entry) : Decidable (LraLess a b) := inferInstanceAs (Decidable (_ ∨ _))

/-- Sorting by `LRACookieSorter`; a partial sort leaves everything behind the first `n` in any
order. -/
structure Sorting where
  sort : List Entry → List Entry
  sort_perm : ∀ l, (sort l).Perm l
  sort_sorted : ∀ l, (sort l).Pairwise fun a b => ¬ LraLess b a
  partialSort : List Entry → ℕ → List Entry
  partialSort_perm : ∀ l n, (partialSort l n).Perm l
  partialSort_sorted : ∀ l n, ((partialSort l n).take n).Pairwise fun a b => ¬ LraLess b a
  partialSort_first : ∀ l n, ∀ a ∈ (partialSort l n).take n, ∀ b ∈ (partialSort l n).drop n,
    ¬ LraLess b a

/-- What a call of the store meets besides its state. -/
structure Context where
  settings : Settings
  accessSemantics : CanonicalCookie → CookieAccessSemantics
  sorting : Sorting

structure CookieMonster where
  cookies : List Entry
  nextId : ℕ
  earliestAccessTime : Time
  cookieableSchemes : List Text
  lastAccessThreshold : ℤ
  deletions : List Deletion

inductive Crash where
  | duplicateEquivalentCookies
  deriving DecidableEq, Repr

def textLe : Text → Text → Bool
  | [], _ => true
  | _ :: _, [] => false
  | a :: as, b :: bs => if a < b then true else if b < a then false else textLe as bs

variable (registry : Registry) (ctx : Context) (s : CookieMonster)

/-- Domains are canonical, as those of cookies and URLs are, so that `CanonicalizeHost`, which
`GetDomainAndRegistry` calls first, leaves them as they are. -/
def getKey (domain : Text) : Text :=
  let effectiveDomain :=
    getDomainAndRegistry registry.graph registry.hostIsIPAddress domain .includePrivateRegistries
  let effectiveDomain := if effectiveDomain = [] then domain else effectiveDomain
  if effectiveDomain.head? = some dot then effectiveDomain.drop 1 else effectiveDomain

namespace CookieMonster

def new (lastAccessThreshold : ℤ) : CookieMonster where
  cookies := []
  nextId := 0
  earliestAccessTime := 0
  cookieableSchemes := [httpScheme, httpsScheme, wsScheme, wssScheme]
  lastAccessThreshold := lastAccessThreshold
  deletions := []

variable (s : CookieMonster)

def equalRange (key : Text) : List Entry := s.cookies.filter (·.key = key)

def internalInsertCookie (key : Text) (cc : CanonicalCookie) : CookieMonster :=
  { s with
    cookies := s.cookies.takeWhile (fun e => textLe e.key key) ++ ⟨s.nextId, key, cc⟩ ::
      s.cookies.dropWhile fun e => textLe e.key key
    nextId := s.nextId + 1 }

def internalDeleteCookie (cause : DeletionCause) (e : Entry) : CookieMonster :=
  { s with
    cookies := s.cookies.filter (·.id ≠ e.id)
    deletions := s.deletions ++ [⟨e, cause⟩] }

def deleteEach (cause : DeletionCause) (es : List Entry) : CookieMonster :=
  es.foldl (fun s e => s.internalDeleteCookie cause e) s

/-- `GarbageCollectExpired` on a range; the entries that stay are returned. -/
def garbageCollectExpired (current : Time) (range : List Entry) : CookieMonster × List Entry :=
  (s.deleteEach .expired (range.filter (·.cookie.isExpired current)),
    range.filter fun e => ¬ e.cookie.isExpired current)

def isCookieEligibleForEviction (currentPriorityLevel : CookiePriority)
    (protectSecureCookies : Bool) (cookie : CanonicalCookie) : Bool :=
  if cookie.priority = currentPriorityLevel ∧ protectSecureCookies then !cookie.secure
  else cookie.priority = currentPriorityLevel

def countCookiesForPossibleDeletion (priority : CookiePriority) (cookies : List Entry)
    (protectSecureCookies : Bool) : ℕ :=
  cookies.countP fun e =>
    e.cookie.priority = priority ∧ (protectSecureCookies = false ∨ e.cookie.secure)

def sizeSub (a b : ℕ) : ℕ := (a + 2 ^ 64 - b % 2 ^ 64) % 2 ^ 64

/-- The loop of `PurgeLeastRecentMatches` over the cookies from `current` on: those deleted, and
those kept. -/
def purgeLoop (eligible : CanonicalCookie → Bool) (purgeGoal : ℕ) :
    ℕ → ℕ → List Entry → List Entry × List Entry
  | _, _, [] => ([], [])
  | removed, possiblyToBeDeleted, e :: rest =>
    if removed < purgeGoal ∧ possiblyToBeDeleted > 0 then
      if eligible e.cookie then
        let r := purgeLoop eligible purgeGoal (removed + 1) (possiblyToBeDeleted - 1) rest
        (e :: r.1, r.2)
      else
        let r := purgeLoop eligible purgeGoal removed possiblyToBeDeleted rest
        (r.1, e :: r.2)
    else ([], e :: rest)

/-- How many cookies of the priority `PurgeLeastRecentMatches` may delete.  The differences are
those of `size_t`. -/
def possiblyToBeDeleted (cookies : List Entry) (priority : CookiePriority) (toProtect : ℕ)
    (protectSecureCookies : Bool) : ℕ :=
  let count := countCookiesForPossibleDeletion priority cookies false
  if protectSecureCookies then
    let secureCookies := countCookiesForPossibleDeletion priority cookies true
    sizeSub count (max secureCookies (sizeSub toProtect secureCookies))
  else sizeSub count toProtect

/-- The entries that `PurgeLeastRecentMatches` deletes, and those that stay in the vector. -/
def purgeLeastRecentMatches (cookies : List Entry) (priority : CookiePriority)
    (toProtect purgeGoal : ℕ) (protectSecureCookies : Bool) : List Entry × List Entry :=
  if countCookiesForPossibleDeletion priority cookies false ≤ toProtect then ([], cookies)
  else purgeLoop (isCookieEligibleForEviction priority protectSecureCookies) purgeGoal 0
    (possiblyToBeDeleted cookies priority toProtect protectSecureCookies) cookies

def quota : CookiePriority → ℕ
  | .low => kDomainCookiesQuotaLow
  | .medium => kDomainCookiesQuotaMedium
  | .high => kDomainCookiesQuotaHigh

def purgeRounds : List (CookiePriority × Bool) :=
  [(.low, true), (.low, false), (.medium, true), (.high, true), (.medium, false), (.high, false)]

def purge : List (CookiePriority × Bool) → List Entry → ℕ → List Entry × List Entry
  | [], cookies, _ => ([], cookies)
  | (priority, protectSecureCookies) :: rounds, cookies, purgeGoal =>
    if purgeGoal > 0 then
      let r := purgeLeastRecentMatches cookies priority (quota priority) purgeGoal
        protectSecureCookies
      let rest := purge rounds r.2 (sizeSub purgeGoal r.1.length)
      (r.1 ++ rest.1, rest.2)
    else purge rounds cookies purgeGoal

def garbageCollectKey (sorting : Sorting) (s : CookieMonster) (current : Time) (key : Text) :
    CookieMonster :=
  if (s.equalRange key).length > kDomainMaxCookies then
    let r := s.garbageCollectExpired current (s.equalRange key)
    if r.2.length > kDomainMaxCookies then
      let purgeGoal := r.2.length - (kDomainMaxCookies - kDomainPurgeCookies)
      r.1.deleteEach .evictedDomain (purge purgeRounds (sorting.sort r.2) purgeGoal).1
    else r.1
  else s

/-- The entries deleted, and the earliest access time left, null if none is left. -/
def garbageCollectLeastRecentlyAccessed (sorting : Sorting) (safeDate : Time) (purgeGoal : ℕ)
    (cookieIts : List Entry) : List Entry × Time :=
  let numSort := if cookieIts.length < purgeGoal then purgeGoal + 1 else purgeGoal
  let sorted := sorting.partialSort cookieIts numSort
  let old := (sorted.take purgeGoal).takeWhile fun e => e.cookie.lastAccessDate < safeDate
  (old, (sorted[old.length]?).elim 0 (·.cookie.lastAccessDate))

def garbageCollectAll (current : Time) : CookieMonster :=
  let safeDate := ctx.settings.now - safeFromGlobalPurge
  if s.cookies.length > kMaxCookies ∧ s.earliestAccessTime < safeDate then
    let r := s.garbageCollectExpired current s.cookies
    if r.2.length > kMaxCookies then
      let purgeGoal := r.2.length - (kMaxCookies - kPurgeCookies)
      let secureCookieIts := r.2.filter (·.cookie.secure)
      let nonSecureCookieIts := r.2.filter (!·.cookie.secure)
      let nonSecure := garbageCollectLeastRecentlyAccessed ctx.sorting safeDate
        (min purgeGoal nonSecureCookieIts.length) nonSecureCookieIts
      let s := r.1.deleteEach .evictedGlobal nonSecure.1
      if secureCookieIts.length = 0 then { s with earliestAccessTime := nonSecure.2 }
      else if nonSecure.1.length < purgeGoal then
        let secure := garbageCollectLeastRecentlyAccessed ctx.sorting safeDate
          (min (purgeGoal - nonSecure.1.length) secureCookieIts.length) secureCookieIts
        { s.deleteEach .evictedGlobal secure.1 with
          earliestAccessTime :=
            if nonSecure.2 ≠ 0 ∧ nonSecure.2 < secure.2 then nonSecure.2 else secure.2 }
      else s
    else r.1
  else s

def garbageCollect (current : Time) (key : Text) : CookieMonster :=
  (s.garbageCollectKey ctx.sorting current key).garbageCollectAll ctx current

/-- What the loop of `MaybeDeleteEquivalentCookieAndUpdateStatus` has found. -/
structure Scan where
  foundEquivalentCookie : Bool
  maybeDelete : Option Entry
  status : CookieInclusionStatus

def scanStep (cookieBeingSet : CanonicalCookie) (sourceSecure skipHttpOnly : Bool) (scan : Scan)
    (e : Entry) : Except Crash Scan :=
  let status := scan.status.addIf (e.cookie.secure ∧ ¬ sourceSecure ∧
    cookieBeingSet.IsEquivalentForSecureCookieMatching e.cookie) .excludeOverwriteSecure
  if cookieBeingSet.IsEquivalent e.cookie then
    if scan.foundEquivalentCookie then .error .duplicateEquivalentCookies
    else if skipHttpOnly ∧ e.cookie.httpOnly then
      .ok ⟨true, scan.maybeDelete, status.addIf True .excludeOverwriteHttpOnly⟩
    else .ok ⟨true, some e, status⟩
  else .ok { scan with status := status }

/-- With the store come the creation date to inherit and the status. -/
def maybeDeleteEquivalentCookieAndUpdateStatus (key : Text)
    (cookieBeingSet : CanonicalCookie) (sourceSecure skipHttpOnly alreadyExpired : Bool)
    (status : CookieInclusionStatus) :
    Except Crash (CookieMonster × Time × CookieInclusionStatus) := do
  let scan ← (s.equalRange key).foldlM (scanStep cookieBeingSet sourceSecure skipHttpOnly)
    ⟨false, none, status⟩
  match scan.maybeDelete with
  | none => pure (s, 0, scan.status)
  | some e =>
    if scan.status.isInclude then
      pure (s.internalDeleteCookie (if alreadyExpired then .expiredOverwrite else .overwrite) e,
        if e.cookie.value = cookieBeingSet.value then e.cookie.creationDate else 0, scan.status)
    else pure (s, 0, scan.status)

def toLowerASCII (text : Text) : Text :=
  text.map fun c => if 0x41 ≤ c ∧ c ≤ 0x5a then c + 0x20 else c

def isCookieableScheme (scheme : Text) : Bool := scheme ∈ s.cookieableSchemes

def setCanonicalCookie (cc : CanonicalCookie) (sourceScheme : Text) (options : CookieOptions) :
    Except Crash (CookieMonster × CookieInclusionStatus) := do
  let scheme := toLowerASCII sourceScheme
  let secureSource := schemeIsCryptographic scheme
  let cc := { cc with sourceScheme := if secureSource then .secure else .nonSecure }
  let status : CookieInclusionStatus := []
  let status := status.addIf (cc.secure ∧ ¬ secureSource) .excludeSecureOnly
  let status := status.addIf (¬ s.isCookieableScheme scheme) .excludeNonCookieableScheme
  let status := cc.isSetPermittedInContext ctx.settings (ctx.accessSemantics cc) options status
  let key := getKey registry cc.domain
  let cc := { cc with
    creationDate := if cc.creationDate = 0 then ctx.settings.now else cc.creationDate }
  let creationDate := cc.creationDate
  let alreadyExpired := cc.isExpired creationDate
  let (s, creationDateToInherit, status) ← s.maybeDeleteEquivalentCookieAndUpdateStatus key cc
    secureSource options.excludeHttpOnly alreadyExpired status
  if status.isInclude then
    let s :=
      if alreadyExpired then s
      else s.internalInsertCookie key { cc with
        creationDate :=
          if creationDateToInherit ≠ 0 then creationDateToInherit else cc.creationDate }
    pure (s.garbageCollect ctx creationDate key, status)
  else pure (s, status)

def setOne (cookie : CanonicalCookie) : CookieMonster :=
  let key := getKey registry cookie.domain
  if cookie.isExpired cookie.creationDate then s
  else (s.internalInsertCookie key cookie).garbageCollect ctx cookie.creationDate key

def setAllCookies (list : List CanonicalCookie) : CookieMonster :=
  list.foldl (setOne registry ctx) (s.deleteEach .explicit s.cookies)

def containsControlCharacter (text : Text) : Bool := text.any fun c => c ≤ 31

def hasControlCharacter (cookie : CanonicalCookie) : Bool :=
  containsControlCharacter cookie.name ∨ containsControlCharacter cookie.value

def storeLoaded (cookie : CanonicalCookie) : CookieMonster :=
  let s := s.internalInsertCookie (getKey registry cookie.domain) cookie
  if s.earliestAccessTime = 0 ∨ cookie.lastAccessDate < s.earliestAccessTime then
    { s with earliestAccessTime := cookie.lastAccessDate }
  else s

structure CookieSignature where
  name : Text
  domain : Text
  path : Text
  deriving DecidableEq, Repr

def signature (e : Entry) : CookieSignature := ⟨e.cookie.name, e.cookie.domain, e.cookie.path⟩

/-- Insertion into a `CookieSet`: behind all entries created at the same time or later. -/
def insertByCreation (e : Entry) (set : List Entry) : List Entry :=
  set.takeWhile (fun e' => e.cookie.creationDate ≤ e'.cookie.creationDate) ++ e ::
    set.dropWhile fun e' => e.cookie.creationDate ≤ e'.cookie.creationDate

def signatureLe (a b : CookieSignature) : Bool :=
  if a.name ≠ b.name then textLe a.name b.name
  else if a.domain ≠ b.domain then textLe a.domain b.domain
  else textLe a.path b.path

def addEquivalent (map : List (CookieSignature × List Entry)) (e : Entry) :
    List (CookieSignature × List Entry) :=
  if map.any (·.1 = signature e) then
    map.map fun group =>
      if group.1 = signature e then (group.1, insertByCreation e group.2) else group
  else
    map.takeWhile (fun group => signatureLe group.1 (signature e)) ++ (signature e, [e]) ::
      map.dropWhile fun group => signatureLe group.1 (signature e)

/-- The duplicates that `TrimDuplicateCookiesForKey` deletes: in each set all but the first. -/
def duplicates (range : List Entry) : List Entry :=
  (range.foldl addEquivalent []).flatMap fun group => group.2.drop 1

def trimDuplicateCookiesForKey (key : Text) : CookieMonster :=
  s.deleteEach .duplicateInBackingStore (duplicates (s.equalRange key))

def ensureCookiesMapIsValid : CookieMonster :=
  (s.cookies.map (·.key)).eraseDups.foldl trimDuplicateCookiesForKey s

def storeLoadedCookies (cookies : List CanonicalCookie) : CookieMonster :=
  let loaded := cookies.foldl (storeLoaded registry) s
  let withControlChars :=
    loaded.cookies.filter fun e => s.nextId ≤ e.id ∧ hasControlCharacter e.cookie
  (loaded.deleteEach .controlChar withControlChars).ensureCookiesMapIsValid

def deleteMatching (cause : DeletionCause) (p : CanonicalCookie → Bool) : CookieMonster :=
  s.deleteEach cause (s.cookies.filter (p ·.cookie))

def timeRangeContains (start stop time : Time) : Bool :=
  if start ≠ 0 ∧ start = stop then time = start
  else (start = 0 ∨ start ≤ time) ∧ (stop = 0 ∨ time < stop)

def deleteAllCreatedInTimeRange (start stop : Time) : CookieMonster :=
  s.deleteMatching .explicit fun c => timeRangeContains start stop c.creationDate

/-- `DeleteAllMatchingInfo`, for what `CookieDeletionInfo::Matches` says of the cookies. -/
def deleteAllMatchingInfo (matchesInfo : CanonicalCookie → Bool) : CookieMonster :=
  s.deleteMatching .explicit matchesInfo

def deleteSessionCookies : CookieMonster :=
  s.deleteMatching .expired fun c => !c.isPersistent

def deleteCanonicalCookie (cookie : CanonicalCookie) : CookieMonster :=
  match (s.equalRange (getKey registry cookie.domain)).find? fun e =>
    e.cookie.IsEquivalent cookie ∧ e.cookie.value = cookie.value with
  | none => s
  | some e => s.internalDeleteCookie .explicit e

def getAllCookies : CookieMonster :=
  (s.garbageCollectExpired ctx.settings.now s.cookies).1

def findCookiesForRegistryControlledHost (url : Url) : CookieMonster × List Entry :=
  s.garbageCollectExpired ctx.settings.now (s.equalRange (getKey registry url.host))

def internalUpdateCookieAccessTime (current : Time) (e : Entry) : CookieMonster :=
  if current - e.cookie.lastAccessDate < s.lastAccessThreshold then s
  else { s with
    cookies := s.cookies.map fun e' =>
      if e'.id = e.id then { e' with cookie := { e'.cookie with lastAccessDate := current } }
      else e' }

def included (url : Url) (options : CookieOptions) (es : List Entry) : List Entry :=
  es.filter fun e =>
    (e.cookie.includeForRequestURL ctx.settings (ctx.accessSemantics e.cookie) url
      options).isInclude

/-- The store with the access times updated, and the cookies included. -/
def filterCookiesWithOptions (url : Url)
    (options : CookieOptions) (es : List Entry) : CookieMonster × List Entry :=
  (if options.updateAccessTime then
      (included ctx url options es).foldl
        (fun s e => s.internalUpdateCookieAccessTime ctx.settings.now e) s
    else s, included ctx url options es)

/-- `GetCookieListWithOptions`, for its effect on the store; the order in which the cookies are
returned is left out. -/
def getCookieListWithOptions (url : Url)
    (options : CookieOptions) : CookieMonster × List Entry :=
  if s.isCookieableScheme url.scheme then
    let r := s.findCookiesForRegistryControlledHost registry ctx url
    r.1.filterCookiesWithOptions ctx url options r.2
  else (s, [])

end CookieMonster

end ChromiumBase.Cookies
