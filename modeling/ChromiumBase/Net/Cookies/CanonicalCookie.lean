import ChromiumBase.Net.Base.RegistryControlledDomain

/-!
# Cookies

`CanonicalCookie` (`net/cookies/canonical_cookie.cc`) with the matching of domains and paths and
the decisions to include a cookie in a request and to let one be set.  Texts are byte strings and
times are microseconds, where 0 is the null time.
-/

namespace ChromiumBase.Cookies

open RegistryControlledDomains (dot)

abbrev Text := List UInt8

abbrev Time := ℤ

def slash : UInt8 := 0x2f

inductive CookiePriority where
  | low
  | medium
  | high
  deriving DecidableEq, Repr

inductive CookieSameSite where
  | unspecified
  | noRestriction
  | laxMode
  | strictMode
  deriving DecidableEq, Repr

inductive CookieEffectiveSameSite where
  | noRestriction
  | laxMode
  | strictMode
  | laxModeAllowUnsafe
  deriving DecidableEq, Repr

inductive CookieAccessSemantics where
  | unknown
  | nonlegacy
  | legacy
  deriving DecidableEq, Repr

inductive CookieSourceScheme where
  | unset
  | nonSecure
  | secure
  deriving DecidableEq, Repr

structure CanonicalCookie where
  name : Text
  value : Text
  domain : Text
  path : Text
  creationDate : Time
  expiryDate : Time
  lastAccessDate : Time
  secure : Bool
  httpOnly : Bool
  sameSite : CookieSameSite
  priority : CookiePriority
  sourceScheme : CookieSourceScheme
  deriving DecidableEq, Repr

structure Url where
  scheme : Text
  host : Text
  path : Text
  deriving DecidableEq, Repr

def httpScheme : Text := [0x68, 0x74, 0x74, 0x70]

def httpsScheme : Text := [0x68, 0x74, 0x74, 0x70, 0x73]

def wsScheme : Text := [0x77, 0x73]

def wssScheme : Text := [0x77, 0x73, 0x73]

def schemeIsCryptographic (scheme : Text) : Bool := scheme = httpsScheme ∨ scheme = wssScheme

def isDomainMatch (domain host : Text) : Bool :=
  if host = domain then true
  else if domain.head? ≠ some dot then false
  else if domain.drop 1 = host then true
  else host.length > domain.length ∧ host.drop (host.length - domain.length) = domain

namespace CanonicalCookie

def isPersistent (c : CanonicalCookie) : Bool := c.expiryDate ≠ 0

def isExpired (c : CanonicalCookie) (current : Time) : Bool :=
  c.expiryDate ≠ 0 ∧ current ≥ c.expiryDate

def IsEquivalent (c ecc : CanonicalCookie) : Prop :=
  c.name = ecc.name ∧ c.domain = ecc.domain ∧ c.path = ecc.path

instance (c ecc : CanonicalCookie) : Decidable (c.IsEquivalent ecc) :=
  inferInstanceAs (Decidable (_ ∧ _ ∧ _))

def domainWithoutDot (c : CanonicalCookie) : Text :=
  if c.domain.head? ≠ some dot then c.domain else c.domain.drop 1

def isOnPath (c : CanonicalCookie) (urlPath : Text) : Bool :=
  if c.path = [] then false
  else if ¬ c.path.isPrefixOf urlPath then false
  else ¬ (c.path.length ≠ urlPath.length ∧ c.path.getLast? ≠ some slash ∧
    urlPath[c.path.length]? ≠ some slash)

def IsEquivalentForSecureCookieMatching (c ecc : CanonicalCookie) : Prop :=
  c.name = ecc.name ∧ (isDomainMatch ecc.domain c.domainWithoutDot ∨
    isDomainMatch c.domain ecc.domainWithoutDot) ∧ ecc.isOnPath c.path

instance (c ecc : CanonicalCookie) : Decidable (c.IsEquivalentForSecureCookieMatching ecc) :=
  inferInstanceAs (Decidable (_ ∧ _ ∧ _))

end CanonicalCookie

/-- `CookieInclusionStatus::ExclusionReason`, the reasons that the functions below add. -/
inductive ExclusionReason where
  | excludeHttpOnly
  | excludeSecureOnly
  | excludeDomainMismatch
  | excludeNotOnPath
  | excludeSameSiteStrict
  | excludeSameSiteLax
  | excludeSameSiteUnspecifiedTreatedAsLax
  | excludeSameSiteNoneInsecure
  | excludeNonCookieableScheme
  | excludeOverwriteSecure
  | excludeOverwriteHttpOnly
  deriving DecidableEq, Repr

/-- The reasons for exclusion of a `CookieInclusionStatus`, each at most once. -/
abbrev CookieInclusionStatus := List ExclusionReason

namespace CookieInclusionStatus

def isInclude (status : CookieInclusionStatus) : Bool := status = []

def addIf (status : CookieInclusionStatus) (c : Prop) [Decidable c] (reason : ExclusionReason) :
    CookieInclusionStatus :=
  if c ∧ reason ∉ status then status ++ [reason] else status

end CookieInclusionStatus

/-- `CookieOptions::SameSiteCookieContext` without its cross-scheme bits. -/
inductive SameSiteCookieContext where
  | crossSite
  | sameSiteLaxMethodUnsafe
  | sameSiteLax
  | sameSiteStrict
  deriving DecidableEq, Repr

def SameSiteCookieContext.toNat : SameSiteCookieContext → ℕ
  | crossSite => 0
  | sameSiteLaxMethodUnsafe => 1
  | sameSiteLax => 2
  | sameSiteStrict => 3

structure CookieOptions where
  excludeHttpOnly : Bool
  sameSiteCookieContext : SameSiteCookieContext
  updateAccessTime : Bool
  deriving DecidableEq, Repr

structure Settings where
  now : Time
  sameSiteByDefaultCookies : Bool
  cookiesWithoutSameSiteMustBeSecure : Bool
  laxAllowUnsafeThresholdAge : ℤ
  deriving DecidableEq, Repr

namespace CanonicalCookie

variable (settings : Settings) (accessSemantics : CookieAccessSemantics) (c : CanonicalCookie)

def getEffectiveSameSite : CookieEffectiveSameSite :=
  let shouldApplySameSiteLaxByDefault := match accessSemantics with
    | .legacy => false
    | .nonlegacy => true
    | .unknown => settings.sameSiteByDefaultCookies
  match c.sameSite with
  | .unspecified =>
    if shouldApplySameSiteLaxByDefault then
      if settings.now - c.creationDate ≤ settings.laxAllowUnsafeThresholdAge then
        .laxModeAllowUnsafe
      else .laxMode
    else .noRestriction
  | .noRestriction => .noRestriction
  | .laxMode => .laxMode
  | .strictMode => .strictMode

def isSameSiteNoneInsecure : Bool :=
  accessSemantics ≠ .legacy ∧
    (settings.sameSiteByDefaultCookies ∧ settings.cookiesWithoutSameSiteMustBeSecure) ∧
    c.sameSite = .noRestriction ∧ c.secure = false

def laxReason : ExclusionReason :=
  if c.sameSite = .unspecified then .excludeSameSiteUnspecifiedTreatedAsLax
  else .excludeSameSiteLax

/-- The `switch` of `IncludeForRequestURL`. -/
def addSameSiteForRequest (context : SameSiteCookieContext) (status : CookieInclusionStatus) :
    CookieInclusionStatus :=
  match c.getEffectiveSameSite settings accessSemantics with
  | .strictMode => status.addIf (context.toNat < SameSiteCookieContext.sameSiteStrict.toNat)
      .excludeSameSiteStrict
  | .laxMode => status.addIf (context.toNat < SameSiteCookieContext.sameSiteLax.toNat) c.laxReason
  | .laxModeAllowUnsafe =>
    status.addIf (context.toNat < SameSiteCookieContext.sameSiteLaxMethodUnsafe.toNat)
      .excludeSameSiteUnspecifiedTreatedAsLax
  | .noRestriction => status

def includeForRequestURL (url : Url) (options : CookieOptions) : CookieInclusionStatus :=
  let status : CookieInclusionStatus := []
  let status := status.addIf (options.excludeHttpOnly ∧ c.httpOnly) .excludeHttpOnly
  let status := status.addIf (c.secure ∧ ¬ schemeIsCryptographic url.scheme) .excludeSecureOnly
  let status := status.addIf (¬ isDomainMatch c.domain url.host) .excludeDomainMismatch
  let status := status.addIf (¬ c.isOnPath url.path) .excludeNotOnPath
  let status :=
    c.addSameSiteForRequest settings accessSemantics options.sameSiteCookieContext status
  status.addIf (c.isSameSiteNoneInsecure settings accessSemantics) .excludeSameSiteNoneInsecure

/-- A strict cookie may be set where a lax one may. -/
def isSetPermittedInContext (options : CookieOptions) (status : CookieInclusionStatus) :
    CookieInclusionStatus :=
  let status := status.addIf (options.excludeHttpOnly ∧ c.httpOnly) .excludeHttpOnly
  let status := status.addIf (c.isSameSiteNoneInsecure settings accessSemantics)
    .excludeSameSiteNoneInsecure
  let isCrossSite := options.sameSiteCookieContext.toNat < SameSiteCookieContext.sameSiteLax.toNat
  match c.getEffectiveSameSite settings accessSemantics with
  | .strictMode => status.addIf isCrossSite .excludeSameSiteStrict
  | .laxMode | .laxModeAllowUnsafe => status.addIf isCrossSite c.laxReason
  | .noRestriction => status

end CanonicalCookie

theorem CookieInclusionStatus.mem_addIf {status : CookieInclusionStatus} {c : Prop} [Decidable c]
    {reason other : ExclusionReason} :
    other ∈ status.addIf c reason ↔ other ∈ status ∨ c ∧ other = reason := by
  unfold addIf
  by_cases hc : c
  · by_cases hmem : reason ∈ status
    · rw [if_neg (by simp [hmem])]
      constructor
      · exact .inl
      · rintro (h | ⟨-, rfl⟩)
        · exact h
        · exact hmem
    · rw [if_pos ⟨hc, hmem⟩]
      simp [hc]
  · simp [hc]

namespace CanonicalCookie

theorem isDomainMatch_domainWithoutDot (c : CanonicalCookie) :
    isDomainMatch c.domain c.domainWithoutDot = true := by
  unfold isDomainMatch domainWithoutDot
  split
  · simp
  · split <;> simp

theorem isOnPath_self (c : CanonicalCookie) (h : c.path ≠ []) : c.isOnPath c.path = true := by
  unfold isOnPath
  rw [if_neg h]
  simp

theorem IsEquivalent.symm {a b : CanonicalCookie} (h : a.IsEquivalent b) : b.IsEquivalent a :=
  ⟨h.1.symm, h.2.1.symm, h.2.2.symm⟩

theorem IsEquivalent.trans {a b c : CanonicalCookie} (hab : a.IsEquivalent b)
    (hbc : b.IsEquivalent c) : a.IsEquivalent c :=
  ⟨hab.1.trans hbc.1, hab.2.1.trans hbc.2.1, hab.2.2.trans hbc.2.2⟩

theorem IsEquivalent.forSecureCookieMatching {c ecc : CanonicalCookie} (h : c.IsEquivalent ecc)
    (hp : c.path ≠ []) : c.IsEquivalentForSecureCookieMatching ecc := by
  obtain ⟨hn, hd, hpe⟩ := h
  refine ⟨hn, .inr ?_, ?_⟩
  · have hw : ecc.domainWithoutDot = c.domainWithoutDot := by
      unfold domainWithoutDot
      rw [hd]
    rw [hw]
    exact c.isDomainMatch_domainWithoutDot
  · rw [hpe]
    exact ecc.isOnPath_self (hpe ▸ hp)

theorem isDomainMatch_of_include {settings : Settings} {accessSemantics : CookieAccessSemantics}
    {c : CanonicalCookie} {url : Url} {options : CookieOptions}
    (h : c.includeForRequestURL settings accessSemantics url options = []) :
    isDomainMatch c.domain url.host = true := by
  by_contra hm
  have hmem : ExclusionReason.excludeDomainMismatch ∈
      c.includeForRequestURL settings accessSemantics url options := by
    unfold includeForRequestURL addSameSiteForRequest
    split <;> simp [CookieInclusionStatus.mem_addIf, hm]
  rw [h] at hmem
  cases hmem

end CanonicalCookie

end ChromiumBase.Cookies
