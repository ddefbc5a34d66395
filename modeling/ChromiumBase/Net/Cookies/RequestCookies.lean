import ChromiumBase.Lib.Tokens
import ChromiumBase.Net.Cookies.SecureCookies

/-!
# The cookies of a request

`FindCookiesForRegistryControlledHost` looks only under the key of the request's host, which is
its registrable domain.  A cookie whose domain matches the host has the same key if its domain
goes beyond the public suffix of the host (`getKey_eq_iff`), and is not found otherwise.  With
nested rules such a cookie can be set: for the rules `c` and `a.b.c` a cookie of `b.c` matches the
host `x.a.b.c`, whose public suffix is `a.b.c`.
-/

open List

namespace ChromiumBase.Cookies

open RegistryControlledDomains CookieMonster
open PublicSuffix (publicSuffix isRegistry_publicSuffix suffix_eq_of_length)

def getEffectiveDomain (registry : Registry) (scheme host : Text) : Text :=
  if scheme = httpScheme ∨ scheme = httpsScheme ∨ scheme = wsScheme ∨ scheme = wssScheme then
    getDomainAndRegistry registry.graph registry.hostIsIPAddress host .includePrivateRegistries
  else if host.head? = some dot then host.drop 1
  else host

/-- `cookie_util::GetCookieDomainWithString`, for what `CanonicalizeHost` makes of a text. -/
def getCookieDomainWithString (registry : Registry) (canonicalizeHost : Text → Text) (url : Url)
    (domainString : Text) : Option Text :=
  let cookieDomain := canonicalizeHost domainString
  if domainString = [] ∨ registry.hostIsIPAddress url.host ∧ url.host = cookieDomain then
    some url.host
  else if 0x25 ∈ domainString then none
  else if cookieDomain = [] then none
  else
    let cookieDomain :=
      if cookieDomain.head? ≠ some dot then dot :: cookieDomain else cookieDomain
    let urlDomainAndRegistry := getEffectiveDomain registry url.scheme url.host
    if urlDomainAndRegistry = [] then
      if url.host = domainString then some url.host else none
    else if urlDomainAndRegistry ≠ getEffectiveDomain registry url.scheme cookieDomain then none
    else if (if url.host.length < cookieDomain.length then cookieDomain ≠ dot :: url.host
        else url.host.drop (url.host.length - cookieDomain.length) ≠ cookieDomain) then none
    else some cookieDomain

/-- A host is matched by itself, and by a domain with a dot in front that it ends in. -/
theorem isDomainMatch_iff {domain host : Text} :
    isDomainMatch domain host = true ↔ domain = host ∨ domain = dot :: host ∨
      ∃ d front, domain = dot :: d ∧ host = front ++ dot :: d ∧ front ≠ [] := by
  rw [isDomainMatch]
  split
  next heq => simp [heq]
  next hne =>
    cases domain with
    | nil => simp [Ne.symm hne]
    | cons c d =>
      by_cases hc : c = dot
      · subst hc
        simp only [head?_cons, ne_eq, not_true_eq_false, if_false, drop_one, tail_cons]
        split
        next hd => simp [hd]
        next hd =>
          rw [decide_eq_true_eq]
          constructor
          · rintro ⟨hl, hdr⟩
            obtain ⟨front, hf⟩ := suffix_iff_eq_drop.mpr hdr.symm
            refine .inr (.inr ⟨d, front, rfl, hf.symm, ?_⟩)
            rintro rfl
            exact hne hf.symm
          · rintro (heq | heq | ⟨d', front, heq, hh, hf⟩)
            · exact absurd heq.symm hne
            · exact absurd (List.cons.inj heq).2 hd
            · obtain rfl := (List.cons.inj heq).2
              refine ⟨?_, (suffix_iff_eq_drop.mp ⟨front, hh.symm⟩).symm⟩
              have hpos := length_pos_iff.mpr hf
              rw [hh, length_append]
              omega
      · simp [hc, Ne.symm hne]

section Keys

variable {registry : Registry} {host domain lead trail front d : Text} {labels rest : List Text}

def suffixOf (registry : Registry) (labels : List Text) : List Text :=
  publicSuffix (listed registry.graph .includePrivateRegistries) labels

/-- The labels of a key: one label more than the public suffix, or all if there is none. -/
def keyLabels (registry : Registry) (labels : List Text) : List Text :=
  if (suffixOf registry labels).length = 0 ∨
    (suffixOf registry labels).length = labels.length then labels
  else labels.drop (labels.length - ((suffixOf registry labels).length + 1))

theorem keyLabels_suffix (registry : Registry) (labels : List Text) :
    keyLabels registry labels <:+ labels := by
  rw [keyLabels]
  split
  · exact suffix_rfl
  · exact drop_suffix _ _

theorem length_keyLabels_of_proper (h : ¬ ((suffixOf registry labels).length = 0 ∨
      (suffixOf registry labels).length = labels.length)) :
    (keyLabels registry labels).length = (suffixOf registry labels).length + 1 := by
  have hle : (suffixOf registry labels).length ≤ _ := (isRegistry_publicSuffix ..).suffix.length_le
  rw [keyLabels, if_neg h, length_drop]
  omega

/-- A host made of labels none of which is empty, with at most one dot at the end. -/
structure HasLabels (host : Text) (labels : List Text) (trail : Text) : Prop
    extends Shape host [] labels trail where
  label_ne_nil : ∀ label ∈ labels, label ≠ []

theorem exists_labels_of_eq (hdo : ∀ label ∈ labels, dot ∉ label) (hne : labels ≠ [])
    (ht : trail = [] ∨ trail = [dot]) (hd : d ≠ [])
    (h : joinDots labels ++ trail = front ++ dot :: d) :
    ∃ done rest, labels = done ++ rest ∧ done ≠ [] ∧ rest ≠ [] ∧ d = joinDots rest ++ trail := by
  induction labels generalizing front with
  | nil => exact absurd rfl hne
  | cons label labels ih =>
    have hla : dot ∉ label := hdo label mem_cons_self
    cases labels with
    | nil =>
      rw [joinDots_singleton] at h
      obtain ⟨a, ha⟩ := Tokens.append_eq_append_cons hla h
      have hle := congrArg List.length ha
      rw [length_append, length_cons] at hle
      have hpos := length_pos_iff.mpr hd
      rcases ht with rfl | rfl
      · rw [length_nil] at hle
        omega
      · rw [length_singleton] at hle
        omega
    | cons label' labels =>
      rw [joinDots_cons_cons, append_assoc] at h
      obtain ⟨a, ha⟩ := Tokens.append_eq_append_cons hla h
      cases a with
      | nil =>
        exact ⟨[label], label' :: labels, rfl, cons_ne_nil _ _, cons_ne_nil _ _,
          (List.cons.inj ha).2.symm⟩
      | cons x a =>
        obtain ⟨done, rest, hlab, hdon, hr, hd⟩ := ih
          (fun l hl => hdo l (mem_cons_of_mem _ hl)) (cons_ne_nil _ _)
          (List.cons.inj ha).2
        exact ⟨label :: done, rest, by rw [hlab]; rfl, cons_ne_nil _ _, hr, hd⟩

theorem HasLabels.of_suffix (h : HasLabels host labels trail) (hs : rest <:+ labels)
    (hne : rest ≠ []) : HasLabels (joinDots rest ++ trail) rest trail where
  eq := rfl
  lead_eq_dot := h.lead_eq_dot
  dot_not_mem label hl := h.dot_not_mem label (hs.subset hl)
  ne_nil := hne
  head_ne hnil := h.label_ne_nil [] (hs.subset (mem_of_head? hnil)) rfl
  last_ne hnil := h.label_ne_nil [] (hs.subset (mem_of_getLast? hnil)) rfl
  trail_eq := h.trail_eq
  label_ne_nil label hl := h.label_ne_nil label (hs.subset hl)

theorem HasLabels.head?_ne_dot (h : HasLabels host labels trail) :
    ∃ c text, host = c :: text ∧ c ≠ dot := by
  obtain ⟨c, hc, hne⟩ := h.toShape.head?_ne_dot
  obtain ⟨text, ht⟩ := head?_eq_some_iff.mp hc
  exact ⟨c, text ++ trail, by rw [h.eq, ht]; rfl, hne⟩

theorem HasLabels.shape_dot (h : HasLabels host labels trail) :
    Shape (dot :: host) [dot] labels trail where
  eq := by
    rw [h.eq]
    rfl
  lead_eq_dot := by simp
  dot_not_mem := h.dot_not_mem
  ne_nil := h.ne_nil
  head_ne := h.head_ne
  last_ne := h.last_ne
  trail_eq := h.trail_eq

theorem getDomainAndRegistry_eq (h : Shape host lead labels trail)
    (hip : registry.hostIsIPAddress host = false) :
    getDomainAndRegistry registry.graph registry.hostIsIPAddress host .includePrivateRegistries =
      if (suffixOf registry labels).length = 0 ∨
        (suffixOf registry labels).length = labels.length then []
      else joinDots (keyLabels registry labels) ++ trail := by
  have hne : host ≠ [] := by
    rintro rfl
    have hj := h.joinDots_ne_nil
    have heq := h.eq
    simp only [nil_eq, append_eq_nil_iff] at heq
    exact hj heq.1.2
  have hs : suffixOf registry labels =
      publicSuffix (listed registry.graph .includePrivateRegistries) labels := rfl
  rw [getDomainAndRegistry, if_neg (by simp [hne, hip]), getDomainAndRegistryImpl_eq h hs]
  split
  · rfl
  next hp => rw [keyLabels, if_neg hp]

theorem keyLabels_ne_nil (hne : labels ≠ []) : keyLabels registry labels ≠ [] := by
  have hpos := length_pos_iff.mpr hne
  rw [keyLabels]
  split
  · exact hne
  · rw [← length_pos_iff, length_drop]
    omega

theorem getKey_of_shape (h : HasLabels host labels trail)
    (hd : domain = host ∨ domain = dot :: host) (hs : Shape domain lead labels trail)
    (hip : registry.hostIsIPAddress domain = false) :
    getKey registry domain = joinDots (keyLabels registry labels) ++ trail := by
  have hkey := h.of_suffix (keyLabels_suffix registry labels) (keyLabels_ne_nil h.ne_nil)
  obtain ⟨c, text, ht, hc⟩ := hkey.head?_ne_dot
  rw [getKey, getDomainAndRegistry_eq hs hip]
  split
  next hw =>
    have hl : keyLabels registry labels = labels := if_pos hw
    rw [hl] at ht ⊢
    have hh : host = c :: text := by rw [← ht, h.eq, nil_append]
    rw [if_pos rfl, ht, ← hh]
    rcases hd with rfl | rfl
    · rw [if_neg (by simpa [hh] using hc)]
    · rw [head?_cons, if_pos rfl]
      rfl
  next hp =>
    rw [ht, if_neg (cons_ne_nil _ _), if_neg (by simpa using hc)]

theorem exists_labels_of_domain (h : HasLabels host labels trail) (hd : d ≠ [])
    (hh : host = front ++ dot :: d) :
    ∃ done rest, labels = done ++ rest ∧ done ≠ [] ∧ HasLabels d rest trail := by
  have heq : joinDots labels ++ trail = front ++ dot :: d := by
    rw [← hh, h.eq, nil_append]
  obtain ⟨done, rest, hl, hdo, hr, rfl⟩ :=
    exists_labels_of_eq h.dot_not_mem h.ne_nil h.trail_eq hd heq
  exact ⟨done, rest, hl, hdo, h.of_suffix ⟨done, hl.symm⟩ hr⟩

/-- A parent domain has the same key exactly if it is longer than the public suffix of the name,
and there is one. -/
theorem keyLabels_eq_iff {done : List Text} (hd : done ≠ []) :
    keyLabels registry rest = keyLabels registry (done ++ rest) ↔
      0 < (suffixOf registry (done ++ rest)).length ∧
      (suffixOf registry (done ++ rest)).length < rest.length := by
  have hpos := length_pos_iff.mpr hd
  have hl : (done ++ rest).length = done.length + rest.length := length_append
  constructor
  · intro heq
    have hle := (keyLabels_suffix registry rest).length_le
    rw [heq] at hle
    by_cases hw : (suffixOf registry (done ++ rest)).length = 0 ∨
        (suffixOf registry (done ++ rest)).length = (done ++ rest).length
    · rw [keyLabels, if_pos hw] at hle
      omega
    · rw [length_keyLabels_of_proper hw] at hle
      omega
  · rintro ⟨hz, hlt⟩
    have hr := isRegistry_publicSuffix (listed registry.graph .includePrivateRegistries)
      (done ++ rest)
    have hs : suffixOf registry (done ++ rest) = suffixOf registry rest :=
      (hr.of_suffix ⟨done, rfl⟩ hlt).unique (isRegistry_publicSuffix _ _)
    have hp : ¬ ((suffixOf registry (done ++ rest)).length = 0 ∨
        (suffixOf registry (done ++ rest)).length = (done ++ rest).length) := by omega
    have hp' : ¬ ((suffixOf registry rest).length = 0 ∨
        (suffixOf registry rest).length = rest.length) := by
      rw [← hs]
      omega
    refine suffix_eq_of_length ((keyLabels_suffix registry rest).trans ⟨done, rfl⟩)
      (keyLabels_suffix registry (done ++ rest)) ?_
    rw [length_keyLabels_of_proper hp, length_keyLabels_of_proper hp', hs]

/-- The cookie's domain is the host, or goes at least as far as the registrable domain of the
host. -/
def Reachable (registry : Registry) (host domain : Text) : Prop :=
  let effectiveDomain :=
    getDomainAndRegistry registry.graph registry.hostIsIPAddress host .includePrivateRegistries
  domain = host ∨ domain = dot :: host ∨ effectiveDomain ≠ [] ∧ effectiveDomain <:+ domain

theorem length_le_of_joinDots_suffix {key : List Text} (hr : rest <:+ labels)
    (hkey : key <:+ labels) (hl : ∀ label ∈ labels, label ≠ []) (hne : rest ≠ [])
    (h : (joinDots key ++ trail).length ≤ (dot :: (joinDots rest ++ trail)).length) :
    key.length ≤ rest.length := by
  by_contra hlt
  obtain ⟨more, rfl⟩ := suffix_of_suffix_length_le hr hkey (by omega)
  cases more with
  | nil => exact hlt le_rfl
  | cons label more =>
    have hla := length_pos_iff.mpr
      (hl label (hkey.subset (mem_append_left _ mem_cons_self)))
    rw [joinDots_append hne] at h
    simp only [ends, flatMap_cons, length_append, length_cons] at h
    omega

theorem getKey_dot (registry : Registry) : getKey registry [dot] = [] := by
  have he : getDomainAndRegistry registry.graph registry.hostIsIPAddress [dot]
      .includePrivateRegistries = [] := by
    rw [getDomainAndRegistry, getDomainAndRegistryImpl_of_dots (by simp), ite_self]
  rw [getKey, he]
  rfl

/-- A domain matches a host under the same key exactly if it goes beyond the public suffix of the
host. -/
theorem getKey_eq_iff (h : HasLabels host labels trail)
    (hip : registry.hostIsIPAddress host = false) (hm : isDomainMatch domain host = true) :
    getKey registry domain = getKey registry host ↔ Reachable registry host domain := by
  rcases isDomainMatch_iff.mp hm with rfl | rfl | ⟨d, front, rfl, hh, hf⟩
  · exact iff_of_true rfl (.inl rfl)
  · refine iff_of_true ?_ (.inr (.inl rfl))
    rw [getKey_of_shape h (.inl rfl) h.toShape hip,
      getKey_of_shape h (.inr rfl) h.shape_dot (registry.not_isIPAddress_dot _)]
  · have hlen : host.length = front.length + (dot :: d).length := by
      rw [hh, length_append]
    have hpos := length_pos_iff.mpr hf
    have hne : dot :: d ≠ host := by
      intro heq
      have := congrArg List.length heq
      omega
    have hne' : dot :: d ≠ dot :: host := by
      intro heq
      have := congrArg List.length (List.cons.inj heq).2
      rw [length_cons] at hlen
      omega
    rw [Reachable, or_iff_right hne, or_iff_right hne',
      getKey_of_shape h (.inl rfl) h.toShape hip, getDomainAndRegistry_eq h.toShape hip]
    have hkey := h.of_suffix (keyLabels_suffix registry labels) (keyLabels_ne_nil h.ne_nil)
    rcases eq_or_ne d [] with rfl | hd
    · -- the domain is a dot alone, and no key is empty
      obtain ⟨c, text, ht, hc⟩ := hkey.head?_ne_dot
      rw [ht, getKey_dot]
      refine iff_of_false (cons_ne_nil _ _).symm ?_
      rintro ⟨hne, hs⟩
      split at hne
      · exact absurd rfl hne
      next hp =>
        rw [if_neg hp] at hs
        exact hc (mem_singleton.mp (hs.subset mem_cons_self))
    · obtain ⟨done, rest, rfl, hdo, hr⟩ := exists_labels_of_domain h hd hh
      have hrk := hr.of_suffix (keyLabels_suffix registry rest)
        (keyLabels_ne_nil hr.ne_nil)
      have hla : (done ++ rest).length = done.length + rest.length := length_append
      have hsa : joinDots (keyLabels registry rest) ++ trail =
          joinDots (keyLabels registry (done ++ rest)) ++ trail ↔
          keyLabels registry rest = keyLabels registry (done ++ rest) :=
        ⟨fun heq => by rw [← splitOn_joinDots hrk.dot_not_mem hrk.ne_nil, append_cancel_right heq,
          splitOn_joinDots hkey.dot_not_mem hkey.ne_nil], fun heq => by rw [heq]⟩
      rw [getKey_of_shape hr (.inr rfl) hr.shape_dot (registry.not_isIPAddress_dot _), hsa]
      constructor
      · intro heq
        obtain ⟨hz, hlt⟩ := (keyLabels_eq_iff hdo).mp heq
        rw [if_neg (by omega), ← heq]
        obtain ⟨c, text, ht, -⟩ := hrk.head?_ne_dot
        refine ⟨by rw [ht]; exact cons_ne_nil _ _, ?_⟩
        obtain ⟨more, hmo⟩ := keyLabels_suffix registry rest
        refine List.IsSuffix.trans ⟨ends more, ?_⟩ (suffix_cons _ _)
        rw [hr.eq, ← append_assoc, ← joinDots_append hrk.ne_nil, hmo]
        rfl
      · rintro ⟨hne, hs⟩
        split at hne
        · exact absurd rfl hne
        next hp =>
          rw [if_neg hp] at hs
          have hl := hs.length_le
          rw [hr.eq, nil_append] at hl
          have hle := length_le_of_joinDots_suffix ⟨done, rfl⟩
            (keyLabels_suffix registry (done ++ rest)) h.label_ne_nil hr.ne_nil hl
          rw [length_keyLabels_of_proper hp] at hle
          exact (keyLabels_eq_iff hdo).mpr ⟨by omega, by omega⟩

end Keys

section Lookup

variable {registry : Registry} {ctx : Context} {s : CookieMonster}

/-- The cookies that `FindCookiesForRegistryControlledHost` and then `FilterCookiesWithOptions`
give for a request. -/
def requestCookies (registry : Registry) (ctx : Context) (s : CookieMonster) (url : Url)
    (options : CookieOptions) : List Entry :=
  let found := s.findCookiesForRegistryControlledHost registry ctx url
  (found.1.filterCookiesWithOptions ctx url options found.2).2

def Requested (ctx : Context) (url : Url) (options : CookieOptions) (e : Entry) : Prop :=
  e.cookie.isExpired ctx.settings.now = false ∧
    (e.cookie.includeForRequestURL ctx.settings (ctx.accessSemantics e.cookie) url
      options).isInclude = true

/-- A request gets the cookies that are filed under the key of its host. -/
theorem mem_requestCookies (hs : WellFormed registry s) (url : Url) (options : CookieOptions)
    (e : Entry) :
    e ∈ requestCookies registry ctx s url options ↔ e ∈ s.cookies ∧ Requested ctx url options e ∧
      getKey registry e.cookie.domain = getKey registry url.host := by
  have hkey : e ∈ s.cookies →
      (e.key = getKey registry url.host ↔
        getKey registry e.cookie.domain = getKey registry url.host) := by
    intro he
    rw [hs.key_eq e he]
  simp only [requestCookies, filterCookiesWithOptions, findCookiesForRegistryControlledHost,
    garbageCollectExpired, included, mem_filter, mem_equalRange,
    decide_eq_true_eq, Bool.not_eq_true]
  constructor
  · rintro ⟨⟨⟨he, hr⟩, hl⟩, hi⟩
    exact ⟨he, ⟨hl, hi⟩, (hkey he).mp hr⟩
  · rintro ⟨he, ⟨hl, hi⟩, hr⟩
    exact ⟨⟨⟨he, (hkey he).mpr hr⟩, hl⟩, hi⟩

/-- A request gets the cookies that belong to it and lie under the key of its host.  For a host
made of labels that is not an address these are the ones whose domain is the host or goes at least
as far as the registrable domain of the host. -/
theorem mem_requestCookies_iff (hs : WellFormed registry s) (url : Url) (options : CookieOptions)
    (e : Entry) : (e ∈ requestCookies registry ctx s url options ↔ e ∈ s.cookies ∧
      Requested ctx url options e ∧
      getKey registry e.cookie.domain = getKey registry url.host) ∧
    (∀ labels trail, HasLabels url.host labels trail → registry.hostIsIPAddress url.host = false →
      (e ∈ requestCookies registry ctx s url options ↔ e ∈ s.cookies ∧
        Requested ctx url options e ∧ Reachable registry url.host e.cookie.domain)) := by
  refine ⟨mem_requestCookies hs url options e, fun labels trail hl hip => ?_⟩
  rw [mem_requestCookies hs url options e]
  refine and_congr_right fun _ => and_congr_right fun hr => ?_
  exact getKey_eq_iff hl hip
    (CanonicalCookie.isDomainMatch_of_include (of_decide_eq_true hr.2))

/-- The URL `https://y.b.c/`. -/
def siblingUrl : Url := ⟨httpsScheme, [0x79, 0x2e, 0x62, 0x2e, 0x63], [slash]⟩

/-- The URL `https://x.a.b.c/`. -/
def nestedUrl : Url := ⟨httpsScheme, [0x78, 0x2e, 0x61, 0x2e, 0x62, 0x2e, 0x63], [slash]⟩

theorem mem_requestCookies_sibling :
    secureEntry ∈ requestCookies nestedRules plainContext secureStore siblingUrl plainOptions ∧
      httpOnlyEntry ∈
        requestCookies nestedRules plainContext secureStore siblingUrl plainOptions := by
  have hlabels : HasLabels siblingUrl.host [[0x79], [0x62], [0x63]] [] :=
    ⟨⟨rfl, by simp, by decide, by simp, by simp, by simp, .inl rfl⟩, by decide⟩
  refine ⟨?_, ?_⟩
  · exact (mem_requestCookies_iff wellFormed_secureStore siblingUrl plainOptions secureEntry).1.mpr
      ⟨mem_cons_self, ⟨rfl, rfl⟩, rfl⟩
  · refine ((mem_requestCookies_iff wellFormed_secureStore siblingUrl plainOptions
      httpOnlyEntry).2 _ _ hlabels rfl).mpr
        ⟨mem_cons_of_mem _ mem_cons_self, ⟨rfl, rfl⟩, .inr (.inr ?_)⟩
    exact ⟨by decide, by decide⟩

/-- The cookie of `b.c`, which a page of `y.b.c` may set, belongs to a request to `x.a.b.c`, but is
not found. -/
theorem mem_requestCookies_nested :
    getCookieDomainWithString nestedRules id siblingUrl [0x62, 0x2e, 0x63] =
        some secureCookie.domain ∧
      secureEntry ∈ secureStore.cookies ∧
      Requested plainContext nestedUrl plainOptions secureEntry ∧
      requestCookies nestedRules plainContext secureStore nestedUrl plainOptions = [] := by
  refine ⟨by decide +kernel, mem_cons_self, ⟨rfl, rfl⟩, by decide +kernel⟩

end Lookup

end ChromiumBase.Cookies
