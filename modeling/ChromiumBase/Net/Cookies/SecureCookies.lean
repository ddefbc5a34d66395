import ChromiumBase.Net.Cookies.Uniqueness

/-!
# Cookies that a call may not overwrite

`SetCanonicalCookie` from a scheme that is not cryptographic leaves Secure cookies alone, and one
that excludes HttpOnly cookies leaves those alone: only garbage collection deletes any
(`setCanonicalCookie_leaves_alone`).  A Secure cookie that matches the new one in name, domain and
path also keeps it from being stored, if both lie under the same key.  The scan does not see other
keys: under nested rules a domain may match one whose registrable domain is longer.
-/

open List

namespace ChromiumBase.Cookies

open CookieMonster

variable {registry : Registry} {ctx : Context} {s s' : CookieMonster} {cc : CanonicalCookie}
  {sourceScheme : Text} {options : CookieOptions} {status : CookieInclusionStatus} {e : Entry}
  {skipHttpOnly : Bool}

/-- The entry is still stored, or garbage collection has deleted it. -/
def KeptOrCollected (s s' : CookieMonster) (e : Entry) : Prop :=
  e ∈ s'.cookies ∨ ∃ new, s'.deletions = s.deletions ++ new ∧ ∃ cause ∈ collected, ⟨e, cause⟩ ∈ new

theorem CookieMonster.Deletes.keptOrCollected (h : Deletes collected s s') (he : e ∈ s.cookies) :
    KeptOrCollected s s' e := by
  obtain ⟨new, hnew, hr⟩ := h.recorded
  exact (hr e he).imp_right fun hc => ⟨new, hnew, hc⟩

theorem KeptOrCollected.of_deletes {causes : List DeletionCause} {s₁ s₂ : CookieMonster}
    (h₁ : Deletes causes s s₁) (hd : s₂.deletions = s₁.deletions)
    (h : KeptOrCollected s₂ s' e) : KeptOrCollected s s' e := by
  obtain ⟨new₁, hnew₁, -⟩ := h₁.recorded
  refine h.imp_right fun ⟨new, hnew, cause, hc, hmem⟩ => ?_
  refine ⟨new₁ ++ new, ?_, cause, hc, mem_append_right _ hmem⟩
  rw [hnew, hd, hnew₁, append_assoc]

theorem CookieSet.keptOrCollected (hs : WellFormed registry s)
    (h : CookieSet registry ctx cc skipHttpOnly s s' status) (he : e ∈ s.cookies)
    (hp : status = [] → cc.IsEquivalent e.cookie → skipHttpOnly ∧ e.cookie.httpOnly) :
    KeptOrCollected s s' e := by
  have hk : ∀ {s₁ : CookieMonster},
      Replaces cc skipHttpOnly (s.equalRange (getKey registry cc.domain)) s s₁ [] →
      status = [] → e ∈ s₁.cookies := by
    intro s₁ hr hst
    cases hr with
    | unchanged => exact he
    | @deleted e' cause _ he' heq hsk _ =>
      have hne : e ≠ e' := by
        rintro rfl
        exact hsk (hp hst heq)
      exact (mem_internalDeleteCookie hs (mem_equalRange.mp he').1).mpr ⟨he, hne⟩
  cases h with
  | rejected => exact .inl he
  | expired date hr =>
    have hd := hr.deletes hs
    have hgc := deletes_garbageCollect (hd.wellFormed hs) ctx date
      (getKey registry cc.domain)
    exact KeptOrCollected.of_deletes hd rfl (hgc.keptOrCollected (hk hr rfl))
  | @stored s₁ stored date hr hsto =>
    obtain ⟨creationDate, scheme, rfl⟩ := hsto
    have hd := hr.deletes hs
    have hs₂ := wellFormed_internalInsertCookie (hd.wellFormed hs)
      { cc with creationDate := creationDate, sourceScheme := scheme }
    have hgc := deletes_garbageCollect hs₂ ctx date (getKey registry cc.domain)
    exact KeptOrCollected.of_deletes hd rfl
      (hgc.keptOrCollected (mem_internalInsertCookie.mpr (.inr (hk hr rfl))))

theorem CookieSet.eq_of_mem {reason : ExclusionReason}
    (h : CookieSet registry ctx cc skipHttpOnly s s' status) (hr : reason ∈ status) : s' = s := by
  cases h with
  | rejected => rfl
  | expired | stored => exact absurd hr not_mem_nil

/-- Secure and HttpOnly cookies are left alone by calls that may not overwrite them, and a Secure
cookie under the key of the new cookie that matches it keeps it from being stored. -/
theorem setCanonicalCookie_leaves_alone (hs : WellFormed registry s) (hpath : cc.path ≠ [])
    (h : s.setCanonicalCookie registry ctx cc sourceScheme options = .ok (s', status)) :
    (schemeIsCryptographic (toLowerASCII sourceScheme) = false →
      (∀ e ∈ s.cookies, e.cookie.secure = true → KeptOrCollected s s' e) ∧
      ((∃ e ∈ s.cookies, e.cookie.secure = true ∧ cc.IsEquivalentForSecureCookieMatching e.cookie ∧
          getKey registry e.cookie.domain = getKey registry cc.domain) →
        .excludeOverwriteSecure ∈ status ∧ s' = s)) ∧
    (options.excludeHttpOnly = true →
      ∀ e ∈ s.cookies, e.cookie.httpOnly = true → KeptOrCollected s s' e) := by
  obtain ⟨hset, hst⟩ := cookieSet_of_setCanonicalCookie h
  have hc : schemeIsCryptographic (toLowerASCII sourceScheme) = false →
      ∀ e ∈ s.equalRange (getKey registry cc.domain), e.cookie.secure = true →
        cc.IsEquivalentForSecureCookieMatching e.cookie → .excludeOverwriteSecure ∈ status := by
    intro hsc e he hse hm
    refine (hst _).mpr (.inr ⟨e, he, .inl ⟨rfl, hse, ?_, hm⟩⟩)
    rw [hsc]
    exact Bool.false_ne_true
  refine ⟨fun hsc => ⟨fun e he hse => ?_, ?_⟩, fun hsk e he hho => ?_⟩
  · refine hset.keptOrCollected hs he fun hnil heq => ?_
    have hmem := hc hsc e (hs.mem_equalRange_of_isEquivalent he heq) hse
      (heq.forSecureCookieMatching hpath)
    rw [hnil] at hmem
    exact absurd hmem not_mem_nil
  · rintro ⟨e, he, hse, hm, hkey⟩
    have hmem := hc hsc e (mem_equalRange.mpr ⟨he, by rw [hs.key_eq e he, hkey]⟩)
      hse hm
    exact ⟨hmem, hset.eq_of_mem hmem⟩
  · exact hset.keptOrCollected hs he fun _ _ => ⟨hsk, hho⟩

/-- The rules `c` and `a.b.c`. -/
def nestedRules : Registry where
  graph name :=
    if name = [0x63] ∨ name = [0x61, 0x2e, 0x62, 0x2e, 0x63] then some {} else none
  hostIsIPAddress _ := false
  not_isIPAddress_dot _ := rfl

/-- A Secure cookie for `b.c` and all names below. -/
def secureCookie : CanonicalCookie :=
  { plainCookie .medium true 1 with domain := [0x2e, 0x62, 0x2e, 0x63] }

/-- A cookie of the host `y.b.c`. -/
def siblingCookie : CanonicalCookie :=
  { plainCookie .medium false 1 with domain := [0x79, 0x2e, 0x62, 0x2e, 0x63] }

/-- A cookie of the host `x.a.b.c`. -/
def nestedCookie : CanonicalCookie :=
  { plainCookie .medium false 1 with domain := [0x78, 0x2e, 0x61, 0x2e, 0x62, 0x2e, 0x63] }

/-- An HttpOnly cookie for `b.c` and all names below. -/
def httpOnlyCookie : CanonicalCookie :=
  { plainCookie .medium false 1 with
    name := [0x6e]
    domain := [0x2e, 0x62, 0x2e, 0x63]
    httpOnly := true }

def secureEntry : Entry := ⟨0, [0x62, 0x2e, 0x63], secureCookie⟩

def httpOnlyEntry : Entry := ⟨1, [0x62, 0x2e, 0x63], httpOnlyCookie⟩

def secureStore : CookieMonster :=
  { CookieMonster.new 0 with
    cookies := [secureEntry, httpOnlyEntry]
    nextId := 2 }

theorem mem_secureStore {P : Entry → Prop} (hs : P secureEntry) (hh : P httpOnlyEntry)
    (e : Entry) (he : e ∈ secureStore.cookies) : P e := by
  rcases mem_cons.mp he with rfl | he
  · exact hs
  · rw [mem_singleton.mp he]
    exact hh

theorem wellFormed_secureStore : WellFormed nestedRules secureStore where
  nodup := by decide
  lt_nextId := mem_secureStore (by decide) (by decide)
  key_eq := mem_secureStore rfl rfl

/-- The cookie of `y.b.c` is not stored, and both cookies of `b.c` stay. -/
theorem setCanonicalCookie_leaves_alone_sibling :
    KeptOrCollected secureStore secureStore secureEntry ∧
      KeptOrCollected secureStore secureStore httpOnlyEntry ∧
      secureStore.setCanonicalCookie nestedRules plainContext siblingCookie httpScheme
        { plainOptions with excludeHttpOnly := true } =
          .ok (secureStore, [.excludeOverwriteSecure]) := by
  have hset : secureStore.setCanonicalCookie nestedRules plainContext siblingCookie httpScheme
      { plainOptions with excludeHttpOnly := true } =
        .ok (secureStore, [.excludeOverwriteSecure]) := rfl
  obtain ⟨hsecure, hhttp⟩ :=
    setCanonicalCookie_leaves_alone wellFormed_secureStore (cons_ne_nil _ _) hset
  exact ⟨(hsecure rfl).1 secureEntry mem_cons_self rfl,
    hhttp rfl httpOnlyEntry (mem_cons_of_mem _ mem_cons_self) rfl, hset⟩

/-- The cookie of `x.a.b.c`, a name that is its own registrable domain, is stored although the
Secure cookie of `b.c` matches it. -/
theorem setCanonicalCookie_nested : nestedCookie.IsEquivalentForSecureCookieMatching secureCookie ∧
      ∃ s', secureStore.setCanonicalCookie nestedRules plainContext nestedCookie httpScheme
        plainOptions = .ok (s', []) ∧ ∃ e ∈ s'.cookies, e.cookie.IsEquivalent nestedCookie := by
  refine ⟨by decide, _, rfl, ⟨2, nestedCookie.domain,
    { nestedCookie with sourceScheme := .nonSecure }⟩, by decide +kernel, rfl, rfl, rfl⟩

end ChromiumBase.Cookies
