import ChromiumBase.Lib.Outcome
import ChromiumBase.Net.Cookies.EarliestAccessTime

/-!
# Setting a cookie

What `SetCanonicalCookie` does to the store.  The scan over the cookies of the key finds at most
one equivalent cookie, or fails its check (`ScanSpec`).  A call that is not permitted changes
nothing; any other deletes the equivalent cookie, inserts the new one unless it has expired, and
collects garbage (`CookieSet`).
-/

open List

namespace ChromiumBase.Cookies

open Outcome CookieMonster CookieInclusionStatus

variable {registry : Registry} {ctx : Context} {s s' : CookieMonster} {key : Text} {current : Time}
  {cc : CanonicalCookie} {status : CookieInclusionStatus}

section Scan

variable {sourceSecure skipHttpOnly alreadyExpired : Bool} {done rest range : List Entry}
  {scan scan' : Scan} {e : Entry}

def EntryReason (cc : CanonicalCookie) (sourceSecure skipHttpOnly : Bool) (e : Entry)
    (reason : ExclusionReason) : Prop :=
  (reason = .excludeOverwriteSecure ∧ e.cookie.secure ∧ ¬ sourceSecure ∧
    cc.IsEquivalentForSecureCookieMatching e.cookie) ∨
  (reason = .excludeOverwriteHttpOnly ∧ cc.IsEquivalent e.cookie ∧ skipHttpOnly ∧
    e.cookie.httpOnly)

/-- What the scan has found among the cookies `done`. -/
structure ScanSpec (cc : CanonicalCookie) (sourceSecure skipHttpOnly : Bool)
    (status : CookieInclusionStatus) (done : List Entry) (scan : Scan) : Prop where
  found : scan.foundEquivalentCookie = true ↔ ∃ e ∈ done, cc.IsEquivalent e.cookie
  maybeDelete : ∀ e, scan.maybeDelete = some e →
    e ∈ done ∧ cc.IsEquivalent e.cookie ∧ ¬ (skipHttpOnly ∧ e.cookie.httpOnly)
  equivalent : ∀ e ∈ done, cc.IsEquivalent e.cookie →
    scan.maybeDelete = some e ∨ .excludeOverwriteHttpOnly ∈ scan.status
  mem_status : ∀ reason, reason ∈ scan.status ↔ reason ∈ status ∨
    ∃ e ∈ done, EntryReason cc sourceSecure skipHttpOnly e reason

theorem ScanSpec.nil : ScanSpec cc sourceSecure skipHttpOnly status [] ⟨false, none, status⟩ where
  found := by simp
  maybeDelete := by simp
  equivalent := by simp
  mem_status := by simp

/-- One entry of the scan. -/
theorem ScanSpec.step (h : ScanSpec cc sourceSecure skipHttpOnly status done scan)
    (hs : scanStep cc sourceSecure skipHttpOnly scan e = .ok scan') :
    ScanSpec cc sourceSecure skipHttpOnly status (done ++ [e]) scan' := by
  have hex : ∀ P : Entry → Prop, (∃ e' ∈ done ++ [e], P e') ↔ (∃ e' ∈ done, P e') ∨ P e := by
    simp
  unfold scanStep at hs
  split at hs
  next he =>
    split at hs
    · cases hs
    next hf =>
      have hn : ∀ e' ∈ done, ¬ cc.IsEquivalent e'.cookie := fun e' he' heq =>
        hf (h.found.mpr ⟨e', he', heq⟩)
      have hm : ∀ e', scan.maybeDelete = some e' → False := fun e' he' =>
        hn e' (h.maybeDelete e' he').1 (h.maybeDelete e' he').2.1
      split at hs
      next hsk =>
        cases hs
        refine ⟨?_, fun e' he' => (hm e' he').elim, ?_, ?_⟩
        · simp only [hex, he, or_true]
        · exact fun _ _ _ => .inr (mem_addIf.mpr (.inr ⟨trivial, rfl⟩))
        · intro reason
          rw [mem_addIf, mem_addIf, h.mem_status, hex, or_assoc, or_assoc, EntryReason]
          simp only [he, hsk, true_and, and_comm]
      next hsk =>
        cases hs
        refine ⟨?_, ?_, ?_, ?_⟩
        · simp only [hex, he, or_true]
        · intro e' he'
          cases he'
          exact ⟨mem_append_right _ (mem_singleton_self _), he, hsk⟩
        · intro e' he' heq
          rcases mem_append.mp he' with he' | he'
          · exact absurd heq (hn e' he')
          · exact .inl (congrArg some (mem_singleton.mp he').symm)
        · intro reason
          rw [mem_addIf, h.mem_status, hex, or_assoc, EntryReason]
          simp only [hsk, false_and, or_false, and_comm]
  next he =>
    cases hs
    refine ⟨?_, ?_, ?_, ?_⟩
    · rw [hex, h.found]
      simp [he]
    · intro e' he'
      obtain ⟨hmem, hr⟩ := h.maybeDelete e' he'
      exact ⟨mem_append_left _ hmem, hr⟩
    · intro e' he' heq
      rcases mem_append.mp he' with he' | he'
      · exact (h.equivalent e' he' heq).imp_right
          fun hmem => mem_addIf.mpr (.inl hmem)
      · rw [mem_singleton.mp he'] at heq
        exact absurd heq he
    · intro reason
      rw [mem_addIf, h.mem_status, hex, or_assoc, EntryReason]
      simp only [he, false_and, or_false, and_comm]

theorem ScanSpec.foldlM (h : ScanSpec cc sourceSecure skipHttpOnly status done scan)
    (hf : rest.foldlM (scanStep cc sourceSecure skipHttpOnly) scan = .ok scan') :
    ScanSpec cc sourceSecure skipHttpOnly status (done ++ rest) scan' := by
  induction rest generalizing done scan with
  | nil =>
    cases hf
    rwa [append_nil]
  | cons e rest ih =>
    obtain ⟨scan₁, hs, hr⟩ := exists_of_bind_eq_ok hf
    have h' := ih (h.step hs) hr
    rwa [append_assoc] at h'

theorem exists_foldlM_scanStep
    (hu : (done ++ rest).Pairwise fun a b => ¬ a.cookie.IsEquivalent b.cookie)
    (h : ScanSpec cc sourceSecure skipHttpOnly status done scan) :
    ∃ scan', rest.foldlM (scanStep cc sourceSecure skipHttpOnly) scan = .ok scan' := by
  induction rest generalizing done scan with
  | nil => exact ⟨scan, rfl⟩
  | cons e rest ih =>
    have hok : ∃ scan₁, scanStep cc sourceSecure skipHttpOnly scan e = .ok scan₁ := by
      unfold scanStep
      split
      next he =>
        have hf : ¬ scan.foundEquivalentCookie = true := by
          intro hf
          obtain ⟨e', he', heq⟩ := h.found.mp hf
          refine (pairwise_append.mp hu).2.2 e' he' e mem_cons_self ?_
          exact heq.symm.trans he
        rw [if_neg hf]
        split
        · exact ⟨_, rfl⟩
        · exact ⟨_, rfl⟩
      · exact ⟨_, rfl⟩
    obtain ⟨scan₁, hs⟩ := hok
    rw [append_cons] at hu
    obtain ⟨scan', hr⟩ := ih hu (h.step hs)
    exact ⟨scan', by rw [foldlM_cons, hs, ok_bind, hr]⟩

/-- What `MaybeDeleteEquivalentCookieAndUpdateStatus` does to the store: it deletes the one
equivalent cookie only if nothing speaks against setting the new one, and then there is no other
and it is not an HttpOnly cookie that the caller may not overwrite. -/
inductive Replaces (cc : CanonicalCookie) (skipHttpOnly : Bool) (range : List Entry)
    (s : CookieMonster) : CookieMonster → CookieInclusionStatus → Prop
  | unchanged {status : CookieInclusionStatus}
      (h : status = [] → ∀ e ∈ range, ¬ cc.IsEquivalent e.cookie) :
      Replaces cc skipHttpOnly range s s status
  | deleted {e : Entry} (cause : DeletionCause)
      (hcause : cause ∈ [DeletionCause.overwrite, .expiredOverwrite]) (he : e ∈ range)
      (hequivalent : cc.IsEquivalent e.cookie) (hskip : ¬ (skipHttpOnly ∧ e.cookie.httpOnly))
      (honly : ∀ e' ∈ range, cc.IsEquivalent e'.cookie → e' = e) :
      Replaces cc skipHttpOnly range s (s.internalDeleteCookie cause e) []

theorem Replaces.congr {c : CanonicalCookie} (h : Replaces cc skipHttpOnly range s s' status)
    (hcc : ∀ other, c.IsEquivalent other ↔ cc.IsEquivalent other) :
    Replaces c skipHttpOnly range s s' status := by
  cases h with
  | unchanged h => exact .unchanged fun hs e he heq => h hs e he ((hcc _).mp heq)
  | deleted cause hc he hequ hsk ho =>
    exact .deleted cause hc he ((hcc _).mpr hequ) hsk
      fun e' he' heq => ho e' he' ((hcc _).mp heq)

theorem Replaces.eq_of_ne_nil (h : Replaces cc skipHttpOnly range s s' status) (hs : status ≠ []) :
    s' = s := by
  cases h with
  | unchanged h => rfl
  | deleted => exact absurd rfl hs

/-- What a scan that comes to its end does to the store, and all reasons it adds. -/
theorem replaces_of_maybeDelete {date : Time} {status' : CookieInclusionStatus}
    (h : s.maybeDeleteEquivalentCookieAndUpdateStatus key cc sourceSecure skipHttpOnly
      alreadyExpired status = .ok (s', date, status')) :
    Replaces cc skipHttpOnly (s.equalRange key) s s' status' ∧ ∀ reason, reason ∈ status' ↔
        reason ∈ status ∨ ∃ e ∈ s.equalRange key,
          EntryReason cc sourceSecure skipHttpOnly e reason := by
  obtain ⟨scan, hsc, hr⟩ := exists_of_bind_eq_ok h
  have hsp := ScanSpec.nil.foldlM hsc
  have hn : scan.maybeDelete = none → scan.status = [] →
      ∀ e ∈ s.equalRange key, ¬ cc.IsEquivalent e.cookie := by
    intro hn hs e he heq
    rcases hsp.equivalent e he heq with hso | hmem
    · rw [hn] at hso
      cases hso
    · rw [hs] at hmem
      cases hmem
  split at hr
  next hm =>
    cases hr
    exact ⟨.unchanged (hn hm), hsp.mem_status⟩
  next e hm =>
    split at hr
    next hi =>
      cases hr
      have hs : scan.status = [] := of_decide_eq_true hi
      obtain ⟨he, heq, hsk⟩ := hsp.maybeDelete e hm
      refine ⟨?_, hsp.mem_status⟩
      rw [hs]
      refine .deleted _ (by cases alreadyExpired <;> decide) he heq hsk ?_
      intro e' he' heq'
      rcases hsp.equivalent e' he' heq' with hso | hmem
      · exact Option.some.inj (hso.symm.trans hm)
      · rw [hs] at hmem
        cases hmem
    next hex =>
      cases hr
      refine ⟨.unchanged fun hs => ?_, hsp.mem_status⟩
      exact absurd (decide_eq_true hs) hex

theorem exists_maybeDelete
    (hu : (s.equalRange key).Pairwise fun a b => ¬ a.cookie.IsEquivalent b.cookie)
    (cc : CanonicalCookie) (sourceSecure skipHttpOnly alreadyExpired : Bool)
    (status : CookieInclusionStatus) :
    ∃ r, s.maybeDeleteEquivalentCookieAndUpdateStatus key cc sourceSecure skipHttpOnly
      alreadyExpired status = .ok r := by
  have hnil : ScanSpec cc sourceSecure skipHttpOnly status [] ⟨false, none, status⟩ :=
    ScanSpec.nil
  rw [← nil_append (s.equalRange key)] at hu
  obtain ⟨scan, hs⟩ := exists_foldlM_scanStep hu hnil
  rw [maybeDeleteEquivalentCookieAndUpdateStatus, hs, ok_bind]
  split
  · exact ⟨_, rfl⟩
  · split
    · exact ⟨_, rfl⟩
    · exact ⟨_, rfl⟩

end Scan

section SetCanonicalCookie

variable {sourceScheme : Text} {options : CookieOptions}

/-- The reasons against a cookie that do not depend on the store's content. -/
def callerStatus (ctx : Context) (s : CookieMonster) (cc : CanonicalCookie) (sourceScheme : Text)
    (options : CookieOptions) : CookieInclusionStatus :=
  let scheme := toLowerASCII sourceScheme
  let secureSource := schemeIsCryptographic scheme
  let cc := { cc with sourceScheme := if secureSource then .secure else .nonSecure }
  let status : CookieInclusionStatus := []
  let status := status.addIf (cc.secure ∧ ¬ secureSource) .excludeSecureOnly
  let status := status.addIf (¬ s.isCookieableScheme scheme) .excludeNonCookieableScheme
  cc.isSetPermittedInContext ctx.settings (ctx.accessSemantics cc) options status

/-- The cookie that is stored for `cc` differs in its creation date and the scheme of its source. -/
def IsStoredAs (cc stored : CanonicalCookie) : Prop :=
  ∃ date scheme, stored = { cc with creationDate := date, sourceScheme := scheme }

/-- What a call of `SetCanonicalCookie` that returns does to the store. -/
inductive CookieSet (registry : Registry) (ctx : Context) (cc : CanonicalCookie)
    (skipHttpOnly : Bool) (s : CookieMonster) : CookieMonster → CookieInclusionStatus → Prop
  | rejected {status : CookieInclusionStatus} (h : status ≠ []) :
      CookieSet registry ctx cc skipHttpOnly s s status
  | expired {s₁ : CookieMonster} (date : Time)
      (h : Replaces cc skipHttpOnly (s.equalRange (getKey registry cc.domain)) s s₁ []) :
      CookieSet registry ctx cc skipHttpOnly s
        (s₁.garbageCollect ctx date (getKey registry cc.domain)) []
  | stored {s₁ : CookieMonster} {stored : CanonicalCookie} (date : Time)
      (h : Replaces cc skipHttpOnly (s.equalRange (getKey registry cc.domain)) s s₁ [])
      (hstored : IsStoredAs cc stored) :
      CookieSet registry ctx cc skipHttpOnly s
        ((s₁.internalInsertCookie (getKey registry cc.domain) stored).garbageCollect ctx date
          (getKey registry cc.domain)) []

/-- What a call that returns has done, and why it has refused the cookie. -/
theorem cookieSet_of_setCanonicalCookie
    (h : s.setCanonicalCookie registry ctx cc sourceScheme options = .ok (s', status)) :
    CookieSet registry ctx cc options.excludeHttpOnly s s' status ∧
      ∀ reason, reason ∈ status ↔ reason ∈ callerStatus ctx s cc sourceScheme options ∨
        ∃ e ∈ s.equalRange (getKey registry cc.domain), EntryReason cc
          (schemeIsCryptographic (toLowerASCII sourceScheme)) options.excludeHttpOnly e reason := by
  obtain ⟨⟨s₁, date, status₁⟩, hm, hre⟩ := exists_of_bind_eq_ok h
  obtain ⟨hr, hs⟩ := replaces_of_maybeDelete hm
  replace hr := hr.congr (c := cc) fun c => Iff.rfl
  dsimp only at hre
  split at hre
  next hi =>
    obtain rfl : status₁ = [] := of_decide_eq_true hi
    cases hre
    refine ⟨?_, hs⟩
    generalize (if cc.creationDate = 0 then ctx.settings.now else cc.creationDate) = now
    generalize (if schemeIsCryptographic (toLowerASCII sourceScheme) then _ else _) = scheme
    split
    · exact .expired _ hr
    · exact .stored _ hr ⟨_, _, rfl⟩
  next he =>
    cases hre
    have hne : status ≠ [] := fun hnil => he (decide_eq_true hnil)
    rw [hr.eq_of_ne_nil hne]
    exact ⟨.rejected hne, hs⟩

theorem exists_setCanonicalCookie (ctx : Context) (sourceScheme : Text) (options : CookieOptions)
    (hu : (s.equalRange (getKey registry cc.domain)).Pairwise
      fun a b => ¬ a.cookie.IsEquivalent b.cookie) :
    ∃ r, s.setCanonicalCookie registry ctx cc sourceScheme options = .ok r := by
  simp only [setCanonicalCookie]
  obtain ⟨r, hr⟩ := exists_maybeDelete hu _ _ _ _ _
  rw [hr, ok_bind]
  split
  · exact ⟨_, rfl⟩
  · exact ⟨_, rfl⟩

end SetCanonicalCookie

end ChromiumBase.Cookies
