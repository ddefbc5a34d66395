import ChromiumBase.Net.Cookies.GarbageCollection

/-!
# Collecting the cookies of all keys

`GarbageCollect` deletes cookies of a key that has too many, and then of the whole store.  The
latter takes the least recently accessed ones if they are old, the Secure ones last, and records
the time of the first one that stays: `earliest_access_time_` is to be no later than the last
access of any stored cookie.

`GarbageCollectLeastRecentlyAccessed` means to sort one cookie more than it may delete, since the
time is taken from the first cookie that stays, but compares the sizes the wrong way round.  If
the whole goal is deleted, the first cookie behind it is any of those left
(`garbageCollect_earliest_iff`).
-/

open List

namespace ChromiumBase.Cookies

open CookieMonster

variable {registry : Registry} {ctx : Context} {s : CookieMonster} {key : Text} {current : Time}

abbrev Context.safeDate (ctx : Context) : Time := ctx.settings.now - safeFromGlobalPurge

namespace CookieMonster

def collected : List DeletionCause := [.expired, .evictedDomain, .evictedGlobal]

theorem deletes_garbageCollectExpired (hs : WellFormed registry s) (current : Time)
    {range : List Entry} (hr : ∀ e ∈ range, e ∈ s.cookies) :
    Deletes [.expired] s (s.garbageCollectExpired current range).1 ∧
      ∀ e ∈ (s.garbageCollectExpired current range).2,
        e ∈ (s.garbageCollectExpired current range).1.cookies := by
  have hex : ∀ e ∈ range.filter (·.cookie.isExpired current), e ∈ s.cookies :=
    fun e he => hr e (mem_filter.mp he).1
  refine ⟨deletes_deleteEach hs _ hex, fun e he => ?_⟩
  obtain ⟨he, hl⟩ := mem_filter.mp he
  refine (mem_deleteEach hs hex).mpr ⟨hr e he, fun hmem => ?_⟩
  exact of_decide_eq_true hl (mem_filter.mp hmem).2

theorem deletes_garbageCollectKey (hs : WellFormed registry s) (sorting : Sorting) (current : Time)
    (key : Text) : Deletes collected s (s.garbageCollectKey sorting current key) := by
  have hr : ∀ e ∈ s.equalRange key, e ∈ s.cookies := fun e he => (mem_equalRange.mp he).1
  obtain ⟨hex, hl⟩ := deletes_garbageCollectExpired hs current hr
  rw [garbageCollectKey]
  split
  · dsimp only
    split
    · have hev := evicts_purge purgeRounds
        (sorting.sort (s.garbageCollectExpired current (s.equalRange key)).2)
        ((s.garbageCollectExpired current (s.equalRange key)).2.length -
          (kDomainMaxCookies - kDomainPurgeCookies))
      refine (hex.mono (by decide)).trans
        ((deletes_deleteEach (hex.wellFormed hs) _ fun e he => ?_).mono (by decide))
      exact hl e ((sorting.sort_perm _).subset
        (hev.perm.subset (mem_append_left _ he)))
    · exact hex.mono (by decide)
  · exact Deletes.refl _ s

/-- The entries behind the goal, which the partial sort leaves in any order. -/
def behindGoal (sorting : Sorting) (purgeGoal : ℕ) (cookieIts : List Entry) : List Entry :=
  (sorting.partialSort cookieIts purgeGoal).drop purgeGoal

def oldCount (safeDate : Time) (its : List Entry) : ℕ :=
  its.countP (·.cookie.lastAccessDate < safeDate)

/-- An entry that is not old was accessed by the time `d`. -/
def HasRecent (safeDate : Time) (its : List Entry) (d : Time) : Prop :=
  ∃ y ∈ its, safeDate ≤ y.cookie.lastAccessDate ∧ y.cookie.lastAccessDate ≤ d

/-- No entry behind the goal was accessed before the first one there, whose time is taken, unless
one of `others` that is not old was accessed no later. -/
def FirstEarliest (safeDate : Time) (behind others : List Entry) : Prop :=
  ∀ x ∈ behind.head?, ∀ e ∈ behind, x.cookie.lastAccessDate ≤ e.cookie.lastAccessDate ∨
    HasRecent safeDate others e.cookie.lastAccessDate

/-- One collection deletes old entries `r.1` of `its`, and takes the time from the `rest`, which
is what lies behind the goal if it was reached, and otherwise not old. -/
structure Collects (sorting : Sorting) (safeDate : Time) (goal : ℕ) (its : List Entry)
    (r : List Entry × Time) (rest : List Entry) : Prop where
  perm : r.1 ++ rest ~ its
  old : ∀ e ∈ r.1, e.cookie.lastAccessDate < safeDate
  time : r.2 = rest.head?.elim 0 (·.cookie.lastAccessDate)
  rest : r.1.length = goal ∧ rest = behindGoal sorting goal its ∨ r.1.length < goal ∧
    ∀ e ∈ rest, safeDate ≤ e.cookie.lastAccessDate ∧ r.2 ≤ e.cookie.lastAccessDate

section LeastRecentlyAccessed

variable {sorting : Sorting} {safeDate : Time} {goal : ℕ}
  {its others rest sec non : List Entry} {a b r : List Entry × Time}

theorem garbageCollectLeastRecentlyAccessed_collects (sorting : Sorting) (safeDate : Time)
    (goal : ℕ) (its : List Entry) :
    ∃ rest, Collects sorting safeDate goal its
      (garbageCollectLeastRecentlyAccessed sorting safeDate (min goal its.length) its) rest := by
  obtain ⟨n, hmin⟩ : ∃ n, n = min goal its.length := ⟨_, rfl⟩
  have hg : n ≤ its.length := hmin ▸ min_le_right ..
  rw [← hmin, garbageCollectLeastRecentlyAccessed, if_neg (not_lt.mpr hg)]
  have hb : goal = n → behindGoal sorting goal its = (sorting.partialSort its n).drop n :=
    fun h => by rw [h, behindGoal]
  have hp := sorting.partialSort_perm its n
  have hs := sorting.partialSort_sorted its n
  have hf := sorting.partialSort_first its n
  generalize sorting.partialSort its n = l at *
  generalize hold : (fun e : Entry => decide (e.cookie.lastAccessDate < safeDate)) = isOld
  have hall := fun e => @mem_takeWhile_imp _ isOld (l.take n) e
  have hnot := head?_dropWhile_not isOld (l.take n)
  have ho := takeWhile_append_dropWhile (p := isOld) (l := l.take n)
  generalize (l.take n).takeWhile isOld = old at *
  generalize (l.take n).dropWhile isOld = new at *
  subst hold
  have hlen : old.length + new.length = n := by
    rw [← length_append, ho, length_take, hp.length_eq, min_eq_left hg]
  have hl : old ++ (new ++ l.drop n) = l := by rw [← append_assoc, ho, take_append_drop]
  have htime : l[old.length]? = (new ++ l.drop n).head? := by
    rw [← head?_drop]
    nth_rewrite 1 [← hl]
    rw [drop_left]
  rw [htime]
  refine ⟨new ++ l.drop n, by rwa [hl], fun e he => of_decide_eq_true (hall e he), rfl, ?_⟩
  cases new with
  | nil =>
    rcases le_or_gt goal its.length with h | h
    · have hgoal : goal = n := hmin.symm ▸ (min_eq_left h).symm
      exact .inl ⟨hlen.trans hgoal.symm, (hb hgoal).symm⟩
    · -- all entries are deleted, and nothing is left to take a time from
      rw [nil_append, drop_of_length_le (by rw [hp.length_eq]; omega)]
      rw [length_nil] at hlen
      exact .inr ⟨show old.length < goal by omega, fun e he => absurd he not_mem_nil⟩
  | cons y ys =>
    -- the part behind `y` is sorted too, or behind the goal
    have hle : ∀ e ∈ y :: ys ++ l.drop n,
        y.cookie.lastAccessDate ≤ e.cookie.lastAccessDate := by
      rw [← ho] at hs hf
      rw [cons_append, forall_mem_cons]
      refine ⟨le_rfl, fun e he => not_lt.mp fun h => (mem_append.mp he).elim (fun he => ?_)
        fun he => ?_⟩
      · exact (pairwise_cons.mp (pairwise_append.mp hs).2.1).1 e he (.inl h)
      · exact hf y (mem_append_right _ (.head _)) e he (.inl h)
    rw [length_cons] at hlen
    have hy : safeDate ≤ y.cookie.lastAccessDate := by simpa using hnot
    exact .inr ⟨show old.length < goal by omega, fun e he => ⟨hy.trans (hle e he), hle e he⟩⟩

/-- The goal is reached if there are enough old entries. -/
theorem Collects.length_eq (h : Collects sorting safeDate goal its r rest) :
    r.1.length = min goal (oldCount safeDate its) := by
  rw [oldCount, ← h.perm.countP_eq, countP_append,
    countP_eq_length.mpr fun e he => decide_eq_true (h.old e he)]
  rcases h.rest with ⟨hlen, -⟩ | ⟨hlt, hall⟩
  · omega
  · rw [countP_eq_zero.mpr fun e he hold => not_lt.mpr (hall e he).1 (of_decide_eq_true hold)]
    omega

/-- The time of one collection is early enough if the goal was not reached, or by the partial
sort. -/
theorem Collects.early_iff (h : Collects sorting safeDate goal its r rest) (hn : its.Nodup) :
    (∀ e ∈ its, e ∉ r.1 → r.2 ≤ e.cookie.lastAccessDate ∨
      HasRecent safeDate others e.cookie.lastAccessDate) ↔
      (goal ≤ oldCount safeDate its →
        FirstEarliest safeDate (behindGoal sorting goal its) others) := by
  have hlen := h.length_eq
  have hmem : ∀ e, e ∈ its ∧ e ∉ r.1 ↔ e ∈ rest := fun e => by
    rw [← h.perm.mem_iff, mem_append, or_and_right, and_not_self_iff, false_or,
      and_iff_left_iff_imp]
    exact fun he hr => (nodup_append.mp (h.perm.nodup_iff.mpr hn)).2.2 e hr e he rfl
  simp only [← and_imp, hmem]
  rcases h.rest with ⟨hg, hrest⟩ | ⟨hlt, hall⟩
  · rw [imp_iff_right (by omega), ← hrest, h.time, FirstEarliest]
    cases rest <;> simp
  · exact iff_of_true (fun e he => .inl (hall e he).2) fun hg => by omega

/-- A null time says that all entries are old. -/
theorem Collects.hasRecent_iff (h : Collects sorting safeDate goal its r rest)
    (hlt : r.1.length < goal) (hsafe : 0 < safeDate) {d : Time} :
    HasRecent safeDate its d ↔ r.2 ≠ 0 ∧ r.2 ≤ d := by
  have hall := (h.rest.resolve_left fun hg => hlt.ne hg.1).2
  have hrest : HasRecent safeDate its d ↔ ∃ y ∈ rest, y.cookie.lastAccessDate ≤ d := by
    simp only [HasRecent, ← h.perm.mem_iff, mem_append]
    refine exists_congr fun y => ⟨fun ⟨hy, hs, hd⟩ => ⟨hy.resolve_left fun hr => ?_, hd⟩,
      fun ⟨hy, hd⟩ => ⟨.inr hy, (hall y hy).1, hd⟩⟩
    exact not_lt.mpr hs (h.old y hr)
  rw [hrest]
  cases rest with
  | nil => simp [h.time]
  | cons y ys =>
    have ht : r.2 = y.cookie.lastAccessDate := h.time
    refine ⟨fun ⟨z, hz, hd⟩ => ⟨?_, (hall z hz).2.trans hd⟩, fun hd => ⟨y, .head _, ht ▸ hd.2⟩⟩
    exact ht ▸ (hsafe.trans_le (hall y (.head _)).1).ne'

/-- The earlier of the two times, of which the first may be missing. -/
theorem time_le_iff {x z d : Time} :
    (if x ≠ 0 ∧ x < z then x else z) ≤ d ↔ z ≤ d ∨ x ≠ 0 ∧ x ≤ d := by
  split
  · rename_i h
    exact ⟨fun hd => .inr ⟨h.1, hd⟩, fun hd => hd.elim h.2.le.trans And.right⟩
  · rename_i h
    refine ⟨.inl, fun hd => hd.elim id fun hd => ?_⟩
    exact (not_lt.mp fun hlt => h ⟨hd.1, hlt⟩).trans hd.2

/-- If all old non-Secure entries are deleted, the time is early enough for the others. -/
theorem early_both_iff (hsafe : 0 < safeDate)
    (hsec : ∀ e, e ∈ sec ↔ e ∈ its ∧ e.cookie.secure = true)
    (hnon : ∀ e, e ∈ non ↔ e ∈ its ∧ e.cookie.secure = false)
    (ha : Collects sorting safeDate goal non a rest) (hlt : a.1.length < goal) :
    (∀ e ∈ its, e ∉ a.1 ++ b.1 →
      (if a.2 ≠ 0 ∧ a.2 < b.2 then a.2 else b.2) ≤ e.cookie.lastAccessDate) ↔
      ∀ e ∈ sec, e ∉ b.1 → b.2 ≤ e.cookie.lastAccessDate ∨
        HasRecent safeDate non e.cookie.lastAccessDate := by
  simp only [time_le_iff, ← ha.hasRecent_iff hlt hsafe, mem_append, not_or]
  constructor
  · intro h e he hne
    obtain ⟨hit, hse⟩ := (hsec e).mp he
    refine h e hit ⟨fun hmem => ?_, hne⟩
    have hno := ((hnon e).mp (ha.perm.subset (mem_append_left _ hmem))).2
    exact Bool.false_ne_true (hno.symm.trans hse)
  · intro h e he hne
    cases hse : e.cookie.secure with
    | true => exact h e ((hsec e).mpr ⟨he, hse⟩) hne.2
    | false =>
      have hmem := (hnon e).mpr ⟨he, hse⟩
      have hrest := (mem_append.mp (ha.perm.mem_iff.mpr hmem)).resolve_left hne.1
      have hall := (ha.rest.resolve_left fun hg => hlt.ne hg.1).2
      exact .inr ⟨e, hmem, (hall e hrest).1, le_rfl⟩

end LeastRecentlyAccessed

/-- Whether `GarbageCollect` goes over all cookies. -/
abbrev CollectsAll (s : CookieMonster) (ctx : Context) : Prop :=
  s.cookies.length > kMaxCookies ∧ s.earliestAccessTime < ctx.safeDate

/-- If so many cookies are old that the whole goal is deleted, the partial sort happens to leave
the right one behind it.  The goal is that of the vector that is collected last. -/
def RecordsEarliest (s : CookieMonster) (ctx : Context) (current : Time) : Prop :=
  let its := s.cookies.filter fun e => ¬ e.cookie.isExpired current
  let purgeGoal := its.length - (kMaxCookies - kPurgeCookies)
  let secureIts := its.filter (·.cookie.secure)
  let nonSecureIts := its.filter (!·.cookie.secure)
  let old := oldCount ctx.safeDate nonSecureIts
  its.length > kMaxCookies →
    if secureIts.length = 0 then purgeGoal ≤ old →
      FirstEarliest ctx.safeDate (behindGoal ctx.sorting purgeGoal nonSecureIts) []
    else old < purgeGoal → purgeGoal - old ≤ oldCount ctx.safeDate secureIts →
      FirstEarliest ctx.safeDate (behindGoal ctx.sorting (purgeGoal - old) secureIts) nonSecureIts

theorem deleteEach_append (s : CookieMonster) (cause : DeletionCause) (es es' : List Entry) :
    s.deleteEach cause (es ++ es') = (s.deleteEach cause es).deleteEach cause es' :=
  foldl_append

theorem earliestAccessTime_deleteEach (s : CookieMonster) (cause : DeletionCause)
    (es : List Entry) : (s.deleteEach cause es).earliestAccessTime = s.earliestAccessTime := by
  induction es generalizing s with
  | nil => rfl
  | cons e es ih => exact ih (s.internalDeleteCookie cause e)

/-- What is deleted from all cookies, and when the time that is recorded is early enough. -/
theorem garbageCollectAll_cases (hs : WellFormed registry s) (ctx : Context) (current : Time) :
    (s.garbageCollectAll ctx current = s ∧ ¬ s.CollectsAll ctx) ∨
    (s.CollectsAll ctx ∧ ∃ gone time, s.garbageCollectAll ctx current =
        { (s.garbageCollectExpired current s.cookies).1.deleteEach .evictedGlobal gone with
          earliestAccessTime := time } ∧
      (∀ e ∈ gone, e ∈ (s.garbageCollectExpired current s.cookies).2 ∧
        e.cookie.lastAccessDate < ctx.safeDate) ∧
      (0 < ctx.safeDate → (∀ e ∈ s.cookies, s.earliestAccessTime ≤ e.cookie.lastAccessDate) →
        ((∀ e ∈ (s.garbageCollectExpired current s.cookies).2, e ∉ gone →
          time ≤ e.cookie.lastAccessDate) ↔ s.RecordsEarliest ctx current))) := by
  by_cases hc : s.CollectsAll ctx
  swap
  · exact .inl ⟨if_neg hc, hc⟩
  refine .inr ⟨hc, ?_⟩
  rw [garbageCollectAll, if_pos hc, RecordsEarliest]
  dsimp only [garbageCollectExpired]
  have hn : (s.cookies.filter fun e => ¬ e.cookie.isExpired current).Nodup :=
    (Nodup.of_map _ hs.nodup).filter _
  have hsub : ∀ e ∈ s.cookies.filter fun e => ¬ e.cookie.isExpired current, e ∈ s.cookies :=
    fun e he => (mem_filter.mp he).1
  have htime := earliestAccessTime_deleteEach s .expired
    (s.cookies.filter (·.cookie.isExpired current))
  generalize (s.cookies.filter fun e => ¬ e.cookie.isExpired current) = its at *
  generalize s.deleteEach .expired (s.cookies.filter (·.cookie.isExpired current)) = r at *
  by_cases hmany : its.length > kMaxCookies
  swap
  · rw [if_neg hmany]
    exact ⟨[], _, rfl, by simp, fun _ h => iff_of_true (fun e he _ => htime ▸ h e (hsub e he))
      fun h => absurd h hmany⟩
  rw [if_pos hmany]
  simp only [hmany, true_imp_iff]
  generalize its.length - (kMaxCookies - kPurgeCookies) = goal
  have hsec : ∀ e, e ∈ its.filter (·.cookie.secure) ↔ e ∈ its ∧ e.cookie.secure = true :=
    fun e => mem_filter
  have hnon : ∀ e, e ∈ its.filter (!·.cookie.secure) ↔ e ∈ its ∧ e.cookie.secure = false := by
    simp
  have hndn := hn.filter (!·.cookie.secure)
  have hnds := hn.filter (·.cookie.secure)
  generalize its.filter (·.cookie.secure) = sec at *
  generalize its.filter (!·.cookie.secure) = non at *
  obtain ⟨rest, ha⟩ :=
    garbageCollectLeastRecentlyAccessed_collects ctx.sorting ctx.safeDate goal non
  generalize garbageCollectLeastRecentlyAccessed ctx.sorting ctx.safeDate (min goal non.length)
    non = a at *
  have hlen := ha.length_eq
  have hgone : ∀ e ∈ a.1, e ∈ its ∧ e.cookie.lastAccessDate < ctx.safeDate := fun e he =>
    ⟨((hnon e).mp (ha.perm.subset (mem_append_left _ he))).1, ha.old e he⟩
  by_cases h0 : sec.length = 0
  · have hmem : ∀ e, e ∈ its ↔ e ∈ non := fun e => by
      rw [hnon, iff_self_and]
      refine fun he => Bool.eq_false_of_not_eq_true fun hse => ?_
      exact (length_pos_of_mem ((hsec e).mpr ⟨he, hse⟩)).ne' h0
    rw [if_pos h0, if_pos h0]
    refine ⟨a.1, a.2, rfl, hgone, fun _ _ => ?_⟩
    simp only [hmem, ← ha.early_iff hndn, HasRecent, not_mem_nil, false_and, exists_false,
      or_false]
  rw [if_neg h0, if_neg h0]
  by_cases hd : a.1.length < goal
  swap
  · rw [if_neg hd]
    have hkeep := (earliestAccessTime_deleteEach r .evictedGlobal a.1).trans htime
    exact ⟨a.1, _, rfl, hgone, fun _ h => iff_of_true
      (fun e he _ => hkeep.trans_le (h e (hsub e he))) fun hlt => by omega⟩
  have hlt : oldCount ctx.safeDate non < goal := by omega
  rw [if_pos hd, ← min_eq_right hlt.le, ← hlen, imp_iff_right hd]
  obtain ⟨rest', hb⟩ := garbageCollectLeastRecentlyAccessed_collects ctx.sorting ctx.safeDate
    (goal - a.1.length) sec
  generalize garbageCollectLeastRecentlyAccessed ctx.sorting ctx.safeDate
    (min (goal - a.1.length) sec.length) sec = b at *
  refine ⟨a.1 ++ b.1, _, by rw [deleteEach_append], fun e he => ?_, fun hsafe _ => ?_⟩
  · exact (mem_append.mp he).elim (hgone e) fun he =>
      ⟨((hsec e).mp (hb.perm.subset (mem_append_left _ he))).1, hb.old e he⟩
  · rw [early_both_iff hsafe hsec hnon ha hd, hb.early_iff hnds]

theorem deletes_garbageCollectAll (hs : WellFormed registry s) (ctx : Context) (current : Time) :
    Deletes collected s (s.garbageCollectAll ctx current) := by
  rcases garbageCollectAll_cases hs ctx current with ⟨h, -⟩ | ⟨-, gone, time, h, hgone, -⟩
  · rw [h]
    exact Deletes.refl _ s
  · obtain ⟨hex, hl⟩ := deletes_garbageCollectExpired hs current fun e he => he
    have hd := deletes_deleteEach (hex.wellFormed hs) .evictedGlobal
      fun e he => hl e (hgone e he).1
    have ht : Deletes collected s _ := (hex.mono (by decide)).trans (hd.mono (by decide))
    rw [h]
    exact ⟨ht.sublist, ht.nextId, ht.cookieableSchemes, ht.recorded⟩

theorem deletes_garbageCollect (hs : WellFormed registry s) (ctx : Context) (current : Time)
    (key : Text) : Deletes collected s (s.garbageCollect ctx current key) :=
  have hkey := deletes_garbageCollectKey hs ctx.sorting current key
  hkey.trans (deletes_garbageCollectAll (hkey.wellFormed hs) ctx current)

end CookieMonster

abbrev Earliest (s : CookieMonster) : Prop :=
  ∀ e ∈ s.cookies, s.earliestAccessTime ≤ e.cookie.lastAccessDate

theorem earliestAccessTime_garbageCollectKey (sorting : Sorting) :
    (s.garbageCollectKey sorting current key).earliestAccessTime = s.earliestAccessTime := by
  rw [garbageCollectKey]
  split
  · dsimp only [garbageCollectExpired]
    split
    · rw [earliestAccessTime_deleteEach, earliestAccessTime_deleteEach]
    · rw [earliestAccessTime_deleteEach]
  · rfl

/-- Without the expired entries, the store has the entries that were returned. -/
theorem mem_live (hs : WellFormed registry s) {e : Entry} :
    e ∈ (s.garbageCollectExpired current s.cookies).1.cookies ↔
      e ∈ (s.garbageCollectExpired current s.cookies).2 := by
  refine ⟨fun he => ?_, (deletes_garbageCollectExpired hs current fun e he => he).2 e⟩
  obtain ⟨he, hne⟩ := (mem_deleteEach hs fun e he => (mem_filter.mp he).1).mp he
  exact mem_filter.mpr ⟨he, decide_eq_true fun hx => hne (mem_filter.mpr ⟨he, hx⟩)⟩

/-- The collection of all cookies.  The unexpired cookies that are deleted are old, the expired
ones may be not. -/
theorem earliest_garbageCollectAll_iff (hs : WellFormed registry s) (h : Earliest s)
    (h0 : 0 ≤ s.earliestAccessTime) (hc : s.CollectsAll ctx) :
    (Earliest (s.garbageCollectAll ctx current) ↔ s.RecordsEarliest ctx current) ∧
      ((∀ e ∈ s.cookies, e ∉ (s.garbageCollectAll ctx current).cookies →
          e.cookie.lastAccessDate < ctx.safeDate) ↔
        ∀ e ∈ s.cookies, e.cookie.isExpired current = true →
          e.cookie.lastAccessDate < ctx.safeDate) := by
  obtain ⟨gone, time, heq, hg, ht⟩ :=
    ((garbageCollectAll_cases hs ctx current).resolve_left fun h => h.2 hc).2
  obtain ⟨hex, hl⟩ := deletes_garbageCollectExpired hs current fun e he => he
  have hmem : ∀ e, e ∈ (s.garbageCollectAll ctx current).cookies ↔
      e ∈ (s.garbageCollectExpired current s.cookies).2 ∧ e ∉ gone := fun e => by
    rw [heq, ← mem_live hs]
    exact mem_deleteEach (hex.wellFormed hs) fun e he => hl e (hg e he).1
  have htime : (s.garbageCollectAll ctx current).earliestAccessTime = time := by rw [heq]
  rw [← ht (h0.trans_lt hc.2) h]
  simp only [Earliest, hmem, htime, and_imp, true_and]
  refine ⟨fun hd e hm hx => hd e hm fun hin => ?_, fun hx e hm hne => ?_⟩
  · exact of_decide_eq_true (mem_filter.mp hin.1).2 hx
  · by_cases hxe : e.cookie.isExpired current = true
    · exact hx e hm hxe
    · have hin : e ∈ (s.garbageCollectExpired current s.cookies).2 :=
        mem_filter.mpr ⟨hm, decide_eq_true hxe⟩
      exact (hg e (not_not.mp fun hng => hne ⟨hin, hng⟩)).2

/-- Nothing goes wrong if the sort is not partial. -/
theorem recordsEarliest_mergeSorting (h : ctx.sorting = mergeSorting) :
    s.RecordsEarliest ctx current := by
  have hfirst : ∀ goal its others, FirstEarliest ctx.safeDate
      (behindGoal ctx.sorting goal its) others := by
    intro goal its others x hx e he
    rw [h] at hx he
    have hp := (mergeSorting.sort_sorted its).drop (i := goal)
    change x ∈ ((mergeSorting.sort its).drop goal).head? at hx
    change e ∈ (mergeSorting.sort its).drop goal at he
    generalize (mergeSorting.sort its).drop goal = l at *
    cases l with
    | nil => cases he
    | cons y l =>
      obtain rfl : y = x := Option.some.inj hx
      refine .inl (not_lt.mp fun hlt => ?_)
      rcases mem_cons.mp he with rfl | he
      · exact lt_irrefl _ hlt
      · exact (pairwise_cons.mp hp).1 e he (.inl hlt)
  intro _
  split
  · exact fun _ => hfirst _ _ _
  · exact fun _ _ => hfirst _ _ _

/-! ### Cookies that were accessed one after the other -/

theorem take_append_reverse_drop (l : List Entry) (n : ℕ) :
    (l.take n ++ (l.drop n).reverse).take n = l.take n ∧
      (l.take n ++ (l.drop n).reverse).drop n = (l.drop n).reverse := by
  rcases le_total n l.length with h | h
  · have hlen : (l.take n).length = n := by rw [length_take, min_eq_left h]
    exact ⟨take_left' hlen, drop_left' hlen⟩
  · simp [drop_of_length_le h]

def descendingRest : Sorting :=
  { mergeSorting with
    partialSort := fun l n =>
      (mergeSorting.sort l).take n ++ ((mergeSorting.sort l).drop n).reverse
    partialSort_perm := fun l n => by
      refine ((reverse_perm _).append_left _).trans ?_
      rw [take_append_drop]
      exact mergeSorting.sort_perm l
    partialSort_sorted := fun l n => by
      rw [(take_append_reverse_drop _ n).1]
      exact mergeSorting.partialSort_sorted l n
    partialSort_first := fun l n a ha b hb => by
      rw [(take_append_reverse_drop _ n).1] at ha
      rw [(take_append_reverse_drop _ n).2] at hb
      exact mergeSorting.partialSort_first l n a ha b (mem_reverse.mp hb) }

/-- The first cookie was accessed last, at the time `n`. -/
def idleEntry (n i : ℕ) : Entry := ⟨i, [], plainCookie .medium false ((n - i : ℕ) : ℤ)⟩

def idle (n : ℕ) : CookieMonster :=
  { CookieMonster.new 0 with cookies := (range n).map (idleEntry n), nextId := n }

def idleContext (sorting : Sorting) : Context :=
  ⟨⟨safeFromGlobalPurge + 4000, false, false, 0⟩, fun _ => .unknown, sorting⟩

section

variable {n : ℕ} {sorting : Sorting}

theorem wellFormed_idle (n : ℕ) : WellFormed noRules (idle n) where
  nodup := by
    rw [idle, map_map]
    exact Nodup.map (fun i j h => h) nodup_range
  lt_nextId := by simp [idle, idleEntry]
  key_eq e he := by
    obtain ⟨i, -, rfl⟩ := mem_map.mp he
    rfl

theorem lraLess_idleEntry {i j : ℕ} : LraLess (idleEntry n i) (idleEntry n j) ↔ n - i < n - j := by
  refine (or_iff_left fun h => ?_).trans Int.ofNat_lt
  exact lt_irrefl _ h.2

theorem sort_idle : mergeSorting.sort (idle n).cookies = (idle n).cookies.reverse := by
  refine Perm.eq_of_pairwise ?_ (mergeSorting.sort_sorted _) ?_
    ((mergeSorting.sort_perm _).trans (reverse_perm _).symm)
  · intro a b ha hb hab hba
    obtain ⟨i, hi, rfl⟩ := mem_map.mp ((mergeSorting.sort_perm _).subset ha)
    obtain ⟨j, hj, rfl⟩ := mem_map.mp (mem_reverse.mp hb)
    rw [lraLess_idleEntry] at hab hba
    rw [mem_range] at hi hj
    obtain rfl : i = j := by omega
    rfl
  · rw [pairwise_reverse, idle, pairwise_map]
    refine pairwise_lt_range.imp fun h => ?_
    rw [lraLess_idleEntry]
    omega

theorem garbageCollectKey_idle :
    (idle n).garbageCollectKey sorting 0 [0x61] = idle n := by
  simp [garbageCollectKey, equalRange, idle, idleEntry, filter_map, Function.comp_def]

theorem earliest_idle : Earliest (idle n) ∧ 0 ≤ (idle n).earliestAccessTime := by
  refine ⟨fun e he => ?_, le_rfl⟩
  obtain ⟨i, -, rfl⟩ := mem_map.mp he
  exact Int.natCast_nonneg _

theorem collectsAll_idle (hn : n = 3302) : (idle n).CollectsAll (idleContext sorting) := by
  refine ⟨?_, show (0 : ℤ) < safeFromGlobalPurge + 4000 - safeFromGlobalPurge by decide⟩
  rw [idle, length_map, length_range, hn]
  decide

/-- Behind the goal, the newest cookie comes first. -/
theorem behindGoal_idle : behindGoal descendingRest 302 (idle n).cookies =
    (range (n - 302)).map (idleEntry n) := by
  have hlen : (idle n).cookies.length = n := by simp [idle]
  refine (take_append_reverse_drop _ 302).2.trans ?_
  rw [sort_idle, drop_reverse, reverse_reverse, hlen, idle, ← map_take, take_range,
    min_eq_left (Nat.sub_le ..)]

theorem not_recordsEarliest_idle (hn : n = 3302) :
    ¬(idle n).RecordsEarliest (idleContext descendingRest) 0 := by
  have hlen : (idle n).cookies.length = n := by simp [idle]
  have hlive : ((idle n).cookies.filter fun e => ¬ e.cookie.isExpired 0) = (idle n).cookies := by
    simp [idle, idleEntry, plainCookie, CanonicalCookie.isExpired]
  have hall : ∀ e ∈ (idle n).cookies, e.cookie.secure = false := by
    simp [idle, idleEntry, plainCookie]
  have hold : oldCount 4000 (idle n).cookies = n := by
    refine (countP_eq_length.mpr fun e he => ?_).trans hlen
    obtain ⟨i, -, rfl⟩ := mem_map.mp he
    exact decide_eq_true (show ((n - i : ℕ) : ℤ) < 4000 by omega)
  have hsafe : (idleContext descendingRest).safeDate = 4000 := add_sub_cancel_left ..
  have hgoal : n - (kMaxCookies - kPurgeCookies) = 302 := by rw [hn]; rfl
  rw [RecordsEarliest, hlive, filter_eq_nil_iff.mpr (by simpa using hall),
    filter_eq_self.mpr (by simpa using hall), if_pos length_nil, hsafe, hold, hlen, hgoal]
  intro h
  have hfirst := h (by rw [hn]; decide) (by omega)
  rw [show (idleContext descendingRest).sorting = descendingRest from rfl,
    behindGoal_idle] at hfirst
  have hle := hfirst (idleEntry n 0) (by simp [head?_range, show n - 302 ≠ 0 by omega])
    (idleEntry n 1) (mem_map.mpr ⟨1, mem_range.mpr (by omega), rfl⟩)
  simp only [HasRecent, not_mem_nil, false_and, exists_false, or_false] at hle
  exact absurd (Int.ofNat_le.mp hle) (by omega)

end

end ChromiumBase.Cookies
