import ChromiumBase.Net.Cookies.SetCookie

/-!
# Equivalent cookies in the store

No two stored cookies have the same name, domain and path, in every run of the store whose calls
of `SetAllCookies` are given no two equivalent cookies (`run_unique`).  `SetCanonicalCookie`
deletes an equivalent cookie first, and `EnsureCookiesMapIsValid` trims what is loaded.
`SetAllCookies` only starts from an empty store: two equivalent cookies of its list are both
stored, and the next call of `SetCanonicalCookie` with an equivalent one fails its check.
-/

open List

namespace ChromiumBase.Cookies

open Outcome CookieMonster

variable {registry : Registry} {ctx : Context} {s s' : CookieMonster} {key : Text}
  {cc : CanonicalCookie}

inductive Operation where
  | setCanonicalCookie (ctx : Context) (cc : CanonicalCookie) (sourceScheme : Text)
      (options : CookieOptions)
  | setAllCookies (ctx : Context) (list : List CanonicalCookie)
  | storeLoadedCookies (cookies : List CanonicalCookie)
  | deleteAllCreatedInTimeRange (start stop : Time)
  | deleteAllMatchingInfo (matchesInfo : CanonicalCookie → Bool)
  | deleteSessionCookies
  | deleteCanonicalCookie (cookie : CanonicalCookie)
  | getAllCookies (ctx : Context)
  | getCookieListWithOptions (ctx : Context) (url : Url) (options : CookieOptions)
  | garbageCollect (ctx : Context) (current : Time) (key : Text)

def step (registry : Registry) (s : CookieMonster) : Operation → Except Crash CookieMonster
  | .setCanonicalCookie ctx cc sourceScheme options =>
    Prod.fst <$> s.setCanonicalCookie registry ctx cc sourceScheme options
  | .setAllCookies ctx list => .ok (s.setAllCookies registry ctx list)
  | .storeLoadedCookies cookies => .ok (s.storeLoadedCookies registry cookies)
  | .deleteAllCreatedInTimeRange start stop => .ok (s.deleteAllCreatedInTimeRange start stop)
  | .deleteAllMatchingInfo matchesInfo => .ok (s.deleteAllMatchingInfo matchesInfo)
  | .deleteSessionCookies => .ok s.deleteSessionCookies
  | .deleteCanonicalCookie cookie => .ok (s.deleteCanonicalCookie registry cookie)
  | .getAllCookies ctx => .ok (s.getAllCookies ctx)
  | .getCookieListWithOptions ctx url options =>
    .ok (s.getCookieListWithOptions registry ctx url options).1
  | .garbageCollect ctx current key => .ok (s.garbageCollect ctx current key)

def run (registry : Registry) (s : CookieMonster) (operations : List Operation) :
    Except Crash CookieMonster :=
  operations.foldlM (step registry) s

def Unique (s : CookieMonster) : Prop :=
  ∀ a ∈ s.cookies, ∀ b ∈ s.cookies, a.cookie.IsEquivalent b.cookie → a = b

theorem Unique.deletes {causes : List DeletionCause} (h : Unique s)
    (hd : Deletes causes s s') : Unique s' :=
  fun a ha b hb => h a (hd.sublist.subset ha) b (hd.sublist.subset hb)

theorem Unique.internalInsertCookie (h : Unique s)
    (hn : ∀ e ∈ s.cookies, ¬ cc.IsEquivalent e.cookie) (key : Text) :
    Unique (s.internalInsertCookie key cc) := by
  intro a ha b hb heq
  rcases mem_internalInsertCookie.mp ha with rfl | ha
  · rcases mem_internalInsertCookie.mp hb with rfl | hb
    · rfl
    · exact absurd heq (hn b hb)
  · rcases mem_internalInsertCookie.mp hb with rfl | hb
    · exact absurd heq.symm (hn a ha)
    · exact h a ha b hb heq

theorem Unique.pairwise_equalRange (h : Unique s) (hs : WellFormed registry s) (key : Text) :
    (s.equalRange key).Pairwise fun a b => ¬ a.cookie.IsEquivalent b.cookie := by
  refine (hs.nodup_equalRange key).imp_of_mem fun {a b} ha hb hne heq => hne ?_
  exact h a (mem_equalRange.mp ha).1 b (mem_equalRange.mp hb).1 heq

section

variable (hs : WellFormed registry s)

include hs

theorem WellFormed.mem_equalRange_of_isEquivalent {e : Entry}
    (he : e ∈ s.cookies) (heq : cc.IsEquivalent e.cookie) :
    e ∈ s.equalRange (getKey registry cc.domain) :=
  mem_equalRange.mpr ⟨he, by rw [hs.key_eq e he, heq.2.1]⟩

variable {skipHttpOnly : Bool} {status : CookieInclusionStatus} {s₁ : CookieMonster}

theorem Replaces.deletes (h : Replaces cc skipHttpOnly (s.equalRange key) s s₁ status) :
    Deletes [.overwrite, .expiredOverwrite] s s₁ := by
  cases h with
  | unchanged => exact Deletes.refl _ s
  | deleted cause hca he =>
    refine (deletes_internalDeleteCookie hs cause (mem_equalRange.mp he).1).mono fun c hc => ?_
    rwa [mem_singleton.mp hc]

theorem Replaces.not_isEquivalent
    (h : Replaces cc skipHttpOnly (s.equalRange (getKey registry cc.domain)) s s₁ []) :
    ∀ e ∈ s₁.cookies, ¬ cc.IsEquivalent e.cookie := by
  intro e he heq
  have hmem := hs.mem_equalRange_of_isEquivalent ((h.deletes hs).sublist.subset he) heq
  cases h with
  | unchanged hn => exact hn rfl e hmem heq
  | @deleted e' cause _ he' _ _ ho =>
    exact ((mem_internalDeleteCookie hs (mem_equalRange.mp he').1).mp he).2 (ho e hmem heq)

/-- The equivalent cookie has been deleted before the new one is stored. -/
theorem CookieSet.unique (hu : Unique s) (h : CookieSet registry ctx cc skipHttpOnly s s' status) :
    WellFormed registry s' ∧ Unique s' := by
  cases h with
  | rejected => exact ⟨hs, hu⟩
  | expired date hr =>
    have hd := hr.deletes hs
    have hs₁ := hd.wellFormed hs
    have hgc := deletes_garbageCollect hs₁ ctx date (getKey registry cc.domain)
    exact ⟨hgc.wellFormed hs₁, (hu.deletes hd).deletes hgc⟩
  | @stored s₁ stored date hr hst =>
    obtain ⟨creationDate, scheme, rfl⟩ := hst
    have hd := hr.deletes hs
    have hs₂ := wellFormed_internalInsertCookie (hd.wellFormed hs)
      { cc with creationDate := creationDate, sourceScheme := scheme }
    have hn : ∀ e ∈ s₁.cookies, ¬ CanonicalCookie.IsEquivalent
        { cc with creationDate := creationDate, sourceScheme := scheme } e.cookie :=
      fun e he heq => hr.not_isEquivalent hs e he heq
    have hu₂ : Unique (s₁.internalInsertCookie (getKey registry cc.domain)
        { cc with creationDate := creationDate, sourceScheme := scheme }) :=
      (hu.deletes hd).internalInsertCookie hn _
    have hgc := deletes_garbageCollect hs₂ ctx date (getKey registry cc.domain)
    exact ⟨hgc.wellFormed hs₂, hu₂.deletes hgc⟩

def unexpired (list : List CanonicalCookie) : List CanonicalCookie :=
  list.filter fun c => ¬ c.isExpired c.creationDate

/-- The rounds of `SetAllCookies`, for a list without equivalent cookies. -/
theorem foldl_setOne_unique (hu : Unique s)
    {list done : List CanonicalCookie} (hd : ∀ e ∈ s.cookies, e.cookie ∈ done)
    (hl : (done ++ unexpired list).Pairwise fun a b => ¬ a.IsEquivalent b) :
    WellFormed registry (list.foldl (setOne registry ctx) s) ∧
      Unique (list.foldl (setOne registry ctx) s) := by
  induction list generalizing s done with
  | nil => exact ⟨hs, hu⟩
  | cons c list ih =>
    rw [foldl_cons]
    by_cases hex : c.isExpired c.creationDate = true
    · rw [setOne, if_pos hex]
      refine ih hs hu hd ?_
      rwa [unexpired, filter_cons_of_neg (by simpa using hex)] at hl
    · rw [unexpired, filter_cons_of_pos (by simpa using hex), ← unexpired] at hl
      have hn : ∀ e ∈ s.cookies, ¬ c.IsEquivalent e.cookie := fun e he heq =>
        (pairwise_append.mp hl).2.2 _ (hd e he) c mem_cons_self heq.symm
      have hs₁ := wellFormed_internalInsertCookie hs c
      have hgc := deletes_garbageCollect hs₁ ctx c.creationDate (getKey registry c.domain)
      rw [append_cons] at hl
      rw [setOne, if_neg hex]
      refine ih (hgc.wellFormed hs₁) ((hu.internalInsertCookie hn _).deletes hgc) ?_ hl
      intro e he
      rcases mem_internalInsertCookie.mp (hgc.sublist.subset he) with rfl | he
      · exact mem_append_right _ (mem_singleton_self c)
      · exact mem_append_left _ (hd e he)

theorem setAllCookies_unique {list : List CanonicalCookie}
    (hl : (unexpired list).Pairwise fun a b => ¬ a.IsEquivalent b) :
    WellFormed registry (s.setAllCookies registry ctx list) ∧
      Unique (s.setAllCookies registry ctx list) := by
  have hd := deletes_deleteEach hs .explicit fun e he => he
  have hem : ∀ e, e ∉ (s.deleteEach .explicit s.cookies).cookies := fun e he =>
    ((mem_deleteEach hs fun _ he => he).mp he).2 ((mem_deleteEach hs fun _ he => he).mp he).1
  rw [← nil_append (unexpired list)] at hl
  refine foldl_setOne_unique (hd.wellFormed hs) ?_ ?_ hl
  · exact fun a ha => absurd ha (hem a)
  · exact fun e he => absurd he (hem e)

end

section Trim

variable {done range : List Entry} {groups : List (CookieSignature × List Entry)} {e e' : Entry}

theorem mem_insertByCreation {set : List Entry} :
    e' ∈ insertByCreation e set ↔ e' = e ∨ e' ∈ set := by
  have h := takeWhile_append_dropWhile
    (p := fun e' : Entry => decide (e.cookie.creationDate ≤ e'.cookie.creationDate)) (l := set)
  rw [insertByCreation, perm_middle.mem_iff, h, mem_cons]

/-- The entries met are in the groups of their signatures, and each signature has one group. -/
structure Grouped (done : List Entry) (groups : List (CookieSignature × List Entry)) : Prop where
  nodup : (groups.map Prod.fst).Nodup
  exists_group : ∀ e ∈ done, ∃ group ∈ groups, group.1 = signature e ∧ e ∈ group.2
  mem_done : ∀ group ∈ groups, ∀ e ∈ group.2, e ∈ done

theorem Grouped.addEquivalent (h : Grouped done groups) (e : Entry) :
    Grouped (done ++ [e]) (addEquivalent groups e) := by
  rw [CookieMonster.addEquivalent]
  split
  next hany =>
    obtain ⟨group, hg, hs⟩ := any_eq_true.mp hany
    replace hs : group.1 = signature e := of_decide_eq_true hs
    refine ⟨?_, ?_, ?_⟩
    · rw [map_map]
      convert h.nodup using 2
      funext group
      dsimp only [Function.comp]
      split <;> rfl
    · intro e' he'
      rcases mem_append.mp he' with he' | he'
      · obtain ⟨group', hg', hs', hmem⟩ := h.exists_group e' he'
        refine ⟨_, mem_map.mpr ⟨group', hg', rfl⟩, ?_⟩
        split
        · exact ⟨hs', mem_insertByCreation.mpr (.inr hmem)⟩
        · exact ⟨hs', hmem⟩
      · rw [mem_singleton.mp he']
        refine ⟨_, mem_map.mpr ⟨group, hg, rfl⟩, ?_⟩
        rw [if_pos hs]
        exact ⟨hs, mem_insertByCreation.mpr (.inl rfl)⟩
    · intro group' hg' e' he'
      obtain ⟨group'', hg'', rfl⟩ := mem_map.mp hg'
      split at he'
      · rcases mem_insertByCreation.mp he' with rfl | he'
        · exact mem_append_right _ (mem_singleton_self _)
        · exact mem_append_left _ (h.mem_done _ hg'' e' he')
      · exact mem_append_left _ (h.mem_done _ hg'' e' he')
  next hany =>
    have hp : (groups.takeWhile (fun group => signatureLe group.1 (signature e)) ++
        (signature e, [e]) :: groups.dropWhile fun group =>
          signatureLe group.1 (signature e)).Perm ((signature e, [e]) :: groups) := by
      refine perm_middle.trans ?_
      rw [takeWhile_append_dropWhile]
    refine ⟨?_, ?_, ?_⟩
    · refine (hp.map Prod.fst).nodup_iff.mpr (nodup_cons.mpr ⟨fun hmem => ?_, h.nodup⟩)
      obtain ⟨group, hg, hs⟩ := mem_map.mp hmem
      exact hany (any_eq_true.mpr ⟨group, hg, decide_eq_true hs⟩)
    · intro e' he'
      rcases mem_append.mp he' with he' | he'
      · obtain ⟨group, hg, hr⟩ := h.exists_group e' he'
        exact ⟨group, hp.symm.subset (mem_cons_of_mem _ hg), hr⟩
      · rw [mem_singleton.mp he']
        exact ⟨_, hp.symm.subset mem_cons_self, rfl, mem_singleton_self e⟩
    · intro group hg e' he'
      rcases mem_cons.mp (hp.subset hg) with rfl | hg
      · exact mem_append_right _ he'
      · exact mem_append_left _ (h.mem_done group hg e' he')

theorem grouped_foldl (h : Grouped done groups) (rest : List Entry) :
    Grouped (done ++ rest) (rest.foldl CookieMonster.addEquivalent groups) := by
  induction rest generalizing done groups with
  | nil => rwa [append_nil]
  | cons e rest ih =>
    have h' := ih (h.addEquivalent e)
    rwa [append_assoc] at h'

theorem grouped_range (range : List Entry) :
    Grouped range (range.foldl CookieMonster.addEquivalent []) := by
  have hnil : Grouped [] [] := ⟨nodup_nil, fun e he => absurd he not_mem_nil,
    fun group hg => absurd hg not_mem_nil⟩
  exact grouped_foldl hnil range

theorem mem_of_mem_duplicates (he : e ∈ duplicates range) : e ∈ range := by
  obtain ⟨group, hg, he⟩ := mem_flatMap.mp he
  exact (grouped_range range).mem_done group hg e (mem_of_mem_drop he)

/-- Of two equivalent entries at least one is a duplicate. -/
theorem mem_duplicates_or {a b : Entry} (ha : a ∈ range) (hb : b ∈ range)
    (heq : a.cookie.IsEquivalent b.cookie) (hne : a ≠ b) :
    a ∈ duplicates range ∨ b ∈ duplicates range := by
  have hgr := grouped_range range
  obtain ⟨group, hg, hs, hmem⟩ := hgr.exists_group a ha
  obtain ⟨group', hg', hs', hmem'⟩ := hgr.exists_group b hb
  have hsa : signature a = signature b := by
    rw [signature, signature, heq.1, heq.2.1, heq.2.2]
  obtain rfl := inj_on_of_nodup_map hgr.nodup hg hg'
    (hs.trans (hsa.trans hs'.symm))
  have hd : a ∈ group.2.drop 1 ∨ b ∈ group.2.drop 1 := by
    cases hset : group.2 with
    | nil =>
      rw [hset] at hmem
      exact absurd hmem not_mem_nil
    | cons first rest =>
      rw [hset] at hmem hmem'
      rcases mem_cons.mp hmem with rfl | hmem
      · rcases mem_cons.mp hmem' with rfl | hmem'
        · exact absurd rfl hne
        · exact .inr hmem'
      · exact .inl hmem
  exact hd.imp (fun h => mem_flatMap.mpr ⟨group, hg, h⟩)
    fun h => mem_flatMap.mpr ⟨group, hg, h⟩

end Trim

section

variable (hs : WellFormed registry s)

include hs

theorem trimDuplicateCookiesForKey_spec (key : Text) :
    Deletes [.duplicateInBackingStore] s (s.trimDuplicateCookiesForKey key) ∧
      ∀ a ∈ (s.trimDuplicateCookiesForKey key).cookies, a.key = key →
        ∀ b ∈ (s.trimDuplicateCookiesForKey key).cookies, b.key = key →
          a.cookie.IsEquivalent b.cookie → a = b := by
  have hmem : ∀ e ∈ duplicates (s.equalRange key), e ∈ s.cookies := fun e he =>
    (mem_equalRange.mp (mem_of_mem_duplicates he)).1
  refine ⟨deletes_deleteEach hs _ hmem, fun a ha hak b hb hbk heq => ?_⟩
  by_contra hne
  obtain ⟨ha, han⟩ := (mem_deleteEach hs hmem).mp ha
  obtain ⟨hb, hbn⟩ := (mem_deleteEach hs hmem).mp hb
  rcases mem_duplicates_or (mem_equalRange.mpr ⟨ha, hak⟩) (mem_equalRange.mpr ⟨hb, hbk⟩) heq
    hne with h | h
  · exact han h
  · exact hbn h

theorem foldl_trim_spec (keys : List Text) :
    Deletes [.duplicateInBackingStore] s (keys.foldl trimDuplicateCookiesForKey s) ∧
      ∀ a ∈ (keys.foldl trimDuplicateCookiesForKey s).cookies, a.key ∈ keys →
        ∀ b ∈ (keys.foldl trimDuplicateCookiesForKey s).cookies, b.key = a.key →
          a.cookie.IsEquivalent b.cookie → a = b := by
  induction keys generalizing s with
  | nil => exact ⟨Deletes.refl _ s, fun _ _ h => absurd h not_mem_nil⟩
  | cons key keys ih =>
    obtain ⟨hd, hu⟩ := trimDuplicateCookiesForKey_spec hs key
    obtain ⟨hd', hu'⟩ := ih (hd.wellFormed hs)
    refine ⟨hd.trans hd', fun a ha hak b hb hbk heq => ?_⟩
    rcases mem_cons.mp hak with hak | hak
    · exact hu a (hd'.sublist.subset ha) hak b (hd'.sublist.subset hb)
        (hbk.trans hak) heq
    · exact hu' a ha hak b hb hbk heq

theorem ensureCookiesMapIsValid_unique :
    WellFormed registry s.ensureCookiesMapIsValid ∧ Unique s.ensureCookiesMapIsValid := by
  obtain ⟨hd, hu⟩ := foldl_trim_spec hs (s.cookies.map (·.key)).eraseDups
  have hs' := hd.wellFormed hs
  refine ⟨hs', fun a ha b hb heq => hu a ha ?_ b hb ?_ heq⟩
  · rw [mem_eraseDups]
    exact mem_map.mpr ⟨a, hd.sublist.subset ha, rfl⟩
  · rw [hs'.key_eq a ha, hs'.key_eq b hb, heq.2.1]

variable (cookies : List CanonicalCookie)

theorem wellFormed_foldl_storeLoaded :
    WellFormed registry (cookies.foldl (storeLoaded registry) s) := by
  induction cookies generalizing s with
  | nil => exact hs
  | cons c cookies ih =>
    refine ih ?_
    have hs₁ := wellFormed_internalInsertCookie hs c
    rw [storeLoaded]
    split
    · exact ⟨hs₁.nodup, hs₁.lt_nextId, hs₁.key_eq⟩
    · exact hs₁

theorem storeLoadedCookies_unique :
    WellFormed registry (s.storeLoadedCookies registry cookies) ∧
      Unique (s.storeLoadedCookies registry cookies) := by
  have hl := wellFormed_foldl_storeLoaded hs cookies
  refine ensureCookiesMapIsValid_unique (Deletes.wellFormed (deletes_deleteEach hl
    .controlChar fun e he => ?_) hl)
  exact (mem_filter.mp he).1

theorem deletes_deleteMatching (cause : DeletionCause)
    (p : CanonicalCookie → Bool) : Deletes [cause] s (s.deleteMatching cause p) :=
  deletes_deleteEach hs cause fun _ he => (mem_filter.mp he).1

theorem deletes_deleteCanonicalCookie (cookie : CanonicalCookie) :
    Deletes [.explicit] s (s.deleteCanonicalCookie registry cookie) := by
  rw [deleteCanonicalCookie]
  split
  · exact Deletes.refl _ s
  next e he =>
    exact deletes_internalDeleteCookie hs _ (mem_equalRange.mp (mem_of_find?_eq_some he)).1

theorem internalUpdateCookieAccessTime_unique (hun : Unique s) (current : Time) (e : Entry) :
    WellFormed registry (s.internalUpdateCookieAccessTime current e) ∧
      Unique (s.internalUpdateCookieAccessTime current e) := by
  rw [internalUpdateCookieAccessTime]
  split
  · exact ⟨hs, hun⟩
  · have hu : ∀ e' : Entry, ∃ date, (if e'.id = e.id then
        { e' with cookie := { e'.cookie with lastAccessDate := current } } else e') =
          { e' with cookie := { e'.cookie with lastAccessDate := date } } := by
      intro e'
      split
      · exact ⟨current, rfl⟩
      · exact ⟨e'.cookie.lastAccessDate, rfl⟩
    refine ⟨⟨?_, ?_, ?_⟩, ?_⟩
    · have hids : (s.cookies.map fun e' => if e'.id = e.id then
          { e' with cookie := { e'.cookie with lastAccessDate := current } } else e').map Entry.id =
            s.cookies.map Entry.id := by
        rw [map_map]
        refine map_congr_left fun e' _ => ?_
        obtain ⟨date, h⟩ := hu e'
        rw [Function.comp, h]
      exact hids ▸ hs.nodup
    · intro a ha
      obtain ⟨e', he', rfl⟩ := mem_map.mp ha
      obtain ⟨date, h⟩ := hu e'
      rw [h]
      exact hs.lt_nextId e' he'
    · intro a ha
      obtain ⟨e', he', rfl⟩ := mem_map.mp ha
      obtain ⟨date, h⟩ := hu e'
      rw [h]
      exact hs.key_eq e' he'
    · intro a ha b hb heq
      obtain ⟨a', ha', rfl⟩ := mem_map.mp ha
      obtain ⟨b', hb', rfl⟩ := mem_map.mp hb
      obtain ⟨date, h⟩ := hu a'
      obtain ⟨date', h'⟩ := hu b'
      rw [h, h'] at heq
      rw [hun a' ha' b' hb' heq]

theorem filterCookiesWithOptions_unique (hu : Unique s)
    (ctx : Context) (url : Url) (options : CookieOptions) (es : List Entry) :
    WellFormed registry (s.filterCookiesWithOptions ctx url options es).1 ∧
      Unique (s.filterCookiesWithOptions ctx url options es).1 := by
  rw [filterCookiesWithOptions]
  split
  · generalize included ctx url options es = es
    induction es generalizing s with
    | nil => exact ⟨hs, hu⟩
    | cons e es ih =>
      obtain ⟨hs', hu'⟩ :=
        internalUpdateCookieAccessTime_unique hs hu ctx.settings.now e
      exact ih hs' hu'
  · exact ⟨hs, hu⟩

theorem getCookieListWithOptions_unique (hu : Unique s)
    (ctx : Context) (url : Url) (options : CookieOptions) :
    WellFormed registry (s.getCookieListWithOptions registry ctx url options).1 ∧
      Unique (s.getCookieListWithOptions registry ctx url options).1 := by
  rw [getCookieListWithOptions]
  split
  · have hr : ∀ e ∈ s.equalRange (getKey registry url.host), e ∈ s.cookies :=
      fun e he => (mem_equalRange.mp he).1
    have hd := (deletes_garbageCollectExpired hs ctx.settings.now hr).1
    exact filterCookiesWithOptions_unique (hd.wellFormed hs) (hu.deletes hd)
      ctx url options _
  · exact ⟨hs, hu⟩

/-- A list given to `SetAllCookies` has no two equivalent cookies among those it stores. -/
def Operation.Distinct : Operation → Prop
  | .setAllCookies _ list => (unexpired list).Pairwise fun a b => ¬ a.IsEquivalent b
  | _ => True

/-- The step lemma: no operation fails the `CHECK`, and none leaves equivalent cookies. -/
theorem step_unique (hu : Unique s) {operation : Operation} (hd : operation.Distinct) :
    ∃ s', step registry s operation = .ok s' ∧ WellFormed registry s' ∧ Unique s' := by
  have hk : ∀ {causes : List DeletionCause} {s' : CookieMonster}, Deletes causes s s' →
      WellFormed registry s' ∧ Unique s' :=
    fun h => ⟨h.wellFormed hs, hu.deletes h⟩
  cases operation with
  | setCanonicalCookie ctx cc sourceScheme options =>
    obtain ⟨⟨s', status⟩, h⟩ := exists_setCanonicalCookie ctx sourceScheme options
      (hu.pairwise_equalRange hs (getKey registry cc.domain))
    refine ⟨s', ?_, (cookieSet_of_setCanonicalCookie h).1.unique hs hu⟩
    rw [step, h]
    rfl
  | setAllCookies ctx list => exact ⟨_, rfl, setAllCookies_unique hs hd⟩
  | storeLoadedCookies cookies => exact ⟨_, rfl, storeLoadedCookies_unique hs cookies⟩
  | deleteAllCreatedInTimeRange start stop =>
    exact ⟨_, rfl, hk (deletes_deleteMatching hs _ _)⟩
  | deleteAllMatchingInfo matchesInfo | deleteSessionCookies =>
    exact ⟨_, rfl, hk (deletes_deleteMatching hs _ _)⟩
  | deleteCanonicalCookie cookie =>
    exact ⟨_, rfl, hk (deletes_deleteCanonicalCookie hs cookie)⟩
  | getAllCookies ctx =>
    exact ⟨_, rfl, hk (deletes_garbageCollectExpired hs ctx.settings.now fun _ he => he).1⟩
  | getCookieListWithOptions ctx url options =>
    exact ⟨_, rfl, getCookieListWithOptions_unique hs hu ctx url options⟩
  | garbageCollect ctx current key =>
    exact ⟨_, rfl, hk (deletes_garbageCollect hs ctx current key)⟩

theorem run_unique_of (hu : Unique s)
    {operations : List Operation} (hd : ∀ operation ∈ operations, operation.Distinct) :
    ∃ s', run registry s operations = .ok s' ∧ WellFormed registry s' ∧ Unique s' := by
  induction operations generalizing s with
  | nil => exact ⟨s, rfl, hs, hu⟩
  | cons operation operations ih =>
    obtain ⟨s₁, hst, hs₁, hu₁⟩ :=
      step_unique hs hu (hd operation mem_cons_self)
    obtain ⟨s', hrun, h⟩ := ih hs₁ hu₁ fun operation hmem =>
      hd operation (mem_cons_of_mem _ hmem)
    refine ⟨s', ?_, h⟩
    rw [run, foldlM_cons, hst, ok_bind]
    exact hrun

end

theorem wellFormed_new (registry : Registry) (lastAccessThreshold : ℤ) :
    WellFormed registry (CookieMonster.new lastAccessThreshold) where
  nodup := nodup_nil
  lt_nextId _ he := absurd he not_mem_nil
  key_eq _ he := absurd he not_mem_nil

/-- In every run from an empty store whose calls of `SetAllCookies` are given no two equivalent
cookies that are stored, no call fails its check, and no two cookies that are stored at any time are
equivalent. -/
theorem run_unique (registry : Registry) (lastAccessThreshold : ℤ) (operations : List Operation)
    (hdistinct : ∀ operation ∈ operations, operation.Distinct) (done : List Operation)
    (hdone : done <+: operations) :
    ∃ s, run registry (CookieMonster.new lastAccessThreshold) done = .ok s ∧ Unique s := by
  obtain ⟨s, hrun, -, hu⟩ := run_unique_of (wellFormed_new registry lastAccessThreshold)
    (fun a ha => absurd ha not_mem_nil) fun operation hmem =>
      hdistinct operation (hdone.subset hmem)
  exact ⟨s, hrun, hu⟩

def plainContext : Context where
  settings := ⟨100, false, false, 0⟩
  accessSemantics _ := .unknown
  sorting := mergeSorting

def hostCookie (value : Text) : CanonicalCookie :=
  { plainCookie .medium false 1 with
    name := [0x6e]
    value := value
    domain := [0x61, 0x2e, 0x62] }

def plainOptions : CookieOptions := ⟨false, .sameSiteStrict, false⟩

theorem run_unique_overwritten : ∃ s, run noRules (CookieMonster.new 0)
      [.setAllCookies plainContext [hostCookie [1], { hostCookie [1] with name := [0x6f] }],
        .setCanonicalCookie plainContext (hostCookie [2]) httpScheme plainOptions] = .ok s ∧
      Unique s := by
  refine run_unique noRules 0 _ (fun operation hmem => ?_) _ (prefix_refl _)
  rcases mem_cons.mp hmem with rfl | hmem
  · refine Pairwise.sublist filter_sublist (pairwise_pair.mpr fun h => ?_)
    exact absurd h.1 (by decide)
  · rw [mem_singleton.mp hmem]
    trivial

/-- Two equivalent cookies given to `SetAllCookies` are both stored, and the next call for an
equivalent cookie fails its check. -/
theorem run_setAllCookies_duplicates : (∃ s, run noRules (CookieMonster.new 0)
        [.setAllCookies plainContext [hostCookie [1], hostCookie [2]]] = .ok s ∧ ¬ Unique s) ∧
      run noRules (CookieMonster.new 0)
        [.setAllCookies plainContext [hostCookie [1], hostCookie [2]],
          .setCanonicalCookie plainContext (hostCookie [3]) httpScheme plainOptions] =
        .error .duplicateEquivalentCookies := by
  refine ⟨⟨_, rfl, fun hu => ?_⟩, rfl⟩
  have heq := hu ⟨0, [0x61, 0x2e, 0x62], hostCookie [1]⟩ (by decide +kernel)
    ⟨1, [0x61, 0x2e, 0x62], hostCookie [2]⟩ (by decide +kernel) ⟨rfl, rfl, rfl⟩
  exact absurd (congrArg Entry.id heq) (by decide)

end ChromiumBase.Cookies
