import ChromiumBase.Net.Cookies.CookieMonster
import Mathlib.Data.List.Nodup

/-!
# Entries of the cookie store

How insertions and deletions change the entries of the store.  Entries have distinct addresses,
so deleting some of them leaves exactly the others, and the store records them with the cause.
-/

open List

namespace ChromiumBase.Cookies

variable {s s' : CookieMonster} {registry : Registry} {ctx : Context} {key : Text}
  {cc : CanonicalCookie} {cause : DeletionCause} {e : Entry} {es : List Entry} {current : Time}

/-- What holds of every store: addresses are distinct and allocated, and every cookie is filed
under the key of its domain. -/
structure WellFormed (registry : Registry) (s : CookieMonster) : Prop where
  nodup : (s.cookies.map Entry.id).Nodup
  lt_nextId : ∀ e ∈ s.cookies, e.id < s.nextId
  key_eq : ∀ e ∈ s.cookies, e.key = getKey registry e.cookie.domain

theorem WellFormed.id_inj (h : WellFormed registry s) {a b : Entry} (ha : a ∈ s.cookies)
    (hb : b ∈ s.cookies) (hid : a.id = b.id) : a = b :=
  inj_on_of_nodup_map h.nodup ha hb hid

namespace CookieMonster

/-- The store after deletions keeps some entries; everything it drops it records with one of the
given causes. -/
structure Deletes (causes : List DeletionCause) (s s' : CookieMonster) : Prop where
  sublist : s'.cookies.Sublist s.cookies
  nextId : s'.nextId = s.nextId
  cookieableSchemes : s'.cookieableSchemes = s.cookieableSchemes
  recorded : ∃ new, s'.deletions = s.deletions ++ new ∧
    ∀ e ∈ s.cookies, e ∈ s'.cookies ∨ ∃ cause ∈ causes, ⟨e, cause⟩ ∈ new

namespace Deletes

variable {causes causes' : List DeletionCause} {t : CookieMonster}

theorem refl (causes : List DeletionCause) (s : CookieMonster) : Deletes causes s s where
  sublist := List.Sublist.refl _
  nextId := rfl
  cookieableSchemes := rfl
  recorded := ⟨[], (append_nil _).symm, fun _ he => .inl he⟩

theorem trans (h₁ : Deletes causes s s') (h₂ : Deletes causes s' t) : Deletes causes s t where
  sublist := h₂.sublist.trans h₁.sublist
  nextId := h₂.nextId.trans h₁.nextId
  cookieableSchemes := h₂.cookieableSchemes.trans h₁.cookieableSchemes
  recorded := by
    obtain ⟨new, hnew, hr⟩ := h₁.recorded
    obtain ⟨new', hnew', hr'⟩ := h₂.recorded
    refine ⟨new ++ new', by rw [hnew', hnew, append_assoc], fun e he => ?_⟩
    rcases hr e he with hk | ⟨cause, hc, hmem⟩
    · rcases hr' e hk with hk | ⟨cause, hc, hmem⟩
      · exact .inl hk
      · exact .inr ⟨cause, hc, mem_append_right _ hmem⟩
    · exact .inr ⟨cause, hc, mem_append_left _ hmem⟩

theorem mono (h : Deletes causes s s') (hsub : ∀ c ∈ causes, c ∈ causes') :
    Deletes causes' s s' where
  sublist := h.sublist
  nextId := h.nextId
  cookieableSchemes := h.cookieableSchemes
  recorded := by
    obtain ⟨new, hnew, hr⟩ := h.recorded
    refine ⟨new, hnew, fun e he => (hr e he).imp_right ?_⟩
    rintro ⟨cause, hc, hmem⟩
    exact ⟨cause, hsub cause hc, hmem⟩

theorem wellFormed (h : Deletes causes s s') (hs : WellFormed registry s) :
    WellFormed registry s' where
  nodup := hs.nodup.sublist (h.sublist.map _)
  lt_nextId e he := h.nextId ▸ hs.lt_nextId e (h.sublist.subset he)
  key_eq e he := hs.key_eq e (h.sublist.subset he)

end Deletes

theorem mem_equalRange : e ∈ s.equalRange key ↔ e ∈ s.cookies ∧ e.key = key := by
  simp [equalRange]

section

variable (s : CookieMonster) (cause : DeletionCause) (es : List Entry)

theorem deleteEach_cons (e : Entry) (es : List Entry) :
    s.deleteEach cause (e :: es) = (s.internalDeleteCookie cause e).deleteEach cause es := rfl

theorem cookies_deleteEach :
    (s.deleteEach cause es).cookies = s.cookies.filter (·.id ∉ es.map Entry.id) := by
  induction es generalizing s with
  | nil => exact (filter_eq_self.mpr (by simp)).symm
  | cons e es ih =>
    rw [deleteEach_cons, ih, internalDeleteCookie, filter_filter]
    refine filter_congr fun e' _ => ?_
    simp only [map_cons, mem_cons, not_or, Bool.decide_and]
    exact Bool.and_comm _ _

theorem deletions_deleteEach :
    (s.deleteEach cause es).deletions = s.deletions ++ es.map fun e => ⟨e, cause⟩ := by
  induction es generalizing s with
  | nil => exact (append_nil _).symm
  | cons e es ih =>
    rw [deleteEach_cons, ih, internalDeleteCookie, map_cons, append_assoc]
    rfl

theorem deleteEach_unchanged : (s.deleteEach cause es).nextId = s.nextId ∧
      (s.deleteEach cause es).cookieableSchemes = s.cookieableSchemes := by
  induction es generalizing s with
  | nil => exact ⟨rfl, rfl⟩
  | cons e es ih => exact ih (s.internalDeleteCookie cause e)

end

section

variable (hs : WellFormed registry s)

include hs

theorem mem_deleteEach (hes : ∀ e ∈ es, e ∈ s.cookies) :
    e ∈ (s.deleteEach cause es).cookies ↔ e ∈ s.cookies ∧ e ∉ es := by
  rw [cookies_deleteEach, mem_filter]
  refine and_congr_right fun he => ?_
  rw [decide_eq_true_eq, mem_map, not_exists]
  constructor
  · intro h hmem
    exact h e ⟨hmem, rfl⟩
  · rintro h e' ⟨hmem, hid⟩
    exact h (hs.id_inj (hes e' hmem) he hid ▸ hmem)

theorem mem_internalDeleteCookie {e' : Entry} (he' : e' ∈ s.cookies) :
    e ∈ (s.internalDeleteCookie cause e').cookies ↔ e ∈ s.cookies ∧ e ≠ e' := by
  rw [show s.internalDeleteCookie cause e' = s.deleteEach cause [e'] from rfl,
    mem_deleteEach hs (forall_mem_singleton.mpr he'), mem_singleton]

theorem deletes_deleteEach (cause : DeletionCause)
    (hes : ∀ e ∈ es, e ∈ s.cookies) : Deletes [cause] s (s.deleteEach cause es) where
  sublist := by
    rw [cookies_deleteEach]
    exact filter_sublist
  nextId := (deleteEach_unchanged s cause es).1
  cookieableSchemes := (deleteEach_unchanged s cause es).2
  recorded := by
    refine ⟨_, deletions_deleteEach s cause es, fun e he => ?_⟩
    by_cases hmem : e ∈ es
    · exact .inr ⟨cause, mem_singleton_self _, mem_map.mpr ⟨e, hmem, rfl⟩⟩
    · exact .inl ((mem_deleteEach hs hes).mpr ⟨he, hmem⟩)

theorem deletes_internalDeleteCookie (cause : DeletionCause)
    (he : e ∈ s.cookies) : Deletes [cause] s (s.internalDeleteCookie cause e) :=
  deletes_deleteEach hs cause (forall_mem_singleton.mpr he)

theorem equalRange_deleteEach (hes : ∀ e ∈ es, e ∈ s.cookies) :
    (s.deleteEach cause es).equalRange key = (s.equalRange key).filter (· ∉ es) := by
  rw [equalRange, equalRange, cookies_deleteEach, filter_filter, filter_filter]
  refine filter_congr fun e he => ?_
  have hid : e.id ∈ es.map Entry.id ↔ e ∈ es := by
    constructor
    · intro hmem
      obtain ⟨e', hmem, hid⟩ := mem_map.mp hmem
      exact hs.id_inj (hes e' hmem) he hid ▸ hmem
    · exact fun hmem => mem_map.mpr ⟨e, hmem, rfl⟩
  simp [hid, Bool.and_comm]

end

theorem internalInsertCookie_perm (s : CookieMonster) (key : Text) (cc : CanonicalCookie) :
    (s.internalInsertCookie key cc).cookies.Perm (⟨s.nextId, key, cc⟩ :: s.cookies) := by
  have h := takeWhile_append_dropWhile (p := fun e : Entry => textLe e.key key)
    (l := s.cookies)
  refine perm_middle.trans ?_
  rw [h]

theorem mem_internalInsertCookie :
    e ∈ (s.internalInsertCookie key cc).cookies ↔ e = ⟨s.nextId, key, cc⟩ ∨ e ∈ s.cookies := by
  rw [(internalInsertCookie_perm s key cc).mem_iff, mem_cons]

theorem wellFormed_internalInsertCookie (hs : WellFormed registry s) (cc : CanonicalCookie) :
    WellFormed registry (s.internalInsertCookie (getKey registry cc.domain) cc) where
  nodup := by
    refine ((internalInsertCookie_perm s _ cc).map Entry.id).nodup_iff.mpr ?_
    refine nodup_cons.mpr ⟨fun hmem => ?_, hs.nodup⟩
    obtain ⟨e, he, hid⟩ := mem_map.mp hmem
    exact absurd hid (Nat.ne_of_lt (hs.lt_nextId e he))
  lt_nextId e he := by
    rcases mem_internalInsertCookie.mp he with rfl | he
    · exact Nat.lt_succ_self _
    · exact Nat.lt_succ_of_lt (hs.lt_nextId e he)
  key_eq e he := by
    rcases mem_internalInsertCookie.mp he with rfl | he
    · rfl
    · exact hs.key_eq e he

end CookieMonster

end ChromiumBase.Cookies
