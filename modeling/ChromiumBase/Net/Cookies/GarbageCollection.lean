import ChromiumBase.Net.Cookies.Store

/-!
# Purging the cookies of one key

What `GarbageCollect` keeps of the cookies of a key that has too many.  A round deletes from the
front of the vector, which is sorted by the time of the last access, so among cookies with the
same priority and Secure flag the least recently accessed go first (`Evicts`).  How many go in a
round depends on two numbers only (`deletedInRound`), from which the numbers left of each priority
follow.

A round that spares Secure cookies subtracts `max(secure, quota - secure)` from the number it may
delete, not the quota.  When some but fewer than `quota` cookies are Secure this is less than the
quota, and the round takes the priority below it if the goal is large enough (`Overruns`).
-/

open Function List

namespace ChromiumBase.Cookies

open CookieMonster

variable {registry : Registry} {s : CookieMonster} {key : Text} {current : Time}
  {cookies deleted kept : List Entry} {priority : CookiePriority} (secure toProtect count : ℕ)
  {purgeGoal : ℕ}

/-- Cookies between which only the time of the last access decides. -/
def SameClass (a b : Entry) : Prop :=
  a.cookie.priority = b.cookie.priority ∧ a.cookie.secure = b.cookie.secure

/-- Cookies are deleted from a list, and of two of the same class the one further in front. -/
structure Evicts (cookies deleted kept : List Entry) : Prop where
  perm : (deleted ++ kept).Perm cookies
  sublist : kept.Sublist cookies
  order : ∀ R : Entry → Entry → Prop, cookies.Pairwise R →
    ∀ a ∈ deleted, ∀ b ∈ kept, SameClass a b → R a b

namespace Evicts

theorem nothing (cookies : List Entry) : Evicts cookies [] cookies where
  perm := List.Perm.refl _
  sublist := List.Sublist.refl _
  order _ _ _ ha := absurd ha not_mem_nil

theorem trans {deleted' kept' : List Entry} (h : Evicts cookies deleted kept)
    (h' : Evicts kept deleted' kept') : Evicts cookies (deleted ++ deleted') kept' where
  perm := by
    rw [append_assoc]
    exact (h'.perm.append_left deleted).trans h.perm
  sublist := h'.sublist.trans h.sublist
  order R hR a ha b hb hab := by
    rcases mem_append.mp ha with ha | ha
    · exact h.order R hR a ha b (h'.sublist.subset hb) hab
    · exact h'.order R (hR.sublist h.sublist) a ha b hb hab

theorem countP_eq (h : Evicts cookies deleted kept) (p : Entry → Bool) :
    cookies.countP p = deleted.countP p + kept.countP p := by
  rw [← h.perm.countP_eq p, countP_append]

theorem countP_kept (h : Evicts cookies deleted kept) {p : Entry → Bool}
    (hn : ∀ a ∈ deleted, ¬ p a) : kept.countP p = cookies.countP p := by
  rw [h.countP_eq, countP_eq_zero.mpr hn, Nat.zero_add]

end Evicts

def RespectsClass (eligible : CanonicalCookie → Bool) : Prop :=
  ∀ a b : Entry, SameClass a b → eligible a.cookie = eligible b.cookie

theorem respectsClass_isCookieEligibleForEviction (priority : CookiePriority) (protect : Bool) :
    RespectsClass (isCookieEligibleForEviction priority protect) := by
  rintro a b ⟨hp, hse⟩
  rw [isCookieEligibleForEviction, isCookieEligibleForEviction, hp, hse]

section PurgeLoop

variable {eligible : CanonicalCookie → Bool}

/-- The loop deletes from the front, and only cookies that may be deleted. -/
theorem evicts_purgeLoop (hel : RespectsClass eligible)
    (purgeGoal removed possibly : ℕ) (cookies : List Entry) :
    Evicts cookies (purgeLoop eligible purgeGoal removed possibly cookies).1
      (purgeLoop eligible purgeGoal removed possibly cookies).2 ∧
    ∀ a ∈ (purgeLoop eligible purgeGoal removed possibly cookies).1, eligible a.cookie := by
  induction cookies generalizing removed possibly with
  | nil => exact ⟨Evicts.nothing [], fun a ha => absurd ha not_mem_nil⟩
  | cons e rest ih =>
    rw [purgeLoop]
    split
    · split
      next he =>
        obtain ⟨hev, hall⟩ := ih (removed + 1) (possibly - 1)
        refine ⟨⟨hev.perm.cons e, hev.sublist.cons e, ?_⟩, ?_⟩
        · intro R hR a ha b hb hab
          obtain ⟨hf, hr⟩ := pairwise_cons.mp hR
          rcases mem_cons.mp ha with rfl | ha
          · exact hf b (hev.sublist.subset hb)
          · exact hev.order R hr a ha b hb hab
        · intro a ha
          rcases mem_cons.mp ha with rfl | ha
          · exact he
          · exact hall a ha
      next he =>
        obtain ⟨hev, hall⟩ := ih removed possibly
        refine ⟨⟨perm_middle.trans (hev.perm.cons e), hev.sublist.cons_cons e, ?_⟩, hall⟩
        intro R hR a ha b hb hab
        rcases mem_cons.mp hb with rfl | hb
        · exact absurd (hel a b hab ▸ hall a ha) he
        · exact hev.order R (pairwise_cons.mp hR).2 a ha b hb hab
    · exact ⟨Evicts.nothing _, fun a ha => absurd ha not_mem_nil⟩

/-- How many cookies the loop deletes: up to the goal, as many as it may. -/
theorem length_purgeLoop (removed possibly : ℕ) (cookies : List Entry) :
    (purgeLoop eligible purgeGoal removed possibly cookies).1.length =
      min (purgeGoal - removed) (min possibly (cookies.countP (eligible ·.cookie))) := by
  induction cookies generalizing removed possibly with
  | nil => simp [purgeLoop]
  | cons e rest ih =>
    rw [purgeLoop, countP_cons]
    split
    · split
      · rw [length_cons, ih]
        omega
      · rw [ih, Nat.add_zero]
    · rw [length_nil]
      omega

end PurgeLoop

/-- How many cookies of a priority a round deletes, of `count` in all and `secure` Secure ones. -/
def deletedInRound (protectSecureCookies : Bool) (toProtect count secure purgeGoal : ℕ) : ℕ :=
  if count ≤ toProtect then 0
  else if protectSecureCookies then min purgeGoal (count - max secure (toProtect - secure))
  else min purgeGoal (count - toProtect)

theorem deletedInRound_le (protectSecureCookies : Bool) (toProtect count secure purgeGoal : ℕ) :
    deletedInRound protectSecureCookies toProtect count secure purgeGoal ≤ purgeGoal := by
  rw [deletedInRound]
  split
  · exact Nat.zero_le _
  · split
    · exact Nat.min_le_left _ _
    · exact Nat.min_le_left _ _

section

variable (priority : CookiePriority) (cookies : List Entry)

def priorityCount : ℕ :=
  countCookiesForPossibleDeletion priority cookies false

def secureCount : ℕ :=
  countCookiesForPossibleDeletion priority cookies true

theorem priorityCount_eq :
    priorityCount priority cookies = cookies.countP (·.cookie.priority = priority) := by
  simp [priorityCount, countCookiesForPossibleDeletion]

theorem priorityCount_sum :
    priorityCount .low cookies + priorityCount .medium cookies + priorityCount .high cookies =
      cookies.length := by
  simp only [priorityCount_eq]
  induction cookies with
  | nil => rfl
  | cons e rest ih =>
    simp only [countP_cons, length_cons]
    cases e.cookie.priority
    all_goals
      simp only [reduceCtorEq, decide_true, decide_false, if_true, if_false]
      omega

theorem priorityCount_eq_add : priorityCount priority cookies = secureCount priority cookies +
      cookies.countP (isCookieEligibleForEviction priority true ·.cookie) := by
  rw [priorityCount_eq, secureCount, countCookiesForPossibleDeletion]
  induction cookies with
  | nil => rfl
  | cons e rest ih =>
    simp only [countP_cons, isCookieEligibleForEviction]
    by_cases hp : e.cookie.priority = priority
    · cases hse : e.cookie.secure
      all_goals
        simp at ih ⊢
        simp [isCookieEligibleForEviction] at ih
        omega
    · simp [hp] at ih ⊢
      simp [isCookieEligibleForEviction] at ih
      omega

end

theorem isCookieEligibleForEviction_eq_true {protect : Bool} {cookie : CanonicalCookie} :
    isCookieEligibleForEviction priority protect cookie = true ↔
      cookie.priority = priority ∧ (protect = true → cookie.secure = false) := by
  rw [isCookieEligibleForEviction]
  by_cases hp : cookie.priority = priority <;> cases protect <;> simp

theorem evicts_purgeLeastRecentMatches (cookies : List Entry) (priority : CookiePriority)
    (toProtect purgeGoal : ℕ) (protect : Bool) :
    Evicts cookies (purgeLeastRecentMatches cookies priority toProtect purgeGoal protect).1
      (purgeLeastRecentMatches cookies priority toProtect purgeGoal protect).2 ∧
    ∀ a ∈ (purgeLeastRecentMatches cookies priority toProtect purgeGoal protect).1,
      a.cookie.priority = priority ∧ (protect = true → a.cookie.secure = false) := by
  rw [purgeLeastRecentMatches]
  split
  · exact ⟨Evicts.nothing _, fun a ha => absurd ha not_mem_nil⟩
  · obtain ⟨he, hall⟩ := evicts_purgeLoop
      (respectsClass_isCookieEligibleForEviction priority protect) purgeGoal 0
      (possiblyToBeDeleted cookies priority toProtect protect) cookies
    exact ⟨he, fun a ha => isCookieEligibleForEviction_eq_true.mp (hall a ha)⟩

def maxVectorSize : ℕ := 2 ^ 60 - 1

theorem sizeSub_eq {a b : ℕ} (hb : b ≤ a := by omega) (ha : a < 2 ^ 64 := by omega) :
    sizeSub a b = a - b := by
  rw [sizeSub, Nat.mod_eq_of_lt (lt_of_le_of_lt hb ha)]
  omega

/-- When there are more Secure cookies than the quota, the inner difference wraps around and the
outer one does again: no bound remains but the number of cookies that are not Secure. -/
theorem min_possiblyToBeDeleted {toProtect count secure : ℕ} (hc : count ≤ maxVectorSize)
    (hm : toProtect < count) (hse : secure ≤ count) :
    min (sizeSub count (max secure (sizeSub toProtect secure))) (count - secure) =
      count - max secure (toProtect - secure) := by
  have hmax : maxVectorSize = 2 ^ 60 - 1 := rfl
  rcases le_or_gt secure toProtect with hle | hlt
  · rw [sizeSub_eq hle, sizeSub_eq]
    omega
  · have hi : sizeSub toProtect secure = toProtect + 2 ^ 64 - secure := by
      rw [sizeSub]
      omega
    have ho : sizeSub count (toProtect + 2 ^ 64 - secure) = count + secure - toProtect := by
      rw [sizeSub]
      omega
    have hw : max secure (toProtect + 2 ^ 64 - secure) = toProtect + 2 ^ 64 - secure := by
      omega
    rw [hi, hw, ho]
    omega

theorem length_purgeLeastRecentMatches (hsize : cookies.length ≤ maxVectorSize)
    (priority : CookiePriority) (toProtect purgeGoal : ℕ) (protect : Bool) :
    (purgeLeastRecentMatches cookies priority toProtect purgeGoal protect).1.length =
      deletedInRound protect toProtect (priorityCount priority cookies)
        (secureCount priority cookies) purgeGoal := by
  have hc : priorityCount priority cookies ≤ maxVectorSize := countP_le_length.trans hsize
  have hadd := priorityCount_eq_add priority cookies
  rw [purgeLeastRecentMatches, deletedInRound, ← priorityCount]
  split
  · rfl
  next hm =>
    rw [length_purgeLoop, possiblyToBeDeleted, ← priorityCount, ← secureCount]
    cases protect with
    | false =>
      have he : cookies.countP (isCookieEligibleForEviction priority false ·.cookie) =
          priorityCount priority cookies := by
        exact countP_congr fun e _ => by simp [isCookieEligibleForEviction]
      have hmax : maxVectorSize = 2 ^ 60 - 1 := rfl
      rw [he, if_neg Bool.false_ne_true, if_neg Bool.false_ne_true,
        sizeSub_eq]
      omega
    | true =>
      have he : cookies.countP (isCookieEligibleForEviction priority true ·.cookie) =
          priorityCount priority cookies - secureCount priority cookies := by omega
      rw [he, if_pos rfl, if_pos rfl,
        min_possiblyToBeDeleted hc (by omega) (by omega), Nat.sub_zero]

section Numbers

variable (secure : ℕ)

/-- What a round that deletes `n` cookies of a priority does to the numbers of cookies. -/
structure RoundCounts (priority : CookiePriority) (protect : Bool) (n : ℕ)
    (cookies kept : List Entry) : Prop where
  length_le : kept.length ≤ cookies.length
  self : priorityCount priority cookies = n + priorityCount priority kept
  other : ∀ p, p ≠ priority → priorityCount p kept = priorityCount p cookies
  secure_other : ∀ p, p ≠ priority → secureCount p kept = secureCount p cookies
  secure_self : protect = true → secureCount priority kept = secureCount priority cookies

theorem roundCounts_purgeLeastRecentMatches (cookies : List Entry) (priority : CookiePriority)
    (toProtect purgeGoal : ℕ) (protect : Bool) : RoundCounts priority protect
      (purgeLeastRecentMatches cookies priority toProtect purgeGoal protect).1.length cookies
      (purgeLeastRecentMatches cookies priority toProtect purgeGoal protect).2 := by
  obtain ⟨he, hall⟩ :=
    evicts_purgeLeastRecentMatches cookies priority toProtect purgeGoal protect
  refine ⟨he.sublist.length_le, ?_, ?_, ?_, ?_⟩
  · rw [priorityCount_eq, priorityCount_eq, he.countP_eq]
    congr 1
    exact countP_eq_length.mpr fun a ha => decide_eq_true (hall a ha).1
  · intro p hp
    exact he.countP_kept fun a ha => by simp [(hall a ha).1, hp.symm]
  · intro p hp
    exact he.countP_kept fun a ha => by simp [(hall a ha).1, hp.symm]
  · intro hpr
    exact he.countP_kept fun a ha => by simp [(hall a ha).2 hpr]

/-- A round runs also when nothing is left to delete, without effect. -/
theorem purge_cons (hg : purgeGoal < 2 ^ 64) (priority : CookiePriority) (protect : Bool)
    (rounds : List (CookiePriority × Bool)) (cookies : List Entry) :
    purge ((priority, protect) :: rounds) cookies purgeGoal =
      let r := purgeLeastRecentMatches cookies priority (quota priority) purgeGoal protect
      let rest := purge rounds r.2 (purgeGoal - r.1.length)
      (r.1 ++ rest.1, rest.2) := by
  rw [purge]
  split
  · have hle : (purgeLeastRecentMatches cookies priority (quota priority) purgeGoal
        protect).1.length ≤ purgeGoal := by
      rw [purgeLeastRecentMatches]
      split
      · exact Nat.zero_le _
      · rw [length_purgeLoop]
        exact Nat.min_le_left _ _
    dsimp only
    rw [sizeSub_eq hle hg]
  next hz =>
    obtain rfl : purgeGoal = 0 := by omega
    have hn : purgeLeastRecentMatches cookies priority (quota priority) 0 protect =
        ([], cookies) := by
      rw [purgeLeastRecentMatches]
      split
      · rfl
      · cases cookies <;> simp [purgeLoop]
    rw [hn]
    rfl

theorem evicts_purge (rounds : List (CookiePriority × Bool)) (cookies : List Entry)
    (purgeGoal : ℕ) :
    Evicts cookies (purge rounds cookies purgeGoal).1 (purge rounds cookies purgeGoal).2 := by
  induction rounds generalizing cookies purgeGoal with
  | nil => exact Evicts.nothing cookies
  | cons round rounds ih =>
    rw [purge]
    split
    · exact (evicts_purgeLeastRecentMatches cookies _ _ _ _).1.trans (ih _ _)
    · exact ih cookies purgeGoal

theorem deletedInRound_false (purgeGoal : ℕ) :
    deletedInRound false toProtect count secure purgeGoal = min purgeGoal (count - toProtect) := by
  rw [deletedInRound, if_neg Bool.false_ne_true]
  split <;> omega

theorem deletedInRound_le_count (purgeGoal : ℕ) :
    deletedInRound true toProtect count secure purgeGoal ≤ count := by
  rw [deletedInRound, if_pos rfl]
  split <;> omega

/-- The rounds on the numbers of cookies of each priority alone; the numbers of Secure ones are
those at the start. -/
def countRounds (secure : CookiePriority → ℕ) :
    List (CookiePriority × Bool) → (CookiePriority → ℕ) → ℕ → CookiePriority → ℕ
  | [], count, _ => count
  | (priority, protect) :: rounds, count, purgeGoal =>
    let n := deletedInRound protect (quota priority) (count priority) (secure priority) purgeGoal
    countRounds secure rounds (update count priority (count priority - n)) (purgeGoal - n)

/-- No round that spares the Secure cookies of a priority comes after one that does not. -/
def SparesFirst (rounds : List (CookiePriority × Bool)) : Prop :=
  rounds.Pairwise fun a b => ¬ (a.1 = b.1 ∧ a.2 = false ∧ b.2 = true)

/-- The rounds on the cookies do to the numbers of each priority what the rounds on numbers do. -/
theorem priorityCount_purge {secure : CookiePriority → ℕ} {rounds : List (CookiePriority × Bool)}
    (hr : SparesFirst rounds) (hse : ∀ p, (p, true) ∈ rounds → secure p = secureCount p cookies)
    (hsize : cookies.length ≤ maxVectorSize) (hg : purgeGoal < 2 ^ 64) :
    (fun p => priorityCount p (purge rounds cookies purgeGoal).2) =
      countRounds secure rounds (fun p => priorityCount p cookies) purgeGoal := by
  induction rounds generalizing cookies purgeGoal with
  | nil => rfl
  | cons round rounds ih =>
    obtain ⟨priority, protect⟩ := round
    obtain ⟨hf, hre⟩ := pairwise_cons.mp hr
    have hc := roundCounts_purgeLeastRecentMatches cookies priority (quota priority)
      purgeGoal protect
    have hl : (purgeLeastRecentMatches cookies priority (quota priority) purgeGoal
        protect).1.length = deletedInRound protect (quota priority)
          (priorityCount priority cookies) (secure priority) purgeGoal := by
      rw [length_purgeLeastRecentMatches hsize]
      cases protect with
      | false => rw [deletedInRound_false, deletedInRound_false]
      | true => rw [hse priority mem_cons_self]
    rw [purge_cons hg, countRounds]
    generalize purgeLeastRecentMatches cookies priority (quota priority) purgeGoal protect = r
      at hc hl ⊢
    have hu : (fun p => priorityCount p r.2) = update
        (fun p => priorityCount p cookies) priority
        (priorityCount priority cookies - r.1.length) := by
      funext p
      rcases eq_or_ne p priority with rfl | hp
      · rw [update_self, hc.self, Nat.add_sub_cancel_left]
      · rw [update_of_ne hp, hc.other p hp]
    have hse' : ∀ p, (p, true) ∈ rounds → secure p = secureCount p r.2 := by
      intro p hp
      rw [hse p (mem_cons_of_mem _ hp)]
      rcases eq_or_ne p priority with rfl | hne
      · -- a later round spares these cookies, so this one does
        refine (hc.secure_self ?_).symm
        exact Bool.of_not_eq_false fun h => hf (p, true) hp ⟨rfl, h, rfl⟩
      · exact (hc.secure_other p hne).symm
    rw [ih hre hse' (hc.length_le.trans hsize) (lt_of_le_of_lt (Nat.sub_le _ _) hg), hu, hl]

/-- A round that spares Secure cookies takes its priority below the quota. -/
def Overruns (toProtect count secure purgeGoal : ℕ) : Prop :=
  toProtect < count ∧ 0 < secure ∧ secure < toProtect ∧ count - toProtect < purgeGoal

instance (toProtect count secure purgeGoal : ℕ) :
    Decidable (Overruns toProtect count secure purgeGoal) := inferInstanceAs (Decidable (_ ∧ _))

/-- Of the two rounds for a priority the first decides: the second stops at the quota. -/
theorem min_le_sub_iff (purgeGoal later : ℕ) :
    min toProtect count ≤ count - deletedInRound true toProtect count secure purgeGoal -
      min later (count - deletedInRound true toProtect count secure purgeGoal - toProtect) ↔
    ¬ Overruns toProtect count secure purgeGoal := by
  rw [deletedInRound, if_pos rfl, Overruns]
  split
  · omega
  · omega

/-- The goal with which each priority's first round starts, and that none of them goes below the
quota. -/
def NoOverrun (count secure : CookiePriority → ℕ) (purgeGoal : ℕ) : Prop :=
  let low := deletedInRound true (quota .low) (count .low) (secure .low) purgeGoal
  let lowSecure := min (purgeGoal - low) (count .low - low - quota .low)
  let mediumGoal := purgeGoal - low - lowSecure
  let medium :=
    deletedInRound true (quota .medium) (count .medium) (secure .medium) mediumGoal
  ¬ Overruns (quota .low) (count .low) (secure .low) purgeGoal ∧
    ¬ Overruns (quota .medium) (count .medium) (secure .medium) mediumGoal ∧
    ¬ Overruns (quota .high) (count .high) (secure .high) (mediumGoal - medium)

instance (count secure : CookiePriority → ℕ) (purgeGoal : ℕ) :
    Decidable (NoOverrun count secure purgeGoal) := inferInstanceAs (Decidable (_ ∧ _))

theorem min_quota_le_countRounds_iff (secure count : CookiePriority → ℕ) (purgeGoal : ℕ) :
    (∀ p, min (quota p) (count p) ≤ countRounds secure purgeRounds count purgeGoal p) ↔
      NoOverrun count secure purgeGoal := by
  have hall : ∀ P : CookiePriority → Prop, (∀ p, P p) ↔ P .low ∧ P .medium ∧ P .high :=
    fun P => ⟨fun h => ⟨h _, h _, h _⟩, fun h p => by cases p <;> simp [h]⟩
  rw [hall]
  simp only [purgeRounds, countRounds, update_apply, reduceCtorEq, if_true, if_false,
    deletedInRound_false, NoOverrun]
  rw [min_le_sub_iff, min_le_sub_iff, min_le_sub_iff]

theorem exists_left_of_eq_min {deleted goal count toProtect : ℕ}
    (h : deleted = min goal (count - toProtect)) :
    ∃ left goalLeft, count = deleted + left ∧ goal = deleted + goalLeft ∧
      (left ≤ toProtect ∨ goalLeft = 0) :=
  ⟨count - deleted, goal - deleted, by omega, by omega, by omega⟩

/-- Rounds that stop at their quotas reach a goal that leaves the sum of the quotas, whatever
`d₁`, `d₂` and `d₃` cookies the rounds before them have deleted. -/
theorem sum_rounds_eq {q₁ q₂ q₃ c₁ c₂ c₃ d₁ d₂ d₃ e₁ e₂ e₃ goal : ℕ}
    (hg : c₁ + c₂ + c₃ = q₁ + q₂ + q₃ + goal) (hc₁ : d₁ ≤ c₁) (hc₂ : d₂ ≤ c₂) (hc₃ : d₃ ≤ c₃)
    (hd₁ : d₁ ≤ goal) (he₁ : e₁ = min (goal - d₁) (c₁ - d₁ - q₁)) (hd₂ : d₂ ≤ goal - d₁ - e₁)
    (hd₃ : d₃ ≤ goal - d₁ - e₁ - d₂) (he₂ : e₂ = min (goal - d₁ - e₁ - d₂ - d₃) (c₂ - d₂ - q₂))
    (he₃ : e₃ = min (goal - d₁ - e₁ - d₂ - d₃ - e₂) (c₃ - d₃ - q₃)) :
    c₁ - d₁ - e₁ + (c₂ - d₂ - e₂) + (c₃ - d₃ - e₃) = q₁ + q₂ + q₃ := by
  obtain ⟨left₁, goal₁, hl₁, hg₁, hor₁⟩ := exists_left_of_eq_min he₁
  obtain ⟨left₂, goal₂, hl₂, hg₂, hor₂⟩ := exists_left_of_eq_min he₂
  obtain ⟨left₃, goal₃, hl₃, hg₃, hor₃⟩ := exists_left_of_eq_min he₃
  clear he₁ he₂ he₃
  rw [hl₁, hl₂, hl₃]
  simp only [Nat.add_sub_cancel_left]
  have hsum : left₁ + left₂ + left₃ = q₁ + q₂ + q₃ + goal₃ := by
    clear hor₁ hor₂ hor₃
    omega
  -- a goal left over means that every round stopped at its quota
  have hgo : goal₃ ≤ goal₂ ∧ goal₃ ≤ goal₁ := by
    clear hor₁ hor₂ hor₃
    omega
  clear hg hc₁ hc₂ hc₃ hd₁ hd₂ hd₃ hl₁ hl₂ hl₃ hg₁ hg₂ hg₃
  omega

theorem sum_countRounds (secure count : CookiePriority → ℕ) (purgeGoal : ℕ)
    (hg : count .low + count .medium + count .high =
      kDomainMaxCookies - kDomainPurgeCookies + purgeGoal) :
    let after := countRounds secure purgeRounds count purgeGoal
    after .low + after .medium + after .high = kDomainMaxCookies - kDomainPurgeCookies := by
  simp only [purgeRounds, countRounds, deletedInRound_false]
  exact sum_rounds_eq hg (deletedInRound_le_count _ _ _ _) (deletedInRound_le_count _ _ _ _)
    (deletedInRound_le_count _ _ _ _) (deletedInRound_le _ _ _ _ _) rfl
    (deletedInRound_le _ _ _ _ _) (deletedInRound_le _ _ _ _ _) rfl rfl

end Numbers

theorem Evicts.filter_perm (h : Evicts cookies deleted kept) {range : List Entry}
    (hc : cookies.Perm range) (hn : range.Nodup) : (range.filter (· ∉ deleted)).Perm kept := by
  have hp := h.perm.trans hc
  obtain ⟨-, -, hd⟩ := nodup_append.mp (hp.nodup_iff.mpr hn)
  refine (hp.symm.filter _).trans ?_
  rw [filter_append, filter_eq_nil_iff.mpr fun a ha => by simpa using ha,
    nil_append, filter_eq_self.mpr]
  intro a ha
  simpa using fun hde => hd a hde a ha rfl

theorem WellFormed.nodup_equalRange (hs : WellFormed registry s) (key : Text) :
    (s.equalRange key).Nodup :=
  (List.Nodup.of_map _ hs.nodup).filter _

/-- The cookies left of a key are those that the rounds have kept. -/
theorem equalRange_garbageCollectKey (sorting : Sorting) (hs : WellFormed registry s)
    (hlive : ∀ e ∈ s.equalRange key, e.cookie.isExpired current = false)
    (hmany : kDomainMaxCookies < (s.equalRange key).length) :
    ((s.garbageCollectKey sorting current key).equalRange key).Sublist (s.equalRange key) ∧
    ((s.garbageCollectKey sorting current key).equalRange key).Perm
      (purge purgeRounds (sorting.sort (s.equalRange key))
        ((s.equalRange key).length - (kDomainMaxCookies - kDomainPurgeCookies))).2 := by
  have hex : s.garbageCollectExpired current (s.equalRange key) = (s, s.equalRange key) := by
    rw [garbageCollectExpired, filter_eq_nil_iff.mpr (by simpa using hlive),
      filter_eq_self.mpr (by simpa using hlive)]
    rfl
  generalize hg : (s.equalRange key).length - (kDomainMaxCookies - kDomainPurgeCookies) = goal
  have hev := evicts_purge purgeRounds (sorting.sort (s.equalRange key)) goal
  have hp := sorting.sort_perm (s.equalRange key)
  have hmem : ∀ e ∈ (purge purgeRounds (sorting.sort (s.equalRange key)) goal).1,
      e ∈ s.cookies := fun e he =>
    (mem_equalRange.mp (hp.subset (hev.perm.subset (mem_append_left _ he)))).1
  rw [garbageCollectKey, if_pos hmany, hex]
  rw [if_pos hmany, hg, equalRange_deleteEach hs hmem]
  exact ⟨filter_sublist, hev.filter_perm hp (hs.nodup_equalRange key)⟩

/-- What a purge of the cookies of one key should do: it leaves a fixed number of them, of each
priority at least its quota or all there were, and of two cookies of the same class it never
deletes the one accessed more recently and keeps the other. -/
structure FairPurge (before after : List Entry) : Prop where
  sublist : after.Sublist before
  length_eq : after.length = kDomainMaxCookies - kDomainPurgeCookies
  quotas : ∀ p, min (quota p) (priorityCount p before) ≤ priorityCount p after
  leastRecent : ∀ a ∈ before, a ∉ after → ∀ b ∈ after, SameClass a b →
    a.cookie.lastAccessDate ≤ b.cookie.lastAccessDate

section GarbageCollectKey

variable (sorting : Sorting) (hs : WellFormed registry s)
  (hlive : ∀ e ∈ s.equalRange key, e.cookie.isExpired current = false)
  (hmany : kDomainMaxCookies < (s.equalRange key).length)
  (hsize : (s.equalRange key).length ≤ maxVectorSize)

include hs hlive hmany hsize

theorem priorityCount_garbageCollectKey :
    (fun p => priorityCount p ((s.garbageCollectKey sorting current key).equalRange key)) =
      countRounds (fun p => secureCount p (s.equalRange key)) purgeRounds
        (fun p => priorityCount p (s.equalRange key))
        ((s.equalRange key).length - (kDomainMaxCookies - kDomainPurgeCookies)) := by
  have hmax : maxVectorSize = 2 ^ 60 - 1 := rfl
  have hso := sorting.sort_perm (s.equalRange key)
  have ha := (equalRange_garbageCollectKey sorting hs hlive hmany).2
  have hp : ∀ p, priorityCount p (sorting.sort (s.equalRange key)) =
      priorityCount p (s.equalRange key) := fun p => hso.countP_eq _
  have hse : ∀ p, secureCount p (s.equalRange key) =
      secureCount p (sorting.sort (s.equalRange key)) := fun p => hso.symm.countP_eq _
  calc (fun p => priorityCount p ((s.garbageCollectKey sorting current key).equalRange key))
      = fun p => priorityCount p (purge purgeRounds (sorting.sort (s.equalRange key))
          ((s.equalRange key).length - (kDomainMaxCookies - kDomainPurgeCookies))).2 :=
        funext fun p => ha.countP_eq _
    _ = countRounds (fun p => secureCount p (s.equalRange key)) purgeRounds
          (fun p => priorityCount p (sorting.sort (s.equalRange key)))
          ((s.equalRange key).length - (kDomainMaxCookies - kDomainPurgeCookies)) :=
        priorityCount_purge (by unfold SparesFirst; decide) (fun p _ => hse p)
          (hso.length_eq.trans_le hsize) (by omega)
    _ = _ := by rw [funext hp]

theorem length_garbageCollectKey :
    ((s.garbageCollectKey sorting current key).equalRange key).length =
      kDomainMaxCookies - kDomainPurgeCookies := by
  have hc := priorityCount_garbageCollectKey sorting hs hlive hmany hsize
  have hsum := sum_countRounds (fun p => secureCount p (s.equalRange key))
    (fun p => priorityCount p (s.equalRange key))
    ((s.equalRange key).length - (kDomainMaxCookies - kDomainPurgeCookies))
    (by rw [priorityCount_sum]; omega)
  rw [← hc] at hsum
  rw [← priorityCount_sum]
  exact hsum

omit hsize in
theorem leastRecent_garbageCollectKey {a b : Entry} (ha : a ∈ s.equalRange key)
    (hd : a ∉ (s.garbageCollectKey sorting current key).equalRange key)
    (hb : b ∈ (s.garbageCollectKey sorting current key).equalRange key) (hab : SameClass a b) :
    a.cookie.lastAccessDate ≤ b.cookie.lastAccessDate := by
  have haf := (equalRange_garbageCollectKey sorting hs hlive hmany).2
  have he := evicts_purge purgeRounds (sorting.sort (s.equalRange key))
    ((s.equalRange key).length - (kDomainMaxCookies - kDomainPurgeCookies))
  have hso := sorting.sort_sorted (s.equalRange key)
  have hmem := he.perm.symm.subset ((sorting.sort_perm _).symm.subset ha)
  rcases mem_append.mp hmem with hmem | hmem
  · have hnot := he.order _ hso a hmem b (haf.subset hb) hab
    exact le_of_not_gt fun hlt => hnot (.inl hlt)
  · exact absurd (haf.symm.subset hmem) hd

end GarbageCollectKey

theorem pairwise_mergeSort_lraLess (l : List Entry) :
    (l.mergeSort fun a b => ¬ LraLess b a).Pairwise fun a b => ¬ LraLess b a := by
  refine (pairwise_mergeSort ?_ ?_ l).imp fun h => of_decide_eq_true h
  · intro a b c
    rw [decide_eq_true_eq, decide_eq_true_eq, decide_eq_true_eq]
    unfold LraLess Time
    omega
  · intro a b
    rw [Bool.or_eq_true, decide_eq_true_eq, decide_eq_true_eq]
    unfold LraLess Time
    omega

def mergeSorting : Sorting where
  sort l := l.mergeSort fun a b => ¬ LraLess b a
  sort_perm l := mergeSort_perm l _
  sort_sorted := pairwise_mergeSort_lraLess
  partialSort l _ := l.mergeSort fun a b => ¬ LraLess b a
  partialSort_perm l _ := mergeSort_perm l _
  partialSort_sorted l n := (pairwise_mergeSort_lraLess l).sublist (take_sublist _ _)
  partialSort_first l n a ha b hb := by
    have hsorted := pairwise_mergeSort_lraLess l
    rw [← take_append_drop n (l.mergeSort _)] at hsorted
    exact (pairwise_append.mp hsorted).2.2 a ha b hb

def plainCookie (priority : CookiePriority) (secure : Bool) (lastAccessDate : Time) :
    CanonicalCookie where
  name := []
  value := []
  domain := []
  path := [slash]
  creationDate := 1
  expiryDate := 0
  lastAccessDate := lastAccessDate
  secure := secure
  httpOnly := false
  sameSite := .unspecified
  priority := priority
  sourceScheme := .unset

/-- Sixty cookies of medium priority, of them `secure` Secure ones, and 121 of high priority. -/
def mediumAndHigh (secure : ℕ) : CookieMonster :=
  { CookieMonster.new 0 with
    cookies := (List.range 181).map fun i =>
      ⟨i, [], plainCookie (if i < 60 then .medium else .high) (i < secure) i⟩
    nextId := 181 }

def noRules : Registry := ⟨fun _ => none, fun _ => false, fun _ => rfl⟩

theorem wellFormed_mediumAndHigh : WellFormed noRules (mediumAndHigh secure) where
  nodup := by
    rw [mediumAndHigh, map_map]
    exact List.Nodup.map (fun i j h => h) nodup_range
  lt_nextId e he := by
    obtain ⟨i, hi, rfl⟩ := mem_map.mp he
    exact mem_range.mp hi
  key_eq e he := by
    obtain ⟨i, hi, rfl⟩ := mem_map.mp he
    rfl

theorem equalRange_mediumAndHigh :
    (mediumAndHigh secure).equalRange [] = (mediumAndHigh secure).cookies := by
  refine filter_eq_self.mpr fun e he => ?_
  obtain ⟨i, hi, rfl⟩ := mem_map.mp he
  rfl

theorem length_mediumAndHigh : ((mediumAndHigh secure).equalRange []).length = 181 := by
  rw [equalRange_mediumAndHigh, mediumAndHigh, length_map, length_range]

theorem isExpired_mediumAndHigh :
    ∀ e ∈ (mediumAndHigh secure).equalRange [], e.cookie.isExpired 1 = false := by
  intro e he
  rw [equalRange_mediumAndHigh] at he
  obtain ⟨i, hi, rfl⟩ := mem_map.mp he
  rfl

/-- The purge is fair exactly if no round that spares Secure cookies overruns the quota of its
priority; everything but the quotas holds in any case. -/
theorem garbageCollectKey_fair_iff (sorting : Sorting) (hs : WellFormed registry s)
    (hlive : ∀ e ∈ s.equalRange key, e.cookie.isExpired current = false)
    (hmany : kDomainMaxCookies < (s.equalRange key).length)
    (hsize : (s.equalRange key).length ≤ maxVectorSize) :
    FairPurge (s.equalRange key) ((s.garbageCollectKey sorting current key).equalRange key) ↔
      NoOverrun (fun p => priorityCount p (s.equalRange key))
        (fun p => secureCount p (s.equalRange key))
        ((s.equalRange key).length - (kDomainMaxCookies - kDomainPurgeCookies)) := by
  have hc := priorityCount_garbageCollectKey sorting hs hlive hmany hsize
  rw [← min_quota_le_countRounds_iff, ← hc]
  constructor
  · exact fun h => h.quotas
  · intro h
    exact {
      sublist := (equalRange_garbageCollectKey sorting hs hlive hmany).1
      length_eq := length_garbageCollectKey sorting hs hlive hmany hsize
      quotas := h
      leastRecent := fun a ha hd b hb hab =>
        leastRecent_garbageCollectKey sorting hs hlive hmany ha hd hb hab }

/-- With 55 Secure cookies the medium priority has more of them than its quota, and its first
round deletes the other five only. -/
theorem garbageCollectKey_fair_manySecure :
    secureCount .medium ((mediumAndHigh 55).equalRange []) = 55 ∧
      FairPurge ((mediumAndHigh 55).equalRange [])
        (((mediumAndHigh 55).garbageCollectKey mergeSorting 1 []).equalRange []) :=
  ⟨by decide +kernel,
    (garbageCollectKey_fair_iff mergeSorting (wellFormed_mediumAndHigh 55)
      (isExpired_mediumAndHigh 55) (by rw [length_mediumAndHigh]; decide)
      (by rw [length_mediumAndHigh]; decide)).mpr (by decide +kernel)⟩

/-- With twenty Secure cookies the medium priority is left with thirty of its sixty cookies,
although its quota is fifty. -/
theorem garbageCollectKey_overrun :
    (∀ e ∈ (mediumAndHigh 20).equalRange [], e.cookie.isExpired 1 = false) ∧
      ((mediumAndHigh 20).equalRange []).length = 181 ∧
      priorityCount .medium ((mediumAndHigh 20).equalRange []) = 60 ∧ quota .medium = 50 ∧
      priorityCount .medium
        (((mediumAndHigh 20).garbageCollectKey mergeSorting 1 []).equalRange []) = 30 := by
  have hc := priorityCount_garbageCollectKey mergeSorting (wellFormed_mediumAndHigh 20)
    (isExpired_mediumAndHigh 20) (by rw [length_mediumAndHigh]; decide)
    (by rw [length_mediumAndHigh]; decide)
  refine ⟨isExpired_mediumAndHigh 20, length_mediumAndHigh 20, by decide +kernel, rfl, ?_⟩
  refine (congrFun hc .medium).trans ?_
  decide +kernel

end ChromiumBase.Cookies
