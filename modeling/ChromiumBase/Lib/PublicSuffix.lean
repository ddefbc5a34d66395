import Mathlib.Data.List.Infix

/-!
# Public suffixes

Names are lists of labels, the most specific one first. A list of names with flags stands
for a set of rules: a name for itself, for all names one label longer (a wildcard), or as
an exception. The rule for a name is the matching one with most labels, and an exception
among rules with the same number of labels. It gives the registry of the name.

The registry is computed by a walk from the name itself to its last label that stops at
the first listed name.
-/

open List Option

namespace PublicSuffix

structure Flags where
  exception : Bool
  wildcard : Bool

inductive Rule (Label : Type*) where
  | plain (name : List Label)
  | wildcard (name : List Label)
  | exception (name : List Label)

variable {Label : Type*} {rule : Rule Label}

namespace Rule

def name : Rule Label → List Label
  | plain name => name
  | wildcard name => name
  | exception name => name

def size : Rule Label → ℕ
  | plain name => name.length
  | wildcard name => name.length + 1
  | exception name => name.length

def IsException : Rule Label → Prop
  | exception _ => True
  | _ => False

/-- A name stands for itself unless it is an exception. -/
def Listed (listed : List Label → Option Flags) : Rule Label → Prop
  | plain name => ∃ flags, listed name = some flags ∧ flags.exception = false
  | wildcard name => ∃ flags, listed name = some flags ∧ flags.wildcard = true
  | exception name => ∃ flags, listed name = some flags ∧ flags.exception = true

def Matches (host : List Label) (rule : Rule Label) : Prop :=
  rule.name ≠ [] ∧ rule.name <:+ host ∧ rule.size ≤ host.length

def registry (host : List Label) : Rule Label → List Label
  | exception name => name.tail
  | rule => host.drop (host.length - rule.size)

structure Prevails (listed : List Label → Option Flags) (host : List Label)
    (rule : Rule Label) : Prop where
  isListed : rule.Listed listed
  isMatch : rule.Matches host
  best : ∀ other : Rule Label, other.Listed listed → other.Matches host →
    other.size < rule.size ∨ other.size = rule.size ∧ (other.IsException → rule.IsException)

theorem Listed.listed_isSome {listed : List Label → Option Flags} (h : rule.Listed listed) :
    (listed rule.name).isSome := by
  cases rule with
  | plain name | wildcard name | exception name =>
    obtain ⟨flags, hf, -⟩ := h
    exact isSome_iff_exists.mpr ⟨flags, hf⟩

theorem size_le (rule : Rule Label) : rule.size ≤ rule.name.length + 1 := by
  cases rule with
  | plain name | exception name => exact Nat.le_succ _
  | wildcard name => exact le_rfl

theorem eq_wildcard_of_size (h : rule.name.length < rule.size) : rule = wildcard rule.name := by
  cases rule with
  | plain name | exception name => exact absurd h (lt_irrefl _)
  | wildcard name => rfl

end Rule

open Rule

/-- The registry of a host: that of the rule that decides, or else the last label. -/
def IsRegistry (listed : List Label → Option Flags) (host registry : List Label) : Prop :=
  (∃ rule : Rule Label, rule.Prevails listed host ∧ registry = rule.registry host) ∨
    (∀ rule : Rule Label, rule.Listed listed → ¬ rule.Matches host) ∧
      registry = host.drop (host.length - 1)

variable {host host' registry : List Label} {listed : List Label → Option Flags}

theorem suffix_eq_of_length {s t : List Label} (hs : s <:+ host) (ht : t <:+ host)
    (h : s.length = t.length) : s = t :=
  (suffix_of_suffix_length_le hs ht h.le).eq_of_length h

/-- The rules that prevail agree on the registry. -/
theorem Rule.Prevails.registry_eq {rule' : Rule Label} (h : rule.Prevails listed host)
    (h' : rule'.Prevails listed host) : rule.registry host = rule'.registry host := by
  have hs : rule.size = rule'.size ∧ (rule.IsException ↔ rule'.IsException) := by
    rcases h.best rule' h'.isListed h'.isMatch with hlt | ⟨heq, himp⟩
    · rcases h'.best rule h.isListed h.isMatch with hlt' | ⟨heq', -⟩
      · omega
      · omega
    · rcases h'.best rule h.isListed h.isMatch with hlt' | ⟨-, himp'⟩
      · omega
      · exact ⟨heq.symm, himp', himp⟩
  obtain ⟨hs, he⟩ := hs
  cases rule with
  | exception name =>
    cases rule' with
    | exception name' =>
      have hn : name = name' := suffix_eq_of_length h.isMatch.2.1 h'.isMatch.2.1 hs
      rw [hn]
    | plain name' | wildcard name' => exact absurd (he.mp trivial) id
  | plain name | wildcard name =>
    cases rule' with
    | exception name' => exact absurd (he.mpr trivial) id
    | plain name' | wildcard name' => exact congrArg (fun n => host.drop (host.length - n)) hs

theorem IsRegistry.unique {registry' : List Label} (h : IsRegistry listed host registry)
    (h' : IsRegistry listed host registry') : registry = registry' := by
  rcases h with ⟨rule, hr, rfl⟩ | ⟨hn, rfl⟩
  · rcases h' with ⟨rule', hr', rfl⟩ | ⟨hn', rfl⟩
    · exact hr.registry_eq hr'
    · exact absurd hr.isMatch (hn' rule hr.isListed)
  · rcases h' with ⟨rule', hr', rfl⟩ | ⟨hn', rfl⟩
    · exact absurd hr'.isMatch (hn rule' hr'.isListed)
    · rfl

theorem IsRegistry.suffix (h : IsRegistry listed host registry) : registry <:+ host := by
  rcases h with ⟨rule, hr, rfl⟩ | ⟨-, rfl⟩
  · cases rule with
    | plain name | wildcard name => exact drop_suffix _ _
    | exception name => exact (tail_suffix name).trans hr.isMatch.2.1
  · exact drop_suffix _ _

theorem Rule.Matches.of_suffix (h : rule.Matches host) (hs : host <:+ host') :
    rule.Matches host' :=
  ⟨h.1, h.2.1.trans hs, h.2.2.trans hs.length_le⟩

/-- The rule prevails for every parent domain that is longer than the registry. -/
theorem Rule.Prevails.of_suffix (h : rule.Prevails listed host) (hs : host' <:+ host)
    (hlo : (rule.registry host).length < host'.length) :
    rule.Prevails listed host' ∧ rule.registry host' = rule.registry host := by
  obtain ⟨hne, hn, hsi⟩ := h.isMatch
  have hb := fun (other : Rule Label) (hl : other.Listed listed)
      (hm : other.Matches host') => h.best other hl (hm.of_suffix hs)
  -- without an exception, the registry has the labels of the rule
  have hp : rule.registry host = host.drop (host.length - rule.size) →
      rule.Matches host' ∧
        host'.drop (host'.length - rule.size) = rule.registry host := by
    intro hr
    have hlen : (rule.registry host).length = rule.size := by
      rw [hr, length_drop]
      omega
    have hle : rule.name.length ≤ rule.size := by cases rule <;> simp [Rule.name, Rule.size]
    refine ⟨⟨hne, suffix_of_suffix_length_le hn hs (by omega), by omega⟩, ?_⟩
    refine suffix_eq_of_length ((drop_suffix _ _).trans hs)
      (hr ▸ drop_suffix _ _) ?_
    rw [length_drop]
    omega
  cases rule with
  | plain name | wildcard name =>
    obtain ⟨hm, hd⟩ := hp rfl
    exact ⟨⟨h.isListed, hm, hb⟩, hd⟩
  | exception name =>
    have hlen : name.length ≤ host'.length := by
      rw [Rule.registry.eq_def, length_tail] at hlo
      omega
    have hm : (exception name).Matches host' :=
      ⟨hne, suffix_of_suffix_length_le hn hs hlen, hlen⟩
    exact ⟨⟨h.isListed, hm, hb⟩, rfl⟩

theorem IsRegistry.of_suffix (h : IsRegistry listed host registry) (hs : host' <:+ host)
    (hl : registry.length < host'.length) : IsRegistry listed host' registry := by
  rcases h with ⟨rule, hru, rfl⟩ | ⟨hn, rfl⟩
  · obtain ⟨hp, hr⟩ := hru.of_suffix hs hl
    exact .inl ⟨rule, hp, hr.symm⟩
  · refine .inr ⟨fun rule hli hm => hn rule hli (hm.of_suffix hs), ?_⟩
    have hle := hs.length_le
    refine suffix_eq_of_length (drop_suffix _ _) ((drop_suffix _ _).trans hs) ?_
    rw [length_drop, length_drop]
    omega

/-- The walk over the names of a host, with the label before the current name. -/
def pick (listed : List Label → Option Flags) : Option Label → List Label → Option (List Label)
  | _, [] => none
  | prev, label :: name =>
    match listed (label :: name) with
    | some flags =>
      match flags.wildcard, prev with
      | true, some prev => some (prev :: label :: name)
      | _, _ => some (if flags.exception then name else label :: name)
    | none => pick listed (some label) name

def publicSuffix (listed : List Label → Option Flags) (host : List Label) : List Label :=
  (pick listed none host).getD (host.drop (host.length - 1))

section Walk

variable {name : List Label} {flags : Flags}
  (hlo : ∀ s, s <:+ host → name.length < s.length → listed s = none)

include hlo

/-- A rule that matches comes from the current name or a shorter one, if no longer name is
listed. -/
theorem length_name_le (hl : rule.Listed listed) (hm : rule.Matches host) :
    rule.name.length ≤ name.length := by
  by_contra hlt
  have hn := hlo rule.name hm.2.1 (by omega)
  have hs := hl.listed_isSome
  rw [hn] at hs
  cases hs

variable (hs : name <:+ host) (hf : listed name = some flags)

include hs hf

theorem size_le_length (hw : flags.wildcard = true → host.length ≤ name.length)
    (hl : rule.Listed listed) (hm : rule.Matches host) : rule.size ≤ name.length := by
  by_contra hlt
  have hle := length_name_le hlo hl hm
  have hsi := rule.size_le
  have hr := Rule.eq_wildcard_of_size (by omega : rule.name.length < rule.size)
  have hn : rule.name = name :=
    suffix_eq_of_length hm.2.1 hs (by omega)
  rw [hr, hn] at hl
  obtain ⟨flags', hf', ht⟩ := hl
  obtain rfl : flags = flags' := some.inj (hf.symm.trans hf')
  have := hw ht
  have := hm.2.2
  omega

variable (hne : name ≠ [])

include hne

theorem prevails_wildcard (hw : flags.wildcard = true) (hlt : name.length < host.length) :
    (Rule.wildcard name).Prevails listed host := by
  refine ⟨⟨flags, hf, hw⟩, ⟨hne, hs, hlt⟩, fun other hl hm => ?_⟩
  have hle := length_name_le hlo hl hm
  have hsi := other.size_le
  rcases Nat.lt_or_ge other.size (name.length + 1) with hs | hge
  · exact .inl hs
  · refine .inr ⟨show other.size = name.length + 1 by omega, fun he => ?_⟩
    rw [Rule.eq_wildcard_of_size (by omega : other.name.length < other.size)] at he
    exact he.elim

variable (hw : flags.wildcard = true → host.length ≤ name.length)

include hw

theorem prevails_exception (he : flags.exception = true) :
    (Rule.exception name).Prevails listed host := by
  refine ⟨⟨flags, hf, he⟩, ⟨hne, hs, hs.length_le⟩, fun other hl hm => ?_⟩
  have hle := size_le_length hlo hs hf hw hl hm
  rcases Nat.lt_or_eq_of_le hle with hlt | heq
  · exact .inl hlt
  · exact .inr ⟨heq, fun _ => trivial⟩

theorem prevails_plain (he : flags.exception = false) : (Rule.plain name).Prevails listed host := by
  refine ⟨⟨flags, hf, he⟩, ⟨hne, hs, hs.length_le⟩, fun other hl hm => ?_⟩
  have hle := size_le_length hlo hs hf hw hl hm
  rcases Nat.lt_or_eq_of_le hle with hlt | heq
  · exact .inl hlt
  · refine .inr ⟨heq, fun ho => ?_⟩
    cases other with
    | plain name' | wildcard name' => exact ho.elim
    | exception name' =>
      obtain rfl : name' = name := suffix_eq_of_length hm.2.1 hs heq
      obtain ⟨flags', hf', ht⟩ := hl
      obtain rfl : flags = flags' := some.inj (hf.symm.trans hf')
      exact absurd (he.symm.trans ht) (by decide)

end Walk

/-- The walk finds the rule that prevails, or there is no rule that matches. -/
theorem pick_spec {name : List Label} (done : List Label) (hh : host = done ++ name)
    (hl : ∀ s, s <:+ host → name.length < s.length → listed s = none) :
    (∀ registry, pick listed done.getLast? name = some registry →
      ∃ rule : Rule Label, rule.Prevails listed host ∧ registry = rule.registry host) ∧
    (pick listed done.getLast? name = none →
      ∀ rule : Rule Label, rule.Listed listed → ¬ rule.Matches host) := by
  induction name generalizing done with
  | nil =>
    refine ⟨fun registry h => absurd h (by simp [pick]), fun _ rule hli hm => ?_⟩
    have hle := length_name_le hl hli hm
    exact hm.1 (length_eq_zero_iff.mp (Nat.le_zero.mp hle))
  | cons label name ih =>
    have hsu : label :: name <:+ host := ⟨done, hh.symm⟩
    have hlen : host.length = done.length + (label :: name).length := by
      rw [hh, length_append]
    have hd : host.drop (host.length - (label :: name).length) = label :: name := by
      rw [hh, length_append, Nat.add_sub_cancel, drop_left]
    rw [pick]
    cases hf : listed (label :: name) with
    | none =>
      have hnex := ih (done ++ [label]) (by simp [hh]) fun s hs hlt => by
        rcases Nat.lt_or_ge (label :: name).length s.length with hlt' | hge
        · exact hl s hs hlt'
        · have heq : s = label :: name := by
            refine suffix_eq_of_length hs hsu ?_
            rw [length_cons] at hge ⊢
            omega
          rw [heq, hf]
      rw [getLast?_concat] at hnex
      exact hnex
    | some flags =>
      have hne : label :: name ≠ [] := cons_ne_nil _ _
      -- the name itself decides, unless a wildcard applies
      have hn : (flags.wildcard = true → host.length ≤ (label :: name).length) →
          ∃ rule : Rule Label, rule.Prevails listed host ∧
            (if flags.exception then name else label :: name) = rule.registry host := by
        intro hw
        cases he : flags.exception with
        | true => exact ⟨_, prevails_exception hl hsu hf hne hw he, rfl⟩
        | false => exact ⟨_, prevails_plain hl hsu hf hne hw he, hd.symm⟩
      rcases eq_nil_or_concat' done with rfl | ⟨done, prev, rfl⟩
      · obtain ⟨rule, hru, hr⟩ := hn fun _ => by simp [hlen]
        simp only
        cases hw : flags.wildcard with
        | false | true =>
          exact ⟨fun registry hp =>
            ⟨rule, hru, (some.inj hp).symm.trans hr⟩, nofun⟩
      · simp only [getLast?_concat]
        cases hw : flags.wildcard with
        | false =>
          obtain ⟨rule, hru, hr⟩ := hn fun ht => by simp [hw] at ht
          exact ⟨fun registry hp =>
            ⟨rule, hru, (some.inj hp).symm.trans hr⟩, nofun⟩
        | true =>
          have hlt : (label :: name).length < host.length := by
            rw [hlen, length_append, length_singleton]
            omega
          have hr : (Rule.wildcard (label :: name)).registry host =
              prev :: label :: name := by
            have ha : host = done ++ prev :: label :: name := by simp [hh]
            have hsi : host.length - (Rule.wildcard (label :: name)).size =
                done.length := by
              rw [ha, length_append, Rule.size]
              simp
            rw [Rule.registry.eq_def]
            simp only [hsi]
            rw [ha, drop_left]
          exact ⟨fun registry hp =>
            ⟨_, prevails_wildcard hl hsu hf hne hw hlt,
              (some.inj hp).symm.trans hr.symm⟩, nofun⟩

theorem isRegistry_publicSuffix (listed : List Label → Option Flags) (host : List Label) :
    IsRegistry listed host (publicSuffix listed host) := by
  have hl : ∀ s, s <:+ host → host.length < s.length → listed s = none :=
    fun s hs hlt => absurd hs.length_le (by omega)
  obtain ⟨hso, hn⟩ := pick_spec [] rfl hl
  rw [publicSuffix]
  cases hp : pick listed none host with
  | some registry => exact .inl (hso registry hp)
  | none => exact .inr ⟨hn hp, rfl⟩

end PublicSuffix
