import ChromiumBase.Lib.PublicSuffix
import Mathlib.Data.List.TakeWhile

/-!
# Registry controlled domains

`GetRegistryLengthImpl` and `GetDomainAndRegistryImpl`
(`net/base/registry_controlled_domains/registry_controlled_domain.cc`). The set of rules
is a function from names to their flags, as `LookupStringInFixedSet` reads it from the
graph, and the test for IP addresses is a parameter.

The walk over a host from its most to its least specific name picks the registry of the
matching rule with most labels, among rules of the same number of labels an exception
before the others, and the last label if no rule matches.
-/

open List

namespace ChromiumBase.RegistryControlledDomains

def dot : UInt8 := 0x2e

/-- The flags `kDafsaExceptionRule`, `kDafsaWildcardRule` and `kDafsaPrivateRule` of a
name that is listed. -/
structure RuleType where
  exception : Bool := false
  wildcard : Bool := false
  isPrivate : Bool := false

/-- `LookupStringInFixedSet` for the current graph; nothing is `kDafsaNotFound`. -/
abbrev Graph := List UInt8 → Option RuleType

inductive PrivateRegistryFilter where
  | excludePrivateRegistries
  | includePrivateRegistries
  deriving DecidableEq

inductive UnknownRegistryFilter where
  | excludeUnknownRegistries
  | includeUnknownRegistries
  deriving DecidableEq

section

variable (graph : Graph) (host : List UInt8) (unknownFilter : UnknownRegistryFilter)
  (privateFilter : PrivateRegistryFilter)

def findDot (pos : ℕ) : Option ℕ :=
  ((host.drop pos).findIdx? (· = dot)).map (pos + ·)

def rfindDot (host : List UInt8) : ℕ → Option ℕ
  | 0 => if host[0]? = some dot then some 0 else none
  | pos + 1 => if host[pos + 1]? = some dot then some (pos + 1) else rfindDot host pos

/-- `next_dot >= host_check_len`, where `npos` is greater than any length. -/
def isPast (nextDot : Option ℕ) (hostCheckLen : ℕ) : Bool :=
  match nextDot with
  | none => true
  | some nextDot => hostCheckLen ≤ nextDot

def lookup (name : List UInt8) : Option RuleType :=
  (graph name).filter fun type =>
    !type.isPrivate || privateFilter = .includePrivateRegistries

/-- The loop of `GetRegistryLengthImpl`. Every round goes to a later dot, so the length of
the host bounds the rounds. -/
def walk (graph : Graph) (host : List UInt8) (unknownFilter : UnknownRegistryFilter)
    (privateFilter : PrivateRegistryFilter) (hostCheckBegin hostCheckLen : ℕ) :
    ℕ → Option ℕ → ℕ → Option ℕ → ℕ
  | 0, _, _, _ => 0
  | rounds + 1, prevStart, currStart, nextDot =>
    match lookup graph privateFilter ((host.take hostCheckLen).drop currStart) with
    | some type =>
      match type.wildcard, prevStart with
      | true, some prevStart =>
        if prevStart = hostCheckBegin then 0 else host.length - prevStart
      | _, _ =>
        if type.exception then
          match nextDot with
          | none => 0
          | some nextDot => host.length - nextDot - 1
        else if currStart = hostCheckBegin then 0
        else host.length - currStart
    | none =>
      match nextDot with
      | some nextDot =>
        if isPast (some nextDot) hostCheckLen then
          if unknownFilter = .includeUnknownRegistries then host.length - currStart else 0
        else
          walk graph host unknownFilter privateFilter hostCheckBegin hostCheckLen rounds
            (some currStart) (nextDot + 1) (findDot host (nextDot + 1))
      | none =>
        if unknownFilter = .includeUnknownRegistries then host.length - currStart else 0

/-- Nothing is `npos`. -/
def getRegistryLengthImpl : Option ℕ :=
  if host = [] then none
  else
    match host.findIdx? (· ≠ dot) with
    | none => some 0
    | some hostCheckBegin =>
      let hostCheckLen := if host.getLast? = some dot then host.length - 1 else host.length
      if hostCheckLen < host.length ∧ host[hostCheckLen - 1]? = some dot then some 0
      else
        let nextDot := findDot host hostCheckBegin
        if isPast nextDot hostCheckLen then some 0
        else
          some (walk graph host unknownFilter privateFilter hostCheckBegin hostCheckLen
            host.length none hostCheckBegin nextDot)

def getDomainAndRegistryImpl : List UInt8 :=
  match getRegistryLengthImpl graph host .includeUnknownRegistries privateFilter with
  | none => []
  | some registryLength =>
    if registryLength = 0 then []
    else if registryLength > host.length - 2 then []
    else
      match rfindDot host (host.length - registryLength - 2) with
      | none => host
      | some dot => host.drop (dot + 1)

/-- `GetDomainAndRegistryAsStringPiece`, which is `GetDomainAndRegistry` for a canonical
host. -/
def getDomainAndRegistry (hostIsIPAddress : List UInt8 → Bool)
    (host : List UInt8) (filter : PrivateRegistryFilter) : List UInt8 :=
  if host = [] ∨ hostIsIPAddress host then [] else getDomainAndRegistryImpl graph host filter

end

open PublicSuffix (Flags Rule IsRegistry pick publicSuffix)

def joinDots (labels : List (List UInt8)) : List UInt8 := [dot].intercalate labels

def ends (labels : List (List UInt8)) : List UInt8 := labels.flatMap (· ++ [dot])

def listed (graph : Graph) (filter : PrivateRegistryFilter) (name : List (List UInt8)) :
    Option Flags :=
  (lookup graph filter (joinDots name)).map fun type => ⟨type.exception, type.wildcard⟩

@[simp] theorem joinDots_singleton (label : List UInt8) : joinDots [label] = label := by
  simp [joinDots]

theorem joinDots_cons_cons (label label' : List UInt8) (labels : List (List UInt8)) :
    joinDots (label :: label' :: labels) = label ++ dot :: joinDots (label' :: labels) := by
  simp [joinDots]

variable {labels done name : List (List UInt8)} {host label lead trail : List UInt8}

theorem joinDots_append (h : labels ≠ []) (done : List (List UInt8)) :
    joinDots (done ++ labels) = ends done ++ joinDots labels := by
  induction done with
  | nil => rfl
  | cons label done ih =>
    obtain ⟨first, rest, hc⟩ := exists_cons_of_ne_nil
      (append_ne_nil_of_right_ne_nil done h)
    rw [cons_append, hc, joinDots_cons_cons, ← hc, ih]
    simp [ends]

/-- A host with its dots: leading ones, labels that have none, and at most one at the end. -/
structure Shape (host lead : List UInt8) (labels : List (List UInt8)) (trail : List UInt8) :
    Prop where
  eq : host = lead ++ joinDots labels ++ trail
  lead_eq_dot : ∀ c ∈ lead, c = dot
  dot_not_mem : ∀ label ∈ labels, dot ∉ label
  ne_nil : labels ≠ []
  head_ne : labels.head? ≠ some []
  last_ne : labels.getLast? ≠ some []
  trail_eq : trail = [] ∨ trail = [dot]

def hostLabels (host : List UInt8) : List (List UInt8) :=
  let stripped := host.dropWhile (· = dot)
  (if stripped.getLast? = some dot then stripped.dropLast else stripped).splitOn dot

theorem dot_not_mem_splitOn (s : List UInt8) : ∀ label ∈ s.splitOn dot, dot ∉ label := by
  induction s with
  | nil => simp
  | cons c s ih =>
    rw [splitOn_cons_eq_if_modifyHead]
    split
    · simpa using ih
    · rename_i hc
      obtain ⟨first, rest, hco⟩ := exists_cons_of_ne_nil (splitOn_ne_nil dot s)
      rw [hco] at ih ⊢
      simp only [modifyHead_cons, mem_cons, forall_eq_or_imp] at ih ⊢
      refine ⟨?_, ih.2⟩
      rw [not_or]
      exact ⟨fun h => hc (by simp [h]), ih.1⟩

theorem joinDots_splitOn (s : List UInt8) : joinDots (s.splitOn dot) = s :=
  intercalate_splitOn dot

theorem splitOn_joinDots (h : ∀ label ∈ labels, dot ∉ label) (hne : labels ≠ []) :
    (joinDots labels).splitOn dot = labels :=
  splitOn_intercalate dot h hne

theorem head?_joinDots {first : List UInt8} (h : labels.head? = some first) (hne : first ≠ []) :
    (joinDots labels).head? = first.head? := by
  match labels, h with
  | [label], rfl => simp
  | label :: label' :: labels, rfl =>
    rw [joinDots_cons_cons, head?_append_of_ne_nil _ hne]

theorem getLast?_joinDots {last : List UInt8} (h : labels.getLast? = some last) (hne : last ≠ []) :
    (joinDots labels).getLast? = last.getLast? := by
  obtain ⟨done, rfl⟩ := getLast?_eq_some_iff.mp h
  rw [joinDots_append (cons_ne_nil _ _), joinDots_singleton, getLast?_append_of_ne_nil _ hne]

namespace Shape

variable (h : Shape host lead labels trail)

include h

theorem head?_ne_dot : ∃ c, (joinDots labels).head? = some c ∧ c ≠ dot := by
  obtain ⟨first, rest, rfl⟩ := exists_cons_of_ne_nil h.ne_nil
  have hf : first ≠ [] := fun hnil => h.head_ne (by simp [hnil])
  obtain ⟨c, s, rfl⟩ := exists_cons_of_ne_nil hf
  refine ⟨c, head?_joinDots rfl hf, fun hc => ?_⟩
  exact h.dot_not_mem _ mem_cons_self (hc ▸ mem_cons_self)

theorem getLast?_ne_dot : ∃ c, (joinDots labels).getLast? = some c ∧ c ≠ dot := by
  have hl := getLast?_eq_some_getLast h.ne_nil
  have hne : labels.getLast h.ne_nil ≠ [] := fun hnil => h.last_ne (hnil ▸ hl)
  have hc := getLast?_eq_some_getLast hne
  refine ⟨_, (getLast?_joinDots hl hne).trans hc, fun heq => ?_⟩
  exact h.dot_not_mem _ (mem_of_getLast? hl) (heq ▸ mem_of_getLast? hc)

theorem joinDots_ne_nil : joinDots labels ≠ [] := by
  obtain ⟨c, hc, -⟩ := h.head?_ne_dot
  intro hnil
  rw [hnil] at hc
  cases hc

theorem dropWhile_eq : host.dropWhile (· = dot) = joinDots labels ++ trail := by
  obtain ⟨c, hc, hne⟩ := h.head?_ne_dot
  obtain ⟨s, hs⟩ := head?_eq_some_iff.mp hc
  rw [h.eq, append_assoc,
    dropWhile_append_of_pos fun c hc => decide_eq_true (h.lead_eq_dot c hc), hs]
  simp [hne]

theorem hostLabels_eq : hostLabels host = labels := by
  obtain ⟨c, hc, hne⟩ := h.getLast?_ne_dot
  rw [hostLabels, h.dropWhile_eq]
  rcases h.trail_eq with rfl | rfl
  · rw [append_nil, if_neg (by simp [hc, hne])]
    exact splitOn_joinDots h.dot_not_mem h.ne_nil
  · rw [if_pos (by simp), dropLast_concat]
    exact splitOn_joinDots h.dot_not_mem h.ne_nil

theorem eq_append {done : List (List UInt8)} (hl : labels = done ++ name) (hne : name ≠ []) :
    host = lead ++ ends done ++ (joinDots name ++ trail) := by
  rw [h.eq, hl, joinDots_append hne]
  simp

end Shape

theorem getLast?_ends (h : done ≠ []) : (ends done).getLast? = some dot := by
  obtain ⟨done, label, rfl⟩ := eq_nil_or_concat' done |>.resolve_left h
  simp [ends]

theorem shape_splitOn {lead text trail : List UInt8} (hle : ∀ c ∈ lead, c = dot) (hne : text ≠ [])
    (hh : text.head? ≠ some dot) (hl : text.getLast? ≠ some dot) (ht : trail = [] ∨ trail = [dot]) :
    Shape (lead ++ text ++ trail) lead (text.splitOn dot) trail where
  eq := by rw [joinDots_splitOn]
  lead_eq_dot := hle
  dot_not_mem := dot_not_mem_splitOn text
  ne_nil := splitOn_ne_nil dot text
  head_ne := by
    intro h
    have hj := joinDots_splitOn text
    obtain ⟨rest, hr⟩ := head?_eq_some_iff.mp h
    rw [hr] at hj
    cases rest with
    | nil => exact hne (by simpa using hj.symm)
    | cons label rest =>
      rw [joinDots_cons_cons] at hj
      exact hh (by simp [← hj])
  last_ne := by
    intro h
    have hj := joinDots_splitOn text
    obtain ⟨done, hd⟩ := getLast?_eq_some_iff.mp h
    rw [hd, joinDots_append (cons_ne_nil _ _), joinDots_singleton, append_nil] at hj
    by_cases hnil : done = []
    · subst hnil
      exact hne hj.symm
    · exact hl (hj ▸ getLast?_ends hnil)
  trail_eq := ht

theorem exists_lead (h : ∃ c ∈ host, c ≠ dot) :
    ∃ lead c s, host = lead ++ c :: s ∧ (∀ b ∈ lead, b = dot) ∧ c ≠ dot := by
  have hne : host.dropWhile (· = dot) ≠ [] := by simpa using h
  have hc := head_dropWhile_not (p := (· = dot)) hne
  obtain ⟨c, s, hs⟩ := exists_cons_of_ne_nil hne
  refine ⟨host.takeWhile (· = dot), c, s, ?_, fun b hb => by simpa using mem_takeWhile_imp hb, ?_⟩
  · rw [← hs, takeWhile_append_dropWhile]
  · simpa [hs] using hc

/-- Every host but dots, and but one that ends in two dots, has labels. -/
theorem exists_shape (hd : ∃ c ∈ host, c ≠ dot) (hend : ¬ [dot, dot] <:+ host) :
    ∃ lead labels trail, Shape host lead labels trail := by
  obtain ⟨lead, c, s, rfl, hle, hc⟩ := exists_lead hd
  by_cases hl : (c :: s).getLast? = some dot
  · obtain ⟨text, ht⟩ := getLast?_eq_some_iff.mp hl
    have hne : text ≠ [] := by
      rintro rfl
      exact hc (by simpa using (List.cons.inj ht).1)
    have hh : text.head? = some c := by
      have ha := congrArg List.head? ht
      rw [head?_append_of_ne_nil _ hne] at ha
      exact ha.symm
    refine ⟨lead, text.splitOn dot, [dot], ?_⟩
    rw [ht, ← append_assoc]
    refine shape_splitOn hle hne (by simpa [hh] using hc) (fun hdot => hend ?_) (.inr rfl)
    obtain ⟨front, rfl⟩ := getLast?_eq_some_iff.mp hdot
    exact ⟨lead ++ front, by simp [ht]⟩
  · refine ⟨lead, (c :: s).splitOn dot, [], ?_⟩
    rw [← append_nil (lead ++ c :: s)]
    exact shape_splitOn hle (cons_ne_nil _ _) (by simpa using hc) hl (.inl rfl)

theorem findIdx?_dot (h : dot ∉ label) : label.findIdx? (· = dot) = none := by
  rw [findIdx?_eq_none_iff]
  exact fun c hc => decide_eq_false fun heq => h (heq ▸ hc)

theorem findDot_append (h : dot ∉ label) (a b : List UInt8) :
    findDot (a ++ (label ++ dot :: b)) a.length = some (a.length + label.length) := by
  rw [findDot, drop_left, findIdx?_append, findIdx?_dot h, findIdx?_cons]
  simp

theorem findDot_of_not_mem (h : dot ∉ label) (a : List UInt8) :
    findDot (a ++ label) a.length = none := by
  rw [findDot, drop_left, findIdx?_dot h, Option.map_none]

theorem length_ends_eq_zero : (ends done).length = 0 ↔ done = [] := by
  cases done with
  | nil => simp [ends]
  | cons label done => simp [ends]

/-- The length of the text of a registry, which is 0 if there are no other labels. -/
def registryLength (labels : List (List UInt8)) (trail : List UInt8)
    (registry : List (List UInt8)) : ℕ :=
  if registry.length = 0 ∨ registry.length = labels.length then 0
  else (joinDots registry ++ trail).length

/-- What the walk returns for the result of a walk over the labels. -/
def walkLength (unknownFilter : UnknownRegistryFilter) (labels : List (List UInt8))
    (trail : List UInt8) : Option (List (List UInt8)) → ℕ
  | some registry => registryLength labels trail registry
  | none =>
    if unknownFilter = .includeUnknownRegistries then
      (joinDots (labels.drop (labels.length - 1)) ++ trail).length
    else 0

theorem findDot_label (h : Shape host lead labels trail) (hla : labels = done ++ label :: name) :
    findDot host (lead ++ ends done).length = if name = [] ∧ trail = [] then none
      else some ((lead ++ ends done).length + label.length) := by
  have hl : dot ∉ label := h.dot_not_mem label (by simp [hla])
  rw [h.eq_append hla (cons_ne_nil _ _)]
  cases name with
  | nil =>
    rw [joinDots_singleton]
    rcases h.trail_eq with rfl | rfl
    · rw [append_nil, if_pos ⟨rfl, rfl⟩, findDot_of_not_mem hl]
    · rw [if_neg (by simp), findDot_append hl]
  | cons next name =>
    rw [joinDots_cons_cons, append_assoc label, cons_append, if_neg (by simp), findDot_append hl]

theorem length_sub (h : Shape host lead labels trail) (hl : labels = done ++ name)
    (hne : name ≠ []) :
    host.length - (lead ++ ends done).length = (joinDots name ++ trail).length := by
  have hlen := congrArg List.length (h.eq_append hl hne)
  rw [length_append] at hlen
  omega

theorem slice_eq (h : Shape host lead labels trail) (hl : labels = done ++ name) (hne : name ≠ []) :
    (host.take (host.length - trail.length)).drop (lead ++ ends done).length = joinDots name := by
  have hh := h.eq_append hl hne
  rw [← append_assoc] at hh
  have ht : host.take (host.length - trail.length) = lead ++ ends done ++ joinDots name := by
    have hlen := congrArg List.length hh
    rw [length_append] at hlen
    rw [hlen, Nat.add_sub_cancel, hh, take_left]
  rw [ht, drop_left]

theorem length_lead_eq_iff : (lead ++ ends done).length = lead.length ↔ done = [] := by
  rw [← length_ends_eq_zero, length_append]
  omega

theorem length_ends_concat (lead label : List UInt8) (done : List (List UInt8)) :
    (lead ++ ends (done ++ [label])).length = (lead ++ ends done).length + label.length + 1 := by
  simp [ends]
  omega

/-- The registry from a start on. -/
theorem length_from (h : Shape host lead labels trail) (hl : labels = done ++ name)
    (hne : name ≠ []) : (if (lead ++ ends done).length = lead.length then 0
      else host.length - (lead ++ ends done).length) = registryLength labels trail name := by
  have hpos := length_pos_iff.mpr hne
  simp only [length_lead_eq_iff, length_sub h hl hne]
  refine if_congr ?_ rfl rfl
  rw [← length_eq_zero_iff, hl, length_append]
  omega

section

variable (h : Shape host lead labels trail) (hl : labels = done ++ label :: name)

include h hl

/-- The registry behind the next dot. -/
theorem length_behind : (match findDot host (lead ++ ends done).length with
      | none => 0
      | some nextDot => host.length - nextDot - 1) = registryLength labels trail name := by
  rw [findDot_label h hl]
  cases name with
  | nil =>
    have hsub := length_sub h hl (cons_ne_nil _ _)
    rw [joinDots_singleton] at hsub
    rcases h.trail_eq with rfl | rfl
    · rfl
    · rw [if_neg (by simp)]
      simp only [length_append, length_singleton] at hsub ⊢
      exact (by omega : host.length - (lead.length + (ends done).length + label.length) - 1 = 0)
  | cons next name =>
    have hn : labels = (done ++ [label]) ++ next :: name := by simp [hl]
    have hf := length_from h hn (cons_ne_nil _ _)
    rw [length_ends_concat, if_neg (by rw [length_append]; omega), ← Nat.sub_sub] at hf
    rw [if_neg (by simp), ← hf]

theorem isPast_label :
    isPast (some ((lead ++ ends done).length + label.length)) (host.length - trail.length) =
      decide (name = []) := by
  have hsub := length_sub h hl (cons_ne_nil _ _)
  rw [isPast, decide_eq_decide]
  cases name with
  | nil =>
    simp only [joinDots_singleton, length_append] at hsub ⊢
    exact ⟨fun _ => trivial, fun _ => by omega⟩
  | cons next name =>
    simp only [joinDots_cons_cons, length_append, length_cons] at hsub ⊢
    exact ⟨fun hle => by omega, fun hnil => absurd hnil (cons_ne_nil _ _)⟩

end

/-- The walk over the dots of a host is the walk over its labels. -/
theorem walk_eq (graph : Graph) (unknownFilter : UnknownRegistryFilter)
    (privateFilter : PrivateRegistryFilter) (h : Shape host lead labels trail)
    (hl : labels = done ++ label :: name) {rounds : ℕ} (hro : name.length < rounds) :
    walk graph host unknownFilter privateFilter lead.length (host.length - trail.length) rounds
        (if done = [] then none else some (lead ++ ends done.dropLast).length)
        (lead ++ ends done).length (findDot host (lead ++ ends done).length) =
      walkLength unknownFilter labels trail
        (pick (listed graph privateFilter) done.getLast? (label :: name)) := by
  induction rounds generalizing label done name with
  | zero => omega
  | succ rounds ih =>
    simp only [walk, slice_eq h hl (cons_ne_nil _ _), pick, listed]
    cases hlo : lookup graph privateFilter (joinDots (label :: name)) with
    | some type =>
      have hfrom := length_from h hl (cons_ne_nil _ _)
      have hbehind := length_behind h hl
      obtain ⟨exception, wildcard, _⟩ := type
      rcases eq_nil_or_concat' done with rfl | ⟨front, prev, rfl⟩
      · cases wildcard <;> cases exception <;> first | exact hfrom | exact hbehind
      · have hprev : labels = front ++ prev :: label :: name := by simp [hl]
        rw [if_neg (by simp), dropLast_concat, getLast?_concat]
        cases wildcard with
        | true => exact length_from h hprev (cons_ne_nil _ _)
        | false => cases exception <;> first | exact hfrom | exact hbehind
    | none =>
      have hsub := length_sub h hl (cons_ne_nil _ _)
      simp only [Option.map_none, findDot_label h hl]
      cases name with
      | nil =>
        have hla : labels.drop (labels.length - 1) = [label] := by simp [hl]
        rcases h.trail_eq with rfl | rfl
        · simp only [pick, walkLength, hla, and_self, if_true, hsub]
        · have hend := isPast_label h hl
          simp only [pick, walkLength, hla, cons_ne_nil, and_false,
            if_false, hend, decide_true, if_true, hsub]
      | cons next name =>
        have hlt : ¬ isPast (some ((lead ++ ends done).length + label.length))
            (host.length - trail.length) = true := by
          rw [isPast_label h hl]
          simp
        have hn : labels = (done ++ [label]) ++ next :: name := by simp [hl]
        have hr := ih hn (by rw [length_cons] at hro; omega)
        rw [if_neg (by simp), dropLast_concat, getLast?_concat, length_ends_concat] at hr
        simp only [cons_ne_nil, false_and, if_false, if_neg hlt]
        exact hr

section Domain

variable {graph : Graph} {filter : PrivateRegistryFilter}

section

variable (h : Shape host lead labels trail)

include h

theorem findIdx?_ne_dot : host.findIdx? (· ≠ dot) = some lead.length := by
  obtain ⟨c, hc, hne⟩ := h.head?_ne_dot
  obtain ⟨s, hs⟩ := head?_eq_some_iff.mp hc
  have hl : lead.findIdx? (· ≠ dot) = none := by
    rw [findIdx?_eq_none_iff]
    intro c hc
    simpa using h.lead_eq_dot c hc
  rw [h.eq, append_assoc, findIdx?_append, hl, hs, cons_append, findIdx?_cons]
  simp [hne]

theorem hostCheckLen_eq : (if host.getLast? = some dot then host.length - 1 else host.length) =
      host.length - trail.length := by
  obtain ⟨c, hc, hne⟩ := h.getLast?_ne_dot
  rcases h.trail_eq with rfl | rfl
  · have hl : host.getLast? = some c := by
      rw [h.eq, append_nil, getLast?_append_of_ne_nil _ h.joinDots_ne_nil, hc]
    rw [if_neg (by simp [hl, hne])]
    rfl
  · rw [if_pos (by rw [h.eq, getLast?_concat])]
    rfl

theorem not_two_dots : ¬ (host.length - trail.length < host.length ∧
      host[host.length - trail.length - 1]? = some dot) := by
  obtain ⟨c, hc, hne⟩ := h.getLast?_ne_dot
  rcases h.trail_eq with rfl | rfl
  · simp
  · rintro ⟨-, hdot⟩
    obtain ⟨s, hs⟩ := getLast?_eq_some_iff.mp hc
    have hh : host = (lead ++ s) ++ c :: [dot] := by
      rw [h.eq, hs]
      simp
    rw [hh] at hdot
    simp [hne] at hdot

theorem length_labels_le : labels.length ≤ host.length := by
  obtain ⟨label, name, hl⟩ := exists_cons_of_ne_nil h.ne_nil
  have hne : label ≠ [] := fun hnil => h.head_ne (by simp [hl, hnil])
  have hpos := length_pos_iff.mpr hne
  have hj : ∀ (name : List (List UInt8)) (label : List UInt8),
      label.length + name.length ≤ (joinDots (label :: name)).length := by
    intro name
    induction name with
    | nil => simp
    | cons next name ih =>
      intro label
      have := ih next
      rw [joinDots_cons_cons]
      simp only [length_append, length_cons]
      omega
  have hle := hj name label
  rw [h.eq, hl]
  simp only [length_append, length_cons]
  omega

theorem getRegistryLengthImpl_eq (unknownFilter : UnknownRegistryFilter) :
    getRegistryLengthImpl graph host unknownFilter filter = some (if labels.length = 1 then 0
        else walkLength unknownFilter labels trail (pick (listed graph filter) none labels)) := by
  obtain ⟨label, name, hl⟩ := exists_cons_of_ne_nil h.ne_nil
  have hne : host ≠ [] := by
    rw [h.eq]
    simp [h.joinDots_ne_nil]
  have hd : labels = [] ++ label :: name := hl
  have hdot := findDot_label h hd
  have hp := isPast_label h hd
  have he : (lead ++ ends []).length = lead.length := by simp [ends]
  have hlen : labels.length = name.length + 1 := by rw [hl, length_cons]
  have hle := length_labels_le h
  have hw := walk_eq graph unknownFilter filter h hd (by omega : name.length < host.length)
  rw [he] at hdot hp hw
  rw [getRegistryLengthImpl, if_neg hne, findIdx?_ne_dot h]
  simp only [hostCheckLen_eq h]
  rw [if_neg (not_two_dots h)]
  have hend : isPast (findDot host lead.length) (host.length - trail.length) =
      decide (name = []) := by
    rw [hdot]
    split
    · rename_i hnil
      simp [isPast, hnil.1]
    · exact hp
  by_cases hn : name = []
  · rw [if_pos (by simp [hend, hn]), if_pos (by simp [hlen, hn])]
  · have hpos := length_pos_iff.mpr hn
    rw [if_neg (by simp [hend, hn]), if_neg (by omega), hl]
    exact congrArg some (hl ▸ hw)

/-- The registry length of a host is that of its public suffix. -/
theorem getRegistryLengthImpl_include :
    getRegistryLengthImpl graph host .includeUnknownRegistries filter =
      some (registryLength labels trail (publicSuffix (listed graph filter) labels)) := by
  have hs := (PublicSuffix.isRegistry_publicSuffix (listed graph filter) labels).suffix
  have hle := hs.length_le
  have hpos := length_pos_iff.mpr h.ne_nil
  rw [getRegistryLengthImpl_eq h]
  by_cases hone : labels.length = 1
  · rw [if_pos hone, registryLength, if_pos (by omega)]
  · rw [if_neg hone, publicSuffix]
    cases pick (listed graph filter) none labels with
    | some registry => rfl
    | none =>
      have hl : (labels.drop (labels.length - 1)).length = 1 := by
        rw [length_drop]
        omega
      simp only [walkLength, if_true, Option.getD_none]
      rw [registryLength, if_neg (by omega)]

end

theorem rfindDot_append (h : dot ∉ label) (front s : List UInt8) :
    rfindDot (front ++ dot :: (label ++ s)) (front.length + label.length) = some front.length := by
  have hk : ∀ k ≤ label.length,
      rfindDot (front ++ dot :: (label ++ s)) (front.length + k) = some front.length := by
    intro k
    induction k with
    | zero =>
      cases front with
      | nil => simp [rfindDot]
      | cons c front => simp [rfindDot]
    | succ k ih =>
      intro hk
      have hget : (front ++ dot :: (label ++ s))[front.length + k + 1]? = some label[k] := by
        rw [getElem?_append_right (by omega), Nat.add_assoc, Nat.add_sub_cancel_left,
          getElem?_cons_succ, getElem?_append_left (by omega), getElem?_eq_getElem (by omega)]
      have hne : label[k] ≠ dot := fun heq => h (heq ▸ getElem_mem _)
      rw [← Nat.add_assoc, rfindDot, hget, if_neg (by simpa using hne), ih (by omega)]
  exact hk label.length le_rfl

theorem rfindDot_of_not_mem (h : dot ∉ label) (s : List UInt8) {k : ℕ} (hk : k < label.length) :
    rfindDot (label ++ s) k = none := by
  have hget : ∀ i < label.length, (label ++ s)[i]? ≠ some dot := by
    intro i hi heq
    rw [getElem?_append_left hi] at heq
    exact h (mem_of_getElem? heq)
  induction k with
  | zero => rw [rfindDot, if_neg (hget 0 hk)]
  | succ k ih => rw [rfindDot, if_neg (hget _ hk), ih (by omega)]

theorem getLast?_front (h : Shape host lead labels trail) (hne : lead ++ ends done ≠ []) :
    (lead ++ ends done).getLast? = some dot := by
  by_cases hd : done = []
  · subst hd
    have hle : lead ≠ [] := by simpa [ends] using hne
    have hl := getLast?_eq_some_getLast hle
    rw [show lead ++ ends [] = lead by simp [ends], hl, h.lead_eq_dot _ (mem_of_getLast? hl)]
  · have he : ends done ≠ [] := fun hnil =>
      hd (length_ends_eq_zero.mp (by rw [hnil]; rfl))
    rw [getLast?_append_of_ne_nil _ he, getLast?_ends hd]

theorem joinDots_suffix_ne_nil (h : Shape host lead labels trail) (hs : name <:+ labels)
    (hne : name ≠ []) : joinDots name ≠ [] := by
  obtain ⟨front, rfl⟩ := hs
  have hla := getLast?_eq_some_getLast hne
  have hl : name.getLast hne ≠ [] := fun hnil => by
    refine h.last_ne ?_
    rw [getLast?_append_of_ne_nil _ hne, hla, hnil]
  intro hnil
  have hj := getLast?_joinDots hla hl
  rw [hnil, getLast?_eq_some_getLast hl] at hj
  cases hj

variable {registry : List (List UInt8)}

theorem joinDots_label (label : List UInt8) (hne : registry ≠ []) (trail : List UInt8) :
    joinDots (label :: registry) ++ trail = label ++ dot :: (joinDots registry ++ trail) := by
  obtain ⟨first, rest, rfl⟩ := exists_cons_of_ne_nil hne
  rw [joinDots_cons_cons]
  simp

theorem host_eq_label (h : Shape host lead labels trail)
    (hl : labels = done ++ label :: registry) (hne : registry ≠ []) :
    host = lead ++ ends done ++ (label ++ dot :: (joinDots registry ++ trail)) := by
  rw [h.eq_append hl (cons_ne_nil _ _), joinDots_label label hne]

theorem exists_label (hs : registry <:+ labels) (hne : registry.length ≠ labels.length) :
    ∃ done label, labels = done ++ label :: registry ∧
      labels.drop (labels.length - (registry.length + 1)) = label :: registry := by
  obtain ⟨front, rfl⟩ := hs
  rcases eq_nil_or_concat' front with rfl | ⟨done, label, rfl⟩
  · exact absurd rfl hne
  · exact ⟨done, label, by simp, by simp⟩

theorem label_ne_nil (h : Shape host lead labels trail) (hl : labels = done ++ label :: registry)
    (hf : lead ++ ends done = []) : label ≠ [] := by
  intro hnil
  rw [append_eq_nil_iff] at hf
  have hd := length_ends_eq_zero.mp (by rw [hf.2]; rfl)
  exact h.head_ne (by simp [hl, hd, hnil])

/-- The domain has one label more than the registry, if there is one. -/
theorem getDomainAndRegistryImpl_eq (h : Shape host lead labels trail)
    (hr : registry = publicSuffix (listed graph filter) labels) :
    getDomainAndRegistryImpl graph host filter =
      if registry.length = 0 ∨ registry.length = labels.length then []
      else joinDots (labels.drop (labels.length - (registry.length + 1))) ++ trail := by
  have hs : registry <:+ labels :=
    hr ▸ (PublicSuffix.isRegistry_publicSuffix (listed graph filter) labels).suffix
  rw [getDomainAndRegistryImpl, getRegistryLengthImpl_include h, ← hr, registryLength]
  by_cases hn : registry.length = 0 ∨ registry.length = labels.length
  · rw [if_pos hn, if_pos hn]
    rfl
  · rw [if_neg hn, if_neg hn]
    rw [not_or] at hn
    obtain ⟨done, label, hl, hd⟩ := exists_label hs hn.2
    have hne : registry ≠ [] := fun hnil => hn.1 (by rw [hnil]; rfl)
    have hla : dot ∉ label := h.dot_not_mem label (by simp [hl])
    have ht := joinDots_label label hne trail
    have hh := host_eq_label h hl hne
    have hpos : 0 < (joinDots registry ++ trail).length := by
      rw [length_append]
      exact Nat.add_pos_left (length_pos_iff.mpr (joinDots_suffix_ne_nil h hs hne)) _
    rw [hd, ht]
    generalize joinDots registry ++ trail = rest at hh hpos
    have hlen : host.length =
        (lead ++ ends done).length + (label.length + (rest.length + 1)) := by
      simp only [hh, length_append, length_cons]
    simp only
    by_cases hf : lead ++ ends done = []
    · have hlab := length_pos_iff.mpr (label_ne_nil h hl hf)
      rw [hf, nil_append] at hh
      rw [hf, length_nil] at hlen
      have hsub : host.length - rest.length - 2 = label.length - 1 := by omega
      rw [if_neg (by omega), if_neg (by omega), hsub, hh, rfindDot_of_not_mem hla _ (by omega)]
    · obtain ⟨front, heq⟩ := getLast?_eq_some_iff.mp (getLast?_front h hf)
      rw [heq, append_assoc, singleton_append] at hh
      rw [heq, length_append, length_singleton] at hlen
      have hsub : host.length - rest.length - 2 = front.length + label.length := by omega
      rw [if_neg (by omega), if_neg (by omega), hsub, hh, rfindDot_append hla]
      simp only
      rw [append_cons, drop_left' (by simp)]

theorem getDomainAndRegistryImpl_of_dots (h : ∀ c ∈ host, c = dot) :
    getDomainAndRegistryImpl graph host filter = [] := by
  have hf : host.findIdx? (· ≠ dot) = none := by
    rw [findIdx?_eq_none_iff]
    intro c hc
    simpa using h c hc
  rw [getDomainAndRegistryImpl, getRegistryLengthImpl, hf]
  split_ifs <;> rfl

theorem getDomainAndRegistryImpl_of_two_dots (h : [dot, dot] <:+ host) :
    getDomainAndRegistryImpl graph host filter = [] := by
  obtain ⟨s, rfl⟩ := h
  have hla : (s ++ [dot, dot]).getLast? = some dot := by simp
  have hget : (s ++ [dot, dot])[(s ++ [dot, dot]).length - 1 - 1]? = some dot := by simp
  have hl : getRegistryLengthImpl graph (s ++ [dot, dot]) .includeUnknownRegistries filter =
      some 0 := by
    rw [getRegistryLengthImpl, if_neg (by simp)]
    cases (s ++ [dot, dot]).findIdx? (· ≠ dot) with
    | none => rfl
    | some hocb =>
      simp only [hla]
      rw [if_pos ⟨by simp, hget⟩]
  rw [getDomainAndRegistryImpl, hl]
  rfl

theorem shape_domain (h : Shape host lead labels trail)
    (hla : labels = done ++ label :: registry) (hlab : label ≠ []) :
    Shape (joinDots (label :: registry) ++ trail) [] (label :: registry) trail where
  eq := rfl
  lead_eq_dot := by simp
  dot_not_mem := fun l hl => h.dot_not_mem l (hla ▸ mem_append_right done hl)
  ne_nil := cons_ne_nil _ _
  head_ne := by simpa using hlab
  last_ne := by
    have hlas := h.last_ne
    rw [hla, getLast?_append_of_ne_nil _ (cons_ne_nil _ _)] at hlas
    exact hlas
  trail_eq := h.trail_eq

theorem getDomainAndRegistryImpl_domain (h : Shape host lead labels trail)
    (hl : labels = done ++ label :: registry) (hne : registry ≠ []) (hla : label ≠ [])
    (hr : IsRegistry (listed graph filter) labels registry) :
    getDomainAndRegistryImpl graph (joinDots (label :: registry) ++ trail) filter =
      joinDots (label :: registry) ++ trail := by
  have ha : registry = publicSuffix (listed graph filter) (label :: registry) :=
    (hr.of_suffix ⟨done, hl.symm⟩ (Nat.lt_succ_self _)).unique
      (PublicSuffix.isRegistry_publicSuffix _ _)
  have hpos := length_pos_iff.mpr hne
  rw [getDomainAndRegistryImpl_eq (shape_domain h hl hla) ha,
    if_neg (by rw [length_cons]; omega), length_cons, Nat.sub_self, drop_zero]

end Domain

/-- The domain of a host is empty for hosts without labels, for addresses and for
registries, and otherwise one label, a dot and the registry, which is a suffix of the host
on the boundary of a label. The label is not empty unless there are two dots before the
registry, and the domain is its own domain, unless it is an address. -/
theorem getDomainAndRegistry_spec (graph : Graph) (hostIsIPAddress : List UInt8 → Bool)
    (host : List UInt8) (filter : PrivateRegistryFilter) :
    (getDomainAndRegistry graph hostIsIPAddress host filter = [] ↔
      host = [] ∨ hostIsIPAddress host = true ∨ (∀ c ∈ host, c = dot) ∨ [dot, dot] <:+ host ∨
      IsRegistry (listed graph filter) (hostLabels host) [] ∨
      IsRegistry (listed graph filter) (hostLabels host) (hostLabels host)) ∧
    (getDomainAndRegistry graph hostIsIPAddress host filter = [] ∨ ∃ front label registry trail,
        getDomainAndRegistry graph hostIsIPAddress host filter =
          label ++ dot :: (joinDots registry ++ trail) ∧
        host = front ++ (label ++ dot :: (joinDots registry ++ trail)) ∧
        (front = [] ∨ front.getLast? = some dot) ∧ dot ∉ label ∧
        (trail = [] ∨ trail = [dot]) ∧
        IsRegistry (listed graph filter) (hostLabels host) registry ∧
        (label = [] → [dot, dot] <:+ front ++ [dot]) ∧
        (label ≠ [] → hostIsIPAddress (label ++ dot :: (joinDots registry ++ trail)) = false →
          getDomainAndRegistry graph hostIsIPAddress
              (label ++ dot :: (joinDots registry ++ trail)) filter =
            label ++ dot :: (joinDots registry ++ trail))) := by
  by_cases hn : host = [] ∨ hostIsIPAddress host = true
  · have he : getDomainAndRegistry graph hostIsIPAddress host filter = [] := if_pos hn
    exact ⟨⟨fun _ => by tauto, fun _ => he⟩, .inl he⟩
  have hre : getDomainAndRegistry graph hostIsIPAddress host filter =
      getDomainAndRegistryImpl graph host filter := if_neg hn
  rw [hre]
  by_cases hdots : (∀ c ∈ host, c = dot) ∨ [dot, dot] <:+ host
  · have he : getDomainAndRegistryImpl graph host filter = [] :=
      hdots.elim getDomainAndRegistryImpl_of_dots getDomainAndRegistryImpl_of_two_dots
    exact ⟨⟨fun _ => by tauto, fun _ => he⟩, .inl he⟩
  obtain ⟨hdo, hend⟩ := not_or.mp hdots
  obtain ⟨lead, labels, trail, h⟩ := exists_shape (by simpa using hdo) hend
  obtain ⟨registry, hp⟩ : ∃ registry, registry = publicSuffix (listed graph filter) labels :=
    ⟨_, rfl⟩
  have hr : IsRegistry (listed graph filter) labels registry :=
    hp ▸ PublicSuffix.isRegistry_publicSuffix _ _
  have hd := getDomainAndRegistryImpl_eq h hp
  rw [h.hostLabels_eq]
  by_cases hw : registry.length = 0 ∨ registry.length = labels.length
  · rw [if_pos hw] at hd
    rcases hw with hz | heq
    · rw [length_eq_zero_iff.mp hz] at hr
      tauto
    · rw [hr.suffix.eq_of_length heq] at hr
      tauto
  · rw [if_neg hw] at hd
    rw [not_or] at hw
    obtain ⟨done, label, hl, hdr⟩ := exists_label hr.suffix hw.2
    have hne : registry ≠ [] := fun hnil => hw.1 (by rw [hnil]; rfl)
    have ht := joinDots_label label hne trail
    rw [hdr, ht] at hd
    rw [hd]
    refine ⟨⟨fun hnil => ?_, fun hca => ?_⟩, .inr ⟨lead ++ ends done, label, registry, trail, rfl,
      host_eq_label h hl hne, ?_, h.dot_not_mem label (by simp [hl]), h.trail_eq,
      hr, ?_, ?_⟩⟩
    · simp at hnil
    · rcases hca with hc | hc | hc | hc | hc | hc
      · exact absurd (.inl hc) hn
      · exact absurd (.inr hc) hn
      · exact absurd hc hdo
      · exact absurd hc hend
      · exact absurd (hr.unique hc) hne
      · exact absurd (congrArg List.length (hr.unique hc)) hw.2
    · by_cases hf : lead ++ ends done = []
      · exact .inl hf
      · exact .inr (getLast?_front h hf)
    · intro hnil
      have hf : lead ++ ends done ≠ [] := fun hf => label_ne_nil h hl hf hnil
      obtain ⟨front, heq⟩ := getLast?_eq_some_iff.mp (getLast?_front h hf)
      exact ⟨front, by rw [heq]; simp⟩
    · intro hla hip
      rw [getDomainAndRegistry, if_neg (by simp [hip]), ← ht]
      exact getDomainAndRegistryImpl_domain h hl hne hla hr

/-- The rule of the published algorithm, which takes any exception before all other
rules. -/
structure PrevailsAsPublished (graph : Graph) (filter : PrivateRegistryFilter)
    (host : List (List UInt8)) (rule : Rule (List UInt8)) : Prop where
  isListed : rule.Listed (listed graph filter)
  isMatch : rule.Matches host
  best : ∀ other : Rule (List UInt8), other.Listed (listed graph filter) → other.Matches host →
    (other.IsException → rule.IsException) ∧
      ((other.IsException ↔ rule.IsException) → other.size ≤ rule.size)

def exceptionGraph : Graph := fun name =>
  if name = [0x62] then some { wildcard := true }
  else if name = [0x61, 0x2e, 0x62] then some { exception := true }
  else if name = [0x78, 0x2e, 0x61, 0x2e, 0x62] then some {}
  else none

/-- An exception does not count below a rule with more labels: the registry of `y.x.a.b`
is `x.a.b` here, where the exception `!a.b` would make it `b`. -/
theorem getDomainAndRegistry_below_exception :
    PrevailsAsPublished exceptionGraph .excludePrivateRegistries [[0x79], [0x78], [0x61], [0x62]]
        (.exception [[0x61], [0x62]]) ∧
      (Rule.exception [[0x61], [0x62]]).registry [[0x79], [0x78], [0x61], [0x62]] =
        [[(0x62 : UInt8)]] ∧
      getDomainAndRegistry exceptionGraph (fun _ => false)
          [0x79, 0x2e, 0x78, 0x2e, 0x61, 0x2e, 0x62] .excludePrivateRegistries =
        [0x79, 0x2e, 0x78, 0x2e, 0x61, 0x2e, 0x62] := by
  refine ⟨⟨⟨⟨true, false⟩, rfl, rfl⟩, ⟨by decide, ⟨[[0x79], [0x78]], rfl⟩, by decide⟩, ?_⟩, rfl, ?_⟩
  · intro other hl hm
    refine ⟨fun _ => trivial, fun hiff => ?_⟩
    cases other with
    | plain name | wildcard name => exact absurd (hiff.mpr trivial) id
    | exception name =>
      obtain ⟨flags, hf, he⟩ := hl
      obtain ⟨-, hs, -⟩ := hm
      rcases suffix_cons_iff.mp hs with rfl | hs
      · cases hf
      rcases suffix_cons_iff.mp hs with rfl | hs
      · cases hf
        cases he
      · exact hs.length_le
  · decide

end ChromiumBase.RegistryControlledDomains
