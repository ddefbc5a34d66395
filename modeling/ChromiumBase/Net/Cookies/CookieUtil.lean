import Mathlib.Data.List.TakeWhile

/-!
# Cookie lines

`ParseRequestCookieLine` and `SerializeRequestCookieLine` (`net/cookies/cookie_util.cc`).  The scan
for the name of a cookie stops at `=` only.  So a name without a value takes in all that follows up
to the next `=`, and is read as it is at the end of the line alone
(`parseRequestCookieLine_joined_iff`).
-/

open List

namespace ChromiumBase.CookieUtil

abbrev Text := List UInt8

def blank : UInt8 := 0x20

def quote : UInt8 := 0x22

def semicolon : UInt8 := 0x3b

def equals : UInt8 := 0x3d

/-- The value of a cookie from the `=` on, if there is one, and what is left for the next; nothing
if a quoted value is not closed. -/
def readValue : Text → Option (Text × Text)
  | [] | [_] => some ([], [])
  | _ :: c :: rest =>
    if c = quote then
      match rest.dropWhile (· ≠ quote) with
      | [] => none
      | _ :: behind => some (quote :: rest.takeWhile (· ≠ quote) ++ [quote], behind.drop 1)
    else
      some ((c :: rest).takeWhile (· ≠ semicolon), ((c :: rest).dropWhile (· ≠ semicolon)).drop 1)

inductive IsValue : Text → Prop
  | plain {v : Text} (hs : semicolon ∉ v) (hq : v.head? ≠ some quote) : IsValue v
  | quoted {v : Text} (hq : quote ∉ v) : IsValue (quote :: v ++ [quote])

theorem notMem_takeWhile (d : UInt8) (s : Text) : d ∉ s.takeWhile (· ≠ d) :=
  fun hd => by simpa using mem_takeWhile_imp hd

theorem readValue_spec {s v behind : Text} (h : readValue s = some (v, behind)) :
    IsValue v ∧ behind.length ≤ s.length - 1 := by
  have hnil : IsValue [] := .plain not_mem_nil (by simp)
  revert h
  fun_cases readValue s with
  | case1 =>
    rintro ⟨⟩
    exact ⟨hnil, le_rfl⟩
  | case2 =>
    rintro ⟨⟩
    exact ⟨hnil, le_rfl⟩
  | case3 => rintro ⟨⟩
  | case4 e rest q behind hd =>
    rintro ⟨⟩
    have hle := (dropWhile_suffix (l := rest) (· ≠ quote)).length_le
    refine ⟨.quoted (notMem_takeWhile _ _), ?_⟩
    rw [hd] at hle
    simp at hle ⊢
    omega
  | case5 e c rest hc =>
    rintro ⟨⟩
    have hle := (dropWhile_suffix (l := c :: rest) (· ≠ semicolon)).length_le
    refine ⟨.plain (notMem_takeWhile _ _) ?_, ?_⟩
    · rw [takeWhile_cons]
      split <;> simp [hc]
    · simp at hle ⊢
      omega

def parseRequestCookieLine (header : Text) : List (Text × Text) :=
  if _ : header.dropWhile (· = blank) = [] then []
  else
    match _ : readValue ((header.dropWhile (· = blank)).dropWhile (· ≠ equals)) with
    | none => []
    | some (value, behind) =>
      ((header.dropWhile (· = blank)).takeWhile (· ≠ equals), value) ::
        parseRequestCookieLine behind
termination_by header.length
decreasing_by
  have hb := (readValue_spec ‹_›).2
  have hle := (dropWhile_suffix (l := header) (· = blank)).length_le
  have hd := (dropWhile_suffix (l := header.dropWhile (· = blank)) (· ≠ equals)).length_le
  have hpos := length_pos_iff.mpr ‹_›
  omega

def serializeRequestCookieLine (cookies : List (Text × Text)) : Text :=
  cookies.foldl (fun buffer c =>
    (if buffer = [] then [] else buffer ++ [semicolon, blank]) ++ c.1 ++ equals :: c.2) []

/-- A cookie of a request, with no value if there is no `=` behind the name. -/
structure Item where
  name : Text
  value : Option Text

namespace Item

def text (i : Item) : Text := i.name ++ i.value.elim [] (equals :: ·)

def pair (i : Item) : Text × Text := (i.name, i.value.getD [])

end Item

def joined : List Item → Text
  | [] => []
  | [i] => i.text
  | i :: j :: items => i.text ++ semicolon :: blank :: joined (j :: items)

/-- What the scan reads in one round: a name may have semicolons. -/
structure Readable (i : Item) : Prop where
  equals_notMem : equals ∉ i.name
  head_ne : i.name.head? ≠ some blank
  isValue : ∀ v ∈ i.value, IsValue v

/-- Only the last item may have no value, unless its name is empty. -/
def BareAtEnd : List Item → Prop
  | [] => True
  | [i] => i.value = none → i.name ≠ []
  | i :: j :: items => i.value ≠ none ∧ BareAtEnd (j :: items)

variable {items : List Item} {name v s : Text}

theorem dropWhile_blank (h : s.head? ≠ some blank) : s.dropWhile (· = blank) = s := by
  cases s with
  | nil => rfl
  | cons => exact dropWhile_cons_of_neg (by simpa using h)

theorem parse_eq {behind : Text} (hb : s.head? ≠ some blank) (hne : s ≠ [])
    (ht : s.takeWhile (· ≠ equals) = name)
    (hv : readValue (s.dropWhile (· ≠ equals)) = some (v, behind)) :
    parseRequestCookieLine s = (name, v) :: parseRequestCookieLine behind := by
  rw [parseRequestCookieLine, dropWhile_blank hb, dif_neg hne]
  split <;> rename_i hv' <;> rw [hv] at hv' <;> cases hv'
  rw [ht]

theorem parse_nil : parseRequestCookieLine [] = [] := by
  rw [parseRequestCookieLine]
  rfl

theorem parse_blank (s : Text) :
    parseRequestCookieLine (blank :: s) = parseRequestCookieLine s := by
  rw [parseRequestCookieLine, parseRequestCookieLine, dropWhile_cons_of_pos (by decide)]

theorem takeWhile_append_ne {d : UInt8} {a : Text} (ha : d ∉ a) (b : Text) :
    (a ++ b).takeWhile (· ≠ d) = a ++ b.takeWhile (· ≠ d) ∧
      (a ++ b).dropWhile (· ≠ d) = b.dropWhile (· ≠ d) := by
  have hne : ∀ c ∈ a, decide (c ≠ d) = true := fun c hc => decide_eq_true fun he => ha (he ▸ hc)
  exact ⟨takeWhile_append_of_pos hne, dropWhile_append_of_pos hne⟩

/-- A value is read up to the semicolon behind it. -/
theorem readValue_append (hv : IsValue v) {tail : Text} (ht : tail.takeWhile (· ≠ semicolon) = []) :
    readValue (equals :: (v ++ tail)) = some (v, tail.drop 1) := by
  cases hv with
  | plain hs hq =>
    have hsc := takeWhile_append_ne hs tail
    cases hvt : v ++ tail with
    | nil =>
      obtain ⟨rfl, rfl⟩ := append_eq_nil_iff.mp hvt
      rfl
    | cons c rest =>
      have hc : c ≠ quote := by
        rintro rfl
        cases v with
        | nil => simp [show tail = quote :: rest from hvt, quote, semicolon] at ht
        | cons => exact hq (congrArg head? hvt)
      have hself := takeWhile_append_dropWhile (p := (· ≠ semicolon)) (l := tail)
      rw [ht, nil_append] at hself
      rw [readValue, if_neg hc, ← hvt, hsc.1, hsc.2, ht, hself, append_nil]
  | @quoted q hq =>
    have hsc := takeWhile_append_ne hq (quote :: tail)
    simp [readValue] at hsc ⊢
    simp [hsc]

theorem head?_append_ne (h : name.head? ≠ some blank) {c : UInt8} (hc : c ≠ blank) (s : Text) :
    (name ++ c :: s).head? ≠ some blank := by
  cases name with
  | nil => simpa using hc
  | cons => exact h

theorem parse_item (h : Readable ⟨name, some v⟩) {t : Text}
    (ht : t.takeWhile (· ≠ semicolon) = []) : parseRequestCookieLine (name ++ equals :: (v ++ t)) =
      (name, v) :: parseRequestCookieLine (t.drop 1) := by
  obtain ⟨htake, hdrop⟩ := takeWhile_append_ne h.equals_notMem (equals :: (v ++ t))
  refine parse_eq (head?_append_ne h.head_ne (by decide) _) (by simp) ?_ ?_
  · simpa using htake
  · rw [hdrop]
    simpa using readValue_append (h.isValue v rfl) ht

/-- By induction over the items: one without a value takes the next item into its name. -/
theorem parse_joined_iff (h : ∀ i ∈ items, Readable i) :
    parseRequestCookieLine (joined items) = items.map Item.pair ↔ BareAtEnd items := by
  induction items using joined.induct with
  | case1 => exact ⟨fun _ => trivial, fun _ => parse_nil⟩
  | case2 i =>
    have hi := h i mem_cons_self
    obtain ⟨name, _ | v⟩ := i
    · have hs := takeWhile_append_ne hi.equals_notMem []
      rw [joined, Item.text, Option.elim]
      by_cases hnil : name = []
      · simp [hnil, parse_nil, BareAtEnd]
      · rw [append_nil] at hs ⊢
        rw [parse_eq hi.head_ne hnil hs.1 (by rw [hs.2]; rfl), parse_nil]
        simp [BareAtEnd, hnil, Item.pair]
    · have hp := parse_item hi (t := []) rfl
      rw [append_nil, drop_nil, parse_nil] at hp
      exact ⟨fun _ hv => absurd hv (by simp), fun _ => hp⟩
  | case3 i j items ih =>
    have hi := h i mem_cons_self
    obtain ⟨name, _ | v⟩ := i
    · -- The name takes in the separator.
      refine ⟨fun hp => ?_, fun hb => absurd rfl hb.1⟩
      rw [joined, Item.text, Option.elim, append_nil, parseRequestCookieLine,
        dropWhile_blank (head?_append_ne hi.head_ne (by decide) _), dif_neg (by simp)] at hp
      split at hp
      · cases hp
      · have hname : _ = name := congrArg Prod.fst (cons.inj hp).1
        rw [(takeWhile_append_ne hi.equals_notMem _).1] at hname
        simp [semicolon, equals] at hname
    · have hi' := ih fun i hi => h i (mem_cons_of_mem _ hi)
      simp only [joined, Item.text, Option.elim, append_assoc, cons_append]
      rw [parse_item hi rfl, drop_one, tail_cons, parse_blank]
      exact ⟨fun hp => ⟨by simp, hi'.mp (cons.inj hp).2⟩, fun hb => congrArg _ (hi'.mpr hb.2)⟩

theorem readable_parse (header : Text) :
    ∀ c ∈ parseRequestCookieLine header, Readable ⟨c.1, some c.2⟩ := by
  fun_induction parseRequestCookieLine header with
  | case1 => simp
  | case2 => simp
  | case3 header hs value behind hv ih =>
    rw [forall_mem_cons]
    refine ⟨⟨notMem_takeWhile _ _, ?_, by simpa using (readValue_spec hv).1⟩, ih⟩
    have hb := head?_dropWhile_not (· = blank) header
    rw [head?_takeWhile]
    cases hd : header.dropWhile (· = blank) <;> simp_all [Option.filter]

theorem serializeRequestCookieLine_eq (cookies : List (Text × Text)) :
    serializeRequestCookieLine cookies = joined (cookies.map fun c => ⟨c.1, some c.2⟩) := by
  have hfold : ∀ (l : List (Text × Text)) (buffer : Text) (c : Text × Text),
      l.foldl (fun buffer c =>
        (if buffer = [] then [] else buffer ++ [semicolon, blank]) ++ c.1 ++ equals :: c.2)
        (buffer ++ (c.1 ++ equals :: c.2)) =
      buffer ++ joined ((c :: l).map fun c => ⟨c.1, some c.2⟩) := by
    intro l
    induction l with
    | nil => exact fun _ _ => rfl
    | cons d l ih =>
      intro buffer c
      rw [foldl_cons, if_neg (by simp), append_assoc _ d.1, ih]
      simp [joined, Item.text]
  cases cookies with
  | nil => rfl
  | cons c l => exact hfold l [] c

theorem bareAtEnd_of_forall (h : ∀ i ∈ items, i.value ≠ none) : BareAtEnd items := by
  induction items using joined.induct with
  | case1 => trivial
  | case2 i => exact fun hn => absurd hn (h i mem_cons_self)
  | case3 i j items ih =>
    exact ⟨h i mem_cons_self, ih fun i hi => h i (mem_cons_of_mem _ hi)⟩

/-- Parsing gives the cookies back, and what it gives for any header it gives again for the
serialised cookies, exactly if only the last cookie has no value, and that one has a name. -/
theorem parseRequestCookieLine_joined_iff (items : List Item) (h : ∀ i ∈ items, Readable i) :
    (parseRequestCookieLine (joined items) = items.map Item.pair ∧
      ∀ header,
        parseRequestCookieLine (serializeRequestCookieLine (parseRequestCookieLine header)) =
          parseRequestCookieLine header) ↔ BareAtEnd items := by
  have hi := parse_joined_iff h
  refine ⟨fun hp => hi.mp hp.1, fun hb => ⟨hi.mpr hb, fun header => ?_⟩⟩
  rw [serializeRequestCookieLine_eq]
  refine ((parse_joined_iff (forall_mem_map.mpr (readable_parse header))).mpr
    (bareAtEnd_of_forall (forall_mem_map.mpr (by simp)))).trans ?_
  simp [Item.pair, Function.comp_def]

/-- Of `a; b=c` one cookie is read, with the name `a; b`. -/
theorem bare_name_swallows :
    parseRequestCookieLine (joined [⟨[0x61], none⟩, ⟨[0x62], some [0x63]⟩]) =
      [([0x61, semicolon, blank, 0x62], [0x63])] := by
  exact (parse_eq (by decide) (by decide) rfl rfl).trans (congrArg _ parse_nil)

theorem bare_name_last : parseRequestCookieLine (joined [⟨[0x62], some [0x63]⟩, ⟨[0x61], none⟩]) =
    [([0x62], [0x63]), ([0x61], [])] := by
  refine ((parseRequestCookieLine_joined_iff [⟨[0x62], some [0x63]⟩, ⟨[0x61], none⟩] ?_).mpr
    ⟨by simp, by simp [BareAtEnd]⟩).1
  rw [forall_mem_cons, forall_mem_singleton]
  exact ⟨⟨by decide, by decide, by simpa using .plain (by decide) (by decide)⟩,
    by decide, by decide, by simp⟩

end ChromiumBase.CookieUtil
