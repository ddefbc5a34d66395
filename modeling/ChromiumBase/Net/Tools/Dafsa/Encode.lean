import ChromiumBase.Net.Tools.Dafsa.EncodeLinks
import ChromiumBase.Net.Tools.Dafsa.TopSort

/-!
# Encoding a DAFSA

The nodes are written children first, from the end of the array to its start, so that what
has been written for a node stays where it is.  Each node is followed by its links, or by its
only child; in both cases the walk of `LookupStringInFixedSet` from the node serves the words
that the node spells.
-/

open Function List Option

namespace ChromiumBase.MakeDafsa

open WordGraph Outcome FixedSet

def Printable (l : List ℕ) : Prop :=
  ∀ c ∈ l, 0x20 ≤ c ∧ c < 0x80

def first (g : Graph ℕ) : Option ℕ → Option ℕ
  | none => none
  | some i => (g.label i).head?

def Distinct (g : Graph ℕ) (refs : List (Option ℕ)) : Prop :=
  refs.Pairwise fun a b => first g a ≠ first g b

/-- The node before the sink, whose label ends with the return value, or a node within a
key. -/
def Shape (g : Graph ℕ) (i : ℕ) : Prop :=
  (g.succ i = [none] ∧ ∃ l v, g.label i = l ++ [v] ∧ Printable l ∧ v < 0x20) ∨
    (none ∉ g.succ i ∧ Printable (g.label i))

/-- A deterministic graph of printable keys and return values. -/
structure Encodable (g : Graph ℕ) : Prop where
  descending : Descending g
  proper : Proper g
  shape : ∀ i < g.length, Shape g i
  distinct : ∀ i < g.length, Distinct g (g.succ i)

def language (g : Graph ℕ) (ref : Option ℕ) : Set (List ℤ) :=
  {w | ∃ v, Spells g ref v ∧ w = v.map Nat.cast}

def languageFrom (g : Graph ℕ) (refs : List (Option ℕ)) : Set (List ℤ) :=
  {w | ∃ ref ∈ refs, w ∈ language g ref}

def appendAll (l : List ℕ) (W : Set (List ℤ)) : Set (List ℤ) :=
  l.foldr consAll W

variable {W : Set (List ℤ)} {l front : List ℕ} {g : Graph ℕ} {w : List ℤ} {v c : ℕ}

theorem mem_appendAll : w ∈ appendAll l W ↔ ∃ v ∈ W, w = l.map Nat.cast ++ v := by
  induction l generalizing w with
  | nil => simp [appendAll]
  | cons c l ih =>
    constructor
    · rintro ⟨u, hu, rfl⟩
      obtain ⟨v, hv, rfl⟩ := ih.1 hu
      exact ⟨v, hv, rfl⟩
    · rintro ⟨v, hv, rfl⟩
      exact ⟨_, ih.2 ⟨v, hv, rfl⟩, rfl⟩

theorem language_some (g : Graph ℕ) (i : ℕ) :
    language g (some i) = appendAll (g.label i) (languageFrom g (g.succ i)) := by
  ext w
  rw [mem_appendAll]
  constructor
  · rintro ⟨_, hs, rfl⟩
    obtain ⟨v, ⟨c, hc, hv⟩, rfl⟩ := spells_some.1 hs
    exact ⟨v.map Nat.cast, ⟨c, hc, v, hv, rfl⟩, by simp⟩
  · rintro ⟨_, ⟨c, hc, v, hv, rfl⟩, rfl⟩
    exact ⟨g.label i ++ v, .step hc hv, by simp⟩

variable {rest : List ℕ}

theorem serves_chars (hl : Printable l) (hr : rest ≠ []) (h : Serves ⟨some rest, true⟩ W) :
    Serves ⟨some (l ++ rest), true⟩ (appendAll l W) := by
  induction l with
  | nil => exact h
  | cons c l ih =>
    obtain ⟨hc, hc'⟩ := hl c mem_cons_self
    obtain ⟨hm, heol, hval, -⟩ := byte_facts c hc'
    refine serves_label hc hc' hm hval (by simp [hr]) ?_
    rw [heol]
    exact ih fun x hx => hl x (mem_cons_of_mem _ hx)

theorem serves_label_links (hl : Printable (l ++ [c])) (hr : rest ≠ [])
    (h : Serves ⟨some rest, false⟩ W) :
    Serves ⟨some (l ++ (c ||| 1 <<< 7) :: rest), true⟩ (appendAll (l ++ [c]) W) := by
  obtain ⟨hc, hc'⟩ := hl c (by simp)
  obtain ⟨-, -, -, hm, heol, hval⟩ := byte_facts c hc'
  rw [if_neg (by omega)] at hval
  have last : Serves ⟨some ((c ||| 1 <<< 7) :: rest), true⟩ (consAll c W) := by
    refine serves_label hc hc' hm hval hr ?_
    rw [heol]
    exact h
  have := serves_chars (fun x hx => hl x (mem_append_left _ hx)) (cons_ne_nil _ _) last
  simpa [appendAll] using this

theorem serves_label_value (hl : Printable l) (hv : v < 0x20) (rest : List ℕ) :
    Serves ⟨some (l ++ (v ||| 1 <<< 7) :: rest), true⟩ (appendAll (l ++ [v]) {[]}) := by
  obtain ⟨-, -, -, hm, -, hret⟩ := byte_facts v (by omega)
  rw [if_pos hv] at hret
  have last := serves_value hv hm hret rest
  have := serves_chars hl (cons_ne_nil _ _) last
  have heq : consAll v {[]} = {[(v : ℤ)]} := by
    simp [consAll]
  simpa [appendAll, heq] using this

theorem encodeLabel_append (l : List ℕ) (c : ℕ) :
    encodeLabel (l ++ [c]) = .ok (l ++ [c ||| 1 <<< 7]).reverse := by
  simp [encodeLabel, encodePrefix]
  rfl

structure Placed (g : Graph ℕ) (memory : List ℕ) (i k : ℕ) : Prop where
  pos : 0 < k
  le : k ≤ memory.length
  serves : Serves ⟨some (memory.drop (memory.length - k)), true⟩ (language g (some i))
  first : some ((target memory k).1 &&& 0x7F) = first g (some i)

variable {k i : ℕ} {memory done : List ℕ} {o : Output}

theorem drop_append_left (h : k ≤ memory.length) :
    (front ++ memory).drop ((front ++ memory).length - k) = memory.drop (memory.length - k) := by
  rw [length_append, show front.length + memory.length - k = front.length + (memory.length - k) by
    omega, drop_append, drop_of_length_le (by omega)]
  simp

theorem target_append_left (h : k ≤ memory.length) :
    target (front ++ memory) k = target memory k := by
  rw [target, target, drop_append_left h]

theorem Placed.append_left (h : Placed g memory i k) (front : List ℕ) :
    Placed g (front ++ memory) i k := by
  refine ⟨h.pos, ?_, ?_, ?_⟩
  · have := h.le
    rw [length_append]
    omega
  · rw [drop_append_left h.le]
    exact h.serves
  · rw [target_append_left h.le]
    exact h.first

structure Encoded (g : Graph ℕ) (o : Output) (done : List ℕ) : Prop where
  placed : ∀ i ∈ done, ∃ k, o.offsets i = some k ∧ Placed g o.bytes.reverse i k
  injective : ∀ i ∈ done, ∀ j ∈ done, o.offsets i = o.offsets j → i = j

/-- One more node is written. -/
theorem Encoded.add {o : Output} {done : List ℕ} (h : Encoded g o done) (hi : i ∉ done)
    {bytes : List ℕ} {b : ℕ} (hb : bytes.reverse = b :: rest)
    (hs : Serves ⟨some (bytes.reverse ++ o.bytes.reverse), true⟩ (language g (some i)))
    (hf : some (b &&& 0x7F) = first g (some i)) :
    Encoded g ⟨o.bytes ++ bytes, update o.offsets i (some (o.bytes ++ bytes).length)⟩
      (i :: done) := by
  have hlen : 0 < bytes.length := by
    rw [← length_reverse, hb]
    exact Nat.succ_pos _
  have hne : ∀ j ∈ done, j ≠ i := fun j hj hji => hi (hji ▸ hj)
  have hold : ∀ j ∈ done, ∃ k, o.offsets j = some k ∧ k ≤ o.bytes.length := by
    intro j hj
    obtain ⟨k, hk, hp⟩ := h.placed j hj
    exact ⟨k, hk, by simpa using hp.le⟩
  refine ⟨fun j hj => ?_, fun j hj j' hj' heq => ?_⟩
  · rcases mem_cons.1 hj with rfl | hj
    · refine ⟨(o.bytes ++ bytes).length, update_self _ _ _, ?_⟩
      have hd : (o.bytes ++ bytes).reverse.drop
          ((o.bytes ++ bytes).reverse.length - (o.bytes ++ bytes).length) =
          bytes.reverse ++ o.bytes.reverse := by
        rw [length_reverse, Nat.sub_self, drop_zero, reverse_append]
      refine ⟨?_, length_reverse.ge, ?_, ?_⟩
      · rw [length_append]
        omega
      · rw [hd]
        exact hs
      · rw [target, hd, hb]
        exact hf
    · obtain ⟨k, hk, hp⟩ := h.placed j hj
      refine ⟨k, ?_, ?_⟩
      · rw [← hk]
        exact update_of_ne (hne j hj) _ _
      · rw [reverse_append]
        exact hp.append_left bytes.reverse
  · have new : ∀ j ∈ done, o.offsets j ≠ some (o.bytes ++ bytes).length := by
      intro j hj heq
      obtain ⟨k, hk, hle⟩ := hold j hj
      have := some.inj (hk.symm.trans heq)
      rw [length_append] at this
      omega
    simp only at heq
    rcases mem_cons.1 hj with hji | hj <;> rcases mem_cons.1 hj' with hji' | hj'
    · rw [hji, hji']
    · rw [hji, update_self, update_of_ne (hne j' hj')] at heq
      exact absurd heq.symm (new j' hj')
    · rw [hji', update_self, update_of_ne (hne j hj)] at heq
      exact absurd heq (new j hj)
    · rw [update_of_ne (hne j hj), update_of_ne (hne j' hj')] at heq
      exact h.injective j hj j' hj' heq

section Links

variable {refs : List (Option ℕ)}

theorem childOffsets_eq (h : Encoded g o done) (hre : ∀ ref ∈ refs, ∃ c ∈ done, ref = some c) :
    ∃ ks, childOffsets o.offsets refs = .ok ks ∧
      List.Forall₂ (fun ref k => ∃ c ∈ done, ref = some c ∧ o.offsets c = some k) refs ks := by
  induction refs with
  | nil => exact ⟨[], rfl, .nil⟩
  | cons ref refs ih =>
    obtain ⟨c, hc, rfl⟩ := hre ref mem_cons_self
    obtain ⟨k, hk, -⟩ := h.placed c hc
    obtain ⟨ks, hks, hall⟩ := ih fun r hr => hre r (mem_cons_of_mem _ hr)
    refine ⟨k :: ks, ?_, .cons ⟨c, hc, rfl, hk⟩ hall⟩
    simp [childOffsets, hk, hks]
    rfl

def languageAt (g : Graph ℕ) (o : Output) (refs : List (Option ℕ)) (k : ℕ) :
    Set (List ℤ) :=
  {w | ∃ c, some c ∈ refs ∧ o.offsets c = some k ∧ w ∈ language g (some c)}

theorem languageAt_eq (h : Encoded g o done) (hr : ∀ ref ∈ refs, ∃ c ∈ done, ref = some c) {k : ℕ}
    (hc : some c ∈ refs) (hk : o.offsets c = some k) :
    languageAt g o refs k = language g (some c) := by
  have hd : ∀ c, some c ∈ refs → c ∈ done := by
    intro c hc
    obtain ⟨c', hc', heq⟩ := hr (some c) hc
    exact some.inj heq ▸ hc'
  ext w
  constructor
  · rintro ⟨c', hc', hk', hw⟩
    obtain rfl := h.injective c (hd c hc) c' (hd c' hc') (hk.trans hk'.symm)
    exact hw
  · exact fun hw => ⟨c, hc, hk, hw⟩

theorem eq_of_cons_mem_language {a : ℕ} (hf : some a = first g (some i)) {x : ℤ}
    (hw : x :: w ∈ language g (some i)) : x = (a : ℤ) := by
  rw [language_some, mem_appendAll] at hw
  obtain ⟨v, -, heq⟩ := hw
  obtain ⟨l, hl⟩ := head?_eq_some_iff.1 hf.symm
  rw [hl, map_cons, cons_append] at heq
  exact (List.cons.inj heq).1

theorem encodeLinks_returns (h : Encoded g o done) (hr : ∀ ref ∈ refs, ∃ c ∈ done, ref = some c)
    (hne : refs ≠ []) (hd : Distinct g refs) :
    ReturnsUnless TooLong (encodeLinks refs o.offsets o.bytes.length) fun links =>
      Serves ⟨some (links.reverse ++ o.bytes.reverse), false⟩ (languageFrom g refs) := by
  obtain ⟨ks, hks, hall⟩ := childOffsets_eq h hr
  have hpl : ∀ k ∈ ks, ∃ c, some c ∈ refs ∧ o.offsets c = some k ∧
      Placed g o.bytes.reverse c k := by
    intro k hk
    obtain ⟨ref, href, c, hc, rfl, hck⟩ := exists_of_forall₂ hall hk
    obtain ⟨k', hk', hp⟩ := h.placed c hc
    obtain rfl := some.inj (hk'.symm.trans hck)
    exact ⟨c, href, hck, hp⟩
  have hlen : ks.length = refs.length := hall.length_eq.symm
  -- The children start at different places, with different characters.
  have hf : ks.Pairwise fun k k' => (target o.bytes.reverse k).1 &&& 0x7F ≠
      (target o.bytes.reverse k').1 &&& 0x7F := by
    refine pairwise_of_forall₂ hall hd fun _ _ _ _ k k' hne hk hk' heq => hne ?_
    obtain ⟨c, hc, rfl, hck⟩ := hk
    obtain ⟨c', hc', rfl, hck'⟩ := hk'
    obtain ⟨_, hk, hp⟩ := h.placed c hc
    obtain rfl := some.inj (hk.symm.trans hck)
    obtain ⟨_, hk', hp'⟩ := h.placed c' hc'
    obtain rfl := some.inj (hk'.symm.trans hck')
    rw [← hp.first, ← hp'.first, heq]
  have hs : (ks.insertionSort (· ≥ ·)).Pairwise (· > ·) := by
    have hn : ks.Nodup := hf.imp fun hne heq => hne (by rw [heq])
    have hge := pairwise_insertionSort (· ≥ ·) ks
    have hnd := (perm_insertionSort (· ≥ ·) ks).nodup_iff.2 hn
    exact (hge.and hnd).imp fun ⟨hge, hne⟩ => lt_of_le_of_ne hge hne.symm
  have hmem : ∀ k, k ∈ ks.insertionSort (· ≥ ·) ↔ k ∈ ks :=
    fun k => mem_insertionSort _
  have hcu : ∀ k ∈ ks.insertionSort (· ≥ ·), k ≤ o.bytes.length := by
    intro k hk
    obtain ⟨c, -, -, hp⟩ := hpl k ((hmem k).1 hk)
    simpa using hp.le
  have hne' : ks.insertionSort (· ≥ ·) ≠ [] := by
    rw [← length_pos_iff, length_insertionSort, hlen]
    exact length_pos_iff.2 hne
  have hg : ∀ buf, encodeDistances (o.bytes.length + 3 * refs.length)
      (ks.insertionSort (· ≥ ·)) = .ok buf → buf.flatten.length ≤ 3 * refs.length := by
    intro buf hbuf
    have hpa : ((o.bytes.length + 3 * refs.length) :: ks.insertionSort (· ≥ ·)).Pairwise
        (· > ·) := by
      refine pairwise_cons.2 ⟨fun k hk => ?_, hs⟩
      have := hcu k hk
      have := length_pos_iff.2 hne
      omega
    have hret := encodeDistances_returns hpa
    rw [hbuf, returnsUnless_ok, length_insertionSort, hlen] at hret
    exact hret.2
  have hli : encodeLinks refs o.offsets o.bytes.length = (do
      let buf ← guessLinks (ks.insertionSort (· ≥ ·)) o.bytes.length (3 * refs.length + 1)
        (3 * refs.length)
      .ok (markLast buf).reverse) := by
    obtain ⟨ref, rest, rfl⟩ := exists_cons_of_ne_nil hne
    obtain ⟨c, -, rfl⟩ := hr ref mem_cons_self
    simp only [encodeLinks, hks]
    rfl
  rw [hli]
  have hpos : 0 < 3 * refs.length := by
    have := length_pos_iff.2 hne
    omega
  refine (guessLinks_returns hne' hs hcu (Nat.lt_succ_self _) hpos hg).bind
    fun buf hbuf => ?_
  rw [returnsUnless_ok, reverse_reverse]
  have ht : ∀ k ∈ ks.insertionSort (· ≥ ·),
      target (markLast buf ++ o.bytes.reverse) k = target o.bytes.reverse k :=
    fun k hk => target_append_left (by simpa using hcu k hk)
  have hl : (markLast buf ++ o.bytes.reverse).length =
      o.bytes.length + buf.flatten.length := by
    rw [length_append, length_markLast, length_reverse, Nat.add_comm]
  have hpo : ∀ k ∈ ks.insertionSort (· ≥ ·), 0 < k := by
    intro k hk
    obtain ⟨c, -, -, hp⟩ := hpl k ((hmem k).1 hk)
    exact hp.pos
  have links : Links (markLast buf ++ o.bytes.reverse) _ _ :=
    (links_encodeDistances hbuf hne' hl.ge hpo).2
  rw [hl, Nat.sub_self, drop_zero] at links
  have hse := serves_links (W := languageAt g o refs) links ?_ ?_ ?_
  · convert hse using 1
    ext w
    constructor
    · rintro ⟨ref, href, hw⟩
      obtain ⟨k, hk, c, -, rfl, hck⟩ := exists_of_forall₂ hall.flip href
      exact ⟨k, (hmem k).2 hk, c, href, hck, hw⟩
    · rintro ⟨k, hk, c, hc, -, hw⟩
      exact ⟨some c, hc, hw⟩
  · intro k hk
    obtain ⟨c, hc, hck, hp⟩ := hpl k ((hmem k).1 hk)
    rw [languageAt_eq h hr hc hck, ht k hk, target_cons hp.pos hp.le]
    exact hp.serves
  · intro k hk x w hw
    obtain ⟨c, hc, hck, hp⟩ := hpl k ((hmem k).1 hk)
    rw [languageAt_eq h hr hc hck] at hw
    rw [ht k hk]
    exact eq_of_cons_mem_language hp.first hw
  · refine ((perm_insertionSort _ ks).symm.pairwise hf fun h => h.symm).imp_of_mem ?_
    intro k k' hk hk' hne
    rwa [ht k hk, ht k' hk']

end Links

/-- The bytes are right for the node `i` in front of what has been written. -/
def Starts (g : Graph ℕ) (o : Output) (i : ℕ) (bytes : List ℕ) : Prop :=
  ∃ b rest, bytes.reverse = b :: rest ∧
    Serves ⟨some (bytes.reverse ++ o.bytes.reverse), true⟩ (language g (some i)) ∧
    some (b &&& 0x7F) = first g (some i)

theorem fallsThrough_returns (h : Encoded g o done) {refs : List (Option ℕ)}
    (hr : ∀ c, some c ∈ refs → c ∈ done) : ReturnsUnless TooLong (fallsThrough o refs) fun falls =>
      falls = true → ∃ c, refs = [some c] ∧ o.offsets c = some o.bytes.length := by
  unfold fallsThrough
  split
  · rename_i c
    obtain ⟨k, hk, -⟩ := h.placed c (hr c mem_cons_self)
    rw [hk, returnsUnless_ok]
    intro heq
    exact ⟨c, rfl, hk.trans (congrArg some (of_decide_eq_true heq))⟩
  · rw [returnsUnless_ok]
    intro heq
    cases heq

theorem first_of_char (hc : c < 0x80) (hl : g.label i = c :: l) :
    some (c &&& 0x7F) = first g (some i) := by
  rw [(byte_facts c hc).1, first, hl, head?_cons]

theorem exists_first_of_marked (hl : ∀ x ∈ l ++ [c], x < 0x80) (hi : g.label i = l ++ [c])
    (rest : List ℕ) : ∃ b bytes, l ++ (c ||| 1 <<< 7) :: rest = b :: bytes ∧
      some (b &&& 0x7F) = first g (some i) := by
  obtain _ | ⟨a, l⟩ := l
  · refine ⟨_, _, rfl, ?_⟩
    rw [(byte_facts c (hl c (by simp))).2.2.2.1, first, hi]
    rfl
  · exact ⟨_, _, rfl, first_of_char (hl a (by simp)) hi⟩

theorem starts_prefix (h : Encoded g o done) (hc : c ∈ done) (hs : g.succ i = [some c])
    (hoff : o.offsets c = some o.bytes.length) (hl : Printable (g.label i)) (hne : g.label i ≠ []) :
    Starts g o i (g.label i).reverse := by
  obtain ⟨a, l, hal⟩ := exists_cons_of_ne_nil hne
  obtain ⟨k, hk, hp⟩ := h.placed c hc
  obtain rfl := some.inj (hk.symm.trans hoff)
  have hch := hp.serves
  rw [length_reverse, Nat.sub_self, drop_zero] at hch
  have hf : languageFrom g (g.succ i) = language g (some c) := by
    simp [languageFrom, hs]
  rw [Starts, reverse_reverse, language_some, hf]
  exact ⟨a, l, hal, serves_chars hl hch.ne_nil hch, first_of_char (hl a (by simp [hal])).2 hal⟩

theorem starts_links {links : List ℕ}
    (h : Serves ⟨some (links.reverse ++ o.bytes.reverse), false⟩ (languageFrom g (g.succ i)))
    (hla : g.label i = l ++ [c]) (hl : Printable (l ++ [c])) :
    Starts g o i (links ++ (l ++ [c ||| 1 <<< 7]).reverse) := by
  obtain ⟨b, rest, hb, hf⟩ :=
    exists_first_of_marked (fun x hx => (hl x hx).2) hla links.reverse
  have hrev : (links ++ (l ++ [c ||| 1 <<< 7]).reverse).reverse =
      l ++ (c ||| 1 <<< 7) :: links.reverse := by
    simp
  have hs := serves_label_links hl h.ne_nil h
  rw [← hla, ← language_some] at hs
  refine ⟨b, rest, hrev.trans hb, ?_, hf⟩
  rw [hrev, append_assoc]
  exact hs

theorem starts_value (hsu : g.succ i = [none]) (hla : g.label i = l ++ [v]) (hl : Printable l)
    (hv : v < 0x20) : Starts g o i (l ++ [v ||| 1 <<< 7]).reverse := by
  have hsm : ∀ x ∈ l ++ [v], x < 0x80 := by
    intro x hx
    rcases mem_append.1 hx with hx | hx
    · exact (hl x hx).2
    · have := mem_singleton.1 hx
      omega
  obtain ⟨b, rest, hb, hf⟩ := exists_first_of_marked hsm hla []
  have hfr : languageFrom g (g.succ i) = {[]} := by
    simp [languageFrom, hsu, language]
  have hs := serves_label_value hl hv o.bytes.reverse
  rw [← hla, ← hfr, ← language_some] at hs
  rw [Starts, reverse_reverse]
  refine ⟨b, rest, hb, ?_, hf⟩
  rw [append_assoc]
  exact hs

/-- The bytes of a node serve its words, in front of its children. -/
theorem nodeBytes_returns (hg : Encodable g) (h : Encoded g o done) (hi : i < g.length)
    (hc : ∀ c, some c ∈ g.succ i → c ∈ done) :
    ReturnsUnless TooLong (nodeBytes g o i) (Starts g o i) := by
  have hl := hg.proper.label i hi
  obtain ⟨l, c, hlc⟩ : ∃ l c, g.label i = l ++ [c] := by
    rcases eq_nil_or_concat (g.label i) with hnil | ⟨l, c, hlc⟩
    · exact absurd hnil hl
    · exact ⟨l, c, by rw [hlc, concat_eq_append]⟩
  refine (fallsThrough_returns h hc).bind fun falls hfa => ?_
  split_ifs with hf
  · obtain ⟨child, hs, hoff⟩ := hfa hf
    have hin : Printable (g.label i) := by
      rcases hg.shape i hi with ⟨hend, -⟩ | ⟨-, hp⟩
      · rw [hs] at hend
        cases hend
      · exact hp
    rw [encodePrefix, if_neg hl, returnsUnless_ok]
    exact starts_prefix h (hc child (by simp [hs])) hs hoff hin hl
  · rw [hlc, encodeLabel_append]
    rcases hg.shape i hi with ⟨hend, l', v, hlv, hp, hv⟩ | ⟨hinn, hp⟩
    · obtain ⟨rfl, heq⟩ := append_inj' (hlc.symm.trans hlv) rfl
      obtain rfl : c = v := by simpa using heq
      rw [hend]
      exact starts_value hend hlv hp hv
    · have hr : ∀ ref ∈ g.succ i, ∃ c ∈ done, ref = some c := by
        intro ref href
        obtain _ | child := ref
        · exact absurd href hinn
        · exact ⟨child, hc child href, rfl⟩
      refine (encodeLinks_returns h hr (hg.proper.succ i hi) (hg.distinct i hi)).bind
        fun links hli => ?_
      exact starts_links hli hlc (hlc ▸ hp)

theorem encodeNode_returns (hg : Encodable g) (h : Encoded g o done) (hi : i < g.length)
    (hnew : i ∉ done) (hc : ∀ c, some c ∈ g.succ i → c ∈ done) :
    ReturnsUnless TooLong (encodeNode g o i) fun o' => Encoded g o' (i :: done) := by
  refine (nodeBytes_returns hg h hi hc).bind fun bytes hst => ?_
  obtain ⟨b, rest, hb, hs, hf⟩ := hst
  exact h.add hnew hb hs hf

/-- By induction over the nodes, children first. -/
theorem foldlM_encodeNode_returns (hg : Encodable g) {nodes : List ℕ} (h : Encoded g o done)
    (hin : ∀ i ∈ nodes, i < g.length) (hn : nodes.Nodup) (hnew : ∀ i ∈ nodes, i ∉ done)
    (ho : nodes.Pairwise fun a b => some b ∉ g.succ a)
    (hcl : ∀ i ∈ nodes, ∀ c, some c ∈ g.succ i → c ∈ nodes ∨ c ∈ done) :
    ReturnsUnless TooLong (nodes.foldlM (encodeNode g) o) fun o' =>
      Encoded g o' (nodes.reverse ++ done) := by
  induction nodes generalizing o done with
  | nil => exact h
  | cons i nodes ih =>
    obtain ⟨hi, hn⟩ := nodup_cons.1 hn
    obtain ⟨ha, ho⟩ := pairwise_cons.1 ho
    have hch : ∀ c, some c ∈ g.succ i → c ∈ done := by
      intro c hc
      rcases hcl i mem_cons_self c hc with hcn | hcd
      · rcases mem_cons.1 hcn with rfl | hcn
        · exact absurd (hg.descending c c hc) (lt_irrefl c)
        · exact absurd hc (ha c hcn)
      · exact hcd
    refine (encodeNode_returns hg h (hin i mem_cons_self) (hnew i mem_cons_self)
      hch).bind fun o' ho' => ?_
    have hr := ih ho' (fun j hj => hin j (mem_cons_of_mem _ hj)) hn ?_ ho ?_
    · simpa using hr
    · intro j hj hmem
      rcases mem_cons.1 hmem with rfl | hmem
      · exact hi hj
      · exact hnew j (mem_cons_of_mem _ hj) hmem
    · intro j hj c hc
      rcases hcl j (mem_cons_of_mem _ hj) c hc with hcn | hcd
      · rcases mem_cons.1 hcn with rfl | hcn
        · exact .inr mem_cons_self
        · exact .inl hcn
      · exact .inr (mem_cons_of_mem _ hcd)

/-- The array serves the words of the graph, unless a distance is too long. -/
theorem encode_returns {d : Dafsa} (hg : Encodable d.graph)
    (hv : ∀ ref ∈ d.source, Valid d.graph ref) (hs : none ∉ d.source) (hne : d.source ≠ [])
    (hd : Distinct d.graph d.source) : ReturnsUnless TooLong (encode d) fun bytes =>
      Serves ⟨some bytes, false⟩ (languageFrom d.graph d.source) := by
  have hno : d.source.Nodup := hd.imp fun hne heq => hne (by rw [heq])
  obtain ⟨t, nodes, ht, hso, hp, hor⟩ :=
    topSort_spec hg.descending hg.proper hv hno
  have hmem : ∀ i, i ∈ nodes.reverse ↔ i ∈ t.visited := by
    intro i
    rw [mem_reverse, hp.mem_iff]
  have hin : ∀ i ∈ nodes.reverse, i < d.graph.length := fun i hi =>
    ht.visited_lt (fun i hi => hv (some i) hi i rfl) hg.proper.closed ((hmem i).1 hi)
  have hst : Encoded d.graph ⟨[], fun _ => none⟩ [] := ⟨by simp, by simp⟩
  have hn := foldlM_encodeNode_returns hg hst hin
    (nodup_reverse.2 (hp.nodup_iff.1 ht.nodup)) (by simp)
    (pairwise_reverse.2 hor)
    (fun i hi c hc => .inl ((hmem c).2 (ht.succ i ((hmem i).1 hi) c hc)))
  rw [encode, hso, returnsUnless_ok_bind]
  refine hn.bind fun o ho => ?_
  have hr : ∀ ref ∈ d.source, ∃ c ∈ nodes.reverse.reverse ++ [], ref = some c := by
    intro ref href
    obtain _ | c := ref
    · exact absurd href hs
    · refine ⟨c, ?_, rfl⟩
      simpa using hp.mem_iff.1 (ht.source c href)
  refine (encodeLinks_returns ho hr hne hd).bind fun links hl => ?_
  rw [returnsUnless_ok, reverse_append]
  exact hl

end ChromiumBase.MakeDafsa
