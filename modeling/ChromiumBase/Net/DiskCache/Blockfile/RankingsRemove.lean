import ChromiumBase.Net.DiskCache.Blockfile.RankingsLists

/-!
# Recovery of a removal

The node itself is the last block that `Remove` writes.  As long as it has not been written, its
links lead to its neighbours, and `Init` undoes what was done to them and to the head or tail;
once it has been written, the removal is complete.
-/

open Function List

namespace ChromiumBase.Rankings

open DoublyLinked

variable {d d' : Disk} {ms : ℕ → List ℕ} {node list a : ℕ} {w : Write} {ws : List Write}

section Remove

variable {X Y : List ℕ}

/-- What a node that is removed is linked to: the member before it, or itself. -/
def before (X : List ℕ) (node : ℕ) : ℕ := X.getLastD node

def behind (Y : List ℕ) (node : ℕ) : ℕ := Y.headD node

/-- A part of the writes of a removal has been made, but not the one of the node. -/
structure Removing (d d' : Disk) (node list : ℕ) (X Y : List ℕ) : Prop where
  node_eq : d'.nodes node = d.nodes node
  others : ∀ a, a ≠ before X node → a ≠ behind Y node → d'.nodes a = d.nodes a
  prev : (d'.nodes (before X node)).prev = (d.nodes (before X node)).prev
  next : (d'.nodes (behind Y node)).next = (d.nodes (behind Y node)).next
  heads : ∀ i, i ≠ list → d'.heads i = d.heads i
  tails : ∀ i, i ≠ list → d'.tails i = d.tails i
  head : d'.heads list = d.heads list ∨ X = [] ∧ d'.heads list = Y.headD 0
  tail : d'.tails list = d.tails list ∨ Y = [] ∧ d'.tails list = X.getLastD 0

inductive Removal (d : Disk) (node list : ℕ) (X Y : List ℕ) : Write → Prop
  | prev {data : RankingsNode} (hprev : data.prev = (d.nodes (before X node)).prev)
      (hnode : before X node = node → data = d.nodes node) :
      Removal d node list X Y (.node (before X node) data)
  | next {data : RankingsNode} (hnext : data.next = (d.nodes (behind Y node)).next)
      (hnode : behind Y node = node → data = d.nodes node) :
      Removal d node list X Y (.node (behind Y node) data)
  | head (hX : X = []) : Removal d node list X Y (.head list (Y.headD 0))
  | tail (hY : Y = []) : Removal d node list X Y (.tail list (X.getLastD 0))

theorem before_concat (X : List ℕ) (x node : ℕ) : before (X ++ [x]) node = x := getLastD_concat ..

theorem before_ne_behind (hn : (X ++ node :: Y).Nodup)
    (heq : before X node = behind Y node) : before X node = node := by
  rcases eq_nil_or_concat' X with rfl | ⟨X, x, rfl⟩
  · rfl
  · rw [before_concat] at heq ⊢
    rw [append_assoc, singleton_append, nodup_middle] at hn
    have hnot := (nodup_cons.mp hn).1
    cases Y with
    | nil => exact heq
    | cons y Y =>
      subst heq
      exact absurd (by simp) hnot

theorem Removing.write_node (hd : Removing d d' node list X Y) {data : RankingsNode}
    (ha : a = before X node ∨ a = behind Y node)
    (hp : before X node = a → data.prev = (d.nodes a).prev)
    (hq : behind Y node = a → data.next = (d.nodes a).next) (hn : a = node → data = d.nodes node) :
    Removing d (d'.write (.node a data)) node list X Y := by
  refine ⟨?_, fun b hb hb' => ?_, ?_, ?_, hd.heads, hd.tails, hd.head, hd.tail⟩ <;>
    rw [nodes_write_node, update_apply] <;> split_ifs with h
  · exact hn h.symm
  · exact hd.node_eq
  · subst h
    exact absurd ha (not_or.mpr ⟨hb, hb'⟩)
  · exact hd.others b hb hb'
  · rw [hp h, h]
  · exact hd.prev
  · rw [hq h, h]
  · exact hd.next

theorem Removing.write (hd : Removing d d' node list X Y) (hno : (X ++ node :: Y).Nodup)
    (hw : Removal d node list X Y w) : Removing d (d'.write w) node list X Y := by
  have hpq := before_ne_behind hno
  cases hw with
  | prev hpr hn =>
    exact hd.write_node (.inl rfl) (fun _ => hpr)
      (fun h => by rw [hn (hpq h.symm), hpq h.symm]) hn
  | next hne hn =>
    exact hd.write_node (.inr rfl) (fun h => by rw [hn (h ▸ hpq h), ← h, hpq h])
      (fun _ => hne) hn
  | head hX =>
    refine { hd with heads := fun i hi => ?_, head := ?_ }
    · rw [heads_write_head, update_of_ne hi]
      exact hd.heads i hi
    · rw [heads_write_head, update_self]
      exact .inr ⟨hX, rfl⟩
  | tail hY =>
    refine { hd with tails := fun i hi => ?_, tail := ?_ }
    · rw [tails_write_tail, update_of_ne hi]
      exact hd.tails i hi
    · rw [tails_write_tail, update_self]
      exact .inr ⟨hY, rfl⟩

theorem Removing.writes (hd : Removing d d' node list X Y) (hn : (X ++ node :: Y).Nodup)
    (hws : ∀ w ∈ ws, Removal d node list X Y w) : Removing d (d'.writes ws) node list X Y :=
  foldlRecOn (motive := (Removing d · node list X Y)) ws _ hd
    fun _ hd w hw => hd.write hn (hws w hw)

theorem Removal.isData (hw : Removal d node list X Y w) : w.IsData := by
  cases hw <;> exact trivial

theorem IsList.links (h : IsList d list (X ++ node :: Y)) :
    d.nodes node = ⟨before X node, behind Y node⟩ ∧
      (before X node ≠ node → (d.nodes (before X node)).next = node) ∧
      (behind Y node ≠ node → (d.nodes (behind Y node)).prev = node) := by
  refine ⟨RankingsNode.ext' (h.linked.prev_eq rfl) (h.linked.next_eq rfl), fun hne => ?_,
    fun hne => ?_⟩
  · rcases eq_nil_or_concat' X with rfl | ⟨X, x, rfl⟩
    · exact absurd rfl hne
    · rw [before_concat]
      exact h.linked.next_eq (X := X) (Y := node :: Y) (by simp)
  · cases Y with
    | nil => exact absurd rfl hne
    | cons y Y =>
      have hp := h.linked.prev_eq (X := X ++ [node]) (Y := Y) (a := y) (by simp)
      rw [getLastD_concat] at hp
      exact hp

theorem before_mem (X Y : List ℕ) (node : ℕ) : before X node ∈ X ++ node :: Y := by
  rcases eq_nil_or_concat' X with rfl | ⟨X, x, rfl⟩
  · exact mem_cons_self
  · simp [before_concat]

theorem behind_mem (X Y : List ℕ) (node : ℕ) : behind Y node ∈ X ++ node :: Y := by
  cases Y <;> simp [behind]

theorem revertRemove_eq {m : Lists} {p q : ℕ} (hno : d'.nodes node = ⟨p, q⟩)
    (hp : ValidAddr p) (hq : ValidAddr q) (hl : d'.operationList = list)
    {prev next prev' next' : RankingsNode} {first : List Write}
    (hpr : (if node ≠ p then { d'.nodes p with next := node } else d'.nodes p) = prev)
    (hn : (if node ≠ q then { d'.nodes q with prev := node } else d'.nodes q) = next)
    (he : revertEnds m node list p q prev next = (first, prev', next')) :
    revertRemove d' m node =
      first ++ [.node q next', .node p prev', .transaction 0, .operation 0] := by
  simp only [revertRemove, hno, hp.isInitialized, hq.isInitialized, hp.isSeparateFile,
    hq.isSeparateFile, Bool.not_true, Bool.or_self, Bool.false_eq_true, if_false, hl, hpr, hn, he]

theorem eq_of_ends {f g : ℕ → ℕ} (h : ∀ i, i ≠ list → f i = g i) (hl : f list = g list) :
    f = g := by
  funext i
  by_cases hi : i = list
  · rw [hi, hl]
  · exact h i hi

section RevertEnds

variable {m : Lists} {p q : ℕ} {prev next : RankingsNode}

theorem revertEnds_empty (h : m.heads list = 0 ∨ m.tails list = 0) :
    revertEnds m node list p q prev next = ([.head list node, .tail list node], prev, next) := by
  rw [revertEnds, if_pos]
  rcases h with h | h <;> simp [h, isInitialized_zero]

variable (hhead : ValidAddr (m.heads list)) (htail : ValidAddr (m.tails list))

include hhead htail

theorem revertEnds_head (h : m.heads list = q) (hp : prev.next = q) :
    revertEnds m node list p q prev next = ([.head list node], prev, next) := by
  rw [revertEnds, if_neg (by simp [hhead.isInitialized, htail.isInitialized]), if_pos h, ← hp]

theorem revertEnds_tail (hne : m.heads list ≠ q) (h : m.tails list = p) (hn : next.prev = p) :
    revertEnds m node list p q prev next = ([.tail list node], prev, next) := by
  rw [revertEnds, if_neg (by simp [hhead.isInitialized, htail.isInitialized]), if_neg hne,
    if_pos h, ← hn]

theorem revertEnds_middle (hne : m.heads list ≠ q) (hne' : m.tails list ≠ p) :
    revertEnds m node list p q prev next = ([], prev, next) := by
  rw [revertEnds, if_neg (by simp [hhead.isInitialized, htail.isInitialized]), if_neg hne,
    if_neg hne']

end RevertEnds

theorem IsList.head_eq_or_mem (h : IsList d list (X ++ node :: Y)) :
    X = [] ∧ d.heads list = node ∨ d.heads list ∈ X := by
  rw [h.head]
  cases X with
  | nil => exact .inl ⟨rfl, rfl⟩
  | cons x X => exact .inr mem_cons_self

theorem IsList.tail_eq_or_mem (h : IsList d list (X ++ node :: Y)) :
    Y = [] ∧ d.tails list = node ∨ d.tails list ∈ Y := by
  rw [h.tail]
  rcases eq_nil_or_concat' Y with rfl | ⟨Y, y, rfl⟩
  · exact .inl ⟨rfl, by simp⟩
  · exact .inr (by
      simp [getLast?_cons])

/-- The recovery puts the ends back as they were. -/
theorem Removing.revertEnds (h : WellFormed d ms) (hli : list < kLastElement)
    (hms : ms list = X ++ node :: Y) (hd : Removing d d' node list X Y) : ∃ first : List Write,
      revertEnds ⟨d'.heads, d'.tails⟩ node list (before X node) (behind Y node)
        (d.nodes (before X node)) (d.nodes (behind Y node)) =
          (first, d.nodes (before X node), d.nodes (behind Y node)) ∧
      (d'.writes first).nodes = d'.nodes ∧ (d'.writes first).heads = d.heads ∧
      (d'.writes first).tails = d.tails := by
  have hl := h.isList list hli
  have hn := h.nodup list hli
  have hv := h.valid list hli
  rw [hms] at hl hn hv
  obtain ⟨hno, -, -⟩ := hl.links
  have hhead := hl.head_eq_or_mem
  have htail := hl.tail_eq_or_mem
  by_cases hz : d'.heads list = 0 ∨ d'.tails list = 0
  · -- Only the head and tail of a list without other members are cleared.
    obtain ⟨rfl, rfl⟩ : X = [] ∧ Y = [] := by
      rcases hz with hz | hz
      · obtain ⟨rfl, h0⟩ := hd.head.resolve_left fun heq =>
          (hv _ (hl.head_mem (by simp))).ne_zero (heq ▸ hz)
        refine ⟨rfl, ?_⟩
        cases Y with
        | nil => rfl
        | cons y Y => exact absurd (h0.symm.trans hz) (hv y (by simp)).ne_zero
      · obtain ⟨rfl, h0⟩ := hd.tail.resolve_left fun heq =>
          (hv _ (hl.tail_mem (by simp))).ne_zero (heq ▸ hz)
        refine ⟨?_, rfl⟩
        rcases eq_nil_or_concat' X with rfl | ⟨X, x, rfl⟩
        · rfl
        · rw [getLastD_concat] at h0
          exact absurd (h0.symm.trans hz) (hv x (by simp)).ne_zero
    exact ⟨_, revertEnds_empty hz, rfl, update_eq_iff.mpr ⟨hl.head.symm, hd.heads⟩,
      update_eq_iff.mpr ⟨hl.tail.symm, hd.tails⟩⟩
  rw [not_or] at hz
  have hh : d'.heads list = d.heads list ∨ X = [] ∧ d'.heads list = behind Y node := by
    refine hd.head.imp_right fun ⟨hX, heq⟩ => ⟨hX, ?_⟩
    cases Y with
    | nil => exact absurd heq hz.1
    | cons y Y => exact heq
  have ht : d'.tails list = d.tails list ∨ Y = [] ∧ d'.tails list = before X node := by
    refine hd.tail.imp_right fun ⟨hY, heq⟩ => ⟨hY, ?_⟩
    rcases eq_nil_or_concat' X with rfl | ⟨X, x, rfl⟩
    · exact absurd heq hz.2
    · rw [getLastD_concat] at heq
      rw [heq, before_concat]
  have hhv : ValidAddr (d'.heads list) := hv _ <| by
    rcases hh with hh | ⟨-, hh⟩
    · exact hh ▸ hl.head_mem (by simp)
    · exact hh ▸ behind_mem X Y node
  have htv : ValidAddr (d'.tails list) := hv _ <| by
    rcases ht with ht | ⟨-, ht⟩
    · exact ht ▸ hl.tail_mem (by simp)
    · exact ht ▸ before_mem X Y node
  have hdi : ∀ a ∈ X, a ∉ node :: Y := fun a ha hmem => disjoint_of_nodup_append hn ha hmem
  by_cases hq : d'.heads list = behind Y node
  · obtain ⟨rfl, hhn⟩ := hhead.resolve_right fun hmem => by
      rcases hh with hh | ⟨rfl, -⟩
      · exact hdi _ hmem (hh ▸ hq ▸ behind_mem [] Y node)
      · cases hmem
    refine ⟨_, revertEnds_head hhv htv hq (congrArg RankingsNode.next hno), rfl,
      update_eq_iff.mpr ⟨hhn.symm, hd.heads⟩, eq_of_ends hd.tails ?_⟩
    rcases ht with ht | ⟨rfl, ht⟩
    · exact ht
    · exact ht.trans hl.tail.symm
  have hheads := eq_of_ends hd.heads (hh.resolve_right fun h => hq h.2)
  by_cases hp : d'.tails list = before X node
  · obtain ⟨rfl, htn⟩ := htail.resolve_right fun hmem => by
      rcases ht with ht | ⟨rfl, -⟩
      · have hb := before_mem X [] node
        rw [← hp, ht, mem_append, mem_singleton] at hb
        rcases hb with hb | hb
        · exact hdi _ hb (mem_cons_of_mem _ hmem)
        · exact (nodup_cons.mp (nodup_middle.mp hn)).1 (mem_append_right _ (hb ▸ hmem))
      · cases hmem
    exact ⟨_, revertEnds_tail hhv htv hq hp (congrArg RankingsNode.prev hno), rfl, hheads,
      update_eq_iff.mpr ⟨htn.symm, hd.tails⟩⟩
  · exact ⟨_, revertEnds_middle hhv htv hq hp, rfl, hheads,
      eq_of_ends hd.tails (ht.resolve_right fun h => hp h.2)⟩

/-- A removal that was interrupted is undone. -/
theorem Removing.init (h : WellFormed d ms) (hli : list < kLastElement)
    (hms : ms list = X ++ node :: Y) (hlo : Locked d' node kRemove list)
    (hd : Removing d d' node list X Y) :
    (init d').transaction = 0 ∧ (init d').nodes = d.nodes ∧ (init d').heads = d.heads ∧
      (init d').tails = d.tails := by
  have hl := h.isList list hli
  have hv := h.valid list hli
  rw [hms] at hl hv
  obtain ⟨hno, hpn, hnp⟩ := hl.links
  have hpr : (if node ≠ before X node then { d'.nodes (before X node) with next := node }
      else d'.nodes (before X node)) = d.nodes (before X node) := by
    split
    case isTrue hne => exact RankingsNode.ext' hd.prev (hpn (Ne.symm hne)).symm
    case isFalse heq => rw [← not_not.mp heq, hd.node_eq]
  have hnex : (if node ≠ behind Y node then { d'.nodes (behind Y node) with prev := node }
      else d'.nodes (behind Y node)) = d.nodes (behind Y node) := by
    split
    case isTrue hne => exact RankingsNode.ext' (hnp (Ne.symm hne)).symm hd.next
    case isFalse heq => rw [← not_not.mp heq, hd.node_eq]
  obtain ⟨first, he, hn, hh, ht⟩ := hd.revertEnds h hli hms
  have hr := revertRemove_eq (hd.node_eq.trans hno) (hv _ (before_mem X Y node))
    (hv _ (behind_mem X Y node)) hlo.operationList hpr hnex he
  have hnv : ValidAddr node := hv node (by simp)
  rw [init_of_transaction hnv hlo.transaction, completeTransaction_remove hnv hlo,
    hr, writes_cons, writes_rewrite, writes_append]
  refine ⟨rfl, ?_, hh, ht⟩
  simp only [writes_cons, writes_nil, Disk.write, hn]
  funext a
  by_cases hp : a = before X node
  · rw [hp, update_self]
  · rw [update_of_ne hp]
    by_cases hq : a = behind Y node
    · rw [hq, update_self]
    · rw [update_of_ne hq, hd.others a hp hq]

structure Removed (d d' : Disk) (node list : ℕ) (X Y : List ℕ) : Prop where
  node_eq : d'.nodes node = ⟨0, 0⟩
  others : ∀ a, a ≠ node → a ≠ before X node → a ≠ behind Y node → d'.nodes a = d.nodes a
  prev : before X node ≠ node → d'.nodes (before X node) =
    ⟨(d.nodes (before X node)).prev, Y.headD (before X node)⟩
  next : behind Y node ≠ node → d'.nodes (behind Y node) =
    ⟨X.getLastD (behind Y node), (d.nodes (behind Y node)).next⟩
  heads : d'.heads = update d.heads list ((X ++ Y).headD 0)
  tails : d'.tails = update d.tails list ((X ++ Y).getLastD 0)

theorem behind_eq_of_head? (node : ℕ) (h : Y.head? = some a) : behind Y node = a := by
  obtain ⟨Y, rfl⟩ := head?_eq_some_iff.mp h
  rfl

theorem head?_of_behind (hne : behind Y node ≠ node) : Y.head? = some (behind Y node) := by
  cases Y with
  | nil => exact absurd rfl hne
  | cons y Y => rfl

theorem before_eq_of_getLast? (node : ℕ) (h : X.getLast? = some a) : before X node = a := by
  rw [before, getLastD_eq_getLast?, h]
  rfl

theorem getLast?_of_before (hne : before X node ≠ node) : X.getLast? = some (before X node) := by
  rw [before, getLastD_eq_getLast?] at hne ⊢
  cases hl : X.getLast? with
  | none => rw [hl] at hne; exact absurd rfl hne
  | some a => rfl

/-- The lists are well-formed without the node. -/
theorem Removed.wellFormed (h : WellFormed d ms) (hli : list < kLastElement)
    (hms : ms list = X ++ node :: Y) (hd : Removed d d' node list X Y) :
    WellFormed d' (update ms list (X ++ Y)) := by
  have hl := h.isList list hli
  have hn := h.nodup list hli
  rw [hms] at hl hn
  obtain ⟨hnot, hXY⟩ := nodup_cons.mp (nodup_middle.mp hn)
  have hne : ∀ a ∈ X ++ Y, a ≠ node := fun a ha heq => hnot (heq ▸ ha)
  have hsub : ∀ a ∈ X ++ Y, a ∈ ms list := by
    intro a ha
    rw [hms, mem_append, mem_cons]
    exact (mem_append.mp ha).imp_right .inr
  refine h.update ⟨hl.linked.remove hn ?_ ?_ ?_ ?_, ?_, ?_⟩ hXY ?_
    (fun a ha => h.valid list hli a (hsub a ha)) ?_ ?_ ?_
  · intro a ha hhead
    have hb := behind_eq_of_head? node hhead
    rw [← hb, hd.next (by rw [hb]; exact hne a ha)]
  · intro a ha hhead
    have hb : a ≠ behind Y node := by
      intro hab
      have hne' := hne a ha
      rw [hab] at hne' hhead
      exact hhead (head?_of_behind hne')
    by_cases hp : a = before X node
    · rw [hp, hd.prev (by rw [← hp]; exact hne a ha)]
    · rw [hd.others a (hne a ha) hp hb]
  · intro a ha hla
    have hp := before_eq_of_getLast? node hla
    rw [← hp, hd.prev (by rw [hp]; exact hne a ha)]
  · intro a ha hla
    have hp : a ≠ before X node := by
      intro hap
      have hne' := hne a ha
      rw [hap] at hne' hla
      exact hla (getLast?_of_before hne')
    by_cases hb : a = behind Y node
    · rw [hb, hd.next (by rw [← hb]; exact hne a ha)]
    · rw [hd.others a (hne a ha) hp hb]
  · rw [hd.heads, update_self]
  · rw [hd.tails, update_self]
  · intro i hi hil a ha hmem
    exact hil (h.disjoint i hi list hli a ha (hsub a hmem))
  · intro i hi hil a ha
    have hout : ∀ x ∈ X ++ node :: Y, a ≠ x := fun x hx hax =>
      hil (h.disjoint i hi list hli a ha (hms ▸ hax ▸ hx))
    exact hd.others a (hout _ (by simp)) (hout _ (before_mem X Y node))
      (hout _ (behind_mem X Y node))
  · exact fun i hi => by rw [hd.heads, update_of_ne hi]
  · exact fun i hi => by rw [hd.tails, update_of_ne hi]

theorem Removed.init (hn : ValidAddr node) (hl : Locked d' node kRemove list)
    (hd : Removed d d' node list X Y) :
    (init d').transaction = 0 ∧ Removed d (init d') node list X Y := by
  have hr : revertRemove d' ⟨d'.heads, d'.tails⟩ node = [.transaction 0] := by
    simp [revertRemove, hd.node_eq, isInitialized_zero]
  rw [init_of_transaction hn hl.transaction, completeTransaction_remove hn hl, hr,
    writes_cons, writes_rewrite]
  exact ⟨rfl, { hd with }⟩

theorem Removing.finish (hd : Removing d d' node list X Y)
    (hpr : before X node ≠ node → (d'.nodes (before X node)).next = Y.headD (before X node))
    (hn : behind Y node ≠ node → (d'.nodes (behind Y node)).prev = X.getLastD (behind Y node))
    (hhead : d'.heads list = (X ++ Y).headD 0) (htail : d'.tails list = (X ++ Y).getLastD 0) :
    Removed d (d'.write (.node node ⟨0, 0⟩)) node list X Y where
  node_eq := update_self ..
  others a ha hp hq := by
    rw [nodes_write_node, update_of_ne ha, hd.others a hp hq]
  prev hne := by
    rw [nodes_write_node, update_of_ne hne]
    exact RankingsNode.ext' hd.prev (hpr hne)
  next hne := by
    rw [nodes_write_node, update_of_ne hne]
    exact RankingsNode.ext' (hn hne) hd.next
  heads := eq_update_iff.mpr ⟨hhead, hd.heads⟩
  tails := eq_update_iff.mpr ⟨htail, hd.tails⟩

/-- The writes that a removal makes after that of the node, when the blocks share its data. -/
inductive Finishing (d : Disk) (node : ℕ) (X Y : List ℕ) : Write → Prop
  | node : Finishing d node X Y (.node node ⟨0, 0⟩)
  | prev (hne : before X node ≠ node) : Finishing d node X Y (.node (before X node)
      ⟨(d.nodes (before X node)).prev, Y.headD (before X node)⟩)

theorem Removed.write (hd : Removed d d' node list X Y) (hn : (X ++ node :: Y).Nodup)
    (hw : Finishing d node X Y w) : Removed d (d'.write w) node list X Y := by
  cases hw with
  | node =>
    refine ⟨update_self .., fun a ha hp hq => ?_, fun hne => ?_, fun hne => ?_, hd.heads, hd.tails⟩
    · rw [nodes_write_node, update_of_ne ha, hd.others a ha hp hq]
    · rw [nodes_write_node, update_of_ne hne, hd.prev hne]
    · rw [nodes_write_node, update_of_ne hne, hd.next hne]
  | prev hne =>
    have hpq : behind Y node ≠ before X node := fun heq =>
      hne (before_ne_behind hn heq.symm)
    refine ⟨?_, fun a ha hp hq => ?_, fun _ => update_self .., fun hq => ?_, hd.heads, hd.tails⟩
    · rw [nodes_write_node, update_of_ne hne.symm, hd.node_eq]
    · rw [nodes_write_node, update_of_ne hp, hd.others a ha hp hq]
    · rw [nodes_write_node, update_of_ne hpq, hd.next hq]

theorem Finishing.isData (hw : Finishing d node X Y w) : w.IsData := by
  cases hw <;> exact trivial

/-- The writes of a removal are those before the node is written, that write, and those after;
before it, the neighbours and the ends have their new values. -/
structure Split (d : Disk) (node list : ℕ) (X Y : List ℕ) (ws W₀ W₁ : List Write) : Prop where
  writes : ws = W₀ ++ .node node ⟨0, 0⟩ :: W₁
  removal : ∀ w ∈ W₀, Removal d node list X Y w
  finishing : ∀ w ∈ W₁, Finishing d node X Y w
  prev : before X node ≠ node →
    ((d.writes W₀).nodes (before X node)).next = Y.headD (before X node)
  next : behind Y node ≠ node →
    ((d.writes W₀).nodes (behind Y node)).prev = X.getLastD (behind Y node)
  head : (d.writes W₀).heads list = (X ++ Y).headD 0
  tail : (d.writes W₀).tails list = (X ++ Y).getLastD 0

theorem removeEnds_spec (h : IsList d list (X ++ node :: Y)) (hno : (X ++ node :: Y).Nodup) :
    ∃ first, removeEnds ⟨d.heads, d.tails⟩ node list (before X node) (behind Y node)
        { d.nodes (before X node) with next := behind Y node }
        { d.nodes (behind Y node) with prev := before X node } =
      (first, if before X node = node then d.nodes node
          else ⟨(d.nodes (before X node)).prev, Y.headD (before X node)⟩,
        if behind Y node = node then d.nodes node
          else ⟨X.getLastD (behind Y node), (d.nodes (behind Y node)).next⟩) ∧
      (∀ w ∈ first, Removal d node list X Y w) ∧
      (behind Y node = node → before X node ≠ node →
        ((d.writes first).nodes (before X node)).next = Y.headD (before X node)) ∧
      (d.writes first).heads list = (X ++ Y).headD 0 ∧
      (d.writes first).tails list = (X ++ Y).getLastD 0 := by
  have hn := h.links.1
  have hnot := (nodup_cons.mp (nodup_middle.mp hno)).1
  have hhead := h.head_eq_or_mem
  have htail := h.tail_eq_or_mem
  rcases eq_nil_or_concat' X with rfl | ⟨X, x, rfl⟩
  · cases Y with
    | nil =>
      have hf : Removal d node list [] [] (.head list 0) := .head rfl
      have hf' : Removal d node list [] [] (.tail list 0) := .tail rfl
      have hh : d.heads list = node := h.head
      have ht : d.tails list = node := h.tail
      refine ⟨[.head list 0, .tail list 0], ?_, ?_, fun _ hne => absurd rfl hne, ?_, ?_⟩
      · simp [removeEnds, hh, ht, before, behind, hn]
      · simp [hf, hf']
      · simp [Disk.write]
      · simp [Disk.write]
    | cons y Y =>
      have hy : y ≠ node := fun heq => hnot (by simp [heq])
      have hmem := htail.resolve_left fun hnil => by cases hnil.1
      have hne : d.tails list ≠ node := fun heq => hnot (heq ▸ hmem)
      have hf : Removal d node list [] (y :: Y) (.head list y) := .head rfl
      have hh : d.heads list = node := h.head
      refine ⟨[.head list y], ?_, ?_, fun _ hne => absurd rfl hne, ?_, ?_⟩
      · simp [removeEnds, hh, hne.symm, before, behind, hn, hy]
      · simpa using hf
      · simp [Disk.write]
      · simpa [Disk.write] using h.tail
  · have hx : x ≠ node := fun heq => hnot (by simp [heq])
    have hmem := hhead.resolve_left fun hnil => by simp at hnil
    have hne : d.heads list ≠ node := fun heq => hnot (heq ▸ mem_append_left _ hmem)
    have hh : d.heads list = (X ++ [x] ++ Y).headD 0 := by
      rw [h.head]
      cases X <;> rfl
    rw [before_concat] at hn ⊢
    cases Y with
    | nil =>
      have ht : Removal d node list (X ++ [x]) [] (.tail list ((X ++ [x]).getLastD 0)) := .tail rfl
      have hp : Removal d node list (X ++ [x]) []
          (.node (before (X ++ [x]) node) ⟨(d.nodes (before (X ++ [x]) node)).prev, x⟩) :=
        .prev rfl fun heq => absurd (before_concat X x node ▸ heq) hx
      rw [getLastD_concat] at ht
      rw [before_concat] at hp
      refine ⟨[.tail list x, .node x ⟨(d.nodes x).prev, x⟩], ?_, ?_, fun _ _ => ?_, ?_, ?_⟩
      · simp [removeEnds, hne, hne.symm, h.tail, behind, hn, hx]
      · simp [ht, hp]
      · simp [Disk.write]
      · simpa [Disk.write] using hh
      · simp [Disk.write]
    | cons y Y =>
      have hy : y ≠ node := fun heq => hnot (by simp [heq])
      have hmem := htail.resolve_left fun hnil => by cases hnil.1
      have hne' : d.tails list ≠ node := fun heq => hnot (heq ▸ mem_append_right _ hmem)
      refine ⟨[], ?_, by simp, fun heq => absurd heq hy, hh, ?_⟩
      · simp [removeEnds, hne.symm, hne'.symm, behind, hx, hy]
      · rw [writes_nil, h.tail]
        simp [getLastD_eq_getLast?]

/-- The order of the writes of a removal, with shared blocks or copies. -/
theorem removeWrites_split (h : WellFormed d ms) (hli : list < kLastElement)
    (hms : ms list = X ++ node :: Y) (shared : Bool) : ∃ W₀ W₁, Split d node list X Y
      (removeWrites d ⟨d.heads, d.tails⟩ shared node list) W₀ W₁ := by
  have hl := h.isList list hli
  have hn := h.nodup list hli
  rw [hms] at hl hn
  obtain ⟨first, he, hf, hp, hh, ht⟩ := removeEnds_spec hl hn
  simp only [removeWrites, congrArg RankingsNode.prev hl.links.1,
    congrArg RankingsNode.next hl.links.1, he]
  -- The blocks of the neighbours as they are written before that of the node.
  have hprev : Removal d node list X Y (.node (before X node) (if before X node = node then
      d.nodes node else ⟨(d.nodes (before X node)).prev, Y.headD (before X node)⟩)) :=
    .prev (by split_ifs with h <;> simp [h]) fun h => if_pos h
  have hnext : Removal d node list X Y (.node (behind Y node) (if behind Y node = node then
      d.nodes node else ⟨X.getLastD (behind Y node), (d.nodes (behind Y node)).next⟩)) :=
    .next (by split_ifs with h <;> simp [h]) fun h => if_pos h
  by_cases hq : shared = true ∧ behind Y node = node
  · refine ⟨first, [.node (before X node) (if before X node = node then ⟨0, 0⟩ else
        ⟨(d.nodes (before X node)).prev, Y.headD (before X node)⟩), .node node ⟨0, 0⟩],
      by simp [hq]; split_ifs <;> rfl, hf, ?_, hp hq.2, fun hne => absurd hq.2 hne, hh, ht⟩
    rw [forall_mem_cons, forall_mem_singleton]
    refine ⟨?_, .node⟩
    split_ifs with h
    · rw [h]
      exact .node
    · exact .prev h
  by_cases hp' : shared = true ∧ before X node = node
  · refine ⟨first ++ [.node (behind Y node) _], [.node node ⟨0, 0⟩],
      by rw [if_neg hq, if_pos hp', hp'.2, append_assoc]; rfl, ?_, by simp [Finishing.node],
      fun hne => absurd hp'.2 hne, fun hne => ?_, ?_, ?_⟩
    · exact forall_mem_append.mpr ⟨hf, forall_mem_singleton.mpr hnext⟩
    · simp [writes_append, Disk.write, hne]
    · simpa [writes_append, Disk.write] using hh
    · simpa [writes_append, Disk.write] using ht
  · refine ⟨first ++ [.node (behind Y node) _, .node (before X node) _], [],
      by rw [if_neg hq, if_neg hp', append_assoc]; rfl, ?_, by simp, fun hne => ?_,
      fun hne => ?_, ?_, ?_⟩
    · exact forall_mem_append.mpr ⟨hf, forall_mem_cons.mpr ⟨hnext, forall_mem_singleton.mpr hprev⟩⟩
    · simp [writes_append, Disk.write, hne]
    · have hpq : behind Y node ≠ before X node := fun heq =>
        hne (heq.trans (before_ne_behind hn heq.symm))
      simp [writes_append, Disk.write, hne, hpq]
    · simpa [writes_append, Disk.write] using hh
    · simpa [writes_append, Disk.write] using ht

theorem prefix_append_cases {W₀ V : List Write} (h : ws <+: W₀ ++ V) :
    ws <+: W₀ ∨ ∃ t, ws = W₀ ++ t ∧ t <+: V := by
  obtain ⟨u, hu⟩ := h
  rcases append_eq_append_iff.mp hu with ⟨t, hW, -⟩ | ⟨t, hws, hV⟩
  · exact .inl ⟨t, hW.symm⟩
  · exact .inr ⟨t, hws, ⟨u, hV.symm⟩⟩

/-- A removal is undone or completed after a crash at any of its writes. -/
theorem remove_crash (h : WellFormed d ms) (hli : list < kLastElement)
    (hms : ms list = X ++ node :: Y) (shared : Bool)
    (hws : ws <+: removeWrites d ⟨d.heads, d.tails⟩ shared node list) :
    (init (d.writes (lock node kRemove list ++ ws))).transaction = 0 ∧
      (WellFormed (init (d.writes (lock node kRemove list ++ ws))) ms ∨
        WellFormed (init (d.writes (lock node kRemove list ++ ws))) (update ms list (X ++ Y))) := by
  have hno := h.nodup list hli
  have hnod := h.valid list hli node (by rw [hms]; simp)
  rw [hms] at hno
  obtain ⟨W₀, W₁, hs⟩ := removeWrites_split h hli hms shared
  rw [hs.writes] at hws
  have hl := locked_lock d node kRemove list
  rw [writes_append]
  obtain ⟨start, hstart⟩ : ∃ start, d.writes (lock node kRemove list) = start := ⟨_, rfl⟩
  have hsa : start.nodes = d.nodes ∧ start.heads = d.heads ∧ start.tails = d.tails := by
    subst hstart
    exact ⟨rfl, rfl, rfl⟩
  rw [hstart] at hl ⊢
  have hst : Removing d start node list X Y := by
    subst hstart
    exact ⟨rfl, fun _ _ _ => rfl, rfl, rfl, fun _ _ => rfl, fun _ _ => rfl, .inl rfl, .inl rfl⟩
  have hu : ∀ {ws : List Write}, (∀ w ∈ ws, Removal d node list X Y w) →
      (init (start.writes ws)).transaction = 0 ∧ WellFormed (init (start.writes ws)) ms := by
    intro ws hr
    have hl' := hl.writes fun w hw => (hr w hw).isData
    obtain ⟨ht, hn, hh, hta⟩ := (hst.writes hno hr).init h hli hms hl'
    exact ⟨ht, { h with
      isList := fun i hi =>
        (h.isList i hi).congr (fun a _ => by rw [hn]) (by rw [hh]) (by rw [hta]) }⟩
  rcases prefix_append_cases hws with hws | ⟨t, rfl, ht⟩
  · exact (hu fun w hw => hs.removal w (hws.subset hw)).imp_right .inl
  · rcases prefix_cons_iff.mp ht with rfl | ⟨t, rfl, ht₁⟩
    · rw [append_nil]
      exact (hu hs.removal).imp_right .inl
    · obtain ⟨hn, hh, hta⟩ := writes_congr hsa W₀
      have hre := (hst.writes hno hs.removal).finish
        (by rw [hn]; exact hs.prev) (by rw [hn]; exact hs.next)
        (by rw [hh]; exact hs.head) (by rw [hta]; exact hs.tail)
      have hf : ∀ w ∈ t, Finishing d node X Y w := fun w hw =>
        hs.finishing w (ht₁.subset hw)
      have hda : ∀ w ∈ W₀ ++ .node node ⟨0, 0⟩ :: t, w.IsData := forall_mem_append.mpr
        ⟨fun w hw => (hs.removal w hw).isData,
          forall_mem_cons.mpr ⟨trivial, fun w hw => (hf w hw).isData⟩⟩
      have hl' := hl.writes hda
      rw [writes_append, writes_cons] at hl' ⊢
      obtain ⟨ht', hd⟩ := (foldlRecOn (motive := (Removed d · node list X Y)) t _ hre
        fun _ hd w hw => hd.write hno (hf w hw)).init hnod hl'
      exact ⟨ht', .inr (hd.wellFormed h hli hms)⟩

end Remove

end ChromiumBase.Rankings
