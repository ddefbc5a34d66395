import ChromiumBase.Net.DiskCache.Blockfile.RankingsLists

/-!
# Recovery of an insertion

After a crash in the middle of `Insert`, what is on the disk is a state between two well-formed
ones: the head that was may be linked to the node already, and the node and, in an empty list,
the tail may have been written.  `Init` makes the insertion again from any such state.
-/

open Function List

namespace ChromiumBase.Rankings

open DoublyLinked

variable {d d' : Disk} {ms : ℕ → List ℕ} {node list x : ℕ} {ws : List Write}

/-- The members of a list, before and after `node` is inserted in front. -/
structure Inserted (d d' : Disk) (node list : ℕ) (l : List ℕ) : Prop where
  node_eq : d'.nodes node = ⟨node, l.headD node⟩
  next : ∀ a, a ≠ node → (d'.nodes a).next = (d.nodes a).next
  prev_head : ∀ a, a ≠ node → l.head? = some a → (d'.nodes a).prev = node
  prev : ∀ a, a ≠ node → l.head? ≠ some a → (d'.nodes a).prev = (d.nodes a).prev
  heads : d'.heads = update d.heads list node
  tails : d'.tails = update d.tails list (l.getLastD node)

theorem Inserted.wellFormed (h : WellFormed d ms) (hli : list < kLastElement) (hn : ValidAddr node)
    (hnew : ∀ i < kLastElement, node ∉ ms i) (hd : Inserted d d' node list (ms list)) :
    WellFormed d' (update ms list (node :: ms list)) := by
  have hne : ∀ i < kLastElement, ∀ a ∈ ms i, a ≠ node := by
    rintro i hi a ha rfl
    exact hnew i hi ha
  have hl := h.isList list hli
  refine h.update ⟨?_, ?_, ?_⟩ (nodup_cons.mpr ⟨hnew list hli, h.nodup list hli⟩)
    ?_ (forall_mem_cons.mpr ⟨hn, h.valid list hli⟩) ?_ ?_ ?_
  · refine hl.linked.cons (h.nodup list hli) (by rw [hd.node_eq]) (by rw [hd.node_eq])
      (fun a ha => hd.prev_head a (hne list hli a ha))
      (fun a ha => hd.prev a (hne list hli a ha)) fun a ha => hd.next a (hne list hli a ha)
  · rw [hd.heads, update_self]
    rfl
  · rw [hd.tails, update_self, getLastD_cons]
  · intro i hi hil a ha hmem
    rcases mem_cons.mp hmem with rfl | hmem
    · exact hnew i hi ha
    · exact hil (h.disjoint i hi list hli a ha hmem)
  · intro i hi hil a ha
    have hh : (ms list).head? ≠ some a := fun hh =>
      hil (h.disjoint i hi list hli a ha (mem_of_head? hh))
    exact RankingsNode.ext' (hd.prev a (hne i hi a ha) hh) (hd.next a (hne i hi a ha))
  · exact fun i hi => by rw [hd.heads, update_of_ne hi]
  · exact fun i hi => by rw [hd.tails, update_of_ne hi]

/-- A part of the writes of an insertion has been made, but not the one of the head. -/
structure Inserting (d d' : Disk) (node list : ℕ) (l : List ℕ) : Prop where
  next : ∀ a, a ≠ node → (d'.nodes a).next = (d.nodes a).next
  prev_head : ∀ a, a ≠ node → l.head? = some a →
    (d'.nodes a).prev = a ∨ (d'.nodes a).prev = node
  prev : ∀ a, a ≠ node → l.head? ≠ some a → (d'.nodes a).prev = (d.nodes a).prev
  heads : d'.heads = d.heads
  tails : d'.tails = d.tails ∨ l = [] ∧ d'.tails = update d.tails list node

theorem IsList.prev_head {i : ℕ} {l : List ℕ} (h : IsList d i l) {a : ℕ}
    (ha : l.head? = some a) : (d.nodes a).prev = a := by
  obtain ⟨t, rfl⟩ := head?_eq_some_iff.mp ha
  exact h.linked.prev_eq (X := []) rfl

theorem inserting_start (h : WellFormed d ms) (hl : list < kLastElement) (hn : d'.nodes = d.nodes)
    (hh : d'.heads = d.heads) (ht : d'.tails = d.tails) : Inserting d d' node list (ms list) where
  next a _ := by rw [hn]
  prev_head a _ ha := by
    rw [hn]
    exact .inl ((h.isList list hl).prev_head ha)
  prev a _ _ := by rw [hn]
  heads := hh
  tails := .inl ht

section Insert

variable {l : List ℕ}

theorem Inserting.write_node (hd : Inserting d d' node list l) (data : RankingsNode) :
    Inserting d (d'.write (.node node data)) node list l where
  next a ha := by
    rw [nodes_write_node, update_of_ne ha]
    exact hd.next a ha
  prev_head a ha hh := by
    rw [nodes_write_node, update_of_ne ha]
    exact hd.prev_head a ha hh
  prev a ha hh := by
    rw [nodes_write_node, update_of_ne ha]
    exact hd.prev a ha hh
  heads := hd.heads
  tails := hd.tails

theorem Inserting.write_head (hd : Inserting d d' node list l) (hx : l.head? = some x)
    (hne : x ≠ node) :
    Inserting d (d'.write (.node x { d'.nodes x with prev := node })) node list l where
  next a ha := by
    rw [nodes_write_node, update_apply]
    split_ifs with hax
    · exact hax ▸ hd.next x hne
    · exact hd.next a ha
  prev_head a ha hh := by
    rw [nodes_write_node, update_apply]
    split_ifs
    · exact .inr rfl
    · exact hd.prev_head a ha hh
  prev a ha hh := by
    have hax : a ≠ x := by
      rintro rfl
      exact hh hx
    rw [nodes_write_node, update_of_ne hax]
    exact hd.prev a ha hh
  heads := hd.heads
  tails := hd.tails

theorem Inserting.write_tail (hd : Inserting d d' node list []) :
    Inserting d (d'.write (.tail list node)) node list [] := by
  refine { hd with tails := .inr ⟨rfl, ?_⟩ }
  rw [tails_write_tail]
  rcases hd.tails with ht | ⟨-, ht⟩
  · rw [ht]
  · rw [ht, update_idem]

theorem insertWrites_nil {m : Lists} (hh : m.heads list = 0)
    (ht : m.tails list = 0 ∨ m.tails list = node) :
    insertWrites d m node list = [.tail list node, .node node ⟨node, node⟩, .head list node] := by
  have ha : (!Addr.isInitialized (m.tails list) || m.tails list = node) = true := by
    rcases ht with ht | ht <;> simp [ht, isInitialized_zero]
  simp [insertWrites, hh, isInitialized_zero, ha]

section

variable (h : WellFormed d ms) (hli : list < kLastElement)

include h hli

theorem WellFormed.ends {t : List ℕ} (hl : ms list = x :: t) :
    d.heads list = x ∧ d.tails list = t.getLastD x ∧
      t.getLastD x ∈ ms list ∧ (d.nodes x).next = t.headD x := by
  have hla := h.isList list hli
  rw [hl] at hla ⊢
  refine ⟨hla.head, ?_, ?_, hla.linked.next_eq (X := []) rfl⟩
  · rw [hla.tail, getLastD_cons]
  · rcases eq_nil_or_concat' t with rfl | ⟨t, y, rfl⟩
    · exact mem_cons_self
    · simp

/-- The writes of an insertion, made for the first time or once more by the recovery. -/
theorem Inserting.insertWrites_cases
    (hnew : node ∉ ms list) (hd : Inserting d d' node list (ms list)) :
    ms list = [] ∧ insertWrites d' ⟨d'.heads, d'.tails⟩ node list =
        [.tail list node, .node node ⟨node, node⟩, .head list node] ∨
      ∃ x t, ms list = x :: t ∧ x ≠ node ∧ d'.tails = d.tails ∧ d.tails list = t.getLastD x ∧
        insertWrites d' ⟨d'.heads, d'.tails⟩ node list =
          [.node x { d'.nodes x with prev := node }, .node node ⟨node, x⟩, .head list node] := by
  have hl := h.isList list hli
  cases hms : ms list with
  | nil =>
    rw [hms] at hd hl
    refine .inl ⟨rfl, insertWrites_nil (by rw [hd.heads]; exact hl.head) ?_⟩
    rcases hd.tails with ht | ⟨-, ht⟩
    · exact .inl ((congrFun ht list).trans hl.tail)
    · exact .inr ((congrFun ht list).trans (update_self ..))
  | cons x t =>
    obtain ⟨hh, hta, hla, -⟩ := h.ends hli hms
    have hx : x ∈ ms list := by rw [hms]; exact mem_cons_self
    have ht : d'.tails = d.tails := hd.tails.resolve_right fun hnil => by
      rw [hms] at hnil
      cases hnil.1
    rw [← hta, ← ht] at hla
    exact .inr ⟨x, t, rfl, fun heq => hnew (heq ▸ hx), ht, hta, by
      simp [insertWrites, hd.heads, hh, (h.valid list hli x hx).isInitialized,
        (h.valid list hli _ hla).isInitialized,
        show d'.tails list ≠ node from fun heq => hnew (heq ▸ hla)]⟩

/-- Whatever part of them was made before, the writes complete the insertion. -/
theorem Inserting.inserted (hnew : node ∉ ms list) (hd : Inserting d d' node list (ms list)) :
    Inserted d (d'.writes (insertWrites d' ⟨d'.heads, d'.tails⟩ node list)) node list
      (ms list) := by
  rcases hd.insertWrites_cases h hli hnew with ⟨hms, hws⟩ | ⟨x, t, hms, hxn, ht, hta, hws⟩ <;>
    rw [hws] <;> rw [hms] at hd ⊢
  · have hdo := hd.write_tail.write_node ⟨node, node⟩
    refine ⟨update_self .., hdo.next, fun a _ ha => (by cases ha), hdo.prev, ?_, ?_⟩
    · simp only [writes_cons, writes_nil, Disk.write, hd.heads]
    · rcases hd.tails with ht | ⟨-, ht⟩
      · simp only [writes_cons, writes_nil, Disk.write, ht, getLastD_nil]
      · simp only [writes_cons, writes_nil, Disk.write, ht, getLastD_nil, update_idem]
  · have hdo := (hd.write_head rfl hxn).write_node ⟨node, x⟩
    refine ⟨update_self .., hdo.next, fun a ha hhd => ?_, hdo.prev, ?_, ?_⟩
    · cases hhd
      simp only [writes_cons, writes_nil, Disk.write]
      rw [update_of_ne hxn, update_self]
    · simp only [writes_cons, writes_nil, Disk.write, hd.heads]
    · rw [getLastD_cons, ← hta]
      simp only [writes_cons, writes_nil, Disk.write, ht, update_eq_self]

theorem Inserting.headIsValid
    (hnod : ValidAddr node) (hnew : node ∉ ms list) (hd : Inserting d d' node list (ms list)) :
    headIsValid d' ⟨d'.heads, d'.tails⟩ node list = true := by
  have hl := h.isList list hli
  cases hms : ms list with
  | nil =>
    have hh : d'.heads list = 0 := by rw [hd.heads, hl.head, hms]; rfl
    simp [Rankings.headIsValid, hh, isInitialized_zero]
  | cons x t =>
    obtain ⟨hh, hta, hla, hn⟩ := h.ends hli hms
    have hx : x ∈ ms list := by rw [hms]; exact mem_cons_self
    have hv := h.valid list hli x hx
    have hxn : x ≠ node := fun heq => hnew (heq ▸ hx)
    have hh' : d'.heads list = x := by rw [hd.heads, hh]
    have hp := hd.prev_head x hxn (by rw [hms]; rfl)
    have hn' : (d'.nodes x).next = t.headD x := by rw [hd.next x hxn, hn]
    have ht : d'.tails = d.tails := hd.tails.resolve_right fun hnil => by
      rw [hms] at hnil
      cases hnil.1
    have hget : getRanking d' ⟨d'.heads, d'.tails⟩ x = some (d'.nodes x) := by
      refine getRanking_eq_some hv ?_ ?_ (fun _ => isHead_isSome hli hh') fun heq => ?_
      · rcases hp with hp | hp
        · rw [hp]
          exact hv
        · rw [hp]
          exact hnod
      · rw [hn']
        refine h.valid list hli _ ?_
        rw [hms]
        cases t with
        | nil => exact mem_cons_self
        | cons y t => simp
      · -- the head is its own successor only if it is alone
        refine isTail_isSome hli ?_
        have hno := h.nodup list hli
        rw [hms] at hno
        cases t with
        | nil => exact (congrFun ht list).trans hta
        | cons y t =>
          rw [heq] at hn'
          exact absurd hn' fun hxy => (nodup_cons.mp hno).1 (hxy ▸ by simp)
    simp only [Rankings.headIsValid, hh', hv.isInitialized, hget]
    simpa using hp

end

/-- An insertion that was interrupted is made again. -/
theorem Inserting.init (h : WellFormed d ms) (hl : list < kLastElement)
    (hn : ValidAddr node) (hnew : node ∉ ms list)
    (hlo : Locked d' node kInsert list) (hd : Inserting d d' node list (ms list)) :
    (init d').transaction = 0 ∧ Inserted d (init d') node list (ms list) := by
  have hhe : d'.heads list ≠ node := by
    rw [hd.heads, (h.isList list hl).head]
    cases hms : ms list with
    | nil => exact hn.ne_zero.symm
    | cons x t =>
      intro heq
      exact hnew (by rw [hms, ← heq]; exact mem_cons_self)
  have hf : finishInsert d' ⟨d'.heads, d'.tails⟩ node =
      [.transaction 0, .operation 0] ++ (lock node kInsert list ++
        insertWrites d' ⟨d'.heads, d'.tails⟩ node list ++ unlock) := by
    rw [finishInsert, hlo.operationList, if_pos hhe, insert,
      hd.headIsValid h hl hn hnew, if_pos rfl]
  rw [init_of_transaction hn hlo.transaction, completeTransaction_insert hn hlo,
    hf, writes_cons, writes_rewrite]
  rw [← append_assoc, ← append_assoc, writes_append]
  refine ⟨rfl, ?_⟩
  -- the transaction and the lock leave the blocks and the ends as they are
  have hloc : Inserting d (d'.writes ([.transaction 0, .operation 0] ++ lock node kInsert list))
      node list (ms list) := { hd with }
  exact { hloc.inserted h hl hnew with }

/-- An insertion that was finished, but for its lock. -/
theorem Inserted.init (hn : ValidAddr node) (hl : Locked d' node kInsert list)
    (hd : Inserted d d' node list l) :
    (init d').transaction = 0 ∧ Inserted d (init d') node list l := by
  have hf : finishInsert d' ⟨d'.heads, d'.tails⟩ node = [.transaction 0, .operation 0] := by
    rw [finishInsert, hl.operationList, hd.heads, if_neg, append_nil]
    rw [not_not]
    exact update_self ..
  rw [init_of_transaction hn hl.transaction, completeTransaction_insert hn hl,
    hf, writes_cons, writes_rewrite]
  exact ⟨rfl, { hd with }⟩

theorem insertWrites_isData (d : Disk) (m : Lists) (node list : ℕ) :
    ∀ w ∈ insertWrites d m node list, w.IsData := by
  intro w hw
  simp only [insertWrites, mem_append, mem_cons, not_mem_nil, or_false] at hw
  rcases hw with (hw | hw) | rfl | rfl
  · split at hw
    · rw [mem_singleton.mp hw]
      exact trivial
    · cases hw
  · split at hw
    · rw [mem_singleton.mp hw]
      exact trivial
    · cases hw
  · exact trivial
  · exact trivial

theorem Inserting.writes (h : WellFormed d ms) (hli : list < kLastElement) (hnew : node ∉ ms list)
    (hs : d'.nodes = d.nodes ∧ d'.heads = d.heads ∧ d'.tails = d.tails)
    (hws : ws <+: insertWrites d' ⟨d'.heads, d'.tails⟩ node list) :
    Inserting d (d'.writes ws) node list (ms list) ∨
      Inserted d (d'.writes ws) node list (ms list) := by
  have hd : Inserting d d' node list (ms list) := inserting_start h hli hs.1 hs.2.1 hs.2.2
  have hdo := hd.inserted h hli hnew
  rcases hd.insertWrites_cases h hli hnew with ⟨hms, heq⟩ | ⟨x, t, hms, hxn, -, -, heq⟩ <;>
    rw [heq] at hws hdo <;> rw [hms] at hd hdo ⊢ <;>
    simp only [prefix_cons_iff, prefix_nil] at hws <;>
    rcases hws with rfl | ⟨_, rfl, rfl | ⟨_, rfl, rfl | ⟨_, rfl, rfl⟩⟩⟩
  · exact .inl hd
  · exact .inl hd.write_tail
  · exact .inl (hd.write_tail.write_node _)
  · exact .inr hdo
  · exact .inl hd
  · exact .inl (hd.write_head rfl hxn)
  · exact .inl ((hd.write_head rfl hxn).write_node _)
  · exact .inr hdo

/-- An insertion is completed after a crash at any of its writes. -/
theorem insert_crash (h : WellFormed d ms) (hl : list < kLastElement) (hn : ValidAddr node)
    (hnew : ∀ i < kLastElement, node ∉ ms i)
    (hws : ws <+: insertWrites d ⟨d.heads, d.tails⟩ node list) :
    (init (d.writes (lock node kInsert list ++ ws))).transaction = 0 ∧
      WellFormed (init (d.writes (lock node kInsert list ++ ws)))
        (update ms list (node :: ms list)) := by
  have hda : ∀ w ∈ ws, w.IsData := fun w hw =>
    insertWrites_isData _ _ _ _ w (hws.subset hw)
  have hlo := (locked_lock d node kInsert list).writes hda
  have hc : Inserting d ((d.writes (lock node kInsert list)).writes ws) node list (ms list) ∨
      Inserted d ((d.writes (lock node kInsert list)).writes ws) node list (ms list) :=
    Inserting.writes h hl (hnew list hl) ⟨rfl, rfl, rfl⟩ hws
  rcases hc with hmid | hdo
  · obtain ⟨ht, hd⟩ := hmid.init h hl hn (hnew list hl) hlo
    exact ⟨ht, hd.wellFormed h hl hn hnew⟩
  · obtain ⟨ht, hd⟩ := hdo.init hn hlo
    exact ⟨ht, hd.wellFormed h hl hn hnew⟩

end Insert

end ChromiumBase.Rankings
