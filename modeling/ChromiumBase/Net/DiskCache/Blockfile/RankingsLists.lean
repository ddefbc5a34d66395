import ChromiumBase.Lib.DoublyLinked
import ChromiumBase.Net.DiskCache.Blockfile.Rankings

/-!
# Well-formed LRU lists

The lists that the control data and the links of the blocks describe, and the writes to them.
-/

open Function List

namespace ChromiumBase.Rankings

open DoublyLinked

structure ValidAddr (a : ℕ) : Prop where
  isInitialized : Addr.isInitialized a = true
  fileType : Addr.fileType a = Addr.rankings
  sanityCheck : Addr.sanityCheck a = true

theorem isInitialized_zero : Addr.isInitialized 0 = false := by decide

variable {a i : ℕ} {m : Lists} {l : List ℕ}

theorem ValidAddr.ne_zero (ha : ValidAddr a) : a ≠ 0 := by
  rintro rfl
  exact absurd ha.isInitialized (by decide)

theorem ValidAddr.isSeparateFile (ha : ValidAddr a) : Addr.isSeparateFile a = false := by
  have ht := ha.fileType
  unfold Addr.isSeparateFile Addr.fileType Addr.rankings at *
  by_contra hsep
  simp only [Bool.not_eq_false, decide_eq_true_eq] at hsep
  rw [hsep] at ht
  cases ht

/-- The list between a head and a tail, which are zero when it is empty. -/
structure IsList (d : Disk) (i : ℕ) (l : List ℕ) : Prop where
  linked : Linked (fun a => (d.nodes a).prev) (fun a => (d.nodes a).next) l
  head : d.heads i = l.headD 0
  tail : d.tails i = l.getLastD 0

structure WellFormed (d : Disk) (ms : ℕ → List ℕ) : Prop where
  isList : ∀ i < kLastElement, IsList d i (ms i)
  nodup : ∀ i < kLastElement, (ms i).Nodup
  disjoint : ∀ i < kLastElement, ∀ j < kLastElement, ∀ a, a ∈ ms i → a ∈ ms j → i = j
  valid : ∀ i < kLastElement, ∀ a ∈ ms i, ValidAddr a

variable {d d' : Disk} {ms : ℕ → List ℕ} {node list : ℕ}

theorem IsList.congr (h : IsList d i l) (hn : ∀ a ∈ l, d'.nodes a = d.nodes a)
    (hh : d'.heads i = d.heads i) (ht : d'.tails i = d.tails i) : IsList d' i l where
  linked := h.linked.congr (fun a ha => by rw [hn a ha]) fun a ha => by rw [hn a ha]
  head := by rw [hh, h.head]
  tail := by rw [ht, h.tail]

theorem IsList.head_mem (h : IsList d i l) (hne : l ≠ []) : d.heads i ∈ l := by
  obtain ⟨x, l, rfl⟩ := exists_cons_of_ne_nil hne
  exact h.head ▸ mem_cons_self

theorem IsList.tail_mem (h : IsList d i l) (hne : l ≠ []) : d.tails i ∈ l := by
  obtain ⟨l, x, rfl⟩ := (eq_nil_or_concat' l).resolve_left hne
  rw [h.tail]
  simp

theorem WellFormed.update (h : WellFormed d ms) (hl : IsList d' list l) (hno : l.Nodup)
    (hf : ∀ i < kLastElement, i ≠ list → ∀ a ∈ ms i, a ∉ l) (hv : ∀ a ∈ l, ValidAddr a)
    (hn : ∀ i < kLastElement, i ≠ list → ∀ a ∈ ms i, d'.nodes a = d.nodes a)
    (hh : ∀ i, i ≠ list → d'.heads i = d.heads i) (ht : ∀ i, i ≠ list → d'.tails i = d.tails i) :
    WellFormed d' (Function.update ms list l) where
  isList := (forall_update_iff ms fun i l => i < kLastElement → IsList d' i l).mpr
    ⟨fun _ => hl, fun i heq hi => (h.isList i hi).congr (hn i hi heq) (hh i heq) (ht i heq)⟩
  nodup := (forall_update_iff ms fun i l => i < kLastElement → l.Nodup).mpr
    ⟨fun _ => hno, fun i _ => h.nodup i⟩
  disjoint i hi j hj a hai haj := by
    rw [update_apply] at hai haj
    split_ifs at hai haj with heq heq'
    · rw [heq, heq']
    · exact absurd hai (hf j hj heq' a haj)
    · exact absurd haj (hf i hi heq a hai)
    · exact h.disjoint i hi j hj a hai haj
  valid := (forall_update_iff ms fun i l => i < kLastElement → ∀ a ∈ l, ValidAddr a).mpr
    ⟨fun _ => hv, fun i _ => h.valid i⟩

theorem RankingsNode.ext' {x y : RankingsNode} (h₁ : x.prev = y.prev) (h₂ : x.next = y.next) :
    x = y := by
  cases x
  simp_all

@[simp] theorem writes_nil (d : Disk) : d.writes [] = d := rfl

@[simp] theorem writes_cons (d : Disk) (w : Write) (ws : List Write) :
    d.writes (w :: ws) = (d.write w).writes ws := rfl

theorem writes_append (d : Disk) (ws ws' : List Write) :
    d.writes (ws ++ ws') = (d.writes ws).writes ws' := foldl_append ..

theorem writes_congr (h : d'.nodes = d.nodes ∧ d'.heads = d.heads ∧ d'.tails = d.tails)
    (ws : List Write) : (d'.writes ws).nodes = (d.writes ws).nodes ∧
      (d'.writes ws).heads = (d.writes ws).heads ∧ (d'.writes ws).tails = (d.writes ws).tails := by
  induction ws generalizing d d' with
  | nil => exact h
  | cons w ws ih =>
    refine ih ?_
    cases w <;> simp [Disk.write, h]

theorem nodes_write_node (d : Disk) (address : ℕ) (data : RankingsNode) :
    (d.write (.node address data)).nodes = Function.update d.nodes address data := rfl

theorem heads_write_head (d : Disk) (i value : ℕ) :
    (d.write (.head i value)).heads = Function.update d.heads i value := rfl

theorem tails_write_tail (d : Disk) (i value : ℕ) :
    (d.write (.tail i value)).tails = Function.update d.tails i value := rfl

def Write.IsData : Write → Prop
  | .node _ _ | .head _ _ | .tail _ _ => True
  | _ => False

theorem writes_rewrite (d : Disk) (a : ℕ) : d.write (.node a (d.nodes a)) = d := by
  rw [Disk.write, update_eq_self]

structure Locked (d : Disk) (node op list : ℕ) : Prop where
  transaction : d.transaction = node
  operation : d.operation = op
  operationList : d.operationList = list

theorem completeTransaction_insert (hn : ValidAddr node) (hl : Locked d node kInsert list) :
    completeTransaction d m = .node node (d.nodes node) :: finishInsert d m node := by
  simp only [completeTransaction, hl.transaction, hl.operation, hn.isInitialized,
    hn.isSeparateFile, Bool.not_true, Bool.or_self, if_true, Bool.false_eq_true, if_false]

theorem completeTransaction_remove (hn : ValidAddr node) (hl : Locked d node kRemove list) :
    completeTransaction d m = .node node (d.nodes node) :: revertRemove d m node := by
  have hne : ¬ kRemove = kInsert := by decide
  simp only [completeTransaction, hl.transaction, hl.operation, hn.isInitialized, hn.isSeparateFile,
    Bool.not_true, Bool.or_self, if_true, Bool.false_eq_true, if_false, if_neg hne]

theorem init_of_transaction (hn : ValidAddr node) (ht : d.transaction = node) :
    init d = d.writes (completeTransaction d ⟨d.heads, d.tails⟩) := by
  rw [init, if_pos (ht ▸ hn.ne_zero)]

theorem Locked.writes {op : ℕ} (h : Locked d node op list) {ws : List Write}
    (hws : ∀ w ∈ ws, w.IsData) : Locked (d.writes ws) node op list := by
  refine foldlRecOn (motive := (Locked · node op list)) ws _ h fun d h w hw => ?_
  cases w with
  | node | head | tail => exact ⟨h.transaction, h.operation, h.operationList⟩
  | transaction | operation | operationList => exact (hws _ hw).elim

theorem locked_lock (d : Disk) (node op list : ℕ) :
    Locked (d.writes (lock node op list)) node op list := ⟨rfl, rfl, rfl⟩

theorem isHead_isSome (hl : list < kLastElement) (ha : m.heads list = a) : (m.isHead a).isSome := by
  rw [Lists.isHead, find?_isSome]
  exact ⟨list, mem_range.mpr hl, by simp [ha]⟩

theorem isTail_isSome (hl : list < kLastElement) (ha : m.tails list = a) : (m.isTail a).isSome := by
  rw [Lists.isTail, find?_isSome]
  exact ⟨list, mem_range.mpr hl, by simp [ha]⟩

/-- A block with links to valid addresses, and to itself only at the ends of a list. -/
theorem getRanking_eq_some (ha : ValidAddr a) (hpr : ValidAddr (d.nodes a).prev)
    (hne : ValidAddr (d.nodes a).next) (hh : (d.nodes a).prev = a → (m.isHead a).isSome)
    (ht : (d.nodes a).next = a → (m.isTail a).isSome) : getRanking d m a = some (d.nodes a) := by
  have hp := hpr.ne_zero
  have hn := hne.ne_zero
  have hend {f : ℕ → Option ℕ} {b : ℕ} (hf : b = a → (f a).isSome) :
      ¬ (a = b ∧ (f b).isNone) := by
    rintro ⟨rfl, hno⟩
    rw [Option.isNone_iff_eq_none.mp hno] at hf
    exact absurd (hf rfl) (by decide)
  have hc : sanityCheck m a (d.nodes a) true = true := by
    rw [sanityCheck, if_neg (by simp [hp, hn]), if_neg (by simp [hp]), if_neg (hend hh),
      if_neg (hend ht), if_neg (by simp [hp])]
    simp [hpr.sanityCheck, hpr.fileType, hne.sanityCheck, hne.fileType]
  rw [getRanking, if_pos (by rw [ha.isInitialized, hc]; rfl)]

end ChromiumBase.Rankings
