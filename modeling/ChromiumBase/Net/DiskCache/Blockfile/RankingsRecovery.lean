import ChromiumBase.Net.DiskCache.Blockfile.RankingsInsert
import ChromiumBase.Net.DiskCache.Blockfile.RankingsRemove

/-!
# Recovery of the LRU lists

On well-formed lists, `Insert` and `Remove` pass all their checks.  A crash after any of the
writes that they make under their lock is repaired by `Init`.
-/

open List

namespace ChromiumBase.Rankings

open DoublyLinked

variable {d d' : Disk} {ms : ℕ → List ℕ} {node list : ℕ}

theorem WellFormed.find?_end (h : WellFormed d ms) (hl : list < kLastElement) {ends : ℕ → ℕ}
    (hmem : ∀ i < kLastElement, ends i = node → node ∈ ms i) (he : ends list = node) :
    (range kLastElement).find? (fun i => node = ends i) = some list := by
  refine find?_range_eq_some.mpr ⟨by simp [he], mem_range.mpr hl, fun i hi => ?_⟩
  have hlt := hi.trans hl
  simpa using fun heq => hi.ne
    (h.disjoint i hlt list hl node (hmem i hlt heq.symm) (hmem list hl he))

theorem WellFormed.isHead (h : WellFormed d ms) (hl : list < kLastElement) (hn : ValidAddr node)
    (hh : d.heads list = node) : (⟨d.heads, d.tails⟩ : Lists).isHead node = some list := by
  refine h.find?_end hl (fun i hi (heq : d.heads i = node) => ?_) hh
  rw [← heq] at hn ⊢
  exact (h.isList i hi).head_mem fun hms => hn.ne_zero (by rw [(h.isList i hi).head, hms]; rfl)

theorem WellFormed.isTail (h : WellFormed d ms) (hl : list < kLastElement) (hn : ValidAddr node)
    (ht : d.tails list = node) : (⟨d.heads, d.tails⟩ : Lists).isTail node = some list := by
  refine h.find?_end hl (fun i hi (heq : d.tails i = node) => ?_) ht
  rw [← heq] at hn ⊢
  exact (h.isList i hi).tail_mem fun hms => hn.ne_zero (by rw [(h.isList i hi).tail, hms]; rfl)

theorem eq_nil_of_before {X Y : List ℕ} (hn : (X ++ node :: Y).Nodup)
    (heq : before X node = node) : X = [] := by
  by_contra hX
  obtain ⟨X, x, rfl⟩ := (eq_nil_or_concat' X).resolve_left hX
  rw [before_concat] at heq
  exact (nodup_cons.mp (nodup_middle.mp hn)).1 (by simp [heq])

theorem eq_nil_of_behind {X Y : List ℕ} (hn : (X ++ node :: Y).Nodup)
    (heq : behind Y node = node) : Y = [] := by
  cases Y with
  | nil => rfl
  | cons y Y =>
    have hy : y = node := heq
    exact absurd (by simp [hy]) (nodup_cons.mp (nodup_middle.mp hn)).1

section

variable (h : WellFormed d ms)

include h

theorem WellFormed.getRanking (hli : list < kLastElement)
    (hmem : node ∈ ms list) : getRanking d ⟨d.heads, d.tails⟩ node = some (d.nodes node) := by
  obtain ⟨X, Y, hms⟩ := append_of_mem hmem
  have hl := h.isList list hli
  have hno := h.nodup list hli
  have hv := h.valid list hli
  rw [hms] at hl hno hv
  have hn := hl.links.1
  refine getRanking_eq_some (hv node (by simp)) ?_ ?_ (fun heq => ?_) fun heq => ?_
  · rw [hn]
    exact hv _ (before_mem X Y node)
  · rw [hn]
    exact hv _ (behind_mem X Y node)
  · rw [hn] at heq
    obtain rfl := eq_nil_of_before hno heq
    exact isHead_isSome hli hl.head
  · rw [hn] at heq
    obtain rfl := eq_nil_of_behind hno heq
    exact isTail_isSome hli (hl.tail.trans (getLastD_concat ..))

theorem WellFormed.checkLinks {X Y : List ℕ} (hli : list < kLastElement)
    (hms : ms list = X ++ node :: Y) :
    checkLinks ⟨d.heads, d.tails⟩ node (before X node) (behind Y node) (d.nodes (before X node))
      (d.nodes (behind Y node)) list = .ok list := by
  have hl := h.isList list hli
  have hno := h.nodup list hli
  have hv : ValidAddr node := h.valid list hli node (by rw [hms]; simp)
  rw [hms] at hl hno
  obtain ⟨hn, hpr, hne⟩ := hl.links
  by_cases hp : before X node = node
  · obtain rfl := eq_nil_of_before hno hp
    by_cases hq : behind Y node = node
    · rw [Rankings.checkLinks, if_pos]
      rw [hp, hq, hn, hp, hq]
      exact ⟨rfl, rfl⟩
    · have hh := h.isHead hli hv hl.head
      rw [Rankings.checkLinks, if_neg, if_neg, if_pos]
      · rw [hp, hn, if_pos hq, hh]
      · exact .inr (hne hq)
      · exact fun hc => hc.1 hp.symm
      · rw [hp, hn]
        exact fun hc => hq hc.1
  · by_cases hq : behind Y node = node
    · obtain rfl := eq_nil_of_behind hno hq
      have ht := h.isTail hli hv (hl.tail.trans (getLastD_concat ..))
      rw [Rankings.checkLinks, if_neg, if_neg, if_pos]
      · rw [if_neg (not_not.mpr (hpr hp)), hq, hn, if_pos hp, ht]
      · exact .inl (hpr hp)
      · exact fun hc => hc.2.1 hq.symm
      · rw [hq, hn]
        exact fun hc => hp hc.2
    · rw [Rankings.checkLinks, if_pos ⟨hpr hp, hne hq⟩]

theorem WellFormed.insert (hl : list < kLastElement)
    (hn : ValidAddr node) (hnew : node ∉ ms list) : insert d ⟨d.heads, d.tails⟩ node list =
      lock node kInsert list ++ insertWrites d ⟨d.heads, d.tails⟩ node list ++ unlock := by
  have hs : Inserting d d node list (ms list) := inserting_start h hl rfl rfl rfl
  rw [Rankings.insert, hs.headIsValid h hl hn hnew, if_pos rfl]

theorem WellFormed.remove (hli : list < kLastElement)
    (hmem : node ∈ ms list) (shared : Bool) : remove d ⟨d.heads, d.tails⟩ shared node list =
      lock node kRemove list ++ removeWrites d ⟨d.heads, d.tails⟩ shared node list ++ unlock := by
  obtain ⟨X, Y, hms⟩ := append_of_mem hmem
  have hl := h.isList list hli
  rw [hms] at hl
  have hn := hl.links.1
  have hp : before X node ∈ ms list := hms ▸ before_mem X Y node
  have hq : behind Y node ∈ ms list := hms ▸ behind_mem X Y node
  have hpv := h.valid list hli _ hp
  have hqv := h.valid list hli _ hq
  simp only [Rankings.remove, hn, hpv.isInitialized, hqv.isInitialized, hpv.isSeparateFile,
    hqv.isSeparateFile, Bool.not_true, Bool.or_self, Bool.false_eq_true, if_false,
    h.getRanking hli hp, h.getRanking hli hq, h.checkLinks hli hms]

end

/-- For well-formed lists, `Insert` of a node that is in no list and `Remove` of a member make
their writes under a lock.  After a crash at any point of these writes, `Init` leaves no open
transaction and well-formed lists: with the node in front of its list after an insertion, and
with the node in its old place or gone after a removal.  The blocks that `Remove` loads may be
copies of the node or share its data. -/
theorem crash_recovery (h : WellFormed d ms) (hlist : list < kLastElement) :
    (∀ node, ValidAddr node → (∀ i < kLastElement, node ∉ ms i) →
      insert d ⟨d.heads, d.tails⟩ node list =
        lock node kInsert list ++ insertWrites d ⟨d.heads, d.tails⟩ node list ++ unlock ∧
      ∀ ws, ws <+: insertWrites d ⟨d.heads, d.tails⟩ node list →
        (init (d.writes (lock node kInsert list ++ ws))).transaction = 0 ∧
        WellFormed (init (d.writes (lock node kInsert list ++ ws)))
          (Function.update ms list (node :: ms list))) ∧
    ∀ node ∈ ms list, ∀ shared, remove d ⟨d.heads, d.tails⟩ shared node list =
        lock node kRemove list ++ removeWrites d ⟨d.heads, d.tails⟩ shared node list ++ unlock ∧
      ∀ ws, ws <+: removeWrites d ⟨d.heads, d.tails⟩ shared node list →
        (init (d.writes (lock node kRemove list ++ ws))).transaction = 0 ∧
        (WellFormed (init (d.writes (lock node kRemove list ++ ws))) ms ∨
          WellFormed (init (d.writes (lock node kRemove list ++ ws)))
            (Function.update ms list ((ms list).erase node))) := by
  constructor
  · intro node hno hnew
    exact ⟨h.insert hlist hno (hnew list hlist), fun ws => insert_crash h hlist hno hnew⟩
  · intro node hmem shared
    refine ⟨h.remove hlist hmem shared, fun ws hws => ?_⟩
    obtain ⟨X, Y, hms⟩ := append_of_mem hmem
    have hn := h.nodup list hlist
    rw [hms] at hn
    have hnot := (nodup_cons.mp (nodup_middle.mp hn)).1
    have he : (ms list).erase node = X ++ Y := by
      rw [hms, erase_append_right _ fun hX => hnot (mem_append_left _ hX), erase_cons_head]
    rw [he]
    exact remove_crash h hlist hms shared hws

def noBlocks : Disk := ⟨fun _ => ⟨0, 0⟩, fun _ => 0, fun _ => 0, 0, 0, 0⟩

theorem wellFormed_noBlocks : WellFormed noBlocks fun _ => [] where
  isList _ _ := ⟨Linked.nil, rfl, rfl⟩
  nodup _ _ := nodup_nil
  disjoint _ _ _ _ _ ha := absurd ha not_mem_nil
  valid _ _ _ ha := absurd ha not_mem_nil

/-- The disk after a node has been inserted in front of the first list and the cache has been
opened again. -/
def inserted (d : Disk) (node : ℕ) : Disk :=
  init (d.writes (lock node kInsert 0 ++ insertWrites d ⟨d.heads, d.tails⟩ node 0))

theorem wellFormed_inserted {l : List ℕ} (h : WellFormed d (Function.update (fun _ => []) 0 l))
    (hno : ValidAddr node) (hnew : node ∉ l) :
    WellFormed (inserted d node) (Function.update (fun _ => []) 0 (node :: l)) := by
  have hnot : ∀ i < kLastElement, node ∉ Function.update (fun _ => ([] : List ℕ)) 0 l i := by
    intro i _
    by_cases hi : i = 0
    · rwa [hi, Function.update_self]
    · rw [Function.update_of_ne hi]
      exact not_mem_nil
  have hc := (insert_crash h (by decide : 0 < kLastElement) hno hnot (prefix_refl _)).2
  rwa [Function.update_idem, Function.update_self] at hc

def threeBlocks : Disk := inserted (inserted (inserted noBlocks 0x90000001) 0x90000002) 0x90000003

theorem wellFormed_threeBlocks : WellFormed threeBlocks
    (Function.update (fun _ => []) 0 [0x90000003, 0x90000002, 0x90000001]) := by
  have h₀ : WellFormed noBlocks (Function.update (fun _ => []) 0 []) := by
    rw [Function.update_eq_self]
    exact wellFormed_noBlocks
  have h₁ : WellFormed (inserted noBlocks 0x90000001) _ :=
    wellFormed_inserted h₀ ⟨by decide, by decide, by decide⟩ (by decide)
  have h₂ : WellFormed (inserted (inserted noBlocks 0x90000001) 0x90000002) _ :=
    wellFormed_inserted h₁ ⟨by decide, by decide, by decide⟩ (by decide)
  exact wellFormed_inserted h₂ ⟨by decide, by decide, by decide⟩ (by decide)

/-- A crash after the neighbours of the middle block have been linked to each other. -/
theorem crash_recovery_threeBlocks :
    let d := init (threeBlocks.writes (lock 0x90000002 kRemove 0 ++
      [.node 0x90000001 ⟨0x90000003, 0x90000001⟩, .node 0x90000003 ⟨0x90000003, 0x90000001⟩]))
    d.transaction = 0 ∧
      (WellFormed d (Function.update (fun _ => []) 0 [0x90000003, 0x90000002, 0x90000001]) ∨
        WellFormed d (Function.update (fun _ => []) 0 [0x90000003, 0x90000001])) := by
  have h := ((crash_recovery wellFormed_threeBlocks (by decide : 0 < kLastElement)).2 0x90000002
    (by decide) false).2 [.node 0x90000001 ⟨0x90000003, 0x90000001⟩,
      .node 0x90000003 ⟨0x90000003, 0x90000001⟩] (by decide +kernel)
  rwa [Function.update_idem] at h

end ChromiumBase.Rankings
