import Mathlib.Data.List.Nodup
import Mathlib.Logic.Relation

/-!
# Stream dependency trees

The tree of stream dependencies that an HTTP/2 endpoint keeps: every stream has a parent, which
is a stream or the root.  A dependency is set when a stream is created or its priority changes;
an exclusive one takes over the other children of the parent.  A stream that is closed hands
its children to its parent.

`chain r l` is the tree that is a single path from the root through the streams of `l`.
-/

open Function List

namespace DependencyTree

/-- The parent of each stream that is in the tree. -/
abbrev Tree (α : Type*) := α → Option α

variable {α : Type*} {T : Tree α}

def Depends (T : Tree α) : α → α → Prop := Relation.TransGen fun a b => T a = some b

variable [DecidableEq α]

/-- A tree with the stream `s` below `p`, in which an exclusive `s` has the other children of
`p` as its own. -/
def attach (T : Tree α) (s p : α) (exclusive : Bool) : Tree α := fun x =>
  if x = s then some p else if exclusive ∧ T x = some p then some s else T x

open Classical in
/-- Sets the dependency of `s` on `p`, in a tree with the root `r`.  A stream cannot depend on
itself.  A parent that is not in the tree gives `s` the default dependency, on the root.  A
parent that depends on `s` is first moved to the parent of `s`. -/
noncomputable def depend (r : α) (T : Tree α) (s p : α) (exclusive : Bool) : Option (Tree α) :=
  if s = p then none
  else if p = r ∨ (T p).isSome then
    some (attach (if Depends T p s then update T p (T s) else T) s p exclusive)
  else some (attach T s r false)

def close (T : Tree α) (s : α) : Tree α :=
  match T s with
  | none => T
  | some p => fun x => if x = s then none else if T x = some s then some p else T x

def chain (r : α) : List α → Tree α
  | [], _ => none
  | y :: l, x => if x = y then some r else chain y l x

variable {r s x y p : α} {l as bs : List α}

theorem chain_of_notMem (hx : x ∉ l) : chain r l x = none := by
  induction l generalizing r with
  | nil => rfl
  | cons y l ih =>
    rw [mem_cons, not_or] at hx
    rw [chain, if_neg hx.1, ih hx.2]

theorem chain_isSome (hx : x ∈ l) : (chain r l x).isSome := by
  induction l generalizing r with
  | nil => cases hx
  | cons y l ih =>
    rw [chain]
    split
    case isTrue => rfl
    case isFalse hne => exact ih ((mem_cons.mp hx).resolve_left hne)

theorem mem_of_chain (h : chain r l x = some p) : p ∈ r :: l := by
  induction l generalizing r with
  | nil => cases h
  | cons y l ih =>
    rw [chain] at h
    split at h
    case isTrue => cases h; exact mem_cons_self
    case isFalse => exact mem_cons_of_mem _ (ih h)

theorem chain_append_of_mem (hx : x ∈ as) : chain r (as ++ bs) x = chain r as x := by
  induction as generalizing r with
  | nil => cases hx
  | cons y as ih =>
    rw [cons_append, chain, chain]
    split
    case isTrue => rfl
    case isFalse hne => exact ih ((mem_cons.mp hx).resolve_left hne)

theorem chain_self (hs : s ∉ as) : chain r (as ++ s :: bs) s = some (as.getLastD r) := by
  induction as generalizing r with
  | nil => simp [chain]
  | cons y as ih =>
    rw [mem_cons, not_or] at hs
    rw [cons_append, chain, if_neg hs.1, ih hs.2, getLastD_cons]

theorem mem_of_depends (hr : r ∉ as ++ bs) {a b : α} (ha : a ∈ r :: as)
    (h : Depends (chain r (as ++ bs)) a b) : b ∈ r :: as := by
  have hs : ∀ {a b : α}, a ∈ r :: as → chain r (as ++ bs) a = some b → b ∈ r :: as := by
    intro a b ha hab
    rcases mem_cons.mp ha with rfl | ha
    · rw [chain_of_notMem hr] at hab
      cases hab
    · rw [chain_append_of_mem ha] at hab
      exact mem_of_chain hab
  induction h with
  | single h => exact hs ha h
  | tail _ h ih => exact hs ih h

/-- An exclusive dependency puts a stream into a chain behind its parent. -/
theorem attach_chain (hn : (r :: (as ++ bs)).Nodup) (hs : s ∉ r :: (as ++ bs)) :
    attach (chain r (as ++ bs)) s (as.getLastD r) true = chain r (as ++ s :: bs) := by
  induction as generalizing r with
  | nil =>
    funext x
    rw [nil_append, nil_append, getLastD_nil, attach, chain]
    split
    case isTrue => rfl
    case isFalse =>
      cases bs with
      | nil => simp [chain]
      | cons y bs =>
        rw [chain, chain]
        by_cases hx : x = y
        · simp [hx]
        · have hne : chain y bs x ≠ some r := fun h =>
            (nodup_cons.mp hn).1 (mem_of_chain h)
          simp [hx, hne]
  | cons y as ih =>
    rw [cons_append, nodup_cons] at hn
    rw [cons_append, mem_cons, not_or] at hs
    have hl : some r ≠ some (as.getLastD y) := by
      intro h
      have hmem := getLastD_mem_cons (l := as) (a := y)
      rw [← Option.some.inj h] at hmem
      exact hn.1 (mem_append_left bs hmem)
    funext x
    have := congrFun (ih hn.2 hs.2) x
    rw [getLastD_cons]
    rw [attach] at this ⊢
    rw [cons_append, cons_append, chain, chain]
    by_cases hx : x = y
    · have hys : y ≠ s := fun h => hs.2 (h ▸ mem_cons_self)
      simp only [hx, if_true, if_neg hys, hl, and_false, if_false]
    · simpa only [if_neg hx] using this

theorem attach_congr {T' : Tree α} (h : ∀ x, x ≠ s → T x = T' x) (exclusive : Bool) :
    attach T s p exclusive = attach T' s p exclusive := by
  funext x
  rw [attach, attach]
  split
  case isTrue => rfl
  case isFalse hne => rw [h x hne]

theorem depend_of_not_depends {exclusive : Bool} (hne : s ≠ p) (hp : p = r ∨ (T p).isSome)
    (hdep : ¬ Depends T p s) : depend r T s p exclusive = some (attach T s p exclusive) := by
  rw [depend, if_neg hne, if_pos hp, if_neg hdep]

/-- A stream without children, at any place of a tree that is a chain otherwise, is moved to
the end of the first part of the chain. -/
theorem depend_leaf (hn : (r :: (as ++ bs)).Nodup) (hs : s ∉ r :: (as ++ bs))
    (hT : ∀ x, x ≠ s → T x = chain r (as ++ bs) x) (hse : T s ≠ some s) :
    depend r T s (as.getLastD r) true = some (chain r (as ++ s :: bs)) := by
  have hmem : as.getLastD r ∈ r :: (as ++ bs) :=
    cons_subset_cons r (subset_append_left as bs) getLastD_mem_cons
  have hne : s ≠ as.getLastD r := fun h => hs (h ▸ hmem)
  rw [depend_of_not_depends hne, attach_congr hT, attach_chain hn hs]
  · rcases mem_cons.mp getLastD_mem_cons with h | h
    · exact .inl h
    · rw [hT _ hne.symm]
      exact .inr (chain_isSome (mem_append_left bs h))
  · intro hdep
    obtain ⟨a, -, ha⟩ := Relation.TransGen.tail'_iff.mp hdep
    by_cases has : a = s
    · exact hse (has ▸ ha)
    · rw [hT a has] at ha
      exact hs (mem_of_chain ha)

/-- The child of a stream in a chain is moved to the parent of the stream, which is then a
second child of that child. -/
theorem attach_child (hn : (r :: (as ++ s :: y :: bs)).Nodup) :
    attach (chain r (as ++ s :: y :: bs)) y (as.getLastD r) true =
      update (chain r (as ++ y :: bs)) s (some y) := by
  induction as generalizing r with
  | nil =>
    simp only [nil_append, nodup_cons, mem_cons, not_or] at hn
    obtain ⟨⟨hrs, hry, hrbs⟩, ⟨hsy, hsbs⟩, -⟩ := hn
    funext x
    rw [nil_append, nil_append, getLastD_nil, attach]
    by_cases hxy : x = y
    · subst hxy
      rw [if_pos rfl, update_of_ne (Ne.symm hsy), chain, if_pos rfl]
    · rw [if_neg hxy]
      by_cases hxs : x = s
      · subst hxs
        simp [chain]
      · have hne : chain y bs x ≠ some r := fun h =>
          (mem_cons.mp (mem_of_chain h)).elim hry hrbs
        rw [update_of_ne hxs, chain, if_neg hxs, chain, if_neg hxy, chain, if_neg hxy]
        simp [hne]
  | cons z as ih =>
    rw [cons_append, nodup_cons] at hn
    have hl : some r ≠ some (as.getLastD z) := by
      intro h
      have hmem := getLastD_mem_cons (l := as) (a := z)
      rw [← Option.some.inj h] at hmem
      exact hn.1 (mem_append_left _ hmem)
    have hz := (nodup_cons.mp hn.2).1
    simp only [mem_append, mem_cons, not_or] at hz
    funext x
    have := congrFun (ih hn.2) x
    rw [getLastD_cons]
    rw [attach] at this ⊢
    rw [cons_append, cons_append, chain]
    by_cases hx : x = z
    · subst hx
      rw [update_of_ne hz.2.1, chain]
      simp only [if_true, if_neg hz.2.2.1, hl, and_false, if_false]
    · rw [if_neg hx, this]
      by_cases hxs : x = s
      · rw [hxs, update_self, update_self]
      · rw [update_of_ne hxs, update_of_ne hxs, chain, if_neg hx]

theorem depend_child (hn : (r :: (as ++ s :: y :: bs)).Nodup) :
    depend r (chain r (as ++ s :: y :: bs)) y (as.getLastD r) true =
      some (update (chain r (as ++ y :: bs)) s (some y)) := by
  have hy : y ∉ r :: as := by
    have hs : ((r :: as ++ [s]) ++ y :: bs).Nodup := by simpa using hn
    have hnot := (nodup_cons.mp (nodup_middle.mp hs)).1
    exact fun hmem => hnot (mem_append_left _ (mem_append_left _ hmem))
  rw [depend_of_not_depends, attach_child hn]
  · exact fun h => hy (h ▸ getLastD_mem_cons)
  · rcases mem_cons.mp getLastD_mem_cons with h | h
    · exact .inl h
    · exact .inr (chain_isSome (mem_append_left _ h))
  · exact fun hdep => hy (mem_of_depends (nodup_cons.mp hn).1 getLastD_mem_cons hdep)

/-- The children of a closed stream go to its parent, so that a chain stays one. -/
theorem close_chain (hn : (r :: (as ++ s :: bs)).Nodup) :
    close (chain r (as ++ s :: bs)) s = chain r (as ++ bs) := by
  have hs : s ∉ r :: (as ++ bs) := by
    have hm : ((r :: as) ++ s :: bs).Nodup := hn
    exact (nodup_cons.mp (nodup_middle.mp hm)).1
  have hse : chain r (as ++ s :: bs) s = some (as.getLastD r) :=
    chain_self fun h => hs (mem_cons_of_mem _ (mem_append_left _ h))
  rw [close, hse]
  clear hse
  funext x
  dsimp only
  by_cases hx : x = s
  · rw [if_pos hx, hx, chain_of_notMem fun h => hs (mem_cons_of_mem _ h)]
  · rw [if_neg hx]
    induction as generalizing r with
    | nil =>
      rw [nil_append, nil_append, getLastD_nil, chain, if_neg hx]
      cases bs with
      | nil => simp [chain]
      | cons y bs =>
        rw [chain, chain]
        by_cases hxy : x = y
        · simp [hxy]
        · have hne : chain y bs x ≠ some s := fun h =>
            hs (mem_cons_of_mem _ (mem_of_chain h))
          simp [hxy, hne]
    | cons z as ih =>
      have hrs : some r ≠ some s := fun h => hs (Option.some.inj h ▸ mem_cons_self)
      rw [cons_append, cons_append, chain, chain, getLastD_cons]
      by_cases hxz : x = z
      · simp [hxz, hrs]
      · simp only [if_neg hxz]
        exact ih (nodup_cons.mp hn).2 fun h => hs (mem_cons_of_mem _ h)

end DependencyTree
