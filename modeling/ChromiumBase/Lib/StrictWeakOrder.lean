import Mathlib.Data.List.Forall2
import Mathlib.Data.List.Perm.Basic
import Mathlib.Data.List.Sort
import Mathlib.Data.Set.List
import Mathlib.Order.Comparable

/-!
# Sorting by a strict weak order

Two sorted arrangements of the same elements agree up to incomparable elements.  An order by rank
that breaks ties only within a family of elements is a strict weak order exactly if no element of
one family is between two elements of another that are not tied.
-/

open List

namespace StrictWeakOrder

variable {α : Type*} {r : α → α → Prop}

section

variable {ι φ κ : Type*} [LinearOrder ι] [LinearOrder κ] {rank : α → ι} {family : α → φ}
  {key : α → κ}

/-- By rank, and for two elements of one family by decreasing key. -/
def ByRank (rank : α → ι) (family : α → φ) (key : α → κ) (a b : α) : Prop :=
  rank a < rank b ∨ rank a = rank b ∧ family a = family b ∧ key b < key a

theorem ByRank.irrefl (a : α) : ¬ByRank rank family key a a := by
  simp [ByRank]

theorem ByRank.trans {a b c : α} (hab : ByRank rank family key a b)
    (hbc : ByRank rank family key b c) : ByRank rank family key a c := by
  rcases hab with hab | ⟨hab, hf, hk⟩
  · rcases hbc with hbc | ⟨hbc, -, -⟩
    · exact .inl (hab.trans hbc)
    · exact .inl (hbc ▸ hab)
  · rcases hbc with hbc | ⟨hbc, hf', hk'⟩
    · exact .inl (hab ▸ hbc)
    · exact .inr ⟨hab.trans hbc, hf.trans hf', hk'.trans hk⟩

theorem incompRel_byRank_iff {a b : α} : IncompRel (ByRank rank family key) a b ↔
    rank a = rank b ∧ (family a = family b → key a = key b) := by
  simp only [IncompRel, ByRank]
  constructor
  · rintro ⟨hab, hba⟩
    rw [not_or] at hab hba
    have hr := le_antisymm (not_lt.mp hba.1) (not_lt.mp hab.1)
    refine ⟨hr, fun hf => le_antisymm ?_ ?_⟩
    · exact not_lt.mp fun hk => hab.2 ⟨hr, hf, hk⟩
    · exact not_lt.mp fun hk => hba.2 ⟨hr.symm, hf.symm, hk⟩
  · rintro ⟨hr, hk⟩
    refine ⟨?_, ?_⟩
    · rintro (hlt | ⟨-, hf, hlt⟩)
      exacts [hlt.ne hr, hlt.ne' (hk hf)]
    · rintro (hlt | ⟨-, hf, hlt⟩)
      exacts [hlt.ne' hr, hlt.ne (hk hf.symm)]

theorem isStrictWeakOrder_byRank_iff : IsStrictWeakOrder α (ByRank rank family key) ↔
    ∀ a b c, rank a = rank b → rank b = rank c → family a = family c → family b ≠ family a →
      key a = key c := by
  constructor
  · intro hw a b c hab hbc hf hfb
    have h₁ : IncompRel (ByRank rank family key) a b :=
      incompRel_byRank_iff.2 ⟨hab, fun h => absurd h.symm hfb⟩
    have h₂ : IncompRel (ByRank rank family key) b c :=
      incompRel_byRank_iff.2 ⟨hbc, fun h => absurd (h.trans hf.symm) hfb⟩
    exact (incompRel_byRank_iff.1 (hw.incomp_trans a b c h₁ h₂)).2 hf
  · intro hu
    have : IsStrictOrder α (ByRank rank family key) :=
      { irrefl := ByRank.irrefl, trans := fun _ _ _ => ByRank.trans }
    refine ⟨fun a b c h₁ h₂ => incompRel_byRank_iff.2 ?_⟩
    obtain ⟨hab, hkab⟩ := incompRel_byRank_iff.1 h₁
    obtain ⟨hbc, hkbc⟩ := incompRel_byRank_iff.1 h₂
    refine ⟨hab.trans hbc, fun hf => ?_⟩
    by_cases hfb : family b = family a
    · exact (hkab hfb.symm).trans (hkbc (hfb.trans hf))
    · exact hu a b c hab hbc hf hfb

end

section

variable [IsStrictWeakOrder α r]

theorem not_rel_trans {a b c : α} (hba : ¬r b a) (hcb : ¬r c b) : ¬r c a := by
  intro hca
  have hac : ¬r a c := fun hac => irrefl_of r a (trans_of r hac hca)
  have hbc : ¬r b c := fun hbc => hba (trans_of r hbc hca)
  have hab : ¬r a b := fun hab => hcb (trans_of r hca hab)
  exact (IsStrictWeakOrder.incomp_trans a b c ⟨hab, hba⟩ ⟨hbc, hcb⟩).2 hca

def incompSetoid (r : α → α → Prop) [IsStrictWeakOrder α r] : Setoid α where
  r := IncompRel r
  iseqv :=
    { refl := fun a => ⟨irrefl_of r a, irrefl_of r a⟩
      symm := fun h => ⟨h.2, h.1⟩
      trans := fun h₁ h₂ => IsStrictWeakOrder.incomp_trans _ _ _ h₁ h₂ }

theorem forall₂_incompRel_of_perm {l l' : List α} (hp : l.Perm l')
    (hl : l.Pairwise fun a b => ¬r b a) (hl' : l'.Pairwise fun a b => ¬r b a) :
    List.Forall₂ (IncompRel r) l l' := by
  -- on the classes the order is antisymmetric, so that they have one arrangement only
  let mk : α → Quotient (incompSetoid r) := Quotient.mk _
  let le (p q : Quotient (incompSetoid r)) : Prop := ∀ a b, mk a = p → mk b = q → ¬r b a
  have hle : ∀ {l : List α}, l.Pairwise (fun a b => ¬r b a) → (l.map mk).Pairwise le := by
    intro l hl
    refine pairwise_map.2 (hl.imp fun {a b} hab a' b' ha hb => ?_)
    have ha : IncompRel r a' a := Quotient.exact ha
    have hb : IncompRel r b' b := Quotient.exact hb
    exact not_rel_trans (not_rel_trans ha.2 hab) hb.1
  have hmap : l.map mk = l'.map mk := by
    refine (hp.map mk).eq_of_pairwise (fun p q _ _ hpq hqp => ?_) (hle hl) (hle hl')
    induction p, q using Quotient.inductionOn₂ with
    | _ a b => exact Quotient.sound ⟨hqp b a rfl rfl, hpq a b rfl rfl⟩
  rw [← forall₂_eq_eq_eq, forall₂_map_left_iff, forall₂_map_right_iff] at hmap
  exact hmap.imp fun _ _ h => Quotient.exact h

end

section

variable {less : α → α → Bool}

theorem pairwise_mergeSort (h : IsStrictWeakOrder α fun a b => less a b) (l : List α) :
    (l.mergeSort fun a b => !less b a).Pairwise fun a b => ¬less b a := by
  have htrans : ∀ a b c, (!less b a) = true → (!less c b) = true → (!less c a) = true := by
    simpa using fun a b c => not_rel_trans (r := fun a b => less a b)
  have htotal : ∀ a b, ((!less b a) || !less a b) = true := by
    intro a b
    have hasymm : less a b → ¬less b a := fun hab hba => h.irrefl a (h.trans a b a hab hba)
    grind
  simpa using List.pairwise_mergeSort htrans htotal l

variable {p : α → Prop} {l l' : List α}

theorem map_mergeSort_val (l : List {a // p a}) :
    (l.mergeSort fun a b => !less b a).map Subtype.val =
      (l.map Subtype.val).mergeSort fun a b => !less b a :=
  map_mergeSort fun _ _ _ _ => rfl

/-- It suffices that the elements of the list are in a strict weak order. -/
theorem pairwise_mergeSort_of_forall (h : IsStrictWeakOrder {a // p a} fun a b => less a b)
    (hl : ∀ a ∈ l, p a) : (l.mergeSort fun a b => !less b a).Pairwise fun a b => ¬less b a := by
  lift l to List {a // p a} using hl
  rw [← map_mergeSort_val, pairwise_map]
  exact pairwise_mergeSort h l

theorem forall₂_mergeSort_of_forall (h : IsStrictWeakOrder {a // p a} fun a b => less a b)
    (hl : ∀ a ∈ l, p a) (hp : l'.Perm l) :
    List.Forall₂ (IncompRel fun a b => less a b) (l'.mergeSort fun a b => !less b a)
      (l.mergeSort fun a b => !less b a) := by
  have hl' : ∀ a ∈ l', p a := fun a ha => hl a (hp.mem_iff.1 ha)
  lift l to List {a // p a} using hl
  lift l' to List {a // p a} using hl'
  have hp' : l'.Perm l := (map_perm_map_iff Subtype.val_injective).1 hp
  have hsorted := (mergeSort_perm l' fun a b => !less b a).trans
    (hp'.trans (mergeSort_perm l fun a b => !less b a).symm)
  rw [← map_mergeSort_val, ← map_mergeSort_val, forall₂_map_left_iff,
    forall₂_map_right_iff]
  exact forall₂_incompRel_of_perm hsorted (pairwise_mergeSort h l') (pairwise_mergeSort h l)

end

end StrictWeakOrder
