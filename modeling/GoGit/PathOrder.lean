import Mathlib

/-! Lists over a linear order, compared lexicographically, a directory before what is in it. Two paths are apart if
neither is in the other; the order of paths that are apart is the order of everything in them. -/
namespace PathOrder

open List

section Apart

variable {α : Type*} {p q s t : List α}

def Apart (p q : List α) : Prop := ¬ p <+: q ∧ ¬ q <+: p

lemma Apart.symm (h : Apart p q) : Apart q p := ⟨h.2, h.1⟩

lemma Apart.ne (h : Apart p q) : p ≠ q := fun hpq => h.1 (hpq ▸ prefix_rfl)

lemma Apart.of_isPrefix (h : Apart p q) (hs : p <+: s) (ht : q <+: t) : Apart s t := by
  constructor
  · intro hst
    exact (List.prefix_or_prefix_of_prefix (hs.trans hst) ht).elim h.1 h.2
  · intro hts
    exact (List.prefix_or_prefix_of_prefix hs (ht.trans hts)).elim h.1 h.2

lemma not_snoc_prefix_snoc {a b : α} (h : a ≠ b) : ¬ p ++ [a] <+: p ++ [b] := by
  intro hpre
  have := hpre.eq_of_length (by simp)
  exact h (by simpa using this)

end Apart

section Order

variable {α : Type*} [LinearOrder α] {p q s t : List α}

lemma le_of_isPrefix (h : p <+: q) : p ≤ q := by
  obtain ⟨t, rfl⟩ := h
  induction p with
  | nil =>
    cases t with
    | nil => exact le_rfl
    | cons a t => exact le_of_lt List.Lex.nil
  | cons a p ih => exact cons_le_cons a ih

lemma lt_of_isPrefix (h : p < q) (hp : ¬ p <+: q) (hs : p <+: s) (ht : q <+: t) : s < t := by
  obtain ⟨u, rfl⟩ := hs
  obtain ⟨v, rfl⟩ := ht
  induction p generalizing q with
  | nil => exact absurd nil_prefix hp
  | cons a p ih =>
    cases q with
    | nil => exact absurd h (not_lt_nil _)
    | cons b q =>
      rcases cons_lt_cons_iff.mp h with hab | ⟨rfl, hpq⟩
      · exact cons_lt_cons_iff.mpr (.inl hab)
      · refine cons_lt_cons_iff.mpr (.inr ⟨rfl, ih hpq fun hpre => hp ?_⟩)
        exact cons_prefix_cons.mpr ⟨rfl, hpre⟩

lemma snoc_lt_snoc {a b : α} (h : a < b) : p ++ [a] < p ++ [b] := by
  induction p with
  | nil => exact cons_lt_cons_iff.mpr (.inl h)
  | cons c p ih => exact cons_lt_cons_iff.mpr (.inr ⟨rfl, ih⟩)

lemma apart_of_lt (h : p < q) (hp : ¬ p <+: q) : Apart p q :=
  ⟨hp, fun hq => absurd (le_of_isPrefix hq) (not_le.mpr h)⟩

end Order

scoped instance instLinearOrderUInt8 : LinearOrder UInt8 where
  le_refl := UInt8.le_refl
  le_trans _ _ _ := UInt8.le_trans
  le_antisymm _ _ := UInt8.le_antisymm
  le_total := UInt8.le_total
  lt_iff_le_not_ge a b := by
    simp only [UInt8.le_iff_toNat_le, UInt8.lt_iff_toNat_lt]
    omega
  toDecidableLE := inferInstance
  toDecidableEq := inferInstance
  toDecidableLT := inferInstance

scoped instance instLawfulBEqUInt8 : LawfulBEq UInt8 := instLawfulBEq

end PathOrder
