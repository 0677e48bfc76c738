import Mathlib

namespace Wildcard

open List

variable {α : Type*} [DecidableEq α] {star : α}
  {l : List α}

def fill (star : α) : List α → List α → List α
  | [], _ => []
  | a :: l, m => if a = star then m ++ l else a :: fill star l m

lemma fill_of_not_mem (h : star ∉ l) (m : List α) : fill star l m = l := by
  induction l with
  | nil => rfl
  | cons a l ih =>
    obtain ⟨hne, hl⟩ := not_or.mp (mt mem_cons.mpr h)
    rw [fill, if_neg (Ne.symm hne), ih hl]

lemma fill_append {before : List α} (h : star ∉ before) (after m : List α) :
    fill star (before ++ star :: after) m = before ++ m ++ after := by
  induction before with
  | nil => rw [nil_append, fill, if_pos rfl, nil_append]
  | cons a before ih =>
    obtain ⟨hne, hbefore⟩ := not_or.mp (mt mem_cons.mpr h)
    rw [cons_append, fill, if_neg (Ne.symm hne), ih hbefore]
    rfl

lemma fill_cons_of_ne {a : α} (h : a ≠ star) (l m : List α) : fill star (a :: l) m = a :: fill star l m := by
  rw [fill, if_neg h]

lemma fill_of_mem (h : star ∈ l) (m : List α) :
    fill star l m = l.take (l.idxOf star) ++ m ++ l.drop (l.idxOf star + 1) := by
  obtain ⟨before, after, rfl, hbefore⟩ := eq_append_cons_of_mem h
  have hidx : (before ++ star :: after).idxOf star = before.length := by
    rw [idxOf_append_of_notMem hbefore, idxOf_cons_self, Nat.add_zero]
  rw [fill_append hbefore, hidx, take_left, ← drop_drop, drop_left, drop_one, tail_cons]

lemma fill_inj {l m m' : List α} (h : star ∈ l) (heq : fill star l m = fill star l m') : m = m' := by
  rw [fill_of_mem h, fill_of_mem h] at heq
  exact append_cancel_left (append_cancel_right heq)

lemma middle_fill (h : star ∈ l) (m : List α) :
    ((fill star l m).take ((fill star l m).length - (l.length - (l.idxOf star + 1)))).drop (l.idxOf star) =
      m := by
  have hidx : l.idxOf star < l.length := idxOf_lt_length_iff.mpr h
  have hbefore : (l.take (l.idxOf star)).length = l.idxOf star := by
    rw [length_take]
    omega
  have hlen : (fill star l m).length - (l.length - (l.idxOf star + 1)) =
      (l.take (l.idxOf star) ++ m).length := by
    rw [fill_of_mem h, length_append, length_drop]
    omega
  rw [hlen, fill_of_mem h, take_left]
  nth_rewrite 1 [← hbefore]
  exact drop_left

lemma length_fill_nil_le (l m : List α) : (fill star l []).length ≤ (fill star l m).length := by
  induction l with
  | nil => exact le_rfl
  | cons a l ih =>
    by_cases h : a = star
    · rw [fill, if_pos h, fill, if_pos h, length_append, length_append]
      simp
    · rw [fill_cons_of_ne h, fill_cons_of_ne h]
      simpa using ih

omit [DecidableEq α] in
lemma exists_middle_iff {before after n : List α} :
    (before.length + after.length ≤ n.length ∧ before <+: n ∧ after <:+ n) ↔ ∃ m, n = before ++ m ++ after := by
  constructor
  · rintro ⟨hlen, ⟨rest, rfl⟩, hafter⟩
    rw [length_append, Nat.add_le_add_iff_left] at hlen
    obtain ⟨m, rfl⟩ := suffix_of_suffix_length_le hafter (suffix_append _ _) hlen
    exact ⟨m, (append_assoc _ _ _).symm⟩
  · rintro ⟨m, rfl⟩
    refine ⟨by simp, ?_, suffix_append _ _⟩
    rw [append_assoc]
    exact prefix_append _ _

end Wildcard
