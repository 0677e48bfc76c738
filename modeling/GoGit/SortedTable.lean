import Mathlib

namespace SortedTable

open List

variable {α β : Type*} [LinearOrder β] {l : List α} {key : α → β} {x : β} {i m : ℕ} {a b : α}

section

variable (hs : l.Pairwise fun a b => key a < key b)

include hs

lemma key_lt (ha : l[i]? = some a) (hb : l[m]? = some b) (h : i < m) : key a < key b := by
  obtain ⟨hi, rfl⟩ := List.getElem?_eq_some_iff.mp ha
  obtain ⟨hm, rfl⟩ := List.getElem?_eq_some_iff.mp hb
  exact pairwise_iff_getElem.mp hs i m hi hm h

lemma ne_of_lt_key (hb : l[m]? = some b) (hx : x < key b) (ha : l[i]? = some a) (h : m ≤ i) : key a ≠ x := by
  rintro rfl
  rcases Nat.eq_or_lt_of_le h with rfl | hlt
  · rw [ha] at hb
    cases hb
    exact lt_irrefl _ hx
  · exact lt_asymm hx (key_lt hs hb ha hlt)

lemma ne_of_key_lt (hb : l[m]? = some b) (hx : key b < x) (ha : l[i]? = some a) (h : i ≤ m) : key a ≠ x := by
  rintro rfl
  rcases Nat.eq_or_lt_of_le h with rfl | hlt
  · rw [ha] at hb
    cases hb
    exact lt_irrefl _ hx
  · exact lt_asymm hx (key_lt hs ha hb hlt)

end

/-- A search by halving for the index from which on a predicate holds; the first argument bounds the turns. -/
def bisect (f : ℕ → Bool) : ℕ → ℕ → ℕ → ℕ
  | 0, i, _ => i
  | n + 1, i, j =>
    if i < j then
      if f ((i + j) / 2) then bisect f n i ((i + j) / 2) else bisect f n ((i + j) / 2 + 1) j
    else i

lemma bisect_eq {f : ℕ → Bool} {n i j t : ℕ} (hf : ∀ a < j, f a = true ↔ t ≤ a) (hi : i ≤ t) (hj : t ≤ j)
    (hn : j ≤ i + n) : bisect f n i j = t := by
  induction n generalizing i j with
  | zero =>
    rw [bisect]
    omega
  | succ n ih =>
    rw [bisect]
    split_ifs with hij hmid
    · have htm := (hf _ (by omega)).mp hmid
      exact ih (fun a ha => hf a (by omega)) hi htm (by omega)
    · have htm := mt (hf ((i + j) / 2) (by omega)).mpr hmid
      exact ih hf (by omega) hj (by omega)
    · omega

/-- Once the predicate holds in the table it holds to its end. -/
def Upward (f : α → Bool) (l : List α) : Prop := l.Pairwise fun a b => f a = true → f b = true

variable {f g : α → Bool}

lemma Upward.split (h : Upward f l) : l.filter (!f ·) ++ l.filter f = l := by
  induction l with
  | nil => rfl
  | cons a l ih =>
    obtain ⟨ha, hl⟩ := pairwise_cons.mp h
    by_cases hfa : f a = true
    · have hall : ∀ b ∈ l, f b = true := fun b hb => ha b hb hfa
      have hnone : l.filter (!f ·) = [] := by simpa using hall
      simp [hfa, hnone, filter_eq_self.mpr hall]
    · simpa [hfa] using ih hl

lemma Upward.drop_eq (h : Upward f l) : l.drop (l.filter (!f ·)).length = l.filter f := by
  have hdrop := congrArg (List.drop (l.filter (!f ·)).length) h.split
  rw [drop_left] at hdrop
  exact hdrop.symm

lemma Upward.bisect_eq (h : Upward f l) :
    bisect (fun i => l[i]?.any f) l.length 0 l.length = (l.filter (!f ·)).length := by
  refine SortedTable.bisect_eq (fun a ha => ?_) (by omega) (length_filter_le _ _) (by omega)
  have hsplit := h.split
  rw [← hsplit] at ha
  by_cases hlt : a < (l.filter (!f ·)).length
  · have hmem := of_mem_filter (getElem_mem hlt)
    rw [← hsplit, getElem?_append_left hlt, getElem?_eq_getElem hlt]
    simp_all
  · have hlt' : a - (l.filter (!f ·)).length < (l.filter f).length := by
      rw [length_append] at ha
      omega
    have hmem := of_mem_filter (getElem_mem hlt')
    rw [← hsplit, getElem?_append_right (by omega), getElem?_eq_getElem hlt']
    simp_all

lemma Upward.slice_eq (hf : Upward f l) (hg : Upward g l) (hfg : ∀ a ∈ l, g a = true → f a = true) :
    (l.take (l.filter (!g ·)).length).drop (l.filter (!f ·)).length = l.filter fun a => f a && !g a := by
  have htake : l.take (l.filter (!g ·)).length = l.filter (!g ·) := by
    conv_lhs => rw [← hg.split]
    simp
  have hbelow : (l.filter (!g ·)).filter (!f ·) = l.filter (!f ·) := by
    rw [filter_filter]
    refine filter_congr fun a ha => ?_
    have := hfg a ha
    cases hfa : f a <;> cases hga : g a <;> simp_all
  have hm : Upward f (l.filter (!g ·)) := List.Pairwise.sublist filter_sublist hf
  have hsplit := hm.split
  rw [hbelow] at hsplit
  rw [htake, ← hsplit, drop_left, filter_filter]

end SortedTable
