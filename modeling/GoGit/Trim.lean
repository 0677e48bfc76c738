import Mathlib

namespace Trim

open List

def spaces : List (List UInt8) :=
  [[0x09], [0x0a], [0x0b], [0x0c], [0x0d], [0x20], [0xc2, 0x85], [0xc2, 0xa0], [0xe1, 0x9a, 0x80],
    [0xe2, 0x80, 0x80], [0xe2, 0x80, 0x81], [0xe2, 0x80, 0x82], [0xe2, 0x80, 0x83],
    [0xe2, 0x80, 0x84], [0xe2, 0x80, 0x85], [0xe2, 0x80, 0x86], [0xe2, 0x80, 0x87],
    [0xe2, 0x80, 0x88], [0xe2, 0x80, 0x89], [0xe2, 0x80, 0x8a], [0xe2, 0x80, 0xa8],
    [0xe2, 0x80, 0xa9], [0xe2, 0x80, 0xaf], [0xe2, 0x81, 0x9f], [0xe3, 0x80, 0x80]]

/-- Takes tokens off the front, at most as often as the first argument says. -/
def strip (tokens : List (List UInt8)) : ℕ → List UInt8 → List UInt8
  | 0, l => l
  | n + 1, l =>
    match tokens.find? (·.isPrefixOf l) with
    | none => l
    | some t => strip tokens n (l.drop t.length)

def stripAll (tokens : List (List UInt8)) (l : List UInt8) : List UInt8 := strip tokens l.length l

variable (l : List UInt8)

def trimStart : List UInt8 := stripAll spaces l

def trimEnd : List UInt8 := (stripAll (spaces.map List.reverse) l.reverse).reverse

def trimSpace : List UInt8 := trimEnd (trimStart l)

def Word : Prop := l ≠ [] ∧ ∀ t ∈ spaces, ¬ t <:+: l

instance : DecidablePred Word := fun l =>
  inferInstanceAs (Decidable (l ≠ [] ∧ ∀ t ∈ spaces, ¬ t <:+: l))

section Strip

variable {tokens : List (List UInt8)} {l : List UInt8} {n : ℕ}
  {t : List UInt8}

lemma find_eq_none_iff : tokens.find? (·.isPrefixOf l) = none ↔ ∀ t ∈ tokens, ¬ t <+: l := by
  simp [find?_eq_none]

lemma stripAll_of_not_isPrefix (h : ∀ t ∈ tokens, ¬ t <+: l) : stripAll tokens l = l := by
  rw [stripAll]
  cases l.length with
  | zero => rfl
  | succ n => rw [strip, find_eq_none_iff.mpr h]

lemma strip_isSuffix (tokens : List (List UInt8)) (n : ℕ) (l : List UInt8) : strip tokens n l <:+ l := by
  induction n generalizing l with
  | zero => exact suffix_rfl
  | succ n ih =>
    rw [strip]
    cases tokens.find? (·.isPrefixOf l) with
    | none => exact suffix_rfl
    | some t => exact (ih _).trans (drop_suffix _ _)

variable (hne : ∀ t ∈ tokens, t ≠ [])

include hne

lemma length_drop_lt (h : tokens.find? (·.isPrefixOf l) = some t)
    (hl : l.length ≤ n + 1) : (l.drop t.length).length ≤ n := by
  have hlen : 0 < t.length := length_pos_iff.mpr (hne t (mem_of_find?_eq_some h))
  rw [length_drop]
  omega

lemma not_isPrefix_nil : ∀ t ∈ tokens, ¬ t <+: [] :=
  fun t ht h => hne t ht (prefix_nil.mp h)

lemma strip_eq_stripAll (h : l.length ≤ n) : strip tokens n l = stripAll tokens l := by
  have hadd : ∀ (k : ℕ) (l : List UInt8), l.length ≤ k → ∀ m,
      strip tokens (k + m) l = strip tokens k l := by
    intro k
    induction k with
    | zero =>
      intro l hl m
      obtain rfl : l = [] := length_eq_zero_iff.mp (Nat.le_zero.mp hl)
      cases m with
      | zero => rfl
      | succ m => rw [Nat.zero_add, strip, strip, find_eq_none_iff.mpr (not_isPrefix_nil hne)]
    | succ k ih =>
      intro l hl m
      rw [show k + 1 + m = k + m + 1 by omega, strip, strip]
      cases hfind : tokens.find? (·.isPrefixOf l) with
      | none => rfl
      | some t => exact ih _ (length_drop_lt hne hfind hl) m
  obtain ⟨m, rfl⟩ := Nat.exists_eq_add_of_le h
  exact hadd l.length l le_rfl m

lemma stripAll_of_find (h : tokens.find? (·.isPrefixOf l) = some t) :
    stripAll tokens l = stripAll tokens (l.drop t.length) := by
  have hpre : t <+: l := by simpa using find?_some h
  have hpos : 0 < l.length :=
    (length_pos_iff.mpr (hne t (mem_of_find?_eq_some h))).trans_le hpre.length_le
  obtain ⟨n, hn⟩ := Nat.exists_eq_succ_of_ne_zero hpos.ne'
  rw [stripAll, hn, Nat.succ_eq_add_one, strip, h]
  exact strip_eq_stripAll hne (length_drop_lt hne h hn.le)

lemma not_isPrefix_stripAll (l : List UInt8) : ∀ t ∈ tokens, ¬ t <+: stripAll tokens l := by
  induction hlen : l.length using Nat.strong_induction_on generalizing l with
  | _ n ih =>
    cases hfind : tokens.find? (·.isPrefixOf l) with
    | none =>
      rw [stripAll_of_not_isPrefix (find_eq_none_iff.mp hfind)]
      exact find_eq_none_iff.mp hfind
    | some t =>
      have hpos : 0 < t.length := length_pos_iff.mpr (hne t (mem_of_find?_eq_some hfind))
      have hle : t.length ≤ l.length := by
        have hpre : t <+: l := by simpa using find?_some hfind
        exact hpre.length_le
      rw [stripAll_of_find hne hfind]
      exact ih _ (by rw [length_drop]; omega) _ rfl

lemma stripAll_eq_self_iff : stripAll tokens l = l ↔ ∀ t ∈ tokens, ¬ t <+: l := by
  refine ⟨fun h => ?_, stripAll_of_not_isPrefix⟩
  have := not_isPrefix_stripAll hne l
  rwa [h] at this

variable {x : UInt8} (hx : ∀ t ∈ tokens, x ∈ t → t = [x])

include hx

omit hne in
lemma isPrefix_append_iff {a : List UInt8} (ha : a ≠ []) (b : List UInt8)
    (ht : t ∈ tokens) : t <+: a ++ x :: b ↔ t <+: a := by
  refine ⟨fun h => ?_, fun h => h.trans (prefix_append _ _)⟩
  rcases Nat.lt_or_ge a.length t.length with hlt | hle
  · have hfirst : a ++ [x] <+: a ++ x :: b := ⟨b, by simp⟩
    have hpre : a ++ [x] <+: t := prefix_of_prefix_length_le hfirst h (by simpa using hlt)
    have hmem : x ∈ t := hpre.subset (by simp)
    rw [hx t ht hmem] at hlt
    have := length_pos_iff.mpr ha
    simp only [length_singleton] at hlt
    omega
  · exact prefix_of_prefix_length_le h (prefix_append _ _) hle

lemma stripAll_append (a b : List UInt8) : stripAll tokens (a ++ x :: b) =
    if stripAll tokens a = [] then stripAll tokens (x :: b) else stripAll tokens a ++ x :: b := by
  induction hlen : a.length using Nat.strong_induction_on generalizing a with
  | _ n ih =>
    by_cases ha : a = []
    · subst ha
      simp [stripAll, strip]
    have hfind : tokens.find? (·.isPrefixOf (a ++ x :: b)) = tokens.find? (·.isPrefixOf a) := by
      refine find?_congr fun t ht => ?_
      rw [Bool.eq_iff_iff, isPrefixOf_iff_prefix, isPrefixOf_iff_prefix]
      exact isPrefix_append_iff hx ha b ht
    cases hcase : tokens.find? (·.isPrefixOf a) with
    | none =>
      rw [stripAll_of_not_isPrefix (find_eq_none_iff.mp hcase), if_neg ha,
        stripAll_of_not_isPrefix (find_eq_none_iff.mp (hfind.trans hcase))]
    | some t =>
      have hpre : t <+: a := by simpa using find?_some hcase
      have hpos : 0 < t.length := length_pos_iff.mpr (hne t (mem_of_find?_eq_some hcase))
      have hle := hpre.length_le
      rw [stripAll_of_find hne hcase, stripAll_of_find hne (hfind.trans hcase), drop_append_of_le_length hle]
      exact ih _ (by rw [length_drop]; omega) _ rfl

lemma stripAll_cons (hmem : [x] ∈ tokens) (b : List UInt8) : stripAll tokens (x :: b) = stripAll tokens b := by
  have hfind : tokens.find? (·.isPrefixOf (x :: b)) = some [x] := by
    cases hcase : tokens.find? (·.isPrefixOf (x :: b)) with
    | none => exact absurd ⟨b, rfl⟩ (find_eq_none_iff.mp hcase [x] hmem)
    | some t =>
      have ht := mem_of_find?_eq_some hcase
      have hpre : t <+: x :: b := by simpa using find?_some hcase
      obtain ⟨y, t, rfl⟩ := exists_cons_of_ne_nil (hne t ht)
      obtain rfl : y = x := (cons_prefix_cons.mp hpre).1
      rw [hx _ ht mem_cons_self]
  rw [stripAll_of_find hne hfind]
  rfl

end Strip

lemma spaces_ne_nil : ∀ t ∈ spaces, t ≠ [] := by decide

lemma reversed_ne_nil : ∀ t ∈ spaces.map List.reverse, t ≠ [] := by decide

lemma eq_singleton_of_mem {x : UInt8} (hx : x = 0x0a ∨ x = 0x20) :
    (∀ t ∈ spaces, x ∈ t → t = [x]) ∧ (∀ t ∈ spaces.map List.reverse, x ∈ t → t = [x]) ∧
      [x] ∈ spaces ∧ [x] ∈ spaces.map List.reverse := by
  rcases hx with rfl | rfl <;> decide

section Text

variable {x : UInt8} (hx : x = 0x0a ∨ x = 0x20) {k : List UInt8}

variable (l : List UInt8)

lemma trimEnd_isPrefix : trimEnd l <+: l := by
  have h := strip_isSuffix (spaces.map List.reverse) l.reverse.length l.reverse
  rw [← reverse_prefix, reverse_reverse] at h
  exact h

lemma trimEnd_eq_self_iff {l : List UInt8} : trimEnd l = l ↔ ∀ t ∈ spaces, ¬ t <:+ l := by
  rw [trimEnd, reverse_eq_iff, stripAll_eq_self_iff reversed_ne_nil]
  constructor
  · intro h t ht hs
    exact h t.reverse (mem_map_of_mem ht) (List.reverse_prefix.mpr hs)
  · intro h t ht hp
    obtain ⟨u, hu, rfl⟩ := mem_map.mp ht
    exact h u hu (List.reverse_prefix.mp hp)

lemma trimEnd_word (h : Word k) : trimEnd k = k :=
  trimEnd_eq_self_iff.mpr fun t ht hs => h.2 t ht hs.isInfix

include hx

lemma trimEnd_snoc : trimEnd (l ++ [x]) = trimEnd l := by
  obtain ⟨-, hsingle, -, hmem⟩ := eq_singleton_of_mem hx
  rw [trimEnd, trimEnd, reverse_append, reverse_singleton, singleton_append, stripAll_cons reversed_ne_nil hsingle hmem]

lemma trimEnd_append (b a : List UInt8) :
    trimEnd (b ++ x :: a) = if trimEnd a = [] then trimEnd b else b ++ x :: trimEnd a := by
  obtain ⟨-, hsingle, -, hmem⟩ := eq_singleton_of_mem hx
  have hrev : (b ++ x :: a).reverse = a.reverse ++ x :: b.reverse := by simp
  have hnil : trimEnd a = [] ↔ stripAll (spaces.map List.reverse) a.reverse = [] :=
    reverse_eq_nil_iff
  rw [trimEnd, hrev, stripAll_append reversed_ne_nil hsingle]
  by_cases h : trimEnd a = []
  · rw [if_pos h, if_pos (hnil.mp h), stripAll_cons reversed_ne_nil hsingle hmem, trimEnd]
  · rw [if_neg h, if_neg (mt hnil.mpr h), trimEnd]
    simp

lemma trimStart_word (h : Word k) (b : List UInt8) : trimStart (k ++ x :: b) = k ++ x :: b := by
  have hself : stripAll spaces k = k :=
    stripAll_of_not_isPrefix fun t ht hp => h.2 t ht hp.isInfix
  rw [trimStart, stripAll_append spaces_ne_nil (eq_singleton_of_mem hx).1, hself, if_neg h.1]

lemma trimSpace_snoc : trimSpace (l ++ [x]) = trimSpace l := by
  obtain ⟨hsingle, -, hmem, -⟩ := eq_singleton_of_mem hx
  rw [trimSpace, trimSpace, trimStart, trimStart, stripAll_append spaces_ne_nil hsingle]
  split_ifs with h
  · rw [stripAll_cons spaces_ne_nil hsingle hmem, h]
    rfl
  · exact trimEnd_snoc hx _

omit hx in
lemma trimSpace_subset : trimSpace l ⊆ l :=
  fun _ h => (strip_isSuffix spaces l.length l).subset ((trimEnd_isPrefix _).subset h)

omit hx in
lemma trimSpace_word (h : Word k) : trimSpace (k ++ [0x0a]) = k := by
  rw [trimSpace, trimStart_word (.inl rfl) h, trimEnd_snoc (.inl rfl), trimEnd_word h]

omit hx in
lemma trimSpace_word_append (h : Word k) (l : List UInt8) :
    trimSpace (k ++ 0x20 :: l ++ [0x0a]) = if trimEnd l = [] then k else k ++ 0x20 :: trimEnd l := by
  rw [trimSpace_snoc (.inl rfl), trimSpace, trimStart_word (.inr rfl) h, trimEnd_append (.inr rfl), trimEnd_word h]

end Text

/-- The fields of a text from within a white space character of which some bytes are left, after the bytes
of a field. -/
def fieldsFrom : ℕ → List UInt8 → List UInt8 → List (List UInt8)
  | _, [], field => if field = [] then [] else [field]
  | k + 1, _ :: l, field => fieldsFrom k l field
  | 0, x :: l, field =>
    match spaces.find? (·.isPrefixOf (x :: l)) with
    | none => fieldsFrom 0 l (field ++ [x])
    | some t => (if field = [] then [] else [field]) ++ fieldsFrom (t.length - 1) l []

def fields : List (List UInt8) := fieldsFrom 0 l []

lemma ne_nil_of_mem_fieldsFrom (k : ℕ) (l field : List UInt8) : ∀ f ∈ fieldsFrom k l field, f ≠ [] := by
  fun_induction fieldsFrom k l field with
  | case1 | case2 => simp_all
  | case3 _ _ _ _ ih | case4 _ _ _ _ ih => exact ih
  | case5 l field x t _ ih =>
    intro f hf
    rcases mem_append.mp hf with hf | hf
    · split_ifs at hf with hfield
      · exact absurd hf not_mem_nil
      · rwa [mem_singleton.mp hf]
    · exact ih f hf

lemma ne_nil_of_mem_fields : ∀ f ∈ fields l, f ≠ [] := ne_nil_of_mem_fieldsFrom 0 l []

lemma fieldsFrom_ne_nil (k : ℕ) (l field : List UInt8) (h : field ≠ []) : fieldsFrom k l field ≠ [] := by
  fun_induction fieldsFrom k l field with
  | case1 => contradiction
  | case2 => simp
  | case3 _ _ _ _ ih => exact ih h
  | case4 _ _ _ _ ih => exact ih (by simp)
  | case5 => simp [h]

lemma fieldsFrom_eq_nil (k : ℕ) (l : List UInt8) (h : fieldsFrom k l [] = []) :
    l.drop k = [] ∨ ∃ t ∈ spaces, t <:+ l.drop k := by
  induction l generalizing k with
  | nil => exact .inl (drop_nil)
  | cons x l ih =>
    cases k with
    | succ k => exact ih k h
    | zero =>
      rw [fieldsFrom] at h
      cases hfind : spaces.find? (·.isPrefixOf (x :: l)) with
      | none =>
        rw [hfind] at h
        exact absurd h (fieldsFrom_ne_nil 0 l _ (by simp))
      | some t =>
        rw [hfind] at h
        have ht : t ∈ spaces := mem_of_find?_eq_some hfind
        have hpos : 0 < t.length := length_pos_iff.mpr (spaces_ne_nil t ht)
        have hpre : t <+: x :: l := by simpa using find?_some hfind
        rcases ih (t.length - 1) h with hnil | ⟨u, hu, hsuf⟩
        · -- the character is the whole text
          have hlen : (x :: l).length ≤ t.length := by
            have := drop_eq_nil_iff.mp hnil
            rw [length_cons]
            omega
          exact .inr ⟨t, ht, drop_zero (l := x :: l) ▸ (hpre.eq_of_length_le hlen ▸ suffix_rfl)⟩
        · exact .inr ⟨u, hu, (hsuf.trans (drop_suffix _ _)).trans (suffix_cons x l)⟩

lemma fields_cons_ne_nil {x : UInt8} {l : List UInt8} (h : ∀ t ∈ spaces, ¬ t <+: x :: l) : fields (x :: l) ≠ [] := by
  rw [fields, fieldsFrom, find_eq_none_iff.mpr h]
  exact fieldsFrom_ne_nil 0 l _ (by simp)

lemma not_isPrefix_trimSpace : ∀ t ∈ spaces, ¬ t <+: trimSpace l := fun t ht h =>
  not_isPrefix_stripAll spaces_ne_nil l t ht (h.trans (trimEnd_isPrefix _))

lemma not_isSuffix_trimSpace : ∀ t ∈ spaces, ¬ t <:+ trimSpace l := fun t ht h =>
  not_isPrefix_stripAll reversed_ne_nil (trimStart l).reverse t.reverse (mem_map_of_mem ht)
    (reverse_suffix.mp (by rwa [reverse_reverse]))

end Trim
