import Mathlib

namespace Lines

open List

variable {α : Type*} (nl : α)

def split [DecidableEq α] : List α → List (List α) × List α
  | [] => ([], [])
  | a :: text =>
    let (lines, rest) := split text
    if a = nl then ([a] :: lines, rest)
    else
      match lines with
      | [] => ([], a :: rest)
      | line :: lines => ((a :: line) :: lines, rest)

def join (lines : List (List α)) : List α := lines.flatMap (· ++ [nl])

@[simp] lemma join_nil : join nl ([] : List (List α)) = [] := rfl

@[simp] lemma join_cons (line : List α) (lines : List (List α)) :
    join nl (line :: lines) = line ++ nl :: join nl lines := by
  simp [join]

@[simp] lemma join_append (a b : List (List α)) : join nl (a ++ b) = join nl a ++ join nl b := by
  simp [join]

variable [DecidableEq α] {nl} {line text : List α} {lines : List (List α)}

lemma split_line (h : nl ∉ line) (text : List α) :
    split nl (line ++ nl :: text) = ((line ++ [nl]) :: (split nl text).1, (split nl text).2) := by
  induction line with
  | nil => simp [split]
  | cons a line ih =>
    rw [mem_cons, not_or] at h
    have ha : a ≠ nl := fun hal => h.1 hal.symm
    simp [split, ih h.2, ha]

lemma split_join (h : ∀ line ∈ lines, nl ∉ line) (text : List α) : split nl (join nl lines ++ text) =
      (lines.map (· ++ [nl]) ++ (split nl text).1, (split nl text).2) := by
  induction lines with
  | nil => simp
  | cons line lines ih =>
    rw [join_cons, append_assoc, cons_append, split_line (h line mem_cons_self),
      ih fun l hl => h l (mem_cons_of_mem _ hl)]
    rfl

lemma flatten_split (text : List α) : (split nl text).1.flatten ++ (split nl text).2 = text := by
  induction text with
  | nil => rfl
  | cons a text ih =>
    rw [split]
    split_ifs with ha
    · simpa using ih
    · cases hlines : (split nl text).1 with
      | nil => simpa [hlines] using ih
      | cons line lines => simpa [hlines] using ih

lemma split_spec (text : List α) : (∀ line ∈ (split nl text).1, ∃ l, line = l ++ [nl] ∧ nl ∉ l) ∧
    nl ∉ (split nl text).2 := by
  induction text with
  | nil => simp [split]
  | cons a text ih =>
    obtain ⟨hlines, hrest⟩ := ih
    rw [split]
    split_ifs with ha
    · subst ha
      refine ⟨fun line hline => ?_, hrest⟩
      rcases mem_cons.mp hline with rfl | hline
      · exact ⟨[], rfl, by simp⟩
      · exact hlines line hline
    · have hne : nl ≠ a := fun h => ha h.symm
      cases hsplit : (split nl text).1 with
      | nil => simp [hsplit, hne, hrest]
      | cons first lines =>
        rw [hsplit] at hlines
        simp only [hsplit]
        refine ⟨fun line hline => ?_, hrest⟩
        rcases mem_cons.mp hline with rfl | hline
        · obtain ⟨l, rfl, hl⟩ := hlines first mem_cons_self
          exact ⟨a :: l, rfl, by simp [hne, hl]⟩
        · exact hlines line (mem_cons_of_mem _ hline)

lemma join_inj {a b : List (List α)} (ha : ∀ line ∈ a, nl ∉ line) (hb : ∀ line ∈ b, nl ∉ line)
    (h : join nl a = join nl b) : a = b := by
  have hsplit := congrArg (split nl) (show join nl a ++ [] = join nl b ++ [] by simp [h])
  rw [split_join ha, split_join hb] at hsplit
  have hmap : a.map (· ++ [nl]) = b.map (· ++ [nl]) := by simpa [split] using hsplit
  exact map_injective_iff.mpr (append_left_injective [nl]) hmap

lemma line_inj {a b s t : List α} (ha : nl ∉ a) (hb : nl ∉ b) (h : a ++ nl :: s = b ++ nl :: t) : a = b ∧ s = t := by
  have hsplit := congrArg (split nl) h
  rw [split_line ha, split_line hb] at hsplit
  have hab : a = b := by simpa using congrArg (fun p => p.1.head?) hsplit
  subst hab
  exact ⟨rfl, by simpa using h⟩

omit [DecidableEq α] in
lemma join_eq_intercalate (h : lines ≠ []) : join nl lines = [nl].intercalate lines ++ [nl] := by
  induction lines with
  | nil => contradiction
  | cons line lines ih =>
    cases lines with
    | nil => simp [List.intercalate]
    | cons next lines =>
      rw [join_cons, ih (by simp)]
      simp [List.intercalate]

section Parts

variable {text sub first : List α}

omit [DecidableEq α] in
lemma prefix_append_cons_iff (h : nl ∉ sub) (a b : List α) : sub <+: a ++ nl :: b ↔ sub <+: a := by
  induction a generalizing sub with
  | nil =>
    cases sub with
    | nil => simp
    | cons c sub => simpa using fun hc : c = nl => absurd (hc ▸ mem_cons_self) h
  | cons c a ih =>
    cases sub with
    | nil => simp
    | cons d sub =>
      rw [cons_append, cons_prefix_cons, cons_prefix_cons, ih fun hin => h (mem_cons_of_mem d hin)]

omit [DecidableEq α] in
lemma infix_append_cons_iff (h : nl ∉ sub) (a b : List α) : sub <:+: a ++ nl :: b ↔ sub <:+: a ∨ sub <:+: b := by
  induction a with
  | nil =>
    have hpre := prefix_append_cons_iff h [] b
    rw [nil_append] at hpre
    rw [nil_append, infix_cons_iff, hpre, prefix_nil, infix_nil]
  | cons c a ih => rw [cons_append, infix_cons_iff, infix_cons_iff, ih, ← cons_append,
      prefix_append_cons_iff h, or_assoc]

omit [DecidableEq α] in
lemma pair_infix_iff (h : nl ∉ first) (rest : List α) :
    [nl, nl] <:+: first ++ nl :: rest ↔ [nl] <+: rest ∨ [nl, nl] <:+: rest := by
  induction first with
  | nil => simp [infix_cons_iff]
  | cons c first ih =>
    obtain ⟨hc, hfirst⟩ := not_or.mp (mt mem_cons.mpr h)
    rw [cons_append, infix_cons_iff, ih hfirst, cons_prefix_cons]
    simp [hc]

/-- By the separators of a text, from its end. -/
lemma parts_induction (nl : α) {P : List α → Prop} (word : ∀ text, nl ∉ text → P text)
    (cut : ∀ first rest, nl ∉ first → P rest → P (first ++ nl :: rest)) (text : List α) : P text := by
  by_cases h : nl ∈ text
  · obtain ⟨first, rest, rfl, hfirst⟩ := eq_append_cons_of_mem h
    exact cut first rest hfirst (parts_induction nl word cut rest)
  · exact word text h
termination_by text.length

lemma splitOn_word (h : nl ∉ text) : text.splitOn nl = [text] := by
  have hsplit := @splitOn_intercalate α [text] _ _ nl (by simpa using h) (by simp)
  rwa [intercalate_singleton] at hsplit

lemma splitOn_cut (h : nl ∉ first) (rest : List α) : (first ++ nl :: rest).splitOn nl = first :: rest.splitOn nl := by
  rw [splitOn_append_cons_self, splitOn_word h, singleton_append]

lemma not_mem_of_mem_splitOn (text : List α) : ∀ line ∈ text.splitOn nl, nl ∉ line := by
  induction text using parts_induction nl with
  | word text htext => simpa [splitOn_word htext] using htext
  | cut first rest hfirst ih => simpa [splitOn_cut hfirst, hfirst] using ih

lemma infix_iff_splitOn (h : nl ∉ sub) (text : List α) : sub <:+: text ↔ ∃ part ∈ text.splitOn nl, sub <:+: part := by
  induction text using parts_induction nl with
  | word text htext => simp [splitOn_word htext]
  | cut first rest hfirst ih => simp [splitOn_cut hfirst, infix_append_cons_iff h, ih]

lemma nil_mem_splitOn_iff (text : List α) :
    [] ∈ text.splitOn nl ↔ text = [] ∨ [nl] <+: text ∨ [nl] <:+ text ∨ [nl, nl] <:+: text := by
  induction text using parts_induction nl with
  | word text htext =>
    have hout : ∀ l : List α, nl ∈ l → ¬ l <:+: text := fun l hl hin => htext (hin.subset hl)
    have hpre : ¬ [nl] <+: text := fun hpre => hout _ (by simp) hpre.isInfix
    have hsuf : ¬ [nl] <:+ text := fun hsuf => hout _ (by simp) hsuf.isInfix
    simp [splitOn_word htext, hpre, hsuf, hout, eq_comm]
  | cut first rest hfirst ih =>
    have hpre : [nl] <+: first ++ nl :: rest ↔ first = [] := by
      cases first with
      | nil => simp
      | cons c first => simpa using fun hc : nl = c => absurd (hc ▸ mem_cons_self) hfirst
    have hsuf : [nl] <:+ first ++ nl :: rest ↔ rest = [] ∨ [nl] <:+ rest := by
      cases rest with
      | nil => simp
      | cons c rest => simp [singleton_suffix_iff_getLast?_eq_some]
    rw [splitOn_cut hfirst, mem_cons, ih, hpre, hsuf, pair_infix_iff hfirst]
    simp only [append_eq_nil_iff, reduceCtorEq, and_false, false_or, eq_comm (a := []), or_assoc, or_left_comm]

end Parts

section Scan

variable (nl)

/-- The lines without their terminators; a last line may lack it. -/
def raw (text : List α) : List (List α) :=
  (split nl text).1.map List.dropLast ++ [(split nl text).2].filter (· ≠ [])

def dropEnd (cr : α) (line : List α) : List α :=
  if line.getLast? = some cr then line.dropLast else line

/-- The lines up to one that is too long, and whether there is one. -/
def scan (cr : α) (limit : ℕ) (text : List α) : List (List α) × Bool :=
  let kept := (raw nl text).takeWhile (·.length < limit)
  (kept.map (dropEnd cr), kept.length < (raw nl text).length)

variable {nl} {cr : α} {limit : ℕ}

lemma raw_join (h : ∀ line ∈ lines, nl ∉ line) : raw nl (join nl lines) = lines := by
  have hsplit := split_join h []
  rw [append_nil] at hsplit
  rw [raw, hsplit]
  simp [split, Function.comp_def]

lemma not_mem_raw (text : List α) : ∀ line ∈ raw nl text, nl ∉ line := by
  obtain ⟨hlines, hrest⟩ := @split_spec α nl _ text
  intro line hline
  rcases mem_append.mp hline with hline | hline
  · obtain ⟨l, hl, rfl⟩ := mem_map.mp hline
    obtain ⟨l, rfl, hnl⟩ := hlines l hl
    simpa using hnl
  · obtain rfl := mem_singleton.mp (mem_filter.mp hline).1
    exact hrest

lemma dropEnd_isPrefix (cr : α) (line : List α) : dropEnd cr line <+: line := by
  unfold dropEnd
  split_ifs
  · exact dropLast_prefix line
  · exact prefix_rfl

lemma dropEnd_eq_self_iff : dropEnd cr line = line ↔ line.getLast? ≠ some cr := by
  rw [dropEnd]
  split_ifs with h
  · have hne : line ≠ [] := by
      rintro rfl
      simp at h
    simp only [h, ne_eq, not_true, iff_false]
    intro heq
    have := congrArg List.length heq
    have := length_pos_iff.mpr hne
    simp only [length_dropLast] at *
    omega
  · simp [h]

lemma not_mem_scan (text : List α) : ∀ line ∈ (scan nl cr limit text).1, nl ∉ line := by
  intro line hline
  obtain ⟨l, hl, rfl⟩ := mem_map.mp hline
  exact fun hin => not_mem_raw text l ((takeWhile_sublist _).subset hl) ((dropEnd_isPrefix cr l).subset hin)

lemma length_scan (text : List α) : ∀ line ∈ (scan nl cr limit text).1, line.length < limit := by
  intro line hline
  obtain ⟨l, hl, rfl⟩ := mem_map.mp hline
  exact lt_of_le_of_lt (dropEnd_isPrefix cr l).length_le (by simpa using mem_takeWhile_imp hl)

lemma scan_of_short (h : ∀ line ∈ raw nl text, line.length < limit) :
    scan nl cr limit text = ((raw nl text).map (dropEnd cr), false) := by
  have htake : (raw nl text).takeWhile (·.length < limit) = raw nl text :=
    takeWhile_eq_self_iff.mpr fun line hline => by simpa using h line hline
  simp [scan, htake]

lemma scan_join (h : ∀ line ∈ lines, nl ∉ line ∧ line.getLast? ≠ some cr ∧ line.length < limit) :
    scan nl cr limit (join nl lines) = (lines, false) := by
  have hraw : raw nl (join nl lines) = lines := raw_join fun line hline => (h line hline).1
  have hdrop : lines.map (dropEnd cr) = lines :=
    (map_congr_left fun line hline => dropEnd_eq_self_iff.mpr (h line hline).2.1).trans (map_id _)
  rw [scan_of_short fun line hline => (h line (hraw ▸ hline)).2.2, hraw, hdrop]

lemma short_of_scan (h : (scan nl cr limit text).2 = false) : ∀ line ∈ raw nl text, line.length < limit := by
  have hlen : (raw nl text).length ≤ ((raw nl text).takeWhile (·.length < limit)).length := by
    simpa [scan] using h
  have heq : (raw nl text).takeWhile (·.length < limit) = raw nl text :=
    (List.takeWhile_prefix _).eq_of_length_le hlen
  intro line hline
  rw [← heq] at hline
  simpa using mem_takeWhile_imp hline

end Scan

end Lines
