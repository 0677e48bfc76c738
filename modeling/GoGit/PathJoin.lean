import GoGit.IndexFormat
import GoGit.SlashPath

namespace GoGit.IndexFormat

open SlashPath List

def pathJoin (a b : Bytes) : Bytes :=
  if a = [] then if b = [] then [] else pathClean b
  else pathClean (a ++ slash :: b)

def pathBase (p : Bytes) : Bytes :=
  if p = [] then [dot]
  else
    let p := p.rdropWhile (· = slash)
    let p := p.rtakeWhile (· ≠ slash)
    if p = [] then [slash] else p

lemma cleanStep_component (rooted : Bool) (stack : List Bytes) (c : Component) :
    cleanStep rooted stack c.name = c.name :: stack := by
  obtain ⟨hnil, -, hdot, hdots⟩ := c.valid
  have hskip : ¬ (c.name = [] ∨ c.name = [dot]) := by simp [hnil, dot, hdot]
  have hup : c.name ≠ [dot, dot] := hdots
  simp only [cleanStep, if_neg hskip, if_neg hup]

lemma foldl_cleanStep (rooted : Bool) (p : List Component) (stack : List Bytes) :
    (p.map Component.name).foldl (cleanStep rooted) stack = (p.map Component.name).reverse ++ stack := by
  induction p generalizing stack with
  | nil => rfl
  | cons c p ih => rw [map_cons, foldl_cons, cleanStep_component, ih, reverse_cons, append_assoc, singleton_append]

lemma pathClean_text {p : List Component} (h : p ≠ []) : pathClean (text p) = text p := by
  have hbody : ∀ rooted, List.intercalate [slash] (((text p).splitOn slash).foldl (cleanStep rooted) []).reverse =
      text p := by
    intro rooted
    rw [slash, splitOn_text h, foldl_cleanStep, append_nil, reverse_reverse, text]
  simp only [pathClean, hbody]
  have hhead : (text p).head? ≠ some slash := head?_text p
  rw [if_neg hhead, if_neg (mt text_eq_nil.mp h)]

lemma pathJoin_text (p : List Component) (c : Component) : pathJoin (text p) c.name = text (p ++ [c]) := by
  by_cases h : p = []
  · subst h
    have hclean := pathClean_text (cons_ne_nil c [])
    rw [text_singleton] at hclean
    rw [pathJoin, if_pos (text_eq_nil.mpr rfl), if_neg c.valid.1, hclean, nil_append, text_singleton]
  · have hsnoc := text_append h (cons_ne_nil c [])
    rw [text_singleton] at hsnoc
    rw [pathJoin, if_neg (mt text_eq_nil.mp h), slash, ← hsnoc, pathClean_text (by simp)]

lemma pathBase_text (p : List Component) (c : Component) : pathBase (text (p ++ [c])) = c.name := by
  have hnil := c.valid.1
  have hslash : slash ∉ c.name := c.valid.2.1
  have hlast : ∃ bs, text (p ++ [c]) = bs ++ c.name ∧ (bs = [] ∨ ∃ bs', bs = bs' ++ [slash]) := by
    by_cases h : p = []
    · exact ⟨[], by simp [h], .inl rfl⟩
    · exact ⟨text p ++ [slash], by simp [text_append h (cons_ne_nil c []), slash], .inr ⟨_, rfl⟩⟩
  obtain ⟨bs, htext, hbs⟩ := hlast
  have hdrop : (bs ++ c.name).rdropWhile (· = slash) = bs ++ c.name := by
    rw [rdropWhile_eq_self_iff]
    intro hne
    rw [getLast_append_of_ne_nil hne hnil]
    have hmem := getLast_mem hnil
    simpa using fun h : c.name.getLast hnil = slash => hslash (h ▸ hmem)
  have htake : (bs ++ c.name).rtakeWhile (· ≠ slash) = c.name := by
    have hall : ∀ b ∈ c.name.reverse, decide (b ≠ slash) = true := by
      intro b hb
      simpa using fun h : b = slash => hslash (h ▸ mem_reverse.mp hb)
    rw [List.rtakeWhile, reverse_append, takeWhile_append_of_pos hall]
    obtain rfl | ⟨bs', rfl⟩ := hbs <;> simp
  rw [pathBase, htext, if_neg (by simp [hnil]), hdrop]
  simp only [htake]
  exact if_neg hnil

end GoGit.IndexFormat
