import Mathlib

namespace SlashPath

open List

variable {p : List Component}

structure Component where
  name : List UInt8
  valid : name ≠ [] ∧ 0x2f ∉ name ∧ name ≠ [0x2e] ∧ name ≠ [0x2e, 0x2e]
  deriving DecidableEq

@[ext] lemma Component.ext {c d : Component} (h : c.name = d.name) : c = d := by
  cases c
  cases d
  cases h
  rfl

def component? (c : List UInt8) : Option Component :=
  if h : c ≠ [] ∧ 0x2f ∉ c ∧ c ≠ [0x2e] ∧ c ≠ [0x2e, 0x2e] then some ⟨c, h⟩ else none

def push (cleaned : List (List UInt8)) (c : List UInt8) : List (List UInt8) :=
  if c = [] ∨ c = [0x2e] then cleaned
  else if c = [0x2e, 0x2e] then
    match cleaned.getLast? with
    | none => cleaned ++ [c]
    | some last => if last = [0x2e, 0x2e] then cleaned ++ [c] else cleaned.dropLast
  else cleaned ++ [c]

def clean (names : List (List UInt8)) : List (List UInt8) := names.foldl push []

/-- The path of a text; none if it leads out of the directory it starts from. -/
def path (text : List UInt8) : Option (List Component) := (clean (text.splitOn 0x2f)).mapM component?

def text (p : List Component) : List UInt8 := [0x2f].intercalate (p.map Component.name)

lemma component?_val (c : Component) : component? c.name = some c := by
  rw [component?, dif_pos c.valid]

lemma push_component (cleaned : List (List UInt8)) (c : Component) : push cleaned c.name = cleaned ++ [c.name] := by
  obtain ⟨hnil, -, hdot, hdots⟩ := c.valid
  rw [push, if_neg (by simp [hnil, hdot]), if_neg hdots]

lemma clean_components (p : List Component) : clean (p.map Component.name) = p.map Component.name := by
  have hfold : ∀ (p : List Component) (cleaned : List (List UInt8)),
      (p.map Component.name).foldl push cleaned = cleaned ++ p.map Component.name := by
    intro p
    induction p with
    | nil => simp
    | cons c p ih =>
      intro cleaned
      rw [map_cons, foldl_cons, push_component, ih, append_assoc, singleton_append]
  rw [clean, hfold, nil_append]

lemma path_text (p : List Component) : path (text p) = some p := by
  have hmap : (p.map Component.name).mapM component? = some p := by
    rw [mapM_map]
    induction p with
    | nil => rfl
    | cons c p ih => simp [mapM_cons, component?_val, ih]
  cases p with
  | nil => rfl
  | cons c p =>
    rw [path, text, splitOn_intercalate, clean_components, hmap]
    · intro l hl
      obtain ⟨d, -, rfl⟩ := mem_map.mp hl
      exact d.valid.2.1
    · simp

lemma text_inj {p q : List Component} (h : text p = text q) : p = q := by
  simpa [path_text] using congrArg path h

lemma splitOn_text (h : p ≠ []) : (text p).splitOn 0x2f = p.map Component.name := by
  rw [text, splitOn_intercalate]
  · intro l hl
    obtain ⟨d, -, rfl⟩ := mem_map.mp hl
    exact d.valid.2.1
  · simpa using h

@[simp] lemma text_singleton (c : Component) : text [c] = c.name := by simp [text]

lemma text_cons (h : p ≠ []) (c : Component) : text (c :: p) = c.name ++ 0x2f :: text p := by
  obtain ⟨d, p, rfl⟩ := exists_cons_of_ne_nil h
  simp [text, intercalate_cons_cons]

lemma mem_text {b : UInt8} (hb : b ≠ 0x2f) : b ∈ text p ↔ ∃ c ∈ p, b ∈ c.name := by
  induction p with
  | nil => simp [text]
  | cons c p ih =>
    cases p with
    | nil => simp
    | cons d p =>
      rw [text_cons (cons_ne_nil d p), mem_append, mem_cons, ih, exists_mem_cons_iff _ c (d :: p)]
      simp only [hb, false_or]

lemma text_eq_nil : text p = [] ↔ p = [] := by
  constructor
  · intro h
    exact text_inj (q := []) (h.trans rfl)
  · rintro rfl
    rfl

lemma head?_text (p : List Component) : (text p).head? ≠ some 0x2f := by
  cases p with
  | nil => simp [text]
  | cons c p =>
    obtain ⟨hnil, hslash, -⟩ := c.valid
    obtain ⟨b, bs, hname⟩ := exists_cons_of_ne_nil hnil
    have hb : b ≠ 0x2f := by
      rintro rfl
      simp [hname] at hslash
    have hhead : (text (c :: p)).head? = some b := by
      cases p with
      | nil => simp [hname]
      | cons d p => simp [text_cons, hname]
    simpa [hhead] using hb

lemma text_append {p q : List Component} (hp : p ≠ []) (hq : q ≠ []) : text (p ++ q) = text p ++ 0x2f :: text q := by
  induction p with
  | nil => exact absurd rfl hp
  | cons c p ih =>
    cases p with
    | nil => simp [text_cons hq]
    | cons d p =>
      have hc := text_cons (cons_ne_nil d p) c
      rw [cons_append, text_cons (by simp), ih (by simp), hc, append_assoc, cons_append]

lemma text_eq_append_iff {p q : List Component} (hp : p ≠ []) :
    (∃ rest, text q = text p ++ 0x2f :: rest) ↔ ∃ c cs, q = p ++ c :: cs := by
  constructor
  · rintro ⟨rest, h⟩
    have hq : q ≠ [] := by
      rintro rfl
      exact absurd (congrArg List.length h) (by simp [text])
    have hnames : q.map Component.name = p.map Component.name ++ rest.splitOn 0x2f := by
      rw [← splitOn_text hq, ← splitOn_text hp, h, splitOn_append_cons_self]
    obtain ⟨p', q', rfl, hp', hq'⟩ := map_eq_append_iff.mp hnames
    cases map_injective_iff.mpr (fun a b => Component.ext) hp'
    cases q' with
    | nil => exact absurd hq'.symm (by simp)
    | cons c cs => exact ⟨c, cs, rfl⟩
  · rintro ⟨c, cs, rfl⟩
    exact ⟨_, text_append hp (by simp)⟩

end SlashPath
