import GoGit.PathJoin
import GoGit.PathTree

namespace GoGit.IndexFormat

open SlashPath PathTree List

/-- The loop over the parts of a name, with the path before and after each part. -/
def eachPart {ε σ : Type} (step : σ → Bytes → Bytes → Except ε σ) : σ → Bytes → List Bytes → Except ε σ
  | s, _, [] => .ok s
  | s, fullpath, part :: parts => do
    let s ← step s fullpath (pathJoin fullpath part)
    eachPart step s (pathJoin fullpath part) parts

/-- The name is made of names of entries, with slashes between them. -/
def Proper (e : Entry) : Prop := ∃ p, p ≠ [] ∧ e.name = text p

def fileOf (e : Entry) : List Component × Entry := ((path e.name).getD [], e)

lemma Proper.spec {e : Entry} (h : Proper e) : (fileOf e).1 ≠ [] ∧ e.name = text (fileOf e).1 := by
  obtain ⟨p, hne, hname⟩ := h
  have hpath : (fileOf e).1 = p := by rw [fileOf, hname, path_text, Option.getD_some]
  exact ⟨hpath ▸ hne, hpath ▸ hname⟩

lemma fileOf_ne_nil {entries : List Entry} (h : ∀ e ∈ entries, Proper e) : ∀ f ∈ entries.map fileOf, f.1 ≠ [] := by
  intro f hf
  obtain ⟨e, he, rfl⟩ := mem_map.mp hf
  exact (h e he).spec.1

abbrev Items := List (Item Component Entry)

def request (e : Entry) (q : List Component) (c : Component) : Item Component Entry :=
  ⟨q, c, if text (q ++ [c]) = e.name then some e else none⟩

def Under (e d : Entry) : Prop := ∃ rest, d.name = e.name ++ slash :: rest

lemma under_iff_prefix {e d : Entry} : Under e d ↔ e.name ++ [slash] <+: d.name := by
  constructor
  · rintro ⟨rest, h⟩
    exact ⟨rest, by rw [h, append_assoc, singleton_append]⟩
  · rintro ⟨rest, h⟩
    exact ⟨rest, by rw [← h, append_assoc, singleton_append]⟩

instance (e d : Entry) : Decidable (Under e d) := decidable_of_iff' _ under_iff_prefix

lemma under_iff {e d : Entry} (he : Proper e) (hd : Proper d) : Under e d ↔ Below (fileOf e).1 (fileOf d).1 := by
  obtain ⟨hne, hname⟩ := he.spec
  rw [Under, hname, hd.spec.2, slash, text_eq_append_iff hne, below_append]

section Grows

variable {ε σ : Type} {step : Entry → σ → Bytes → Bytes → Except ε σ} {Inv : σ → Items → Prop}
  {counts : Option Entry → Bool} {s : σ} {items : Items} {e : Entry}

/-- What one part does to the state is what its request does to the items. -/
def Grows (step : Entry → σ → Bytes → Bytes → Except ε σ) (Inv : σ → Items → Prop) (counts : Option Entry → Bool)
    (e : Entry) : Prop :=
  ∀ s items q c, Inv s items → q = [] ∨ there counts items q = true →
    ∃ s', step e s (text q) (text (q ++ [c])) = .ok s' ∧ Inv s' (add counts items (request e q c))

lemma Grows.eachPart {q rest : List Component} (h : Grows step Inv counts e) (hnone : counts none = true)
    (hs : Inv s items) (hq : q = [] ∨ there counts items q = true) (hrest : rest ≠ [])
    (hname : e.name = text (q ++ rest)) : ∃ s', eachPart (step e) s (text q) (rest.map Component.name) = .ok s' ∧
      Inv s' ((requests e q rest).foldl (add counts) items) := by
  induction rest generalizing q s items with
  | nil => exact absurd rfl hrest
  | cons c rest ih =>
    obtain ⟨s', hstep, hinv⟩ := h s items q c hs hq
    rw [map_cons, IndexFormat.eachPart, pathJoin_text, hstep]
    cases rest with
    | nil =>
      have hreq : request e q c = ⟨q, c, some e⟩ := by rw [request, if_pos hname.symm]
      rw [hreq] at hinv
      exact ⟨s', rfl, hinv⟩
    | cons d rest =>
      have hreq : request e q c = ⟨q, c, none⟩ := by
        rw [request, if_neg]
        rw [hname]
        intro htext
        simpa using text_inj htext
      rw [hreq] at hinv
      have hthere : there counts (add counts items ⟨q, c, none⟩) (q ++ [c]) = true := by
        rw [there_add, there_iff]
        exact ⟨⟨q, c, none⟩, by simp, rfl, hnone⟩
      obtain ⟨s'', hrun, hinv'⟩ := ih hinv (.inr hthere) (by simp) (by simpa using hname)
      exact ⟨s'', hrun, hinv'⟩

lemma Grows.entries {entries : List Entry} (h : ∀ e ∈ entries, Grows step Inv counts e) (hnone : counts none = true)
    (hs : Inv s items) (hproper : ∀ e ∈ entries, Proper e) :
    ∃ s', entries.foldlM (fun s e => IndexFormat.eachPart (step e) s [] (e.name.splitOn slash)) s = .ok s' ∧
      Inv s' ((asked (entries.map fileOf)).foldl (add counts) items) := by
  induction entries generalizing s items with
  | nil => exact ⟨s, rfl, hs⟩
  | cons e entries ih =>
    obtain ⟨hne, hname⟩ := (hproper e mem_cons_self).spec
    have hpart := (h e mem_cons_self).eachPart hnone hs (.inl rfl) hne (by simpa using hname)
    rw [← splitOn_text hne, ← hname] at hpart
    obtain ⟨s', hstep, hinv⟩ := hpart
    obtain ⟨s'', hrun, hinv'⟩ := ih (fun d hd => h d (mem_cons_of_mem _ hd)) hinv
      fun d hd => hproper d (mem_cons_of_mem _ hd)
    refine ⟨s'', ?_, ?_⟩
    · rw [foldlM_cons]
      exact (congrArg (fun x => x >>= _) hstep).trans hrun
    · rwa [map_cons, asked_cons, foldl_append]

end Grows

lemma path_of_mem_grow {counts : Option Entry → Bool} {entries : List Entry} {it : Item Component Entry}
    (hit : it ∈ grow counts (asked (entries.map fileOf))) : ∃ e ∈ entries, it.path <+: (fileOf e).1 := by
  obtain ⟨f, hf, hreq⟩ := mem_flatMap.mp (mem_of_mem_grow hit)
  obtain ⟨e, he, rfl⟩ := mem_map.mp hf
  exact ⟨e, he, by simpa using path_of_mem_requests hreq⟩

def partCount (entries : List Entry) : ℕ := (entries.map fun e => (e.name.splitOn slash).length).sum

lemma shallow_grow {counts : Option Entry → Bool} {entries : List Entry} (h : ∀ e ∈ entries, Proper e) (k : ℕ) :
    Shallow (grow counts (asked (entries.map fileOf))) [] (partCount entries + k) := by
  intro it hit _
  obtain ⟨e, he, hpre⟩ := path_of_mem_grow hit
  obtain ⟨hne, hname⟩ := (h e he).spec
  have hlen : (e.name.splitOn slash).length = (fileOf e).1.length := by
    rw [hname, slash, splitOn_text hne, length_map]
  have hsum : (e.name.splitOn slash).length ≤ partCount entries :=
    single_le_sum (by simp) _ (mem_map_of_mem (f := fun e : Entry => (e.name.splitOn slash).length) he)
  have hpath := hpre.length_le
  rw [Item.path, length_append, length_singleton] at hpath
  simp only [length_nil]
  omega

end GoGit.IndexFormat
