import Mathlib

namespace PathTree

open List

variable {ν α : Type*}

structure Item (ν α : Type*) where
  parent : List ν
  name : ν
  value : Option α

namespace Item

def path (it : Item ν α) : List ν := it.parent ++ [it.name]

end Item

/-- The directories on the way to a file, and the file. -/
def requests (v : α) : List ν → List ν → List (Item ν α)
  | _, [] => []
  | parent, [c] => [⟨parent, c, some v⟩]
  | parent, c :: d :: rest => ⟨parent, c, none⟩ :: requests v (parent ++ [c]) (d :: rest)

def asked (fs : List (List ν × α)) : List (Item ν α) := fs.flatMap fun f => requests f.2 [] f.1

def Below (p q : List ν) : Prop := p <+: q ∧ p ≠ q

instance [DecidableEq ν] (p q : List ν) : Decidable (Below p q) := inferInstanceAs (Decidable (_ ∧ _))

section Requests

variable {v : α} {parent rest q : List ν} {it : Item ν α}

lemma below_append {p q : List ν} : Below p q ↔ ∃ c cs, q = p ++ c :: cs := by
  constructor
  · rintro ⟨⟨rest, rfl⟩, hne⟩
    cases rest with
    | nil => simp at hne
    | cons c cs => exact ⟨c, cs, rfl⟩
  · rintro ⟨c, cs, rfl⟩
    exact ⟨prefix_append _ _, by simp⟩

lemma mem_requests : it ∈ requests v parent rest ↔
    ∃ a c b, rest = a ++ c :: b ∧ it = ⟨parent ++ a, c, if b = [] then some v else none⟩ := by
  induction rest generalizing parent with
  | nil => simp [requests]
  | cons c rest ih =>
    have hcons : it ∈ requests v parent (c :: rest) ↔
        it = ⟨parent, c, if rest = [] then some v else none⟩ ∨ it ∈ requests v (parent ++ [c]) rest := by
      cases rest <;> simp [requests]
    rw [hcons, ih]
    constructor
    · rintro (rfl | ⟨a, c', b, rfl, rfl⟩)
      · exact ⟨[], c, rest, rfl, by simp⟩
      · exact ⟨c :: a, c', b, rfl, by simp⟩
    · rintro ⟨a, c', b, heq, rfl⟩
      cases a with
      | nil =>
        obtain ⟨rfl, rfl⟩ := List.cons.inj heq
        exact .inl (by simp)
      | cons x a =>
        obtain ⟨rfl, rfl⟩ := List.cons.inj heq
        exact .inr ⟨a, c', b, rfl, by simp⟩

lemma dir_mem_requests : (∃ it ∈ requests v parent rest, it.path = q ∧ it.value = none) ↔
    Below parent q ∧ Below q (parent ++ rest) := by
  simp only [mem_requests]
  constructor
  · rintro ⟨_, ⟨a, c, b, rfl, rfl⟩, rfl, hv⟩
    cases b with
    | nil => simp at hv
    | cons d b => exact ⟨⟨⟨a ++ [c], by simp [Item.path]⟩, by simp [Item.path]⟩, ⟨d :: b, by simp [Item.path]⟩,
        by simp [Item.path]⟩
  · rintro ⟨h, h'⟩
    obtain ⟨c, cs, rfl⟩ := below_append.mp h
    obtain ⟨d, ds, heq⟩ := below_append.mp h'
    obtain ⟨a, x, hax⟩ := (eq_nil_or_concat' (c :: cs)).resolve_left (by simp)
    exact ⟨_, ⟨a, x, d :: ds, by simpa [hax] using heq, rfl⟩, by simp [Item.path, hax], by simp⟩

lemma parent_of_mem_requests (h : it ∈ requests v parent rest) :
    it.parent = parent ∨ ∃ d ∈ requests v parent rest, d.path = it.parent ∧ d.value = none := by
  rw [dir_mem_requests]
  obtain ⟨a, c, b, rfl, rfl⟩ := mem_requests.mp h
  cases a with
  | nil => exact .inl (append_nil _)
  | cons x a => exact .inr ⟨⟨prefix_append _ _, by simp⟩, ⟨c :: b, by simp⟩, by simp⟩

lemma path_of_mem_requests (h : it ∈ requests v parent rest) : it.path <+: parent ++ rest := by
  obtain ⟨a, c, b, rfl, rfl⟩ := mem_requests.mp h
  exact ⟨b, by simp [Item.path]⟩

lemma exists_mem_requests (hrest : rest ≠ []) :
    ∃ it ∈ requests v parent rest, it.path = parent ++ rest := by
  obtain ⟨a, c, rfl⟩ := (eq_nil_or_concat' rest).resolve_left hrest
  exact ⟨_, mem_requests.mpr ⟨a, c, [], rfl, rfl⟩, by simp [Item.path]⟩

end Requests

section Grow

variable [DecidableEq ν] (counts : Option α → Bool)

def there (items : List (Item ν α)) (p : List ν) : Bool :=
  items.any fun it => decide (it.path = p) && counts it.value

def add (items : List (Item ν α)) (it : Item ν α) : List (Item ν α) :=
  if there counts items it.path then items else items ++ [it]

def grow (rs : List (Item ν α)) : List (Item ν α) := rs.foldl (add counts) []

variable {counts} {items rs : List (Item ν α)} {it : Item ν α} {p : List ν}

lemma there_iff : there counts items p = true ↔ ∃ it ∈ items, it.path = p ∧ counts it.value = true := by
  simp [there]

lemma there_add : there counts (add counts items it) p = there counts (items ++ [it]) p := by
  rw [add]
  split_ifs with h
  · by_cases hp : it.path = p
    · subst hp
      rw [h, eq_comm, there, any_append, Bool.or_eq_true]
      exact .inl h
    · simp [there, hp]
  · rfl

lemma there_foldl : there counts (rs.foldl (add counts) items) p = there counts (items ++ rs) p := by
  induction rs generalizing items with
  | nil => simp
  | cons r rs ih =>
    have hadd := @there_add ν α _ counts items r p
    rw [foldl_cons, ih]
    simp only [there, any_append, any_cons, any_nil, Bool.or_false] at hadd ⊢
    rw [hadd, Bool.or_assoc]

lemma there_grow : there counts (grow counts rs) p = there counts rs p := by
  rw [grow, there_foldl, nil_append]

lemma mem_of_mem_grow (h : it ∈ grow counts rs) : it ∈ rs := by
  refine rs.foldlRecOn (motive := fun items => ∀ it ∈ items, it ∈ rs) (add counts) (by simp) ?_ it h
  intro items hitems r hr
  rw [add]
  split_ifs
  · exact hitems
  · exact forall_mem_append.mpr ⟨hitems, forall_mem_singleton.mpr hr⟩

end Grow

section Dirs

variable [DecidableEq ν]
  {f : List ν × α}

def dirs (items : List (Item ν α)) : List (List ν) := (items.filter fun it => it.value.isNone).map Item.path

def files (items : List (Item ν α)) : List (List ν × α) :=
  items.filterMap fun it => it.value.map fun v => (it.path, v)

/-- The files with no earlier file below their path. -/
def kept (done : List (List ν × α)) : List (List ν × α) → List (List ν × α)
  | [] => []
  | f :: fs =>
    if ∃ d ∈ done, Below f.1 d.1 then kept (done ++ [f]) fs else f :: kept (done ++ [f]) fs

abbrev tree (fs : List (List ν × α)) : List (Item ν α) := grow Option.isNone (asked fs)

variable {items : List (Item ν α)} {fs : List (List ν × α)} {p : List ν} {v : α}

lemma there_isNone_iff : there Option.isNone items p = true ↔ p ∈ dirs items := by
  rw [there_iff, dirs, mem_map]
  simp only [mem_filter, and_assoc, Option.isNone_iff_eq_none]
  exact exists_congr fun it => and_congr_right fun _ => and_comm

omit [DecidableEq ν] in
lemma dir_mem_asked : (∃ it ∈ asked fs, it.path = p ∧ it.value = none) ↔ p ≠ [] ∧ ∃ f ∈ fs, Below p f.1 := by
  have hnil : Below [] p ↔ p ≠ [] := by simp [Below, eq_comm]
  constructor
  · rintro ⟨it, hit, h⟩
    obtain ⟨f, hf, hit⟩ := mem_flatMap.mp hit
    obtain ⟨hp, hbelow⟩ := dir_mem_requests.mp ⟨it, hit, h⟩
    exact ⟨hnil.mp hp, f, hf, by simpa using hbelow⟩
  · rintro ⟨hp, f, hf, hbelow⟩
    obtain ⟨it, hit, h⟩ := (@dir_mem_requests ν α f.2 [] f.1 p).mpr ⟨hnil.mpr hp, by simpa using hbelow⟩
    exact ⟨it, mem_flatMap.mpr ⟨f, hf, hit⟩, h⟩

lemma mem_dirs_tree : p ∈ dirs (tree fs) ↔ p ≠ [] ∧ ∃ f ∈ fs, Below p f.1 := by
  rw [← there_isNone_iff, there_grow, there_iff, ← dir_mem_asked]
  simp

variable {it : Item ν α}

lemma parent_tree (h : it ∈ tree fs) : it.parent = [] ∨ it.parent ∈ dirs (tree fs) := by
  obtain ⟨f, hf, hit⟩ := mem_flatMap.mp (mem_of_mem_grow h)
  refine (parent_of_mem_requests hit).imp_right ?_
  rintro ⟨d, hd, hpath⟩
  rw [mem_dirs_tree, ← dir_mem_asked]
  exact ⟨d, mem_flatMap.mpr ⟨f, hf, hd⟩, hpath⟩

lemma prefix_mem_dirs_tree (h : it ∈ tree fs) (hp : p ≠ []) (hpre : p <+: it.parent) : p ∈ dirs (tree fs) := by
  have hparent : it.parent ≠ [] := fun hnil => hp (prefix_nil.mp (hnil ▸ hpre))
  obtain ⟨-, f, hf, hbelow⟩ := mem_dirs_tree.mp ((parent_tree h).resolve_left hparent)
  refine mem_dirs_tree.mpr ⟨hp, f, hf, hpre.trans hbelow.1, ?_⟩
  rintro rfl
  exact hbelow.2 (hbelow.1.eq_of_length_le hpre.length_le)

lemma nodup_dirs_add (h : (dirs items).Nodup) (it : Item ν α) : (dirs (add Option.isNone items it)).Nodup := by
  rw [add]
  split_ifs with hthere
  · exact h
  · rw [there_isNone_iff] at hthere
    cases hv : it.value with
    | none =>
      have hdirs : dirs (items ++ [it]) = dirs items ++ [it.path] := by simp [dirs, hv]
      rw [hdirs]
      exact h.append (nodup_singleton _) (disjoint_singleton.mpr hthere)
    | some v =>
      have hdirs : dirs (items ++ [it]) = dirs items := by simp [dirs, hv]
      rwa [hdirs]

lemma nodup_dirs_tree : (dirs (tree fs)).Nodup :=
  (asked fs).foldlRecOn (motive := fun items => (dirs items).Nodup) _ nodup_nil fun _ h it _ => nodup_dirs_add h it

omit [DecidableEq ν] in
lemma asked_append (fs gs : List (List ν × α)) : asked (fs ++ gs) = asked fs ++ asked gs := by simp [asked]

omit [DecidableEq ν] in
lemma asked_cons (f : List ν × α) (fs : List (List ν × α)) : asked (f :: fs) = requests f.2 [] f.1 ++ asked fs := by
  simp [asked]

lemma files_requests (counts : Option α → Bool) (items : List (Item ν α)) {parent rest : List ν} (hrest : rest ≠ []) :
    files ((requests v parent rest).foldl (add counts) items) =
      files items ++ if there counts items (parent ++ rest) then [] else [(parent ++ rest, v)] := by
  induction rest generalizing parent items with
  | nil => exact absurd rfl hrest
  | cons c rest ih =>
    cases rest with
    | nil =>
      simp only [requests, foldl_cons, foldl_nil, add]
      change files (if there counts items (parent ++ [c]) = true then _ else _) = _
      split_ifs <;> simp [files, Item.path]
    | cons d rest =>
      have hadd : ∀ q, q ≠ parent ++ [c] →
          there counts (add counts items ⟨parent, c, none⟩) q = there counts items q := by
        intro q hq
        rw [there_add]
        simp [there, Item.path, Ne.symm hq]
      have hfiles : files (add counts items ⟨parent, c, none⟩) = files items := by
        rw [add]
        split_ifs <;> simp [files]
      rw [requests, foldl_cons, ih _ (by simp), hfiles, append_assoc, singleton_append,
        hadd (parent ++ c :: d :: rest) (by simp)]

lemma files_grow_snoc (counts : Option α → Bool) (hf : f.1 ≠ []) : files (grow counts (asked (fs ++ [f]))) =
      files (grow counts (asked fs)) ++ if there counts (asked fs) f.1 then [] else [f] := by
  have hasked : asked [f] = requests f.2 [] f.1 := by simp [asked]
  rw [grow, asked_append, foldl_append, hasked, files_requests counts _ hf, nil_append, ← grow, there_grow]

lemma kept_append (done fs gs : List (List ν × α)) : kept done (fs ++ gs) = kept done fs ++ kept (done ++ fs) gs := by
  induction fs generalizing done with
  | nil => simp [kept]
  | cons f fs ih =>
    rw [cons_append, kept, kept, ih, append_assoc, singleton_append]
    split_ifs <;> simp

lemma files_tree (hne : ∀ f ∈ fs, f.1 ≠ []) : files (tree fs) = kept [] fs := by
  induction fs using List.reverseRecOn with
  | nil => rfl
  | append_singleton fs f ih =>
    have hf : f.1 ≠ [] := hne f (by simp)
    have hthere : there Option.isNone (asked fs) f.1 = true ↔ ∃ d ∈ fs, Below f.1 d.1 := by
      rw [← there_grow, there_isNone_iff, mem_dirs_tree]
      exact and_iff_right hf
    rw [tree, files_grow_snoc _ hf, ih fun g hg => hne g (by simp [hg]), kept_append]
    simp only [hthere, kept, nil_append]

variable {done : List (List ν × α)}

lemma mem_kept_of_not_below (hf : f ∈ fs) (h : ∀ d ∈ done ++ fs, ¬ Below f.1 d.1) : f ∈ kept done fs := by
  obtain ⟨pre, post, rfl⟩ := append_of_mem hf
  rw [kept_append, mem_append, kept, if_neg]
  · exact .inr mem_cons_self
  · rintro ⟨d, hd, hbelow⟩
    refine h d ?_ hbelow
    rw [← append_assoc]
    exact mem_append_left _ hd

lemma mem_of_mem_kept (h : f ∈ kept done fs) :
    ∃ pre post, fs = pre ++ f :: post ∧ ¬ ∃ d ∈ done ++ pre, Below f.1 d.1 := by
  induction fs generalizing done with
  | nil => simp [kept] at h
  | cons g fs ih =>
    have htail : f ∈ kept (done ++ [g]) fs →
        ∃ pre post, g :: fs = pre ++ f :: post ∧ ¬ ∃ d ∈ done ++ pre, Below f.1 d.1 := by
      intro h
      obtain ⟨pre, post, rfl, hnot⟩ := ih h
      exact ⟨g :: pre, post, rfl, by simpa using hnot⟩
    rw [kept] at h
    split_ifs at h with hg
    · exact htail h
    · rcases mem_cons.mp h with rfl | h
      · exact ⟨[], fs, rfl, by simpa using hg⟩
      · exact htail h

lemma kept_sublist (done fs : List (List ν × α)) : (kept done fs).Sublist fs := by
  induction fs generalizing done with
  | nil => exact List.Sublist.refl _
  | cons f fs ih =>
    rw [kept]
    split_ifs
    · exact (ih _).cons f
    · exact (ih _).cons_cons f

lemma exists_item_tree (hne : ∀ f ∈ fs, f.1 ≠ []) (hf : f ∈ fs) (hp : p ≠ []) (hpre : p <+: f.1) :
    ∃ it ∈ tree fs, it.path = p := by
  by_cases hdir : p ∈ dirs (tree fs)
  · obtain ⟨it, hit, hpath⟩ := mem_map.mp hdir
    exact ⟨it, (mem_filter.mp hit).1, hpath⟩
  · have hnot : ∀ d ∈ fs, ¬ Below p d.1 := fun d hd hbelow => hdir (mem_dirs_tree.mpr ⟨hp, d, hd, hbelow⟩)
    have heq : p = f.1 := by
      by_contra hne
      exact hnot f hf ⟨hpre, hne⟩
    have hkept : f ∈ files (tree fs) := by
      rw [files_tree hne]
      exact mem_kept_of_not_below hf (by simpa [← heq] using hnot)
    obtain ⟨it, hit, hval⟩ := mem_filterMap.mp hkept
    obtain ⟨v, -, rfl⟩ := Option.map_eq_some_iff.mp hval
    exact ⟨it, hit, heq.symm⟩

omit [DecidableEq ν] in
lemma mem_files : f ∈ files items ↔ ∃ it ∈ items, it.path = f.1 ∧ it.value = some f.2 := by
  simp [files, Prod.ext_iff, and_comm]

omit [DecidableEq ν] in
lemma nodup_paths_iff : (items.map Item.path).Nodup ↔
    (dirs items).Nodup ∧ ((files items).map Prod.fst).Nodup ∧ ∀ f ∈ files items, f.1 ∉ dirs items := by
  have hfiles : (files items).map Prod.fst = (items.filter fun it => !it.value.isNone).map Item.path := by
    induction items with
    | nil => rfl
    | cons it items ih =>
      cases hv : it.value with
      | none => simpa [files, hv] using ih
      | some v => simpa [files, hv] using ih
  have hperm : (dirs items ++ (files items).map Prod.fst).Perm (items.map Item.path) := by
    rw [hfiles, dirs, ← map_append]
    exact (filter_append_perm (fun it : Item ν α => it.value.isNone) items).map Item.path
  rw [← hperm.nodup_iff, nodup_append', disjoint_right]
  simp only [forall_mem_map]

lemma pairwise_of_splits {β : Type*} {R : β → β → Prop} {l : List β}
    (h : ∀ pre a post, l = pre ++ a :: post → ∀ b ∈ post, R a b) : l.Pairwise R := by
  induction l with
  | nil => exact List.Pairwise.nil
  | cons a l ih =>
    refine List.Pairwise.cons (h [] a l rfl) (ih ?_)
    rintro pre b post rfl
    exact h (a :: pre) b post rfl

/-- The chosen files make up the tree, each path there once. -/
lemma tree_exact_iff {β : Type*} (hne : ∀ f ∈ fs, f.1 ≠ []) (chosen : α → Prop) (val : α → β) :
    (((tree fs).map Item.path).Nodup ∧ ∀ p b, (∃ f ∈ files (tree fs), f.1 = p ∧ val f.2 = b) ↔
        ∃ f ∈ fs, chosen f.2 ∧ f.1 = p ∧ val f.2 = b) ↔ ∀ pre f post, fs = pre ++ f :: post →
        (chosen f.2 → ∀ d ∈ pre ++ post, ¬ f.1 <+: d.1) ∧ (¬ chosen f.2 → ∃ d ∈ pre, Below f.1 d.1) := by
  rw [nodup_paths_iff, files_tree hne]
  constructor
  · rintro ⟨⟨-, hnodup, hdisj⟩, hval⟩ pre f post rfl
    have hmem : ∀ {g}, g ∈ kept [] (pre ++ f :: post) → ∀ d ∈ pre ++ f :: post, ¬ Below g.1 d.1 := by
      intro g hg d hd hbelow
      obtain ⟨a, b, heq, -⟩ := mem_of_mem_kept hg
      exact hdisj g hg (mem_dirs_tree.mpr ⟨hne g (heq ▸ by simp), d, hd, hbelow⟩)
    -- a file that is kept is the only one at its path and a chosen one
    have honly : (∀ d ∈ pre ++ f :: post, ¬ Below f.1 d.1) → ∀ d ∈ pre ++ post, d.1 ≠ f.1 := by
      intro hnot d hd hpath
      have hfree : ¬ ∃ d ∈ [] ++ pre, Below f.1 d.1 := by
        rintro ⟨d, hd, hbelow⟩
        exact hnot d (mem_append_left _ hd) hbelow
      rw [kept_append, kept, if_neg hfree] at hnodup
      rw [map_append, map_cons, nodup_append, nodup_cons] at hnodup
      have hd' : ∀ e ∈ pre ++ f :: post, ¬ Below d.1 e.1 := hpath ▸ hnot
      rcases mem_append.mp hd with hd | hd
      · have hk : d ∈ kept [] pre := mem_kept_of_not_below hd fun e he => hd' e (mem_append_left _ he)
        exact hnodup.2.2 _ (mem_map_of_mem hk) _ mem_cons_self hpath
      · have hk : d ∈ kept ([] ++ pre ++ [f]) post :=
          mem_kept_of_not_below hd fun e he => hd' e (by simpa using he)
        exact hnodup.2.1.1 (hpath ▸ mem_map_of_mem hk)
    have hchosen : (∀ d ∈ pre ++ f :: post, ¬ Below f.1 d.1) → chosen f.2 := by
      intro hnot
      have hk : f ∈ kept [] (pre ++ f :: post) := mem_kept_of_not_below (by simp) hnot
      obtain ⟨g, hg, hsel, hpath, -⟩ := (hval f.1 (val f.2)).mp ⟨f, hk, rfl, rfl⟩
      rcases mem_cons.mp (perm_middle.mem_iff.mp hg) with rfl | hg
      · exact hsel
      · exact absurd hpath (honly hnot g hg)
    constructor
    · intro hsel
      obtain ⟨g, hg, hpath, -⟩ := (hval f.1 (val f.2)).mpr ⟨f, by simp, hsel, rfl, rfl⟩
      have hnot : ∀ d ∈ pre ++ f :: post, ¬ Below f.1 d.1 := hpath ▸ hmem hg
      intro d hd hpre
      exact hnot d (perm_middle.mem_iff.mpr (mem_cons_of_mem _ hd)) ⟨hpre, (honly hnot d hd).symm⟩
    · intro hsel
      by_contra hnone
      have hk : f ∈ kept [] (pre ++ f :: post) := by
        rw [kept_append, mem_append, kept, if_neg (by simpa using hnone)]
        exact .inr mem_cons_self
      exact hsel (hchosen (hmem hk))
  · intro h
    have hchosen : ∀ f ∈ fs, chosen f.2 → ∀ d ∈ fs, ¬ Below f.1 d.1 := by
      intro f hf hsel d hd hbelow
      obtain ⟨pre, post, rfl⟩ := append_of_mem hf
      rcases mem_cons.mp (perm_middle.mem_iff.mp hd) with rfl | hd
      · exact hbelow.2 rfl
      · exact (h pre f post rfl).1 hsel d hd hbelow.1
    have hkept : ∀ f, f ∈ kept [] fs ↔ f ∈ fs ∧ chosen f.2 := by
      intro f
      constructor
      · intro hf
        obtain ⟨pre, post, heq, hnot⟩ := mem_of_mem_kept hf
        refine ⟨heq ▸ by simp, ?_⟩
        by_contra hsel
        exact hnot (by simpa using (h pre f post heq).2 hsel)
      · rintro ⟨hf, hsel⟩
        exact mem_kept_of_not_below hf (by simpa using hchosen f hf hsel)
    have hnodup : ((kept [] fs).map Prod.fst).Nodup := by
      have hpair : fs.Pairwise fun f d => chosen f.2 → f.1 ≠ d.1 := by
        refine pairwise_of_splits ?_
        intro pre f post heq d hd hsel hpath
        exact (h pre f post heq).1 hsel d (mem_append_right _ hd) (hpath ▸ prefix_rfl)
      rw [List.Nodup, pairwise_map]
      refine List.Pairwise.imp_of_mem ?_ (hpair.sublist (kept_sublist [] fs))
      intro f d hf _ hne
      exact hne ((hkept f).mp hf).2
    refine ⟨⟨nodup_dirs_tree, hnodup, ?_⟩, ?_⟩
    · intro f hf hdir
      obtain ⟨hmem, hsel⟩ := (hkept f).mp hf
      obtain ⟨-, d, hd, hbelow⟩ := mem_dirs_tree.mp hdir
      exact hchosen f hmem hsel d hd hbelow
    · intro p b
      simp only [hkept, and_assoc]

end Dirs

section Children

variable [DecidableEq ν] {items : List (Item ν α)} {it : Item ν α} {q : List ν} {n : ℕ}

def children (items : List (Item ν α)) (q : List ν) : List (Item ν α) := items.filter fun it => it.parent = q

lemma children_append (items : List (Item ν α)) (it : Item ν α) (q : List ν) :
    children (items ++ [it]) q = children items q ++ if it.parent = q then [it] else [] := by
  rw [children, children, filter_append]
  split_ifs with h <;> simp [h]

lemma mem_children : it ∈ children items q ↔ it ∈ items ∧ it.parent = q := by simp [children]

omit [DecidableEq ν] in
def Shallow (items : List (Item ν α)) (q : List ν) (n : ℕ) : Prop :=
  ∀ it ∈ items, q <+: it.parent → it.parent.length < q.length + n

omit [DecidableEq ν] in
lemma Shallow.below (h : Shallow items q (n + 1)) (c : ν) : Shallow items (q ++ [c]) n := by
  intro it hit hpre
  have := h it hit ((prefix_append q [c]).trans hpre)
  simp only [length_append, length_singleton]
  omega

def Closed (items : List (Item ν α)) : Prop := ∀ it ∈ items, ∀ p, p ≠ [] → p <+: it.parent → p ∈ dirs items

omit [DecidableEq ν] in
lemma mem_dirs_of_item (hit : it ∈ items) (hv : it.value = none) : it.path ∈ dirs items :=
  mem_map.mpr ⟨it, mem_filter.mpr ⟨hit, by simp [hv]⟩, rfl⟩

lemma Closed.dir (hc : Closed items) (hit : it ∈ items) (hpre : q <+: it.parent) (hne : it.parent ≠ q) :
    ∃ d ∈ children items q, d.value = none ∧ d.path <+: it.parent := by
  obtain ⟨c, cs, hparent⟩ := below_append.mp ⟨hpre, Ne.symm hne⟩
  have hpath : q ++ [c] <+: it.parent := ⟨cs, by simp [hparent]⟩
  obtain ⟨d, hd, hdpath⟩ := mem_map.mp (hc it hit (q ++ [c]) (by simp) hpath)
  obtain ⟨hd, hv⟩ := mem_filter.mp hd
  obtain ⟨hq, -⟩ := append_inj' hdpath rfl
  exact ⟨d, mem_children.mpr ⟨hd, hq⟩, Option.isNone_iff_eq_none.mp hv, hdpath ▸ hpath⟩

lemma nodup_paths_iff_names : (items.map Item.path).Nodup ↔ ∀ r, ((children items r).map Item.name).Nodup := by
  simp only [List.Nodup, pairwise_map, children, pairwise_filter, decide_eq_true_eq]
  simp only [pairwise_iff_forall_sublist]
  constructor
  · intro h r a b hab ha hb hname
    exact h hab (by rw [Item.path, Item.path, ha, hb, hname])
  · intro h a b hab hpath
    obtain ⟨hparent, hname⟩ := append_inj' hpath rfl
    exact h a.parent hab rfl hparent.symm (by simpa using hname)

end Children

section Once

variable [DecidableEq ν] {fs : List (List ν × α)} {p : List ν} {v : α}

abbrev once (fs : List (List ν × α)) : List (Item ν α) := grow (fun _ => true) (asked fs)

def Separate (fs : List (List ν × α)) : Prop := ∀ f ∈ fs, ∀ g ∈ fs, ¬ Below f.1 g.1

lemma nodup_once : ((once fs).map Item.path).Nodup := by
  refine (asked fs).foldlRecOn (motive := fun items => (map Item.path items).Nodup) _ nodup_nil ?_
  intro items h it _
  rw [add]
  split_ifs with hthere
  · exact h
  · rw [map_append, map_singleton]
    refine h.append (nodup_singleton _) (disjoint_singleton.mpr fun hmem => hthere ?_)
    obtain ⟨d, hd, hpath⟩ := mem_map.mp hmem
    exact there_iff.mpr ⟨d, hd, hpath, rfl⟩

lemma there_asked (hp : p ≠ []) : there (fun _ => true) (asked fs) p = true ↔ ∃ f ∈ fs, p <+: f.1 := by
  rw [there_iff]
  constructor
  · rintro ⟨it, hit, rfl, -⟩
    obtain ⟨f, hf, hreq⟩ := mem_flatMap.mp hit
    exact ⟨f, hf, by simpa using path_of_mem_requests hreq⟩
  · rintro ⟨f, hf, hpre⟩
    by_cases heq : p = f.1
    · obtain ⟨it, hit, hpath⟩ := @exists_mem_requests ν α f.2 [] f.1 (heq ▸ hp)
      exact ⟨it, mem_flatMap.mpr ⟨f, hf, hit⟩, hpath.trans heq.symm, rfl⟩
    · obtain ⟨it, hit, hpath, -⟩ := dir_mem_asked.mpr ⟨hp, f, hf, hpre, heq⟩
      exact ⟨it, hit, hpath, rfl⟩

section

variable (h : Separate fs)

include h

lemma Separate.there_asked {f : List ν × α} (hf : f ∈ fs) {gs : List (List ν × α)}
    (hgs : ∀ g ∈ gs, g ∈ fs) (hne : f.1 ≠ []) : there (fun _ => true) (asked gs) f.1 = true ↔ ∃ g ∈ gs, g.1 = f.1 := by
  rw [PathTree.there_asked hne]
  refine exists_congr fun g => and_congr_right fun hg => ?_
  constructor
  · intro hpre
    by_contra heq
    exact h f hf g (hgs g hg) ⟨hpre, Ne.symm heq⟩
  · intro heq
    exact heq ▸ prefix_rfl

lemma mem_files_once (hne : ∀ f ∈ fs, f.1 ≠ []) :
    (p, v) ∈ files (once fs) ↔ fs.find? (fun f => f.1 = p) = some (p, v) := by
  induction fs using List.reverseRecOn with
  | nil => simp [once, grow, asked, files]
  | append_singleton fs f ih =>
    have hmem : ∀ g ∈ fs, g ∈ fs ++ [f] := fun g hg => mem_append_left _ hg
    have hf : f.1 ≠ [] := hne f (by simp)
    have hrest := ih (fun a ha b hb => h a (hmem a ha) b (hmem b hb)) fun g hg => hne g (hmem g hg)
    have hthere := h.there_asked (mem_append_right fs (mem_singleton_self f)) hmem hf
    rw [once, files_grow_snoc _ hf, mem_append, hrest, find?_append]
    by_cases hp : f.1 = p
    · subst hp
      cases hfind : fs.find? fun g => g.1 = f.1 with
      | none =>
        rw [if_neg (mt hthere.mp fun ⟨g, hg, hgf⟩ => by simpa [hgf] using find?_eq_none.mp hfind g hg)]
        simp [@eq_comm _ (_, v) f]
      | some x =>
        rw [if_pos (hthere.mpr ⟨x, mem_of_find?_eq_some hfind, by simpa using find?_some hfind⟩)]
        simp
    · have hne : (p, v) ≠ f := fun heq => hp (heq ▸ rfl)
      split_ifs <;> simp [hp, hne]

lemma mem_dirs_once (hne : ∀ f ∈ fs, f.1 ≠ []) : p ∈ dirs (once fs) ↔ p ≠ [] ∧ ∃ f ∈ fs, Below p f.1 := by
  constructor
  · intro hp
    obtain ⟨it, hit, rfl⟩ := mem_map.mp hp
    obtain ⟨hit, hv⟩ := mem_filter.mp hit
    exact dir_mem_asked.mp ⟨it, mem_of_mem_grow hit, rfl, Option.isNone_iff_eq_none.mp hv⟩
  · rintro ⟨hp, f, hf, hbelow⟩
    have hthere : there (fun _ => true) (once fs) p = true := by
      rw [there_grow, there_asked hp]
      exact ⟨f, hf, hbelow.1⟩
    obtain ⟨it, hit, rfl, -⟩ := there_iff.mp hthere
    cases hv : it.value with
    | none => exact mem_map.mpr ⟨it, mem_filter.mpr ⟨hit, by simp [hv]⟩, rfl⟩
    | some v =>
      have hfile := (mem_files_once h hne).mp (mem_files.mpr ⟨it, hit, rfl, hv⟩)
      exact absurd hbelow (h _ (mem_of_find?_eq_some hfile) f hf)

lemma closed_once (hne : ∀ f ∈ fs, f.1 ≠ []) : Closed (once fs) := by
  intro it hit q hq hpre
  obtain ⟨f, hf, hreq⟩ := mem_flatMap.mp (mem_of_mem_grow hit)
  have hpath : it.path <+: f.1 := by simpa using path_of_mem_requests hreq
  refine (mem_dirs_once h hne).mpr ⟨hq, f, hf, (hpre.trans (prefix_append _ _)).trans hpath, ?_⟩
  rintro rfl
  have hlen := hpath.length_le
  have hlen' := hpre.length_le
  rw [Item.path, length_append, length_singleton] at hlen
  omega

end

end Once

end PathTree
