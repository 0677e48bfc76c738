import GoGit.ObjectStore
import GoGit.PathJoin

/-! `FindEntry` keeps the subtrees on the way to an entry under their cleaned paths, and looks for the names on the
way as they are given. -/
namespace GoGit.Tree

open SlashPath IndexFormat List Function

inductive FindError
  | directoryNotFound
  | entryNotFound
  | object (e : ObjectError)
  | indexOutOfRange
  deriving DecidableEq

/-- The map `t`. -/
abbrev Cache := Bytes → Option Tree

/-- Of two entries with one name the map of the entries has the last one. -/
def entry (t : Tree) (baseName : Bytes) : Except FindError TreeEntry :=
  match t.entries.reverse.find? (·.name = baseName) with
  | none => .error .entryNotFound
  | some e => .ok e

def dir (s : Store) (t : Tree) (baseName : Bytes) : Except FindError Tree :=
  match t.entry baseName with
  | .error _ => .error .directoryNotFound
  | .ok e => (s.getTree e.hash).mapError .object

/-- `filepath.Join` of any number of elements. -/
def joinAll (parts : List Bytes) : Bytes :=
  let parts := parts.dropWhile (· = [])
  if parts = [] then [] else pathClean ([slash].intercalate parts)

/-- The longest path in the cache, of at most so many parts and at least two. -/
def longest (cache : Cache) (parts : List Bytes) : ℕ → Option (ℕ × Bytes × Tree)
  | i + 2 =>
    let path := joinAll (parts.take (i + 2))
    match cache path with
    | some tree => some (i + 2, path, tree)
    | none => longest cache parts (i + 1)
  | _ => none

def walk (s : Store) (tree : Tree) (pathCurrent : Bytes) (cache : Cache) :
    List Bytes → Except FindError TreeEntry × Cache
  | [] => (.error .indexOutOfRange, cache)
  | [part] => (tree.entry part, cache)
  | part :: parts =>
    match tree.dir s part with
    | .error e => (.error e, cache)
    | .ok sub =>
      let path := pathJoin pathCurrent part
      walk s sub path (update cache path (some sub)) parts

def FindEntry (s : Store) (t : Tree) (cache : Cache) (path : Bytes) : Except FindError TreeEntry × Cache :=
  let parts := path.splitOn slash
  match longest cache parts (parts.length - 1) with
  | some (i, path, tree) => walk s tree path cache (parts.drop i)
  | none => walk s t [] cache parts

/-- The cache after calls with these paths. `File`, `Size` and `Tree` call `FindEntry` and do nothing else to it. -/
def after (s : Store) (t : Tree) (calls : List Bytes) : Cache :=
  calls.foldl (fun cache path => (FindEntry s t cache path).2) fun _ => none

section History

variable {s : Store} {t tree : Tree} {cache : Cache}
  {p : List Component}

def below (s : Store) (t : Tree) : List Component → Except FindError Tree
  | [] => .ok t
  | c :: p => t.dir s c.name >>= (below s · p)

lemma below_append (p q : List Component) : below s t (p ++ q) = below s t p >>= (below s · q) := by
  induction p generalizing t with
  | nil => rfl
  | cons c p ih =>
    rw [cons_append, below, below]
    cases t.dir s c.name with
    | error e => rfl
    | ok sub => exact ih

/-- The cache has subtrees under the paths that lead to them. -/
def Holds (s : Store) (t : Tree) (cache : Cache) : Prop :=
  ∀ key sub, cache key = some sub → ∃ p ≠ [], key = text p ∧ below s t p = .ok sub

lemma walk_fst (p : List Component) (last pathCurrent : Bytes) :
    (walk s tree pathCurrent cache (p.map Component.name ++ [last])).1 = below s tree p >>= (entry · last) := by
  induction p generalizing tree pathCurrent cache with
  | nil => rfl
  | cons c p ih =>
    obtain ⟨part, parts, hparts⟩ := exists_cons_of_ne_nil
      (append_ne_nil_of_right_ne_nil (p.map Component.name) (cons_ne_nil last []))
    rw [map_cons, cons_append, hparts, walk, below, ← hparts]
    cases tree.dir s c.name with
    | error e => rfl
    | ok sub => exact ih _
    · simp

lemma joinAll_components (h : p ≠ []) : joinAll (p.map Component.name) = text p := by
  obtain ⟨c, p, rfl⟩ := exists_cons_of_ne_nil h
  have hdrop : ((c :: p).map Component.name).dropWhile (· = []) = (c :: p).map Component.name := by
    simp [c.valid.1]
  simp only [joinAll, hdrop]
  rw [if_neg (by simp)]
  exact pathClean_text (cons_ne_nil c p)

variable {parts : List Bytes} {path : Bytes}

lemma longest_some {n i : ℕ} (h : longest cache parts n = some (i, path, tree)) :
    2 ≤ i ∧ i ≤ n ∧ path = joinAll (parts.take i) ∧ cache path = some tree := by
  induction n using longest.induct cache parts with
  | case1 n path tree' hc =>
    simp only [longest, path, hc] at h
    cases h
    exact ⟨by omega, le_rfl, rfl, hc⟩
  | case2 n path hc ih =>
    simp only [longest, path, hc] at h
    obtain ⟨h2, hle, hrest⟩ := ih h
    exact ⟨h2, by omega, hrest⟩
  | case3 n hn => simp [longest] at h

lemma FindEntry_fst (hc : Holds s t cache) {path last : Bytes}
    (hparts : path.splitOn slash = p.map Component.name ++ [last]) :
    (FindEntry s t cache path).1 = below s t p >>= (entry · last) := by
  simp only [FindEntry, hparts]
  split
  · rename_i i key tree hlong
    obtain ⟨h2, hle, rfl, hkey⟩ := longest_some hlong
    have hi : i ≤ p.length := by simpa using hle
    have htake : (p.map Component.name ++ [last]).take i = (p.take i).map Component.name := by
      rw [take_append_of_le_length (by simpa using hi), map_take]
    have hdrop : (p.map Component.name ++ [last]).drop i = (p.drop i).map Component.name ++ [last] := by
      rw [drop_append_of_le_length (by simpa using hi), map_drop]
    have hne : p.take i ≠ [] := by
      rw [Ne, take_eq_nil_iff]
      rintro (rfl | rfl) <;> simp_all
    obtain ⟨q, -, hq, hbelow⟩ := hc _ _ hkey
    rw [htake, joinAll_components hne] at hq
    obtain rfl := text_inj hq
    rw [hdrop, walk_fst]
    conv_rhs => rw [← take_append_drop i p, below_append, hbelow]
    rfl
  · exact walk_fst p last []

/-- The part is the name of a component, or no tree has an entry of that name. -/
def Harmless (s : Store) (t : Tree) (part : Bytes) : Prop :=
  component? part ≠ none ∨
    ∀ tree : Tree, (tree = t ∨ ∃ h, s.getTree h = .ok tree) → ∀ e ∈ tree.entries, e.name ≠ part

lemma exists_component {part : Bytes} (h : component? part ≠ none) : ∃ c : Component, c.name = part := by
  by_contra hno
  refine h (dif_neg fun hv => hno ⟨⟨part, hv⟩, rfl⟩)

lemma dir_ok {part : Bytes} {sub : Tree} (h : tree.dir s part = .ok sub) :
    ∃ e ∈ tree.entries, e.name = part ∧ s.getTree e.hash = .ok sub := by
  rw [dir, entry] at h
  cases hfind : tree.entries.reverse.find? (·.name = part) with
  | none => simp [hfind] at h
  | some e =>
    have hname : e.name = part := by simpa using find?_some hfind
    refine ⟨e, mem_reverse.mp (mem_of_find?_eq_some hfind), hname, ?_⟩
    cases htree : s.getTree e.hash with
    | error err => simp [hfind, htree, Except.mapError] at h
    | ok sub' => simpa [hfind, htree, Except.mapError] using h

lemma below_known (h : below s t p = .ok tree) : tree = t ∨ ∃ h, s.getTree h = .ok tree := by
  induction p using List.reverseRecOn with
  | nil =>
    cases h
    exact .inl rfl
  | append_singleton p c =>
    rw [below_append, bind_eq_ok_iff] at h
    obtain ⟨sub, -, hc⟩ := h
    obtain ⟨tree', hdir, htree⟩ := bind_eq_ok_iff.mp hc
    cases htree
    obtain ⟨e, -, -, he⟩ := dir_ok hdir
    exact .inr ⟨_, he⟩

lemma Holds.walk (hc : Holds s t cache) (hbelow : below s t p = .ok tree)
    (hparts : ∀ part ∈ parts, Harmless s t part) : Holds s t (walk s tree (text p) cache parts).2 := by
  induction parts generalizing tree p cache with
  | nil => exact hc
  | cons part parts ih =>
    cases parts with
    | nil => exact hc
    | cons next parts =>
      rw [Tree.walk]
      · cases hdir : tree.dir s part with
        | error e => exact hc
        | ok sub =>
          obtain ⟨e, he, rfl, -⟩ := dir_ok hdir
          obtain ⟨c, hname⟩ := exists_component ((hparts _ mem_cons_self).resolve_right
            fun hno => hno tree (below_known hbelow) e he rfl)
          have hsub : below s t (p ++ [c]) = .ok sub := by
            rw [below_append, hbelow]
            exact bind_eq_ok_iff.mpr ⟨tree, rfl, bind_eq_ok_iff.mpr ⟨sub, hname ▸ hdir, rfl⟩⟩
          dsimp only
          rw [← hname, pathJoin_text]
          refine ih ?_ hsub fun q hq => hparts q (mem_cons_of_mem _ hq)
          intro key sub' hkey
          by_cases hk : key = text (p ++ [c])
          · subst hk
            rw [update_self] at hkey
            cases hkey
            exact ⟨_, by simp, rfl, hsub⟩
          · rw [update_of_ne hk] at hkey
            exact hc key sub' hkey
      · simp

lemma Holds.FindEntry (hc : Holds s t cache)
    (hpath : ∀ part ∈ path.splitOn slash, Harmless s t part) : Holds s t (FindEntry s t cache path).2 := by
  simp only [Tree.FindEntry]
  split
  · rename_i i key tree hlong
    obtain ⟨-, -, -, hkey⟩ := longest_some hlong
    obtain ⟨p, -, rfl, hbelow⟩ := hc _ _ hkey
    exact hc.walk hbelow fun part hpart => hpath part (mem_of_mem_drop hpart)
  · exact hc.walk (p := []) rfl hpath

lemma holds_after {calls : List Bytes} (h : ∀ path ∈ calls, ∀ part ∈ path.splitOn slash, Harmless s t part) :
    Holds s t (after s t calls) := by
  induction calls using List.reverseRecOn with
  | nil => simp [after, Holds]
  | append_singleton calls path ih =>
    rw [after, foldl_append]
    exact (ih fun q hq => h q (by simp [hq])).FindEntry (h path (by simp))

end History

/-- The names on the way to the entry are those of components. -/
def Plain (path : Bytes) : Prop := ∀ part ∈ (path.splitOn slash).dropLast, component? part ≠ none

/-- What is found does not depend on earlier calls, if the way to it is given by names of components and no tree has an
entry under another name that is given in an earlier call. -/
theorem FindEntry_after_eq {s : Store} {t : Tree} {calls₁ calls₂ : List Bytes} {path : Bytes} (hpath : Plain path)
    (hcalls : ∀ call ∈ calls₁ ++ calls₂, ∀ part ∈ call.splitOn slash, Harmless s t part) :
    (FindEntry s t (after s t calls₁) path).1 = (FindEntry s t (after s t calls₂) path).1 := by
  have hrange : (path.splitOn slash).dropLast ∈ Set.range (List.map Component.name) := by
    rw [Set.range_list_map]
    exact fun part hpart => exists_component (hpath part hpart)
  obtain ⟨p, hp⟩ := hrange
  have hparts := (dropLast_append_getLast (splitOn_ne_nil slash path)).symm
  rw [← hp] at hparts
  rw [FindEntry_fst (holds_after fun q hq => hcalls q (by simp [hq])) hparts,
    FindEntry_fst (holds_after fun q hq => hcalls q (by simp [hq])) hparts]

def subdirs : Store := .ofList [(.short 1, .tree [⟨textBytes "b", FileMode.dir, .short 2⟩]),
  (.short 2, .tree [⟨textBytes "c", FileMode.dir, .short 3⟩]), (.short 3, .tree [])]

def top : Tree := ⟨.zeroHash, [⟨textBytes "a", FileMode.dir, .short 1⟩]⟩

theorem FindEntry_after_eq_subdirs :
    (FindEntry subdirs top (after subdirs top [textBytes "a/b/c"]) (textBytes "a/b/c")).1 =
      (FindEntry subdirs top (after subdirs top []) (textBytes "a/b/c")).1 := by
  have hcalls : ∀ call ∈ [textBytes "a/b/c"] ++ [], ∀ part ∈ call.splitOn slash, component? part ≠ none := by
    decide +kernel
  refine FindEntry_after_eq ?_ fun call hcall part hpart => .inl (hcalls call hcall part hpart)
  unfold Plain
  decide +kernel

theorem FindEntry_after_ne : ¬ ∀ (s : Store) (t : Tree) (calls₁ calls₂ : List Bytes) (path : Bytes),
    (∀ h ∈ s.names, ∀ o ∈ s.object h, ∀ k ∈ o.refs, s.object k ≠ none) → (∀ e ∈ t.entries, s.object e.hash ≠ none) →
    (FindEntry s t (after s t calls₁) path).1 = (FindEntry s t (after s t calls₂) path).1 := by
  intro h
  have := h subdirs top [] [textBytes "a/b/c"] (textBytes "a/./b/c") (by decide +kernel) (by decide +kernel)
  revert this
  decide +kernel

end GoGit.Tree
