import GoGit.TrieExact

namespace GoGit.Merkletrie

open PathOrder List Function

def TreePath (tree : Option Node) (r : Path) : Prop := Pending (rootPaths tree) r

def rootChildren (tree : Option Node) : List Node := tree.toList.flatMap Node.children

structure DistinctNames (tree : Option Node) : Prop where
  root : ((rootChildren tree).map Node.name).Nodup
  below : ∀ r, TreePath tree r → (r.last.children.map Node.name).Nodup

def nodesAlong : List Node → List Bytes → List Node
  | _, [] => []
  | ns, x :: xs =>
    match ns.find? fun n => n.name = x with
    | none => []
    | some n => n :: nodesAlong n.children xs

def fileAt (tree : Option Node) (key : List Bytes) : Option Node :=
  if (nodesAlong (rootChildren tree) key).length = key.length
  then (nodesAlong (rootChildren tree) key).getLast?.filter fun n => !n.isDir
  else none

def fileMap (tree : Option Node) (key : List Bytes) : Option Bytes := (fileAt tree key).map Node.hash

section Along

variable {tree : Option Node} {p r : Path} {ns : List Node}

lemma find?_name (h : (ns.map Node.name).Nodup) {n : Node} (hn : n ∈ ns) :
    ns.find? (fun m => m.name = n.name) = some n := by
  cases hf : ns.find? (fun m => m.name = n.name) with
  | none => exact absurd (find?_eq_none.mp hf n hn) (by simp)
  | some m =>
    have hname : m.name = n.name := by simpa using find?_some hf
    rw [inj_on_of_nodup_map h (mem_of_find?_eq_some hf) hn hname]

lemma Below.along (hnames : ∀ s, Below p s → (s.last.children.map Node.name).Nodup) (h : Below p r) :
    ∃ ms, r.nodes = p.nodes ++ ms ∧ ∀ more,
      nodesAlong p.last.children (ms.map Node.name ++ more) = ms ++ nodesAlong r.last.children more := by
  induction h with
  | refl => exact ⟨[], by simp, by simp⟩
  | @child r c parent mem ih =>
    obtain ⟨ms, hms, halong⟩ := ih
    refine ⟨ms ++ [c], by simp [hms], ?_⟩
    intro more
    rw [map_append, append_assoc, halong]
    simp [nodesAlong, find?_name (hnames r parent) mem]

lemma below_of_along {xs : List Bytes} {pre : List Node} {n : Node}
    (h : pre ++ [n] <+: nodesAlong p.last.children xs) : Below p ⟨p.nodes ++ pre, n⟩ := by
  induction xs generalizing p pre with
  | nil => simp [nodesAlong] at h
  | cons x xs ih =>
    rw [nodesAlong] at h
    cases hf : p.last.children.find? fun m => m.name = x with
    | none => simp [hf] at h
    | some c =>
      have hc := mem_of_find?_eq_some hf
      simp only [hf] at h
      cases pre with
      | nil =>
        rw [nil_append, cons_prefix_cons] at h
        obtain ⟨rfl, _⟩ := h
        rw [append_nil]
        exact .child .refl hc
      | cons m pre =>
        rw [cons_append, cons_prefix_cons] at h
        obtain ⟨rfl, h⟩ := h
        have := @ih (p.child m) pre h
        rw [Path.nodes_child, append_assoc] at this
        exact (Below.child .refl hc).trans this

lemma mem_rootPaths : p ∈ rootPaths tree ↔ p.ancestors = [] ∧ p.last ∈ rootChildren tree := by
  cases tree with
  | none => simp [rootPaths, rootChildren]
  | some n =>
    simp only [rootPaths, rootChildren, Option.toList_some, flatMap_cons, flatMap_nil, append_nil, mem_map, mem_frame]
    constructor
    · rintro ⟨c, hc, rfl⟩
      exact ⟨rfl, hc⟩
    · obtain ⟨anc, last⟩ := p
      rintro ⟨rfl, hc⟩
      exact ⟨last, hc, rfl⟩

lemma nodesAlong_names (ns : List Node) (xs : List Bytes) : (nodesAlong ns xs).map Node.name <+: xs := by
  induction xs generalizing ns with
  | nil => simp [nodesAlong]
  | cons x xs ih =>
    rw [nodesAlong]
    cases hf : ns.find? fun m => m.name = x with
    | none => simp
    | some c =>
      have hname : c.name = x := by simpa using find?_some hf
      rw [map_cons, hname, cons_prefix_cons]
      exact ⟨rfl, ih c.children⟩

section

variable (h : DistinctNames tree)

include h

lemma treePath_iff {xs : List Bytes} (hkey : r.key <+: xs) :
    TreePath tree r ↔ r.nodes <+: nodesAlong (rootChildren tree) xs := by
  constructor
  · rintro ⟨p, hp, hbelow⟩
    obtain ⟨hanc, hlast⟩ := mem_rootPaths.mp hp
    obtain ⟨ms, hms, halong⟩ := hbelow.along fun s hs => h.below s ⟨p, hp, hs⟩
    have hnodes : r.nodes = p.last :: ms := by rw [hms, Path.nodes, hanc]; rfl
    obtain ⟨rest, rfl⟩ := hkey
    rw [Path.key, hnodes, map_cons, cons_append, nodesAlong, find?_name h.root hlast]
    rw [cons_prefix_cons]
    exact ⟨rfl, by rw [halong]; exact prefix_append _ _⟩
  · intro hpre
    cases xs with
    | nil => simp [nodesAlong, Path.nodes] at hpre
    | cons x xs =>
      rw [nodesAlong] at hpre
      cases hf : (rootChildren tree).find? fun m => m.name = x with
      | none => simp [hf, Path.nodes] at hpre
      | some c =>
        have hc := mem_of_find?_eq_some hf
        simp only [hf] at hpre
        refine ⟨⟨[], c⟩, mem_rootPaths.mpr ⟨rfl, hc⟩, ?_⟩
        obtain ⟨anc, last⟩ := r
        cases anc with
        | nil =>
          simp only [Path.nodes, nil_append, cons_prefix_cons] at hpre
          obtain ⟨rfl, _⟩ := hpre
          exact .refl
        | cons a anc =>
          simp only [Path.nodes, cons_append, cons_prefix_cons] at hpre
          obtain ⟨rfl, hpre⟩ := hpre
          exact @below_of_along ⟨[], a⟩ xs anc last hpre

variable {key : List Bytes}

lemma fileAt_eq_some_iff {n : Node} :
    fileAt tree key = some n ↔ ∃ r, TreePath tree r ∧ r.isDir = false ∧ r.key = key ∧ r.last = n := by
  unfold fileAt
  constructor
  · intro hf
    split_ifs at hf with hlen
    rw [Option.filter_eq_some_iff, getLast?_eq_some_iff] at hf
    obtain ⟨⟨pre, hpre⟩, hdir⟩ := hf
    have hkey : (pre ++ [n]).map Node.name = key := by
      rw [← hpre]
      exact (nodesAlong_names _ key).eq_of_length (by rw [length_map, hlen])
    refine ⟨⟨pre, n⟩, ?_, by simpa [Path.isDir] using hdir, hkey, rfl⟩
    rw [treePath_iff h (show Path.key ⟨pre, n⟩ <+: key by rw [Path.key, Path.nodes, hkey])]
    exact hpre ▸ prefix_rfl
  · rintro ⟨r, hr, hdir, rfl, rfl⟩
    have hpre := (treePath_iff h prefix_rfl).mp hr
    have hle := (nodesAlong_names (rootChildren tree) r.key).length_le
    have hnodes : nodesAlong (rootChildren tree) r.key = r.nodes := by
      refine (hpre.eq_of_length ?_).symm
      have := hpre.length_le
      simp only [Path.key, length_map] at hle
      simp only [Path.key] at this ⊢
      omega
    rw [hnodes, if_pos (by simp [Path.key])]
    simpa [Path.nodes, Path.isDir] using hdir

lemma fileMap_eq_some_iff {hash : Bytes} : fileMap tree key = some hash ↔
      ∃ r, TreePath tree r ∧ r.isDir = false ∧ r.key = key ∧ r.last.hash = hash := by
  simp only [fileMap, Option.map_eq_some_iff, fileAt_eq_some_iff h]
  constructor
  · rintro ⟨n, ⟨r, hr, hdir, hkey, rfl⟩, hhash⟩
    exact ⟨r, hr, hdir, hkey, hhash⟩
  · rintro ⟨r, hr, hdir, hkey, hhash⟩
    exact ⟨r.last, ⟨r, hr, hdir, hkey, rfl⟩, hhash⟩

end

end Along

section Trees

variable {hashEqual : Path → Path → Bool} {fromTree toTree : Option Node}

variable {tree : Option Node}

lemma rootPaths_ordered (h : DistinctNames tree) : Ordered (rootPaths tree) := by
  refine ⟨?_, h.below⟩
  cases tree with
  | none => exact .nil
  | some n =>
    have hroot : (n.children.map Node.name).Nodup := by simpa [rootChildren] using h.root
    simpa [rootPaths] using frame_paths_sorted [] hroot

def NamedRoot (tree : Option Node) : Prop := ∀ n ∈ rootChildren tree, n.name ≠ []

def SkipsDown (tree : Option Node) : Prop :=
  ∀ r, TreePath tree r → r.skip = true → ∀ c ∈ r.last.children, c.skip = true

lemma key_of_mem_rootPaths {p : Path} (hp : p ∈ rootPaths tree) : p.key = [p.name] := by
  rw [p.key_eq, (mem_rootPaths.mp hp).1]
  rfl

lemma roots_aligned (hf : DistinctNames fromTree) (ht : DistinctNames toTree) (hnf : NamedRoot fromTree)
    (hnt : NamedRoot toTree) (hsf : SkipsDown fromTree) (hst : SkipsDown toTree) :
    Aligned (rootPaths fromTree) (rootPaths toTree) := by
  have hdir : ∀ {tree : Option Node} {p : Path}, p ∈ rootPaths tree → p.dirKey = [] := fun hp => by
    rw [Path.dirKey, (mem_rootPaths.mp hp).1]
    rfl
  have hstring : ∀ {tree : Option Node} {p : Path}, NamedRoot tree → p ∈ rootPaths tree →
      p.string ≠ [] := by
    intro tree p hn hp
    rw [Path.string, key_of_mem_rootPaths hp]
    simpa [List.intercalate, Path.name] using hn p.last (mem_rootPaths.mp hp).2
  have hdirs : ∀ tree : Option Node, (rootPaths tree).Pairwise fun p q => q.dirKey <+: p.dirKey := by
    intro tree
    refine pairwise_of_forall_mem_list fun a ha b hb => ?_
    rw [hdir ha, hdir hb]
  refine ⟨rootPaths_ordered hf, rootPaths_ordered ht, ?_, ?_, ?_, hdirs _, hdirs _, [], ?_⟩
  · intro p hp q hq
    rw [key_of_mem_rootPaths hp, key_of_mem_rootPaths hq]
    by_cases hname : p.name = q.name
    · exact .inl (by rw [hname])
    · exact .inr ⟨not_snoc_prefix_snoc (p := []) hname, not_snoc_prefix_snoc (p := []) (Ne.symm hname)⟩
  · exact fun p hp => hp.elim (hstring hnf) (hstring hnt)
  · exact fun r hr => hr.elim (hsf r) (hst r)
  · intro p hp
    rw [hp.elim hdir hdir]

lemma countPaths_rootPaths (tree : Option Node) : countPaths (rootPaths tree) ≤ treeCount tree := by
  cases tree with
  | none => exact le_rfl
  | some n =>
    have : ((Frame.new n).map fun n => n.count).sum + 1 = n.count := count_frame n
    simp only [countPaths, rootPaths, treeCount, Option.toList_some, flatMap_cons, flatMap_nil,
      append_nil, map_map, comp_def, Option.map_some, Option.getD_some]
    omega

def treePaths (tree : Option Node) : List Path := preorder (treeCount tree) (rootPaths tree)

lemma mem_treePaths {r : Path} : r ∈ treePaths tree ↔ TreePath tree r :=
  mem_preorder (countPaths_rootPaths tree)

structure Comparable (hashEqual : Path → Path → Bool) (fromTree toTree : Option Node) : Prop where
  names : DistinctNames fromTree
  names' : DistinctNames toTree
  named : NamedRoot fromTree
  named' : NamedRoot toTree
  sound : ∀ r s, TreePath fromTree r → TreePath toTree s → hashEqual r s = true → SameFiles r s
  files : ∀ r s, TreePath fromTree r → TreePath toTree s → r.isDir = false → s.isDir = false →
    r.last.hash = s.last.hash → hashEqual r s = true

lemma DiffTree_lists (hc : Comparable hashEqual fromTree toTree) (hsf : SkipsDown fromTree)
    (hst : SkipsDown toTree) (hin : InStep (TreePath fromTree) (TreePath toTree))
    (hname : ¬ Namesake (TreePath fromTree) (TreePath toTree))
    (hname' : ¬ Namesake (TreePath toTree) (TreePath fromTree)) : ∃ cs, DiffTree hashEqual fromTree toTree = .ok cs ∧
      ListsChanges (Expected (TreePath fromTree) (TreePath toTree)) cs := by
  have hg : Good hashEqual (rootPaths fromTree) (rootPaths toTree) :=
    ⟨roots_aligned hc.names hc.names' hc.named hc.named' hsf hst, hin, hname, hname', hc.sound, hc.files⟩
  obtain ⟨i, hi, hholds⟩ := newDoubleIter_holds fromTree toTree
  have h₁ := countPaths_rootPaths fromTree
  have h₂ := countPaths_rootPaths toTree
  obtain ⟨cs, hloop, hlists⟩ := diffLoop_spec hg hholds
    (by omega : _ < treeCount fromTree + treeCount toTree + 1) []
  exact ⟨cs, by simpa [DiffTree, hi] using hloop, hlists⟩

end Trees

def FileOf (tree : Option Node) (r : Path) : Prop := TreePath tree r ∧ r.isDir = false

inductive FileChange (fromTree toTree : Option Node) : Change → Prop
  | delete {r : Path} (old : FileOf fromTree r) (gone : ∀ s, FileOf toTree s → s.key ≠ r.key) :
      FileChange fromTree toTree (.newDelete r)
  | insert {s : Path} (new : FileOf toTree s) (fresh : ∀ r, FileOf fromTree r → r.key ≠ s.key) :
      FileChange fromTree toTree (.newInsert s)
  | modify {r s : Path} (old : FileOf fromTree r) (new : FileOf toTree s) (key : r.key = s.key)
      (hash : r.last.hash ≠ s.last.hash) : FileChange fromTree toTree (.newModify r s)

def applyChange (m : List Bytes → Option Bytes) (c : Change) : List Bytes → Option Bytes :=
  update m c.key (c.To.map fun p => p.last.hash)

def applyChanges (m : List Bytes → Option Bytes) (cs : Changes) : List Bytes → Option Bytes :=
  cs.foldl applyChange m

section Apply

variable {m : List Bytes → Option Bytes} {cs : Changes} {key : List Bytes}

lemma applyChanges_of_not_mem (h : key ∉ cs.map Change.key) : applyChanges m cs key = m key := by
  induction cs generalizing m with
  | nil => rfl
  | cons c cs ih =>
    rw [map_cons, mem_cons, not_or] at h
    rw [applyChanges, foldl_cons]
    refine (ih h.2).trans ?_
    rw [applyChange, update_of_ne h.1]

lemma applyChanges_of_mem (hnd : (cs.map Change.key).Nodup) {c : Change} (hc : c ∈ cs) :
    applyChanges m cs c.key = c.To.map fun p => p.last.hash := by
  induction cs generalizing m with
  | nil => simp at hc
  | cons d cs ih =>
    rw [map_cons, nodup_cons] at hnd
    rw [applyChanges, foldl_cons]
    rcases mem_cons.mp hc with rfl | hc
    · refine (applyChanges_of_not_mem hnd.1).trans ?_
      rw [applyChange, update_self]
    · exact ih hnd.2 hc

end Apply

section Exact

variable {hashEqual : Path → Path → Bool} {fromTree toTree : Option Node}

lemma applyChanges_fileMap (hf : DistinctNames fromTree) (ht : DistinctNames toTree) {cs : Changes}
    (hcs : ListsChanges (FileChange fromTree toTree) cs) : applyChanges (fileMap fromTree) cs = fileMap toTree := by
  have hnone : ∀ {tree : Option Node} {key : List Bytes}, DistinctNames tree →
      (∀ r, FileOf tree r → r.key ≠ key) → fileMap tree key = none := by
    intro tree key h hno
    refine Option.eq_none_iff_forall_ne_some.mpr fun hash hsome => ?_
    obtain ⟨r, hr, hdir, hkey, _⟩ := (fileMap_eq_some_iff h).mp hsome
    exact hno r ⟨hr, hdir⟩ hkey
  have hsome : ∀ {tree : Option Node} {r : Path}, DistinctNames tree → FileOf tree r →
      fileMap tree r.key = some r.last.hash :=
    fun h hr => (fileMap_eq_some_iff h).mpr ⟨_, hr.1, hr.2, rfl, rfl⟩
  funext key
  by_cases hkey : key ∈ cs.map Change.key
  · obtain ⟨c, hc, rfl⟩ := mem_map.mp hkey
    rw [applyChanges_of_mem hcs.nodup hc]
    cases (hcs.mem_iff c).mp hc with
    | delete _ gone => exact (hnone ht gone).symm
    | insert new => exact (hsome ht new).symm
    | modify _ new => exact (hsome ht new).symm
  · rw [applyChanges_of_not_mem hkey]
    have hno : ∀ c, FileChange fromTree toTree c → c.key ≠ key := fun c hc heq =>
      hkey (heq ▸ mem_map_of_mem ((hcs.mem_iff c).mpr hc))
    by_cases hold : ∃ r, FileOf fromTree r ∧ r.key = key
    · obtain ⟨r, hr, rfl⟩ := hold
      by_cases hnew : ∃ s, FileOf toTree s ∧ s.key = r.key
      · obtain ⟨s, hs, hsr⟩ := hnew
        have hhash : r.last.hash = s.last.hash := by
          by_contra hne
          exact hno _ (.modify hr hs hsr.symm hne) hsr
        rw [hsome hf hr, ← hsr, hsome ht hs, hhash]
      · push Not at hnew
        exact absurd rfl (hno _ (.delete hr hnew))
    · push Not at hold
      by_cases hnew : ∃ s, FileOf toTree s ∧ s.key = key
      · obtain ⟨s, hs, rfl⟩ := hnew
        exact absurd rfl (hno _ (.insert hs hold))
      · push Not at hnew
        rw [hnone hf hold, hnone ht hnew]

lemma expected_iff_fileChange (hf : ∀ r, TreePath fromTree r → r.skip = false)
    (ht : ∀ r, TreePath toTree r → r.skip = false) {c : Change} :
    Expected (TreePath fromTree) (TreePath toTree) c ↔ FileChange fromTree toTree c := by
  have hides : ∀ {tree : Option Node}, (∀ r, TreePath tree r → r.skip = false) →
      ∀ x, ¬ Hides (TreePath tree) x := by
    rintro tree h x ⟨r, hr, _, hskip⟩
    exact absurd ((h r hr).symm.trans hskip) (by simp)
  constructor
  · intro hc
    cases hc with
    | delete mem file _ _ gone =>
      exact .delete ⟨mem, file.1⟩ fun s hs hk => absurd (gone s hs.1 hk) (by simp [hs.2])
    | insert mem file _ _ fresh =>
      exact .insert ⟨mem, file.1⟩ fun r hr hk => absurd (fresh r hr.1 hk) (by simp [hr.2])
    | modify mem mem' file file' key _ _ hash => exact .modify ⟨mem, file.1⟩ ⟨mem', file'.1⟩ key hash
  · intro hc
    cases hc with
    | @delete r old gone =>
      refine .delete old.1 ⟨old.2, hf r old.1⟩ (hides hf _) (hides ht _) fun s hs hk => ?_
      by_contra hdir
      exact gone s ⟨hs, by simpa using hdir⟩ hk
    | @insert s new fresh =>
      refine .insert new.1 ⟨new.2, ht s new.1⟩ (hides hf _) (hides ht _) fun r hr hk => ?_
      by_contra hdir
      exact fresh r ⟨hr, by simpa using hdir⟩ hk
    | @modify r s old new key hash =>
      exact .modify old.1 new.1 ⟨old.2, hf r old.1⟩ ⟨new.2, ht s new.1⟩ key (hides hf _) (hides ht _) hash

/-- `DiffTree` reports the changes between the files of two tries, each once, and no others. -/
theorem DiffTree_exact (hc : Comparable hashEqual fromTree toTree)
    (hf : ∀ r, TreePath fromTree r → r.skip = false) (ht : ∀ r, TreePath toTree r → r.skip = false) :
    ∃ cs, DiffTree hashEqual fromTree toTree = .ok cs ∧ ListsChanges (FileChange fromTree toTree) cs ∧
      applyChanges (fileMap fromTree) cs = fileMap toTree := by
  have hdown : ∀ {tree : Option Node}, (∀ r, TreePath tree r → r.skip = false) → SkipsDown tree :=
    fun h r hr hskip => absurd ((h r hr).symm.trans hskip) (by simp)
  have hin : InStep (TreePath fromTree) (TreePath toTree) := by
    intro a b ha hb _ hskip
    simp [hf a ha, ht b hb] at hskip
  have hname : ∀ {t u : Option Node}, (∀ r, TreePath t r → r.skip = false) →
      ¬ Namesake (TreePath t) (TreePath u) := by
    rintro t u h ⟨a, b, ha, hskip, _⟩
    exact absurd ((h a ha).symm.trans hskip) (by simp)
  obtain ⟨cs, hcs, hlists⟩ := DiffTree_lists hc (hdown hf) (hdown ht) hin (hname hf) (hname ht)
  have hfiles : ListsChanges (FileChange fromTree toTree) cs :=
    ⟨fun c => (hlists.mem_iff c).trans (expected_iff_fileChange hf ht), hlists.nodup⟩
  exact ⟨cs, hcs, hfiles, applyChanges_fileMap hc.names hc.names' hfiles⟩

end Exact

def equalHashes (p q : Path) : Bool := p.last.hash = q.last.hash

lemma sameFiles_of_files {p q : Path} (hp : p.isDir = false) (hq : q.isDir = false)
    (hhash : p.last.hash = q.last.hash) : SameFiles p q := by
  have hrel : ∀ t : Path, ∀ rel, t.key = t.key ++ rel ↔ rel = [] := by
    intro t rel
    constructor
    · exact fun h => append_right_eq_self.mp h.symm
    · exact fun h => by rw [h, append_nil]
  refine ⟨hp.trans hq.symm, fun rel hash => ?_⟩
  simp only [below_file hp, below_file hq]
  constructor
  · rintro ⟨_, rfl, _, hk, rfl⟩
    exact ⟨q, rfl, hq, (hrel q rel).mpr ((hrel _ rel).mp hk), hhash.symm⟩
  · rintro ⟨_, rfl, _, hk, rfl⟩
    exact ⟨p, rfl, hp, (hrel p rel).mpr ((hrel _ rel).mp hk), hhash⟩

def filesAB : Option Node :=
  some (.dir [] [0] [.file [0x61] [1] false, .file [0x62] [2] false] false)

/-- The same file `a`, and a directory `b` with a file `c`. -/
def dirAtB : Option Node :=
  some (.dir [] [9] [.dir [0x62] [3] [.file [0x63] [4] false] false, .file [0x61] [1] false] false)

/-- Distinct sibling names, and none at the top without a name. -/
def WellNamed (tree : Option Node) : Prop :=
  ((rootChildren tree).map Node.name).Nodup ∧ (∀ n ∈ rootChildren tree, n.name ≠ []) ∧
    ∀ r ∈ treePaths tree, (r.last.children.map Node.name).Nodup

instance (tree : Option Node) : Decidable (WellNamed tree) := inferInstanceAs (Decidable (_ ∧ _))

lemma comparable_of_files {fromTree toTree : Option Node} (hf : WellNamed fromTree) (ht : WellNamed toTree)
    (h : ∀ r ∈ treePaths fromTree, ∀ s ∈ treePaths toTree, equalHashes r s = true →
      r.isDir = false ∧ s.isDir = false) : Comparable equalHashes fromTree toTree where
  names := ⟨hf.1, fun r hr => hf.2.2 r (mem_treePaths.mpr hr)⟩
  names' := ⟨ht.1, fun r hr => ht.2.2 r (mem_treePaths.mpr hr)⟩
  named := hf.2.1
  named' := ht.2.1
  sound r s hr hs heq := by
    obtain ⟨hr, hs⟩ := h r (mem_treePaths.mpr hr) s (mem_treePaths.mpr hs) heq
    exact sameFiles_of_files hr hs (of_decide_eq_true heq)
  files r s _ _ _ _ heq := decide_eq_true heq

theorem DiffTree_exact_dirAtB : ∃ cs, DiffTree equalHashes filesAB dirAtB = .ok cs ∧
    ListsChanges (FileChange filesAB dirAtB) cs ∧ applyChanges (fileMap filesAB) cs = fileMap dirAtB := by
  have hskip : (∀ r ∈ treePaths filesAB, r.skip = false) ∧ ∀ r ∈ treePaths dirAtB, r.skip = false := by decide
  refine DiffTree_exact (comparable_of_files (by decide) (by decide) (by decide)) ?_ ?_
  · exact fun r hr => hskip.1 r (mem_treePaths.mpr hr)
  · exact fun r hr => hskip.2 r (mem_treePaths.mpr hr)

theorem DiffTree_not_exact : DiffTree equalHashes (some (.dir [] [0] [.file [] [1] false] false)) none =
      .error .emptyFileName ∧ DiffTree (fun _ _ => false) filesAB filesAB =
      .ok [.newModify ⟨[], .file [0x61] [1] false⟩ ⟨[], .file [0x61] [1] false⟩,
        .newModify ⟨[], .file [0x62] [2] false⟩ ⟨[], .file [0x62] [2] false⟩] :=
  ⟨rfl, rfl⟩

end GoGit.Merkletrie
