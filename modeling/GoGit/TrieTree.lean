import GoGit.FileTree
import GoGit.SlashPath
import GoGit.TrieFiles

namespace GoGit.Merkletrie

open SlashPath List

def names (p : List Component) : List Bytes := p.map Component.name

lemma names_inj {p q : List Component} (h : names p = names q) : p = q :=
  map_injective_iff.mpr (fun _ _ => Component.ext) h

structure Represents (tree : Option Node) (F : List Component → Option Bytes) : Prop where
  distinct : DistinctNames tree
  named : NamedRoot tree
  unskipped : ∀ r, TreePath tree r → r.skip = false
  file : ∀ r, FileOf tree r → ∃ p, r.key = names p ∧ F p = some r.last.hash
  found : ∀ p b, F p = some b → ∃ r, FileOf tree r ∧ r.key = names p ∧ r.last.hash = b

lemma represents_none : Represents none fun _ => none := by
  have hnone : ∀ r, ¬ TreePath none r := by
    rintro r ⟨p, hp, -⟩
    simp [rootPaths] at hp
  refine ⟨⟨by simp [rootChildren], fun r hr => absurd hr (hnone r)⟩, by simp [NamedRoot, rootChildren], ?_, ?_, ?_⟩
  · exact fun r hr => absurd hr (hnone r)
  · exact fun r hr => absurd hr.1 (hnone r)
  · simp

section OfFileTree

variable {β : Type} (hash : β → Bytes) (dirHash : FileTree Component β → Bytes)

/-- The noders of the entries of a directory, none of them skipped. -/
def nodes : FileTree Component β → List Node
  | .empty => []
  | .file c v rest => .file c.name (hash v) false :: nodes rest
  | .dir c sub rest => .dir c.name (dirHash sub) (nodes sub) false :: nodes rest

def ofFileTree (root : Bytes) (t : FileTree Component β) : Node := .dir root (dirHash t) (nodes hash dirHash t) false

variable {hash dirHash} {root : Bytes} {t : FileTree Component β} {p : List Component} {r : Path}

lemma rootChildren_ofFileTree : rootChildren (some (ofFileTree hash dirHash root t)) = nodes hash dirHash t := by
  simp [rootChildren, ofFileTree, Node.children]

lemma names_nodes : (nodes hash dirHash t).map Node.name = names t.names := by
  induction t with
  | empty => rfl
  | file c v rest ih => rw [nodes, map_cons, ih]; rfl
  | dir c sub rest _ ih => rw [nodes, map_cons, ih]; rfl

lemma nodup_nodes (h : t.Wf) : ((nodes hash dirHash t).map Node.name).Nodup := by
  rw [names_nodes]
  exact h.nodup_names.map fun _ _ => Component.ext

lemma exists_head_or {α : Type} {g' : Component → Option α} {P : Component → α → Prop} (g : Component → Option α)
    (name : Component) (hrest : ∀ c, c ≠ name → g' c = g c) (hname : g name = none) :
    (∃ c v, g' c = some v ∧ P c v) ↔ (∃ v, g' name = some v ∧ P name v) ∨ ∃ c v, g c = some v ∧ P c v := by
  constructor
  · rintro ⟨c, v, hv, hP⟩
    by_cases hc : c = name
    · exact .inl ⟨v, hc ▸ hv, hc ▸ hP⟩
    · exact .inr ⟨c, v, hrest c hc ▸ hv, hP⟩
  · rintro (⟨v, hv, hP⟩ | ⟨c, v, hv, hP⟩)
    · exact ⟨name, v, hv, hP⟩
    · have hc : c ≠ name := by
        rintro rfl
        exact nomatch hv.symm.trans hname
      exact ⟨c, v, (hrest c hc).trans hv, hP⟩

variable {c : Component}

lemma fileAt_of_not_mem (hc : c ∉ t.names) : t.fileAt [c] = none :=
  Option.eq_none_iff_forall_ne_some.mpr fun _ hv => hc ((FileTree.head_mem_names hv).elim (by simp))

lemma dirAt_of_not_mem (hc : c ∉ t.names) : t.dirAt [c] = none :=
  Option.eq_none_iff_forall_ne_some.mpr fun _ hd => hc (FileTree.mem_names_of_dirAt hd)

lemma mem_nodes (h : t.Wf) {n : Node} : n ∈ nodes hash dirHash t ↔
    (∃ c v, t.fileAt [c] = some v ∧ n = .file c.name (hash v) false) ∨
      ∃ c d, t.dirAt [c] = some d ∧ n = .dir c.name (dirHash d) (nodes hash dirHash d) false := by
  induction t with
  | empty => simp [nodes, FileTree.fileAt, FileTree.dirAt]
  | file name v rest ih =>
    rw [nodes, mem_cons,
      exists_head_or (rest.fileAt [·]) name (fun c hc => by simp [FileTree.fileAt, hc]) (fileAt_of_not_mem h.1),
      exists_head_or (rest.dirAt [·]) name (fun c hc => by simp [FileTree.dirAt, hc]) (dirAt_of_not_mem h.1), ih h.2]
    simp [FileTree.fileAt, FileTree.dirAt, or_assoc]
  | dir name sub rest ihs ih =>
    rw [nodes, mem_cons,
      exists_head_or (rest.fileAt [·]) name (fun c hc => by simp [FileTree.fileAt, hc]) (fileAt_of_not_mem h.1),
      exists_head_or (rest.dirAt [·]) name (fun c hc => by simp [FileTree.dirAt, hc]) (dirAt_of_not_mem h.1), ih h.2.2]
    simp [FileTree.fileAt, FileTree.dirAt, or_left_comm]

def Shows (hash : β → Bytes) (dirHash : FileTree Component β → Bytes) (t : FileTree Component β) (p : List Component)
    (n : Node) : Prop :=
  (∃ c v, t.fileAt p = some v ∧ n = .file c (hash v) false) ∨
    ∃ c d, t.dirAt p = some d ∧ n = .dir c (dirHash d) (nodes hash dirHash d) false

lemma shows_of_treePath (h : t.Wf) (hr : TreePath (some (ofFileTree hash dirHash root t)) r) :
    ∃ p, r.key = names p ∧ Shows hash dirHash t p r.last := by
  obtain ⟨a, ha, hbelow⟩ := hr
  induction hbelow with
  | refl =>
    obtain ⟨hanc, hlast⟩ := mem_rootPaths.mp ha
    rw [rootChildren_ofFileTree, mem_nodes h] at hlast
    have hkey : a.key = [a.last.name] := by rw [Path.key, Path.nodes, hanc]; rfl
    obtain ⟨c, v, hfile, hnode⟩ | ⟨c, d, hdir, hnode⟩ := hlast
    · exact ⟨[c], by rw [hkey, hnode]; rfl, .inl ⟨c.name, v, hfile, hnode⟩⟩
    · exact ⟨[c], by rw [hkey, hnode]; rfl, .inr ⟨c.name, d, hdir, hnode⟩⟩
  | @child r n parent mem ih =>
    obtain ⟨p, hkey, ⟨c, v, -, hnode⟩ | ⟨c, d, hdir, hnode⟩⟩ := ih
    · simp [hnode, Node.children] at mem
    · rw [hnode, Node.children, mem_nodes (h.dirAt hdir)] at mem
      obtain ⟨x, v, hfile, rfl⟩ | ⟨x, d', hdir', rfl⟩ := mem
      · refine ⟨p ++ [x], by rw [Path.key_child, hkey]; simp [names, Node.name], .inl ⟨x.name, v, ?_, rfl⟩⟩
        rw [FileTree.fileAt_append h hdir (by simp), hfile]
      · refine ⟨p ++ [x], by rw [Path.key_child, hkey]; simp [names, Node.name], .inr ⟨x.name, d', ?_, rfl⟩⟩
        rw [FileTree.dirAt_append hdir, hdir']

lemma below_of_fileAt {c h' : Bytes} {a : Path} {v : β} (h : t.Wf) (hfile : t.fileAt p = some v)
    (ha : a.last = .dir c h' (nodes hash dirHash t) false) :
    ∃ r, Below a r ∧ r.key = a.key ++ names p ∧ ∃ x, r.last = .file x (hash v) false := by
  induction p generalizing t a c h' with
  | nil => simp at hfile
  | cons x xs ih =>
    by_cases hxs : xs = []
    · subst hxs
      refine ⟨a.child (.file x.name (hash v) false), .child .refl ?_, by rw [Path.key_child]; rfl, x.name, rfl⟩
      rw [ha, Node.children, mem_nodes h]
      exact .inl ⟨x, v, hfile, rfl⟩
    · rw [FileTree.fileAt_cons h x xs hxs] at hfile
      obtain ⟨d, hd, hfile⟩ := Option.bind_eq_some_iff.mp hfile
      have hchild : Below a (a.child (.dir x.name (dirHash d) (nodes hash dirHash d) false)) := by
        refine .child .refl ?_
        rw [ha, Node.children, mem_nodes h]
        exact .inr ⟨x, d, hd, rfl⟩
      obtain ⟨r, hr, hkey, hlast⟩ :=
        @ih d x.name (dirHash d) (a.child (.dir x.name (dirHash d) (nodes hash dirHash d) false)) (h.dirAt hd) hfile rfl
      refine ⟨r, hchild.trans hr, ?_, hlast⟩
      rw [hkey, Path.key_child, append_assoc]
      rfl

lemma treePath_of_fileAt {v : β} (h : t.Wf) (hfile : t.fileAt p = some v) :
    ∃ r, TreePath (some (ofFileTree hash dirHash root t)) r ∧ r.key = names p ∧ ∃ x, r.last = .file x (hash v) false := by
  cases p with
  | nil => simp at hfile
  | cons x xs =>
    have hroot : ∀ n ∈ nodes hash dirHash t, (⟨[], n⟩ : Path) ∈ rootPaths (some (ofFileTree hash dirHash root t)) := by
      intro n hn
      rw [mem_rootPaths, rootChildren_ofFileTree]
      exact ⟨rfl, hn⟩
    by_cases hxs : xs = []
    · subst hxs
      refine ⟨⟨[], .file x.name (hash v) false⟩, ⟨_, hroot _ ?_, .refl⟩, rfl, x.name, rfl⟩
      exact (mem_nodes h).mpr (.inl ⟨x, v, hfile, rfl⟩)
    · rw [FileTree.fileAt_cons h x xs hxs] at hfile
      obtain ⟨d, hd, hfile⟩ := Option.bind_eq_some_iff.mp hfile
      have hmem : (⟨[], .dir x.name (dirHash d) (nodes hash dirHash d) false⟩ : Path) ∈
          rootPaths (some (ofFileTree hash dirHash root t)) :=
        hroot _ ((mem_nodes h).mpr (.inr ⟨x, d, hd, rfl⟩))
      obtain ⟨r, hr, hkey, hlast⟩ := @below_of_fileAt β hash dirHash d xs x.name (dirHash d)
        ⟨[], .dir x.name (dirHash d) (nodes hash dirHash d) false⟩ v (h.dirAt hd) hfile rfl
      exact ⟨r, ⟨_, hmem, hr⟩, hkey, hlast⟩

lemma represents_ofFileTree (h : t.Wf) :
    Represents (some (ofFileTree hash dirHash root t)) fun p => (t.fileAt p).map hash := by
  refine ⟨⟨?_, ?_⟩, ?_, ?_, ?_, ?_⟩
  · rw [rootChildren_ofFileTree]
    exact nodup_nodes h
  · intro r hr
    obtain ⟨p, -, ⟨c, v, -, hnode⟩ | ⟨c, d, hdir, hnode⟩⟩ := shows_of_treePath h hr
    · simp [hnode, Node.children]
    · rw [hnode, Node.children]
      exact nodup_nodes (h.dirAt hdir)
  · intro n hn
    rw [rootChildren_ofFileTree, mem_nodes h] at hn
    obtain ⟨c, v, -, rfl⟩ | ⟨c, d, -, rfl⟩ := hn
    · exact c.valid.1
    · exact c.valid.1
  · intro r hr
    obtain ⟨p, -, ⟨c, v, -, hnode⟩ | ⟨c, d, -, hnode⟩⟩ := shows_of_treePath h hr
    · rw [Path.skip, hnode]; rfl
    · rw [Path.skip, hnode]; rfl
  · rintro r ⟨hr, hisdir⟩
    obtain ⟨p, hkey, ⟨c, v, hfile, hnode⟩ | ⟨c, d, -, hnode⟩⟩ := shows_of_treePath h hr
    · exact ⟨p, hkey, by rw [hfile, hnode]; rfl⟩
    · simp [Path.isDir, hnode, Node.isDir] at hisdir
  · intro p b hb
    obtain ⟨v, hfile, rfl⟩ := Option.map_eq_some_iff.mp hb
    obtain ⟨r, hr, hkey, x, hlast⟩ := @treePath_of_fileAt β hash dirHash root t p v h hfile
    exact ⟨r, ⟨hr, by rw [Path.isDir, hlast]; rfl⟩, hkey, by rw [hlast]; rfl⟩

end OfFileTree

def actionOf : Option Bytes → Option Bytes → Option Action
  | none, none => none
  | none, some _ => some .insert
  | some _, none => some .delete
  | some a, some b => if a = b then none else some .modify

section Diff

variable {hashEqual : Path → Path → Bool} {fromTree toTree : Option Node} {F G : List Component → Option Bytes}
  {p : List Component}

section

variable (h : Represents fromTree F)

include h

lemma Represents.not_file (hp : F p = none) : ∀ r, FileOf fromTree r → r.key ≠ names p := by
  intro r hr hkey
  obtain ⟨q, hq, hF⟩ := h.file r hr
  rw [hkey] at hq
  rw [← names_inj hq, hp] at hF
  cases hF

lemma Represents.none_of_not_file (hp : ∀ r, FileOf fromTree r → r.key ≠ names p) : F p = none := by
  cases hF : F p with
  | none => rfl
  | some b =>
    obtain ⟨r, hr, hkey, -⟩ := h.found p b hF
    exact absurd hkey (hp r hr)

lemma Represents.hash_eq {r : Path} (hr : FileOf fromTree r) (hkey : r.key = names p) : F p = some r.last.hash := by
  obtain ⟨q, hq, hF⟩ := h.file r hr
  rw [hkey] at hq
  rwa [names_inj hq]

end

lemma actionOf_of_fileChange (hf : Represents fromTree F) (ht : Represents toTree G) {c : Change}
    (hc : FileChange fromTree toTree c) : ∃ p a, c.key = names p ∧ c.action = some a ∧ actionOf (F p) (G p) = some a := by
  cases hc with
  | @delete r old gone =>
    obtain ⟨p, hkey, hF⟩ := hf.file r old
    refine ⟨p, .delete, hkey, rfl, ?_⟩
    rw [hF, ht.none_of_not_file fun s hs => hkey ▸ gone s hs]
    rfl
  | @insert s new fresh =>
    obtain ⟨p, hkey, hG⟩ := ht.file s new
    refine ⟨p, .insert, hkey, rfl, ?_⟩
    rw [hG, hf.none_of_not_file fun r hr => hkey ▸ fresh r hr]
    rfl
  | @modify r s old new key hash =>
    obtain ⟨p, hkey, hG⟩ := ht.file s new
    refine ⟨p, .modify, hkey, rfl, ?_⟩
    rw [hG, hf.hash_eq old (key.trans hkey)]
    exact if_neg hash

lemma fileChange_of_actionOf (hf : Represents fromTree F) (ht : Represents toTree G) {a : Action}
    (h : actionOf (F p) (G p) = some a) : ∃ c, FileChange fromTree toTree c ∧ c.key = names p ∧ c.action = some a := by
  cases hF : F p with
  | none =>
    cases hG : G p with
    | none => simp [hF, hG, actionOf] at h
    | some b =>
      obtain ⟨s, hs, hkey, -⟩ := ht.found p b hG
      simp only [hF, hG, actionOf, Option.some.injEq] at h
      subst h
      exact ⟨.newInsert s, .insert hs fun r hr => hkey ▸ hf.not_file hF r hr, hkey, rfl⟩
  | some a =>
    obtain ⟨r, hr, hkey, hhash⟩ := hf.found p a hF
    cases hG : G p with
    | none =>
      simp only [hF, hG, actionOf, Option.some.injEq] at h
      subst h
      exact ⟨.newDelete r, .delete hr fun s hs => hkey ▸ ht.not_file hG s hs, hkey, rfl⟩
    | some b =>
      obtain ⟨s, hs, hkey', hhash'⟩ := ht.found p b hG
      simp only [hF, hG, actionOf, Option.ite_none_left_eq_some, Option.some.injEq] at h
      obtain ⟨hne, rfl⟩ := h
      exact ⟨.newModify r s, .modify hr hs (hkey.trans hkey'.symm) (by rwa [hhash, hhash']), hkey', rfl⟩

def ShowsChanges (cs : Changes) (l : List (List Component × Action)) : Prop :=
  cs.map (fun c => (c.key, c.action)) = l.map fun x => (names x.1, some x.2)

lemma DiffTree_represents (hf : Represents fromTree F) (ht : Represents toTree G)
    (hc : Comparable hashEqual fromTree toTree) :
    ∃ cs l, DiffTree hashEqual fromTree toTree = .ok cs ∧ ShowsChanges cs l ∧ (l.map Prod.fst).Nodup ∧
      ∀ p a, (p, a) ∈ l ↔ actionOf (F p) (G p) = some a := by
  obtain ⟨cs, hdiff, hlists, -⟩ := DiffTree_exact hc hf.unskipped ht.unskipped
  have hshow : ∀ c ∈ cs, ∃ x : List Component × Action, c.key = names x.1 ∧ c.action = some x.2 ∧
      actionOf (F x.1) (G x.1) = some x.2 := by
    intro c hmem
    obtain ⟨p, a, hkey, haction, hact⟩ := actionOf_of_fileChange hf ht ((hlists.mem_iff c).mp hmem)
    exact ⟨(p, a), hkey, haction, hact⟩
  have : Nonempty (List Component × Action) := ⟨([], .insert)⟩
  choose! f hf' using hshow
  refine ⟨cs, cs.map f, hdiff, ?_, ?_, ?_⟩
  · rw [ShowsChanges, map_map]
    exact map_congr_left fun c hmem => Prod.ext (hf' c hmem).1 (hf' c hmem).2.1
  · have hkeys : cs.map Change.key = ((cs.map f).map Prod.fst).map names := by
      rw [map_map, map_map]
      exact map_congr_left fun c hmem => (hf' c hmem).1
    exact List.Nodup.of_map names (hkeys ▸ hlists.nodup)
  · intro p a
    rw [mem_map]
    constructor
    · rintro ⟨c, hmem, hx⟩
      have hact := (hf' c hmem).2.2
      rwa [hx] at hact
    · intro hact
      obtain ⟨c, hchange, hkey, haction⟩ := fileChange_of_actionOf hf ht hact
      have hmem := (hlists.mem_iff c).mpr hchange
      obtain ⟨hkey', haction', -⟩ := hf' c hmem
      refine ⟨c, hmem, Prod.ext (names_inj (hkey'.symm.trans hkey)) ?_⟩
      exact Option.some.inj (haction'.symm.trans haction)

end Diff

end GoGit.Merkletrie
