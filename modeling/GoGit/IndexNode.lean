import GoGit.EntryPath
import GoGit.ItemTree
import GoGit.ObjectStore
import GoGit.TrieTree

/-! `NewRootNode` infers the directories of an index from the paths of its entries. An entry that has entries below it
is not a directory and its children are left out here. -/
namespace GoGit.Mindex

open IndexFormat SlashPath PathTree Merkletrie List Function

structure IdxNode where
  entry : Option Entry := none
  children : List Bytes := []
  isDir : Bool := false
  skip : Bool := false

abbrev Nodes := Bytes → Option IdxNode

def addPart (e : Entry) (m : Nodes) (parent fullpath : Bytes) : Except Merkletrie.Fault Nodes :=
  match m fullpath with
  | some n => .ok (if e.skipWorktree = false then update m fullpath (some { n with skip := false }) else m)
  | none =>
    let n : IdxNode :=
      if fullpath = e.name then { entry := some e, skip := e.skipWorktree }
      else { isDir := true, skip := e.skipWorktree }
    let m := update m fullpath (some n)
    match m parent with
    | none => .error .panic
    | some p => .ok (update m parent (some { p with children := p.children ++ [fullpath] }))

def modeBytes (m : UInt32) : Bytes := [m.toUInt8, (m >>> 8).toUInt8, (m >>> 16).toUInt8, (m >>> 24).toUInt8]

def emptyNoderHash : Bytes := List.replicate 24 0

def entryHash (e : Entry) : Bytes := e.hash.bytes ++ modeBytes e.mode

def IdxNode.hash (n : IdxNode) : Bytes :=
  match n.entry with
  | none => emptyNoderHash
  | some e => entryHash e

def toNoder (m : Nodes) : ℕ → Bytes → Except Merkletrie.Fault Node
  | 0, _ => .error .outOfFuel
  | fuel + 1, p =>
    match m p with
    | none => .error .panic
    | some n => do
      let children ← n.children.mapM (toNoder m fuel)
      return if n.isDir then .dir (pathBase p) n.hash children n.skip else .file (pathBase p) n.hash n.skip

def rootNode : Bytes := []

/-- `NewRootNode`; there are fewer nodes than parts of names and the root. -/
def NewRootNode (entries : List Entry) : Except Merkletrie.Fault Node := do
  let m ← entries.foldlM (fun m e => eachPart (addPart e) m [] (e.name.splitOn slash))
    (update (fun _ => none) rootNode (some { isDir := true }))
  toNoder m (partCount entries + 2) rootNode

def nodeOf (items : Items) (it : Item Component Entry) : IdxNode :=
  { entry := it.value, children := (children items it.path).map fun c => text c.path, isDir := it.value.isNone }

structure Holds (m : Nodes) (items : Items) : Prop where
  parent : ∀ it ∈ items, it.parent = [] ∨ there (fun _ => true) items it.parent = true
  root : m [] = some { children := (children items []).map fun c => text c.path, isDir := true }
  node : ∀ it ∈ items, m (text it.path) = some (nodeOf items it)
  none : ∀ q, q ≠ [] → there (fun _ => true) items q = false → m (text q) = none

section Adding

variable {m : Nodes} {items : Items} {q : List Component} {c : Component} {e : Entry}

lemma Holds.get (h : Holds m items) (hq : q = [] ∨ there (fun _ => true) items q = true) :
    ∃ p, m (text q) = some p := by
  by_cases hnil : q = []
  · subst hnil
    exact ⟨_, h.root⟩
  · obtain ⟨it, hit, rfl, -⟩ := there_iff.mp (hq.resolve_left hnil)
    exact ⟨_, h.node it hit⟩

lemma Holds.no_children (h : Holds m items) (hq : q ≠ []) (hnot : there (fun _ => true) items q = false) :
    children items q = [] := by
  rw [eq_nil_iff_forall_not_mem]
  intro it hit
  obtain ⟨hmem, rfl⟩ := mem_children.mp hit
  exact absurd ((h.parent it hmem).resolve_left hq) (by simp [hnot])

lemma there_append (items : Items) (it : Item Component Entry) (r : List Component) :
    there (fun _ => true) (items ++ [it]) r = (there (fun _ => true) items r || decide (it.path = r)) := by
  simp [there]

lemma Holds.append {it : Item Component Entry} {p : IdxNode} (h : Holds m items)
    (hq : it.parent = [] ∨ there (fun _ => true) items it.parent = true)
    (hfull : there (fun _ => true) items it.path = false) (hp : m (text it.parent) = some p) :
    Holds (update (update m (text it.path) (some (nodeOf (items ++ [it]) it))) (text it.parent)
      (some { p with children := p.children ++ [text it.path] })) (items ++ [it]) := by
  have hgrown : ∀ r, children (items ++ [it]) r = children items r ++ if it.parent = r then [it] else [] :=
    fun r => children_append items it r
  have hpath : it.path ≠ it.parent := by simp [Item.path]
  have hold : ∀ {r}, r ≠ it.path → r ≠ it.parent → update (update m (text it.path)
      (some (nodeOf (items ++ [it]) it))) (text it.parent)
      (some { p with children := p.children ++ [text it.path] }) (text r) = m (text r) := by
    intro r hne hne'
    rw [update_of_ne (fun htext => hne' (text_inj htext)), update_of_ne (fun htext => hne (text_inj htext))]
  refine ⟨?_, ?_, forall_mem_append.mpr ⟨fun x hx => ?_, forall_mem_singleton.mpr ?_⟩, ?_⟩
  · have hgrow : ∀ {r}, r = [] ∨ there (fun _ => true) items r = true →
        r = [] ∨ there (fun _ => true) (items ++ [it]) r = true :=
      fun hr => hr.imp_right fun hthere => by rw [there_append, hthere, Bool.true_or]
    exact forall_mem_append.mpr ⟨fun x hx => hgrow (h.parent x hx), forall_mem_singleton.mpr (hgrow hq)⟩
  · by_cases hroot : it.parent = []
    · rw [hroot] at hp ⊢
      cases hp.symm.trans h.root
      refine (update_self ..).trans ?_
      rw [hgrown, if_pos hroot, map_append]
      rfl
    · refine (hold (r := []) (by simp [Item.path]) (Ne.symm hroot)).trans ?_
      rw [hgrown, if_neg hroot, append_nil]
      exact h.root
  · by_cases hxp : x.path = it.parent
    · rw [← hxp] at hp
      cases hp.symm.trans (h.node x hx)
      rw [hxp, update_self, nodeOf, nodeOf, hxp, hgrown, if_pos rfl, map_append]
      rfl
    · have hxi : x.path ≠ it.path := fun hxi =>
        absurd (there_iff.mpr ⟨x, hx, hxi, rfl⟩) (Bool.not_eq_true _ ▸ hfull)
      rw [hold hxi hxp, h.node x hx, nodeOf, nodeOf, hgrown, if_neg (Ne.symm hxp), append_nil]
  · rw [update_of_ne (fun htext => hpath (text_inj htext)), update_self]
  · intro r hr hnot
    rw [there_append, Bool.or_eq_false_iff, decide_eq_false_iff_not] at hnot
    have hne : r ≠ it.parent := by
      rintro rfl
      exact absurd (hq.resolve_left hr) (by simp [hnot.1])
    rw [hold (Ne.symm hnot.2) hne]
    exact h.none r hr hnot.1

lemma addPart_holds (h : Holds m items) (hskip : e.skipWorktree = false)
    (hq : q = [] ∨ there (fun _ => true) items q = true) :
    ∃ m', addPart e m (text q) (text (q ++ [c])) = .ok m' ∧ Holds m' (add (fun _ => true) items (request e q c)) := by
  by_cases hfull : there (fun _ => true) items (q ++ [c]) = true
  · obtain ⟨it, hit, hpath, -⟩ := there_iff.mp hfull
    have hnode := h.node it hit
    rw [hpath] at hnode
    refine ⟨m, ?_, ?_⟩
    · have hsame : update m (text (q ++ [c])) (some { nodeOf items it with skip := false }) = m := by
        have hself : some { nodeOf items it with skip := false } = m (text (q ++ [c])) := hnode.symm
        rw [hself, update_eq_self]
      simp only [addPart, hnode, hskip, if_true, hsame]
    · rw [add, if_pos (by exact hfull)]
      exact h
  · rw [Bool.not_eq_true] at hfull
    obtain ⟨p, hp⟩ := h.get hq
    have hne : text q ≠ text (q ++ [c]) := fun htext => by simpa using text_inj htext
    have hnode : (if text (q ++ [c]) = e.name then ({ entry := some e, skip := e.skipWorktree } : IdxNode)
        else { isDir := true, skip := e.skipWorktree }) = nodeOf (items ++ [request e q c]) (request e q c) := by
      have hch : children (items ++ [request e q c]) (q ++ [c]) = [] := by
        rw [children_append, h.no_children (by simp) hfull, if_neg (by simp [request])]
        rfl
      rw [nodeOf, show (request e q c).path = q ++ [c] from rfl, hch, hskip, request]
      split_ifs <;> rfl
    have hholds := @Holds.append m items (request e q c) p h hq hfull hp
    have hadd : add (fun _ => true) items (request e q c) = items ++ [request e q c] := by
      rw [add, if_neg (by simpa [request, Item.path] using hfull)]
    rw [hadd]
    refine ⟨_, ?_, hholds⟩
    simp only [addPart, h.none (q ++ [c]) (by simp) hfull, hnode, update_of_ne hne, hp]
    rfl

lemma holds_root : Holds (update (fun _ => none) rootNode (some { isDir := true })) [] := by
  refine ⟨by simp, ?_, by simp, ?_⟩
  · exact update_self ..
  · intro q hq _
    have hne : text q ≠ rootNode := fun htext => hq (text_eq_nil.mp htext)
    rw [update_of_ne hne]

end Adding

section Noders

variable {m : Nodes} {items : Items} {n : ℕ} {it : Item Component Entry} {entries : List Entry}

abbrev noHash : FileTree Component Entry → Bytes := fun _ => emptyNoderHash

/-- What an item is among the noders of its parent. -/
def noderOf (items : Items) (n : ℕ) (it : Item Component Entry) : Node :=
  match it.value with
  | some e => .file it.name.name (entryHash e) false
  | none => .dir it.name.name emptyNoderHash (nodes entryHash noHash (toFileTree items n it.path)) false

lemma nodes_entriesOf (its : Items) :
    nodes entryHash noHash (entriesOf (toFileTree items n) its) = its.map (noderOf items n) := by
  induction its with
  | nil => rfl
  | cons it its ih => cases hv : it.value <;> simp [entriesOf, hv, nodes, noderOf, ih]

lemma toNoder_of_children (h : Holds m items) (hit : it ∈ items)
    (hchildren : ((children items it.path).map fun c => text c.path).mapM (toNoder m n) =
      .ok (nodes entryHash noHash (toFileTree items n it.path))) :
    toNoder m (n + 1) (text it.path) = .ok (noderOf items n it) := by
  have hbase : pathBase (text it.path) = it.name.name := pathBase_text it.parent it.name
  simp only [toNoder, h.node it hit, nodeOf, hchildren, hbase, noderOf]
  cases it.value <;> rfl

lemma mapM_toNoder (h : Holds m items) {q : List Component} (hn : Shallow items q n) :
    ((children items q).map fun c => text c.path).mapM (toNoder m n) =
      .ok (nodes entryHash noHash (toFileTree items n q)) := by
  induction n generalizing q with
  | zero =>
    have hempty : children items q = [] := by
      rw [eq_nil_iff_forall_not_mem]
      intro c hc
      obtain ⟨hmem, rfl⟩ := mem_children.mp hc
      exact absurd (hn c hmem prefix_rfl) (by simp)
    rw [hempty]
    rfl
  | succ n ih =>
    rw [mapM_map, toFileTree, nodes_entriesOf]
    refine mapM_ok fun c hc => ?_
    obtain ⟨hmem, rfl⟩ := mem_children.mp hc
    exact toNoder_of_children h hmem (ih (hn.below c.name))

def entryAt (entries : List Entry) (p : List Component) : Option Entry := entries.find? fun e => decide (e.name = text p)

structure Plain (entries : List Entry) : Prop where
  proper : ∀ e ∈ entries, Proper e
  separate : ∀ e ∈ entries, ∀ d ∈ entries, ¬ Under e d
  unskipped : ∀ e ∈ entries, e.skipWorktree = false

lemma Plain.separate_files (h : Plain entries) : Separate (entries.map fileOf) := by
  intro f hf g hg hbelow
  obtain ⟨e, he, rfl⟩ := mem_map.mp hf
  obtain ⟨d, hd, rfl⟩ := mem_map.mp hg
  exact h.separate e he d hd ((under_iff (h.proper e he) (h.proper d hd)).mpr hbelow)

def treeOf (entries : List Entry) : FileTree Component Entry :=
  toFileTree (once (entries.map fileOf)) (partCount entries + 1) []

lemma wf_treeOf : (treeOf entries).Wf := wf_toFileTree nodup_once

lemma find?_fileOf (h : ∀ e ∈ entries, Proper e) (p : List Component) :
    (entries.map fileOf).find? (fun f => decide (f.1 = p)) = (entryAt entries p).map fun e => (p, e) := by
  induction entries with
  | nil => rfl
  | cons e entries ih =>
    have hrest := ih fun d hd => h d (mem_cons_of_mem _ hd)
    have hname := (h e mem_cons_self).spec.2
    rw [entryAt] at hrest
    rw [map_cons, entryAt, find?_cons, find?_cons, hrest]
    by_cases hp : (fileOf e).1 = p
    · have hfile : fileOf e = (p, e) := by rw [← hp]; rfl
      simp [hfile, hname]
    · have hne : e.name ≠ text p := fun htext => hp (text_inj (hname.symm.trans htext))
      simp [hp, hne]

lemma Plain.fileAt (h : Plain entries) (p : List Component) : (treeOf entries).fileAt p = entryAt entries p := by
  have hne := fileOf_ne_nil h.proper
  ext e
  rw [treeOf, fileAt_toFileTree (closed_once h.separate_files hne) (shallow_grow h.proper 0) nodup_once,
    mem_files_once h.separate_files hne, find?_fileOf h.proper]
  simp

lemma NewRootNode_eq (h : Plain entries) :
    NewRootNode entries = .ok (ofFileTree entryHash noHash [dot] (treeOf entries)) := by
  have hgrows : ∀ e ∈ entries, Grows addPart Holds (fun _ => true) e :=
    fun e he s items q c hs hq => addPart_holds hs (h.unskipped e he) hq
  obtain ⟨m, hrun, hholds⟩ := Grows.entries hgrows rfl holds_root h.proper
  have hchildren := mapM_toNoder hholds (shallow_grow h.proper 1)
  rw [NewRootNode, hrun]
  change toNoder m (partCount entries + 2) [] = _
  rw [toNoder, hholds.root]
  exact congrArg (fun x => x >>= fun children => Except.ok (Node.dir [dot] emptyNoderHash children false)) hchildren

end Noders

end GoGit.Mindex
