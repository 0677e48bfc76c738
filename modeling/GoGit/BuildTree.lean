import GoGit.EntryPath
import GoGit.ObjectStore

/-! `buildTreeHelper` gathers the entries of every directory path by path and then writes the trees bottom up. A tree
that is written is kept with the trees that its entries name, in place of their hashes. -/
namespace GoGit.TreeHelper

open IndexFormat SlashPath PathOrder PathTree List Function

inductive Fault
  | malformedFilename (name : Bytes)
  | entriesNotSorted
  | nilPointer
  | endless
  deriving DecidableEq

abbrev Trees := Bytes → Option (List TreeEntry)

/-- The map `entries` of the helper is never written, so no path is found there. -/
def doBuildTree (e : Entry) (trees : Trees) (parent fullpath : Bytes) : Except Fault Trees :=
  if (trees fullpath).isSome then .ok trees
  else
    let te : TreeEntry :=
      if fullpath = e.name then ⟨pathBase fullpath, e.mode, e.hash⟩
      else ⟨pathBase fullpath, FileMode.dir, .zeroHash⟩
    let trees := if fullpath = e.name then trees else update trees fullpath (some [])
    match trees parent with
    | none => .error .nilPointer
    | some entries => .ok (update trees parent (some (entries ++ [te])))

def commitIndexEntry (trees : Trees) (e : Entry) : Except Fault Trees :=
  eachPart (doBuildTree e) trees [] (e.name.splitOn slash)

inductive Written
  | blob (e : TreeEntry)
  | tree (name : Bytes) (mode : UInt32) (entries : List Written)

namespace Written

def name : Written → Bytes
  | blob e => e.name
  | tree name _ _ => name

def mode : Written → UInt32
  | blob e => e.mode
  | tree _ mode _ => mode

end Written

/-- `sortName`: a directory sorts as if its name ended in a slash. -/
def sortName (name : Bytes) (mode : UInt32) : Bytes := if mode = FileMode.dir then name ++ [slash] else name

def sortEntries (entries : List TreeEntry) : List TreeEntry :=
  entries.insertionSort fun a b => sortName a.name a.mode ≤ sortName b.name b.mode

def Sorted (ws : List Written) : Prop :=
  ws.Pairwise fun a b => sortName a.name a.mode ≤ sortName b.name b.mode

instance (ws : List Written) : Decidable (Sorted ws) := inferInstanceAs (Decidable (List.Pairwise _ _))

def encode (ws : List Written) : Except Fault Unit :=
  if ¬ Sorted ws then .error .entriesNotSorted
  else
    match ws.find? fun w => decide (0 ∈ w.name) with
    | some w => .error (.malformedFilename w.name)
    | none => .ok ()

/-- The body of the loop of `copyTreeToStorageRecursive`, given the function itself. -/
def copyEntry (trees : Trees) (copy : Bytes → List TreeEntry → Except Fault (List Written)) (parent : Bytes)
    (e : TreeEntry) : Except Fault Written :=
  if e.mode ≠ FileMode.dir ∧ e.hash.IsZero = false then .ok (.blob e)
  else
    match trees (pathJoin parent e.name) with
    | none => .error .nilPointer
    | some t => do
      let entries ← copy (pathJoin parent e.name) t
      return .tree e.name e.mode entries

def copyTreeToStorageRecursive (trees : Trees) : ℕ → Bytes → List TreeEntry → Except Fault (List Written)
  | 0, _, _ => .error .endless
  | fuel + 1, parent, entries => do
    let ws ← (sortEntries entries).mapM (copyEntry trees (copyTreeToStorageRecursive trees fuel) parent)
    encode ws
    return ws

def rootNode : Bytes := []

/-- There are fewer trees than parts of names and the root, and a tree is not below itself unless the
recursion does not end. -/
def depth (entries : List Entry) : ℕ := partCount entries + 2

/-- `BuildTree`: the root tree with all trees below it. -/
def BuildTree (entries : List Entry) : Except Fault (List Written) := do
  let trees ← entries.foldlM commitIndexEntry (update (fun _ => none) rootNode (some []))
  match trees rootNode with
  | none => .error .nilPointer
  | some root => copyTreeToStorageRecursive trees (depth entries) rootNode root

namespace Written

mutual

def files : Written → List (List Bytes × UInt32 × ObjectID)
  | blob e => [([e.name], e.mode, e.hash)]
  | tree name _ entries => (filesAll entries).map fun f => (name :: f.1, f.2)

def filesAll : List Written → List (List Bytes × UInt32 × ObjectID)
  | [] => []
  | w :: ws => files w ++ filesAll ws

end

mutual

def InOrder : Written → Prop
  | blob _ => True
  | tree _ _ entries => (entries.map name).Nodup ∧ Sorted entries ∧ InOrderAll entries

def InOrderAll : List Written → Prop
  | [] => True
  | w :: ws => InOrder w ∧ InOrderAll ws

end

lemma filesAll_eq (ws : List Written) : filesAll ws = ws.flatMap files := by
  induction ws with
  | nil => rfl
  | cons w ws ih => rw [filesAll, ih, flatMap_cons]

lemma inOrderAll_iff {ws : List Written} : InOrderAll ws ↔ ∀ w ∈ ws, InOrder w := by
  induction ws with
  | nil => simp [InOrderAll]
  | cons w ws ih => rw [InOrderAll, ih, forall_mem_cons]

end Written

/-- A tree with distinct names in order, and so all trees below it. -/
def Canonical (ws : List Written) : Prop := (ws.map Written.name).Nodup ∧ Sorted ws ∧ Written.InOrderAll ws

/-- `BuildTree` fails, or its trees hold the entries of stage 0 and nothing else. -/
def Exact (entries : List Entry) : Prop :=
  (∃ name, BuildTree entries = .error (.malformedFilename name)) ∨
    BuildTree entries = .error .entriesNotSorted ∨
    ∃ root, BuildTree entries = .ok root ∧ Canonical root ∧ ∀ path mode hash,
      (∃ f ∈ Written.filesAll root, [slash].intercalate f.1 = path ∧ f.2 = (mode, hash)) ↔
        ∃ e ∈ entries, e.stage = 0 ∧ e.name = path ∧ (e.mode, e.hash) = (mode, hash)

def entryOf (it : Item Component Entry) : TreeEntry :=
  match it.value with
  | some e => ⟨it.name.name, e.mode, e.hash⟩
  | none => ⟨it.name.name, FileMode.dir, .zeroHash⟩

structure Holds (trees : Trees) (items : Items) : Prop where
  parent : ∀ it ∈ items, it.parent = [] ∨ it.parent ∈ dirs items
  tree : ∀ q, trees (text q) =
    if q = [] ∨ q ∈ dirs items then some ((children items q).map entryOf) else none

section Adding

variable {trees : Trees} {items : Items} {q rest : List Component} {c : Component} {e : Entry}

lemma dirs_append_file (items : Items) (e : Entry) : dirs (items ++ [⟨q, c, some e⟩]) = dirs items := by
  simp [dirs]

lemma dirs_append_dir (items : Items) : dirs (items ++ [⟨q, c, none⟩]) = dirs items ++ [q ++ [c]] := by
  simp [dirs, Item.path]

lemma doBuildTree_holds (h : Holds trees items) (hq : q = [] ∨ q ∈ dirs items) :
    ∃ trees', doBuildTree e trees (text q) (text (q ++ [c])) = .ok trees' ∧
      Holds trees' (add Option.isNone items (request e q c)) := by
  have hfull := h.tree (q ++ [c])
  have hthere : there Option.isNone items (request e q c).path = true ↔ q ++ [c] ∈ dirs items :=
    there_isNone_iff
  by_cases hdir : q ++ [c] ∈ dirs items
  · refine ⟨trees, ?_, ?_⟩
    · rw [doBuildTree, if_pos (by simp [hfull, hdir])]
    · rw [add, if_pos (hthere.mpr hdir)]
      exact h
  · rw [if_neg (by simp [hdir])] at hfull
    have hparent := h.tree q
    rw [if_pos hq] at hparent
    rw [doBuildTree, if_neg (by simp [hfull]), add, if_neg (mt hthere.mp hdir)]
    by_cases hname : text (q ++ [c]) = e.name
    · simp only [if_pos hname, hparent, request, pathBase_text]
      refine ⟨_, rfl, ?_, ?_⟩
      · rw [dirs_append_file]
        exact forall_mem_append.mpr ⟨h.parent, forall_mem_singleton.mpr hq⟩
      · intro q'
        rw [dirs_append_file, children_append]
        by_cases hq' : q' = q
        · subst hq'
          rw [update_self, if_pos hq]
          simp [entryOf]
        · rw [update_of_ne (fun htext => hq' (text_inj htext)), h.tree q']
          simp [Ne.symm hq']
    · have hne : text q ≠ text (q ++ [c]) := fun htext => by simpa using text_inj htext
      simp only [if_neg hname, update_of_ne hne, hparent, request, pathBase_text]
      refine ⟨_, rfl, ?_, ?_⟩
      · rw [dirs_append_dir]
        exact forall_mem_append.mpr ⟨fun it hit => (h.parent it hit).imp_right (mem_append_left _),
          forall_mem_singleton.mpr (hq.imp_right (mem_append_left _))⟩
      · intro q'
        rw [dirs_append_dir, children_append]
        by_cases hq' : q' = q
        · subst hq'
          rw [update_self, if_pos (hq.imp_right (mem_append_left _))]
          simp [entryOf]
        · rw [update_of_ne (fun htext => hq' (text_inj htext))]
          by_cases hnew : q' = q ++ [c]
          · -- no item lies in a directory before there is one
            subst hnew
            have hnone : children items (q ++ [c]) = [] := by
              rw [children, filter_eq_nil_iff]
              intro it hit hpar
              rw [decide_eq_true_eq] at hpar
              rcases h.parent it hit with hp | hp
              · simp [hp] at hpar
              · exact hdir (hpar ▸ hp)
            rw [update_self, hnone]
            simp
          · rw [update_of_ne (fun htext => hnew (text_inj htext)), h.tree q']
            simp [Ne.symm hq', hnew]

lemma grows_doBuildTree (e : Entry) : Grows doBuildTree Holds Option.isNone e :=
  fun _ _ _ _ h hq => doBuildTree_holds h (hq.imp_right there_isNone_iff.mp)

lemma holds_root : Holds (update (fun _ => none) rootNode (some [])) [] := by
  refine ⟨by simp, ?_⟩
  intro q
  by_cases hq : q = []
  · subst hq
    rw [if_pos (.inl rfl)]
    exact update_self ..
  · have hne : text q ≠ rootNode := fun htext => hq (text_eq_nil.mp htext)
    rw [update_of_ne hne]
    simp [hq, dirs]

end Adding

def key (it : Item Component Entry) : Bytes := sortName (entryOf it).name (entryOf it).mode

def siblings (items : Items) (q : List Component) : Items :=
  (children items q).insertionSort fun a b => key a ≤ key b

def nest (items : Items) : ℕ → List Component → List Written
  | 0, _ => []
  | n + 1, q => (siblings items q).map fun it =>
    match it.value with
    | some _ => .blob (entryOf it)
    | none => .tree it.name.name FileMode.dir (nest items n it.path)

def PlainFiles (items : Items) : Prop :=
  ∀ it ∈ items, ∀ e, it.value = some e → e.mode ≠ FileMode.dir ∧ e.hash.IsZero = false

section Writing

variable {trees : Trees} {items : Items} {q : List Component} {n : ℕ} {it : Item Component Entry}

lemma mem_siblings : it ∈ siblings items q ↔ it ∈ items ∧ it.parent = q := by
  rw [siblings, mem_insertionSort, mem_children]

lemma mem_siblings_iff : it ∈ siblings items q ↔ it ∈ children items q := mem_insertionSort _

lemma sortEntries_children : sortEntries ((children items q).map entryOf) = (siblings items q).map entryOf := by
  rw [sortEntries, siblings]
  exact (map_insertionSort (fun a b => key a ≤ key b) _ entryOf _ fun a _ b _ => Iff.rfl).symm

def writtenOf (items : Items) (n : ℕ) (it : Item Component Entry) : Written :=
  match it.value with
  | some _ => .blob (entryOf it)
  | none => .tree it.name.name FileMode.dir (nest items n it.path)

lemma nest_succ : nest items (n + 1) q = (siblings items q).map (writtenOf items n) := rfl

lemma name_writtenOf : (writtenOf items n it).name = it.name.name := by
  cases hv : it.value <;> simp [writtenOf, hv, Written.name, entryOf]

lemma sortName_writtenOf : sortName (writtenOf items n it).name (writtenOf items n it).mode = key it := by
  cases hv : it.value <;> simp [writtenOf, hv, Written.name, Written.mode, key, entryOf]

lemma sorted_nest : Sorted (nest items n q) := by
  cases n with
  | zero => exact List.Pairwise.nil
  | succ n =>
    rw [nest_succ, Sorted, pairwise_map]
    have hsorted := pairwise_insertionSort (fun a b => key a ≤ key b) (children items q)
    refine hsorted.imp ?_
    intro a b h
    rwa [sortName_writtenOf, sortName_writtenOf]

def Malformed (items : Items) (q : List Component) : Prop := ∃ it ∈ items, q <+: it.parent ∧ 0 ∈ it.name.name

abbrev copyItem (trees : Trees) (n : ℕ) (q : List Component) (it : Item Component Entry) : Except Fault Written :=
  copyEntry trees (copyTreeToStorageRecursive trees n) (text q) (entryOf it)

abbrev copyTree (trees : Trees) (items : Items) (n : ℕ) (q : List Component) : Except Fault (List Written) :=
  copyTreeToStorageRecursive trees n (text q) ((children items q).map entryOf)

lemma copyItem_eq (h : Holds trees items) (hplain : PlainFiles items) (hit : it ∈ siblings items q) :
    copyItem trees n q it = match it.value with
      | some _ => .ok (.blob (entryOf it))
      | none => (copyTree trees items n it.path).map (.tree it.name.name FileMode.dir) := by
  obtain ⟨hmem, rfl⟩ := mem_siblings.mp hit
  cases hv : it.value with
  | some e =>
    obtain ⟨hmode, hhash⟩ := hplain it hmem e hv
    rw [copyItem, copyEntry, if_pos (by simp [entryOf, hv, hmode, hhash])]
  | none =>
    have hentry : entryOf it = ⟨it.name.name, FileMode.dir, .zeroHash⟩ := by rw [entryOf, hv]
    have htree := h.tree it.path
    rw [if_pos (.inr (mem_dirs_of_item hmem hv))] at htree
    rw [copyItem, copyEntry, hentry, if_neg (by simp), pathJoin_text]
    change (match trees (text it.path) with | none => _ | some t => _) = _
    rw [htree]
    change (copyTree trees items n it.path >>= fun entries => _) = _
    cases copyTree trees items n it.path <;> rfl

lemma copyTree_eq (h : ∀ it ∈ siblings items q, copyItem trees n q it = .ok (writtenOf items n it)) :
    copyTree trees items (n + 1) q = (encode (nest items (n + 1) q)).map fun _ => nest items (n + 1) q := by
  have hmap : (siblings items q).mapM (copyEntry trees (copyTreeToStorageRecursive trees n) (text q) ∘ entryOf) =
      .ok ((siblings items q).map (writtenOf items n)) := mapM_ok h
  rw [copyTree, copyTreeToStorageRecursive, sortEntries_children, mapM_map, hmap, ← nest_succ]
  change (encode (nest items (n + 1) q) >>= fun _ => Except.ok (nest items (n + 1) q)) = _
  cases encode (nest items (n + 1) q) <;> rfl

lemma encode_ok (h : ∀ it ∈ siblings items q, 0 ∉ it.name.name) : encode (nest items (n + 1) q) = .ok () := by
  have hnone : (nest items (n + 1) q).find? (fun w => decide (0 ∈ w.name)) = none := by
    rw [find?_eq_none, nest_succ]
    intro w hw
    obtain ⟨it, hit, rfl⟩ := mem_map.mp hw
    simpa [name_writtenOf] using h it hit
  rw [encode, if_neg (not_not.mpr sorted_nest), hnone]

lemma encode_malformed (h : ∃ it ∈ siblings items q, 0 ∈ it.name.name) :
    ∃ name, encode (nest items (n + 1) q) = .error (.malformedFilename name) := by
  obtain ⟨it, hit, hnul⟩ := h
  cases hf : (nest items (n + 1) q).find? fun w => decide (0 ∈ w.name) with
  | none =>
    have hmem : writtenOf items n it ∈ nest items (n + 1) q := mem_map_of_mem hit
    exact absurd (find?_eq_none.mp hf _ hmem) (by simp [name_writtenOf, hnul])
  | some w => exact ⟨w.name, by rw [encode, if_neg (not_not.mpr sorted_nest), hf]⟩

lemma Malformed.of_path (h : Malformed items it.path) : Malformed items it.parent := by
  obtain ⟨x, hx, hpre, hnul⟩ := h
  exact ⟨x, hx, (prefix_append _ _).trans hpre, hnul⟩

lemma mapM_malformed {α β : Type} {f : α → Except Fault β} {l : List α}
    (h : ∀ a ∈ l, (∃ b, f a = .ok b) ∨ ∃ name, f a = .error (.malformedFilename name))
    (hbad : ∃ a ∈ l, ∃ name, f a = .error (.malformedFilename name)) :
    ∃ name, l.mapM f = .error (.malformedFilename name) := by
  induction l with
  | nil => simp at hbad
  | cons a l ih =>
    rw [mapM_cons]
    rcases h a mem_cons_self with ⟨b, hb⟩ | ⟨name, hname⟩
    · have hrest : ∃ a ∈ l, ∃ name, f a = .error (.malformedFilename name) := by
        obtain ⟨x, hx, name, hname⟩ := hbad
        rcases mem_cons.mp hx with rfl | hx
        · simp [hb] at hname
        · exact ⟨x, hx, name, hname⟩
      obtain ⟨name, hname⟩ := ih (fun x hx => h x (mem_cons_of_mem _ hx)) hrest
      exact ⟨name, by rw [hb, hname]; rfl⟩
    · exact ⟨name, by rw [hname]; rfl⟩

lemma not_prefix_of_shallow (hn : Shallow items q 0) (hit : it ∈ items) : ¬ q <+: it.parent := by
  intro hpre
  have := hn it hit hpre
  have := hpre.length_le
  omega

lemma siblings_zero (hn : Shallow items q 0) : siblings items q = [] := by
  refine eq_nil_iff_forall_not_mem.mpr fun it hit => ?_
  obtain ⟨hmem, rfl⟩ := mem_siblings.mp hit
  exact not_prefix_of_shallow hn hmem prefix_rfl

lemma copyTree_cases (h : Holds trees items) (hplain : PlainFiles items) (hc : Closed items)
    (hn : Shallow items q n) :
    (¬ Malformed items q ∧ copyTree trees items (n + 1) q = .ok (nest items (n + 1) q)) ∨
      Malformed items q ∧ ∃ name, copyTree trees items (n + 1) q = .error (.malformedFilename name) := by
  induction n generalizing q with
  | zero =>
    have hnone := siblings_zero hn
    refine .inl ⟨fun ⟨it, hit, hpre, _⟩ => not_prefix_of_shallow hn hit hpre, ?_⟩
    rw [copyTree_eq (by simp [hnone]), encode_ok (by simp [hnone])]
    rfl
  | succ n ih =>
    have hdir : ∀ it ∈ siblings items q,
        (¬ Malformed items it.path ∧ copyTree trees items (n + 1) it.path = .ok (nest items (n + 1) it.path)) ∨
        Malformed items it.path ∧ ∃ name, copyTree trees items (n + 1) it.path = .error (.malformedFilename name) := by
      intro it hit
      obtain ⟨-, rfl⟩ := mem_siblings.mp hit
      exact ih (hn.below it.name)
    by_cases hsub : ∃ it ∈ siblings items q, it.value = none ∧ Malformed items it.path
    · obtain ⟨it, hit, hv, hbad⟩ := hsub
      have hitem : ∀ d ∈ siblings items q, (∃ w, copyItem trees (n + 1) q d = .ok w) ∨
          ∃ name, copyItem trees (n + 1) q d = .error (.malformedFilename name) := by
        intro d hd
        rw [copyItem_eq h hplain hd]
        cases d.value with
        | some e => exact .inl ⟨_, rfl⟩
        | none =>
          rcases hdir d hd with ⟨-, hok⟩ | ⟨-, name, herr⟩
          · exact .inl ⟨_, by rw [hok]; rfl⟩
          · exact .inr ⟨name, by rw [herr]; rfl⟩
      obtain ⟨name, herr⟩ := ((hdir it hit).resolve_left fun hgood => hgood.1 hbad).2
      obtain ⟨name, hname⟩ := mapM_malformed hitem ⟨it, hit, name, by rw [copyItem_eq h hplain hit, hv, herr]; rfl⟩
      have hmal : Malformed items q := by
        obtain ⟨-, rfl⟩ := mem_siblings.mp hit
        exact hbad.of_path
      refine .inr ⟨hmal, name, ?_⟩
      change (siblings items q).mapM (copyEntry trees _ (text q) ∘ entryOf) = _ at hname
      rw [copyTree, copyTreeToStorageRecursive, sortEntries_children, mapM_map, hname]
      rfl
    · have hentry : ∀ it ∈ siblings items q, copyItem trees (n + 1) q it = .ok (writtenOf items (n + 1) it) := by
        intro it hit
        rw [copyItem_eq h hplain hit, writtenOf]
        cases hv : it.value with
        | some e => rfl
        | none =>
          rw [((hdir it hit).resolve_right fun hbad => hsub ⟨it, hit, hv, hbad.1⟩).2]
          rfl
      by_cases hzero : ∃ it ∈ siblings items q, 0 ∈ it.name.name
      · obtain ⟨name, hname⟩ := @encode_malformed items q (n + 1) hzero
        obtain ⟨it, hit, hnul⟩ := hzero
        obtain ⟨hmem, rfl⟩ := mem_siblings.mp hit
        exact .inr ⟨⟨it, hmem, prefix_rfl, hnul⟩, name, by rw [copyTree_eq hentry, hname]; rfl⟩
      · push Not at hzero
        refine .inl ⟨?_, by rw [copyTree_eq hentry, encode_ok hzero]; rfl⟩
        rintro ⟨it, hit, hpre, hnul⟩
        by_cases hparent : it.parent = q
        · exact hzero it (mem_siblings.mpr ⟨hit, hparent⟩) hnul
        · obtain ⟨d, hd, hv, hdpre⟩ := hc.dir hit hpre hparent
          exact hsub ⟨d, mem_siblings_iff.mpr hd, hv, it, hit, hdpre, hnul⟩

lemma inOrder_writtenOf : (writtenOf items n it).InOrder ↔ (it.value = none → Canonical (nest items n it.path)) := by
  cases hv : it.value with
  | none => simp [writtenOf, hv, Written.InOrder, Canonical]
  | some e => simp [writtenOf, hv, Written.InOrder]

lemma nodup_names : ((nest items (n + 1) q).map Written.name).Nodup ↔ ((children items q).map Item.name).Nodup := by
  have hinj : Function.Injective Component.name := fun a b => Component.ext
  have hmap : (nest items (n + 1) q).map Written.name =
      ((siblings items q).map Item.name).map Component.name := by
    rw [nest_succ, map_map, map_map]
    exact map_congr_left fun it _ => name_writtenOf
  rw [hmap, nodup_map_iff hinj]
  exact ((List.perm_insertionSort _ (children items q)).map Item.name).nodup_iff

lemma canonical_succ : Canonical (nest items (n + 1) q) ↔ ((children items q).map Item.name).Nodup ∧
    ∀ it ∈ siblings items q, it.value = none → Canonical (nest items n it.path) := by
  rw [Canonical, nodup_names, Written.inOrderAll_iff, nest_succ, forall_mem_map]
  have hsorted : Sorted ((siblings items q).map (writtenOf items n)) := sorted_nest (n := n + 1)
  simp only [hsorted, true_and, inOrder_writtenOf]

lemma canonical_nest (hc : Closed items) (hn : Shallow items q n) :
    Canonical (nest items (n + 1) q) ↔ ∀ r, q <+: r → ((children items r).map Item.name).Nodup := by
  induction n generalizing q with
  | zero =>
    have hnone : ∀ r, q <+: r → children items r = [] := by
      intro r hr
      rw [eq_nil_iff_forall_not_mem]
      intro it hit
      obtain ⟨hmem, rfl⟩ := mem_children.mp hit
      exact not_prefix_of_shallow hn hmem hr
    rw [canonical_succ, siblings_zero hn, hnone q prefix_rfl]
    simpa using fun r hr => by simp [hnone r hr]
  | succ n ih =>
    rw [canonical_succ]
    constructor
    · rintro ⟨hnames, hsub⟩ r hr
      by_cases hrq : r = q
      · exact hrq ▸ hnames
      · cases hch : children items r with
        | nil => simp
        | cons it its =>
          obtain ⟨hmem, rfl⟩ := mem_children.mp (hch ▸ mem_cons_self : it ∈ children items r)
          obtain ⟨d, hd, hv, hpre⟩ := hc.dir hmem hr hrq
          obtain ⟨-, rfl⟩ := mem_children.mp hd
          rw [← hch]
          exact (ih (hn.below d.name)).mp (hsub d (mem_siblings_iff.mpr hd) hv) _ hpre
    · intro h
      refine ⟨h q prefix_rfl, ?_⟩
      intro it hit hv
      obtain ⟨-, rfl⟩ := mem_siblings.mp hit
      exact (ih (hn.below it.name)).mpr fun r hr => h r ((prefix_append _ _).trans hr)

variable {f : List Bytes × UInt32 × ObjectID}

lemma mem_filesAll_succ :
    f ∈ Written.filesAll (nest items (n + 1) q) ↔ ∃ it ∈ siblings items q,
      (∃ e, it.value = some e ∧ f = ([it.name.name], e.mode, e.hash)) ∨
        it.value = none ∧ ∃ g ∈ Written.filesAll (nest items n it.path), f = (it.name.name :: g.1, g.2) := by
  rw [Written.filesAll_eq, nest_succ, flatMap_map, mem_flatMap]
  refine exists_congr fun it => and_congr_right fun _ => ?_
  cases hv : it.value with
  | some e => simp [writtenOf, hv, Written.files, entryOf]
  | none => simp [writtenOf, hv, Written.files, eq_comm]

lemma mem_filesAll_nest (hc : Closed items) (hn : Shallow items q n) :
    f ∈ Written.filesAll (nest items (n + 1) q) ↔ ∃ it ∈ items, ∃ e, it.value = some e ∧
      ∃ rel, it.parent = q ++ rel ∧ f = ((rel ++ [it.name]).map Component.name, e.mode, e.hash) := by
  induction n generalizing q f with
  | zero =>
    rw [mem_filesAll_succ, siblings_zero hn]
    refine iff_of_false (by simp) ?_
    rintro ⟨it, hit, e, -, rel, hparent, -⟩
    exact not_prefix_of_shallow hn hit ⟨rel, hparent.symm⟩
  | succ n ih =>
    rw [mem_filesAll_succ]
    constructor
    · rintro ⟨it, hit, ⟨e, hv, rfl⟩ | ⟨hv, g, hg, rfl⟩⟩
      · obtain ⟨hmem, rfl⟩ := mem_siblings.mp hit
        exact ⟨it, hmem, e, hv, [], by simp, rfl⟩
      · obtain ⟨-, rfl⟩ := mem_siblings.mp hit
        obtain ⟨x, hx, e, hxv, rel, hparent, rfl⟩ := (ih (hn.below it.name)).mp hg
        exact ⟨x, hx, e, hxv, it.name :: rel, by simpa using hparent, rfl⟩
    · rintro ⟨it, hit, e, hv, rel, hparent, rfl⟩
      by_cases hrel : it.parent = q
      · have hnil : rel = [] := by simpa [hrel] using hparent
        subst hnil
        exact ⟨it, mem_siblings.mpr ⟨hit, hrel⟩, .inl ⟨e, hv, rfl⟩⟩
      · obtain ⟨d, hd, hdv, rel', hrel'⟩ := hc.dir hit ⟨rel, hparent.symm⟩ hrel
        obtain ⟨-, rfl⟩ := mem_children.mp hd
        have heq : rel = d.name :: rel' := by simpa [Item.path, hparent] using hrel'.symm
        subst heq
        have hsub := (ih (hn.below d.name)).mpr ⟨it, hit, e, hv, rel', hrel'.symm, rfl⟩
        exact ⟨d, mem_siblings_iff.mpr hd, .inr ⟨hdv, _, hsub, rfl⟩⟩

end Writing

section Index

variable {entries : List Entry}

/-- No entry stands in the way of one of stage 0, and the others give way to an earlier one. -/
def Unconflicted (entries : List Entry) : Prop :=
  ∀ pre e post, entries = pre ++ e :: post →
    (e.stage = 0 → ∀ d ∈ pre ++ post, d.name ≠ e.name ∧ ¬ Under e d) ∧
      (e.stage ≠ 0 → ∃ d ∈ pre, Under e d)

def itemsOf (entries : List Entry) : Items := tree (entries.map fileOf)

lemma closed_itemsOf : Closed (itemsOf entries) := fun _ hit _ hp hpre => prefix_mem_dirs_tree hit hp hpre

section

variable (h : ∀ e ∈ entries, Proper e)

include h

lemma shallow_itemsOf : Shallow (itemsOf entries) [] (partCount entries + 1) :=
  shallow_grow h 1

lemma plain_itemsOf
    (hplain : ∀ e ∈ entries, e.mode ≠ FileMode.dir ∧ e.hash.IsZero = false) : PlainFiles (itemsOf entries) := by
  intro it hit e hv
  have hfile : (it.path, e) ∈ files (itemsOf entries) := mem_files.mpr ⟨it, hit, rfl, hv⟩
  rw [itemsOf, files_tree (fileOf_ne_nil h)] at hfile
  obtain ⟨d, hd, heq⟩ := mem_map.mp ((kept_sublist _ _).mem hfile)
  have hde : d = e := congrArg Prod.snd heq
  exact hplain e (hde ▸ hd)

lemma malformed_iff : Malformed (itemsOf entries) [] ↔ ∃ e ∈ entries, 0 ∈ e.name := by
  constructor
  · rintro ⟨it, hit, -, hzero⟩
    obtain ⟨e, he, hpre⟩ := path_of_mem_grow hit
    refine ⟨e, he, ?_⟩
    rw [(h e he).spec.2, mem_text (by decide)]
    exact ⟨it.name, hpre.mem (by simp [Item.path]), hzero⟩
  · rintro ⟨e, he, hzero⟩
    rw [(h e he).spec.2, mem_text (by decide)] at hzero
    obtain ⟨c, hc, hzero⟩ := hzero
    obtain ⟨a, b, heq⟩ := append_of_mem hc
    have hpre : a ++ [c] <+: (fileOf e).1 := ⟨b, by simp [heq]⟩
    obtain ⟨it, hit, hpath⟩ := exists_item_tree (fileOf_ne_nil h) (mem_map_of_mem he) (by simp) hpre
    have hname : it.name = c := by simpa using (append_inj' hpath rfl).2
    exact ⟨it, hit, nil_prefix, hname ▸ hzero⟩

lemma BuildTree_cases (hplain : ∀ e ∈ entries, e.mode ≠ FileMode.dir ∧ e.hash.IsZero = false) :
    ((∃ e ∈ entries, 0 ∈ e.name) ∧ ∃ name, BuildTree entries = .error (.malformedFilename name)) ∨
      (¬ ∃ e ∈ entries, 0 ∈ e.name) ∧ BuildTree entries = .ok (nest (itemsOf entries) (depth entries) []) := by
  obtain ⟨trees, hrun, hholds⟩ := Grows.entries (fun e _ => grows_doBuildTree e) rfl holds_root h
  change entries.foldlM commitIndexEntry _ = _ at hrun
  have hitems : (asked (entries.map fileOf)).foldl (add Option.isNone) [] = itemsOf entries := rfl
  rw [hitems] at hholds
  have hroot : trees rootNode = some ((children (itemsOf entries) []).map entryOf) := by
    simpa [text, rootNode] using hholds.tree []
  have hbuild : BuildTree entries = copyTreeToStorageRecursive trees (depth entries) rootNode
      ((children (itemsOf entries) []).map entryOf) := by
    rw [BuildTree, hrun]
    change (match trees rootNode with | none => _ | some root => _) = _
    rw [hroot]
  have hmal := malformed_iff h
  rcases copyTree_cases hholds (plain_itemsOf h hplain) closed_itemsOf (shallow_itemsOf h) with
    ⟨hnul, hok⟩ | ⟨hnul, herr⟩
  · exact .inr ⟨mt hmal.mpr hnul, hbuild.trans hok⟩
  · exact .inl ⟨hmal.mp hnul, hbuild ▸ herr⟩

end

lemma prefix_iff {e d : Entry} (he : Proper e) (hd : Proper d) :
    (fileOf e).1 <+: (fileOf d).1 ↔ d.name = e.name ∨ Under e d := by
  have hsame : d.name = e.name ↔ (fileOf e).1 = (fileOf d).1 := by
    rw [he.spec.2, hd.spec.2]
    exact ⟨fun htext => (text_inj htext).symm, fun heq => by rw [heq]⟩
  rw [under_iff he hd, hsame, Below]
  constructor
  · intro hpre
    by_cases heq : (fileOf e).1 = (fileOf d).1
    · exact .inl heq
    · exact .inr ⟨hpre, heq⟩
  · rintro (heq | ⟨hpre, -⟩)
    · exact heq ▸ prefix_rfl
    · exact hpre

lemma unconflicted_iff (h : ∀ e ∈ entries, Proper e) :
    Unconflicted entries ↔ ∀ pre f post, entries.map fileOf = pre ++ f :: post →
      (f.2.stage = 0 → ∀ d ∈ pre ++ post, ¬ f.1 <+: d.1) ∧ (¬ f.2.stage = 0 → ∃ d ∈ pre, Below f.1 d.1) := by
  have hsplit : ∀ {pre e post}, entries = pre ++ e :: post →
      ((e.stage = 0 → ∀ d ∈ pre ++ post, d.name ≠ e.name ∧ ¬ Under e d) ↔
        (e.stage = 0 → ∀ d ∈ (pre ++ post).map fileOf, ¬ (fileOf e).1 <+: d.1)) ∧
      ((e.stage ≠ 0 → ∃ d ∈ pre, Under e d) ↔
        (e.stage ≠ 0 → ∃ d ∈ pre.map fileOf, Below (fileOf e).1 d.1)) := by
    rintro pre e post rfl
    have he := h e (by simp)
    constructor
    · refine imp_congr_right fun _ => ?_
      rw [forall_mem_map]
      refine forall₂_congr fun d hd => ?_
      have hproper : Proper d := h d (by simp only [mem_append, mem_cons] at hd ⊢; tauto)
      rw [prefix_iff he hproper, not_or]
    · refine imp_congr_right fun _ => ?_
      constructor
      · rintro ⟨d, hd, hunder⟩
        exact ⟨fileOf d, mem_map_of_mem hd, (under_iff he (h d (by simp [hd]))).mp hunder⟩
      · rintro ⟨f, hf, hbelow⟩
        obtain ⟨d, hd, rfl⟩ := mem_map.mp hf
        exact ⟨d, hd, (under_iff he (h d (by simp [hd]))).mpr hbelow⟩
  constructor
  · intro hun pre f post heq
    obtain ⟨pre, l, hentries, rfl, hl⟩ := map_eq_append_iff.mp heq
    obtain ⟨e, post, rfl, rfl, rfl⟩ := map_eq_cons_iff.mp hl
    obtain ⟨hstage, hother⟩ := hun pre e post hentries
    rw [← map_append]
    exact ⟨(hsplit hentries).1.mp hstage, (hsplit hentries).2.mp hother⟩
  · intro hun pre e post hentries
    obtain ⟨hstage, hother⟩ := hun (pre.map fileOf) (fileOf e) (post.map fileOf) (by simp [hentries])
    rw [← map_append] at hstage
    exact ⟨(hsplit hentries).1.mpr hstage, (hsplit hentries).2.mpr hother⟩

lemma exact_iff_of_ok {root : List Written} (hok : BuildTree entries = .ok root) :
    Exact entries ↔ Canonical root ∧ ∀ path mode hash,
      (∃ f ∈ Written.filesAll root, [slash].intercalate f.1 = path ∧ f.2 = (mode, hash)) ↔
        ∃ e ∈ entries, e.stage = 0 ∧ e.name = path ∧ (e.mode, e.hash) = (mode, hash) := by
  rw [Exact, hok]
  simp

lemma listing_iff (h : ∀ e ∈ entries, Proper e) (p : Bytes) (v : UInt32 × ObjectID) :
    (∃ f ∈ Written.filesAll (nest (itemsOf entries) (depth entries) []), [slash].intercalate f.1 = p ∧ f.2 = v) ↔
      ∃ q, (∃ f ∈ files (itemsOf entries), f.1 = q ∧ (f.2.mode, f.2.hash) = v) ∧ text q = p := by
  constructor
  · rintro ⟨f, hf, hpath, hval⟩
    obtain ⟨it, hit, e, hv, rel, hparent, rfl⟩ := (mem_filesAll_nest closed_itemsOf (shallow_itemsOf h)).mp hf
    refine ⟨it.path, ⟨(it.path, e), mem_files.mpr ⟨it, hit, rfl, hv⟩, rfl, hval⟩, ?_⟩
    rw [← hpath, Item.path, hparent]
    rfl
  · rintro ⟨q, ⟨f, hf, rfl, hval⟩, hpath⟩
    obtain ⟨it, hit, hitpath, hv⟩ := mem_files.mp hf
    refine ⟨(it.path.map Component.name, f.2.mode, f.2.hash), ?_, ?_, hval⟩
    · exact (mem_filesAll_nest closed_itemsOf (shallow_itemsOf h)).mpr ⟨it, hit, f.2, hv, it.parent, rfl, rfl⟩
    · rw [← hpath, ← hitpath]
      rfl

lemma staged_iff (h : ∀ e ∈ entries, Proper e) (p : Bytes) (v : UInt32 × ObjectID) :
    (∃ e ∈ entries, e.stage = 0 ∧ e.name = p ∧ (e.mode, e.hash) = v) ↔
      ∃ q, (∃ f ∈ entries.map fileOf, f.2.stage = 0 ∧ f.1 = q ∧ (f.2.mode, f.2.hash) = v) ∧ text q = p := by
  constructor
  · rintro ⟨e, he, hstage, hname, hval⟩
    exact ⟨_, ⟨fileOf e, mem_map_of_mem he, hstage, rfl, hval⟩, (h e he).spec.2 ▸ hname⟩
  · rintro ⟨q, ⟨f, hf, hstage, rfl, hval⟩, hname⟩
    obtain ⟨e, he, rfl⟩ := mem_map.mp hf
    exact ⟨e, he, hstage, (h e he).spec.2.trans hname, hval⟩

lemma forall_text_iff {P Q : List Component → UInt32 × ObjectID → Prop} :
    (∀ path v, (∃ p, P p v ∧ text p = path) ↔ ∃ p, Q p v ∧ text p = path) ↔ ∀ p v, P p v ↔ Q p v := by
  constructor
  · intro h p v
    constructor
    · intro hp
      obtain ⟨q, hq, htext⟩ := (h (text p) v).mp ⟨p, hp, rfl⟩
      exact text_inj htext ▸ hq
    · intro hq
      obtain ⟨q, hp, htext⟩ := (h (text p) v).mpr ⟨p, hq, rfl⟩
      exact text_inj htext ▸ hp
  · intro h path v
    exact exists_congr fun p => and_congr_left fun _ => h p v

lemma unconflicted_of_pairwise (hstage : ∀ e ∈ entries, e.stage = 0)
    (h : entries.Pairwise fun e d => d.name ≠ e.name ∧ ¬ Under e d ∧ ¬ Under d e) : Unconflicted entries := by
  rintro pre e post rfl
  obtain ⟨-, hpost, hpre⟩ := pairwise_append.mp h
  refine ⟨fun _ d hd => ?_, fun hne => absurd (hstage e (by simp)) hne⟩
  rcases mem_append.mp hd with hd | hd
  · obtain ⟨hname, -, hunder⟩ := hpre d hd e mem_cons_self
    exact ⟨hname.symm, hunder⟩
  · obtain ⟨hname, hunder, -⟩ := (pairwise_cons.mp hpost).1 d hd
    exact ⟨hname, hunder⟩

def regularEntry (name : String) (hash : ObjectID) (stage : ℤ) : Entry :=
  { name := textBytes name, mode := FileMode.regular, hash := hash, stage := stage }

def oneDirectory : List Entry :=
  [regularEntry "a/b" (.short 1) 0, regularEntry "a/c" (.short 2) 0, regularEntry "d" (.short 3) 0]

end Index

end GoGit.TreeHelper
