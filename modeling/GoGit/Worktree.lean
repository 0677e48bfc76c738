import GoGit.IndexNode

/-! The three are compared as tries of files by the sums of their contents and their modes. There are no submodules;
what is read from the filesystem does not fail. -/
namespace GoGit.Worktree

open IndexFormat SlashPath Merkletrie Mindex

def IsFileMode (m : UInt32) : Prop :=
  m = FileMode.regular ∨ m = FileMode.deprecated ∨ m = FileMode.executable ∨ m = FileMode.symlink

instance (m : UInt32) : Decidable (IsFileMode m) := inferInstanceAs (Decidable (_ ∨ _))

structure HeadFile where
  mode : UInt32
  hash : ObjectID
  isFile : IsFileMode mode

/-- The mode with which a file of a commit is compared. -/
def asRegular (m : UInt32) : UInt32 := if m = FileMode.deprecated then FileMode.regular else m

def headHash (f : HeadFile) : Bytes := f.hash.bytes ++ modeBytes (asRegular f.mode)

def headDirHash (treeHash : FileTree Component HeadFile → ObjectID) (t : FileTree Component HeadFile) : Bytes :=
  (treeHash t).bytes ++ modeBytes FileMode.dir

inductive WorkFile
  | regular (executable : Bool) (content : Bytes)
  | symlink (target : Bytes)
  | device
  | socket
  deriving DecidableEq

structure Sums where
  blob : Bytes → ObjectID
  clean : Bytes → Bytes

def WorkFile.value (sums : Sums) : WorkFile → Bytes × UInt32
  | regular executable content =>
    ((sums.blob (sums.clean content)).bytes, if executable then FileMode.executable else FileMode.regular)
  | symlink target => ((sums.blob target).bytes, FileMode.symlink)
  | _ => (ObjectID.zeroHash.bytes, 0)

def workHash (sums : Sums) : WorkFile → Bytes
  | .device => ObjectID.zeroHash.bytes
  | .socket => ObjectID.zeroHash.bytes
  | f => (f.value sums).1 ++ modeBytes (f.value sums).2

def dotGit : Bytes := textBytes ".git"

def visible : FileTree Component WorkFile → FileTree Component WorkFile
  | .empty => .empty
  | .file c f rest => if c.name = dotGit ∨ f = .socket then visible rest else .file c f (visible rest)
  | .dir c sub rest => if c.name = dotGit then visible rest else .dir c (visible sub) (visible rest)

def workAt (t : FileTree Component WorkFile) (p : List Component) : Option WorkFile :=
  if dotGit ∈ names p then none else (t.fileAt p).filter fun f => f ≠ .socket

section Visible

variable {t : FileTree Component WorkFile}

lemma names_visible (t : FileTree Component WorkFile) : (visible t).names.Sublist t.names := by
  induction t with
  | empty => exact List.Sublist.refl _
  | file c f rest ih =>
    rw [visible]
    split_ifs
    · exact ih.cons _
    · exact ih.cons_cons _
  | dir c sub rest _ ih =>
    rw [visible]
    split_ifs
    · exact ih.cons _
    · exact ih.cons_cons _

lemma wf_visible (h : t.Wf) : (visible t).Wf := by
  induction t with
  | empty => trivial
  | file c f rest ih =>
    rw [visible]
    split_ifs
    · exact ih h.2
    · exact ⟨fun hmem => h.1 ((names_visible rest).mem hmem), ih h.2⟩
  | dir c sub rest ihs ih =>
    rw [visible]
    split_ifs
    · exact ih h.2.2
    · exact ⟨fun hmem => h.1 ((names_visible rest).mem hmem), ihs h.2.1, ih h.2.2⟩

lemma fileAt_visible (h : t.Wf) (p : List Component) : (visible t).fileAt p = workAt t p := by
  have hnone : ∀ {c : Component} {rest : FileTree Component WorkFile} (xs : List Component), c ∉ rest.names →
      (visible rest).fileAt (c :: xs) = none := fun xs hc =>
    FileTree.fileAt_of_not_mem (fun hmem => hc ((names_visible _).mem hmem)) xs
  induction t generalizing p with
  | empty => simp [visible, workAt, FileTree.fileAt]
  | file c f rest ih =>
    by_cases hp : p = [c]
    · subst hp
      by_cases hgit : c.name = dotGit
      · simp [visible, workAt, names, hgit, hnone [] h.1]
      · by_cases hsocket : f = .socket
        · simp [visible, workAt, names, FileTree.fileAt, Option.filter_some, hsocket, hnone [] h.1]
        · simp [visible, workAt, names, FileTree.fileAt, Option.filter_some, hsocket, hgit, Ne.symm hgit]
    · have hrest := ih h.2 p
      rw [workAt] at hrest
      rw [visible, workAt, FileTree.fileAt, if_neg hp, ← hrest]
      split_ifs
      · rfl
      · rw [FileTree.fileAt, if_neg hp]
  | dir c sub rest ihs ih =>
    cases p with
    | nil => simp [workAt]
    | cons x xs =>
      by_cases hx : x = c
      · subst hx
        by_cases hgit : x.name = dotGit
        · simp [visible, workAt, names, hgit, hnone xs h.1]
        · simp [visible, FileTree.fileAt, hgit, ihs h.2.1, workAt, names, Ne.symm hgit]
      · have hrest := ih h.2.2 (x :: xs)
        rw [workAt] at hrest
        rw [visible, workAt, FileTree.fileAt, if_neg hx, ← hrest]
        split_ifs
        · rfl
        · rw [FileTree.fileAt, if_neg hx]

end Visible

def noderEquals (a b : Bytes) : Bool := a ≠ emptyNoderHash && b ≠ emptyNoderHash && a = b

def diffTreeIsEquals (p q : Path) : Bool := noderEquals p.last.hash q.last.hash

section Noders

variable (treeHash : FileTree Component HeadFile → ObjectID) (sums : Sums)

def headNoder (head : Option (FileTree Component HeadFile)) : Option Node :=
  head.map (ofFileTree headHash (headDirHash treeHash) [])

def workNoder (work : FileTree Component WorkFile) : Node :=
  ofFileTree (workHash sums) (fun _ => emptyNoderHash) [dot] (visible work)

def diffTreeWithStaging (head : Option (FileTree Component HeadFile)) (entries : List Entry) (reverse : Bool) :
    Except Merkletrie.Fault Changes := do
  let index ← NewRootNode entries
  if reverse then DiffTree diffTreeIsEquals (some index) (headNoder treeHash head)
  else DiffTree diffTreeIsEquals (headNoder treeHash head) (some index)

/-- `diffStagingWithWorktree`, without ignored files. -/
def diffStagingWithWorktree (entries : List Entry) (work : FileTree Component WorkFile) (reverse : Bool) :
    Except Merkletrie.Fault Changes := do
  let index ← NewRootNode entries
  if reverse then DiffTree diffTreeIsEquals (some (workNoder sums work)) (some index)
  else DiffTree diffTreeIsEquals (some index) (some (workNoder sums work))

end Noders

lemma length_modeBytes (m : UInt32) : (modeBytes m).length = 4 := rfl

variable {m m' : UInt32}

lemma modeBytes_inj (h : modeBytes m = modeBytes m') : m = m' := by
  simp only [modeBytes, List.cons.injEq, and_true, ← UInt8.toNat_inj] at h
  obtain ⟨h₀, h₁, h₂, h₃⟩ := h
  have hm := m.toNat_lt
  have hm' := m'.toNat_lt
  simp [UInt32.toNat_shiftRight, Nat.shiftRight_eq_div_pow] at h₀ h₁ h₂ h₃
  rw [← UInt32.toNat_inj]
  omega

lemma append_modeBytes_inj {a b : Bytes} (h : a ++ modeBytes m = b ++ modeBytes m') : a = b ∧ m = m' := by
  obtain ⟨hab, hm⟩ := List.append_inj' h rfl
  exact ⟨hab, modeBytes_inj hm⟩

variable {m : UInt32}

lemma IsFileMode.ne_dir (h : IsFileMode m) : m ≠ FileMode.dir := by
  rcases h with rfl | rfl | rfl | rfl <;> decide

lemma IsFileMode.ne_zero (h : IsFileMode m) : m ≠ 0 := by
  rcases h with rfl | rfl | rfl | rfl <;> decide

lemma ne_emptyNoderHash {a : Bytes} (hm : m ≠ 0) : a ++ modeBytes m ≠ emptyNoderHash := by
  intro h
  have hzero : emptyNoderHash = List.replicate 20 0 ++ modeBytes 0 := by decide
  exact hm (append_modeBytes_inj (h.trans hzero)).2

lemma noderEquals_iff {a b : Bytes} : noderEquals a b = true ↔ a ≠ emptyNoderHash ∧ b ≠ emptyNoderHash ∧ a = b := by
  simp [noderEquals, and_assoc]

section Comparable

variable {fromTree toTree : Option Node} {F G : List Component → Option Bytes}

lemma comparable_of (hf : Represents fromTree F) (ht : Represents toTree G)
    (hdirs : ∀ r s, TreePath fromTree r → TreePath toTree s → diffTreeIsEquals r s = true →
      r.isDir = false ∧ s.isDir = false)
    (hfiles : ∀ r s, FileOf fromTree r → FileOf toTree s → r.last.hash = s.last.hash →
      r.last.hash ≠ emptyNoderHash) : Comparable diffTreeIsEquals fromTree toTree where
  names := hf.distinct
  names' := ht.distinct
  named := hf.named
  named' := ht.named
  sound r s hr hs heq := by
    obtain ⟨hrd, hsd⟩ := hdirs r s hr hs heq
    exact sameFiles_of_files hrd hsd (noderEquals_iff.mp heq).2.2
  files r s hr hs hrd hsd hhash := by
    have hne := hfiles r s ⟨hr, hrd⟩ ⟨hs, hsd⟩ hhash
    exact noderEquals_iff.mpr ⟨hne, hhash ▸ hne, hhash⟩

end Comparable

section Represented

variable {entries : List Entry} {treeHash : FileTree Component HeadFile → ObjectID} {sums : Sums}
  {head : Option (FileTree Component HeadFile)} {work : FileTree Component WorkFile}

def headAt (head : Option (FileTree Component HeadFile)) (p : List Component) : Option HeadFile :=
  head.bind fun t => t.fileAt p

def headMap (head : Option (FileTree Component HeadFile)) (p : List Component) : Option Bytes :=
  (headAt head p).map headHash

def indexMap (entries : List Entry) (p : List Component) : Option Bytes := (entryAt entries p).map entryHash

def workMap (sums : Sums) (work : FileTree Component WorkFile) (p : List Component) : Option Bytes :=
  (workAt work p).map (workHash sums)

structure Staged (entries : List Entry) : Prop extends Plain entries where
  files : ∀ e ∈ entries, IsFileMode e.mode

def indexNoder (entries : List Entry) : Node := ofFileTree entryHash noHash [dot] (treeOf entries)

lemma represents_index (h : Staged entries) : Represents (some (indexNoder entries)) (indexMap entries) := by
  have hrep := @represents_ofFileTree Entry entryHash noHash [dot] (treeOf entries) wf_treeOf
  simp only [h.toPlain.fileAt] at hrep
  exact hrep

lemma represents_work (hwf : work.Wf) : Represents (some (workNoder sums work)) (workMap sums work) := by
  have hrep := @represents_ofFileTree WorkFile (workHash sums) (fun _ => emptyNoderHash) [dot] (visible work)
    (wf_visible hwf)
  simp only [fileAt_visible hwf] at hrep
  exact hrep

lemma represents_head (hwf : ∀ t ∈ head, t.Wf) : Represents (headNoder treeHash head) (headMap head) := by
  cases head with
  | none => exact represents_none
  | some t => exact represents_ofFileTree (hwf t rfl)

lemma indexNoder_hash (h : Staged entries) {s : Path} (hs : TreePath (some (indexNoder entries)) s) :
    s.isDir = true ∧ s.last.hash = emptyNoderHash ∨ s.isDir = false ∧ ∃ e ∈ entries, s.last.hash = entryHash e := by
  obtain ⟨p, -, ⟨c, e, hfile, hnode⟩ | ⟨c, d, -, hnode⟩⟩ := shows_of_treePath wf_treeOf hs
  · rw [h.toPlain.fileAt] at hfile
    exact .inr ⟨by rw [Path.isDir, hnode]; rfl, e, List.mem_of_find?_eq_some hfile, by rw [hnode]; rfl⟩
  · exact .inl ⟨by rw [Path.isDir, hnode]; rfl, by rw [hnode]; rfl⟩

lemma entryHash_ne (h : Staged entries) {e : Entry} (he : e ∈ entries) : entryHash e ≠ emptyNoderHash :=
  ne_emptyNoderHash (h.files e he).ne_zero

variable {tree : Option Node}

lemma index_equals (h : Staged entries) (hdir : ∀ r, TreePath tree r → r.isDir = true →
      r.last.hash ≠ emptyNoderHash → ∀ e ∈ entries, r.last.hash ≠ entryHash e) {r s : Path} (hr : TreePath tree r)
    (hs : TreePath (some (indexNoder entries)) s) (heq : noderEquals r.last.hash s.last.hash = true) :
    r.isDir = false ∧ s.isDir = false := by
  obtain ⟨hrne, hsne, hhash⟩ := noderEquals_iff.mp heq
  obtain ⟨-, hempty⟩ | ⟨hsd, e, he, hse⟩ := indexNoder_hash h hs
  · exact absurd hempty hsne
  · refine ⟨?_, hsd⟩
    cases hrd : r.isDir with
    | false => rfl
    | true => exact absurd (hhash.trans hse) (hdir r hr hrd hrne e he)

lemma noderEquals_comm (a b : Bytes) : noderEquals a b = noderEquals b a := by
  rw [Bool.eq_iff_iff, noderEquals_iff, noderEquals_iff]
  tauto

lemma comparable_index (h : Staged entries) {F : List Component → Option Bytes}
    (hrep : Represents tree F) (hdir : ∀ r, TreePath tree r → r.isDir = true →
      r.last.hash ≠ emptyNoderHash → ∀ e ∈ entries, r.last.hash ≠ entryHash e) :
    Comparable diffTreeIsEquals tree (some (indexNoder entries)) ∧
      Comparable diffTreeIsEquals (some (indexNoder entries)) tree := by
  have hne : ∀ s, FileOf (some (indexNoder entries)) s → s.last.hash ≠ emptyNoderHash := by
    rintro s ⟨hs, hsd⟩
    obtain ⟨hdir, -⟩ | ⟨-, e, he, hse⟩ := indexNoder_hash h hs
    · exact absurd hsd (by simp [hdir])
    · exact hse ▸ entryHash_ne h he
  constructor
  · refine comparable_of hrep (represents_index h) (fun r s hr hs heq => index_equals h hdir hr hs heq) ?_
    intro r s _ hs hhash
    rw [hhash]
    exact hne s hs
  · refine comparable_of (represents_index h) hrep ?_ fun r s hr _ _ => hne r hr
    intro r s hr hs heq
    rw [diffTreeIsEquals, noderEquals_comm] at heq
    exact (index_equals h hdir hs hr heq).symm

lemma headNoder_dir (h : Staged entries) (hwf : ∀ t ∈ head, t.Wf) (r : Path) (hr : TreePath (headNoder treeHash head) r)
    (hrd : r.isDir = true) : ∀ e ∈ entries, r.last.hash ≠ entryHash e := by
  intro e he heq
  cases head with
  | none => exact absurd hr (by rintro ⟨p, hp, -⟩; simp [headNoder, rootPaths] at hp)
  | some t =>
    obtain ⟨p, -, ⟨c, f, -, hnode⟩ | ⟨c, d, -, hnode⟩⟩ := shows_of_treePath (hwf t rfl) hr
    · simp [Path.isDir, hnode, Node.isDir] at hrd
    · rw [hnode] at heq
      exact (h.files e he).ne_dir (append_modeBytes_inj heq).2.symm

lemma workNoder_dir (hwf : work.Wf) (r : Path) (hr : TreePath (some (workNoder sums work)) r) (hrd : r.isDir = true) :
    r.last.hash = emptyNoderHash := by
  obtain ⟨p, -, ⟨c, f, -, hnode⟩ | ⟨c, d, -, hnode⟩⟩ := shows_of_treePath (wf_visible hwf) hr
  · simp [Path.isDir, hnode, Node.isDir] at hrd
  · rw [hnode]
    rfl

def Lists (F G : List Component → Option Bytes) (cs : Changes) (l : List (List Component × Action)) : Prop :=
  ShowsChanges cs l ∧ (l.map Prod.fst).Nodup ∧ ∀ p a, (p, a) ∈ l ↔ actionOf (F p) (G p) = some a

lemma diffTreeWithStaging_lists (h : Staged entries) (hwf : ∀ t ∈ head, t.Wf) :
    ∃ cs l, diffTreeWithStaging treeHash head entries false = .ok cs ∧ Lists (headMap head) (indexMap entries) cs l := by
  have hrep := @represents_head treeHash head hwf
  obtain ⟨hto, -⟩ := comparable_index h hrep fun r hr hrd _ => headNoder_dir h hwf r hr hrd
  obtain ⟨cs, l, hdiff, hlists⟩ := DiffTree_represents hrep (represents_index h) hto
  exact ⟨cs, l, by rw [diffTreeWithStaging, NewRootNode_eq h.toPlain]; exact hdiff, hlists⟩

lemma diffStagingWithWorktree_lists (h : Staged entries) (hwf : work.Wf) :
    ∃ cs l, diffStagingWithWorktree sums entries work false = .ok cs ∧
      Lists (indexMap entries) (workMap sums work) cs l := by
  have hrep := @represents_work sums work hwf
  obtain ⟨-, hfrom⟩ := comparable_index h hrep fun r hr hrd hne => absurd (workNoder_dir hwf r hr hrd) hne
  obtain ⟨cs, l, hdiff, hlists⟩ := DiffTree_represents (represents_index h) hrep hfrom
  exact ⟨cs, l, by rw [diffStagingWithWorktree, NewRootNode_eq h.toPlain]; exact hdiff, hlists⟩

end Represented

end GoGit.Worktree
