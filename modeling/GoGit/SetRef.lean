import GoGit.PackRefs

/-! The file of the reference is opened, and made if there is none, before the old reference is compared with the one
that is stored. Only their hashes are compared. -/
namespace GoGit.DotGit

open SlashPath (Component)

/-- The directory with a file at a path and with the directories to it. -/
def create (d : DotGit) (path : List Component) (content : Bytes) : Except DotGitError DotGit :=
  if h : d.root.Writable path then .ok ⟨d.root.set path content, d.wf.set h content⟩
  else .error (if (d.root.dirAt path).isSome then .isDir else .notDir)

/-- `OpenFile` to read and write a file, which is created if there is none. -/
def openFile (d : DotGit) (path : List Component) : Except DotGitError (DotGit × Bytes) :=
  match d.root.fileAt path with
  | some content => .ok (d, content)
  | none => (d.create path []).map (·, [])

/-- The reference in a file, or the packed one if the file is empty. -/
def readOrPacked (d : DotGit) (content : Bytes) (name : ReferenceName) : Except DotGitError Reference :=
  match readReferenceFrom content name with
  | .error .emptyRefFile => d.packedRef name
  | result => result

def checkReferenceAndTruncate (d : DotGit) (content : Bytes) : Option Reference → Except DotGitError Unit
  | none => .ok ()
  | some old =>
    match d.readOrPacked content old.name with
    | .error e => .error e
    | .ok ref => if ref.hash ≠ old.hash then .error .referenceHasChanged else .ok ()

/-- The file is made before the check, and stays if the check fails. -/
def setRefRwfs (d : DotGit) (path : List Component) (content : Bytes) (old : Option Reference) :
    Except DotGitError Unit × DotGit :=
  match d.openFile path with
  | .error e => (.error e, d)
  | .ok (d, stored) =>
    match d.checkReferenceAndTruncate stored old with
    | .error e => (.error e, d)
    | .ok () =>
      match d.create path content with
      | .error e => (.error e, d)
      | .ok d => (.ok (), d)

def refContent (r : Reference) : Bytes :=
  match r.target with
  | .symbolic target => symrefPrefix ++ target ++ [0x0a]
  | .hash h => h.string ++ [0x0a]

/-- `SetRef` with its result and the directory after it. -/
def SetRef (d : DotGit) (r : Reference) (old : Option Reference) : Except DotGitError Unit × DotGit :=
  match SlashPath.path r.name with
  | none => (.error .crossedBoundary, d)
  | some path => d.setRefRwfs path (refContent r) old

section Creates

variable {d d' : DotGit} {path : List Component} {content : Bytes} {name : Component} {n : ReferenceName}
  {e : DotGitError}

structure Creates (d d' : DotGit) (path : List Component) (content : Bytes) : Prop where
  writable : d.root.Writable path
  fileAt : ∀ q, d'.root.fileAt q = if q = path then some content else d.root.fileAt q
  dirAt : ∀ name below first, path = name :: below → first ≠ name →
    d'.root.dirAt [first] = d.root.dirAt [first]
  through : ∀ name below, path = name :: below → below ≠ [] → (d'.root.dirAt [name]).isSome

lemma create_of_writable (h : d.root.Writable path) (content : Bytes) :
    ∃ d', d.create path content = .ok d' ∧ Creates d d' path content := by
  refine ⟨_, dif_pos h, h, FileTree.fileAt_set d.wf h content, ?_, ?_⟩
  · rintro name below first rfl hne
    exact FileTree.dirAt_set_of_ne hne below content
  · rintro name below rfl hbelow
    exact FileTree.isSome_dirAt_set h hbelow content

lemma openFile_of_writable (h : d.root.Writable path) : ∃ d₁ stored, d.openFile path = .ok (d₁, stored) ∧
    ((d₁ = d ∧ d.root.fileAt path = some stored) ∨
      (stored = [] ∧ d.root.fileAt path = none ∧ Creates d d₁ path [])) := by
  rw [openFile]
  cases hget : d.root.fileAt path with
  | some stored => exact ⟨d, stored, rfl, .inl ⟨rfl, rfl⟩⟩
  | none =>
    obtain ⟨d₁, hcreate, hc⟩ := create_of_writable h []
    exact ⟨d₁, [], by rw [hcreate]; rfl, .inr ⟨rfl, rfl, hc⟩⟩

lemma openFile_of_not_writable (h : ¬ d.root.Writable path) : ∃ e, d.openFile path = .error e := by
  rw [openFile]
  cases hget : d.root.fileAt path with
  | some stored => exact absurd (FileTree.writable_of_fileAt d.wf hget) h
  | none =>
    rw [create, dif_neg h]
    exact ⟨_, rfl⟩

/-- A path below the file of packed references needs a directory in its place. -/
def HidesPacked (d : DotGit) (path : List Component) : Prop :=
  ∃ below, below ≠ [] ∧ path = packedRefsPath :: below ∧ d.root.dirAt [packedRefsPath] = none

section

variable (hc : Creates d d' path [])

include hc

lemma openPackedRefs_of_hidesPacked (h : HidesPacked d path) :
    d.openPackedRefs = .ok none ∧ d'.openPackedRefs = .error .isDir := by
  obtain ⟨below, hbelow, rfl, hdir⟩ := h
  obtain ⟨next, below, rfl⟩ := List.exists_cons_of_ne_nil hbelow
  have hfile : d.root.fileAt [packedRefsPath] = none := hc.writable.1
  have hfile' : d'.root.fileAt [packedRefsPath] = none := by rw [hc.fileAt, if_neg (by simp), hfile]
  have hdir' : d'.root.dirAt [packedRefsPath] ≠ none :=
    Option.isSome_iff_ne_none.mp (hc.through _ _ rfl hbelow)
  simp [openPackedRefs, hfile, hdir, hfile', hdir']

lemma findPackedRefs_of_creates (hnone : d.root.fileAt path = none)
    (h : ¬ HidesPacked d path) {σ : Type} (recv : σ → Option Reference → σ × Bool) (s : σ) :
    d'.findPackedRefs recv s = d.findPackedRefs recv s := by
  by_cases hpath : path = [packedRefsPath]
  · subst hpath
    have hdir : d.root.dirAt [packedRefsPath] = none := hc.writable
    have hfile' : d'.root.fileAt [packedRefsPath] = some [] := by rw [hc.fileAt, if_pos rfl]
    have hopen : d.openPackedRefs = .ok none := by simp [openPackedRefs, hnone, hdir]
    have hopen' : d'.openPackedRefs = .ok (some []) := by simp [openPackedRefs, hfile']
    simp only [findPackedRefs, hopen, hopen']
    rfl
  · have hfile : d'.root.fileAt [packedRefsPath] = d.root.fileAt [packedRefsPath] := by
      rw [hc.fileAt, if_neg (Ne.symm hpath)]
    have hdir : d'.root.dirAt [packedRefsPath] = none ↔ d.root.dirAt [packedRefsPath] = none := by
      cases path with
      | nil => exact hc.writable.elim
      | cons name below =>
        by_cases hname : name = packedRefsPath
        · subst hname
          have hbelow : below ≠ [] := fun heq => hpath (by rw [heq])
          have hsome := Option.isSome_iff_ne_none.mp (hc.through _ _ rfl hbelow)
          exact ⟨fun hn => absurd hn hsome, fun hn => absurd ⟨below, hbelow, rfl, hn⟩ h⟩
        · rw [hc.dirAt _ _ _ rfl (Ne.symm hname)]
    have hopen : d'.openPackedRefs = d.openPackedRefs := by
      simp only [openPackedRefs, hfile, hdir]
    rw [findPackedRefs, findPackedRefs, hopen]

lemma packedRef_of_creates (hnone : d.root.fileAt path = none)
    (h : ¬ HidesPacked d path) (n : ReferenceName) : d'.packedRef n = d.packedRef n := by
  rw [packedRef, packedRef, findPackedRefs_of_creates hc hnone h]

lemma packedRef_of_hidesPacked (h : HidesPacked d path) (n : ReferenceName) :
    d.packedRef n = .error .referenceNotFound ∧ d'.packedRef n = .error .isDir := by
  obtain ⟨hopen, hopen'⟩ := openPackedRefs_of_hidesPacked hc h
  constructor
  · rw [packedRef, findPackedRefs, hopen]
    rfl
  · rw [packedRef, findPackedRefs, hopen']
    rfl

end

lemma Ref_of_missing (hpath : SlashPath.path n = some path) (hnone : d.root.fileAt path = none) :
    d.Ref n = d.packedRef n := by
  rw [Ref, readReferenceFile, hpath]
  dsimp only
  rw [hnone]

lemma Ref_of_file (hpath : SlashPath.path n = some path) (hfile : d.root.fileAt path = some content) :
    d.Ref n = d.readOrPacked content n := by
  rw [Ref, readReferenceFile, hpath, readOrPacked]
  dsimp only
  rw [hfile]
  cases content <;> rfl

lemma Ref_of_creates (hc : Creates d d' path []) (hnone : d.root.fileAt path = none)
    (h : ¬ HidesPacked d path) (n : ReferenceName) : d'.Ref n = d.Ref n := by
  have hpacked := packedRef_of_creates hc hnone h n
  cases hn : SlashPath.path n with
  | none =>
    rw [Ref, Ref, readReferenceFile, readReferenceFile, hn]
    exact hpacked
  | some q =>
    cases hq : d.root.fileAt q with
    | none =>
      rw [Ref_of_missing hn hq, ← hpacked]
      by_cases heq : q = path
      · rw [Ref_of_file hn (by rw [hc.fileAt, if_pos heq])]
        rfl
      · rw [Ref_of_missing hn (by rw [hc.fileAt, if_neg heq, hq])]
    | some content =>
      have hne : q ≠ path := fun heq => by simp [heq, hnone] at hq
      rw [Ref_of_file hn hq, Ref_of_file hn (by rw [hc.fileAt, if_neg hne, hq]), readOrPacked, readOrPacked, hpacked]

lemma Refs_of_head_error (h : d.addRefFromHEAD = .error e) : d.Refs = .error e := by
  rw [Refs, h]
  rfl

lemma Refs_of_loose_error {l : List Reference} (hhead : d.addRefFromHEAD = .ok l)
    (h : d.addRefsFromRefDir = .error e) : d.Refs = .error e := by
  rw [Refs, hhead, h]
  rfl

lemma walkReferencesTree_error {t : FileTree Component Bytes} {refs : List Reference} {relPath : List Component}
    (h : walkReferencesTree refs relPath t = .error e) : e = .emptyRefFile := by
  induction t generalizing refs relPath with
  | empty => simp [walkReferencesTree] at h
  | file name content rest ih =>
    rw [walkReferencesTree, bind_eq_error_iff] at h
    rcases h with h | ⟨ref, -, h⟩
    · rw [readReferenceFrom] at h
      split_ifs at h
      exact (Except.error.inj h).symm
    · exact ih h
  | dir name sub rest ihs ih =>
    rw [walkReferencesTree, bind_eq_error_iff] at h
    rcases h with h | ⟨refs', -, h⟩
    · exact ihs h
    · exact ih h

variable {below : List Component}

lemma addRefsFromRefDir_of_creates (hc : Creates d d' (refsPath :: below) []) :
    d'.addRefsFromRefDir = .error (if below = [] then .notDir else .emptyRefFile) := by
  have hfile : d'.root.fileAt (refsPath :: below) = some [] := by rw [hc.fileAt, if_pos rfl]
  by_cases hbelow : below = []
  · subst hbelow
    rw [addRefsFromRefDir, FileTree.dirAt_eq_none_of_fileAt d'.wf hfile]
    simp [hfile]
  · rw [if_neg hbelow]
    cases hloose : d'.addRefsFromRefDir with
    | ok l =>
      obtain ⟨-, hne, -⟩ := addRefsFromRefDir_ok_iff.mp hloose
      exact absurd rfl (hne _ (mem_looseFiles_iff.mpr ⟨hbelow, hfile⟩))
    | error e =>
      obtain ⟨sub, hsub⟩ := Option.isSome_iff_exists.mp (hc.through _ _ rfl hbelow)
      rw [addRefsFromRefDir, hsub] at hloose
      rw [walkReferencesTree_error hloose]

lemma addRefFromHEAD_of_creates (hc : Creates d d' (headName :: below) []) :
    d'.addRefFromHEAD = .error (if below = [] then .emptyRefFile else .isDir) := by
  have hpath : SlashPath.path headName.name = some [headName] := SlashPath.path_text [headName]
  rw [addRefFromHEAD, readReferenceFile, hpath]
  dsimp only
  by_cases hbelow : below = []
  · subst hbelow
    rw [hc.fileAt, if_pos rfl]
    rfl
  · have hfile : d.root.fileAt [headName] = none := by
      obtain ⟨next, below, rfl⟩ := List.exists_cons_of_ne_nil hbelow
      exact hc.writable.1
    rw [hc.fileAt, if_neg (by simpa using Ne.symm hbelow), hfile, hc.through _ _ rfl hbelow, if_neg hbelow]
    rfl

lemma addRefFromHEAD_of_creates_of_ne (hc : Creates d d' (name :: below) [])
    (hname : name ≠ headName) : d'.addRefFromHEAD = d.addRefFromHEAD := by
  refine addRefFromHEAD_congr ?_ (hc.dirAt _ _ _ rfl (Ne.symm hname))
  rw [hc.fileAt, if_neg (by simp [Ne.symm hname])]

lemma addRefsFromRefDir_of_creates_of_ne (hc : Creates d d' (name :: below) [])
    (hname : name ≠ refsPath) : d'.addRefsFromRefDir = d.addRefsFromRefDir := by
  have hfile : d'.root.fileAt [refsPath] = d.root.fileAt [refsPath] := by
    rw [hc.fileAt, if_neg (by simp [Ne.symm hname])]
  rw [addRefsFromRefDir, addRefsFromRefDir, hc.dirAt _ _ _ rfl (Ne.symm hname), hfile]

def SameRefs (d d' : DotGit) : Prop := (∀ n, d'.Ref n = d.Ref n) ∧ d'.Refs = d.Refs

/-- An empty file at the path makes no difference: listing fails as it would with the file, and the packed
references stay readable. -/
def Unseen (d : DotGit) : List Component → Prop
  | [] => True
  | name :: below =>
    (name = headName → d.Refs = .error (if below = [] then .emptyRefFile else .isDir)) ∧
    (name = refsPath → (∃ e, d.addRefFromHEAD = .error e) ∨
      d.Refs = .error (if below = [] then .notDir else .emptyRefFile)) ∧
    (name = packedRefsPath → below = [] ∨ d.root.dirAt [packedRefsPath] ≠ none)

lemma unseen_of_hidesPacked (h : HidesPacked d path) : ¬ Unseen d path := by
  obtain ⟨below, hbelow, rfl, hdir⟩ := h
  rintro ⟨-, -, hpacked⟩
  exact (hpacked rfl).elim hbelow fun hsome => hsome hdir

lemma Refs_of_creates_iff (hc : Creates d d' (name :: below) [])
    (hnone : d.root.fileAt (name :: below) = none) (h : ¬ HidesPacked d (name :: below)) :
    d'.Refs = d.Refs ↔ Unseen d (name :: below) := by
  have hpacked : name = packedRefsPath → below = [] ∨ d.root.dirAt [packedRefsPath] ≠ none := by
    rintro rfl
    by_contra hnot
    push Not at hnot
    exact h ⟨below, hnot.1, rfl, hnot.2⟩
  by_cases hhead : name = headName
  · subst hhead
    rw [Refs_of_head_error (addRefFromHEAD_of_creates hc)]
    refine ⟨fun heq => ⟨fun _ => heq.symm, fun heq' => absurd heq' (by decide), hpacked⟩, fun hu => ?_⟩
    exact (hu.1 rfl).symm
  · have hsame := addRefFromHEAD_of_creates_of_ne hc hhead
    by_cases hrefs : name = refsPath
    · subst hrefs
      cases hread : d.addRefFromHEAD with
      | error e =>
        rw [Refs_of_head_error hread, Refs_of_head_error (hsame.trans hread)]
        exact ⟨fun _ => ⟨fun heq => absurd heq hhead, fun _ => .inl ⟨e, hread⟩, hpacked⟩, fun _ => rfl⟩
      | ok l =>
        rw [Refs_of_loose_error (hsame.trans hread) (addRefsFromRefDir_of_creates hc)]
        refine ⟨fun heq => ⟨fun heq' => absurd heq' hhead, fun _ => .inr heq.symm, hpacked⟩, fun hu => ?_⟩
        rcases hu.2.1 rfl with ⟨e, he⟩ | he
        · simp [hread] at he
        · exact he.symm
    · have hloose := addRefsFromRefDir_of_creates_of_ne hc hrefs
      have hfind := fun refs => findPackedRefs_of_creates hc hnone h refsRecvFunc refs
      refine ⟨fun _ => ⟨fun heq => absurd heq hhead, fun heq => absurd heq hrefs, hpacked⟩, fun _ => ?_⟩
      simp only [Refs, hsame, hloose, hfind]

lemma sameRefs_iff_unseen (hc : Creates d d' path []) (hnone : d.root.fileAt path = none)
    (hpath : SlashPath.path n = some path) : SameRefs d d' ↔ Unseen d path := by
  by_cases hhides : HidesPacked d path
  · obtain ⟨hbefore, hafter⟩ := packedRef_of_hidesPacked hc hhides n
    refine ⟨fun hsame => ?_, fun hu => absurd hu (unseen_of_hidesPacked hhides)⟩
    have href := hsame.1 n
    rw [Ref_of_missing hpath hnone, Ref_of_file hpath (by rw [hc.fileAt, if_pos rfl]), hbefore] at href
    have hempty : d'.readOrPacked [] n = d'.packedRef n := rfl
    simp [hempty, hafter] at href
  · cases path with
    | nil => exact hc.writable.elim
    | cons name below =>
      rw [← Refs_of_creates_iff hc hnone hhides]
      exact and_iff_right (Ref_of_creates hc hnone hhides)

end Creates

section Content

variable {r : Reference}

lemma string_ne_nil (id : ObjectID) : id.string ≠ [] := by
  refine List.ne_nil_of_length_pos ?_
  rw [ObjectID.string, Hex.length_encode, id.length_bytes_eq]
  cases id.format <;> decide

lemma word_string (id : ObjectID) : Trim.Word id.string := by
  have hspaces : ∀ t ∈ Trim.spaces, ∃ c ∈ t, ¬ Hex.IsDigit c := by decide
  refine ⟨string_ne_nil id, fun t ht hpart => ?_⟩
  obtain ⟨c, hc, hdigit⟩ := hspaces t ht
  exact not_mem_string hdigit id (hpart.subset hc)

/-- A reference can be read from its text: nothing is behind the sum of its hash, and its target has no
white space at its end. -/
def Readable (r : Reference) : Prop :=
  match r.target with
  | .hash h => h.Proper
  | .symbolic target => target ≠ [] ∧ Trim.trimEnd target = target

lemma refContent_ne_nil (r : Reference) : refContent r ≠ [] := by
  rw [refContent]
  split <;> simp

lemma readable_iff (r : Reference) :
    Reference.newReferenceFromStrings r.name (Trim.trimSpace (refContent r)) = r ↔ Readable r := by
  obtain ⟨name, target⟩ := r
  cases target with
  | hash h =>
    have hnotref : ¬ symrefPrefix <+: h.string := fun hpre =>
      not_mem_string (by decide) h (hpre.subset (by decide : (0x20 : UInt8) ∈ symrefPrefix))
    simp only [refContent, Readable, Trim.trimSpace_word (word_string h), Reference.newReferenceFromStrings, hnotref,
      if_false, Reference.mk.injEq, ReferenceTarget.hash.injEq, true_and]
    exact h.fromHex_string_iff
  | symbolic target =>
    have htrim : Trim.trimSpace (symrefPrefix ++ target ++ [0x0a]) =
        if Trim.trimEnd target = [] then textBytes "ref:" else symrefPrefix ++ Trim.trimEnd target :=
      Trim.trimSpace_word_append (by decide : Trim.Word (textBytes "ref:")) target
    simp only [refContent, Readable, htrim]
    by_cases hnil : Trim.trimEnd target = []
    · -- the text is that of a hash
      have hnotref : ¬ symrefPrefix <+: textBytes "ref:" := by decide
      rw [if_pos hnil, Reference.newReferenceFromStrings, if_neg hnotref, hnil]
      refine iff_of_false (by simp) fun h => h.1 h.2.symm
    · rw [if_neg hnil, Reference.newReferenceFromStrings, if_pos (List.prefix_append _ _), List.drop_left]
      simp only [Reference.mk.injEq, ReferenceTarget.symbolic.injEq, true_and]
      exact ⟨fun heq => ⟨heq ▸ hnil, heq⟩, fun h => h.2⟩

end Content

section Atomic

variable {d : DotGit} {r old : Reference} {path : List Component}

/-- A reference is set only in place of the old one and is then read back; nothing is changed otherwise. -/
def Atomic (d : DotGit) (r old : Reference) : Prop :=
  match d.SetRef r (some old) with
  | (.ok (), d') => (∃ cur, d.Ref old.name = .ok cur ∧ cur.target = old.target) ∧ d'.Ref r.name = .ok r
  | (.error _, d') => SameRefs d d'

lemma not_atomic_of_ok {cur : Reference} (hs : (d.SetRef r (some old)).1 = .ok ())
    (hread : d.Ref old.name = .ok cur) (hne : cur.target ≠ old.target) : ¬ Atomic d r old := by
  intro h
  rw [Atomic] at h
  cases hset : d.SetRef r (some old) with
  | mk result d' =>
    obtain rfl : result = .ok () := by rw [hset] at hs; exact hs
    rw [hset] at h
    obtain ⟨⟨cur', hread', htarget⟩, -⟩ := h
    obtain rfl := Except.ok.inj (hread'.symm.trans hread)
    exact hne htarget

lemma not_atomic_of_error {e : DotGitError} (hs : (d.SetRef r (some old)).1 = .error e)
    (hrefs : (d.SetRef r (some old)).2.Refs ≠ d.Refs) : ¬ Atomic d r old := by
  intro h
  rw [Atomic] at h
  cases hset : d.SetRef r (some old) with
  | mk result d' =>
    rw [hset] at hs hrefs
    obtain rfl : result = .error e := hs
    rw [hset] at h
    exact hrefs h.2

/-- The file is there before, or it makes no difference that it is empty. -/
def Keeps (d : DotGit) (path : List Component) : Prop := d.root.fileAt path ≠ none ∨ Unseen d path

/-- A reference that has the hash of the old one is the old one, and the new one is read back from its
text. If the hash is another one or there is no reference, then the file is there before, or it makes no
difference. -/
def Careful (d : DotGit) (r old : Reference) : Prop :=
  ∀ path, SlashPath.path r.name = some path → d.root.Writable path →
    match d.Ref r.name with
    | .ok cur => if cur.hash = old.hash then cur.target = old.target ∧ Readable r else Keeps d path
    | .error _ => Keeps d path

lemma SameRefs.refl (d : DotGit) : SameRefs d d := ⟨fun _ => rfl, rfl⟩

section

variable {d₁ : DotGit} {stored : Bytes} (hpath : SlashPath.path r.name = some path)
  (h : (d₁ = d ∧ d.root.fileAt path = some stored) ∨
    (stored = [] ∧ d.root.fileAt path = none ∧ Creates d d₁ path []))

include hpath h

lemma readOrPacked_openFile : (d₁.readOrPacked stored r.name).toOption = (d.Ref r.name).toOption := by
  rcases h with ⟨rfl, hfile⟩ | ⟨rfl, hnone, hc⟩
  · rw [Ref_of_file hpath hfile]
  · have hempty : d₁.readOrPacked [] r.name = d₁.packedRef r.name := rfl
    rw [Ref_of_missing hpath hnone, hempty]
    by_cases hhides : HidesPacked d path
    · obtain ⟨hbefore, hafter⟩ := packedRef_of_hidesPacked hc hhides r.name
      rw [hbefore, hafter]
      rfl
    · rw [packedRef_of_creates hc hnone hhides]

lemma sameRefs_iff_keeps : SameRefs d d₁ ↔ Keeps d path := by
  rcases h with ⟨rfl, hfile⟩ | ⟨rfl, hnone, hc⟩
  · exact iff_of_true (.refl _) (.inl (by simp [hfile]))
  · rw [sameRefs_iff_unseen hc hnone hpath, Keeps, or_iff_right (by simp [hnone])]

end

lemma Ref_of_written {d₁ d₂ : DotGit} (hpath : SlashPath.path r.name = some path)
    (hc : Creates d₁ d₂ path (refContent r)) : d₂.Ref r.name = .ok r ↔ Readable r := by
  have hread : d₂.Ref r.name = .ok (.newReferenceFromStrings r.name (Trim.trimSpace (refContent r))) := by
    rw [Ref_of_file hpath (by rw [hc.fileAt, if_pos rfl]), readOrPacked, readReferenceFrom,
      if_neg (refContent_ne_nil r)]
  rw [hread, Except.ok.injEq, readable_iff]

/-- A reference is set in place of the old one, or nothing is changed, if the comparison by the hash is
enough and the file that is opened makes no difference, and only then. -/
theorem SetRef_atomic_iff (d : DotGit) (r old : Reference) (hname : old.name = r.name) :
    Atomic d r old ↔ Careful d r old := by
  rw [Atomic, SetRef, Careful]
  cases hpath : SlashPath.path r.name with
  | none => exact iff_of_true (.refl d) (by simp)
  | some path =>
    dsimp only
    by_cases hw : d.root.Writable path
    · obtain ⟨d₁, stored, hopen, hcases⟩ := openFile_of_writable hw
      have hread := readOrPacked_openFile hpath hcases
      have hkeeps := sameRefs_iff_keeps hpath hcases
      rw [setRefRwfs, hopen]
      dsimp only
      rw [checkReferenceAndTruncate, hname]
      simp only [Option.some.injEq, forall_eq', hw, true_imp_iff]
      cases hcur : d.Ref r.name with
      | error e =>
        rw [hcur] at hread
        cases hcmp : d₁.readOrPacked stored r.name with
        | ok ref => simp [hcmp, Except.toOption] at hread
        | error e' => exact hkeeps
      | ok cur =>
        rw [hcur] at hread
        cases hcmp : d₁.readOrPacked stored r.name with
        | error e' => simp [hcmp, Except.toOption] at hread
        | ok ref =>
          obtain rfl : ref = cur := by simpa [hcmp, Except.toOption] using hread
          by_cases hhash : ref.hash = old.hash
          · -- the text is written over what is there
            have hw₁ : d₁.root.Writable path := by
              rcases hcases with ⟨rfl, -⟩ | ⟨-, -, hc⟩
              · exact hw
              · exact FileTree.writable_of_fileAt d₁.wf (by rw [hc.fileAt, if_pos rfl])
            obtain ⟨d₂, hcreate, hc⟩ := create_of_writable hw₁ (refContent r)
            simp only [hhash, not_true_eq_false, ne_eq, if_false, if_true, hcreate, Except.ok.injEq,
              exists_eq_left', Ref_of_written hpath hc]
          · simpa only [hhash, not_false_eq_true, ne_eq, if_false, if_true] using hkeeps
    · obtain ⟨e, hopen⟩ := openFile_of_not_writable hw
      rw [setRefRwfs, hopen]
      refine iff_of_true (.refl d) fun p hp hwp => ?_
      cases hp
      exact absurd hwp hw

def refTo (name digits : String) : Reference := ⟨textBytes name, .hash (.fromHex (textBytes digits))⟩

def symRefTo (name target : String) : Reference := ⟨textBytes name, .symbolic (textBytes target)⟩

theorem SetRef_atomic_branch :
    Atomic (sampleDir "ref: refs/heads/a\n") (refTo "refs/heads/a" "2222222222222222222222222222222222222222")
      (refTo "refs/heads/a" "1111111111111111111111111111111111111111") := by
  set r := refTo "refs/heads/a" "2222222222222222222222222222222222222222" with hr
  set old := refTo "refs/heads/a" "1111111111111111111111111111111111111111" with hold
  refine (SetRef_atomic_iff _ r old rfl).mpr fun path _ _ => ?_
  have hread : (sampleDir "ref: refs/heads/a\n").Ref r.name = .ok old := by decide +kernel
  have hproper : (ObjectID.fromHex (textBytes "2222222222222222222222222222222222222222")).Proper := by
    decide +kernel
  rw [hread]
  dsimp only
  rw [if_pos rfl]
  exact ⟨rfl, hproper⟩

theorem SetRef_not_atomic :
    (¬ Atomic (sampleDir "ref: refs/heads/a\n") (symRefTo "HEAD" "refs/heads/c") (symRefTo "HEAD" "refs/heads/b")) ∧
    ¬ Atomic (sampleDir "ref: refs/heads/a\n") (refTo "refs/heads/b" "2222222222222222222222222222222222222222")
      (refTo "refs/heads/b" "1111111111111111111111111111111111111111") := by
  have hhead : (sampleDir "ref: refs/heads/a\n").Ref (textBytes "HEAD") = .ok (symRefTo "HEAD" "refs/heads/a") := by
    decide +kernel
  exact ⟨not_atomic_of_ok (by decide +kernel) hhead (by decide),
    not_atomic_of_error (e := .referenceNotFound) (by decide +kernel) (by decide +kernel)⟩

end Atomic

end GoGit.DotGit
