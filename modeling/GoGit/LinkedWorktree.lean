import GoGit.RemoveRef

/-! `RepositoryFilesystem`: the directory of a worktree over the common directory of its repository. Every operation
takes one of the two by a path, a rename by the old one. The temporary file that becomes the file of packed references
is made in the directory of the worktree, and the packed references are read from the common directory. -/
namespace GoGit

open List

open SlashPath (Component)

structure RepositoryFilesystem where
  dotGitFs : DotGit
  commonDotGitFs : DotGit

namespace RepositoryFilesystem

open DotGit (packedRefsPath refsPath)

/-- The paths that are not in the common directory. -/
def exceptions : List (List Bytes) :=
  [["logs", "HEAD"], ["refs", "bisect"], ["refs", "rewritten"], ["refs", "worktree"]].map (·.map textBytes)

def commonNames : List Bytes :=
  ["objects", "refs", "packed-refs", "config", "branches", "hooks", "info", "remotes", "logs", "shallow",
    "worktrees"].map textBytes

/-- `mapToRepositoryFsByPath` takes the common directory. -/
def IsCommon (path : List Component) : Bool :=
  path.map Component.name ∉ exceptions && path.head?.any (·.name ∈ commonNames)

section Operations

variable (fs : RepositoryFilesystem)

def mapTo (path : List Component) : DotGit := if IsCommon path then fs.commonDotGitFs else fs.dotGitFs

def update (path : List Component) (d : DotGit) : RepositoryFilesystem :=
  if IsCommon path then { fs with commonDotGitFs := d } else { fs with dotGitFs := d }

def fileAt (path : List Component) : Option Bytes := (fs.mapTo path).root.fileAt path

def Remove (path : List Component) : Except DotGitError RepositoryFilesystem :=
  ((fs.mapTo path).remove path).map (fs.update path)

/-- `Rename` of a file. The directories of the new path are made. -/
def Rename (oldpath newpath : List Component) : Except DotGitError RepositoryFilesystem :=
  match fs.fileAt oldpath with
  | none => .error .notExist
  | some content =>
    if oldpath = newpath then .ok fs
    else if h : FileTree.Writable newpath (fs.mapTo oldpath).root then
      .ok (fs.update oldpath ⟨((fs.mapTo oldpath).root.set newpath content).remove oldpath,
        ((fs.mapTo oldpath).wf.set h content).remove oldpath⟩)
    else .error .notDir

def readReferenceFile (name : ReferenceName) : Except DotGitError Reference :=
  match SlashPath.path name with
  | none => .error .crossedBoundary
  | some path => (fs.mapTo path).readReferenceFile name

def Ref (name : ReferenceName) : Except DotGitError Reference :=
  match fs.readReferenceFile name with
  | .ok ref => .ok ref
  | .error _ => (fs.mapTo [packedRefsPath]).packedRef name

/-- A file that a directory lists. It may be in the other one, and then it is taken for one that is gone. -/
def addRefFile (refs : List Reference) (path : List Component) : Except DotGitError (List Reference) :=
  match fs.readReferenceFile (SlashPath.text path) with
  | .ok ref => .ok (DotGit.addRef refs ref)
  | .error .notExist => .ok refs
  | .error e => .error e

def entries : FileTree Component Bytes → List (Component × Bool)
  | .empty => []
  | .file name _ rest => (name, false) :: entries rest
  | .dir name _ rest => (name, true) :: entries rest

def depth : FileTree Component Bytes → ℕ
  | .empty => 0
  | .file _ _ rest => depth rest
  | .dir _ sub rest => max (depth sub + 1) (depth rest)

/-- The walk with a bound on its depth. Each directory is listed where its path is taken to. -/
def walkReferencesTree : ℕ → List Reference → List Component → Except DotGitError (List Reference)
  | 0, _, _ => .error .notDir
  | n + 1, refs, relPath =>
    match (fs.mapTo relPath).root.dirAt relPath with
    | none => if fs.fileAt relPath = none then .ok refs else .error .notDir
    | some files => (entries files).foldlM (fun refs f =>
        if f.2 then walkReferencesTree n refs (relPath ++ [f.1]) else fs.addRefFile refs (relPath ++ [f.1])) refs

def addRefsFromRefDir : Except DotGitError (List Reference) :=
  fs.walkReferencesTree (depth fs.dotGitFs.root + depth fs.commonDotGitFs.root + 1) [] [refsPath]

def openAndLockPackedRefs : Except DotGitError (RepositoryFilesystem × Bytes) :=
  (fs.mapTo [packedRefsPath]).openAndLockPackedRefs.map fun (d, text) => (fs.update [packedRefsPath] d, text)

/-- `TempFile` without a directory, and `rewritePackedRefsWhileLocked` by a rename of that file. -/
def rewritePackedRefs (content : Bytes) : Except DotGitError RepositoryFilesystem :=
  ((fs.mapTo []).write packedRefsPath content).map (fs.update [])

def removeLoose (r : Reference) : Except DotGitError RepositoryFilesystem :=
  match SlashPath.path r.name with
  | none => .error .crossedBoundary
  | some path =>
    match fs.Remove path with
    | .error .notExist => .ok fs
    | result => result

def packInto (loose : List Reference) (text : Bytes) : Except DotGitError RepositoryFilesystem := do
  let refs ← DotGit.findPackedRefsInFile DotGit.refsRecvFunc (DotGit.scanLines text).2 loose (DotGit.scanLines text).1
  let fs ← fs.rewritePackedRefs (Lines.join 0x0a (refs.map Reference.string))
  (refs.take loose.length).foldlM removeLoose fs

def PackRefs : Except DotGitError RepositoryFilesystem := do
  let (fs, text) ← fs.openAndLockPackedRefs
  let loose ← fs.addRefsFromRefDir
  if loose = [] then .ok fs else fs.packInto loose text

def rewritePackedRefsWithoutRef (name : ReferenceName) : Except DotGitError RepositoryFilesystem := do
  match ← (fs.mapTo [packedRefsPath]).openPackedRefs with
  | none => .ok fs
  | some text =>
    let (kept, found) ← DotGit.linesWithoutRef name (DotGit.scanLines text).1
    if (DotGit.scanLines text).2 then .error .tooLong
    else if found then fs.rewritePackedRefs (Lines.join 0x0a kept) else .ok fs

def RemoveRef (name : ReferenceName) : Except DotGitError RepositoryFilesystem :=
  match SlashPath.path name with
  | none => .error .crossedBoundary
  | some path =>
    match fs.Remove path with
    | .ok fs => fs.rewritePackedRefsWithoutRef name
    | .error .notExist => fs.rewritePackedRefsWithoutRef name
    | .error e => .error e

end Operations

section Files

variable {fs fs' : RepositoryFilesystem} {path oldpath newpath : List Component} {content : Bytes}

lemma mapTo_congr (h : IsCommon newpath = IsCommon oldpath) : fs.mapTo newpath = fs.mapTo oldpath := by
  rw [mapTo, mapTo, h]

lemma fileAt_update (path : List Component) (d : DotGit) (q : List Component) :
    (fs.update path d).fileAt q = if IsCommon q = IsCommon path then d.root.fileAt q else fs.fileAt q := by
  rw [update, fileAt, fileAt, mapTo, mapTo]
  cases IsCommon q <;> cases IsCommon path <;> rfl

lemma fileAt_Rename (hc : fs.fileAt oldpath = some content) (h : fs.Rename oldpath newpath = .ok fs') :
    fs'.fileAt newpath = some content ↔ IsCommon oldpath = IsCommon newpath ∨ fs.fileAt newpath = some content := by
  rw [Rename, hc] at h
  dsimp only at h
  split_ifs at h with heq hw
  · cases h
    simp [← heq, hc]
  · cases h
    rw [fileAt_update]
    split_ifs with hside
    · have hset := FileTree.fileAt_set (fs.mapTo oldpath).wf hw content
      have hold : ((fs.mapTo oldpath).root.set newpath content).fileAt oldpath = some content := by
        rw [hset, if_neg heq]
        exact hc
      rw [FileTree.fileAt_remove ((fs.mapTo oldpath).wf.set hw content), if_neg (Ne.symm heq), hset, if_pos rfl]
      · simp [hside]
      · intro d hd
        rw [FileTree.dirAt_eq_none_of_fileAt ((fs.mapTo oldpath).wf.set hw content) hold] at hd
        cases hd
    · simp [Ne.symm hside]

end Files

variable {r : Reference} {text : Bytes}

section Reading

variable {fs fs' fs'' : RepositoryFilesystem} {gone gone' : List (List Component)} {n : ReferenceName}

def content (fs : RepositoryFilesystem) (path : List Component) : Option Bytes := (fs.fileAt path).filter (· ≠ [])

def packedRef (fs : RepositoryFilesystem) (name : ReferenceName) : Except DotGitError Reference :=
  (fs.mapTo [packedRefsPath]).packedRef name

lemma Ref_text (p : List Component) : fs.Ref (SlashPath.text p) = (fs.content p).elim (fs.packedRef (SlashPath.text p))
    fun c => .ok (.newReferenceFromStrings (SlashPath.text p) (Trim.trimSpace c)) := by
  rw [Ref, readReferenceFile, SlashPath.path_text, content, fileAt]
  dsimp only
  rw [DotGit.readReferenceFile, SlashPath.path_text]
  dsimp only
  cases (fs.mapTo p).root.fileAt p with
  | none => rfl
  | some c => cases c <;> rfl

structure Loses (fs fs' : RepositoryFilesystem) (gone : List (List Component)) : Prop where
  content : ∀ q, fs'.content q = if q ∈ gone then none else fs.content q
  packed : ∀ n, fs'.packedRef n = fs.packedRef n

lemma Loses.trans (h : Loses fs fs' gone) (h' : Loses fs' fs'' gone') : Loses fs fs'' (gone ++ gone') := by
  refine ⟨fun q => ?_, fun n => (h'.packed n).trans (h.packed n)⟩
  rw [h'.content, h.content]
  by_cases hg : q ∈ gone <;> by_cases hg' : q ∈ gone' <;> simp [hg, hg']

lemma Loses.refl : Loses fs fs [] := ⟨fun q => by simp, fun _ => rfl⟩

lemma packedRef_eq (fs : RepositoryFilesystem) (n : ReferenceName) : fs.packedRef n = fs.commonDotGitFs.packedRef n := rfl

lemma packedRef_congr {d d' : DotGit} (h : d'.openPackedRefs = d.openPackedRefs) : d'.packedRef n = d.packedRef n := by
  rw [DotGit.packedRef, DotGit.packedRef, DotGit.findPackedRefs, DotGit.findPackedRefs, h]

variable {path : List Component}

lemma loses_Remove (hpath : path ≠ [packedRefsPath]) (h : fs.Remove path = .ok fs') : Loses fs fs' [path] := by
  obtain ⟨d, hremove, rfl⟩ := map_eq_ok_iff.mp h
  have hfiles := DotGit.fileAt_remove hremove
  refine ⟨fun q => ?_, fun n => ?_⟩
  · simp only [content, fileAt_update, mem_singleton]
    by_cases hside : IsCommon q = IsCommon path
    · rw [if_pos hside, hfiles, fileAt, mapTo_congr hside]
      split_ifs <;> rfl
    · have hq : q ≠ path := by
        rintro rfl
        exact hside rfl
      rw [if_neg hside, if_neg hq]
  · rw [packedRef_eq, packedRef_eq, update]
    rw [mapTo] at hremove hfiles
    split_ifs at hremove hfiles ⊢
    · apply packedRef_congr
      rw [DotGit.openPackedRefs, DotGit.openPackedRefs, hfiles, if_neg (Ne.symm hpath)]
      cases (fs.commonDotGitFs).root.fileAt [packedRefsPath] with
      | some text => rfl
      | none => exact if_congr (DotGit.dirAt_remove_eq_none_iff hremove hpath) rfl rfl
    · rfl

lemma loses_Remove_notExist (h : fs.Remove path = .error .notExist) : Loses fs fs [path] := by
  have hfile := DotGit.fileAt_remove_notExist (map_eq_error_iff.mp h) path
  rw [if_pos rfl] at hfile
  refine ⟨fun q => ?_, fun _ => rfl⟩
  simp only [mem_singleton]
  split_ifs with hq
  · rw [hq, content, fileAt, hfile]
    rfl
  · rfl

lemma loses_removeLoose (hpath : SlashPath.path r.name = some path)
    (hne : path ≠ [packedRefsPath]) (h : fs.removeLoose r = .ok fs') : Loses fs fs' [path] := by
  rw [removeLoose, hpath] at h
  dsimp only at h
  split at h
  · rename_i hremove
    cases h
    exact loses_Remove_notExist hremove
  · exact loses_Remove hne h

lemma loses_foldlM_removeLoose {refs : List Reference} (hname : ∀ r ∈ refs, DotGit.IsName r.name)
    (h : refs.foldlM removeLoose fs = .ok fs') : Loses fs fs' (refs.filterMap (SlashPath.path ·.name)) := by
  induction refs generalizing fs with
  | nil =>
    cases h
    exact .refl
  | cons r refs ih =>
    rw [foldlM_cons, bind_eq_ok_iff] at h
    obtain ⟨fs₁, hfirst, hrest⟩ := h
    obtain ⟨p, hne, hp⟩ := hname r mem_cons_self
    have hpath : SlashPath.path r.name = some p := by rw [hp, SlashPath.path_text]
    have hrefs := ih (fun r hr => hname r (mem_cons_of_mem _ hr)) hrest
    simpa [hpath] using (loses_removeLoose hpath hne hfirst).trans hrefs

lemma loses_rewritePackedRefs (h : fs.rewritePackedRefs text = .ok fs') : Loses fs fs' [] := by
  obtain ⟨d, hwrite, rfl⟩ := map_eq_ok_iff.mp h
  refine ⟨fun q => ?_, fun _ => rfl⟩
  simp only [content, fileAt_update, not_mem_nil, if_false]
  -- the file that is written is in the directory where none of that name is read
  split_ifs with hside
  · have hq : q ≠ [packedRefsPath] := by
      rintro rfl
      exact absurd hside (by decide)
    rw [DotGit.fileAt_write hwrite, if_neg hq, fileAt, mapTo_congr hside]
  · rfl

lemma loses_openAndLockPackedRefs (h : fs.openAndLockPackedRefs = .ok (fs', text)) : Loses fs fs' [] := by
  obtain ⟨⟨d, text'⟩, hopen, heq⟩ := map_eq_ok_iff.mp h
  cases heq
  rw [DotGit.openAndLockPackedRefs] at hopen
  cases hfile : (fs.mapTo [packedRefsPath]).root.fileAt [packedRefsPath] with
  | some text' =>
    rw [hfile] at hopen
    cases hopen
    exact .refl
  | none =>
    rw [hfile] at hopen
    obtain ⟨d', hwrite, heq⟩ := map_eq_ok_iff.mp hopen
    cases heq
    have hfiles := DotGit.fileAt_write hwrite
    refine ⟨fun q => ?_, fun n => ?_⟩
    · simp only [content, fileAt_update, not_mem_nil, if_false]
      split_ifs with hside
      · rw [hfiles, fileAt, mapTo_congr hside]
        split_ifs with hq
        · rw [hq, hfile]
          rfl
        · rfl
      · rfl
    · -- an empty file has no references, as when there is none
      have hdir : (fs.mapTo [packedRefsPath]).root.dirAt [packedRefsPath] = none := by
        by_contra hdir
        rw [DotGit.write, dif_neg hdir] at hwrite
        cases hwrite
      have hbefore : (fs.mapTo [packedRefsPath]).openPackedRefs = .ok none := by
        rw [DotGit.openPackedRefs, hfile]
        exact if_pos hdir
      have hafter : d.openPackedRefs = .ok (some []) := by
        rw [DotGit.openPackedRefs, hfiles, if_pos rfl]
      change d.packedRef n = (fs.mapTo [packedRefsPath]).packedRef n
      rw [DotGit.packedRef, DotGit.packedRef, DotGit.findPackedRefs, DotGit.findPackedRefs, hbefore, hafter]
      rfl

lemma Loses.Ref (h : Loses fs fs' gone) (p : List Component) : fs'.Ref (SlashPath.text p) =
    if p ∈ gone then fs.packedRef (SlashPath.text p) else fs.Ref (SlashPath.text p) := by
  rw [Ref_text, Ref_text, h.content, h.packed]
  split_ifs <;> rfl

end Reading

section Packing

variable {fs fs' : RepositoryFilesystem} {loose : List Reference}
  {p : List Component}

/-- A reference under a name of its own that is read from its file. -/
def IsLoose (fs : RepositoryFilesystem) (r : Reference) : Prop :=
  DotGit.IsName r.name ∧ fs.readReferenceFile r.name = .ok r

lemma IsLoose.Ref (h : fs.IsLoose r) : fs.Ref r.name = .ok r := by
  rw [RepositoryFilesystem.Ref, h.2]

lemma isLoose_of_readReferenceFile (hp : p ≠ [packedRefsPath])
    (h : fs.readReferenceFile (SlashPath.text p) = .ok r) : fs.IsLoose r := by
  have hname : r.name = SlashPath.text p := by
    rw [readReferenceFile, SlashPath.path_text] at h
    dsimp only at h
    rw [DotGit.readReferenceFile, SlashPath.path_text] at h
    dsimp only at h
    split at h
    · rw [DotGit.readReferenceFrom] at h
      split_ifs at h
      rw [← Except.ok.inj h, Reference.newReferenceFromStrings]
      split_ifs <;> rfl
    · cases h
  exact ⟨⟨p, hp, hname⟩, hname ▸ h⟩

variable {refs l : List Reference}

lemma isLoose_addRefFile (hp : p ≠ [packedRefsPath])
    (hrefs : ∀ r ∈ refs, fs.IsLoose r) (h : fs.addRefFile refs p = .ok l) : ∀ r ∈ l, fs.IsLoose r := by
  rw [addRefFile] at h
  split at h
  · rename_i ref hread
    rw [← Except.ok.inj h, DotGit.addRef]
    split_ifs
    · exact hrefs
    · intro r hr
      rcases mem_append.mp hr with hr | hr
      · exact hrefs r hr
      · obtain rfl := mem_singleton.mp hr
        exact isLoose_of_readReferenceFile hp hread
  · rw [← Except.ok.inj h]
    exact hrefs
  · cases h

lemma foldlM_inv {ε σ α : Type} {P : σ → Prop} {f : σ → α → Except ε σ} (hstep : ∀ s a s', P s → f s a = .ok s' → P s')
    {l : List α} {s s' : σ} (hs : P s) (h : l.foldlM f s = .ok s') : P s' := by
  induction l generalizing s with
  | nil => exact Except.ok.inj h ▸ hs
  | cons a l ih =>
    rw [foldlM_cons, bind_eq_ok_iff] at h
    obtain ⟨s₁, hfirst, hrest⟩ := h
    exact ih (hstep s a s₁ hs hfirst) hrest

lemma isLoose_walkReferencesTree {k : ℕ}
    (hrefs : ∀ r ∈ refs, fs.IsLoose r) (h : fs.walkReferencesTree k refs (refsPath :: p) = .ok l) :
    ∀ r ∈ l, fs.IsLoose r := by
  induction k generalizing refs l p with
  | zero => cases h
  | succ k ih =>
    rw [walkReferencesTree] at h
    split at h
    · split_ifs at h
      rw [← Except.ok.inj h]
      exact hrefs
    · refine foldlM_inv (P := fun l : List Reference => ∀ r ∈ l, fs.IsLoose r) (fun s f s' hs hf => ?_) hrefs h
      have hne : refsPath :: (p ++ [f.1]) ≠ [packedRefsPath] := fun heq => absurd (List.cons.inj heq).1 (by decide)
      split_ifs at hf
      · exact ih hs hf
      · exact isLoose_addRefFile hne hs hf

/-- The loose references that packing gathers, once the file of packed references is there. -/
def gathered (fs : RepositoryFilesystem) : Except DotGitError (List Reference) := do
  let (fs, _) ← fs.openAndLockPackedRefs
  fs.addRefsFromRefDir

lemma loses_packInto (hloose : ∀ r ∈ loose, DotGit.IsName r.name) (h : fs.packInto loose text = .ok fs') :
    Loses fs fs' (loose.filterMap (SlashPath.path ·.name)) := by
  rw [packInto, bind_eq_ok_iff] at h
  obtain ⟨refs, hrefs, h⟩ := h
  obtain ⟨fs₁, hwrite, hfold⟩ := bind_eq_ok_iff.mp h
  obtain ⟨found, -, -, rfl⟩ := DotGit.findPackedRefsInFile_ok_iff.mp hrefs
  rw [prefix_iff_eq_take.mp (DotGit.isPrefix_foldl_addRef loose found) |>.symm] at hfold
  exact (loses_rewritePackedRefs hwrite).trans (loses_foldlM_removeLoose hloose hfold)

lemma PackRefs_spec (h : fs.PackRefs = .ok fs') : ∃ loose, fs.gathered = .ok loose ∧
    (∀ r ∈ loose, DotGit.IsName r.name ∧ fs.Ref r.name = .ok r) ∧ Loses fs fs' (loose.filterMap (SlashPath.path ·.name)) := by
  rw [PackRefs, bind_eq_ok_iff] at h
  obtain ⟨⟨fs₁, text⟩, hopen, h⟩ := h
  obtain ⟨loose, hloose, h⟩ := bind_eq_ok_iff.mp h
  have hfirst := loses_openAndLockPackedRefs hopen
  have hread : ∀ r ∈ loose, fs₁.IsLoose r := isLoose_walkReferencesTree (by simp) hloose
  refine ⟨loose, bind_eq_ok_iff.mpr ⟨_, hopen, hloose⟩, fun r hr => ⟨(hread r hr).1, ?_⟩, ?_⟩
  · obtain ⟨p, -, hp⟩ := (hread r hr).1
    have href := (hread r hr).Ref
    rw [hp] at href ⊢
    rw [← href, hfirst.Ref, if_neg not_mem_nil]
  · split_ifs at h with hnil
    · rw [hnil, ← Except.ok.inj h]
      exact hfirst
    · exact hfirst.trans (loses_packInto (fun r hr => (hread r hr).1) h)

lemma PackRefs_keeps_iff (h : fs.PackRefs = .ok fs') :
    (∀ n r, DotGit.IsName n → fs.Ref n = .ok r → fs'.Ref n = .ok r) ↔
      ∀ loose, fs.gathered = .ok loose → ∀ r ∈ loose, fs.packedRef r.name = .ok r := by
  obtain ⟨loose, hgathered, hread, hloses⟩ := PackRefs_spec h
  have hgone : ∀ r ∈ loose, fs'.Ref r.name = fs.packedRef r.name := by
    intro r hr
    obtain ⟨⟨p, -, hp⟩, -⟩ := hread r hr
    rw [hp, hloses.Ref, if_pos]
    exact mem_filterMap.mpr ⟨r, hr, by rw [hp, SlashPath.path_text]⟩
  constructor
  · intro hkept loose' hgathered' r hr
    rw [hgathered] at hgathered'
    rw [← Except.ok.inj hgathered'] at hr
    rw [← hgone r hr]
    exact hkept _ r (hread r hr).1 (hread r hr).2
  · rintro hpacked _ r ⟨p, -, rfl⟩ href
    rw [hloses.Ref]
    split_ifs with hp
    · obtain ⟨r₀, hr₀, hpath⟩ := mem_filterMap.mp hp
      obtain ⟨⟨p₀, -, hp₀⟩, href₀⟩ := hread r₀ hr₀
      rw [hp₀, SlashPath.path_text] at hpath
      rw [← Option.some.inj hpath, ← hp₀, hpacked loose hgathered r₀ hr₀, ← href₀, hp₀, Option.some.inj hpath, href]
    · exact href

end Packing

section Removing

variable {fs fs' : RepositoryFilesystem} {name : ReferenceName}

lemma loses_rewritePackedRefsWithoutRef (h : fs.rewritePackedRefsWithoutRef name = .ok fs') : Loses fs fs' [] := by
  rw [rewritePackedRefsWithoutRef, bind_eq_ok_iff] at h
  obtain ⟨text, -, h⟩ := h
  cases text with
  | none =>
    rw [← Except.ok.inj h]
    exact .refl
  | some text =>
    obtain ⟨⟨kept, found⟩, -, h⟩ := bind_eq_ok_iff.mp h
    dsimp only at h
    split_ifs at h
    · exact loses_rewritePackedRefs h
    · rw [← Except.ok.inj h]
      exact .refl

lemma loses_RemoveRef {p : List Component} (hp : p ≠ [packedRefsPath]) (h : fs.RemoveRef (SlashPath.text p) = .ok fs') :
    Loses fs fs' [p] := by
  rw [RemoveRef, SlashPath.path_text] at h
  dsimp only at h
  split at h
  · rename_i fs₁ hremove
    exact (loses_Remove hp hremove).trans (loses_rewritePackedRefsWithoutRef h)
  · rename_i hremove
    exact (loses_Remove_notExist hremove).trans (loses_rewritePackedRefsWithoutRef h)
  · cases h

end Removing

/-- A rename is read back if both paths are taken to one directory, packing keeps the references that were packed before,
and the removal of a reference keeps the others. -/
theorem behaves_as_one_iff (fs : RepositoryFilesystem) :
    (∀ a b content fs', fs.fileAt a = some content → fs.Rename a b = .ok fs' →
      (fs'.fileAt b = some content ↔ IsCommon a = IsCommon b ∨ fs.fileAt b = some content)) ∧
    (∀ fs', fs.PackRefs = .ok fs' → ((∀ n r, DotGit.IsName n → fs.Ref n = .ok r → fs'.Ref n = .ok r) ↔
      ∀ loose, fs.gathered = .ok loose → ∀ r ∈ loose, fs.packedRef r.name = .ok r)) ∧
    ∀ name fs', DotGit.IsName name → fs.RemoveRef name = .ok fs' →
      ∀ n, DotGit.IsName n → n ≠ name → fs'.Ref n = fs.Ref n := by
  refine ⟨fun a b content fs' => fileAt_Rename, fun fs' => PackRefs_keeps_iff, ?_⟩
  rintro _ fs' ⟨p, hp, rfl⟩ hremove _ ⟨q, -, rfl⟩ hne
  rw [(loses_RemoveRef hp hremove).Ref, if_neg]
  intro hq
  exact hne (congrArg SlashPath.text (mem_singleton.mp hq))

/-- A worktree beside a repository with a branch that has moved since it was packed. -/
def sampleWorktree : RepositoryFilesystem where
  dotGitFs := ⟨.file DotGit.headName (textBytes "ref: refs/heads/a\n") .empty, by decide +kernel⟩
  commonDotGitFs := DotGit.sampleDir "5555555555555555555555555555555555555555\n"

theorem not_behaves_as_one : ∃ fs : RepositoryFilesystem,
    (∃ a b content, fs.fileAt a = some content ∧ ∃ fs', fs.Rename a b = .ok fs' ∧ fs'.fileAt b ≠ some content) ∧
    ∃ n r, fs.Ref n = .ok r ∧ ∃ fs', fs.PackRefs = .ok fs' ∧ fs'.Ref n ≠ .ok r := by
  refine ⟨sampleWorktree, ⟨[DotGit.headName], [packedRefsPath], _, rfl, exists_ok ?_⟩,
    textBytes "refs/heads/a", _, rfl, exists_ok ?_⟩
  · decide +kernel
  · decide +kernel

end RepositoryFilesystem

end GoGit
