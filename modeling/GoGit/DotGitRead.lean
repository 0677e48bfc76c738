import GoGit.DotGit

namespace GoGit.DotGit

open List

open SlashPath (Component)

section Lists

variable {refs l : List Reference} {r : Reference} {n : ReferenceName}

def named (n : ReferenceName) (refs : List Reference) : Option Reference := refs.find? (·.name = n)

lemma named_append (n : ReferenceName) (a b : List Reference) :
    named n (a ++ b) = (named n a).or (named n b) := find?_append

lemma named_addRef (n : ReferenceName) (refs : List Reference) (r : Reference) :
    named n (addRef refs r) = named n (refs ++ [r]) := by
  rw [addRef]
  split_ifs with hmem
  · rw [named_append]
    obtain ⟨s, hs, hname⟩ := mem_map.mp hmem
    by_cases hr : r.name = n
    · have hsome : (named n refs).isSome := by
        rw [named, find?_isSome]
        exact ⟨s, hs, by simp [hname, hr]⟩
      rw [Option.or_of_isSome hsome]
    · simp [named, hr]
  · rfl

lemma named_foldl_addRef (n : ReferenceName) (refs l : List Reference) :
    named n (l.foldl addRef refs) = named n (refs ++ l) := by
  induction l generalizing refs with
  | nil => simp
  | cons r l ih =>
    rw [foldl_cons, ih, named_append, named_addRef, ← named_append, append_assoc, singleton_append]

lemma foldl_addRef_sublist (refs l : List Reference) : (l.foldl addRef refs).Sublist (refs ++ l) := by
  induction l generalizing refs with
  | nil => simp
  | cons r l ih =>
    refine (ih (addRef refs r)).trans ?_
    rw [addRef]
    split_ifs
    · exact List.Sublist.append_left (sublist_cons_self r l) refs
    · simp

lemma isPrefix_foldl_addRef (refs l : List Reference) : refs <+: l.foldl addRef refs := by
  induction l generalizing refs with
  | nil => exact prefix_rfl
  | cons r l ih =>
    refine List.IsPrefix.trans ?_ (ih (addRef refs r))
    rw [addRef]
    split_ifs
    · exact prefix_rfl
    · exact prefix_append refs [r]

lemma nodup_foldl_addRef (h : (refs.map Reference.name).Nodup) (l : List Reference) :
    ((l.foldl addRef refs).map Reference.name).Nodup := by
  induction l generalizing refs with
  | nil => exact h
  | cons r l ih =>
    refine ih ?_
    rw [addRef]
    split_ifs with hmem
    · exact h
    · rw [map_append, nodup_append]
      refine ⟨h, by simp, fun a ha b hb => ?_⟩
      rw [mem_singleton.mp hb]
      exact fun heq => hmem (heq ▸ ha)

lemma foldl_addRef_of_nodup (h : ((refs ++ l).map Reference.name).Nodup) : l.foldl addRef refs = refs ++ l := by
  induction l generalizing refs with
  | nil => simp
  | cons r l ih =>
    have hnot : r.name ∉ refs.map Reference.name := by
      intro hmem
      rw [map_append, nodup_append] at h
      exact h.2.2 _ hmem _ (by simp) rfl
    rw [foldl_cons, addRef, if_neg hnot, ih (by simpa using h), append_assoc, singleton_append]

lemma named_of_unique (hmem : r ∈ refs) (h : ∀ s ∈ refs, s.name = r.name → s = r) : named r.name refs = some r := by
  cases hfind : named r.name refs with
  | none => exact absurd (find?_eq_none.mp hfind r hmem) (by simp)
  | some s =>
    have hname := find?_some hfind
    rw [h s (mem_of_find?_eq_some hfind) (by simpa using hname)]

end Lists

section Packed

variable {lines : List Bytes} {long : Bool} {refs l : List Reference} {n : ReferenceName} {d : DotGit}

def processLines : List Bytes → Except DotGitError (List Reference)
  | [] => .ok []
  | line :: lines => do
    let ref ← processLine line
    let refs ← processLines lines
    return ref.toList ++ refs

lemma processLines_cons_ok {line : Bytes} (h : processLines (line :: lines) = .ok l) :
    ∃ ref refs, processLine line = .ok ref ∧ processLines lines = .ok refs ∧ l = ref.toList ++ refs := by
  obtain ⟨ref, href, h⟩ := bind_eq_ok_iff.mp h
  obtain ⟨refs, hrefs, h⟩ := bind_eq_ok_iff.mp h
  exact ⟨ref, refs, href, hrefs, (Except.ok.inj h).symm⟩

lemma findPackedRefsInFile_ok_iff : findPackedRefsInFile refsRecvFunc long refs lines = .ok l ↔
    ∃ found, processLines lines = .ok found ∧ long = false ∧ l = found.foldl addRef refs := by
  induction lines generalizing refs with
  | nil =>
    cases long with
    | true => simp [findPackedRefsInFile]
    | false => simp [findPackedRefsInFile, processLines, eq_comm]
  | cons line lines ih =>
    rw [findPackedRefsInFile, processLines]
    cases hline : processLine line with
    | error e => simp
    | ok ref =>
      simp only [refsRecvFunc]
      rw [ih]
      cases hlines : processLines lines with
      | error e => simp
      | ok found => cases ref <;> simp

lemma findPackedRefsInFile_named (h : processLines lines = .ok l) :
    findPackedRefsInFile (recvNamed n) false none lines = .ok (named n l) := by
  induction lines generalizing l with
  | nil =>
    cases h
    rfl
  | cons line lines ih =>
    obtain ⟨ref, refs, hline, hlines, rfl⟩ := processLines_cons_ok h
    rw [findPackedRefsInFile, hline]
    dsimp only
    rw [recvNamed]
    cases ref with
    | none => simpa using ih hlines
    | some r =>
      by_cases hr : r.name = n
      · simp [hr, named]
      · have hskip : named n ([r] ++ refs) = named n refs := by simp [named, hr]
        rw [Option.toList_some, hskip, ← ih hlines]
        simp [hr]

inductive Packed (d : DotGit) : List Reference → Prop
  | absent (h : d.openPackedRefs = .ok none) : Packed d []
  | lines {text : Bytes} {l : List Reference} (h : d.openPackedRefs = .ok (some text))
      (hlines : processLines (scanLines text).1 = .ok l) (hlong : (scanLines text).2 = false) : Packed d l

lemma findPackedRefs_ok_iff : d.findPackedRefs refsRecvFunc refs = .ok l ↔
    ∃ found, Packed d found ∧ l = found.foldl addRef refs := by
  rw [findPackedRefs]
  constructor
  · intro h
    cases hopen : d.openPackedRefs with
    | error e => simp [hopen] at h
    | ok text =>
      cases text with
      | none =>
        rw [hopen] at h
        exact ⟨[], .absent hopen, (Except.ok.inj h).symm⟩
      | some text =>
        rw [hopen] at h
        obtain ⟨found, hlines, hlong, heq⟩ := findPackedRefsInFile_ok_iff.mp h
        exact ⟨found, .lines hopen hlines hlong, heq⟩
  · rintro ⟨found, hpacked, rfl⟩
    cases hpacked with
    | absent h => simp [h]
    | lines h hlines hlong =>
      rw [h]
      exact findPackedRefsInFile_ok_iff.mpr ⟨found, hlines, hlong, rfl⟩

lemma Packed.packedRef (h : Packed d l) (n : ReferenceName) :
    d.packedRef n = (named n l).elim (.error .referenceNotFound) .ok := by
  have hfind : d.findPackedRefs (recvNamed n) none = .ok (named n l) := by
    rw [findPackedRefs]
    cases h with
    | absent h =>
      rw [h]
      rfl
    | lines h hlines hlong =>
      rw [h]
      dsimp only
      rw [hlong, findPackedRefsInFile_named hlines]
  rw [DotGit.packedRef, hfind]
  rfl

end Packed

section Loose

variable {d : DotGit} {refs l : List Reference}

/-- The files of the loose references, with their paths below the directory of references. -/
def looseFiles (d : DotGit) : List (List Component × Bytes) :=
  ((d.root.dirAt [refsPath]).map FileTree.files).getD []

def looseRef (relPath : List Component) (f : List Component × Bytes) : Reference :=
  .newReferenceFromStrings (SlashPath.text (relPath ++ f.1)) (Trim.trimSpace f.2)

lemma name_looseRef (relPath : List Component) (f : List Component × Bytes) :
    (looseRef relPath f).name = SlashPath.text (relPath ++ f.1) := by
  rw [looseRef, Reference.newReferenceFromStrings]
  split_ifs <;> rfl

lemma mem_looseFiles_iff {path : List Component} {content : Bytes} :
    (path, content) ∈ d.looseFiles ↔ path ≠ [] ∧ d.root.fileAt (refsPath :: path) = some content := by
  rw [looseFiles]
  by_cases hpath : path = []
  · cases hdir : d.root.dirAt [refsPath] with
    | none => simp [hpath]
    | some sub => simp [hpath, FileTree.mem_files_iff (d.wf.dirAt hdir)]
  · rw [FileTree.fileAt_cons d.wf _ _ hpath]
    cases hdir : d.root.dirAt [refsPath] with
    | none => simp
    | some sub => simp [hpath, FileTree.mem_files_iff (d.wf.dirAt hdir)]

lemma walkReferencesTree_ok_iff {t : FileTree Component Bytes} {relPath : List Component} :
    walkReferencesTree refs relPath t = .ok l ↔
      (∀ f ∈ t.files, f.2 ≠ []) ∧ l = (t.files.map (looseRef relPath)).foldl addRef refs := by
  induction t generalizing refs relPath l with
  | empty => simp [walkReferencesTree, FileTree.files, eq_comm]
  | file name content rest ih =>
    rw [walkReferencesTree, readReferenceFrom, FileTree.files]
    by_cases hnil : content = []
    · simp [hnil]
    · simp only [hnil, if_false, ok_bind, ih, map_cons, foldl_cons, forall_mem_cons, ne_eq, not_false_eq_true, true_and]
      rfl
  | dir name sub rest ihs ih =>
    rw [walkReferencesTree, bind_eq_ok_iff, FileTree.files]
    simp only [ihs, ih, map_append, foldl_append, map_map]
    have hmap : (looseRef relPath ∘ fun f => (name :: f.1, f.2)) = looseRef (relPath ++ [name]) := by
      funext f
      simp [looseRef]
    rw [hmap]
    constructor
    · rintro ⟨_, ⟨hsub, rfl⟩, hrest, rfl⟩
      refine ⟨fun f hf => ?_, rfl⟩
      rcases mem_append.mp hf with hf | hf
      · obtain ⟨g, hg, rfl⟩ := mem_map.mp hf
        exact hsub g hg
      · exact hrest f hf
    · rintro ⟨hall, rfl⟩
      exact ⟨_, ⟨fun f hf => hall (name :: f.1, f.2)
        (mem_append_left _ (mem_map_of_mem (f := fun f => (name :: f.1, f.2)) hf)), rfl⟩,
        fun f hf => hall f (mem_append_right _ hf), rfl⟩

lemma addRefsFromRefDir_ok_iff : d.addRefsFromRefDir = .ok l ↔ d.root.fileAt [refsPath] = none ∧
    (∀ f ∈ d.looseFiles, f.2 ≠ []) ∧ l = (d.looseFiles.map (looseRef [refsPath])).foldl addRef [] := by
  rw [addRefsFromRefDir, looseFiles]
  cases hdir : d.root.dirAt [refsPath] with
  | none =>
    by_cases hfile : d.root.fileAt [refsPath] = none
    · simp [hfile, eq_comm]
    · simp [hfile]
  | some sub =>
    have hfile : d.root.fileAt [refsPath] = none := by
      cases hget : d.root.fileAt [refsPath] with
      | none => rfl
      | some content => simp [FileTree.dirAt_eq_none_of_fileAt d.wf hget] at hdir
    simp only [hfile, true_and, Option.map_some, Option.getD_some]
    exact walkReferencesTree_ok_iff

end Loose

end GoGit.DotGit
