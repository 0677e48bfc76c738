import GoGit.Status

/-! `preloadStatus` puts the files of the index into the map before the differences, each under the last name of its
path. -/
namespace GoGit.Worktree

open IndexFormat SlashPath Merkletrie Mindex List

/-- The loop of `preloadStatus`, with a bound on its turns. -/
def preloadLoop : ℕ → List Node → Status → Except StatusError Status
  | _, [], s => .ok s
  | 0, _, _ => .error (.diff .outOfFuel)
  | fuel + 1, node :: nodes, s =>
    if node.isDir then preloadLoop fuel (nodes ++ node.children) s
    else preloadLoop fuel nodes ((s.setWorktree node.name .unmodified).setStaging node.name .unmodified)

def preloadStatus (entries : List Entry) : Except StatusError Status := do
  let idxRoot ← (NewRootNode entries).mapError .diff
  preloadLoop idxRoot.count [idxRoot] fun _ => none

/-- `Worktree.status` with the strategy `Preload`. -/
def statusPreload (treeHash : FileTree Component HeadFile → ObjectID) (sums : Sums)
    (head : Option (FileTree Component HeadFile)) (entries : List Entry) (work : FileTree Component WorkFile) :
    Except StatusError Status := do
  let s ← preloadStatus entries
  let left ← (diffTreeWithStaging treeHash head entries false).mapError .diff
  let s ← left.foldlM stageChange s
  let right ← (diffStagingWithWorktree sums entries work false).mapError .diff
  right.foldlM workChange s

def Present (head : Option (FileTree Component HeadFile)) (entries : List Entry) (work : FileTree Component WorkFile)
    (p : List Component) : Prop :=
  headAt head p ≠ none ∨ entryAt entries p ≠ none ∨ workAt work p ≠ none

/-- The sum and the mode are the same in all three. -/
def Unchanged (sums : Sums) (head : Option (FileTree Component HeadFile)) (entries : List Entry)
    (work : FileTree Component WorkFile) (p : List Component) : Prop :=
  ∃ e, entryAt entries p = some e ∧ (headAt head p).map (fun f => (f.hash.bytes, f.mode)) = some (e.hash.bytes, e.mode) ∧
    (workAt work p).map (WorkFile.value sums) = some (e.hash.bytes, e.mode)

structure Preloaded (sums : Sums) (head : Option (FileTree Component HeadFile)) (entries : List Entry)
    (work : FileTree Component WorkFile) (s : Status) : Prop where
  keys : ∀ name, s name ≠ none ↔ ∃ p, name = text p ∧ Present head entries work p
  unchanged : ∀ p, Unchanged sums head entries work p → s (text p) = some ⟨.unmodified, .unmodified⟩

section Preload

variable {sums : Sums} {head : Option (FileTree Component HeadFile)} {entries : List Entry}
  {work : FileTree Component WorkFile}

mutual

def fileNames : Node → List Bytes
  | .file name _ _ => [name]
  | .dir _ _ children _ => fileNamesAll children

def fileNamesAll : List Node → List Bytes
  | [] => []
  | n :: ns => fileNames n ++ fileNamesAll ns

end

lemma fileNamesAll_append (ns ms : List Node) : fileNamesAll (ns ++ ms) = fileNamesAll ns ++ fileNamesAll ms := by
  induction ns with
  | nil => rfl
  | cons n ns ih => rw [cons_append, fileNamesAll, ih, fileNamesAll, append_assoc]

lemma preloadLoop_eq {fuel : ℕ} {ns : List Node} (hfuel : Node.countAll ns ≤ fuel) (s : Status) :
    preloadLoop fuel ns s = .ok fun name =>
      if name ∈ fileNamesAll ns then some ⟨.unmodified, .unmodified⟩ else s name := by
  induction fuel generalizing ns s with
  | zero =>
    cases ns with
    | nil => rfl
    | cons n ns =>
      rw [Node.countAll, count_eq] at hfuel
      omega
  | succ fuel ih =>
    cases ns with
    | nil => rfl
    | cons n ns =>
      cases n with
      | file name hash skip =>
        rw [Node.countAll, Node.count] at hfuel
        refine (ih (by omega) _).trans (congrArg Except.ok (funext fun other => ?_))
        by_cases ho : other = name
        · simp [ho, fileNamesAll, fileNames, Node.name, Status.setStaging, Status.setWorktree, Status.file]
        · simp [ho, fileNamesAll, fileNames, Node.name, Status.setStaging, Status.setWorktree]
      | dir name hash children skip =>
        rw [Node.countAll, Node.count] at hfuel
        have hcount : Node.countAll (ns ++ children) ≤ fuel := by
          rw [countAll_eq] at hfuel ⊢
          rw [countAll_eq] at hfuel
          simp only [map_append, sum_append]
          omega
        refine (ih hcount s).trans (congrArg Except.ok (funext fun other => if_congr ?_ rfl rfl))
        rw [fileNamesAll_append, fileNamesAll, fileNames, mem_append, mem_append, or_comm]

lemma ne_nil_of_mem_files {t : FileTree Component Entry} : ∀ f ∈ t.files, f.1 ≠ [] := by
  induction t with
  | empty => simp [FileTree.files]
  | file c e rest ih => simpa [FileTree.files] using ih
  | dir c sub rest _ ih =>
    intro f hf
    rcases mem_append.mp hf with hf | hf
    · obtain ⟨g, -, rfl⟩ := mem_map.mp hf
      simp
    · exact ih f hf

lemma fileNamesAll_nodes (t : FileTree Component Entry) :
    fileNamesAll (nodes entryHash noHash t) = t.files.map fun f => (names f.1).getLastD [] := by
  induction t with
  | empty => rfl
  | file c e rest ih => rw [nodes, fileNamesAll, ih, FileTree.files]; rfl
  | dir c sub rest ihs ih =>
    rw [nodes, fileNamesAll, fileNames, ihs, ih, FileTree.files, map_append, map_map]
    refine congrArg (· ++ _) (map_congr_left fun f hf => ?_)
    obtain ⟨d, q, hq⟩ := exists_cons_of_ne_nil (ne_nil_of_mem_files f hf)
    rw [Function.comp_apply, hq]
    rfl

/-- The last name of an entry. -/
def IsBase (entries : List Entry) (name : Bytes) : Prop := ∃ p c, entryAt entries (p ++ [c]) ≠ none ∧ c.name = name

lemma mem_fileNamesAll (h : Staged entries) {name : Bytes} :
    name ∈ fileNamesAll [indexNoder entries] ↔ IsBase entries name := by
  rw [fileNamesAll, fileNamesAll, append_nil, indexNoder, ofFileTree, fileNames, fileNamesAll_nodes, mem_map]
  constructor
  · rintro ⟨⟨q, e⟩, hf, rfl⟩
    obtain ⟨p, c, rfl⟩ := (eq_nil_or_concat' q).resolve_left (ne_nil_of_mem_files _ hf)
    rw [FileTree.mem_files_iff wf_treeOf, h.toPlain.fileAt] at hf
    exact ⟨p, c, by simp [hf], by simp [names]⟩
  · rintro ⟨p, c, hne, rfl⟩
    obtain ⟨e, he⟩ := Option.ne_none_iff_exists'.mp hne
    rw [← h.toPlain.fileAt, ← FileTree.mem_files_iff wf_treeOf] at he
    exact ⟨_, he, by simp [names]⟩

lemma preloadStatus_spec (h : Staged entries) : ∃ s, preloadStatus entries = .ok s ∧
    (∀ name, IsBase entries name → s name = some ⟨.unmodified, .unmodified⟩) ∧
      ∀ name, ¬ IsBase entries name → s name = none := by
  have hloop := @preloadLoop_eq (indexNoder entries).count [indexNoder entries] (by simp [Node.countAll]) fun _ => none
  have hrun : preloadStatus entries = preloadLoop (indexNoder entries).count [indexNoder entries] fun _ => none := by
    rw [preloadStatus, NewRootNode_eq h.toPlain]
    rfl
  exact ⟨_, hrun.trans hloop, fun _ hname => if_pos ((mem_fileNamesAll h).mpr hname),
    fun _ hname => if_neg (mt (mem_fileNamesAll h).mp hname)⟩

lemma actionOf_eq_none_iff {a b : Option Bytes} : actionOf a b = none ↔ a = b := by
  cases a <;> cases b <;> simp [actionOf]

variable {old : Option FileStatus} {left right : Option Action}

lemma written_cases (h : old = none ∨ old = some ⟨.unmodified, .unmodified⟩) : written old left right =
    combine left right ∨ combine left right = none ∧ written old left right = some ⟨.unmodified, .unmodified⟩ := by
  rcases h with rfl | rfl
  · exact .inl (written_none _ _)
  · cases left <;> rcases right with _ | _ | _ | _ <;> simp [written, combine, workStatus]

lemma written_ne_none_iff : written old left right ≠ none ↔ old ≠ none ∨ left ≠ none ∨ right ≠ none := by
  cases old <;> cases left <;> cases right <;> simp [written]

lemma Unchanged.maps (h : Staged entries) {p : List Component} (hp : Unchanged sums head entries work p) :
    headMap head p = indexMap entries p ∧ indexMap entries p = workMap sums work p := by
  obtain ⟨e, he, hh, hw⟩ := hp
  obtain ⟨f, hf, hfe⟩ := Option.map_eq_some_iff.mp hh
  obtain ⟨w, hw, hwe⟩ := Option.map_eq_some_iff.mp hw
  obtain ⟨hhash, hmode⟩ := Prod.mk.inj hfe
  have hfile := h.files e (mem_of_find?_eq_some he)
  have hdep : e.mode ≠ FileMode.deprecated := by
    have hmode : (w.value sums).2 = e.mode := congrArg Prod.snd hwe
    rw [← hmode]
    rcases w with ⟨_ | _, _⟩ | _ | _ | _ <;> simp [WorkFile.value] <;> decide
  have hvalue : entryValue e = w.value sums := by rw [entryValue, asRegular_of_ne hdep, hwe]
  constructor
  · rw [headMap, indexMap, hf, he, Option.map_some, Option.map_some, headHash, entryHash, hhash, hmode,
      asRegular_of_ne hdep]
  · rw [indexMap, workMap, he, hw, Option.map_some, Option.map_some, (workHash_eq_iff hfile).mpr ⟨hvalue, hdep⟩]

end Preload

def entryAB : Entry := { name := textBytes "a/b", mode := FileMode.regular, hash := .short 1 }

end GoGit.Worktree
