import GoGit.Worktree

namespace GoGit.Worktree

open IndexFormat SlashPath Merkletrie Mindex List Function

inductive StatusCode
  | unmodified
  | untracked
  | modified
  | added
  | deleted
  deriving DecidableEq

structure FileStatus where
  staging : StatusCode
  worktree : StatusCode
  deriving DecidableEq

abbrev Status := Bytes → Option FileStatus

/-- `File`: a path that is not there is added as untracked. -/
def Status.file (s : Status) (path : Bytes) : FileStatus := (s path).getD ⟨.untracked, .untracked⟩

/-- A write through the pointer that `File` returns. -/
def Status.setStaging (s : Status) (path : Bytes) (code : StatusCode) : Status :=
  update s path (some { s.file path with staging := code })

def Status.setWorktree (s : Status) (path : Bytes) (code : StatusCode) : Status :=
  update s path (some { s.file path with worktree := code })

inductive StatusError
  | diff (cause : Merkletrie.Fault)
  | malformedChange
  deriving DecidableEq

def pathString (p : Option Path) : Bytes := (p.map Path.string).getD []

def nameFromAction (c : Change) : Bytes := if pathString c.To = [] then pathString c.From else pathString c.To

/-- The body of the loop over the differences of the commit and the index. -/
def stageChange (s : Status) (c : Change) : Except StatusError Status :=
  match c.action with
  | none => .error .malformedChange
  | some a =>
    let s : Status := s.setWorktree (nameFromAction c) .unmodified
    match a with
    | .delete => .ok (s.setStaging (pathString c.From) .deleted)
    | .insert => .ok (s.setStaging (pathString c.To) .added)
    | .modify => .ok (s.setStaging (pathString c.To) .modified)

/-- What the loop over the differences of the index and the worktree makes of a file. -/
def workStatus (a : Action) (fs : FileStatus) : FileStatus :=
  let fs := if fs.staging = .untracked then { fs with staging := .unmodified } else fs
  match a with
  | .delete => { fs with worktree := .deleted }
  | .insert => { fs with worktree := .untracked, staging := .untracked }
  | .modify => { fs with worktree := .modified }

def workChange (s : Status) (c : Change) : Except StatusError Status :=
  match c.action with
  | none => .error .malformedChange
  | some a =>
    let name := nameFromAction c
    .ok (update s name (some (workStatus a (s.file name))))

/-- `Worktree.status` with an empty map to begin with. -/
def status (treeHash : FileTree Component HeadFile → ObjectID) (sums : Sums)
    (head : Option (FileTree Component HeadFile)) (entries : List Entry) (work : FileTree Component WorkFile) :
    Except StatusError Status := do
  let left ← (diffTreeWithStaging treeHash head entries false).mapError .diff
  let s ← left.foldlM stageChange fun _ => none
  let right ← (diffStagingWithWorktree sums entries work false).mapError .diff
  right.foldlM workChange s

/-- The sum and the mode of a file of the commit; the mode that is not used any more is read as that of a regular
file. -/
def HeadFile.value (f : HeadFile) : Bytes × UInt32 := (f.hash.bytes, asRegular f.mode)

def entryValue (e : Entry) : Bytes × UInt32 := (e.hash.bytes, asRegular e.mode)

section Codes

variable {α : Type} [DecidableEq α]

def stagingCode : Option α → Option α → StatusCode
  | none, none => .untracked
  | none, some _ => .added
  | some _, none => .deleted
  | some h, some i => if h = i then .unmodified else .modified

def worktreeCode : Option α → Option α → StatusCode
  | none, none => .unmodified
  | none, some _ => .untracked
  | some _, none => .deleted
  | some i, some w => if i = w then .unmodified else .modified

/-- A path that is the same in all three is not in the status. -/
def expected (h i w : Option α) : Option FileStatus :=
  if h = i ∧ i = w then none else some ⟨stagingCode h i, worktreeCode i w⟩

end Codes

def Lawful (sums : Sums) (head : Option (FileTree Component HeadFile)) (entries : List Entry)
    (work : FileTree Component WorkFile) (s : Status) : Prop :=
  (∀ p, s (text p) = expected ((headAt head p).map HeadFile.value) ((entryAt entries p).map entryValue)
    ((workAt work p).map (WorkFile.value sums))) ∧
  ∀ name, (∀ p, name ≠ text p) → s name = none

variable {l : List (List Component × Action)} {f : Action → Option FileStatus → FileStatus}

section Loops

variable {s : Status} {c : Change} {p : List Component} {a : Action}

def stagingOf : Action → StatusCode
  | .delete => .deleted
  | .insert => .added
  | .modify => .modified

lemma string_eq_text {r : Path} (h : r.key = names p) : r.string = text p := by rw [Path.string, h]; rfl

lemma pathString_of_key (hp : p ≠ []) (hkey : c.key = names p) (ha : c.action = some a) :
    nameFromAction c = text p ∧ pathString (if a = .delete then c.From else c.To) = text p := by
  have hne : text p ≠ [] := mt text_eq_nil.mp hp
  obtain ⟨From, To⟩ := c
  cases To with
  | some q =>
    have hq : q.string = text p := string_eq_text (by cases From <;> exact hkey)
    cases From with
    | none | some =>
      simp only [Change.action, Option.some.injEq] at ha
      simp [nameFromAction, pathString, ← ha, hq, hne]
  | none =>
    cases From with
    | none => simp [Change.action] at ha
    | some r =>
      simp only [Change.action, Option.some.injEq] at ha
      have hr := string_eq_text (show r.key = names p from hkey)
      simp [nameFromAction, pathString, ← ha, hr]

lemma stageChange_eq (hp : p ≠ []) (hkey : c.key = names p) (ha : c.action = some a) :
    stageChange s c = .ok (update s (text p) (some ⟨stagingOf a, .unmodified⟩)) := by
  obtain ⟨hname, hpath⟩ := pathString_of_key hp hkey ha
  have hset : ∀ code, (s.setWorktree (text p) .unmodified).setStaging (text p) code =
      update s (text p) (some ⟨code, .unmodified⟩) := by
    intro code
    simp [Status.setStaging, Status.setWorktree, Status.file]
  simp only [stageChange, ha, hname]
  cases a with
  | delete | insert | modify => exact congrArg Except.ok ((congrArg (Status.setStaging _ · _) hpath).trans (hset _))

lemma workChange_eq (hp : p ≠ []) (hkey : c.key = names p) (ha : c.action = some a) :
    workChange s c = .ok (update s (text p) (some (workStatus a (s.file (text p))))) := by
  rw [workChange, ha, (pathString_of_key hp hkey ha).1]

def writeAll (f : Action → Option FileStatus → FileStatus) (s : Status) (l : List (List Component × Action)) : Status :=
  l.foldl (fun s x => update s (text x.1) (some (f x.2 (s (text x.1))))) s

lemma writeAll_of_not_mem {name : Bytes} (h : ∀ x ∈ l, text x.1 ≠ name) : writeAll f s l name = s name := by
  induction l generalizing s with
  | nil => rfl
  | cons x l ih =>
    rw [writeAll, foldl_cons, ← writeAll, ih fun y hy => h y (mem_cons_of_mem _ hy),
      update_of_ne (h x mem_cons_self).symm]

lemma writeAll_of_mem
    (hnodup : (l.map Prod.fst).Nodup) (h : (p, a) ∈ l) : writeAll f s l (text p) = some (f a (s (text p))) := by
  induction l generalizing s with
  | nil => simp at h
  | cons x l ih =>
    obtain ⟨hx, hrest⟩ := nodup_cons.mp hnodup
    rw [writeAll, foldl_cons, ← writeAll]
    rcases mem_cons.mp h with rfl | h
    · rw [writeAll_of_not_mem, update_self]
      intro y hy htext
      have hmem : y.1 ∈ l.map Prod.fst := mem_map_of_mem hy
      exact hx (text_inj htext ▸ hmem)
    · rw [ih hrest h, update_of_ne]
      intro htext
      have hmem : p ∈ l.map Prod.fst := mem_map_of_mem h
      exact hx (text_inj htext ▸ hmem)

lemma foldlM_writeAll {step : Status → Change → Except StatusError Status}
    {f : Action → Option FileStatus → FileStatus}
    (hstep : ∀ {s : Status} {c : Change} {p : List Component} {a : Action}, p ≠ [] → c.key = names p →
      c.action = some a → step s c = .ok (update s (text p) (some (f a (s (text p))))))
    {cs : Changes} {l : List (List Component × Action)} (hshow : ShowsChanges cs l) (hne : ∀ x ∈ l, x.1 ≠ []) :
    cs.foldlM step s = .ok (writeAll f s l) := by
  induction l generalizing cs s with
  | nil =>
    rw [ShowsChanges, map_nil, map_eq_nil_iff] at hshow
    rw [hshow]
    rfl
  | cons x l ih =>
    obtain ⟨c, cs, rfl, hc, hcs⟩ := map_eq_cons_iff.mp hshow
    obtain ⟨hkey, ha⟩ := Prod.mk.injEq .. ▸ hc
    rw [foldlM_cons, hstep (hne x mem_cons_self) hkey ha]
    exact ih hcs fun y hy => hne y (mem_cons_of_mem _ hy)

end Loops

def combine (left right : Option Action) : Option FileStatus :=
  let staged := left.map fun a => (⟨stagingOf a, .unmodified⟩ : FileStatus)
  match right with
  | none => staged
  | some a => some (workStatus a (staged.getD ⟨.untracked, .untracked⟩))

/-- A file status after both loops, from the one at the start and the two actions. -/
def written (old : Option FileStatus) (left right : Option Action) : Option FileStatus :=
  let staged := (left.map fun a => (⟨stagingOf a, .unmodified⟩ : FileStatus)).or old
  (right.map fun a => workStatus a (staged.getD ⟨.untracked, .untracked⟩)).or staged

lemma written_none (left right : Option Action) : written none left right = combine left right := by
  cases left <;> cases right <;> rfl

variable {e : Entry}

section Law

variable {treeHash : FileTree Component HeadFile → ObjectID} {sums : Sums}
  {head : Option (FileTree Component HeadFile)} {entries : List Entry} {work : FileTree Component WorkFile}

lemma asRegular_ne (m : UInt32) : asRegular m ≠ FileMode.deprecated := by
  rw [asRegular]
  split_ifs with h
  · decide
  · exact h

lemma asRegular_of_ne {m : UInt32} (h : m ≠ FileMode.deprecated) : asRegular m = m := if_neg h

lemma entryHash_eq_iff {a : Bytes} {m : UInt32} (hm : m ≠ FileMode.deprecated) :
    entryHash e = a ++ modeBytes m ↔ entryValue e = (a, m) ∧ e.mode ≠ FileMode.deprecated := by
  rw [entryValue, Prod.mk.injEq]
  constructor
  · intro h
    obtain ⟨hhash, hmode⟩ := append_modeBytes_inj h
    have hne : e.mode ≠ FileMode.deprecated := hmode ▸ hm
    exact ⟨⟨hhash, (asRegular_of_ne hne).trans hmode⟩, hne⟩
  · rintro ⟨⟨hhash, hmode⟩, hne⟩
    rw [entryHash, hhash, ← hmode, asRegular_of_ne hne]

lemma headHash_eq_iff {f : HeadFile} :
    headHash f = entryHash e ↔ f.value = entryValue e ∧ e.mode ≠ FileMode.deprecated := by
  rw [eq_comm, @eq_comm _ f.value]
  exact entryHash_eq_iff (asRegular_ne f.mode)

lemma workHash_eq_iff {f : WorkFile} (he : IsFileMode e.mode) :
    entryHash e = workHash sums f ↔ entryValue e = f.value sums ∧ e.mode ≠ FileMode.deprecated := by
  -- what is no file for git differs from every entry, by its length and by its mode
  have hother : ¬ entryHash e = ObjectID.zeroHash.bytes ∧ ¬ entryValue e = (ObjectID.zeroHash.bytes, 0) := by
    constructor
    · intro h
      have hlen := congrArg List.length h
      rw [entryHash, length_append, e.hash.length_bytes_eq, length_modeBytes] at hlen
      have hzero : ObjectID.zeroHash.bytes.length = 20 := by decide
      cases hf : e.hash.format <;> simp [hf, ObjectFormat.size, hzero] at hlen
    · intro h
      have hmode : asRegular e.mode = 0 := congrArg Prod.snd h
      rcases he with h | h | h | h <;> rw [h] at hmode <;> exact absurd hmode (by decide)
  cases f with
  | regular x content =>
    have hmode : (if x then FileMode.executable else FileMode.regular) ≠ FileMode.deprecated := by cases x <;> decide
    exact entryHash_eq_iff hmode
  | symlink target =>
    have hmode : FileMode.symlink ≠ FileMode.deprecated := by decide
    exact entryHash_eq_iff hmode
  | device => exact iff_of_false hother.1 fun h => hother.2 h.1
  | socket => exact iff_of_false hother.1 fun h => hother.2 h.1

attribute [local simp] actionOf combine expected stagingCode worktreeCode stagingOf workStatus

lemma combine_eq_expected_iff (h : Option HeadFile) (i : Option Entry) (w : Option WorkFile)
    (hi : ∀ e ∈ i, IsFileMode e.mode) :
    combine (actionOf (h.map headHash) (i.map entryHash)) (actionOf (i.map entryHash) (w.map (workHash sums))) =
        expected (h.map HeadFile.value) (i.map entryValue) (w.map (WorkFile.value sums)) ↔
      ¬ (h.isSome = true ∧ i = none ∧ w.isSome = true) ∧
        ∀ e ∈ i, e.mode = FileMode.deprecated → h.map HeadFile.value ≠ some (entryValue e) ∧
          w.map (WorkFile.value sums) ≠ some (entryValue e) := by
  cases i with
  | none => cases h <;> cases w <;> simp
  | some e =>
    have he := hi e rfl
    cases h with
    | none =>
      cases w with
      | none => simp
      | some w =>
        by_cases hdep : e.mode = FileMode.deprecated <;> by_cases hw : w.value sums = entryValue e <;>
          simp [workHash_eq_iff he, hdep, hw, @eq_comm _ (entryValue e)]
    | some f =>
      cases w with
      | none =>
        by_cases hdep : e.mode = FileMode.deprecated <;> by_cases hf : f.value = entryValue e <;>
          simp [headHash_eq_iff, hdep, hf]
      | some w =>
        by_cases hdep : e.mode = FileMode.deprecated <;> by_cases hf : f.value = entryValue e <;>
          by_cases hw : w.value sums = entryValue e <;>
          simp [headHash_eq_iff, workHash_eq_iff he, hdep, hf, hw, @eq_comm _ (entryValue e)]

lemma writeAll_text {s : Status}
    (hnodup : (l.map Prod.fst).Nodup) {p : List Component} {o : Option Action} (ho : ∀ a, (p, a) ∈ l ↔ o = some a) :
    writeAll f s l (text p) = (o.map fun a => f a (s (text p))).or (s (text p)) := by
  cases o with
  | some a => exact writeAll_of_mem hnodup ((ho a).mpr rfl)
  | none =>
    refine writeAll_of_not_mem fun x hx htext => ?_
    have hmem : (p, x.2) ∈ l := text_inj htext ▸ hx
    exact absurd ((ho x.2).mp hmem) (by simp)

lemma Lists.ne_nil {F G : List Component → Option Bytes} {cs : Changes}
    (h : Lists F G cs l) (hF : F [] = none) (hG : G [] = none) : ∀ x ∈ l, x.1 ≠ [] := by
  rintro ⟨p, a⟩ hx rfl
  have ha := (h.2.2 [] a).mp hx
  simp [hF, hG] at ha

lemma entryAt_nil (h : Staged entries) : entryAt entries [] = none := by
  rw [entryAt, find?_eq_none]
  intro e he hname
  obtain ⟨p, hp, htext⟩ := h.proper e he
  exact hp (text_inj (htext.symm.trans (of_decide_eq_true hname)))

lemma foldlM_changes (h : Staged entries) (hhead : ∀ t ∈ head, t.Wf) (hwork : work.Wf) (s₀ : Status) :
    ∃ left right s, diffTreeWithStaging treeHash head entries false = .ok left ∧
      diffStagingWithWorktree sums entries work false = .ok right ∧
      (left.foldlM stageChange s₀ >>= right.foldlM workChange) = .ok s ∧
      (∀ p, s (text p) = written (s₀ (text p)) (actionOf (headMap head p) (indexMap entries p))
        (actionOf (indexMap entries p) (workMap sums work p))) ∧ ∀ name, (∀ p, name ≠ text p) → s name = s₀ name := by
  obtain ⟨left, l, hleft, hl⟩ := @diffTreeWithStaging_lists _ treeHash _ h hhead
  obtain ⟨right, r, hright, hr⟩ := @diffStagingWithWorktree_lists _ sums _ h hwork
  have hheadNil : headMap head [] = none := by cases head <;> simp [headMap, headAt]
  have hindexNil : indexMap entries [] = none := by rw [indexMap, entryAt_nil h, Option.map_none]
  have hworkNil : workMap sums work [] = none := by simp [workMap, workAt]
  have hstage := @foldlM_writeAll s₀ stageChange (fun a _ => ⟨stagingOf a, .unmodified⟩)
    stageChange_eq left l hl.1 (hl.ne_nil hheadNil hindexNil)
  have hchange := @foldlM_writeAll (writeAll (fun a _ => ⟨stagingOf a, .unmodified⟩) s₀ l) workChange
    (fun a old => workStatus a (old.getD ⟨.untracked, .untracked⟩)) workChange_eq right r hr.1
    (hr.ne_nil hindexNil hworkNil)
  refine ⟨left, right, _, hleft, hright, by rw [hstage]; exact hchange, fun p => ?_, fun name hname => ?_⟩
  · rw [writeAll_text hr.2.1 (hr.2.2 p), writeAll_text hl.2.1 (hl.2.2 p)]
    rfl
  · rw [writeAll_of_not_mem fun x _ => (hname x.1).symm, writeAll_of_not_mem fun x _ => (hname x.1).symm]

lemma status_spec (h : Staged entries) (hhead : ∀ t ∈ head, t.Wf) (hwork : work.Wf) :
    ∃ s, status treeHash sums head entries work = .ok s ∧
      (∀ p, s (text p) = combine (actionOf (headMap head p) (indexMap entries p))
        (actionOf (indexMap entries p) (workMap sums work p))) ∧ ∀ name, (∀ p, name ≠ text p) → s name = none := by
  obtain ⟨left, right, s, hleft, hright, hs, hpaths, hother⟩ :=
    @foldlM_changes treeHash sums head entries work h hhead hwork fun _ => none
  refine ⟨s, ?_, fun p => (hpaths p).trans (written_none _ _), hother⟩
  rw [status, hleft, hright]
  exact hs

end Law

/-- Every path has its codes, unless one that was removed from the index lies in the worktree still or an entry with
the mode that is not used any more is the same as the file of the commit or the worktree. -/
theorem Status_lawful_iff (treeHash : FileTree Component HeadFile → ObjectID) (sums : Sums)
    (head : Option (FileTree Component HeadFile)) (entries : List Entry) (work : FileTree Component WorkFile)
    (h : Staged entries) (hhead : ∀ t ∈ head, t.Wf) (hwork : work.Wf) :
    ∃ s, status treeHash sums head entries work = .ok s ∧ (Lawful sums head entries work s ↔
      ∀ p, ¬ ((headAt head p).isSome = true ∧ entryAt entries p = none ∧ (workAt work p).isSome = true) ∧
        ∀ e ∈ entryAt entries p, e.mode = FileMode.deprecated →
          (headAt head p).map HeadFile.value ≠ some (entryValue e) ∧
          (workAt work p).map (WorkFile.value sums) ≠ some (entryValue e)) := by
  obtain ⟨s, hs, hpaths, hother⟩ := @status_spec treeHash sums _ _ _ h hhead hwork
  refine ⟨s, hs, ?_⟩
  rw [Lawful, and_iff_left hother]
  refine forall_congr' fun p => ?_
  rw [hpaths p]
  exact combine_eq_expected_iff _ _ _ fun e he => h.files e (mem_of_find?_eq_some he)

section Example

def nameA : Component := ⟨textBytes "a", by decide +kernel⟩

def firstByte : Sums := ⟨fun content => .short (content.headD 0), id⟩

def noTreeHash (_ : FileTree Component HeadFile) : ObjectID := .zeroHash

def commitA : FileTree Component HeadFile := .file nameA ⟨FileMode.regular, .short 1, .inl rfl⟩ .empty

def workA : FileTree Component WorkFile := .file nameA (.regular false [1]) .empty

def entryA (mode : UInt32) (b : UInt8) : Entry := { name := textBytes "a", mode := mode, hash := .short b }

lemma staged_singleton (hp : Proper e) (hskip : e.skipWorktree = false) (hmode : IsFileMode e.mode) :
    Staged [e] where
  proper d hd := mem_singleton.mp hd ▸ hp
  separate d hd d' hd' := by
    rw [mem_singleton.mp hd, mem_singleton.mp hd']
    rintro ⟨rest, hrest⟩
    have hlen := congrArg List.length hrest
    simp at hlen
  unskipped d hd := mem_singleton.mp hd ▸ hskip
  files d hd := mem_singleton.mp hd ▸ hmode

lemma staged_entryA {mode : UInt32} (hmode : IsFileMode mode) (b : UInt8) : Staged [entryA mode b] :=
  staged_singleton ⟨[nameA], by simp, rfl⟩ rfl hmode

theorem Status_lawful_modified : ∃ s, status noTreeHash firstByte (some commitA) [entryA FileMode.regular 2] workA =
    .ok s ∧ Lawful firstByte (some commitA) [entryA FileMode.regular 2] workA s := by
  obtain ⟨s, hs, hiff⟩ := Status_lawful_iff noTreeHash firstByte (some commitA) [entryA FileMode.regular 2] workA
    (staged_entryA (.inl rfl) 2) (by rintro t ⟨⟩; exact ⟨by simp [FileTree.names], trivial⟩)
    ⟨by simp [FileTree.names], trivial⟩
  refine ⟨s, hs, hiff.mpr fun p => ⟨?_, fun e he hmode => ?_⟩⟩
  · rintro ⟨hcommit, hentry, -⟩
    by_cases hp : p = [nameA]
    · subst hp
      exact absurd hentry (by decide +kernel)
    · simp [headAt, commitA, FileTree.fileAt, hp] at hcommit
  · have hmem := mem_singleton.mp (mem_of_find?_eq_some he)
    rw [hmem] at hmode
    exact absurd hmode (by decide)

theorem Status_not_lawful : (∃ s, status noTreeHash firstByte (some commitA) [] workA = .ok s ∧
        s (textBytes "a") = some ⟨.untracked, .untracked⟩ ∧ ¬ Lawful firstByte (some commitA) [] workA s) ∧
      ∃ s, status noTreeHash firstByte (some commitA) [entryA FileMode.deprecated 1] workA = .ok s ∧
        s (textBytes "a") = some ⟨.modified, .modified⟩ ∧
        ¬ Lawful firstByte (some commitA) [entryA FileMode.deprecated 1] workA s := by
  have hfalse : ∀ {entries : List Entry} {fs : FileStatus},
      (status noTreeHash firstByte (some commitA) entries workA).toOption.any (· (textBytes "a") = some fs) →
      expected ((headAt (some commitA) [nameA]).map HeadFile.value) ((entryAt entries [nameA]).map entryValue)
        ((workAt workA [nameA]).map (WorkFile.value firstByte)) ≠ some fs →
      ∃ s, status noTreeHash firstByte (some commitA) entries workA = .ok s ∧ s (textBytes "a") = some fs ∧
        ¬ Lawful firstByte (some commitA) entries workA s := by
    intro entries fs hs hne
    obtain ⟨s, hok, hfs⟩ := exists_ok hs
    exact ⟨s, hok, hfs, fun hlaw => hne ((hlaw.1 [nameA]).symm.trans hfs)⟩
  exact ⟨hfalse (by decide +kernel) (by decide +kernel), hfalse (by decide +kernel) (by decide +kernel)⟩

end Example

end GoGit.Worktree
