import Mathlib

inductive FileTree (ν α : Type)
  | empty
  | file (name : ν) (content : α) (rest : FileTree ν α)
  | dir (name : ν) (sub rest : FileTree ν α)
  deriving DecidableEq

namespace FileTree

open List

variable {ν α : Type}

def names : FileTree ν α → List ν
  | empty => []
  | file name _ rest => name :: rest.names
  | dir name _ rest => name :: rest.names

def files : FileTree ν α → List (List ν × α)
  | empty => []
  | file name content rest => ([name], content) :: rest.files
  | dir name sub rest => sub.files.map (fun f => (name :: f.1, f.2)) ++ rest.files

def Wf : FileTree ν α → Prop
  | empty => True
  | file name _ rest => name ∉ rest.names ∧ rest.Wf
  | dir name sub rest => name ∉ rest.names ∧ sub.Wf ∧ rest.Wf

section Lookup

variable [DecidableEq ν]
  {d : FileTree ν α}

def fileAt : FileTree ν α → List ν → Option α
  | empty, _ => none
  | file name content rest, path => if path = [name] then some content else rest.fileAt path
  | dir name sub rest, path =>
    match path with
    | [] => none
    | first :: path => if first = name then sub.fileAt path else rest.fileAt (first :: path)

def dirAt : FileTree ν α → List ν → Option (FileTree ν α)
  | t, [] => some t
  | empty, _ :: _ => none
  | file name _ rest, first :: path => if first = name then none else rest.dirAt (first :: path)
  | dir name sub rest, first :: path =>
    if first = name then sub.dirAt path else rest.dirAt (first :: path)

def remove : FileTree ν α → List ν → FileTree ν α
  | empty, _ => empty
  | file name content rest, path => if path = [name] then rest else file name content (rest.remove path)
  | dir name sub rest, path =>
    match path with
    | [] => dir name sub rest
    | first :: path =>
      if first = name then if path = [] then rest else dir name (sub.remove path) rest
      else dir name sub (rest.remove (first :: path))

def put (name : ν) (content : α) : FileTree ν α → FileTree ν α
  | empty => file name content empty
  | file other old rest =>
    if other = name then file name content rest else file other old (rest.put name content)
  | dir other sub rest => dir other sub (rest.put name content)

/-- The tree with the entries of a directory changed. The directory is made if there is none. -/
def enter (name : ν) (f : FileTree ν α → FileTree ν α) : FileTree ν α → FileTree ν α
  | empty => dir name (f empty) empty
  | file other content rest => file other content (rest.enter name f)
  | dir other sub rest =>
    if other = name then dir name (f sub) rest else dir other sub (rest.enter name f)

/-- The tree with a file at a path and with the directories to it. -/
def set : List ν → α → FileTree ν α → FileTree ν α
  | [], _, t => t
  | [name], content, t => t.put name content
  | name :: next :: path, content, t => t.enter name (set (next :: path) content)

/-- A file can be at the path: it is no directory, and no file is on the way to it. -/
def Writable : List ν → FileTree ν α → Prop
  | [], _ => False
  | [name], t => t.dirAt [name] = none
  | name :: next :: path, t =>
    t.fileAt [name] = none ∧ Writable (next :: path) ((t.dirAt [name]).getD empty)

instance decidableWf : (t : FileTree ν α) → Decidable t.Wf
  | empty => .isTrue trivial
  | file name _ rest =>
    have := decidableWf rest
    inferInstanceAs (Decidable (name ∉ rest.names ∧ rest.Wf))
  | dir name sub rest =>
    have := decidableWf rest
    have := decidableWf sub
    inferInstanceAs (Decidable (name ∉ rest.names ∧ sub.Wf ∧ rest.Wf))

instance decidableWritable [DecidableEq α] : (path : List ν) → (t : FileTree ν α) → Decidable (Writable path t)
  | [], _ => .isFalse id
  | [name], t => inferInstanceAs (Decidable (t.dirAt [name] = none))
  | name :: next :: path, t =>
    have := decidableWritable (next :: path) ((t.dirAt [name]).getD empty)
    inferInstanceAs (Decidable (t.fileAt [name] = none ∧ Writable (next :: path) ((t.dirAt [name]).getD empty)))

variable {t : FileTree ν α} {path q : List ν} {content : α} {name : ν}

@[simp] lemma fileAt_nil (t : FileTree ν α) : t.fileAt [] = none := by
  induction t with
  | empty => rfl
  | file name content rest ih => simpa [fileAt] using ih
  | dir name sub rest => rfl

@[simp] lemma dirAt_nil (t : FileTree ν α) : t.dirAt [] = some t := by cases t <;> rfl

lemma head_mem_names (h : t.fileAt path = some content) : ∃ first rest, path = first :: rest ∧ first ∈ t.names := by
  induction t generalizing path with
  | empty => simp [fileAt] at h
  | file name content rest ih =>
    rw [fileAt] at h
    split_ifs at h with hpath
    · exact ⟨name, [], hpath, by simp [names]⟩
    · obtain ⟨first, tail, rfl, hmem⟩ := ih h
      exact ⟨first, tail, rfl, mem_cons_of_mem _ hmem⟩
  | dir name sub rest ihs ih =>
    cases path with
    | nil => simp [fileAt] at h
    | cons first path =>
      refine ⟨first, path, rfl, ?_⟩
      rw [fileAt] at h
      split_ifs at h with hfirst
      · exact hfirst ▸ mem_cons_self
      · obtain ⟨_, _, heq, hmem⟩ := ih h
        rw [(List.cons.inj heq).1]
        exact mem_cons_of_mem _ hmem

lemma fileAt_of_not_mem (h : name ∉ t.names) (path : List ν) : t.fileAt (name :: path) = none := by
  cases hget : t.fileAt (name :: path) with
  | none => rfl
  | some content =>
    obtain ⟨first, rest, heq, hmem⟩ := head_mem_names hget
    exact absurd ((List.cons.inj heq).1 ▸ hmem) h

lemma dirAt_of_not_mem (h : name ∉ t.names) (path : List ν) : t.dirAt (name :: path) = none := by
  induction t with
  | empty => rfl
  | file other content rest ih =>
    simp only [names, mem_cons, not_or] at h
    rw [dirAt, if_neg h.1, ih h.2]
  | dir other sub rest ihs ih =>
    simp only [names, mem_cons, not_or] at h
    rw [dirAt, if_neg h.1, ih h.2]

lemma mem_files_iff (h : t.Wf) : (path, content) ∈ t.files ↔ t.fileAt path = some content := by
  induction t generalizing path with
  | empty => simp [files, fileAt]
  | file name old rest ih =>
    obtain ⟨hname, hrest⟩ := h
    rw [files, mem_cons, ih hrest, fileAt]
    by_cases hpath : path = [name]
    · subst hpath
      simp only [Prod.mk.injEq, true_and, fileAt_of_not_mem hname, reduceCtorEq, or_false, if_true, Option.some.injEq]
      exact eq_comm
    · simp [hpath]
  | dir name sub rest ihs ih =>
    obtain ⟨hname, hsub, hrest⟩ := h
    rw [files, mem_append, mem_map]
    cases path with
    | nil => simp [ih hrest]
    | cons first path =>
      rw [ih hrest, fileAt]
      by_cases hfirst : first = name
      · subst hfirst
        simp only [fileAt_of_not_mem hname, reduceCtorEq, or_false, if_true, ← ihs hsub]
        constructor
        · rintro ⟨⟨p, c⟩, hmem, heq⟩
          simp only [Prod.mk.injEq, List.cons.injEq, true_and] at heq
          obtain ⟨rfl, rfl⟩ := heq
          exact hmem
        · exact fun hmem => ⟨(path, content), hmem, rfl⟩
      · simp only [hfirst, if_false, or_iff_right_iff_imp]
        rintro ⟨⟨p, c⟩, -, heq⟩
        simp only [Prod.mk.injEq, List.cons.injEq] at heq
        exact absurd heq.1.1.symm hfirst

lemma Wf.dirAt (h : t.Wf) (hd : t.dirAt path = some d) : d.Wf := by
  induction t generalizing path with
  | empty =>
    cases path with
    | nil => exact Option.some.inj hd ▸ h
    | cons first path => simp [FileTree.dirAt] at hd
  | file name content rest ih =>
    cases path with
    | nil => exact Option.some.inj hd ▸ h
    | cons first path =>
      rw [FileTree.dirAt] at hd
      split_ifs at hd
      exact ih h.2 hd
  | dir name sub rest ihs ih =>
    cases path with
    | nil => exact Option.some.inj hd ▸ h
    | cons first path =>
      rw [FileTree.dirAt] at hd
      split_ifs at hd
      · exact ihs h.2.1 hd
      · exact ih h.2.2 hd

lemma fileAt_cons (h : t.Wf) (name : ν) (path : List ν) (hpath : path ≠ []) :
    t.fileAt (name :: path) = (t.dirAt [name]).bind (·.fileAt path) := by
  induction t with
  | empty => rfl
  | file other content rest ih =>
    rw [fileAt, if_neg (by simp [hpath]), ih h.2, dirAt]
    split_ifs with hname
    · rw [hname, dirAt_of_not_mem h.1]
    · rfl
  | dir other sub rest ihs ih =>
    rw [fileAt, dirAt, ih h.2.2]
    split_ifs
    · simp
    · rfl

lemma dirAt_cons (t : FileTree ν α) (name : ν) (path : List ν) :
    t.dirAt (name :: path) = (t.dirAt [name]).bind (·.dirAt path) := by
  induction t with
  | empty => rfl
  | file other content rest ih =>
    rw [dirAt, dirAt]
    split_ifs
    · rfl
    · exact ih
  | dir other sub rest ihs ih =>
    rw [dirAt, dirAt]
    split_ifs
    · simp
    · exact ih

lemma dirAt_append (hd : t.dirAt path = some d) (q : List ν) : t.dirAt (path ++ q) = d.dirAt q := by
  induction path generalizing t with
  | nil =>
    rw [dirAt_nil, Option.some.injEq] at hd
    rw [hd, nil_append]
  | cons name path ih =>
    rw [dirAt_cons] at hd
    obtain ⟨sub, hsub, hd⟩ := Option.bind_eq_some_iff.mp hd
    rw [cons_append, dirAt_cons, hsub, Option.bind_some, ih hd]

lemma fileAt_append (h : t.Wf) (hd : t.dirAt path = some d) {q : List ν} (hq : q ≠ []) :
    t.fileAt (path ++ q) = d.fileAt q := by
  induction path generalizing t with
  | nil =>
    rw [dirAt_nil, Option.some.injEq] at hd
    rw [hd, nil_append]
  | cons name path ih =>
    rw [dirAt_cons] at hd
    obtain ⟨sub, hsub, hd⟩ := Option.bind_eq_some_iff.mp hd
    rw [cons_append, fileAt_cons h _ _ (by simp [hq]), hsub, Option.bind_some, ih (h.dirAt hsub) hd]

omit [DecidableEq ν] in
lemma Wf.nodup_names (h : t.Wf) : t.names.Nodup := by
  induction t with
  | empty => exact nodup_nil
  | file name content rest ih => exact nodup_cons.mpr ⟨h.1, ih h.2⟩
  | dir name sub rest _ ih => exact nodup_cons.mpr ⟨h.1, ih h.2.2⟩

lemma mem_names_of_dirAt (h : t.dirAt (name :: path) = some d) : name ∈ t.names := by
  by_contra hnot
  simp [dirAt_of_not_mem hnot] at h

lemma dirAt_eq_none_of_fileAt (h : t.Wf) (hget : t.fileAt path = some content) : t.dirAt path = none := by
  induction t generalizing path with
  | empty => simp [fileAt] at hget
  | file name old rest ih =>
    cases path with
    | nil => simp at hget
    | cons first path =>
      rw [fileAt] at hget
      rw [dirAt]
      split_ifs at hget with hpath
      · rw [if_pos (List.cons.inj hpath).1]
      · split_ifs
        · rfl
        · exact ih h.2 hget
  | dir name sub rest ihs ih =>
    cases path with
    | nil => simp at hget
    | cons first path =>
      rw [fileAt] at hget
      rw [dirAt]
      split_ifs at hget ⊢
      · exact ihs h.2.1 hget
      · exact ih h.2.2 hget

lemma dirAt_remove_of_ne {first first' : ν} (h : first' ≠ first) (path q : List ν) :
    (t.remove (first :: path)).dirAt (first' :: q) = t.dirAt (first' :: q) := by
  induction t with
  | empty => rfl
  | file name content rest ih =>
    rw [remove]
    split_ifs with hpath
    · rw [dirAt, if_neg ((List.cons.inj hpath).1 ▸ h)]
    · rw [dirAt, dirAt, ih]
  | dir name sub rest ihs ih =>
    rw [remove]
    split_ifs with hfirst hnil
    · rw [dirAt, if_neg (hfirst ▸ h)]
    · rw [dirAt, dirAt, if_neg (hfirst ▸ h), if_neg (hfirst ▸ h)]
    · rw [dirAt, dirAt, ih]

lemma dirAt_remove_eq_none_iff (h : path ≠ [name]) : (t.remove path).dirAt [name] = none ↔ t.dirAt [name] = none := by
  induction t with
  | empty => rfl
  | file other content rest ih =>
    rw [remove]
    split_ifs with hpath
    · have hne : name ≠ other := fun heq => h (by rw [hpath, heq])
      rw [dirAt, if_neg hne]
    · rw [dirAt, dirAt]
      split_ifs
      · rfl
      · exact ih
  | dir other sub rest ihs ih =>
    cases path with
    | nil => rfl
    | cons first path =>
      rw [remove]
      split_ifs with hfirst hnil
      · have hne : name ≠ other := fun heq => h (by rw [hfirst, hnil, heq])
        rw [dirAt, if_neg hne]
      · by_cases hname : name = other
        · simp [dirAt, hname]
        · simp [dirAt, hname]
      · by_cases hname : name = other
        · simp [dirAt, hname]
        · simpa [dirAt, hname] using ih

lemma dirAt_put_of_ne {first : ν} (h : first ≠ name) (content : α) (q : List ν) :
    (t.put name content).dirAt (first :: q) = t.dirAt (first :: q) := by
  induction t with
  | empty => simp [put, dirAt, h]
  | file other old rest ih =>
    rw [put]
    split_ifs with hother
    · rw [dirAt, dirAt, hother]
    · rw [dirAt, dirAt, ih]
  | dir other sub rest ihs ih => rw [put, dirAt, dirAt, ih]

lemma names_remove_sublist (t : FileTree ν α) (path : List ν) : (t.remove path).names.Sublist t.names := by
  induction t generalizing path with
  | empty => exact List.Sublist.refl _
  | file name content rest ih =>
    rw [remove]
    split_ifs
    · exact sublist_cons_self _ _
    · exact (ih path).cons_cons name
  | dir name sub rest ihs ih =>
    cases path with
    | nil => exact List.Sublist.refl _
    | cons first path =>
      rw [remove]
      split_ifs
      · exact sublist_cons_self _ _
      · exact List.Sublist.refl _
      · exact (ih _).cons_cons name

lemma Wf.remove (h : t.Wf) (path : List ν) : (t.remove path).Wf := by
  induction t generalizing path with
  | empty => trivial
  | file name content rest ih =>
    rw [FileTree.remove]
    split_ifs
    · exact h.2
    · exact ⟨fun hmem => h.1 ((names_remove_sublist rest path).subset hmem), ih h.2 path⟩
  | dir name sub rest ihs ih =>
    cases path with
    | nil => exact h
    | cons first path =>
      rw [FileTree.remove]
      split_ifs
      · exact h.2.2
      · exact ⟨h.1, ihs h.2.1 path, h.2.2⟩
      · exact ⟨fun hmem => h.1 ((names_remove_sublist rest _).subset hmem), h.2.1, ih h.2.2 _⟩

lemma fileAt_remove (h : t.Wf) (hdir : ∀ d, t.dirAt path = some d → d = empty) (q : List ν) :
    (t.remove path).fileAt q = if q = path then none else t.fileAt q := by
  induction t generalizing path q with
  | empty => simp [remove, fileAt]
  | file name content rest ih =>
    obtain ⟨hname, hrest⟩ := h
    cases path with
    | nil => exact absurd (hdir _ (dirAt_nil _)) (by simp)
    | cons first path =>
      by_cases hpath : first :: path = [name]
      · rw [remove, if_pos hpath, fileAt, hpath]
        split_ifs with hq
        · rw [hq, fileAt_of_not_mem hname]
        · rfl
      · have hdir' : ∀ d, rest.dirAt (first :: path) = some d → d = empty := by
          intro d hd
          by_cases hfirst : first = name
          · rw [hfirst, dirAt_of_not_mem hname] at hd
            exact absurd hd (by simp)
          · exact hdir d (by rw [dirAt, if_neg hfirst, hd])
        rw [remove, if_neg hpath, fileAt, ih hrest hdir', fileAt]
        by_cases hq : q = [name]
        · rw [if_pos hq, if_neg (hq ▸ Ne.symm hpath), if_pos hq]
        · rw [if_neg hq, if_neg hq]
  | dir name sub rest ihs ih =>
    obtain ⟨hname, hsub, hrest⟩ := h
    cases path with
    | nil => exact absurd (hdir _ (dirAt_nil _)) (by simp)
    | cons first path =>
      cases q with
      | nil => simp
      | cons first' q =>
        by_cases hfirst : first = name
        · subst hfirst
          rw [dirAt, if_pos rfl] at hdir
          by_cases hnil : path = []
          · -- an empty directory
            subst hnil
            obtain rfl := hdir sub (dirAt_nil sub)
            rw [remove, if_pos rfl, if_pos rfl, fileAt]
            by_cases hq : first' = first
            · rw [hq, fileAt_of_not_mem hname, if_pos rfl]
              split_ifs <;> rfl
            · simp [hq]
          · rw [remove, if_pos rfl, if_neg hnil, fileAt, ihs hsub hdir, fileAt]
            by_cases hq : first' = first
            · simp [hq]
            · simp [hq]
        · rw [dirAt, if_neg hfirst] at hdir
          rw [remove, if_neg hfirst, fileAt, ih hrest hdir, fileAt]
          by_cases hq : first' = name
          · simp [hq, Ne.symm hfirst]
          · simp [hq]

lemma fileAt_put (hdir : t.dirAt [name] = none) (content : α) (q : List ν) :
    (t.put name content).fileAt q = if q = [name] then some content else t.fileAt q := by
  induction t with
  | empty => simp [put, fileAt]
  | file other old rest ih =>
    by_cases hother : other = name
    · subst hother
      simp only [put, if_true, fileAt]
      split_ifs <;> rfl
    · have ih := ih (by simpa [dirAt, Ne.symm hother] using hdir)
      simp only [put, if_neg hother, fileAt, ih]
      by_cases hq : q = [name]
      · simp [hq, Ne.symm hother]
      · simp [hq]
  | dir other sub rest ihs ih =>
    by_cases hother : name = other
    · simp [dirAt, hother] at hdir
    · have ih := ih (by simpa [dirAt, hother] using hdir)
      cases q with
      | nil => simp
      | cons first q =>
        simp only [put, fileAt, ih]
        by_cases hq : first = other
        · simp [hq, Ne.symm hother]
        · simp [hq]

lemma mem_names_put {other : ν} (h : other ∈ (t.put name content).names) : other = name ∨ other ∈ t.names := by
  induction t with
  | empty => exact .inl (by simpa [put, names] using h)
  | file old c rest ih =>
    rw [put] at h
    split_ifs at h with hold
    · exact .inr (hold ▸ h)
    · rcases mem_cons.mp h with rfl | h
      · exact .inr mem_cons_self
      · exact (ih h).imp_right (mem_cons_of_mem _)
  | dir old sub rest ihs ih =>
    rcases mem_cons.mp h with rfl | h
    · exact .inr mem_cons_self
    · exact (ih h).imp_right (mem_cons_of_mem _)

lemma Wf.put (h : t.Wf) (hdir : t.dirAt [name] = none) (content : α) : (t.put name content).Wf := by
  induction t with
  | empty => exact ⟨by simp [names], trivial⟩
  | file other old rest ih =>
    by_cases hother : other = name
    · subst hother
      rw [FileTree.put, if_pos rfl]
      exact ⟨h.1, h.2⟩
    · have ih := ih h.2 (by simpa [FileTree.dirAt, Ne.symm hother] using hdir)
      rw [FileTree.put, if_neg hother]
      exact ⟨fun hmem => (mem_names_put hmem).elim hother h.1, ih⟩
  | dir other sub rest ihs ih =>
    by_cases hother : name = other
    · simp [FileTree.dirAt, hother] at hdir
    · have ih := ih h.2.2 (by simpa [FileTree.dirAt, hother] using hdir)
      exact ⟨fun hmem => (mem_names_put hmem).elim (Ne.symm hother) h.1, h.2.1, ih⟩

section Enter

variable {f : FileTree ν α → FileTree ν α} {first : ν}

lemma mem_names_enter (h : first ∈ (t.enter name f).names) : first = name ∨ first ∈ t.names := by
  induction t with
  | empty => exact .inl (by simpa [enter, names] using h)
  | file other content rest ih =>
    rcases mem_cons.mp h with rfl | h
    · exact .inr mem_cons_self
    · exact (ih h).imp_right (mem_cons_of_mem _)
  | dir other sub rest ihs ih =>
    rw [enter] at h
    split_ifs at h with hother
    · exact .inr (hother ▸ h)
    · rcases mem_cons.mp h with rfl | h
      · exact .inr mem_cons_self
      · exact (ih h).imp_right (mem_cons_of_mem _)

lemma fileAt_enter_singleton (h : t.fileAt [name] = none) : (t.enter name f).fileAt [first] = t.fileAt [first] := by
  induction t with
  | empty => simp [enter, fileAt]
  | file other content rest ih =>
    have hne : [name] ≠ [other] := fun heq => by simp [fileAt, heq] at h
    rw [fileAt, if_neg hne] at h
    rw [enter, fileAt, fileAt, ih h]
  | dir other sub rest ihs ih =>
    rw [enter]
    split_ifs with hother
    · simp [fileAt, hother]
    · rw [fileAt, if_neg (Ne.symm hother)] at h
      rw [fileAt, fileAt, ih h]

lemma dirAt_enter_of_ne (h : first ≠ name) : (t.enter name f).dirAt [first] = t.dirAt [first] := by
  induction t with
  | empty => simp [enter, dirAt, h]
  | file other content rest ih => rw [enter, dirAt, dirAt, ih]
  | dir other sub rest ihs ih =>
    rw [enter]
    split_ifs with hother
    · rw [dirAt, if_neg h, dirAt, if_neg (hother ▸ h)]
    · simp only [dirAt, ih]

lemma dirAt_enter_self (h : t.fileAt [name] = none) :
    (t.enter name f).dirAt [name] = some (f ((t.dirAt [name]).getD empty)) := by
  induction t with
  | empty => simp [enter, dirAt]
  | file other content rest ih =>
    have hne : [name] ≠ [other] := fun heq => by simp [fileAt, heq] at h
    rw [fileAt, if_neg hne] at h
    have hother : name ≠ other := fun heq => hne (by rw [heq])
    rw [enter, dirAt, dirAt, if_neg hother, if_neg hother, ih h]
  | dir other sub rest ihs ih =>
    rw [enter]
    split_ifs with hother
    · simp [dirAt, hother]
    · rw [fileAt, if_neg (Ne.symm hother)] at h
      rw [dirAt, if_neg (Ne.symm hother), ih h, dirAt, if_neg (Ne.symm hother)]

lemma Wf.enter (h : t.Wf) (hfile : t.fileAt [name] = none)
    (hf : (f ((t.dirAt [name]).getD empty)).Wf) : (t.enter name f).Wf := by
  induction t with
  | empty => exact ⟨by simp [names], by simpa [FileTree.dirAt] using hf, trivial⟩
  | file other content rest ih =>
    have hne : [name] ≠ [other] := fun heq => by simp [fileAt, heq] at hfile
    have hother : name ≠ other := fun heq => hne (by rw [heq])
    rw [fileAt, if_neg hne] at hfile
    rw [FileTree.dirAt, if_neg hother] at hf
    exact ⟨fun hmem => (mem_names_enter hmem).elim (Ne.symm hother) h.1, ih h.2 hfile hf⟩
  | dir other sub rest ihs ih =>
    rw [FileTree.enter]
    split_ifs with hother
    · rw [FileTree.dirAt, if_pos hother.symm, dirAt_nil] at hf
      exact ⟨hother ▸ h.1, hf, h.2.2⟩
    · rw [fileAt, if_neg (Ne.symm hother)] at hfile
      rw [FileTree.dirAt, if_neg (Ne.symm hother)] at hf
      exact ⟨fun hmem => (mem_names_enter hmem).elim hother h.1, h.2.1, ih h.2.2 hfile hf⟩

end Enter

omit [DecidableEq ν] in
lemma wf_empty : (empty : FileTree ν α).Wf := trivial

lemma Wf.getD_dirAt (h : t.Wf) (name : ν) : ((t.dirAt [name]).getD empty).Wf := by
  cases hd : t.dirAt [name] with
  | none => exact wf_empty
  | some d => exact h.dirAt hd

lemma Wf.set (h : t.Wf) (hw : Writable path t) (content : α) : (t.set path content).Wf := by
  induction path generalizing t with
  | nil => exact h
  | cons name path ih =>
    cases path with
    | nil => exact h.put hw content
    | cons next path => exact h.enter hw.1 (ih (h.getD_dirAt name) hw.2)

lemma fileAt_set (h : t.Wf) (hw : Writable path t) (content : α) (q : List ν) :
    (t.set path content).fileAt q = if q = path then some content else t.fileAt q := by
  induction path generalizing t q with
  | nil => exact hw.elim
  | cons name path ih =>
    cases path with
    | nil => exact fileAt_put hw content q
    | cons next path =>
      have hwf : (t.set (name :: next :: path) content).Wf := h.set hw content
      match q with
      | [] => simp
      | [first] => rw [set, fileAt_enter_singleton hw.1, if_neg (by simp)]
      | first :: second :: q =>
        rw [fileAt_cons hwf _ _ (cons_ne_nil _ _), fileAt_cons h _ _ (cons_ne_nil _ _), set]
        by_cases hfirst : first = name
        · subst hfirst
          rw [dirAt_enter_self hw.1, Option.bind_some, ih (h.getD_dirAt first) hw.2]
          cases t.dirAt [first] with
          | none => simp [fileAt]
          | some sub => simp
        · rw [dirAt_enter_of_ne hfirst, if_neg (by simp [hfirst])]

lemma dirAt_set_of_ne {first : ν} (h : first ≠ name) (path : List ν) (content : α) :
    (t.set (name :: path) content).dirAt [first] = t.dirAt [first] := by
  cases path with
  | nil => exact dirAt_put_of_ne h content []
  | cons next path => exact dirAt_enter_of_ne h

lemma isSome_dirAt_set (hw : Writable (name :: path) t) (hpath : path ≠ []) (content : α) :
    ((t.set (name :: path) content).dirAt [name]).isSome := by
  cases path with
  | nil => exact absurd rfl hpath
  | cons next path =>
    rw [set, dirAt_enter_self hw.1]
    rfl

lemma writable_of_fileAt (h : t.Wf) (hget : t.fileAt path = some content) : Writable path t := by
  induction path generalizing t with
  | nil => simp at hget
  | cons name path ih =>
    cases path with
    | nil => exact dirAt_eq_none_of_fileAt h hget
    | cons next path =>
      rw [fileAt_cons h _ _ (cons_ne_nil _ _)] at hget
      obtain ⟨sub, hsub, hget⟩ := Option.bind_eq_some_iff.mp hget
      refine ⟨?_, ?_⟩
      · cases hfile : t.fileAt [name] with
        | none => rfl
        | some old => simp [dirAt_eq_none_of_fileAt h hfile] at hsub
      · rw [hsub]
        exact ih (h.dirAt hsub) hget

end Lookup

end FileTree
