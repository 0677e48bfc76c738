import GoGit.ObjectStore

namespace GoGit

open List

section TreeWalker

def maxTreeDepth : ℕ := 1024

def simpleJoin (parent child : Bytes) : Bytes :=
  if 0 < parent.length then parent ++ 47 :: child else child

/-- What `path.Split` leaves of the path of a directory, without the slash. -/
def splitBase (base : Bytes) : Bytes := ((base.reverse.dropWhile (· ≠ 47)).drop 1).reverse

/-- The entries still to come in each open tree, the deepest tree first, and its path. -/
structure TreeWalker where
  stack : List (List TreeEntry)
  base : Bytes := []
  recursive : Bool := true
  deriving DecidableEq

def NewTreeWalker (t : Tree) (recursive : Bool) : TreeWalker := ⟨[t.entries], [], recursive⟩

variable (s : Store) (seen : List ObjectID) (recursive : Bool)

/-- The end of the walk is the error `eof`; a directory that cannot be read ends it as well. -/
def TreeWalker.nextEntry : List (List TreeEntry) → Bytes → Except ObjectError (Bytes × TreeEntry) × TreeWalker
  | [], base => (.error .eof, ⟨[], base, recursive⟩)
  | entries :: rest, base =>
    if maxTreeDepth < rest.length then
      (.error .maxTreeDepth, ⟨entries :: rest, base, recursive⟩)
    else
      match entries.dropWhile (·.hash ∈ seen) with
      | [] => nextEntry rest (splitBase base)
      | entry :: entries =>
        let name := simpleJoin base entry.name
        if entry.mode = FileMode.dir then
          match s.getTree entry.hash with
          | .error _ => (.error .eof, ⟨entries :: rest, base, recursive⟩)
          | .ok t =>
            (.ok (name, entry),
              if recursive then ⟨t.entries :: entries :: rest, name, recursive⟩
              else ⟨entries :: rest, base, recursive⟩)
        else (.ok (name, entry), ⟨entries :: rest, base, recursive⟩)

def TreeWalker.next (w : TreeWalker) : Except ObjectError (Bytes × TreeEntry) × TreeWalker :=
  TreeWalker.nextEntry s seen w.recursive w.stack w.base

end TreeWalker

variable {h : ObjectID}

section TreeWalkerSpec

variable {s : Store} {root : ObjectID} {seen : List ObjectID} {stack : List (List TreeEntry)}
  {e : TreeEntry} {t : ObjectID}

lemma Store.Nested.reach {n : ℕ} (h : s.Nested root n t) : s.Reach root t := by
  induction h with
  | root => exact .refl
  | child _ object mem dir ih =>
    have hmode := dir.symm ▸ FileMode.dir_ne_submodule
    exact ih.tail ⟨_, object, Object.mem_refs_tree.mpr ⟨_, mem, hmode, rfl⟩⟩

/-- Everything reachable from the names is in the store and of the right type, and no tree of it has
more directories below each other than the walker follows. -/
structure Store.Complete (s : Store) (names : List ObjectID) : Prop where
  sound : ∀ o ∈ names, ∀ h, s.Reach o h → s.Sound h
  depth : ∀ o ∈ names, ∀ t, s.Reach o t → ∀ n u, s.Nested t n u → n ≤ maxTreeDepth

lemma Store.Complete.of_reach {names : List ObjectID} {o h : ObjectID} (hs : s.Complete names)
    (ho : o ∈ names) (hr : s.Reach o h) : s.Complete [h] := by
  constructor
  · intro o' hmem k hk
    obtain rfl := mem_singleton.mp hmem
    exact hs.sound o ho k (hr.trans hk)
  · intro o' hmem t ht
    obtain rfl := mem_singleton.mp hmem
    exact hs.depth o ho t (hr.trans ht)

lemma Store.Closed.complete (hs : s.Closed) (rank : ObjectID → ℕ) (hle : ∀ h, rank h ≤ maxTreeDepth)
    (hrank : ∀ h ∈ s.names, ∀ o ∈ s.object h, ∀ e ∈ o.dirs, rank e < rank h) : s.Complete s.names := by
  refine ⟨fun o ho h hr => hs.sound (hs.mem_of_reach ho hr), fun o _ t _ n u hnested => ?_⟩
  have hsum : n + rank u ≤ rank t := by
    induction hnested with
    | root => omega
    | @child _ t' _ e _ object mem dir ih =>
      have hlt : rank e.hash < rank t' :=
        hrank t' (s.mem_names t' (by simp [object])) _ object _ (Object.mem_dirs.mpr ⟨e, mem, dir, rfl⟩)
      omega
  have := hle t
  omega

inductive Open (s : Store) (root : ObjectID) : List (List TreeEntry) → Prop
  | nil : Open s root []
  | cons {t : ObjectID} {all entries : List TreeEntry} {rest : List (List TreeEntry)}
      (nested : s.Nested root rest.length t) (object : s.object t = some (.tree all))
      (subset : ∀ e ∈ entries, e ∈ all) (tail : Open s root rest) : Open s root (entries :: rest)

def pendingEntries (stack : List (List TreeEntry)) : Set ObjectID :=
  {h | ∃ entries ∈ stack, ∃ e ∈ entries, e.mode ≠ FileMode.submodule ∧ e.hash = h}

variable {entries : List TreeEntry}

lemma mem_pendingEntries_cons : h ∈ pendingEntries (entries :: stack) ↔
      (∃ e ∈ entries, e.mode ≠ FileMode.submodule ∧ e.hash = h) ∨ h ∈ pendingEntries stack := by
  simp [pendingEntries]

def treeSize (s : Store) (h : ObjectID) : ℕ :=
  match s.object h with
  | some (.tree entries) => entries.length
  | _ => 0

def remaining (stack : List (List TreeEntry)) : ℕ := (stack.map List.length).sum

structure Gives (s : Store) (root : ObjectID) (seen : List ObjectID) (stack : List (List TreeEntry))
    (e : TreeEntry) (stack' : List (List TreeEntry)) : Prop where
  unseen : e.hash ∉ seen
  opened : Open s root stack'
  pending : ∀ h ∈ pendingEntries stack,
    h ∈ seen ∨ (e.mode ≠ FileMode.submodule ∧ h = e.hash) ∨ h ∈ pendingEntries stack'
  reach : e.mode ≠ FileMode.submodule → s.Reach root e.hash
  object : e.mode ≠ FileMode.submodule → s.object e.hash ≠ none
  refs : e.mode ≠ FileMode.submodule → ∀ h, s.Refers e.hash h → h ∈ pendingEntries stack'
  size : remaining stack' < remaining stack + if e.mode = FileMode.dir then treeSize s e.hash else 0

lemma pendingEntries_dropWhile {entries more : List TreeEntry} {k : ObjectID}
    (hdrop : entries.dropWhile (·.hash ∈ seen) = e :: more) (hk : k ∈ pendingEntries (entries :: stack)) :
    k ∈ seen ∨ (e.mode ≠ FileMode.submodule ∧ k = e.hash) ∨ k ∈ pendingEntries (more :: stack) := by
  obtain ⟨-, -, -, -, hall⟩ := Search.dropWhile_eq_cons hdrop
  rcases mem_pendingEntries_cons.mp hk with ⟨x, hx, hsub, rfl⟩ | hk
  · rcases hall x hx with hseen | rfl | hx
    · exact .inl (by simpa using hseen)
    · exact .inr (.inl ⟨hsub, rfl⟩)
    · exact .inr (.inr (mem_pendingEntries_cons.mpr (.inl ⟨x, hx, hsub, rfl⟩)))
  · exact .inr (.inr (mem_pendingEntries_cons.mpr (.inr hk)))

lemma Gives.skip {stack' : List (List TreeEntry)}
    (h : Gives s root seen stack e stack') (hall : ∀ x ∈ entries, x.hash ∈ seen) :
    Gives s root seen (entries :: stack) e stack' where
  unseen := h.unseen
  opened := h.opened
  pending := by
    intro k hk
    rcases mem_pendingEntries_cons.mp hk with ⟨x, hx, -, rfl⟩ | hk
    · exact .inl (hall x hx)
    · exact h.pending k hk
  reach := h.reach
  object := h.object
  refs := h.refs
  size := by
    have := h.size
    simp only [remaining, map_cons, sum_cons] at this ⊢
    omega

section

variable {rest : List (List TreeEntry)} {all more : List TreeEntry} (nested : s.Nested root rest.length t)
  (object : s.object t = some (.tree all)) (subset : ∀ e ∈ entries, e ∈ all) (tail : Open s root rest)
  (hdrop : entries.dropWhile (·.hash ∈ seen) = e :: more)

include nested object subset tail hdrop

lemma Open.gives_file (hsound : s.Sound t) (hdir : e.mode ≠ FileMode.dir) :
    Gives s root seen (entries :: rest) e (more :: rest) := by
  obtain ⟨hpass, hmem, hmore, hlen, -⟩ := Search.dropWhile_eq_cons hdrop
  have hunseen : e.hash ∉ seen := by simpa using hpass
  have hblob := fun hsub => (hsound.wellTyped object).2 e (subset e hmem) hdir hsub
  refine ⟨hunseen, .cons nested object (fun x hx => subset x (hmore x hx)) tail, ?_, ?_, ?_, ?_, ?_⟩
  · exact fun k hk => pendingEntries_dropWhile hdrop hk
  · intro hsub
    exact nested.reach.tail ⟨_, object, Object.mem_refs_tree.mpr ⟨e, subset e hmem, hsub, rfl⟩⟩
  · intro hsub
    simp [hblob hsub]
  · rintro hsub k ⟨o, ho, hk⟩
    cases (hblob hsub).symm.trans ho
    simp [Object.refs] at hk
  · simp only [remaining, map_cons, sum_cons]
    omega

lemma Open.gives_dir {children : List TreeEntry} (hdir : e.mode = FileMode.dir)
    (hchildren : s.object e.hash = some (.tree children)) :
    Gives s root seen (entries :: rest) e (children :: more :: rest) := by
  obtain ⟨hpass, hmem, hmore, hlen, -⟩ := Search.dropWhile_eq_cons hdrop
  have hunseen : e.hash ∉ seen := by simpa using hpass
  have hopen : Open s root (more :: rest) := .cons nested object (fun x hx => subset x (hmore x hx)) tail
  have hnested : s.Nested root (more :: rest).length e.hash := nested.child object (subset e hmem) hdir
  refine ⟨hunseen, .cons hnested hchildren (fun _ hx => hx) hopen, ?_, ?_, ?_, ?_, ?_⟩
  · intro k hk
    rcases pendingEntries_dropWhile hdrop hk with hseen | he | hk
    · exact .inl hseen
    · exact .inr (.inl he)
    · exact .inr (.inr (mem_pendingEntries_cons.mpr (.inr hk)))
  · exact fun _ => hnested.reach
  · simp [hchildren]
  · rintro - k ⟨o, ho, hk⟩
    cases hchildren.symm.trans ho
    exact mem_pendingEntries_cons.mpr (.inl (Object.mem_refs_tree.mp hk))
  · simp only [remaining, map_cons, sum_cons, hdir, if_true, treeSize, hchildren]
    omega

end

lemma nextEntry_spec (hsound : ∀ h, s.Reach root h → s.Sound h)
    (hdepth : ∀ n t, s.Nested root n t → n ≤ maxTreeDepth) (hopen : Open s root stack)
    (seen : List ObjectID) (base : Bytes) :
    ((∃ walker, TreeWalker.nextEntry s seen true stack base = (.error .eof, walker)) ∧
        ∀ h ∈ pendingEntries stack, h ∈ seen) ∨ ∃ name e stack' base', TreeWalker.nextEntry s seen true stack base =
        (.ok (name, e), ⟨stack', base', true⟩) ∧ Gives s root seen stack e stack' := by
  induction hopen generalizing base with
  | nil => exact .inl ⟨⟨_, rfl⟩, fun h ⟨_, hmem, _⟩ => absurd hmem not_mem_nil⟩
  | @cons t all entries rest nested object subset tail ih =>
    have hfit : ¬ maxTreeDepth < rest.length := not_lt.mpr (hdepth _ _ nested)
    have hst := hsound t nested.reach
    rw [TreeWalker.nextEntry, if_neg hfit]
    cases hdrop : entries.dropWhile (·.hash ∈ seen) with
    | nil =>
      have hall : ∀ e ∈ entries, e.hash ∈ seen := by simpa using hdrop
      rcases ih (splitBase base) with ⟨hend, hseen⟩ | ⟨name, e, stack', base', hnext, hgives⟩
      · refine .inl ⟨hend, fun k hk => ?_⟩
        rcases mem_pendingEntries_cons.mp hk with ⟨x, hx, -, rfl⟩ | hk
        · exact hall x hx
        · exact hseen k hk
      · exact .inr ⟨name, e, stack', base', hnext, hgives.skip hall⟩
    | cons e more =>
      right
      by_cases hdir : e.mode = FileMode.dir
      · obtain ⟨-, hmem, -⟩ := Search.dropWhile_eq_cons hdrop
        obtain ⟨children, hchildren⟩ := (hst.wellTyped object).1 e (subset e hmem) hdir
        refine ⟨simpleJoin base e.name, e, _, simpleJoin base e.name, ?_,
          Open.gives_dir nested object subset tail hdrop hdir hchildren⟩
        simp [hdir, s.getTree_of_object hchildren]
      · refine ⟨simpleJoin base e.name, e, _, base, ?_, Open.gives_file nested object subset tail hdrop hst hdir⟩
        simp [hdir]

end TreeWalkerSpec

section CommitPreIterator

structure CommitPreIterator where
  seen : List ObjectID
  stack : List (List ObjectID) := []
  start : Option Commit
  deriving DecidableEq

def NewCommitPreorderIter (c : Commit) (ignore : List ObjectID) : CommitPreIterator :=
  ⟨ignore, [], some c⟩

namespace CommitPreIterator

variable (s : Store) (seenExternal : List ObjectID) (w : CommitPreIterator)

def skips (h : ObjectID) : Bool := h ∈ w.seen ∨ h ∈ seenExternal

/-- Reads the commits named in one list up to the first that is not skipped. -/
def nextParent : List ObjectID → Except ObjectError (Option (Commit × List ObjectID))
  | [] => .ok none
  | h :: rest =>
    match s.getCommit h with
    | .error e => .error e
    | .ok c => if skips seenExternal w c.hash then nextParent rest else .ok (some (c, rest))

def nextCommit : List (List ObjectID) → Except ObjectError (Option (Commit × List (List ObjectID)))
  | [] => .ok none
  | parents :: rest =>
    match nextParent s seenExternal w parents with
    | .error e => .error e
    | .ok none => nextCommit rest
    | .ok (some (c, parents)) => .ok (some (c, parents :: rest))

/-- The commit is given out; its parents come before what was to come. -/
def visit (c : Commit) (stack : List (List ObjectID)) : CommitPreIterator :=
  let seen := c.hash :: w.seen
  { seen
    stack := if 0 < c.parentHashes.length then c.parentHashes.filter (· ∉ seen) :: stack else stack
    start := none }

def next : Except ObjectError (Option (Commit × CommitPreIterator)) :=
  match w.start with
  | some c =>
    if skips seenExternal w c.hash then
      (nextCommit s seenExternal w w.stack).map (·.map fun (c, stack) => (c, w.visit c stack))
    else .ok (some (c, w.visit c w.stack))
  | none => (nextCommit s seenExternal w w.stack).map (·.map fun (c, stack) => (c, w.visit c stack))

end CommitPreIterator

end CommitPreIterator

lemma Store.hash_of_getCommit {s : Store} {c : Commit} (hc : s.getCommit h = .ok c) : c.hash = h := by
  obtain ⟨c₀, -, rfl⟩ := Store.object_of_getCommit hc
  rfl

section CommitPreIteratorSpec

namespace CommitPreIterator

variable {s : Store} {root : ObjectID} {seenExternal : List ObjectID} {w : CommitPreIterator}
  {stack : List (List ObjectID)}
  {c : Commit}

/-- The first of some names that is not skipped is that of the commit, which can be read. -/
structure Found (s : Store) (seenExternal : List ObjectID) (w : CommitPreIterator)
    (names : List ObjectID) (c : Commit) (rest : List ObjectID) : Prop where
  getCommit : s.getCommit c.hash = .ok c
  unseen : ¬ skips seenExternal w c.hash
  split : ∃ skipped, names = skipped ++ c.hash :: rest ∧ ∀ h ∈ skipped, skips seenExternal w h

/-- One of the names, before which all are skipped, cannot be read. -/
def Fails (s : Store) (seenExternal : List ObjectID) (w : CommitPreIterator) (names : List ObjectID)
    (e : ObjectError) : Prop :=
  ∃ skipped h rest, names = skipped ++ h :: rest ∧ (∀ k ∈ skipped, skips seenExternal w k) ∧ s.getCommit h = .error e

variable {first listed rest : List ObjectID} {e : ObjectError}

lemma Found.mem (hfound : Found s seenExternal w listed c rest) : c.hash ∈ listed := by
  obtain ⟨skipped, rfl, -⟩ := hfound.split
  simp

lemma Found.subset (hfound : Found s seenExternal w listed c rest) : ∀ h ∈ rest, h ∈ listed := by
  obtain ⟨skipped, rfl, -⟩ := hfound.split
  exact fun h hh => mem_append_right _ (mem_cons_of_mem _ hh)

lemma Found.passed (hfound : Found s seenExternal w listed c rest) :
    ∀ h ∈ listed, skips seenExternal w h ∨ h = c.hash ∨ h ∈ rest := by
  obtain ⟨skipped, rfl, hskipped⟩ := hfound.split
  intro h hh
  rcases mem_append.mp hh with hh | hh
  · exact .inl (hskipped h hh)
  · exact .inr (mem_cons.mp hh)

lemma Found.prepend (hfirst : ∀ h ∈ first, skips seenExternal w h) (hfound : Found s seenExternal w listed c rest) :
    Found s seenExternal w (first ++ listed) c rest := by
  obtain ⟨skipped, rfl, hskipped⟩ := hfound.split
  exact ⟨hfound.getCommit, hfound.unseen, first ++ skipped, by simp, forall_mem_append.mpr ⟨hfirst, hskipped⟩⟩

lemma Fails.prepend (hfirst : ∀ h ∈ first, skips seenExternal w h) (hfails : Fails s seenExternal w listed e) :
    Fails s seenExternal w (first ++ listed) e := by
  obtain ⟨skipped, h, rest, rfl, hskipped, he⟩ := hfails
  exact ⟨first ++ skipped, h, rest, by simp, forall_mem_append.mpr ⟨hfirst, hskipped⟩, he⟩

lemma Fails.exists_mem (hfails : Fails s seenExternal w listed e) : ∃ h ∈ listed, s.getCommit h = .error e := by
  obtain ⟨skipped, h, rest, rfl, -, he⟩ := hfails
  exact ⟨h, by simp, he⟩

lemma nextParent_spec (parents : List ObjectID) :
    match nextParent s seenExternal w parents with
    | .error e => Fails s seenExternal w parents e
    | .ok none => ∀ h ∈ parents, skips seenExternal w h
    | .ok (some (c, rest)) => Found s seenExternal w parents c rest := by
  induction parents with
  | nil => simp [nextParent]
  | cons h parents ih =>
    rw [nextParent]
    cases hget : s.getCommit h with
    | error e => exact ⟨[], h, parents, rfl, nofun, hget⟩
    | ok c =>
      obtain rfl := Store.hash_of_getCommit hget
      by_cases hskip : skips seenExternal w c.hash = true
      · simp only [hskip, if_true]
        have hfirst : ∀ h ∈ [c.hash], skips seenExternal w h = true := by simpa using hskip
        cases hnext : nextParent s seenExternal w parents with
        | error e =>
          rw [hnext] at ih
          exact ih.prepend hfirst
        | ok found =>
          rw [hnext] at ih
          cases found with
          | none => simpa [hskip] using ih
          | some found => exact ih.prepend hfirst
      · simp only [hskip]
        exact ⟨hget, hskip, [], rfl, nofun⟩

lemma nextCommit_spec (stack : List (List ObjectID)) :
    match nextCommit s seenExternal w stack with
    | .error e => Fails s seenExternal w stack.flatten e
    | .ok none => ∀ h ∈ stack.flatten, skips seenExternal w h
    | .ok (some (c, rest)) => Found s seenExternal w stack.flatten c rest.flatten := by
  induction stack with
  | nil => simp [nextCommit]
  | cons parents stack ih =>
    have hspec := @nextParent_spec s seenExternal w parents
    rw [nextCommit, flatten_cons]
    cases hnext : nextParent s seenExternal w parents with
    | error e =>
      rw [hnext] at hspec
      obtain ⟨skipped, h, rest, rfl, hskipped, he⟩ := hspec
      exact ⟨skipped, h, rest ++ stack.flatten, by simp, hskipped, he⟩
    | ok found =>
      rw [hnext] at hspec
      cases found with
      | none =>
        cases hrest : nextCommit s seenExternal w stack with
        | error e =>
          rw [hrest] at ih
          exact ih.prepend hspec
        | ok found =>
          rw [hrest] at ih
          cases found with
          | none => exact forall_mem_append.mpr ⟨hspec, ih⟩
          | some found => exact ih.prepend hspec
      | some found =>
        obtain ⟨skipped, rfl, hskipped⟩ := hspec.split
        exact ⟨hspec.getCommit, hspec.unseen, skipped, by simp, hskipped⟩

/-- The commits that are to come, the start before the others. -/
def names (w : CommitPreIterator) : List ObjectID := (w.start.map Commit.hash).toList ++ w.stack.flatten

lemma next_found (hstart : ∀ c ∈ w.start, s.getCommit c.hash = .ok c) :
    match w.next s seenExternal with
    | .error e => Fails s seenExternal w w.names e
    | .ok none => ∀ h ∈ w.names, skips seenExternal w h
    | .ok (some (c, w')) => ∃ stack, w' = w.visit c stack ∧ Found s seenExternal w w.names c stack.flatten := by
  by_cases hskip : ∀ c ∈ w.start, skips seenExternal w c.hash = true
  -- the start is out of the way
  · have hnext : w.next s seenExternal = (nextCommit s seenExternal w w.stack).map
        (·.map fun (c, stack) => (c, w.visit c stack)) := by
      cases hs : w.start with
      | none => simp [next, hs]
      | some c => simp [next, hs, hskip c hs]
    have hfirst : ∀ h ∈ (w.start.map Commit.hash).toList, skips seenExternal w h = true := by
      intro h hh
      obtain ⟨c, hc, rfl⟩ := Option.mem_map.mp (Option.mem_toList.mp hh)
      exact hskip c hc
    have hspec := @nextCommit_spec s seenExternal w w.stack
    rw [hnext]
    cases hc : nextCommit s seenExternal w w.stack with
    | error e =>
      rw [hc] at hspec
      exact hspec.prepend hfirst
    | ok found =>
      rw [hc] at hspec
      cases found with
      | none => exact forall_mem_append.mpr ⟨hfirst, hspec⟩
      | some found => exact ⟨_, rfl, hspec.prepend hfirst⟩
  · push Not at hskip
    obtain ⟨c, hc, hskip⟩ := hskip
    simp only [next, Option.mem_def.mp hc, hskip]
    exact ⟨w.stack, rfl, hstart c hc, hskip, [], by simp [names, Option.mem_def.mp hc], nofun⟩

def pending (w : CommitPreIterator) : Set ObjectID :=
  {h | (∃ c, w.start = some c ∧ c.hash = h) ∨ h ∈ w.stack.flatten}

structure Valid (s : Store) (root : ObjectID) (w : CommitPreIterator) : Prop where
  start : ∀ c, w.start = some c → s.getCommit c.hash = .ok c ∧ s.Reach root c.hash
  stack : ∀ h ∈ w.stack.flatten, s.IsCommit h ∧ s.Reach root h

structure Yields (s : Store) (root : ObjectID) (seenExternal : List ObjectID) (w : CommitPreIterator)
    (c : Commit) (w' : CommitPreIterator) : Prop where
  getCommit : s.getCommit c.hash = .ok c
  reach : s.Reach root c.hash
  unseen : c.hash ∉ w.seen ∧ c.hash ∉ seenExternal
  valid : w'.Valid s root
  seen : w'.seen = c.hash :: w.seen
  pending : ∀ h ∈ w.pending, h ∈ w'.seen ∨ h ∈ seenExternal ∨ h ∈ w'.pending
  parents : ∀ p ∈ c.parentHashes, p ∈ w'.seen ∨ p ∈ w'.pending

lemma mem_stack_visit : h ∈ (w.visit c stack).stack.flatten ↔
      (h ∈ c.parentHashes ∧ h ∉ c.hash :: w.seen) ∨ h ∈ stack.flatten := by
  unfold visit
  split_ifs with hp
  · simp
  · have hnil : c.parentHashes = [] := length_eq_zero_iff.mp (by omega)
    simp [hnil]

lemma mem_pending : h ∈ w.pending ↔ h ∈ w.names := by simp [pending, names, eq_comm]

lemma Found.yields (hfound : Found s seenExternal w w.names c stack.flatten)
    (hnames : ∀ h ∈ w.names, s.IsCommit h ∧ s.Reach root h)
    (hparents : ∀ p ∈ c.parentHashes, s.IsCommit p ∧ s.Reach root p) :
    Yields s root seenExternal w c (w.visit c stack) where
  getCommit := hfound.getCommit
  reach := (hnames _ hfound.mem).2
  unseen := by simpa [skips] using hfound.unseen
  valid := by
    refine ⟨by simp [visit], fun h hh => ?_⟩
    rcases mem_stack_visit.mp hh with ⟨hp, -⟩ | hh
    · exact hparents h hp
    · exact hnames h (hfound.subset h hh)
  seen := rfl
  pending := by
    intro h hh
    rcases hfound.passed h (mem_pending.mp hh) with hskip | rfl | hh
    · rcases (by simpa [skips] using hskip : h ∈ w.seen ∨ h ∈ seenExternal) with hs | hs
      · exact .inl (.tail _ hs)
      · exact .inr (.inl hs)
    · exact .inl (.head _)
    · exact .inr (.inr (.inr (mem_stack_visit.mpr (.inr hh))))
  parents := by
    intro p hp
    by_cases hseen : p ∈ c.hash :: w.seen
    · exact .inl hseen
    · exact .inr (.inr (mem_stack_visit.mpr (.inl ⟨hp, hseen⟩)))

lemma parents_of_sound (hsound : ∀ h, s.Reach root h → s.Sound h)
    (hget : s.getCommit c.hash = .ok c) (hreach : s.Reach root c.hash) :
    ∀ p ∈ c.parentHashes, s.IsCommit p ∧ s.Reach root p := by
  obtain ⟨hrefs, -, hparents⟩ := (hsound _ hreach).of_getCommit hget
  exact fun p hp => ⟨hparents p hp, hreach.tail ((hrefs p).mpr (.inr hp))⟩

lemma next_spec (hsound : ∀ h, s.Reach root h → s.Sound h) (hw : w.Valid s root) (seenExternal : List ObjectID) :
    (w.next s seenExternal = .ok none ∧ ∀ h ∈ w.pending, h ∈ w.seen ∨ h ∈ seenExternal) ∨
      ∃ c w', w.next s seenExternal = .ok (some (c, w')) ∧ Yields s root seenExternal w c w' := by
  have hnames : ∀ h ∈ w.names, s.IsCommit h ∧ s.Reach root h := by
    intro h hh
    rcases mem_pending.mpr hh with ⟨c, hc, rfl⟩ | hh
    · obtain ⟨hget, hreach⟩ := hw.start c hc
      obtain ⟨c₀, hobject, -⟩ := Store.object_of_getCommit hget
      exact ⟨⟨c₀, hobject⟩, hreach⟩
    · exact hw.stack h hh
  have hnext := @next_found s seenExternal w fun c hc => (hw.start c hc).1
  cases hres : w.next s seenExternal with
  | error e =>
    rw [hres] at hnext
    obtain ⟨h, hh, he⟩ := hnext.exists_mem
    obtain ⟨c, hget, -⟩ := s.getCommit_of_isCommit (hnames h hh).1
    exact nomatch he.symm.trans hget
  | ok found =>
    rw [hres] at hnext
    cases found with
    | none => exact .inl ⟨rfl, fun h hh => by simpa [skips] using hnext h (mem_pending.mp hh)⟩
    | some found =>
      obtain ⟨stack, hvisit, hfound⟩ := hnext
      have hparents := parents_of_sound hsound hfound.getCommit (hnames _ hfound.mem).2
      exact .inr ⟨found.1, found.2, rfl, hvisit ▸ hfound.yields hnames hparents⟩

end CommitPreIterator

end CommitPreIteratorSpec

end GoGit
