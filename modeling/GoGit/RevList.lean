import GoGit.ObjectWalk

/-! The objects reachable from some names, without those reachable from others. The loops are counted by a fuel; when
it runs out the result is the error `endless`. What has been seen and what has been collected stay as they are at an
error, since the caller may go on with them. -/
namespace GoGit.RevList

structure Walk where
  seen : List ObjectID
  result : List ObjectID := []
  deriving DecidableEq

def Walk.add (w : Walk) (h : ObjectID) : Walk :=
  if h ∈ w.seen then w else ⟨h :: w.seen, h :: w.result⟩

/-- The tables after a walk, and the error that ended it. -/
abbrev Outcome := Walk × Option ObjectError

section

variable (s : Store)

def walkTree : ℕ → TreeWalker → Walk → Outcome
  | 0, _, w => (w, some .endless)
  | fuel + 1, walker, w =>
    match walker.next s w.seen with
    | (.error e, _) => (w, if e = .eof then none else some e)
    | (.ok (_, e), walker) =>
      if e.mode = FileMode.submodule then walkTree fuel walker w
      else if e.hash ∈ w.seen then walkTree fuel walker w
      else walkTree fuel walker (w.add e.hash)

def iterateCommitTrees (fuel : ℕ) (tree : Tree) (w : Walk) : Outcome :=
  if tree.hash ∈ w.seen then (w, none)
  else walkTree s fuel (NewTreeWalker tree true) (w.add tree.hash)

def addPendingParents (pending visited : List ObjectID) (c : Commit) : List ObjectID :=
  c.parentHashes.foldl (fun pending p => if p ∈ visited ∨ p ∈ pending then pending else p :: pending)
    pending

/-- The loop over the commits; `steps` is the fuel of the walk over each tree. -/
def walkCommits (steps : ℕ) (visited : List ObjectID) : ℕ → CommitPreIterator → List ObjectID → Walk → Outcome
  | 0, _, _, w => (w, some .endless)
  | fuel + 1, i, pending, w =>
    match i.next s w.seen with
    | .error e => (w, some e)
    | .ok none => (w, none)
    | .ok (some (c, i)) =>
      let pending := addPendingParents (pending.filter (· ≠ c.hash)) visited c
      if c.hash ∈ visited ∧ pending = [] then (w, none)
      else if c.hash ∈ w.seen then walkCommits steps visited fuel i pending w
      else
        let w := w.add c.hash
        match s.getTree c.treeHash with
        | .error e => (w, some e)
        | .ok tree =>
          match iterateCommitTrees s steps tree w with
          | (w, some e) => (w, some e)
          | (w, none) => walkCommits steps visited fuel i pending w

def reachableObjects (fuel : ℕ) (c : Commit) (visited ignore : List ObjectID) (w : Walk) : Outcome :=
  walkCommits s fuel visited fuel (NewCommitPreorderIter c ignore)
    (addPendingParents [] visited c) w

/-- The first fuel counts the tags that are followed. -/
def processObject (visited ignore : List ObjectID) (fuel : ℕ) : ℕ → ObjectID → Walk → Outcome
  | 0, _, w => (w, some .endless)
  | tags + 1, h, w =>
    if h ∈ w.seen then (w, none)
    else
      match s.encodedObject .any h with
      | .error e => (w, some (.wrap "getting object" e))
      | .ok o =>
        match Store.decodeObject o with
        | .error e => (w, some (.wrap "decoding object" e))
        | .ok (.commit c) => reachableObjects s fuel { c with hash := h } visited ignore w
        | .ok (.tree entries) => iterateCommitTrees s fuel ⟨h, entries⟩ w
        | .ok (.tag target) => processObject visited ignore fuel tags target (w.add h)
        | .ok .blob => (w.add h, none)
        | .ok (.corrupt _) => (w, some .invalidType)

def processObjects (visited ignore : List ObjectID) (allowMissingObjects : Bool) (fuel : ℕ) :
    List ObjectID → Walk → Outcome
  | [], w => (w, none)
  | h :: rest, w =>
    match processObject s visited ignore fuel fuel h w with
    | (w, none) => processObjects visited ignore allowMissingObjects fuel rest w
    | (w, some e) =>
      if allowMissingObjects ∧ e.root = .objectNotFound then
        processObjects visited ignore allowMissingObjects fuel rest w
      else (w, some e)

/-- `order` is the order in which the table of results is read out. -/
def objects (order : List ObjectID → List ObjectID) (fuel : ℕ) (objs ignore : List ObjectID)
    (allowMissingObjects : Bool) : Except ObjectError (List ObjectID) :=
  match processObjects s [] ignore allowMissingObjects fuel objs ⟨ignore, []⟩ with
  | (w, none) => .ok (order w.result)
  | (_, some e) => .error e

end

def ObjectsWithStorageForIgnores (s ignoreStore : Store) (order : List ObjectID → List ObjectID)
    (fuel : ℕ) (objs ignore : List ObjectID) : Except ObjectError (List ObjectID) :=
  match objects ignoreStore order fuel ignore [] true with
  | .error e => .error e
  | .ok ignore => objects s order fuel objs ignore false

def Objects (s : Store) (order : List ObjectID → List ObjectID) (fuel : ℕ)
    (objs ignore : List ObjectID) : Except ObjectError (List ObjectID) :=
  ObjectsWithStorageForIgnores s s order fuel objs ignore

end GoGit.RevList
