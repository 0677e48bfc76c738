import GoGit.ObjectStore
import GoGit.PathOrder

/-! A commit-graph holds the commits of a part of the history that is closed under parents. A commit that is in it is
read from it, any other one from the object store. -/
namespace GoGit.CommitGraph

inductive Fault
  | objectNotFound
  | unsupportedVersion
  | unsupportedHash
  | malformedCommitGraphFile
  | io (e : IoError)
  | readHash (e : IoError)
  | panic
  deriving DecidableEq, Repr

structure CommitData where
  parentIndexes : List ℕ := []
  parentHashes : List ObjectID
  generation : UInt64
  generationV2 : UInt64
  when : Time
  deriving DecidableEq

def maxUint64 : UInt64 := 0xffffffffffffffff

structure Index where
  getIndexByHash : ObjectID → Except Fault ℕ
  getCommitDataByIndex : ℕ → Except Fault CommitData

end GoGit.CommitGraph

namespace GoGit

inductive CommitNode
  | graph (hash : ObjectID) (index : ℕ) (data : CommitGraph.CommitData)
  | object (commit : Commit)
  deriving DecidableEq

namespace CommitNode

inductive Fault
  | graph (cause : CommitGraph.Fault)
  | object (cause : ObjectError)
  | parentNotFound
  | indexOutOfRange
  | endless
  deriving DecidableEq

def id : CommitNode → ObjectID
  | graph hash _ _ => hash
  | object commit => commit.hash

def commitTime : CommitNode → Time
  | graph _ _ data => data.when
  | object commit => commit.committer.when

def parentHashes : CommitNode → List ObjectID
  | graph _ _ data => data.parentHashes
  | object commit => commit.parentHashes

/-- A commit outside of the graph has the highest value. -/
def generation : CommitNode → UInt64
  | graph _ _ data => data.generation
  | object _ => CommitGraph.maxUint64

def generationV2 : CommitNode → UInt64
  | graph _ _ data => data.generationV2
  | object _ => CommitGraph.maxUint64

end CommitNode

structure CommitNodeIndex where
  commitGraph : Option CommitGraph.Index
  s : Store

namespace CommitNodeIndex

variable (gci : CommitNodeIndex)

def getObject (h : ObjectID) : Except CommitNode.Fault CommitNode :=
  match gci.s.getCommit h with
  | .error e => .error (.object e)
  | .ok c => .ok (.object c)

def get (h : ObjectID) : Except CommitNode.Fault CommitNode :=
  match gci.commitGraph with
  | none => gci.getObject h
  | some g =>
    match g.getIndexByHash h with
    | .error _ => gci.getObject h
    | .ok i =>
      match g.getCommitDataByIndex i with
      | .error e => .error (.graph e)
      | .ok data => .ok (.graph h i data)

/-- `ParentNode`: the parents of a commit in the graph are looked up by their numbers. -/
def parentNode (n : CommitNode) (i : ℕ) : Except CommitNode.Fault CommitNode :=
  match n with
  | .object commit =>
    match commit.parentHashes[i]? with
    | none => .error .parentNotFound
    | some h => gci.get h
  | .graph _ _ data =>
    match data.parentIndexes[i]?, gci.commitGraph with
    | none, _ => .error .parentNotFound
    | some _, none => .error .indexOutOfRange
    | some index, some g =>
      match g.getCommitDataByIndex index, data.parentHashes[i]? with
      | .error e, _ => .error (.graph e)
      | .ok _, none => .error .indexOutOfRange
      | .ok parent, some h => .ok (.graph h index parent)

end CommitNodeIndex

/-- What the iterators ask of a container of nodes; a list stands for its inner state. -/
structure Stackable where
  push : List CommitNode → CommitNode → List CommitNode
  pop : List CommitNode → Option (CommitNode × List CommitNode)
  push_perm : ∀ l a, (push l a).Perm (a :: l)
  pop_nil : pop [] = none
  pop_perm : ∀ l, l ≠ [] → ∃ a rest, pop l = some (a, rest) ∧ l.Perm (a :: rest)

namespace Stackable

variable (S : Stackable)

def peek (l : List CommitNode) : Option CommitNode := (S.pop l).map Prod.fst

inductive Built : List CommitNode → Prop
  | nil : Built []
  | push {l : List CommitNode} (a : CommitNode) (h : Built l) : Built (S.push l a)
  | pop {l rest : List CommitNode} {a : CommitNode} (h : Built l) (hp : S.pop l = some (a, rest)) :
      Built rest

/-- `commitNodeLifo`, the top of the stack in front. -/
def lifo : Stackable where
  push l a := a :: l
  pop
    | [] => none
    | a :: rest => some (a, rest)
  push_perm _ _ := .rfl
  pop_nil := rfl
  pop_perm := by
    intro l hl
    obtain ⟨a, rest, rfl⟩ := List.exists_cons_of_ne_nil hl
    exact ⟨a, rest, rfl, .rfl⟩

end Stackable

def maxInt64 : UInt64 := 0x7fffffffffffffff

/-- Newer and higher generations come first. The second test for a commit outside of the graph asks
for another number than the first one. -/
def generationAndDateOrderComparator (left right : CommitNode) : ℤ :=
  let byTime : ℤ :=
    if right.commitTime.before left.commitTime then -1
    else if left.commitTime.before right.commitTime then 1
    else 0
  if left.generationV2 = CommitGraph.maxUint64 then
    if right.generationV2 = CommitGraph.maxUint64 then byTime else -1
  else if right.generationV2 = maxInt64 then 1
  else if left.generationV2 = 0 ∨ right.generationV2 = 0 then
    if left.generation < right.generation then 1
    else if right.generation < left.generation then -1
    else byTime
  else if left.generationV2 < right.generationV2 then 1
  else if right.generationV2 < left.generationV2 then -1
  else 0

end GoGit
