import GoGit.CommitNode

/-! Exploring a commit counts it for each of its parents; a parent is given out once the commits counted for it have
been. The exploration runs ahead of the visits by the order of a heap. -/
namespace GoGit.CommitTopo

open CommitNode (Fault)

structure Iterator where
  exploreStack : List CommitNode
  visitStack : List CommitNode
  inCounts : ObjectID → ℤ := fun _ => 0
  ignore : List ObjectID := []

/-- `NewCommitNodeIterTopoOrder` and `NewCommitNodeIterDateOrder`, by the container of the visits. -/
def newIterator (heap visits : Stackable) (c : CommitNode) (ignore : List ObjectID) : Iterator :=
  { exploreStack := heap.push [] c, visitStack := visits.push [] c, ignore }

section

variable (gci : CommitNodeIndex) (heap visits : Stackable)

/-- Pops up to a commit that nothing is counted for; each turn takes one off the stack. -/
def popVisit (inCounts : ObjectID → ℤ) : ℕ → List CommitNode → Option (CommitNode × List CommitNode)
  | 0, _ => none
  | n + 1, stack =>
    match visits.pop stack with
    | none => none
    | some (c, rest) => if inCounts c.id = 0 then some (c, rest) else popVisit inCounts n rest

def loadParents (n : CommitNode) : Except Fault (List CommitNode) :=
  (List.range n.parentHashes.length).mapM (gci.parentNode n)

def level (v2 : Bool) (n : CommitNode) : UInt64 := if v2 then n.generationV2 else n.generation

def minimumLevel (v2 : Bool) (next : CommitNode) (parents : List CommitNode) : UInt64 :=
  parents.foldl (fun m pc => if level v2 pc < m then level v2 pc else m) (level v2 next)

/-- Counts a commit for its parents from the `i`-th on; a parent met for the first time will be
explored. -/
def countParents (toExplore : CommitNode) : ℕ → List ObjectID → Iterator → Except Fault Iterator
  | _, [], iter => .ok iter
  | i, h :: hashes, iter =>
    if h ∈ iter.ignore then countParents toExplore (i + 1) hashes iter
    else
      let inCounts := Function.update iter.inCounts h (iter.inCounts h + 1)
      if inCounts h = 1 then
        match gci.parentNode toExplore i with
        | .error e => .error e
        | .ok pc => countParents toExplore (i + 1) hashes
            { iter with inCounts, exploreStack := heap.push iter.exploreStack pc }
      else countParents toExplore (i + 1) hashes { iter with inCounts }

def explore (next : CommitNode) (v2 : Bool) (minimum : UInt64) : ℕ → Iterator → Except Fault Iterator
  | 0, _ => .error .endless
  | fuel + 1, iter =>
    match heap.pop iter.exploreStack with
    | none => .ok iter
    | some (toExplore, rest) =>
      if toExplore.id ≠ next.id ∧ iter.exploreStack.length = 1 then .ok iter
      else if level v2 toExplore < minimum then .ok iter
      else
        match countParents gci heap toExplore 0 toExplore.parentHashes
          { iter with exploreStack := rest } with
        | .error e => .error e
        | .ok iter => explore next v2 minimum fuel iter

def visitParents : List (ObjectID × CommitNode) → Iterator → Iterator
  | [], iter => iter
  | (h, pc) :: parents, iter =>
    if h ∈ iter.ignore then visitParents parents iter
    else
      let inCounts := Function.update iter.inCounts h (iter.inCounts h - 1)
      if inCounts h = 0 then
        visitParents parents { iter with inCounts, visitStack := visits.push iter.visitStack pc }
      else visitParents parents { iter with inCounts }

/-- The graph is explored down to the lowest parent before a parent is visited. -/
def next (fuel : ℕ) (iter : Iterator) : Except Fault (Option (CommitNode × Iterator)) :=
  match popVisit visits iter.inCounts iter.visitStack.length iter.visitStack with
  | none => .ok none
  | some (next, rest) =>
    let v2 := next.generationV2 ≠ 0
    match loadParents gci next with
    | .error e => .error e
    | .ok parents =>
      match explore gci heap next v2 (minimumLevel v2 next parents) fuel
        { iter with visitStack := rest } with
      | .error e => .error e
      | .ok iter =>
        let iter := visitParents visits (next.parentHashes.zip parents) iter
        .ok (some (next, { iter with inCounts := Function.update iter.inCounts next.id 0 }))

def collect (steps : ℕ) : ℕ → Iterator → Except Fault (List CommitNode)
  | 0, _ => .error .endless
  | fuel + 1, iter =>
    match next gci heap visits steps iter with
    | .error e => .error e
    | .ok none => .ok []
    | .ok (some (c, iter)) => (collect steps fuel iter).map (c :: ·)

end

end GoGit.CommitTopo
