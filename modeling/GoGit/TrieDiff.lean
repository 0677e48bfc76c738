import GoGit.TrieNode

namespace GoGit.Merkletrie

inductive Action
  | insert
  | delete
  | modify
  deriving DecidableEq

structure Change where
  From : Option Path
  To : Option Path

namespace Change

def newInsert (n : Path) : Change := ⟨none, some n⟩

def newDelete (n : Path) : Change := ⟨some n, none⟩

def newModify (a b : Path) : Change := ⟨some a, some b⟩

def action (c : Change) : Option Action :=
  match c.From, c.To with
  | none, none => none
  | none, some _ => some .insert
  | some _, none => some .delete
  | some _, some _ => some .modify

def key (c : Change) : List Bytes :=
  match c.To, c.From with
  | some p, _ => p.key
  | none, some p => p.key
  | none, none => []

end Change

abbrev Changes := List Change

def addLoop (ctor : Path → Change) : ℕ → Iter → Changes → Except Fault Changes
  | 0, _, _ => .error .outOfFuel
  | fuel + 1, i, l =>
    match i.step with
    | (.error .eof, _) => .ok l
    | (.error e, _) => .error e
    | (.ok current, i) =>
      if current.isDir = true ∨ current.skip = true then addLoop ctor fuel i l
      else addLoop ctor fuel i (l ++ [ctor current])

def addRecursive (ctor : Path → Change) (l : Changes) (root : Path) : Except Fault Changes :=
  if root.string = [] then .error .emptyFileName
  else if root.isDir = false then
    if root.skip = false then .ok (l ++ [ctor root]) else .ok l
  else addLoop ctor root.last.count (Iter.newIter (some root.last) root.nodes) l

def addRecursiveInsert : Changes → Path → Except Fault Changes := addRecursive .newInsert

def addRecursiveDelete : Changes → Path → Except Fault Changes := addRecursive .newDelete

structure Side where
  iter : Iter
  current : Option Path

/-- `turnEOFIntoNil` for the current noder and the iterator an advance leaves. -/
def turnEOFIntoNil : Except Fault Path × Iter → Except Fault Side
  | (.ok current, iter) => .ok ⟨iter, some current⟩
  | (.error .eof, iter) => .ok ⟨iter, none⟩
  | (.error e, _) => .error e

def Side.next (s : Side) : Except Fault Side := turnEOFIntoNil s.iter.next

def Side.step (s : Side) : Except Fault Side := turnEOFIntoNil s.iter.step

structure DoubleIter where
  From : Side
  To : Side

namespace DoubleIter

variable (d : DoubleIter)

def nextFrom : Except Fault DoubleIter := do
  return { d with From := ← d.From.next }

def nextTo : Except Fault DoubleIter := do
  return { d with To := ← d.To.next }

def nextBoth : Except Fault DoubleIter := do
  (← d.nextFrom).nextTo

def stepBoth : Except Fault DoubleIter := do
  return ⟨← d.From.step, ← d.To.step⟩

end DoubleIter

def newDoubleIter (fromTree toTree : Option Node) : Except Fault DoubleIter := do
  return ⟨← turnEOFIntoNil (Iter.newIter fromTree []).next, ← turnEOFIntoNil (Iter.newIter toTree []).next⟩

structure Comparison where
  sameHash : Bool
  bothAreFiles : Bool
  fileAndDir : Bool
  bothAreDirs : Bool
  fromIsEmptyDir : Bool
  toIsEmptyDir : Bool

section Diff

variable (hashEqual : Path → Path → Bool)

def compareCurrent (a b : Path) : Comparison where
  sameHash := hashEqual a b
  bothAreFiles := !a.isDir && !b.isDir
  fileAndDir := !(a.isDir && b.isDir) && !(!a.isDir && !b.isDir)
  bothAreDirs := a.isDir && b.isDir
  fromIsEmptyDir := a.isDir && a.last.numChildren == 0
  toIsEmptyDir := b.isDir && b.last.numChildren == 0

variable (changes : Changes)

/-- `diffDirs` on the current noders; its last case is never reached. -/
def diffDirs (a b : Path) (ii : DoubleIter) : Except Fault (Changes × DoubleIter) := do
  let status := compareCurrent hashEqual a b
  if status.fromIsEmptyDir then
    let changes ← addRecursiveInsert changes b
    return (changes, ← ii.nextBoth)
  else if status.toIsEmptyDir then
    let changes ← addRecursiveDelete changes a
    return (changes, ← ii.nextBoth)
  else return (changes, ← ii.stepBoth)

def diffNodesSameName (a b : Path) (ii : DoubleIter) : Except Fault (Changes × DoubleIter) := do
  let status := compareCurrent hashEqual a b
  if status.sameHash then return (changes, ← ii.nextBoth)
  else if status.bothAreFiles then return (changes ++ [.newModify a b], ← ii.nextBoth)
  else if status.fileAndDir then
    let changes ← addRecursiveDelete changes a
    let changes ← addRecursiveInsert changes b
    return (changes, ← ii.nextBoth)
  else if status.bothAreDirs then diffDirs hashEqual changes a b ii
  else .error .badStatus

def diffNodes (a b : Path) (ii : DoubleIter) : Except Fault (Changes × DoubleIter) := do
  if a.compare b = -1 then
    let changes ← addRecursiveDelete changes a
    return (changes, ← ii.nextFrom)
  else if a.compare b = 1 then
    let changes ← addRecursiveInsert changes b
    return (changes, ← ii.nextTo)
  else diffNodesSameName hashEqual changes a b ii

/-- One round of the loop while both tries have noders. -/
def diffBoth (a b : Path) (ii : DoubleIter) : Except Fault (Changes × DoubleIter) := do
  if a.skip then
    if a.name = b.name then return (changes, ← ii.nextBoth) else return (changes, ← ii.nextFrom)
  else if b.skip then
    if a.name = b.name then return (changes, ← ii.nextBoth) else return (changes, ← ii.nextTo)
  else diffNodes hashEqual changes a b ii

/-- One round of the loop, or none at its end. -/
def diffRound (ret : Changes) (ii : DoubleIter) : Except Fault (Option (Changes × DoubleIter)) := do
  match ii.From.current, ii.To.current with
  | none, none => return none
  | some a, none =>
    let ret ← if a.skip then pure ret else addRecursiveDelete ret a
    return some (ret, ← ii.nextFrom)
  | none, some b =>
    let ret ← if b.skip then pure ret else addRecursiveInsert ret b
    return some (ret, ← ii.nextTo)
  | some a, some b => return some (← diffBoth hashEqual ret a b ii)

def diffLoop : ℕ → Changes → DoubleIter → Except Fault Changes
  | 0, _, _ => .error .outOfFuel
  | fuel + 1, ret, ii => do
    match ← diffRound hashEqual ret ii with
    | none => return ret
    | some (ret, ii) => diffLoop fuel ret ii

def treeCount (tree : Option Node) : ℕ := (tree.map Node.count).getD 0

/-- `DiffTree`; every round passes a noder or enters a directory. -/
def DiffTree (fromTree toTree : Option Node) : Except Fault Changes := do
  diffLoop hashEqual (treeCount fromTree + treeCount toTree + 1) [] (← newDoubleIter fromTree toTree)

end Diff

end GoGit.Merkletrie
