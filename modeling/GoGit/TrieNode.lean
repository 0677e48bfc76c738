import GoGit.PackError
import GoGit.PathOrder

namespace GoGit.Merkletrie

open PathOrder

inductive Node
  | file (name hash : Bytes) (skip : Bool)
  | dir (name hash : Bytes) (children : List Node) (skip : Bool)

namespace Node

def name : Node → Bytes
  | .file name _ _ => name
  | .dir name _ _ _ => name

def hash : Node → Bytes
  | .file _ hash _ => hash
  | .dir _ hash _ _ => hash

def isDir : Node → Bool
  | .file .. => false
  | .dir .. => true

def children : Node → List Node
  | .file .. => []
  | .dir _ _ children _ => children

def skip : Node → Bool
  | .file _ _ skip => skip
  | .dir _ _ _ skip => skip

def numChildren (n : Node) : ℕ := n.children.length

mutual

def count : Node → ℕ
  | .file .. => 1
  | .dir _ _ children _ => countAll children + 1

def countAll : List Node → ℕ
  | [] => 0
  | n :: ns => count n + countAll ns

end

end Node

structure Path where
  ancestors : List Node
  last : Node

namespace Path

def nodes (p : Path) : List Node := p.ancestors ++ [p.last]

def key (p : Path) : List Bytes := p.nodes.map Node.name

def name (p : Path) : Bytes := p.last.name

def isDir (p : Path) : Bool := p.last.isDir

def skip (p : Path) : Bool := p.last.skip

def child (p : Path) (n : Node) : Path := ⟨p.nodes, n⟩

/-- `String`: the names, with a slash between them. -/
def string (p : Path) : Bytes := [0x2f].intercalate p.key

end Path

def stringsCompare (a b : Bytes) : ℤ := if a < b then -1 else if a = b then 0 else 1

def compareNodes : List Node → List Node → ℤ
  | [], [] => 0
  | _ :: _, [] => 1
  | [], _ :: _ => -1
  | a :: p, b :: other =>
    if stringsCompare a.name b.name ≠ 0 then stringsCompare a.name b.name else compareNodes p other

def Path.compare (p other : Path) : ℤ := compareNodes p.nodes other.nodes

inductive Fault
  | eof
  | emptyFileName
  | badStatus
  | panic
  | outOfFuel
  deriving DecidableEq

abbrev Frame := List Node

def Frame.new (n : Node) : Frame := n.children.insertionSort fun a b => a.name ≤ b.name

structure Iter where
  hasStarted : Bool := false
  frameStack : List Frame
  base : List Node

namespace Iter

def newIter (root : Option Node) (base : List Node) : Iter :=
  match root with
  | none => { frameStack := [], base := base }
  | some root => { frameStack := [Frame.new root], base := base }

def firsts : List Frame → Option (List Node)
  | [] => some []
  | [] :: _ => none
  | (n :: _) :: stack => (firsts stack).map (· ++ [n])

/-- The path to the current noder; an empty frame below the top panics. -/
def current (iter : Iter) : Except Fault Path :=
  match iter.frameStack with
  | [] => .error .eof
  | [] :: _ => .error .eof
  | (n :: _) :: stack =>
    match firsts stack with
    | none => .error .panic
    | some ancestors => .ok ⟨iter.base ++ ancestors, n⟩

/-- `drop`: the current noder goes, and with it the frames that become empty. -/
def drop : List Frame → List Frame
  | [] => []
  | top :: stack => if top.tail = [] then drop stack else top.tail :: stack

/-- The first call stays where the iterator is. -/
def advance (wantDescend : Bool) (iter : Iter) : Except Fault Path × Iter :=
  match iter.current with
  | .error e => (.error e, iter)
  | .ok current =>
    if iter.hasStarted = false then (.ok current, { iter with hasStarted := true })
    else
      let mustDescend := current.last.numChildren ≠ 0 ∧ wantDescend = true
      let iter := { iter with
        frameStack := if mustDescend then Frame.new current.last :: iter.frameStack
          else drop iter.frameStack }
      (iter.current, iter)

def next : Iter → Except Fault Path × Iter := advance false

def step : Iter → Except Fault Path × Iter := advance true

end Iter

end GoGit.Merkletrie
