import GoGit.FileTree
import GoGit.Lines
import GoGit.Object
import GoGit.SlashPath
import GoGit.Trim

namespace GoGit

open SlashPath (Component)

inductive DotGitError
  | notExist
  | isDir
  | notDir
  | notEmpty
  | crossedBoundary
  | emptyRefFile
  | packedRefsBadFormat
  | tooLong
  | referenceNotFound
  | referenceHasChanged
  deriving DecidableEq

structure DotGit where
  root : FileTree Component Bytes
  wf : root.Wf

namespace DotGit

def packedRefsPath : Component :=
  ⟨[0x70, 0x61, 0x63, 0x6b, 0x65, 0x64, 0x2d, 0x72, 0x65, 0x66, 0x73], by decide⟩

def refsPath : Component := ⟨[0x72, 0x65, 0x66, 0x73], by decide⟩

def headName : Component := ⟨[0x48, 0x45, 0x41, 0x44], by decide⟩

def write (d : DotGit) (name : Component) (content : Bytes) : Except DotGitError DotGit :=
  if h : d.root.dirAt [name] = none then .ok ⟨d.root.put name content, d.wf.put h content⟩
  else .error .isDir

def remove (d : DotGit) (path : List Component) : Except DotGitError DotGit :=
  match d.root.fileAt path, d.root.dirAt path with
  | none, none => .error .notExist
  | none, some sub =>
    if sub = .empty then .ok ⟨d.root.remove path, d.wf.remove path⟩ else .error .notEmpty
  | some _, _ => .ok ⟨d.root.remove path, d.wf.remove path⟩

def readReferenceFrom (content : Bytes) (name : ReferenceName) : Except DotGitError Reference :=
  if content = [] then .error .emptyRefFile
  else .ok (.newReferenceFromStrings name (Trim.trimSpace content))

def readReferenceFile (d : DotGit) (name : ReferenceName) : Except DotGitError Reference :=
  match SlashPath.path name with
  | none => .error .crossedBoundary
  | some path =>
    match d.root.fileAt path with
    | some content => readReferenceFrom content name
    | none => .error (if (d.root.dirAt path).isSome then .isDir else .notExist)

def addRef (refs : List Reference) (r : Reference) : List Reference :=
  if r.name ∈ refs.map Reference.name then refs else refs ++ [r]

/-- The first reference of a name is kept. -/
def walkReferencesTree (refs : List Reference) (relPath : List Component) :
    FileTree Component Bytes → Except DotGitError (List Reference)
  | .empty => .ok refs
  | .dir name sub rest => do
    let refs ← walkReferencesTree refs (relPath ++ [name]) sub
    walkReferencesTree refs relPath rest
  | .file name content rest => do
    let ref ← readReferenceFrom content (SlashPath.text (relPath ++ [name]))
    walkReferencesTree (addRef refs ref) relPath rest

def addRefsFromRefDir (d : DotGit) : Except DotGitError (List Reference) :=
  match d.root.dirAt [refsPath] with
  | none => if d.root.fileAt [refsPath] = none then .ok [] else .error .notDir
  | some refs => walkReferencesTree [] [refsPath] refs

def addRefFromHEAD (d : DotGit) : Except DotGitError (List Reference) :=
  match d.readReferenceFile headName.name with
  | .ok ref => .ok [ref]
  | .error .notExist => .ok []
  | .error e => .error e

/-- The reference in a line; none in a comment, and none in a line that peels the tag before it. -/
def processLine (line : Bytes) : Except DotGitError (Option Reference) :=
  match line with
  | [] => .ok none
  | 0x23 :: _ => .ok none
  | 0x5e :: _ => .ok none
  | _ =>
    match line.splitOn 0x20 with
    | [target, name] => .ok (some (.newReferenceFromStrings name target))
    | _ => .error .packedRefsBadFormat

def scanLines (text : Bytes) : List Bytes × Bool := Lines.scan 0x0a 0x0d 65536 text

/-- The lines are gone through as long as `recv` goes on; at the end of them the error of the scanner
is returned, if a line was too long. -/
def findPackedRefsInFile {σ : Type} (recv : σ → Option Reference → σ × Bool) (long : Bool) :
    σ → List Bytes → Except DotGitError σ
  | s, [] => if long then .error .tooLong else .ok s
  | s, line :: lines =>
    match processLine line with
    | .error e => .error e
    | .ok ref =>
      match recv s ref with
      | (s, true) => findPackedRefsInFile recv long s lines
      | (s, false) => .ok s

def openPackedRefs (d : DotGit) : Except DotGitError (Option Bytes) :=
  match d.root.fileAt [packedRefsPath] with
  | some text => .ok (some text)
  | none => if d.root.dirAt [packedRefsPath] = none then .ok none else .error .isDir

def findPackedRefs {σ : Type} (d : DotGit) (recv : σ → Option Reference → σ × Bool) (s : σ) :
    Except DotGitError σ :=
  match d.openPackedRefs with
  | .error e => .error e
  | .ok none => .ok s
  | .ok (some text) => findPackedRefsInFile recv (scanLines text).2 s (scanLines text).1

def refsRecvFunc (refs : List Reference) (r : Option Reference) : List Reference × Bool :=
  (r.elim refs (addRef refs), true)

def recvNamed (name : ReferenceName) (ref r : Option Reference) : Option Reference × Bool :=
  if r.map Reference.name = some name then (r, false) else (ref, true)

def packedRef (d : DotGit) (name : ReferenceName) : Except DotGitError Reference := do
  let ref ← d.findPackedRefs (recvNamed name) none
  ref.elim (.error .referenceNotFound) .ok

def Ref (d : DotGit) (name : ReferenceName) : Except DotGitError Reference :=
  match d.readReferenceFile name with
  | .ok ref => .ok ref
  | .error _ => d.packedRef name

/-- All references; the one at the head is not among those that have been seen. -/
def Refs (d : DotGit) : Except DotGitError (List Reference) := do
  let head ← d.addRefFromHEAD
  let refs ← d.addRefsFromRefDir
  let refs ← d.findPackedRefs refsRecvFunc refs
  return head ++ refs

def removeLoose (d : DotGit) (r : Reference) : Except DotGitError DotGit :=
  match SlashPath.path r.name with
  | none => .error .crossedBoundary
  | some path =>
    match d.remove path with
    | .error .notExist => .ok d
    | result => result

def openAndLockPackedRefs (d : DotGit) : Except DotGitError (DotGit × Bytes) :=
  match d.root.fileAt [packedRefsPath] with
  | some text => .ok (d, text)
  | none => (d.write packedRefsPath []).map (·, [])

/-- All references are written to the file, and then the loose ones are removed. -/
def packInto (d : DotGit) (loose : List Reference) (text : Bytes) : Except DotGitError DotGit := do
  let refs ← findPackedRefsInFile refsRecvFunc (scanLines text).2 loose (scanLines text).1
  let d ← d.write packedRefsPath (Lines.join 0x0a (refs.map Reference.string))
  (refs.take loose.length).foldlM removeLoose d

def PackRefs (d : DotGit) : Except DotGitError DotGit := do
  let (d, text) ← d.openAndLockPackedRefs
  let loose ← d.addRefsFromRefDir
  if loose = [] then .ok d else d.packInto loose text

def linesWithoutRef (name : ReferenceName) : List Bytes → Except DotGitError (List Bytes × Bool)
  | [] => .ok ([], false)
  | line :: lines => do
    let ref ← processLine line
    let (kept, found) ← linesWithoutRef name lines
    if ref.map Reference.name = some name then return (kept, true) else return (line :: kept, found)

def rewritePackedRefsWithoutRef (d : DotGit) (name : ReferenceName) : Except DotGitError DotGit := do
  match ← d.openPackedRefs with
  | none => .ok d
  | some text =>
    let (kept, found) ← linesWithoutRef name (scanLines text).1
    if (scanLines text).2 then .error .tooLong
    else if found then d.write packedRefsPath (Lines.join 0x0a kept) else .ok d

/-- Removes the file, which may be missing, and the packed line. -/
def RemoveRef (d : DotGit) (name : ReferenceName) : Except DotGitError DotGit :=
  match SlashPath.path name with
  | none => .error .crossedBoundary
  | some path =>
    match d.remove path with
    | .ok d => d.rewritePackedRefsWithoutRef name
    | .error .notExist => d.rewritePackedRefsWithoutRef name
    | .error e => .error e

end DotGit

end GoGit
