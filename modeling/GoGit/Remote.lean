import GoGit.CommitPreorder
import GoGit.ReceivePack
import GoGit.RefSpec

namespace GoGit

open ReceivePack (Command)

inductive RemoteError
  | nonFastForward (name : ReferenceName)
  | wildcardWithHash
  | resolve (e : ResolveError)
  | object (e : ObjectError)
  deriving DecidableEq

structure ForceWithLease where
  refName : ReferenceName
  hash : ObjectID
  deriving DecidableEq

/-- `strings.ReplaceAll` with nothing: `skip` bytes belong to what is left out. -/
def removeAll (old : Bytes) : ℕ → Bytes → Bytes
  | _, [] => []
  | skip + 1, _ :: b => removeAll old skip b
  | 0, a :: b => if old <+: a :: b then removeAll old (old.length - 1) b else a :: removeAll old 0 b

structure Remote where
  name : Bytes
  objects : Store
  refs : ReferenceName → Option Reference

def lookupRef (refs : List Reference) (n : ReferenceName) : Option Reference := refs.find? (·.name = n)

/-- The dictionary of references, in which the last one of a name is found. -/
def refsDict (localRefs : List Reference) : ReferenceName → Option Reference := lookupRef localRefs.reverse

namespace Remote

variable (rs : RefSpec) (remoteRefs : List Reference)

def deleteReference (refsDict : ReferenceName → Option Reference) (prune : Bool)
    (cmds : List Command) (ref : Reference) : List Command :=
  match ref.target with
  | .symbolic _ => cmds
  | .hash h =>
    let kept :=
      if prune then !rs.Reverse.Match ref.name || (refsDict (rs.Reverse.Dst ref.name)).isSome
      else rs.Dst [] ≠ ref.name
    if kept then cmds else cmds ++ [⟨ref.name, h, .zeroHash⟩]

def deleteReferences (refsDict : ReferenceName → Option Reference)
    (cmds : List Command) (prune : Bool) : List Command :=
  remoteRefs.foldl (deleteReference rs refsDict prune) cmds

/-- The storage without the references that are pruned, and whether there were any. -/
def pruneRemotes {σ : Type} (S : ReferenceStorer σ) (specs : List RefSpec) (localRefs remoteRefs : List Reference)
    (s : σ) : σ × Bool :=
  specs.foldl (fun acc spec =>
    let rev := spec.Reverse
    localRefs.foldl (fun (s, updatedPrune) ref =>
      if rev.Match ref.name ∧ lookupRef remoteRefs (rev.Dst ref.name) = none then
        (S.removeReference s ref.name, true)
      else (s, updatedPrune)) acc) (s, false)

variable (r : Remote)

def checkFastForwardUpdate (cmd : Command) : Except RemoteError Unit :=
  if cmd.old = .zeroHash then
    if lookupRef remoteRefs cmd.name = none then .ok () else .error (.nonFastForward cmd.name)
  else
    match isFastForward r.objects cmd.old cmd.new none with
    | .error e => .error (.object e)
    | .ok ff => if ff then .ok () else .error (.nonFastForward cmd.name)

def headsPath : Bytes := [0x72, 0x65, 0x66, 0x73, 0x2f, 0x68, 0x65, 0x61, 0x64, 0x73, 0x2f]

def remotesPath : Bytes := [0x72, 0x65, 0x66, 0x73, 0x2f, 0x72, 0x65, 0x6d, 0x6f, 0x74, 0x65, 0x73, 0x2f]

/-- Where the repository keeps what it knows of a reference of the remote. -/
def tracking (n : ReferenceName) : ReferenceName := remotesPath ++ r.name ++ [0x2f] ++ removeAll headsPath 0 n

/-- A lease for another reference lets the command pass. -/
def checkForceWithLease (localRef : Reference) (cmd : Command) (forceWithLease : ForceWithLease) :
    Except RemoteError Unit :=
  match ResolveReference r.refs (r.tracking localRef.name) with
  | .error e => .error (.resolve e)
  | .ok ref =>
    if forceWithLease.refName = [] ∨ forceWithLease.refName = cmd.name then
      let expectedOID := if !forceWithLease.hash.IsZero then forceWithLease.hash else ref.hash
      if cmd.old ≠ expectedOID then .error (.nonFastForward cmd.name) else .ok ()
    else .ok ()

/-- The value of the remote reference of a command, or none if it is symbolic. -/
def oldValue (n : ReferenceName) : Option ObjectID :=
  match lookupRef remoteRefs n with
  | none => some .zeroHash
  | some ref =>
    match ref.target with
    | .hash h => some h
    | .symbolic _ => none

def addObject (localObject : ObjectID) (cmds : List Command) :
    Except RemoteError (List Command) :=
  if rs.IsWildcard then .error .wildcardWithHash
  else
    match oldValue remoteRefs (rs.Dst []) with
    | none => .ok cmds
    | some old =>
      let cmd : Command := ⟨rs.Dst [], old, localObject⟩
      if cmd.old = cmd.new then .ok cmds
      else
        match (if !rs.IsForceUpdate then r.checkFastForwardUpdate remoteRefs cmd else .ok ()) with
        | .error e => .error e
        | .ok () => .ok (cmds ++ [cmd])

/-- A lease is checked even if the refspec forces the update. -/
def addReferenceIfRefSpecMatches (localRef : Reference)
    (cmds : List Command) (forceWithLease : Option ForceWithLease) : Except RemoteError (List Command) :=
  match localRef.target with
  | .symbolic _ => .ok cmds
  | .hash new =>
    if !rs.Match localRef.name then .ok cmds
    else
      match oldValue remoteRefs (rs.Dst localRef.name) with
      | none => .ok cmds
      | some old =>
        let cmd : Command := ⟨rs.Dst localRef.name, old, new⟩
        if cmd.old = cmd.new then .ok cmds
        else
          let checked :=
            match forceWithLease with
            | some lease => r.checkForceWithLease localRef cmd lease
            | none => if !rs.IsForceUpdate then r.checkFastForwardUpdate remoteRefs cmd else .ok ()
          match checked with
          | .error e => .error e
          | .ok () => .ok (cmds ++ [cmd])

def addOrUpdateReferences (localRefs : List Reference) (refsDict : ReferenceName → Option Reference)
    (remoteRefs : List Reference) (cmds : List Command) (forceWithLease : Option ForceWithLease) :
    Except RemoteError (List Command) :=
  if !rs.IsWildcard then
    match refsDict rs.Src with
    | none =>
      match r.objects.encodedObject .any (.fromHex rs.Src) >>= Store.decodeObject with
      | .ok _ => r.addObject rs remoteRefs (.fromHex rs.Src) cmds
      | .error _ => .ok cmds
    | some ref => r.addReferenceIfRefSpecMatches rs remoteRefs ref cmds forceWithLease
  else
    localRefs.foldlM (fun cmds ref => r.addReferenceIfRefSpecMatches rs remoteRefs ref cmds forceWithLease) cmds

def addRefSpec (localRefs remoteRefs : List Reference) (prune : Bool) (forceWithLease : Option ForceWithLease)
    (cmds : List Command) (rs : RefSpec) : Except RemoteError (List Command) :=
  if rs.IsDelete then .ok (deleteReferences rs remoteRefs (refsDict localRefs) cmds false)
  else
    match r.addOrUpdateReferences rs localRefs (refsDict localRefs) remoteRefs cmds forceWithLease with
    | .error e => .error e
    | .ok cmds =>
      if prune then .ok (deleteReferences rs remoteRefs (refsDict localRefs) cmds true) else .ok cmds

def addReferencesToUpdate (refspecs : List RefSpec) (localRefs remoteRefs : List Reference)
    (cmds : List Command) (prune : Bool) (forceWithLease : Option ForceWithLease) :
    Except RemoteError (List Command) :=
  refspecs.foldlM (r.addRefSpec localRefs remoteRefs prune forceWithLease) cmds

end Remote

end GoGit
