import GoGit.PackError
import GoGit.PackEncode
import GoGit.PathOrder

namespace GoGit.IndexFormat

open ByteStream

inductive Fault
  | unsupportedVersion
  | invalidTimestamp
  | malformedSignature
  | invalidChecksum
  | unknownExtension
  | number (text : Bytes)
  | io (e : IoError)
  | readHash (e : IoError)
  | panic
  | endless
  deriving DecidableEq, Repr

def slash : UInt8 := 0x2f

def dot : UInt8 := 0x2e

/-- One element of a path in `path.Clean`, with the elements so far, the last one first. -/
def cleanStep (rooted : Bool) (stack : List Bytes) (c : Bytes) : List Bytes :=
  if c = [] ∨ c = [dot] then stack
  else if c = [dot, dot] then
    match stack with
    | [] => if rooted then [] else [c]
    | top :: rest => if top = [dot, dot] then c :: stack else rest
  else c :: stack

def pathClean (p : Bytes) : Bytes :=
  let rooted := p.head? = some slash
  let body := List.intercalate [slash] ((p.splitOn slash).foldl (cleanStep rooted) []).reverse
  if rooted then slash :: body else if body = [] then [dot] else body

/-- `path.Dir`: the part up to the last slash, cleaned. -/
def pathDir (p : Bytes) : Bytes := pathClean (p.reverse.dropWhile (· ≠ slash)).reverse

structure Entry where
  hash : ObjectID := .zeroHash
  name : Bytes := []
  createdAt : Time := .zero
  modifiedAt : Time := .zero
  dev : UInt32 := 0
  inode : UInt32 := 0
  mode : UInt32 := 0
  uid : UInt32 := 0
  gid : UInt32 := 0
  size : UInt32 := 0
  stage : ℤ := 0
  skipWorktree : Bool := false
  intentToAdd : Bool := false
  deriving DecidableEq

def entryHeaderLength : ℕ := 62

def entryExtended : ℕ := 0x4000

def nameMask : ℕ := 0xfff

def intentToAddMask : ℕ := 2 ^ 13

def skipWorkTreeMask : ℕ := 2 ^ 14

def Entry.extended (e : Entry) : Bool := e.intentToAdd || e.skipWorktree

def indexSignature : Bytes := [0x44, 0x49, 0x52, 0x43]

def timeToUint32 (t : Time) : Except Fault (UInt32 × UInt32) :=
  if t.isZero then .ok (0, 0)
  else if t.sec < 0 ∨ Pack.wrapInt64 (t.sec * 10 ^ 9 + t.nsec) < 0 then .error .invalidTimestamp
  else .ok (UInt32.ofNat t.sec.toNat, UInt32.ofNat t.nsec)

def Entry.flags (e : Entry) : ℕ :=
  ((e.stage % 4).toNat <<< 12) ||| (if e.name.length < nameMask then e.name.length else nameMask)

def Entry.extendedFlags (e : Entry) : ℕ :=
  (if e.intentToAdd then intentToAddMask else 0) ||| (if e.skipWorktree then skipWorkTreeMask else 0)

def Entry.flagBytes (e : Entry) : Bytes :=
  if e.extended then digits 2 (e.flags ||| entryExtended) ++ digits 2 e.extendedFlags
  else digits 2 e.flags

/-- How many bytes of the last name go, and what follows the others. -/
def cutName (lastEntry : Option Entry) (entry : Entry) : ℤ × Bytes :=
  match lastEntry with
  | none => (0, entry.name)
  | some last =>
    let dir := pathDir last.name ++ [slash]
    if dir.isPrefixOf entry.name then
      ((last.name.length : ℤ) - dir.length, entry.name.drop dir.length)
    else (last.name.length, entry.name)

/-- For a negative number the loop of `WriteVariableWidthInt` has no end. -/
def encodeEntryNameV4 (lastEntry : Option Entry) (entry : Entry) : Except Fault Bytes :=
  let (l, name) := cutName lastEntry entry
  if l < 0 then .error .endless else .ok (Pack.WriteVariableWidthInt l.toNat ++ (name ++ [0]))

def encodeEntry (version : ℕ) (lastEntry : Option Entry) (entry : Entry) : Except Fault Bytes := do
  let (sec, nsec) ← timeToUint32 entry.createdAt
  let (msec, mnsec) ← timeToUint32 entry.modifiedAt
  let flow := digits 4 sec.toNat ++ (digits 4 nsec.toNat ++ (digits 4 msec.toNat ++
    (digits 4 mnsec.toNat ++ (digits 4 entry.dev.toNat ++ (digits 4 entry.inode.toNat ++
    (digits 4 entry.mode.toNat ++ (digits 4 entry.uid.toNat ++ (digits 4 entry.gid.toNat ++
    (digits 4 entry.size.toNat ++ (entry.hash.bytes ++ entry.flagBytes))))))))))
  match version with
  | 2 | 3 => return flow ++ entry.name
  | 4 => return flow ++ (← encodeEntryNameV4 lastEntry entry)
  | _ => throw .unsupportedVersion

def padEntry (version wrote : ℕ) : Bytes :=
  if version = 4 then [] else List.replicate (8 - wrote % 8) 0

def Entry.length (e : Entry) : ℕ := entryHeaderLength + (if e.extended then 2 else 0) + e.name.length

/-- The loop of `encodeEntries`; only version 4 keeps the last entry. -/
def encodeEntries (version : ℕ) : Option Entry → List Entry → Except Fault Bytes
  | _, [] => .ok []
  | lastEntry, entry :: entries => do
    let bytes ← encodeEntry version lastEntry entry
    let rest ← encodeEntries version (if version = 4 then some entry else lastEntry) entries
    return bytes ++ (padEntry version entry.length ++ rest)

structure Index where
  version : UInt32 := 0
  entries : List Entry := []

/-- `Encode`; `sort` is what `sort.Sort` makes of a list and its order. -/
def Encode (sort : (Entry → Entry → Bool) → List Entry → List Entry) (sha1 : Bytes → Bytes)
    (idx : Index) : Except Fault Bytes := do
  if idx.version.toNat > 4 then throw .unsupportedVersion
  let entries := sort (fun a b => a.name < b.name) idx.entries
  let body ← encodeEntries idx.version.toNat none entries
  let written := indexSignature ++ (digits 4 idx.version.toNat ++ (digits 4 idx.entries.length ++ body))
  return written ++ sha1 written

end GoGit.IndexFormat
