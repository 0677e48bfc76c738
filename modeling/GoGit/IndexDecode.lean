import GoGit.IndexFormat

namespace GoGit.IndexFormat

open ByteStream

def lift {α : Type} (x : Except IoError α) : Except Fault α := x.mapError .io

def readHash (s : Bytes) : Except Fault (ObjectID × Bytes) :=
  match Stream.readFull s 20 with
  | .ok (b, s) => .ok (ObjectID.zeroHash.write b, s)
  | .error e => .error (.readHash e)

/-- The number says how much of the name before is cut off. -/
def doReadEntryNameV4 (lastEntry : Option Entry) (s : Bytes) : Except Fault (Bytes × Bytes) := do
  let (l, n) ← (Pack.readVariableWidthInt s 0).mapError fun _ => Fault.io .eof
  let base ← match lastEntry with
    | none => .ok []
    | some last =>
      -- the slice bounds are checked
      if l < 0 ∨ (last.name.length : ℤ) < l then .error .panic
      else .ok (last.name.take (last.name.length - l.toNat))
  let (name, s) ← lift (Stream.readUntil 0 (s.drop n))
  return (base ++ name, s)

def readEntryName (version : ℕ) (lastEntry : Option Entry) (flags : ℕ) (s : Bytes) :
    Except Fault (Bytes × Bytes) :=
  match version with
  | 2 | 3 => lift (Stream.readFull s (flags &&& nameMask))
  | 4 => doReadEntryNameV4 lastEntry s
  | _ => .error .unsupportedVersion

def decodeTime (sec nsec : UInt32) : Time :=
  if sec ≠ 0 ∨ nsec ≠ 0 then .unix sec.toNat nsec.toNat else .zero

/-- The second word of flags, where the first one announces it. -/
def readExtendedFlags (flags : ℕ) (s : Bytes) : Except Fault (Option ℕ × Bytes) :=
  if flags &&& entryExtended ≠ 0 then
    (lift (Stream.readUint16 s)).map fun r => (some r.1.toNat, r.2)
  else .ok (none, s)

/-- The decoder's `padEntry`, with `io.CopyN` to nowhere. -/
def skipPadding (version entrySize : ℕ) (s : Bytes) : Except Fault Bytes :=
  let padLen := 8 - entrySize % 8
  if version = 4 then .ok s
  else if s.length < padLen then .error (.io .eof)
  else .ok (s.drop padLen)

/-- Ten words, the hash, the flags and the name, and padding before version 4. -/
def readEntry (version : ℕ) (lastEntry : Option Entry) (s : Bytes) : Except Fault (Entry × Bytes) := do
  let (sec, s) ← lift (Stream.readUint32 s)
  let (nsec, s) ← lift (Stream.readUint32 s)
  let (msec, s) ← lift (Stream.readUint32 s)
  let (mnsec, s) ← lift (Stream.readUint32 s)
  let (dev, s) ← lift (Stream.readUint32 s)
  let (inode, s) ← lift (Stream.readUint32 s)
  let (mode, s) ← lift (Stream.readUint32 s)
  let (uid, s) ← lift (Stream.readUint32 s)
  let (gid, s) ← lift (Stream.readUint32 s)
  let (size, s) ← lift (Stream.readUint32 s)
  let (hash, s) ← readHash s
  let (flags, s) ← lift (Stream.readUint16 s)
  let (extended, s) ← readExtendedFlags flags.toNat s
  let (name, s) ← readEntryName version lastEntry flags.toNat s
  let e : Entry := {
    hash, name, dev, inode, mode, uid, gid, size
    createdAt := decodeTime sec nsec
    modifiedAt := decodeTime msec mnsec
    stage := ((flags.toNat >>> 12) &&& 3 : ℕ)
    intentToAdd := extended.any fun x => x &&& intentToAddMask ≠ 0
    skipWorktree := extended.any fun x => x &&& skipWorkTreeMask ≠ 0 }
  let read := entryHeaderLength + if extended.isSome then 2 else 0
  return (e, ← skipPadding version (read + name.length) s)

def readEntries (version : ℕ) : ℕ → Option Entry → Bytes → Except Fault (List Entry × Bytes)
  | 0, _, s => .ok ([], s)
  | n + 1, lastEntry, s => do
    let (e, s) ← readEntry version lastEntry s
    let (es, s) ← readEntries version n (some e) s
    return (e :: es, s)

structure TreeEntry where
  path : Bytes
  entries : ℤ
  trees : ℤ
  hash : ObjectID
  deriving DecidableEq

structure ResolveUndoEntry where
  path : Bytes
  stages : ℕ → Option ObjectID

structure EndOfIndexEntry where
  offset : UInt32
  hash : ObjectID
  deriving DecidableEq

structure Extensions where
  cache : Option (List TreeEntry) := none
  resolveUndo : Option (List ResolveUndoEntry) := none
  endOfIndexEntry : Option EndOfIndexEntry := none

/-- The digits of a number to a base, with an optional sign, as a 64-bit integer. -/
def parseInt (base : ℕ) (text : Bytes) : Except Fault ℤ :=
  let (neg, ds) := match text with
    | 0x2d :: ds => (true, ds)
    | 0x2b :: ds => (false, ds)
    | ds => (false, ds)
  let n := ds.foldl (fun n d => n * base + (d.toNat - 48)) 0
  let v : ℤ := if neg then -n else n
  if ds = [] ∨ ds.any (fun d => d.toNat < 48 ∨ 48 + base ≤ d.toNat) ∨ v < -2 ^ 63 ∨ 2 ^ 63 ≤ v then
    .error (.number text)
  else .ok v

/-- One record of the `TREE` extension; `none` for an invalidated one. -/
def readTreeEntry (s : Bytes) : Except Fault (Option TreeEntry × Bytes) := do
  let (path, s) ← lift (Stream.readUntil 0 s)
  let (count, s) ← lift (Stream.readUntil 0x20 s)
  let entries ← parseInt 10 count
  if entries = -1 then return (none, s)
  let (trees, s) ← lift (Stream.readUntil 0x0a s)
  let trees ← parseInt 10 trees
  let (hash, s) ← readHash s
  return (some ⟨path, entries, trees, hash⟩, s)

/-- Records up to the end of the bytes; the fuel bounds their number. -/
def readRecords {α : Type} (read : Bytes → Except Fault (Option α × Bytes)) :
    ℕ → Bytes → Except Fault (List α)
  | 0, _ => .error .endless
  | fuel + 1, s =>
    match read s with
    | .error (.io .eof) => .ok []
    | .error e => .error e
    | .ok (r, s) => (readRecords read fuel s).map (r.toList ++ ·)

/-- `readStage` for the three stages: those that are there. -/
def readStages : List ℕ → Bytes → Except Fault (List ℕ × Bytes)
  | [], s => .ok ([], s)
  | stage :: stages, s => do
    let (ascii, s) ← lift (Stream.readUntil 0 s)
    let mode ← parseInt 8 ascii
    let (present, s) ← readStages stages s
    return (if mode ≠ 0 then stage :: present else present, s)

def readStageHashes : List ℕ → Bytes → Except Fault ((ℕ → Option ObjectID) × Bytes)
  | [], s => .ok (fun _ => none, s)
  | stage :: stages, s => do
    let (hash, s) ← readHash s
    let (m, s) ← readStageHashes stages s
    return (Function.update m stage (some hash), s)

/-- One record of the `REUC` extension; `order` is the order in which a map is iterated. -/
def readResolveUndoEntry (order : List ℕ → List ℕ) (s : Bytes) : Except Fault (Option ResolveUndoEntry × Bytes) := do
  let (path, s) ← lift (Stream.readUntil 0 s)
  let (present, s) ← readStages [1, 2, 3] s
  let (stages, s) ← readStageHashes (order present) s
  return (some ⟨path, stages⟩, s)

def readEndOfIndexEntry (s : Bytes) : Except Fault EndOfIndexEntry := do
  let (offset, s) ← lift (Stream.readUint32 s)
  let (hash, _) ← readHash s
  return ⟨offset, hash⟩

/-- `readExtension`, with the bytes behind it. The buffered reader is taken to have drawn the whole
extension when its decoder stops, also where the decoder asks for less. -/
def readExtension (order : List ℕ → List ℕ) (x : Extensions) (s : Bytes) : Except Fault (Extensions × Bytes) := do
  let (header, s) ← lift (Stream.readFull s 4)
  let (len, s) ← lift (Stream.readUint32 s)
  let data := s.take len.toNat
  let s := s.drop len.toNat
  if header = [0x54, 0x52, 0x45, 0x45] then
    return ({ x with cache := some (← readRecords readTreeEntry (data.length + 1) data) }, s)
  if header = [0x52, 0x45, 0x55, 0x43] then
    return ({ x with
      resolveUndo := some (← readRecords (readResolveUndoEntry order) (data.length + 1) data) }, s)
  if header = [0x45, 0x4f, 0x49, 0x45] then
    return ({ x with endOfIndexEntry := some (← readEndOfIndexEntry data) }, s)
  if header.headD 0 < 0x41 ∨ header.headD 0 > 0x5a then throw .unknownExtension
  return (x, s)

/-- `readExtensions` and the checksum behind them, for the file `data`. -/
def readExtensions (order : List ℕ → List ℕ) (sha1 : Bytes → Bytes) (data : Bytes) :
    ℕ → Extensions → Bytes → Except Fault Extensions
  | 0, _, _ => .error .endless
  | fuel + 1, x, s => do
    let expected := sha1 (data.take (data.length - s.length))
    if s.length < 28 then
      let (h, _) ← readHash s
      if h.bytes ≠ expected then throw .invalidChecksum
      return x
    let (x, s) ← readExtension order x s
    readExtensions order sha1 data fuel x s

def validateHeader (s : Bytes) : Except Fault (UInt32 × Bytes) := do
  let (signature, s) ← lift (Stream.readFull s 4)
  if signature ≠ indexSignature then throw .malformedSignature
  let (version, s) ← lift (Stream.readUint32 s)
  if version.toNat < 2 ∨ version.toNat > 4 then throw .unsupportedVersion
  return (version, s)

def Decode (order : List ℕ → List ℕ) (sha1 : Bytes → Bytes) (data : Bytes) : Except Fault (Index × Extensions) := do
  let (version, s) ← validateHeader data
  let (entryCount, s) ← lift (Stream.readUint32 s)
  let (entries, s) ← readEntries version.toNat entryCount.toNat none s
  let x ← readExtensions order sha1 data (data.length + 1) {} s
  return (⟨version, entries⟩, x)

end GoGit.IndexFormat
