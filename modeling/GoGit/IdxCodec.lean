import GoGit.IdxFile

/-! `Encoder` and `Decoder`. A writer is the bytes written so far, a reader the bytes that are left. The SHA-1
implementation is a parameter. -/
namespace GoGit.Idx

open ByteStream Function

def idxHeader : Bytes := [255, 0x74, 0x4f, 0x63]

namespace MemoryIndex

variable (idx : MemoryIndex)

def encodeHeader : Bytes := idxHeader ++ digits 4 idx.version

def encodeFanout : Bytes := (List.range 256).flatMap fun k => digits 4 (idx.fanout k)

def encodeBuckets (l : List Bytes) : List ℕ → Except Fault Bytes
  | [] => .ok []
  | k :: ks => do
    if idx.fanoutMapping k = noMapping then encodeBuckets l ks
    else return (← bucketAt l (idx.fanoutMapping k)) ++ (← encodeBuckets l ks)

def encodeHashes : Except Fault Bytes := idx.encodeBuckets idx.names (List.range 256)

def encodeCRC32 : Except Fault Bytes := idx.encodeBuckets idx.crc32 (List.range 256)

def encodeOffsets : Except Fault Bytes := do
  return (← idx.encodeBuckets idx.offset32 (List.range 256)) ++ idx.offset64

/-- The checksums behind the bytes `written` before them. -/
def encodeChecksums (sha1 : Bytes → Bytes) (written : Bytes) : Bytes :=
  let written := written ++ idx.packfileChecksum.bytes
  idx.packfileChecksum.bytes ++ (idx.idxChecksum.write (sha1 written)).bytes

def Encode (sha1 : Bytes → Bytes) : Except Fault Bytes := do
  let hashes ← idx.encodeHashes
  let crc32 ← idx.encodeCRC32
  let offsets ← idx.encodeOffsets
  let written := idx.encodeHeader ++ idx.encodeFanout ++ hashes ++ crc32 ++ offsets
  return written ++ idx.encodeChecksums sha1 written

end MemoryIndex

/-- `io.ReadFull` of `n` bytes, with the bytes behind them. -/
def readFull (s : Bytes) (n : ℕ) : Except Fault (Bytes × Bytes) :=
  match split n s with
  | some r => .ok r
  | none => .error (if s = [] then .eof else .unexpectedEOF)

def readUint32 (s : Bytes) : Except Fault (ℕ × Bytes) := do
  let (b, s) ← readFull s 4
  return (value b, s)

def validateHeader (s : Bytes) : Except Fault Bytes := do
  let (h, s) ← readFull s 4
  if h ≠ idxHeader then throw .malformedIdxFile
  return s

def readVersion (idx : MemoryIndex) (s : Bytes) : Except Fault (MemoryIndex × Bytes) := do
  let (v, s) ← readUint32 s
  if v > 2 then throw .unsupportedVersion
  return ({ idx with version := v }, s)

def readFanout (idx : MemoryIndex) (s : Bytes) : List ℕ → Except Fault (MemoryIndex × Bytes)
  | [] => .ok (idx, s)
  | k :: ks => do
    let (n, s) ← readUint32 s
    readFanout { idx with
      fanout := update idx.fanout k n
      fanoutMapping := update idx.fanoutMapping k noMapping } s ks

def bucketSize (idx : MemoryIndex) (k : ℕ) : ℕ :=
  if k = 0 then idx.fanout k else (idx.fanout k + (2 ^ 32 - idx.fanout (k - 1))) % 2 ^ 32

def readObjectNames (idx : MemoryIndex) (s : Bytes) : List ℕ → Except Fault (MemoryIndex × Bytes)
  | [] => .ok (idx, s)
  | k :: ks => do
    let buckets := bucketSize idx k
    if buckets = 0 then readObjectNames idx s ks
    else
      let (bin, s) ← readFull s (buckets * idx.idSize % 2 ^ 32)
      readObjectNames { idx with
        fanoutMapping := update idx.fanoutMapping k idx.names.length
        names := idx.names ++ [bin]
        offset32 := idx.offset32 ++ [List.replicate (buckets * 4 % 2 ^ 32) 0]
        crc32 := idx.crc32 ++ [List.replicate (buckets * 4 % 2 ^ 32) 0] } s ks

/-- Fills the slices of the buckets, in the order of their first bytes. -/
def readBuckets (idx : MemoryIndex) (l : List Bytes) (s : Bytes) : List ℕ → Except Fault (List Bytes × Bytes)
  | [] => .ok (l, s)
  | k :: ks => do
    let pos := idx.fanoutMapping k
    if pos = noMapping then readBuckets idx l s ks
    else
      let (b, s) ← readFull s (← bucketAt l pos).length
      readBuckets idx (l.set pos.toNat b) s ks

def readCRC32 (idx : MemoryIndex) (s : Bytes) : Except Fault (MemoryIndex × Bytes) := do
  let (crc32, s) ← readBuckets idx idx.crc32 s (List.range 256)
  return ({ idx with crc32 }, s)

/-- The words of a slice whose highest bit is set; the slice holds `n` words. -/
def countMarked (b : Bytes) (n : ℕ) : ℕ :=
  (List.range n).countP fun p => (b.getD (p * 4) 0) &&& 128 > 0

def readOffsets (idx : MemoryIndex) (s : Bytes) : Except Fault (MemoryIndex × Bytes) := do
  let (offset32, s) ← readBuckets idx idx.offset32 s (List.range 256)
  let o64cnt := ((List.range 256).map fun k =>
    if idx.fanoutMapping k = noMapping then 0
    else
      let b := offset32.getD (idx.fanoutMapping k).toNat []
      countMarked b ((b.length + 3) / 4)).sum
  let idx := { idx with offset32 }
  if o64cnt > 0 then
    let (offset64, s) ← readFull s (o64cnt * 8)
    return ({ idx with offset64 }, s)
  return (idx, s)

def readHash (h : ObjectID) (s : Bytes) : Except Fault (ObjectID × Bytes) :=
  match readFull s h.format.size with
  | .ok (b, s) => .ok (h.write b, s)
  | .error e => .error (.wrap "read hash from binary" e)

/-- `ResetBySize`; the copy from an empty slice leaves the bytes as they are. -/
def resetBySize (h : ObjectID) (idSize : ℕ) : ObjectID :=
  { h with format := if idSize = 32 then .sha256 else .sha1 }

def readChecksums (idx : MemoryIndex) (s : Bytes) : Except Fault MemoryIndex := do
  let (packfileChecksum, s) ← readHash (resetBySize idx.packfileChecksum idx.idSize) s
  let (idxChecksum, _) ← readHash (resetBySize idx.idxChecksum idx.idSize) s
  return { idx with packfileChecksum, idxChecksum }

/-- The checksums are read but not compared. -/
def Decode (idx : MemoryIndex) (s : Bytes) : Except Fault MemoryIndex := do
  let s ← validateHeader s
  let (idx, s) ← readVersion idx s
  let (idx, s) ← readFanout idx s (List.range 256)
  let (idx, s) ← readObjectNames idx s (List.range 256)
  let (idx, s) ← readCRC32 idx s
  let (idx, s) ← readOffsets idx s
  readChecksums idx s

end GoGit.Idx
