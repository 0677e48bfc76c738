import GoGit.ByteStream
import GoGit.Object
import GoGit.PathOrder

/-! `MemoryIndex` with its lookups, and the `Writer` that builds one from the objects of a pack. An array of 256
numbers is a function; a Go map is a function to `Option`. A panic of the source is the error `panic`. -/
namespace GoGit.Idx

open ByteStream Function

inductive Fault
  | objectNotFound
  | notFinished
  | malformedIdxFile
  | unsupportedVersion
  | eof
  | unexpectedEOF
  | wrap (context : String) (cause : Fault)
  | panic
  | outOfFuel
  deriving DecidableEq, Repr

structure Entry where
  hash : ObjectID
  crc32 : UInt32
  offset : UInt64
  deriving DecidableEq

def Entry.Wide (e : Entry) : Prop := e.offset.toNat > 2 ^ 31 - 1

instance : DecidablePred Entry.Wide := fun e => inferInstanceAs (Decidable (e.offset.toNat > 2 ^ 31 - 1))

/-- The slices of a bucket are those that `fanoutMapping` has for its byte. -/
structure MemoryIndex where
  version : ℕ := 0
  fanout : ℕ → ℕ := fun _ => 0
  fanoutMapping : ℕ → ℤ := fun _ => 0
  names : List Bytes := []
  offset32 : List Bytes := []
  crc32 : List Bytes := []
  offset64 : Bytes := []
  packfileChecksum : ObjectID := .zeroHash
  idxChecksum : ObjectID := .zeroHash
  /-- Hashes by offset, `none` for a nil map. -/
  offsetHash : Option (ℤ → Option ObjectID) := none
  offsetHashIsFull : Bool := false
  objectIDSize : ℕ := 0

def noMapping : ℤ := -1

def bytesCompare (a b : Bytes) : ℤ := if a < b then -1 else if a = b then 0 else 1

def slice (b : Bytes) (i j : ℕ) : Except Fault Bytes :=
  if i ≤ j ∧ j ≤ b.length then .ok ((b.drop i).take (j - i)) else .error .panic

def bucketAt (l : List Bytes) (i : ℤ) : Except Fault Bytes :=
  if i < 0 then .error .panic else (l[i.toNat]?).elim (.error .panic) .ok

def fan (h : ObjectID) : ℕ := (h.bytes.headD 0).toNat

namespace MemoryIndex

variable (idx : MemoryIndex)

def idSize : ℕ := if idx.objectIDSize ≠ 0 then idx.objectIDSize else 20

def searchLoop (h : ObjectID) (data : Bytes) : ℕ → ℕ → ℕ → Except Fault (Option ℕ)
  | 0, _, _ => .error .outOfFuel
  | fuel + 1, low, high => do
    let mid := (low + high) / 2
    let name ← slice data (mid * idx.idSize) (mid * idx.idSize + idx.idSize)
    let cmp := bytesCompare h.bytes name
    if cmp = 0 then return some mid
    let low' := if cmp < 0 then low else mid + 1
    let high' := if cmp < 0 then mid else high
    if low' ≥ high' then return none
    searchLoop h data fuel low' high'

def findHashIndex (h : ObjectID) : Except Fault (Option ℕ) := do
  let k := idx.fanoutMapping (fan h)
  if k = noMapping then return none
  if (idx.names.length : ℤ) ≤ k then return none
  let data ← bucketAt idx.names k
  let high := (← bucketAt idx.offset32 k).length / 4
  if high = 0 then return none
  idx.searchLoop h data (high + 1) 0 high

def Contains (h : ObjectID) : Except Fault Bool := do
  return (← idx.findHashIndex h).isSome

def getOffset (firstLevel : ℤ) (secondLevel : ℕ) : Except Fault UInt64 := do
  let ofs := value (← slice (← bucketAt idx.offset32 firstLevel) (secondLevel * 4) (secondLevel * 4 + 4))
  if ofs &&& 2 ^ 31 ≠ 0 then
    let offset := 8 * (ofs % 2 ^ 31)
    return UInt64.ofNat (value (← slice idx.offset64 offset (offset + 8)))
  return UInt64.ofNat ofs

/-- `FindOffset`, with the index after the call: the hash is kept for reverse lookups. -/
def FindOffset (h : ObjectID) : Except Fault ℤ × MemoryIndex :=
  match idx.findHashIndex h with
  | .error e => (.error e, idx)
  | .ok none => (.error .objectNotFound, idx)
  | .ok (some i) =>
    match idx.getOffset (idx.fanoutMapping (fan h)) i with
    | .error e => (.error e, idx)
    | .ok offset =>
      let o := int64 offset.toNat
      if idx.offsetHashIsFull then (.ok o, idx)
      else
        let m := idx.offsetHash.getD fun _ => none
        (.ok o, { idx with offsetHash := some (update m o (some h)) })

def getCRC32 (firstLevel : ℤ) (secondLevel : ℕ) : Except Fault UInt32 := do
  return UInt32.ofNat
    (value (← slice (← bucketAt idx.crc32 firstLevel) (secondLevel * 4) (secondLevel * 4 + 4)))

def FindCRC32 (h : ObjectID) : Except Fault UInt32 := do
  match ← idx.findHashIndex h with
  | none => throw .objectNotFound
  | some i => idx.getCRC32 (idx.fanoutMapping (fan h)) i

def Count : ℕ := idx.fanout 255

/-- The entries of one bucket in `genOffsetHash`: `n` of them are left. The variable `hash` is
one for all of them, and a short write leaves its end as it was. -/
def genBucket (mapped : ℤ) : ℕ → ℕ → ObjectID → (ℤ → Option ObjectID) → Except Fault (ObjectID × (ℤ → Option ObjectID))
  | 0, _, hash, m => .ok (hash, m)
  | n + 1, secondLevel, hash, m => do
    let names ← bucketAt idx.names mapped
    let hash := hash.write (← slice names (secondLevel * idx.idSize % 2 ^ 32) names.length)
    let offset ← idx.getOffset mapped secondLevel
    genBucket mapped n (secondLevel + 1) hash (update m (int64 offset.toNat) (some hash))

/-- The buckets in `genOffsetHash`, after `i` entries. -/
def genBuckets : List ℕ → ℕ → ObjectID → (ℤ → Option ObjectID) → Except Fault (ℤ → Option ObjectID)
  | [], _, _, m => .ok m
  | firstLevel :: rest, i, hash, m => do
    let (hash, m) ←
      idx.genBucket (idx.fanoutMapping firstLevel) (idx.fanout firstLevel - i) 0 hash m
    genBuckets rest (max i (idx.fanout firstLevel)) hash m

def genOffsetHash : Except Fault (ℤ → Option ObjectID) :=
  idx.genBuckets (List.range 256) 0 .zeroHash fun _ => none

/-- An offset that is not in the map makes it anew, unless it is full. -/
def FindHash (o : ℤ) : Except Fault ObjectID × MemoryIndex :=
  match idx.offsetHash.bind fun m => m o with
  | some hash => (.ok hash, idx)
  | none =>
    if idx.offsetHashIsFull = true ∧ idx.offsetHash.isSome then (.error .objectNotFound, idx)
    else
      match idx.genOffsetHash with
      | .error e => (.error e, { idx with offsetHashIsFull := true })
      | .ok m =>
        ((m o).elim (.error .objectNotFound) .ok,
          { idx with offsetHash := some m, offsetHashIsFull := true })

structure EntryIter where
  total : ℕ := 0
  firstLevel : ℕ := 0
  secondLevel : ℕ := 0
  deriving DecidableEq

/-- `Next`; the fuel bounds the steps to further buckets. -/
def entryNext : ℕ → EntryIter → Except Fault (Entry × EntryIter)
  | 0, _ => .error .outOfFuel
  | fuel + 1, i => do
    if i.firstLevel ≥ 256 then throw .eof
    if i.total ≥ idx.fanout i.firstLevel then
      entryNext fuel { i with firstLevel := i.firstLevel + 1, secondLevel := 0 }
    else
      let mapped := idx.fanoutMapping i.firstLevel
      let names ← bucketAt idx.names mapped
      let hash := ObjectID.zeroHash.write (← slice names (i.secondLevel * idx.idSize) names.length)
      let offset ← idx.getOffset mapped i.secondLevel
      let crc32 ← idx.getCRC32 mapped i.secondLevel
      return (⟨hash, crc32, offset⟩, { i with secondLevel := i.secondLevel + 1, total := i.total + 1 })

def nextEntries : ℕ → EntryIter → Except Fault (List Entry × EntryIter)
  | 0, i => .ok ([], i)
  | n + 1, i => do
    let (e, i) ← idx.entryNext 257 i
    let (es, i) ← nextEntries n i
    return (e :: es, i)

def drain : ℕ → EntryIter → Except Fault (List Entry)
  | 0, _ => .error .outOfFuel
  | n + 1, i =>
    match idx.entryNext 257 i with
    | .error .eof => .ok []
    | .error e => .error e
    | .ok (e, i) => (drain n i).map (e :: ·)

def Entries : Except Fault (List Entry) := idx.drain (idx.Count + 1) {}

/-- `EntriesByOffset`; `sort` is what `sort.Sort` makes of a list and its order. -/
def EntriesByOffset (sort : (Entry → Entry → Bool) → List Entry → List Entry) : Except Fault (List Entry) := do
  let (es, _) ← idx.nextEntries idx.Count {}
  return sort (fun a b => a.offset < b.offset) es

end MemoryIndex

structure Writer where
  checksum : ObjectID := .zeroHash
  objects : List Entry := []
  offset64 : ℕ := 0
  finished : Bool := false
  added : List ObjectID := []

def Writer.Add (w : Writer) (h : ObjectID) (pos : UInt64) (crc : UInt32) : Writer :=
  if h ∈ w.added then w
  else { w with added := h :: w.added, objects := w.objects ++ [⟨h, crc, pos⟩] }

structure Build where
  idx : MemoryIndex
  offset64 : ℕ
  last : ℤ := -1
  bucket : ℤ := -1

def fill {α : Type} (t : ℕ → α) (a b : ℤ) (x : α) : ℕ → α :=
  fun j => if a ≤ j ∧ j < b then x else t j

def appendAt (l : List Bytes) (i : ℤ) (b : Bytes) : List Bytes := l.modify i.toNat (· ++ b)

/-- `addOffset64`: the number of the offset in the table, with the mark. -/
def Build.addOffset64 (s : Build) (pos : UInt64) : ℕ × Build :=
  (s.offset64 ||| 2 ^ 31,
    { s with
      idx := { s.idx with offset64 := s.idx.offset64 ++ digits 8 pos.toNat }
      offset64 := (s.offset64 + 1) % 2 ^ 32 })

/-- The number of objects up to each first byte, for the object at index `i`. -/
def Build.countObject (s : Build) (i f : ℕ) : Build :=
  let fanout := update (fill s.idx.fanout (s.last + 1) f (i % 2 ^ 32)) f ((i + 1) % 2 ^ 32)
  { s with idx := { s.idx with fanout } }

def Build.moveTo (s : Build) (f : ℕ) : Build :=
  if s.last ≠ (f : ℤ) then
    { s with
      bucket := s.bucket + 1
      last := f
      idx := { s.idx with
        fanoutMapping := update s.idx.fanoutMapping f (s.bucket + 1)
        names := s.idx.names ++ [[]]
        offset32 := s.idx.offset32 ++ [[]]
        crc32 := s.idx.crc32 ++ [[]] } }
  else s

/-- One round of the loop, for the object at index `i`. -/
def Build.step (s : Build) (i : ℕ) (o : Entry) : Build :=
  let s := (s.countObject i (fan o.hash)).moveTo (fan o.hash)
  let (word, s) := if o.Wide then s.addOffset64 o.offset else (o.offset.toNat, s)
  { s with idx := { s.idx with
      names := appendAt s.idx.names s.bucket o.hash.bytes
      offset32 := appendAt s.idx.offset32 s.bucket (digits 4 word)
      crc32 := appendAt s.idx.crc32 s.bucket (digits 4 o.crc32.toNat) } }

def Build.run (s : Build) : ℕ → List Entry → Build
  | _, [] => s
  | i, o :: os => (s.step i o).run (i + 1) os

def Writer.createIndex (sort : (Entry → Entry → Bool) → List Entry → List Entry) (w : Writer) :
    Except Fault MemoryIndex :=
  if w.finished then
    let objects := sort (fun a b => bytesCompare a.hash.bytes b.hash.bytes < 0) w.objects
    let s : Build := ⟨{ fanoutMapping := fun _ => noMapping }, w.offset64, -1, -1⟩
    let s := s.run 0 objects
    .ok { s.idx with
      fanout := fill s.idx.fanout (s.last + 1) 256 (objects.length % 2 ^ 32)
      version := 2
      packfileChecksum := w.checksum }
  else .error .notFinished

def Writer.OnFooter (w : Writer) (h : ObjectID) : Writer := { w with checksum := h, finished := true }

def indexOf (sort : (Entry → Entry → Bool) → List Entry → List Entry) (adds : List Entry)
    (checksum : ObjectID) : Except Fault MemoryIndex :=
  ((adds.foldl (fun w e => w.Add e.hash e.offset e.crc32) ({} : Writer)).OnFooter checksum).createIndex
    sort

end GoGit.Idx
