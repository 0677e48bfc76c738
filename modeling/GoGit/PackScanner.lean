import GoGit.Object

/-! The state machine that reads a pack section by section. The pack is a byte string and the reader an offset into
it; what the reader hands to the hashes is therefore the bytes between two offsets. -/
namespace GoGit.Pack

/-- What the package uses from elsewhere: the SHA-1 sum, and the zlib reader, which returns the
inflated content and the number of bytes it consumed. -/
structure Env where
  sha1 : Bytes → Bytes
  inflate : Bytes → Except PackError (Bytes × ℕ)

/-- One bit of the reflected CRC-32 of the IEEE polynomial. -/
def crcShift (c : UInt32) : UInt32 :=
  if c &&& 1 = 1 then (c >>> 1) ^^^ 0xedb88320 else c >>> 1

def crcByte (c : UInt32) (b : UInt8) : UInt32 :=
  (List.range 8).foldl (fun c _ => crcShift c) (c ^^^ b.toUInt32)

def crc32 (b : Bytes) : UInt32 := b.foldl crcByte 0xffffffff ^^^ 0xffffffff

def slice (data : Bytes) (start stop : ℕ) : Bytes := (data.drop start).take (stop - start)

def hexText (b : Bytes) : String :=
  String.ofList (b.flatMap fun x => [Nat.digitChar (x.toNat / 16), Nat.digitChar (x.toNat % 16)])

/-- `io.ReadFull` of `n` bytes, with the offset behind them. -/
def readFull (data : Bytes) (offset n : ℕ) : Except PackError (Bytes × ℕ) :=
  let p := (data.drop offset).take n
  if p.length = n then .ok (p, offset + n)
  else .error (if p = [] then .eof else .unexpectedEOF)

def readByte (data : Bytes) (offset : ℕ) : Except PackError (UInt8 × ℕ) :=
  match data.drop offset with
  | [] => .error .eof
  | b :: _ => .ok (b, offset + 1)

def bigEndian (b : Bytes) : ℕ := b.foldl (fun n x => n * 256 + x.toNat) 0

def readUint32 (data : Bytes) (offset : ℕ) : Except PackError (ℕ × ℕ) :=
  (readFull data offset 4).map fun p => (bigEndian p.1, p.2)

def wrapInt64 (n : ℤ) : ℤ := n.bmod (2 ^ 64)

def variableWidthLoop (v : ℤ) : Bytes → ℕ → Except PackError (ℤ × ℕ)
  | [], _ => .error .eof
  | c :: rest, offset =>
    let v := wrapInt64 (wrapInt64 (v + 1) * 128 + (c.toNat % 128 : ℕ))
    if c.toNat &&& 0x80 ≠ 0 then variableWidthLoop v rest (offset + 1) else .ok (v, offset + 1)

def readVariableWidthInt (data : Bytes) (offset : ℕ) : Except PackError (ℤ × ℕ) := do
  let (c, offset) ← readByte data offset
  if c.toNat &&& 0x80 ≠ 0 then variableWidthLoop (c.toNat % 128 : ℕ) (data.drop offset) offset
  else return ((c.toNat % 128 : ℕ), offset)

/-- The loop of `readVariableLengthSize`; shifts beyond the word lose the bits. -/
def variableLengthLoop (size shift : ℕ) : Bytes → ℕ → Except PackError (ℕ × ℕ)
  | [], _ => .error .eof
  | b :: rest, offset =>
    let size := size ||| (((b.toNat &&& 0x7f) <<< shift) % 2 ^ 64)
    if b.toNat &&& 0x80 = 0 then .ok (size, offset + 1)
    else variableLengthLoop size (shift + 7) rest (offset + 1)

def readVariableLengthSize (first : UInt8) (data : Bytes) (offset : ℕ) :
    Except PackError (ℕ × ℕ) :=
  let size := first.toNat &&& 0x0f
  if first.toNat &&& 0x80 ≠ 0 then variableLengthLoop size 4 (data.drop offset) offset
  else .ok (size, offset)

def parseType (b : UInt8) : ObjectType := .ofBits ((b.toNat &&& 0x70) >>> 4)

structure ObjectHeader where
  type : ObjectType
  offset : ℕ := 0
  contentOffset : ℕ := 0
  size : ℤ := 0
  reference : ObjectID := .zeroHash
  offsetReference : ℤ := 0
  crc32 : UInt32 := 0
  hash : ObjectID := .zeroHash
  content : Option Bytes := none
  diskType : ObjectType
  externalRef : Bool := false
  deriving DecidableEq

def readHash (data : Bytes) (offset : ℕ) : Except PackError (ObjectID × ℕ) :=
  match readFull data offset 20 with
  | .error e => .error (.wrap "read hash from binary" e)
  | .ok (b, offset) => .ok (ObjectID.zeroHash.write b, offset)

inductive PackData
  | empty
  | header (version objectsQty : ℕ)
  | object (oh : ObjectHeader)
  | footer (checksum : ObjectID)
  deriving DecidableEq

inductive StateFn
  | packHeaderSignature
  | packVersion
  | packObjectsQty
  | objectEntry
  | packFooter
  deriving DecidableEq, Repr

structure Scanner where
  version : ℕ := 0
  objects : ℕ := 0
  objIndex : ℤ := -1
  nextFn : Option StateFn := some .packHeaderSignature
  packData : PackData := .empty
  err : Option PackError := none
  offset : ℕ := 0
  deriving DecidableEq

def readReference (data : Bytes) (oh : ObjectHeader) (offset : ℕ) :
    Except PackError (ObjectHeader × ℕ) :=
  match oh.type with
  | .ofsDelta => do
    let (no, offset) ← readVariableWidthInt data offset
    return ({ oh with offsetReference := wrapInt64 (oh.offset - no) }, offset)
  | .refDelta => do
    let (reference, offset) ← readHash data offset
    return ({ oh with reference := reference }, offset)
  | _ => .ok (oh, offset)

/-- Type, size and base reference of the entry at `offset`. -/
def readEntryHeader (data : Bytes) (offset : ℕ) : Except PackError (ObjectHeader × ℕ) := do
  let (b, pos) ← readByte data offset
  let typ := parseType b
  if typ.valid = false then
    .error (.detail .malformedPackfile ("invalid object type: " ++ toString b.toNat))
  else
    let (size, pos) ← readVariableLengthSize b data pos
    readReference data ⟨typ, offset, 0, int64 size, .zeroHash, 0, 0, .zeroHash, none, typ, false⟩ pos

section

variable (env : Env) (seekable : Bool) (data : Bytes)

/-- A whole entry and the offset behind it. Without a storage the parser is never in
low-memory mode, so the content of a delta is kept; that of another object is kept if the
source cannot be read again. -/
def readEntry (offset : ℕ) : Except PackError (ObjectHeader × ℕ) := do
  let (oh, contentOffset) ← readEntryHeader data offset
  let (content, n) ← env.inflate (data.drop contentOffset)
  let stop := contentOffset + n
  let oh := { oh with contentOffset := contentOffset, crc32 := crc32 (slice data offset stop) }
  if oh.type.isDelta then return ({ oh with content := some content }, stop)
  else
    return ({ oh with
      hash := hasherSum env.sha1 (hasherReset oh.type oh.size ++ content)
      content := if seekable then none else some content }, stop)

/-- The checksum at `offset`, compared with the sum of everything before it. -/
def readFooter (offset : ℕ) : Except PackError (ObjectID × ℕ) :=
  let actual := env.sha1 (data.take offset)
  match readHash data offset with
  | .error _ => .error (.wrap "cannot read PACK checksum" .malformedPackfile)
  | .ok (checksum, stop) =>
    if checksum.bytes ≠ actual then
      .error (.wrap ("checksum mismatch expected \"" ++ hexText actual ++ "\" but found \"" ++
        hexText checksum.bytes ++ "\"") .malformedPackfile)
    else .ok (checksum, stop)

/-- One state function: the scanner behind it and the state that follows at once. -/
def runState (state : StateFn) (r : Scanner) : Except PackError (Scanner × Option StateFn) :=
  match state with
  | .packHeaderSignature =>
    let start := (data.drop r.offset).take 4
    if start = [] then .error (.detail .badSignature PackError.eof.text)
    else if start = [0x50, 0x41, 0x43, 0x4b] then
      .ok ({ r with offset := r.offset + 4 }, some .packVersion)
    else .error .badSignature
  | .packVersion =>
    match readUint32 data r.offset with
    | .error _ => .error (.detail .malformedPackfile "cannot read version")
    | .ok (version, offset) =>
      if version ≠ 2 then .error .unsupportedVersion
      else .ok ({ r with version := version, offset := offset }, some .packObjectsQty)
  | .packObjectsQty =>
    match readUint32 data r.offset with
    | .error _ => .error (.detail .malformedPackfile "cannot read number of objects")
    | .ok (qty, offset) =>
      if qty = 0 then .ok ({ r with offset := offset }, some .packFooter)
      else .ok ({ r with
        objects := qty, packData := .header r.version qty, nextFn := some .objectEntry,
        offset := offset }, none)
  | .objectEntry =>
    if (r.objects : ℤ) ≤ r.objIndex + 1 then .ok (r, some .packFooter)
    else do
      let (oh, offset) ← readEntry env seekable data r.offset
      return ({ r with objIndex := r.objIndex + 1, packData := .object oh, offset := offset }, none)
  | .packFooter =>
    match readFooter env data r.offset with
    | .error e => .error e
    | .ok (checksum, offset) =>
      .ok ({ r with packData := .footer checksum, nextFn := none, offset := offset }, none)

/-- `scan` runs state functions until one asks to stop; no chain has more than four. -/
def scan : ℕ → Option StateFn → Scanner → Except PackError Scanner
  | _, none, r => .ok r
  | 0, some _, r => .ok r
  | fuel + 1, some state, r => do
    let (r, next) ← runState env seekable data state r
    scan fuel next r

/-- `Scan` with its result. What a failed state function has changed besides is never read. -/
def Scanner.Scan (r : Scanner) : Scanner × Bool :=
  if r.err.isSome ∨ r.nextFn = none then (r, false)
  else match scan env seekable data 4 r.nextFn r with
    | .error e => ({ r with err := some e }, false)
    | .ok r => (r, true)

end

end GoGit.Pack
