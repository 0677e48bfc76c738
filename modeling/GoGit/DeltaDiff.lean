import GoGit.DeltaFormat
import GoGit.DeltaIndex

/-! `diffDelta` as the source has it: target bytes that match no indexed block are buffered for an insert, matches of
at least one block become copies of at most 64 KiB. As in the index, `none` is a panic. -/
namespace GoGit.Delta

/-- Standard chunk size used to generate fingerprints, `s` in the source. -/
def chunkSize : ℕ := 16

def matchRun : Bytes → Bytes → ℕ
  | a :: as, b :: bs => if a = b then matchRun as bs + 1 else 0
  | _, _ => 0

def matchLength (src tgt : Bytes) (otgt osrc : ℕ) : ℕ := matchRun (src.drop osrc) (tgt.drop otgt)

/-- Where the block at `tgtOffset` is found in the source, and the length of the match: zero
for no match, `-1` for a source shorter than a block. -/
def DeltaIndex.findMatch (idx : DeltaIndex) (src tgt : Bytes) (tgtOffset : ℕ) : Option (ℕ × ℤ) :=
  if tgt.length < tgtOffset + chunkSize then some (0, tgt.length - tgtOffset)
  else if src.length < blksz then some (0, -1)
  else do
    let h ← hashBlock tgt tgtOffset
    let tIdx := h &&& idx.mask
    let eIdx ← idx.table[tIdx]?
    if eIdx = 0 then
      return (0, 0)
    else
      let srcOffset ← idx.entries[eIdx]?
      return (srcOffset, matchLength src tgt tgtOffset srcOffset)

def deltaEncodeSizeLoop (ret : Bytes) (c size : ℕ) : Bytes :=
  if size = 0 then ret ++ [UInt8.ofNat c]
  else deltaEncodeSizeLoop (ret ++ [UInt8.ofNat (c ||| 0x80)]) (size &&& 0x7f) (size >>> 7)
termination_by size
decreasing_by
  rw [Nat.shiftRight_eq_div_pow]
  omega

def deltaEncodeSize (size : ℕ) : Bytes := deltaEncodeSizeLoop [] (size &&& 0x7f) (size >>> 7)

/-- Append the non-zero bytes of an operand and set their flags in the command byte. -/
def encodeOperand (operand flag : ℕ) (is : List ℕ) (st : ℕ × Bytes) : ℕ × Bytes :=
  is.foldl (fun st i =>
    let f := 0xff <<< (i * 8)
    if operand &&& f ≠ 0 then
      (st.1 ||| flag <<< i, st.2 ++ [UInt8.ofNat ((operand &&& f) >>> (i * 8))])
    else st) st

def encodeCopyOperation (offset length : ℕ) : Bytes :=
  let st := encodeOperand offset 0x01 [0, 1, 2, 3] (0x80, [])
  let st := encodeOperand length 0x10 [0, 1, 2] st
  UInt8.ofNat st.1 :: st.2

/-- The copies for a match of length `rl`, none of them longer than `maxCopySize`. -/
def copyOperations (aOffset rl : ℕ) : Bytes :=
  if rl = 0 then []
  else if rl < maxCopySize then encodeCopyOperation aOffset rl
  else encodeCopyOperation aOffset maxCopySize ++
    copyOperations (aOffset + maxCopySize) (rl - maxCopySize)
termination_by rl
decreasing_by
  unfold maxCopySize at *
  omega

def insertOperations (b : Bytes) : Bytes :=
  if b.length ≤ 127 then UInt8.ofNat b.length :: b
  else UInt8.ofNat 127 :: b.take 127 ++ insertOperations (b.drop 127)
termination_by b.length
decreasing_by
  simp only [List.length_drop]
  omega

def encodeInsertOperation (ibuf buf : Bytes) : Bytes :=
  if ibuf.length = 0 then buf else buf ++ insertOperations ibuf

/-- The main loop at target position `i`, with the pending insert bytes and the delta so
far. The position grows in every iteration, so a fuel of the target length is enough. -/
def diffLoop (index : DeltaIndex) (src tgt : Bytes) : ℕ → ℕ → Bytes → Bytes → Option (Bytes × Bytes)
  | 0, _, ibuf, buf => some (ibuf, buf)
  | fuel + 1, i, ibuf, buf =>
    if i < tgt.length then do
      let (offset, l) ← index.findMatch src tgt i
      if l = 0 then
        diffLoop index src tgt fuel (i + 1) (ibuf ++ (tgt.drop i).take 1) buf
      else if l < 0 then
        -- the source is shorter than a block: the rest of the target is one insert
        diffLoop index src tgt fuel (tgt.length + 1) (ibuf ++ tgt.drop i) buf
      else if l < chunkSize then
        diffLoop index src tgt fuel (i + l.toNat) (ibuf ++ (tgt.drop i).take l.toNat) buf
      else
        let buf := encodeInsertOperation ibuf buf
        diffLoop index src tgt fuel (i + l.toNat) [] (buf ++ copyOperations offset l.toNat)
    else some (ibuf, buf)

/-- The delta, and the index, which is built by the first call that uses it. -/
def diffDelta (index : DeltaIndex) (src tgt : Bytes) : Option (Bytes × DeltaIndex) := do
  let buf := deltaEncodeSize src.length ++ deltaEncodeSize tgt.length
  let index ← if index.entries.length = 0 then DeltaIndex.init src else some index
  let (ibuf, buf) ← diffLoop index src tgt tgt.length 0 [] buf
  return (encodeInsertOperation ibuf buf, index)

def DiffDelta (src tgt : Bytes) : Option Bytes := (diffDelta {} src tgt).map Prod.fst

end GoGit.Delta
