import GoGit.PackError

/-! A hash table over the 16-byte blocks of the source. Index expressions of the source panic when they are out of
range; here they are partial, and `none` is that panic. -/
namespace GoGit.Delta

def setAt {α : Type*} (xs : List α) (i : ℕ) (x : α) : Option (List α) :=
  if i < xs.length then some (xs.set i x) else none

def blksz : ℕ := 16

def maxChainLength : ℕ := 64

def T : List ℕ := [
  0x00000000, 0xd4c6b32d, 0x7d4bd577, 0xa98d665a, 0x2e5119c3, 0xfa97aaee, 0x531accb4, 0x87dc7f99,
  0x5ca23386, 0x886480ab, 0x21e9e6f1, 0xf52f55dc, 0x72f32a45, 0xa6359968, 0x0fb8ff32, 0xdb7e4c1f,
  0x6d82d421, 0xb944670c, 0x10c90156, 0xc40fb27b, 0x43d3cde2, 0x97157ecf, 0x3e981895, 0xea5eabb8,
  0x3120e7a7, 0xe5e6548a, 0x4c6b32d0, 0x98ad81fd, 0x1f71fe64, 0xcbb74d49, 0x623a2b13, 0xb6fc983e,
  0x0fc31b6f, 0xdb05a842, 0x7288ce18, 0xa64e7d35, 0x219202ac, 0xf554b181, 0x5cd9d7db, 0x881f64f6,
  0x536128e9, 0x87a79bc4, 0x2e2afd9e, 0xfaec4eb3, 0x7d30312a, 0xa9f68207, 0x007be45d, 0xd4bd5770,
  0x6241cf4e, 0xb6877c63, 0x1f0a1a39, 0xcbcca914, 0x4c10d68d, 0x98d665a0, 0x315b03fa, 0xe59db0d7,
  0x3ee3fcc8, 0xea254fe5, 0x43a829bf, 0x976e9a92, 0x10b2e50b, 0xc4745626, 0x6df9307c, 0xb93f8351,
  0x1f8636de, 0xcb4085f3, 0x62cde3a9, 0xb60b5084, 0x31d72f1d, 0xe5119c30, 0x4c9cfa6a, 0x985a4947,
  0x43240558, 0x97e2b675, 0x3e6fd02f, 0xeaa96302, 0x6d751c9b, 0xb9b3afb6, 0x103ec9ec, 0xc4f87ac1,
  0x7204e2ff, 0xa6c251d2, 0x0f4f3788, 0xdb8984a5, 0x5c55fb3c, 0x88934811, 0x211e2e4b, 0xf5d89d66,
  0x2ea6d179, 0xfa606254, 0x53ed040e, 0x872bb723, 0x00f7c8ba, 0xd4317b97, 0x7dbc1dcd, 0xa97aaee0,
  0x10452db1, 0xc4839e9c, 0x6d0ef8c6, 0xb9c84beb, 0x3e143472, 0xead2875f, 0x435fe105, 0x97995228,
  0x4ce71e37, 0x9821ad1a, 0x31accb40, 0xe56a786d, 0x62b607f4, 0xb670b4d9, 0x1ffdd283, 0xcb3b61ae,
  0x7dc7f990, 0xa9014abd, 0x008c2ce7, 0xd44a9fca, 0x5396e053, 0x8750537e, 0x2edd3524, 0xfa1b8609,
  0x2165ca16, 0xf5a3793b, 0x5c2e1f61, 0x88e8ac4c, 0x0f34d3d5, 0xdbf260f8, 0x727f06a2, 0xa6b9b58f,
  0x3f0c6dbc, 0xebcade91, 0x4247b8cb, 0x96810be6, 0x115d747f, 0xc59bc752, 0x6c16a108, 0xb8d01225,
  0x63ae5e3a, 0xb768ed17, 0x1ee58b4d, 0xca233860, 0x4dff47f9, 0x9939f4d4, 0x30b4928e, 0xe47221a3,
  0x528eb99d, 0x86480ab0, 0x2fc56cea, 0xfb03dfc7, 0x7cdfa05e, 0xa8191373, 0x01947529, 0xd552c604,
  0x0e2c8a1b, 0xdaea3936, 0x73675f6c, 0xa7a1ec41, 0x207d93d8, 0xf4bb20f5, 0x5d3646af, 0x89f0f582,
  0x30cf76d3, 0xe409c5fe, 0x4d84a3a4, 0x99421089, 0x1e9e6f10, 0xca58dc3d, 0x63d5ba67, 0xb713094a,
  0x6c6d4555, 0xb8abf678, 0x11269022, 0xc5e0230f, 0x423c5c96, 0x96faefbb, 0x3f7789e1, 0xebb13acc,
  0x5d4da2f2, 0x898b11df, 0x20067785, 0xf4c0c4a8, 0x731cbb31, 0xa7da081c, 0x0e576e46, 0xda91dd6b,
  0x01ef9174, 0xd5292259, 0x7ca44403, 0xa862f72e, 0x2fbe88b7, 0xfb783b9a, 0x52f55dc0, 0x8633eeed,
  0x208a5b62, 0xf44ce84f, 0x5dc18e15, 0x89073d38, 0x0edb42a1, 0xda1df18c, 0x739097d6, 0xa75624fb,
  0x7c2868e4, 0xa8eedbc9, 0x0163bd93, 0xd5a50ebe, 0x52797127, 0x86bfc20a, 0x2f32a450, 0xfbf4177d,
  0x4d088f43, 0x99ce3c6e, 0x30435a34, 0xe485e919, 0x63599680, 0xb79f25ad, 0x1e1243f7, 0xcad4f0da,
  0x11aabcc5, 0xc56c0fe8, 0x6ce169b2, 0xb827da9f, 0x3ffba506, 0xeb3d162b, 0x42b07071, 0x9676c35c,
  0x2f49400d, 0xfb8ff320, 0x5202957a, 0x86c42657, 0x011859ce, 0xd5deeae3, 0x7c538cb9, 0xa8953f94,
  0x73eb738b, 0xa72dc0a6, 0x0ea0a6fc, 0xda6615d1, 0x5dba6a48, 0x897cd965, 0x20f1bf3f, 0xf4370c12,
  0x42cb942c, 0x960d2701, 0x3f80415b, 0xeb46f276, 0x6c9a8def, 0xb85c3ec2, 0x11d15898, 0xc517ebb5,
  0x1e69a7aa, 0xcaaf1487, 0x632272dd, 0xb7e4c1f0, 0x3038be69, 0xe4fe0d44, 0x4d736b1e, 0x99b5d833]

def hashByte (hash : ℕ) (b : UInt8) : Option ℕ := do
  let t ← T[hash >>> 23]?
  return ((hash <<< 8) % 2 ^ 32 ||| b.toNat) ^^^ t

def hashStart (raw : Bytes) (ptr : ℕ) : Option ℕ := do
  let b0 ← raw[ptr]?
  let b1 ← raw[ptr + 1]?
  let b2 ← raw[ptr + 2]?
  let b3 ← raw[ptr + 3]?
  let hash := b0.toNat <<< 24 ||| b1.toNat <<< 16 ||| b2.toNat <<< 8 ||| b3.toNat
  let t ← T[hash >>> 31]?
  return hash ^^^ t

def hashBlock (raw : Bytes) (ptr : ℕ) : Option ℕ := do
  let hash ← hashStart raw ptr
  [4, 5, 6, 7, 8, 9, 10, 11, 12, 13, 14, 15].foldlM
    (fun hash i => do
      let b ← raw[ptr + i]?
      hashByte hash b) hash

def len8tab : List ℕ :=
  [0, 1, 2, 2] ++ List.replicate 4 3 ++ List.replicate 8 4 ++ List.replicate 16 5 ++
    List.replicate 32 6 ++ List.replicate 64 7 ++ List.replicate 128 8

def leadingZeros (x : ℕ) : Option ℕ := do
  let (x, n) := if 1 <<< 16 ≤ x then (x >>> 16, 16) else (x, 0)
  let (x, n) := if 1 <<< 8 ≤ x then (x >>> 8, n + 8) else (x, n)
  let len ← len8tab[x]?
  return 32 - (n + len)

def tableSize (worstCaseBlockCnt : ℕ) : Option ℕ := do
  let zeros ← leadingZeros (worstCaseBlockCnt % 2 ^ 32)
  let shift := 32 - zeros
  -- shifting by `uint(-1)` leaves no bit
  let sz := if shift = 0 then 0 else 1 <<< (shift - 1)
  return if sz < worstCaseBlockCnt then sz <<< 1 else sz

structure DeltaIndexScanner where
  table : List ℕ := []
  entries : List ℕ := []
  next : List ℕ := []
  mask : ℕ := 0
  count : ℕ := 0
  deriving DecidableEq, Repr

namespace DeltaIndexScanner

/-- Enter the block at `ptr`. A run of equal blocks keeps only its first one. -/
def scanBlock (s : DeltaIndexScanner) (lastHash key ptr : ℕ) : Option DeltaIndexScanner := do
  let tIdx := key &&& s.mask
  let head ← s.table[tIdx]?
  if head ≠ 0 ∧ lastHash = key then
    let entries ← setAt s.entries head ptr
    return { s with entries }
  else
    let eIdx := s.count + 1
    let entries ← setAt s.entries eIdx ptr
    let next ← setAt s.next eIdx head
    let table ← setAt s.table tIdx eIdx
    return { s with entries, next, table, count := eIdx }

def scanBlocks (buf : Bytes) : ℕ → ℕ → DeltaIndexScanner → Option DeltaIndexScanner
  | 0, _, s => some s
  | k + 1, lastHash, s => do
    let key ← hashBlock buf (k * blksz)
    let s ← s.scanBlock lastHash key (k * blksz)
    scanBlocks buf k key s

def scan (s : DeltaIndexScanner) (buf : Bytes) (size : ℕ) : Option DeltaIndexScanner :=
  scanBlocks buf (size / blksz) 0 s

end DeltaIndexScanner

/-- A table of chains over the whole blocks of the source. -/
def newDeltaIndexScanner (buf : Bytes) (size : ℕ) : Option DeltaIndexScanner := do
  let size := size - size % blksz
  let worstCaseBlockCnt := size / blksz
  if worstCaseBlockCnt < 1 then
    return {}
  else
    let tableSize ← tableSize worstCaseBlockCnt
    let scanner : DeltaIndexScanner :=
      { table := List.replicate tableSize 0
        mask := tableSize - 1
        entries := List.replicate (worstCaseBlockCnt + 1) 0
        next := List.replicate (worstCaseBlockCnt + 1) 0 }
    scanner.scan buf size

/-- Number of entries kept of the chain at `h`; at the limit, the chain is cut. The last
argument is how many entries may still be kept. -/
def countChain (next : List ℕ) (h : ℕ) : ℕ → Option (List ℕ × ℕ)
  | 0 => none
  | 1 => do
    let next ← setAt next h 0
    return (next, 1)
  | left + 2 => do
    let h ← next[h]?
    if h = 0 then
      return (next, 1)
    else
      let (next, size) ← countChain next h (left + 1)
      return (next, size + 1)

/-- Entries kept over all chains, and the `next` list with the long chains cut. -/
def countEntries : List ℕ → List ℕ → Option (List ℕ × ℕ)
  | [], next => some (next, 0)
  | h :: table, next =>
    if h = 0 then countEntries table next
    else do
      let (next, size) ← countChain next h maxChainLength
      let (next, cnt) ← countEntries table next
      return (next, size + cnt)

structure DeltaIndex where
  table : List ℕ := []
  entries : List ℕ := []
  mask : ℕ := 0
  deriving DecidableEq, Repr

/-- Copy one chain to consecutive positions. Each position is written before the next is
tried, so a fuel of `entries.length` is never used up. -/
def copyChain (scanner : DeltaIndexScanner) : ℕ → List ℕ → ℕ → ℕ → Option (List ℕ × ℕ)
  | 0, _, _, _ => none
  | fuel + 1, entries, next, h => do
    let entry ← scanner.entries[h]?
    let entries ← setAt entries next entry
    let h ← scanner.next[h]?
    if h = 0 then
      return (entries, next + 1)
    else
      copyChain scanner fuel entries (next + 1) h

/-- Replace every chain head of the table by the position its chain is copied to. -/
def copyEntries (scanner : DeltaIndexScanner) : List ℕ → List ℕ → ℕ → Option (List ℕ × List ℕ)
  | [], entries, _ => some ([], entries)
  | h :: table, entries, next =>
    if h = 0 then do
      let (table, entries) ← copyEntries scanner table entries next
      return (0 :: table, entries)
    else do
      let (entries, after) ← copyChain scanner entries.length entries next h
      let (table, entries) ← copyEntries scanner table entries after
      return (next :: table, entries)

namespace DeltaIndex

def init (buf : Bytes) : Option DeltaIndex := do
  let scanner ← newDeltaIndexScanner buf buf.length
  let (next, cnt) ← countEntries scanner.table scanner.next
  let (table, entries) ←
    copyEntries { scanner with next } scanner.table (List.replicate (cnt + 1) 0) 1
  return { table, entries, mask := scanner.mask }

end DeltaIndex

end GoGit.Delta
