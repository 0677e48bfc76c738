import GoGit.ByteStream
import GoGit.PackError
import GoGit.Trim

/-! A packet is its length in four hexadecimal digits, which count themselves, and its payload. Lengths below four are
packets without a payload that mark the end of a message. -/
namespace GoGit.PktLine

open List

def lenSize : ℕ := 4

def maxSize : ℕ := 65520

def maxPayloadSize : ℕ := maxSize - lenSize

def flushPkt : Bytes := [0x30, 0x30, 0x30, 0x30]

def emptyPkt : Bytes := [0x30, 0x30, 0x30, 0x34]

def errPrefix : Bytes := [0x45, 0x52, 0x52, 0x20]

inductive InvalidLen
  | short
  | smallBuffer
  | notHexadecimal (b : UInt8)
  | three
  | tooBig (n : ℕ)
  deriving DecidableEq

inductive Fault
  | invalidPktLen (cause : InvalidLen)
  | payloadTooLong
  | io (cause : IoError)
  | errorLine (text : Bytes)
  | sliceBounds
  deriving DecidableEq

def byteToASCIIHex (n : UInt8) : UInt8 := Hex.digit n

def asciiHex16 (n : ℕ) : Bytes :=
  [byteToASCIIHex (.ofNat ((n &&& 0xf000) >>> 12)), byteToASCIIHex (.ofNat ((n &&& 0x0f00) >>> 8)),
    byteToASCIIHex (.ofNat ((n &&& 0x00f0) >>> 4)), byteToASCIIHex (.ofNat (n &&& 0x000f))]

def asciiHexToByte (b : UInt8) : Except Fault UInt8 :=
  match Hex.value b with
  | some n => .ok n
  | none => .error (.invalidPktLen (.notHexadecimal b))

def hexDigits : Bytes → ℕ → Except Fault ℕ
  | [], ret => .ok ret
  | b :: buf, ret =>
    match asciiHexToByte b with
    | .error e => .error e
    | .ok n => hexDigits buf (16 * ret + n.toNat)

def hexDecode (buf : Bytes) : Except Fault ℕ :=
  if buf.length < 4 then .error (.invalidPktLen .smallBuffer) else hexDigits (buf.take lenSize) 0

def parseLength (b : Bytes) : Except Fault ℕ :=
  match hexDecode b with
  | .error e => .error e
  | .ok n =>
    if n = 3 then .error (.invalidPktLen .three)
    else if n > maxSize then .error (.invalidPktLen (.tooBig n))
    else .ok n

lemma value_digit : ∀ n < 16, Hex.value (Hex.digit (.ofNat n)) = some (.ofNat n) := by decide

variable {n : ℕ}

lemma hexDigits_digit (hn : n < 16) (buf : Bytes) (ret : ℕ) :
    hexDigits (Hex.digit (.ofNat n) :: buf) ret = hexDigits buf (16 * ret + n) := by
  have hnat : (UInt8.ofNat n).toNat = n := by
    rw [UInt8.toNat_ofNat', Nat.mod_eq_of_lt (by omega)]
  simp only [hexDigits, asciiHexToByte, value_digit n hn, hnat]

lemma asciiHex16_eq (n : ℕ) : asciiHex16 n = [Hex.digit (.ofNat (n / 4096 % 16)),
    Hex.digit (.ofNat (n / 256 % 16)), Hex.digit (.ofNat (n / 16 % 16)), Hex.digit (.ofNat (n % 16))] := by
  have hmod : ∀ m, m &&& 0xf = m % 16 := fun m => Nat.and_two_pow_sub_one_eq_mod m 4
  simp only [asciiHex16, byteToASCIIHex, Nat.shiftRight_and_distrib, Nat.reduceShiftRight, hmod]
  simp only [Nat.shiftRight_eq_div_pow, Nat.reducePow]

@[simp] lemma length_asciiHex16 (n : ℕ) : (asciiHex16 n).length = 4 := rfl

lemma hexDecode_asciiHex16 (hn : n < 2 ^ 16) (rest : Bytes) : hexDecode (asciiHex16 n ++ rest) = .ok n := by
  have hlen : ¬ (asciiHex16 n ++ rest).length < 4 := by simp
  rw [hexDecode, if_neg hlen, lenSize, take_left' (length_asciiHex16 n), asciiHex16_eq,
    hexDigits_digit (Nat.mod_lt _ (by omega)), hexDigits_digit (Nat.mod_lt _ (by omega)),
    hexDigits_digit (Nat.mod_lt _ (by omega)), hexDigits_digit (Nat.mod_lt _ (by omega)), hexDigits]
  congr 1
  omega

lemma parseLength_asciiHex16 (hn : n ≤ maxSize) (h3 : n ≠ 3) (rest : Bytes) :
    parseLength (asciiHex16 n ++ rest) = .ok n := by
  have hlt : n < 2 ^ 16 := hn.trans_lt (by decide)
  rw [parseLength, hexDecode_asciiHex16 hlt]
  simp [h3, not_lt.mpr hn]

def write (w p : Bytes) : Except Fault Bytes :=
  if p.length = 0 then .ok (w ++ emptyPkt)
  else if p.length > maxPayloadSize then .error .payloadTooLong
  else .ok (w ++ asciiHex16 (p.length + lenSize) ++ p)

def writeFlush (w : Bytes) : Bytes := w ++ flushPkt

def copyAt (p : Bytes) (off : ℕ) (b : Bytes) : Bytes := p.take off ++ b ++ p.drop (off + b.length)

/-- Reads a packet from `r` into the buffer `p` and gives its length, the buffer and what is left of
`r`. The text `ERR ` is looked for in the whole buffer, also behind the packet. -/
def read (r p : Bytes) : Except Fault ℕ × Bytes × Bytes :=
  match Stream.readFull r lenSize with
  | .error .unexpectedEOF => (.error (.invalidPktLen .short), copyAt p 0 r, [])
  | .error .eof => (.error (.io .eof), p, [])
  | .ok (b, r) =>
    let p := copyAt p 0 b
    match parseLength p with
    | .error e => (.error e, p, r)
    | .ok length =>
      if length ≤ lenSize then (.ok length, p, r)
      else
        match Stream.readFull r (length - lenSize) with
        | .error e => (.error (.io e), copyAt p lenSize r, [])
        | .ok (b, r) =>
          let p := copyAt p lenSize b
          if errPrefix.isPrefixOf (p.drop lenSize) then
            if length < lenSize + errPrefix.length then (.error .sliceBounds, p, r)
            else
              let text := (p.take length).drop (lenSize + errPrefix.length)
              (.error (.errorLine (Trim.trimSpace text)), p, r)
          else (.ok length, p, r)

/-- `ReadLine` with the shared buffer `buf`: the length and the payload. -/
def readLine (r buf : Bytes) : Except Fault (ℕ × Bytes) × Bytes × Bytes :=
  match read r buf with
  | (.error e, buf, r) => (.error e, buf, r)
  | (.ok l, buf, r) =>
    if l < lenSize then (.ok (l, []), buf, r) else (.ok (l, (buf.take l).drop lenSize), buf, r)

lemma copyAt_zero (p b : Bytes) : copyAt p 0 b = b ++ p.drop b.length := by simp [copyAt]

lemma copyAt_append {h : Bytes} (p b : Bytes) : copyAt (h ++ p) h.length b = h ++ (b ++ p.drop b.length) := by
  simp [copyAt, drop_append]

lemma readLine_write {p : Bytes} (hp : 0 < p.length) (hmax : p.length ≤ maxPayloadSize)
    (herr : ∀ stale, errPrefix.isPrefixOf (p ++ stale) = false) (rest buf : Bytes) :
    ∃ buf', readLine (asciiHex16 (p.length + lenSize) ++ p ++ rest) buf =
      (.ok (p.length + lenSize, p), buf', rest) := by
  have hlen : ¬ p.length + lenSize ≤ lenSize := by omega
  have hsize : p.length + lenSize ≤ maxSize := by
    have : maxPayloadSize + lenSize = maxSize := rfl
    omega
  set head := asciiHex16 (p.length + lenSize) with hhead
  set buf₁ := buf.drop head.length with hbuf₁
  have hheadlen : head.length = lenSize := rfl
  have hread : read (head ++ p ++ rest) buf =
      (.ok (p.length + lenSize), head ++ (p ++ buf₁.drop p.length), rest) := by
    have hcopy : copyAt buf 0 head = head ++ buf₁ := copyAt_zero buf head
    have hparse := parseLength_asciiHex16 hsize (by simp [lenSize]) buf₁
    have hcopy' : copyAt (head ++ buf₁) lenSize p = head ++ (p ++ buf₁.drop p.length) :=
      copyAt_append buf₁ p
    rw [read, append_assoc, Stream.readFull_append hheadlen]
    simp only [hcopy]
    rw [← hhead] at hparse
    simp only [hparse, hlen, if_false, Nat.add_sub_cancel, Stream.readFull_append rfl, hcopy',
      drop_left' hheadlen, herr, Bool.false_eq_true]
  refine ⟨head ++ (p ++ buf₁.drop p.length), ?_⟩
  rw [readLine, hread]
  have htake : (head ++ (p ++ buf₁.drop p.length)).take (p.length + lenSize) = head ++ p := by
    rw [← append_assoc]
    exact take_left' (by rw [length_append, hheadlen, add_comm])
  simp only [show ¬ p.length + lenSize < lenSize by omega, if_false, htake, drop_left' hheadlen]

lemma readLine_flush (rest buf : Bytes) : ∃ buf', readLine (flushPkt ++ rest) buf = (.ok (0, []), buf', rest) := by
  have hparse : parseLength (copyAt buf 0 flushPkt) = .ok 0 := by
    rw [copyAt_zero]
    exact parseLength_asciiHex16 (Nat.zero_le _) (by decide) _
  refine ⟨copyAt buf 0 flushPkt, ?_⟩
  rw [readLine, read, Stream.readFull_append (show flushPkt.length = lenSize from rfl)]
  simp only [hparse, Nat.zero_le, if_true]
  rfl

end GoGit.PktLine
