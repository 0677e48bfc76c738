import GoGit.PackError

/-! The SHA-1 implementation is a parameter: the model says which bytes are hashed and where the sum is stored. -/
namespace GoGit

open List

def textBytes (s : String) : Bytes := s.toUTF8.data.toList

def int64 (n : ℕ) : ℤ :=
  if n % 2 ^ 64 < 2 ^ 63 then (n % 2 ^ 64 : ℕ) else (n % 2 ^ 64 : ℕ) - 2 ^ 64

lemma int64_of_lt {n : ℕ} (h : n < 2 ^ 63) : int64 n = n := by
  have hmod : n % 2 ^ 64 = n := Nat.mod_eq_of_lt (by omega)
  rw [int64, hmod, if_pos h]

lemma int64_lt (n : ℕ) : int64 n < 2 ^ 63 := by
  unfold int64
  split_ifs <;> omega

def formatInt : ℤ → Bytes
  | .ofNat n => (Nat.toDigits 10 n).map fun c => UInt8.ofNat c.toNat
  | .negSucc n => 45 :: (Nat.toDigits 10 (n + 1)).map fun c => UInt8.ofNat c.toNat

structure Time where
  sec : ℤ
  nsec : ℕ
  nsec_lt : nsec < 10 ^ 9
  deriving DecidableEq

namespace Time

def zero : Time := ⟨-62135596800, 0, by norm_num⟩

def isZero (t : Time) : Bool := t = zero

/-- `time.Unix`: whole seconds among the nanoseconds are carried. -/
def unix (sec : ℤ) (nsec : ℕ) : Time :=
  ⟨sec + (nsec / 10 ^ 9 : ℕ), nsec % 10 ^ 9, Nat.mod_lt _ (by norm_num)⟩

def before (t u : Time) : Bool := t.sec < u.sec ∨ (t.sec = u.sec ∧ t.nsec < u.nsec)

def after (t u : Time) : Bool := u.before t

end Time

inductive ObjectType
  | invalid
  | commit
  | tree
  | blob
  | tag
  | reserved
  | ofsDelta
  | refDelta
  | any
  deriving DecidableEq, Repr

namespace ObjectType

def string : ObjectType → String
  | commit => "commit"
  | tree => "tree"
  | blob => "blob"
  | tag => "tag"
  | ofsDelta => "ofs-delta"
  | refDelta => "ref-delta"
  | any => "any"
  | _ => "unknown"

def bytes (t : ObjectType) : Bytes := textBytes t.string

def toInt : ObjectType → ℤ
  | invalid => 0
  | commit => 1
  | tree => 2
  | blob => 3
  | tag => 4
  | reserved => 5
  | ofsDelta => 6
  | refDelta => 7
  | any => -127

def ofBits : ℕ → ObjectType
  | 0 => invalid
  | 1 => commit
  | 2 => tree
  | 3 => blob
  | 4 => tag
  | 5 => reserved
  | 6 => ofsDelta
  | _ => refDelta

/-- The reserved value lies between the first and the last type and counts as valid. -/
def valid : ObjectType → Bool
  | invalid | any => false
  | _ => true

def isDelta : ObjectType → Bool
  | ofsDelta | refDelta => true
  | _ => false

end ObjectType

inductive ObjectFormat
  | sha1
  | sha256
  deriving DecidableEq, Repr

def ObjectFormat.size : ObjectFormat → ℕ
  | sha1 => 20
  | sha256 => 32

/-- The array is as long as the longest sum; a shorter one leaves its end untouched. -/
structure ObjectID where
  hash : Bytes
  format : ObjectFormat
  length_hash : hash.length = 32
  deriving DecidableEq

namespace ObjectID

variable {s : ObjectID}

def zeroHash : ObjectID := ⟨List.replicate 32 0, .sha1, by simp⟩

/-- The name of one byte and then zeros. -/
def short (b : UInt8) : ObjectID := ⟨b :: List.replicate 31 0, .sha1, by simp⟩

def IsZero (s : ObjectID) : Bool := s.hash = List.replicate 32 0

def write (s : ObjectID) (input : Bytes) : ObjectID :=
  { s with
    hash := input.take 32 ++ s.hash.drop input.length
    length_hash := by
      have := s.length_hash
      simp only [length_append, length_take, length_drop]
      omega }

def bytes (s : ObjectID) : Bytes := s.hash.take s.format.size

lemma eq_of_hash {s t : ObjectID} (hash : s.hash = t.hash) (format : s.format = t.format) : s = t := by
  cases s
  cases t
  simp_all

def string (s : ObjectID) : Bytes := Hex.encode s.bytes

/-- The format is told by the number of digits; what is no name of either format counts as SHA-1. -/
def fromHex (digits : Bytes) : ObjectID :=
  let id : ObjectID := { zeroHash with format := if digits.length = 64 then .sha256 else .sha1 }
  match Hex.decode digits with
  | none => id
  | some sum => id.write sum

def Proper (s : ObjectID) : Prop := s.hash.drop s.format.size = List.replicate (32 - s.format.size) 0

instance : DecidablePred Proper := fun _ => inferInstanceAs (Decidable (_ = _))

section

variable (s : ObjectID)

lemma length_bytes_eq : s.bytes.length = s.format.size := by
  have hsize : s.format.size ≤ 32 := by cases s.format <;> decide
  rw [bytes, length_take, s.length_hash, min_eq_left hsize]

lemma fromHex_string : (fromHex s.string).format = s.format ∧
    (fromHex s.string).hash = s.bytes ++ List.replicate (32 - s.format.size) 0 := by
  have hbytes := s.length_bytes_eq
  have hsize : s.format.size ≤ 32 := by cases s.format <;> decide
  have htake : s.bytes.take 32 = s.bytes := take_of_length_le (by omega)
  rw [fromHex, string, Hex.decode_encode]
  constructor
  · change (if (Hex.encode s.bytes).length = 64 then ObjectFormat.sha256 else .sha1) = s.format
    rw [Hex.length_encode, hbytes]
    cases s.format <;> rfl
  · change s.bytes.take 32 ++ (List.replicate 32 0).drop s.bytes.length = _
    rw [htake, hbytes, drop_replicate]

lemma fromHex_string_iff : fromHex s.string = s ↔ s.Proper := by
  obtain ⟨hformat, hhash⟩ := s.fromHex_string
  constructor
  · intro heq
    rw [heq] at hhash
    rw [Proper, hhash, ← s.length_bytes_eq, drop_left]
  · intro h
    refine eq_of_hash ?_ hformat
    rw [hhash, ← h, bytes, take_append_drop]

lemma string_fromHex_string : (fromHex s.string).string = s.string := by
  obtain ⟨hformat, hhash⟩ := s.fromHex_string
  rw [string, bytes, hformat, hhash, ← s.length_bytes_eq, take_left]
  rfl

end

lemma Proper.fromHex_string (h : s.Proper) : fromHex s.string = s :=
  s.fromHex_string_iff.mpr h

lemma Proper.eq_of_string {s t : ObjectID} (hs : s.Proper) (ht : t.Proper) (h : s.string = t.string) : s = t := by
  rw [← hs.fromHex_string, h, ht.fromHex_string]

/-- A SHA-1 name: nothing is behind its twenty bytes. -/
def IsSHA1 (s : ObjectID) : Prop := s.format = .sha1 ∧ s.hash.drop 20 = List.replicate 12 0

lemma length_bytes (h : s.format = .sha1) : s.bytes.length = 20 := by
  rw [s.length_bytes_eq, h]
  rfl

lemma hash_write_bytes (h : s.format = .sha1) : (zeroHash.write s.bytes).hash = s.bytes ++ List.replicate 12 0 := by
  have hlen := length_bytes h
  have htake : s.bytes.take 32 = s.bytes := take_of_length_le (by omega)
  change s.bytes.take 32 ++ (List.replicate 32 0).drop s.bytes.length = _
  rw [htake, hlen, drop_replicate]

lemma IsSHA1.write_bytes (h : s.IsSHA1) : zeroHash.write s.bytes = s := by
  refine eq_of_hash ?_ h.1.symm
  rw [hash_write_bytes h.1, ← h.2, bytes, h.1, ObjectFormat.size, take_append_drop]

end ObjectID

/-- What a hasher holds once it has been reset for an object. -/
def hasherReset (t : ObjectType) (size : ℤ) : Bytes := t.bytes ++ [32] ++ formatInt size ++ [0]

section

variable (sha1 : Bytes → Bytes)

def hasherSum (written : Bytes) : ObjectID := ObjectID.zeroHash.write (sha1 written)

def ComputeHash (t : ObjectType) (content : Bytes) : ObjectID :=
  hasherSum sha1 (hasherReset t (int64 content.length) ++ content)

end

end GoGit

namespace GoGit

abbrev ReferenceName := Bytes

inductive ReferenceTarget
  | hash (h : ObjectID)
  | symbolic (target : ReferenceName)
  deriving DecidableEq

structure Reference where
  name : ReferenceName
  target : ReferenceTarget
  deriving DecidableEq

def symrefPrefix : Bytes := [0x72, 0x65, 0x66, 0x3a, 0x20]

namespace Reference

def newReferenceFromStrings (name target : Bytes) : Reference :=
  if symrefPrefix <+: target then ⟨name, .symbolic (target.drop symrefPrefix.length)⟩
  else ⟨name, .hash (.fromHex target)⟩

/-- `Hash`, which is zero for a symbolic reference. -/
def hash (r : Reference) : ObjectID :=
  match r.target with
  | .hash h => h
  | .symbolic _ => .zeroHash

def string (r : Reference) : Bytes :=
  match r.target with
  | .hash h => h.string ++ [0x20] ++ r.name
  | .symbolic target => symrefPrefix ++ target ++ [0x20] ++ r.name

end Reference

inductive ResolveError
  | referenceNotFound
  | maxResolveRecursion
  deriving DecidableEq

def MaxResolveRecursion : ℕ := 1024

section Resolve

variable (read : ReferenceName → Option Reference)

def resolveReference : ℕ → Reference → Except ResolveError Reference
  | left, r =>
    match r.target with
    | .hash _ => .ok r
    | .symbolic target =>
      match left with
      | 0 => .error .maxResolveRecursion
      | left + 1 =>
        match read target with
        | none => .error .referenceNotFound
        | some t => resolveReference left t

def ResolveReference (n : ReferenceName) : Except ResolveError Reference :=
  match read n with
  | none => .error .referenceNotFound
  | some r => resolveReference read (MaxResolveRecursion + 1) r

end Resolve

end GoGit
