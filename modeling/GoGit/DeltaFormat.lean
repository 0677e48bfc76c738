import GoGit.PackError

/-! Little-endian groups of seven bits, one group per byte, with the high bit set on every byte but the last. The
encoder is canonical; the decoder accepts padded encodings and rejects a string that ends inside a number. -/
namespace GoGit.Base128

def encode (n : ℕ) : List UInt8 :=
  if n < 128 then [UInt8.ofNat n] else UInt8.ofNat (n % 128 + 128) :: encode (n / 128)

lemma toNat_ofNat_of_lt {n : ℕ} (h : n < 256) : (UInt8.ofNat n).toNat = n := by
  rw [UInt8.toNat_ofNat']
  exact Nat.mod_eq_of_lt h

lemma encode_ne_nil (n : ℕ) : encode n ≠ [] := by
  rw [encode]
  split <;> simp

lemma encode_length_pos (n : ℕ) : 0 < (encode n).length :=
  List.length_pos_iff.mpr (encode_ne_nil n)

lemma and_low (x : ℕ) : x &&& 0x7f = x % 128 := Nat.and_two_pow_sub_one_eq_mod x 7

lemma and_high_eq_zero {x : ℕ} (h : x < 256) : x &&& 0x80 = 0 ↔ x < 128 := by
  have hall : ∀ i : Fin 256, (i.val &&& 0x80 = 0 ↔ i.val < 128) := by decide +kernel
  exact hall ⟨x, h⟩

lemma or_shift_mod {v s c w : ℕ} (h : v < 2 ^ s) : (v % 2 ^ w) ||| ((c <<< s) % 2 ^ w) = (v + 2 ^ s * c) % 2 ^ w := by
  rw [← Nat.or_mod_two_pow, Nat.or_comm, Nat.shiftLeft_eq, Nat.mul_comm c,
    ← Nat.two_pow_add_eq_or_of_lt h, Nat.add_comm]

end GoGit.Base128

/-! Readers for the two size headers and for the operands of a copy command. A Go `uint` is a natural number below `2
^ 64`; every operation that can leave that range wraps. -/
namespace GoGit.Delta

def uint (n : ℕ) : ℕ := n % 2 ^ 64

def uintSub (a b : ℕ) : ℕ := uint (a + (2 ^ 64 - b))

def payload : ℕ := 0x7f

def continuation : ℕ := 0x80

def minDeltaSize : ℕ := 4

def minCopySize : ℕ := 4

def maxCopySize : ℕ := 64 * 1024

structure Offset where
  mask : UInt8
  shift : ℕ
  deriving DecidableEq, Repr

def offsets : List Offset := [⟨0x01, 0⟩, ⟨0x02, 8⟩, ⟨0x04, 16⟩, ⟨0x08, 24⟩]

def sizes : List Offset := [⟨0x10, 0⟩, ⟨0x20, 8⟩, ⟨0x40, 16⟩]

variable (cmd : UInt8) (delta : Bytes)

def isCopyFromSrc : Bool := cmd &&& 0x80 ≠ 0

def isCopyFromDelta : Bool := cmd &&& 0x80 = 0 ∧ cmd ≠ 0

def invalidSize (sz targetSz : ℕ) : Bool := targetSz < sz

def sumOverflows (a b : ℕ) : Bool := uint (a + b) < a

def invalidOffsetSize (offset sz srcSz : ℕ) : Bool :=
  sumOverflows offset sz || srcSz < uint (offset + sz)

/-- The loop of `decodeLEB128`: it also stops, without an error, at the last byte. -/
def decodeLEB128Loop (num sz : ℕ) : Bytes → ℕ × Bytes
  | [] => (num, [])
  | b :: rest =>
    let num := num ||| uint ((b.toNat &&& payload) <<< uint (sz * 7))
    if b.toNat &&& continuation = 0 ∨ rest = [] then (num, rest)
    else decodeLEB128Loop num (sz + 1) rest

def decodeLEB128 (input : Bytes) : ℕ × Bytes := decodeLEB128Loop 0 0 input

/-- The same loop over a byte reader, which fails at the end of the stream. -/
def decodeLEB128ReaderLoop (num sz : ℕ) : Bytes → Except PackError (ℕ × Bytes)
  | [] => .error .eof
  | b :: rest =>
    let num := num ||| uint ((b.toNat &&& payload) <<< uint (sz * 7))
    if b.toNat &&& continuation = 0 then .ok (num, rest)
    else decodeLEB128ReaderLoop num (sz + 1) rest

def decodeLEB128ByteReader (input : Bytes) : Except PackError (ℕ × Bytes) :=
  decodeLEB128ReaderLoop 0 0 input

/-- Operand bytes of a copy command, one for each flag of `table` set in `cmd`. The
slice and the reader variants differ only in the error for a missing byte. -/
def decodeOperand (missing : PackError) (cmd : UInt8) : List Offset → ℕ → Bytes → Except PackError (ℕ × Bytes)
  | [], acc, delta => .ok (acc, delta)
  | o :: table, acc, delta =>
    if cmd &&& o.mask ≠ 0 then
      match delta with
      | [] => .error missing
      | next :: delta => decodeOperand missing cmd table (acc ||| uint (next.toNat <<< o.shift)) delta
    else decodeOperand missing cmd table acc delta

def defaultSize (sz : ℕ) : ℕ := if sz = 0 then maxCopySize else sz

def decodeOffset : Except PackError (ℕ × Bytes) :=
  decodeOperand .invalidDelta cmd offsets 0 delta

def decodeOffsetByteReader : Except PackError (ℕ × Bytes) :=
  decodeOperand .eof cmd offsets 0 delta

def decodeSize : Except PackError (ℕ × Bytes) :=
  (decodeOperand .invalidDelta cmd sizes 0 delta).map fun p => (defaultSize p.1, p.2)

def decodeSizeByteReader : Except PackError (ℕ × Bytes) :=
  (decodeOperand .eof cmd sizes 0 delta).map fun p => (defaultSize p.1, p.2)


lemma uint_lt (n : ℕ) : uint n < 2 ^ 64 := Nat.mod_lt _ (by positivity)

variable {n : ℕ}

lemma uint_of_lt (h : n < 2 ^ 64) : uint n = n := Nat.mod_eq_of_lt h

lemma uintSub_lt (a b : ℕ) : uintSub a b < 2 ^ 64 := uint_lt _

lemma uintSub_of_le {a b : ℕ} (ha : a < 2 ^ 64) (h : b ≤ a) : uintSub a b = a - b := by
  unfold uintSub uint
  omega

lemma group_uint {v sz c : ℕ} (hs : 7 * sz < 2 ^ 64) (hv : v < 2 ^ (7 * sz)) :
    uint v ||| uint (c <<< uint (sz * 7)) = uint (v + 2 ^ (7 * sz) * c) := by
  rw [uint_of_lt (show sz * 7 < 2 ^ 64 by omega), Nat.mul_comm sz 7]
  exact Base128.or_shift_mod hv

lemma decodeLEB128Loop_of_reader {input rest : Bytes} {num sz n : ℕ}
    (h : decodeLEB128ReaderLoop num sz input = .ok (n, rest)) : decodeLEB128Loop num sz input = (n, rest) := by
  induction input generalizing num sz with
  | nil => simp [decodeLEB128ReaderLoop] at h
  | cons b tail ih =>
    simp only [decodeLEB128ReaderLoop] at h
    simp only [decodeLEB128Loop]
    split_ifs at h with hb
    · simp only [Except.ok.injEq] at h
      simp [hb, h]
    · have hne : tail ≠ [] := by
        rintro rfl
        simp [decodeLEB128ReaderLoop] at h
      simp [hb, hne, ih h]

variable {e : PackError} {input : Bytes} {num sz : ℕ}

lemma decodeLEB128Loop_of_reader_error
    (h : decodeLEB128ReaderLoop num sz input = .error e) : (decodeLEB128Loop num sz input).2 = [] := by
  induction input generalizing num sz with
  | nil => rfl
  | cons b tail ih =>
    simp only [decodeLEB128ReaderLoop] at h
    simp only [decodeLEB128Loop]
    split_ifs at h with hb
    by_cases ht : tail = []
    · simp [ht]
    · simp [hb, ht, ih h]

lemma decodeLEB128Loop_lt (h : num < 2 ^ 64) : (decodeLEB128Loop num sz input).1 < 2 ^ 64 := by
  induction input generalizing num sz with
  | nil => exact h
  | cons b tail ih =>
    have hnum : num ||| uint ((b.toNat &&& payload) <<< uint (sz * 7)) < 2 ^ 64 :=
      Nat.or_lt_two_pow h (uint_lt _)
    simp only [decodeLEB128Loop]
    split_ifs
    · exact hnum
    · exact ih hnum

lemma decodeLEB128_lt (input : Bytes) : (decodeLEB128 input).1 < 2 ^ 64 :=
  decodeLEB128Loop_lt (by positivity)

lemma decodeLEB128ReaderLoop_encode {v sz n : ℕ} (rest : Bytes) (hs : 7 * sz < 2 ^ 64)
    (hv : v < 2 ^ (7 * sz)) (hfit : v + 2 ^ (7 * sz) * n < 2 ^ 64) :
    decodeLEB128ReaderLoop v sz (Base128.encode n ++ rest) = .ok (v + 2 ^ (7 * sz) * n, rest) := by
  induction n using Nat.strongRecOn generalizing v sz with
  | ind n ih =>
    have hv64 : uint v = v := uint_of_lt (by omega)
    rw [Base128.encode]
    split_ifs with hn
    · have hb := Base128.toNat_ofNat_of_lt (show n < 256 by omega)
      have hc : n &&& continuation = 0 := (Base128.and_high_eq_zero (by omega)).mpr hn
      have hp : n &&& payload = n := by
        rw [payload, Base128.and_low, Nat.mod_eq_of_lt hn]
      have hg := @group_uint v sz n hs hv
      rw [hv64, uint_of_lt hfit] at hg
      simp only [List.cons_append, List.nil_append, decodeLEB128ReaderLoop, hb, hc, ↓reduceIte, hp, hg]
    · have hb := Base128.toNat_ofNat_of_lt (show n % 128 + 128 < 256 by omega)
      have hc : ¬ (n % 128 + 128) &&& continuation = 0 := by
        rw [continuation, Base128.and_high_eq_zero (by omega)]
        omega
      have hp : (n % 128 + 128) &&& payload = n % 128 := by
        rw [payload, Base128.and_low]
        omega
      have hpow : 2 ^ (7 * (sz + 1)) = 2 ^ (7 * sz) * 128 := by
        rw [Nat.mul_add, pow_add]
        norm_num
      have hsplit : 2 ^ (7 * sz) * n = 2 ^ (7 * sz) * (n % 128) + 2 ^ (7 * sz) * 128 * (n / 128) := by
        rw [Nat.mul_assoc, ← Nat.mul_add, Nat.mod_add_div]
      have hlow : v + 2 ^ (7 * sz) * (n % 128) < 2 ^ 64 := by omega
      have hg := @group_uint v sz (n % 128) hs hv
      rw [hv64, uint_of_lt hlow] at hg
      have hsz : 7 * (sz + 1) < 2 ^ 64 := by
        have hlt : 2 ^ (7 * sz) < 2 ^ 64 := by
          have := Nat.le_mul_of_pos_right (2 ^ (7 * sz)) (show 0 < n by omega)
          omega
        have := (Nat.pow_lt_pow_iff_right (by norm_num : 1 < 2)).mp hlt
        omega
      have hv' : v + 2 ^ (7 * sz) * (n % 128) < 2 ^ (7 * (sz + 1)) := by
        have := Nat.mul_le_mul_left (2 ^ (7 * sz)) (show n % 128 ≤ 127 by omega)
        omega
      simp only [List.cons_append, decodeLEB128ReaderLoop, hb, hc, ↓reduceIte, hp, hg]
      rw [ih (n / 128) (by omega) hsz hv' (by rw [hpow]; omega), hpow]
      congr 2
      omega

lemma decodeLEB128ByteReader_encode (rest : Bytes) (h : n < 2 ^ 64) :
    decodeLEB128ByteReader (Base128.encode n ++ rest) = .ok (n, rest) := by
  simpa [decodeLEB128ByteReader] using
    @decodeLEB128ReaderLoop_encode 0 0 n rest (by norm_num) (by norm_num) (by simpa using h)

lemma decodeLEB128_encode (rest : Bytes) (h : n < 2 ^ 64) : decodeLEB128 (Base128.encode n ++ rest) = (n, rest) :=
  decodeLEB128Loop_of_reader (decodeLEB128ByteReader_encode rest h)

lemma decodeOperand_missing (e e' : PackError) (cmd : UInt8) (table : List Offset) (acc : ℕ)
    (delta : Bytes) : decodeOperand e cmd table acc delta =
      (decodeOperand e' cmd table acc delta).mapError fun _ => e := by
  induction table generalizing acc delta with
  | nil => rfl
  | cons o table ih =>
    simp only [decodeOperand]
    split_ifs
    · cases delta with
      | nil => rfl
      | cons b delta => exact ih _ _
    · exact ih _ _

variable {table : List Offset}

lemma decodeOperand_length {cmd : UInt8} {acc n : ℕ}
    {delta rest : Bytes} (h : decodeOperand e cmd table acc delta = .ok (n, rest)) : rest.length ≤ delta.length := by
  induction table generalizing acc delta with
  | nil =>
    simp only [decodeOperand, Except.ok.injEq, Prod.mk.injEq] at h
    simp [h.2]
  | cons o table ih =>
    simp only [decodeOperand] at h
    split_ifs at h
    · cases delta with
      | nil => simp at h
      | cons b delta =>
        have := ih h
        simp only [List.length_cons]
        omega
    · exact ih h

lemma decodeOperand_lt {cmd : UInt8} {acc n w : ℕ}
    {delta rest : Bytes} (h : decodeOperand e cmd table acc delta = .ok (n, rest))
    (hacc : acc < 2 ^ w) (hshift : ∀ o ∈ table, o.shift + 8 ≤ w) : n < 2 ^ w := by
  induction table generalizing acc delta with
  | nil =>
    simp only [decodeOperand, Except.ok.injEq, Prod.mk.injEq] at h
    omega
  | cons o table ih =>
    have ht : ∀ o ∈ table, o.shift + 8 ≤ w := fun o ho => hshift o (by simp [ho])
    simp only [decodeOperand] at h
    split_ifs at h
    · cases delta with
      | nil => simp at h
      | cons b delta =>
        refine ih h (Nat.or_lt_two_pow hacc ?_) ht
        have hb : b.toNat <<< o.shift < 2 ^ (o.shift + 8) := by
          rw [Nat.shiftLeft_eq, pow_add, Nat.mul_comm]
          exact Nat.mul_lt_mul_of_pos_left b.toNat_lt (by positivity)
        have hw := Nat.pow_le_pow_right (by norm_num : 1 ≤ 2) (hshift o (by simp))
        exact lt_of_le_of_lt (Nat.mod_le _ _) (lt_of_lt_of_le hb hw)
    · exact ih h hacc ht

end GoGit.Delta
