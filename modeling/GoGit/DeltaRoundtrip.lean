import GoGit.DeltaAccept
import GoGit.DeltaDiff
import GoGit.DeltaIndexValid

namespace GoGit.Delta

open List

lemma or_continuation {c : ℕ} (h : c < 128) : c ||| 0x80 = c + 128 := by
  have hor := Nat.two_pow_add_eq_or_of_lt (show c < 2 ^ 7 from h) 1
  norm_num at hor
  rw [Nat.or_comm, ← hor, Nat.add_comm]

lemma deltaEncodeSizeLoop_eq (ret : Bytes) (c size : ℕ) (hc : c < 128) :
    deltaEncodeSizeLoop ret c size = ret ++ Base128.encode (c + 128 * size) := by
  induction size using Nat.strongRecOn generalizing ret c with
  | ind size ih =>
    rw [deltaEncodeSizeLoop]
    split_ifs with hz
    · subst hz
      rw [Base128.encode, if_pos (by omega)]
      simp
    · have hlow : size &&& 0x7f = size % 128 := Base128.and_low size
      have hhigh : size >>> 7 = size / 128 := by
        rw [Nat.shiftRight_eq_div_pow]
      rw [hlow, hhigh, ih (size / 128) (by omega) _ _ (Nat.mod_lt _ (by norm_num)), or_continuation hc]
      have hsize : size % 128 + 128 * (size / 128) = size := Nat.mod_add_div _ _
      have hq : (c + 128 * size) / 128 = size := by omega
      have hr : (c + 128 * size) % 128 = c := by omega
      conv_rhs => rw [Base128.encode, if_neg (by omega), hq, hr]
      rw [hsize]
      simp

lemma deltaEncodeSize_eq (n : ℕ) : deltaEncodeSize n = Base128.encode n := by
  have hlow : n &&& 0x7f = n % 128 := Base128.and_low n
  have hhigh : n >>> 7 = n / 128 := by
    rw [Nat.shiftRight_eq_div_pow]
  rw [deltaEncodeSize, hlow, hhigh, deltaEncodeSizeLoop_eq _ _ _ (Nat.mod_lt _ (by norm_num)), Nat.mod_add_div]
  rfl

lemma header_encode {m n : ℕ} (body : Bytes) (hm : m < 2 ^ 64) (hn : n < 2 ^ 64) :
    header (deltaEncodeSize m ++ deltaEncodeSize n ++ body) = ⟨m, n, body⟩ := by
  simp only [header, deltaEncodeSize_eq, append_assoc, decodeLEB128_encode _ hm, decodeLEB128_encode _ hn]

def operandByte (operand shift : ℕ) : UInt8 := UInt8.ofNat (operand / 2 ^ shift % 256)

lemma operandByte_toNat (operand shift : ℕ) : (operandByte operand shift).toNat = operand / 2 ^ shift % 256 :=
  Base128.toNat_ofNat_of_lt (Nat.mod_lt _ (by norm_num))

lemma and_byte_shift (x k : ℕ) : x &&& 0xff <<< k = (x / 2 ^ k % 256) <<< k := by
  apply Nat.eq_of_testBit_eq
  intro j
  rw [← Nat.shiftRight_eq_div_pow, show (256 : ℕ) = 2 ^ 8 from rfl, Nat.testBit_and,
    Nat.testBit_shiftLeft, Nat.testBit_shiftLeft, Nat.testBit_mod_two_pow, Nat.testBit_shiftRight,
    show (0xff : ℕ) = 2 ^ 8 - 1 from rfl, Nat.testBit_two_pow_sub_one]
  by_cases hj : k ≤ j
  · simp [hj, Bool.and_comm]
  · simp [hj]

lemma and_byte_ne_zero (x k : ℕ) : x &&& 0xff <<< k ≠ 0 ↔ operandByte x k ≠ 0 := by
  rw [and_byte_shift, Nat.shiftLeft_eq]
  have hpos : 0 < 2 ^ k := by positivity
  constructor
  · intro h he
    apply h
    have := congrArg UInt8.toNat he
    rw [operandByte_toNat] at this
    simp [this]
  · intro h he
    apply h
    rcases Nat.mul_eq_zero.mp he with hz | hz
    · exact UInt8.toNat_inj.mp (by rw [operandByte_toNat, hz]; rfl)
    · omega

lemma and_byte_shiftRight (x k : ℕ) : UInt8.ofNat ((x &&& 0xff <<< k) >>> k) = operandByte x k := by
  rw [and_byte_shift, operandByte, Nat.shiftLeft_shiftRight]

/-- The bytes written for an operand: those of its bytes that are not zero. -/
def operandBytes (operand : ℕ) (shifts : List ℕ) : Bytes :=
  (shifts.map (operandByte operand)).filter (· ≠ 0)

lemma encodeOperand_eq (operand flag : ℕ) (is : List ℕ) (st : ℕ × Bytes) : encodeOperand operand flag is st =
      (is.foldl (fun c i => if operandByte operand (i * 8) ≠ 0 then c ||| flag <<< i else c) st.1,
        st.2 ++ operandBytes operand (is.map (· * 8))) := by
  induction is generalizing st with
  | nil => simp [encodeOperand, operandBytes]
  | cons i is ih =>
    have hstep : encodeOperand operand flag (i :: is) st = encodeOperand operand flag is
        (if operandByte operand (i * 8) ≠ 0 then
          (st.1 ||| flag <<< i, st.2 ++ [operandByte operand (i * 8)]) else st) := by
      simp only [encodeOperand, foldl_cons, and_byte_ne_zero, and_byte_shiftRight]
    rw [hstep, ih]
    by_cases hb : operandByte operand (i * 8) = 0
    · simp [hb, operandBytes]
    · simp [hb, operandBytes]

lemma decodeOperand_operandBytes {e : PackError} {cmd : UInt8} {operand : ℕ} (rest : Bytes) :
    ∀ (table : List Offset) (acc : ℕ), (∀ o ∈ table, cmd &&& o.mask ≠ 0 ↔ operandByte operand o.shift ≠ 0) →
      decodeOperand e cmd table acc (operandBytes operand (table.map Offset.shift) ++ rest) = .ok (table.foldl
          (fun a o => a ||| uint ((operandByte operand o.shift).toNat <<< o.shift)) acc, rest) := by
  intro table
  induction table with
  | nil => intro acc _; simp [decodeOperand, operandBytes]
  | cons o table ih =>
    intro acc hflags
    have ho := hflags o (by simp)
    have ht := fun acc => ih acc fun p hp => hflags p (by simp [hp])
    by_cases hb : operandByte operand o.shift = 0
    · have hz : ¬ (cmd &&& o.mask ≠ 0) := fun h => ho.mp h hb
      have hbytes : operandBytes operand ((o :: table).map Offset.shift) =
          operandBytes operand (table.map Offset.shift) := by simp [operandBytes, hb]
      simp only [hbytes, decodeOperand, hz, ↓reduceIte, ht acc, foldl_cons, hb]
      simp [uint]
    · have hbytes : operandBytes operand ((o :: table).map Offset.shift) =
          operandByte operand o.shift :: operandBytes operand (table.map Offset.shift) := by
        simp [operandBytes, hb]
      rw [hbytes, cons_append, decodeOperand, if_pos (ho.mpr hb)]
      exact ht _

lemma shift_uint {operand shift : ℕ} (h : shift ≤ 56) : uint ((operandByte operand shift).toNat <<< shift) =
      uint ((operand / 2 ^ shift % 256) <<< shift) ∧ (operand / 2 ^ shift % 256) <<< shift < 2 ^ 64 := by
  rw [operandByte_toNat]
  refine ⟨rfl, ?_⟩
  rw [Nat.shiftLeft_eq]
  calc operand / 2 ^ shift % 256 * 2 ^ shift < 256 * 2 ^ shift :=
        Nat.mul_lt_mul_of_pos_right (Nat.mod_lt _ (by norm_num)) (by positivity)
    _ ≤ 256 * 2 ^ 56 := Nat.mul_le_mul_left _ (Nat.pow_le_pow_right (by norm_num) h)
    _ = 2 ^ 64 := by norm_num

lemma or_next_byte (operand k : ℕ) (h : k ≤ 56) :
    operand % 2 ^ k ||| uint ((operandByte operand k).toNat <<< k) = operand % 2 ^ (k + 8) := by
  obtain ⟨he, hlt⟩ := @shift_uint operand k h
  have hlow : operand % 2 ^ k < 2 ^ k := Nat.mod_lt _ (by positivity)
  have hpow : 2 ^ (k + 8) = 2 ^ k * 256 := by
    rw [pow_add]
    norm_num
  rw [he, uint_of_lt hlt, Nat.or_comm, Nat.shiftLeft_eq, Nat.mul_comm,
    ← Nat.two_pow_add_eq_or_of_lt hlow, hpow, Nat.mod_mul, Nat.add_comm]

lemma fold_offsets {offset : ℕ} (h : offset < 2 ^ 32) :
    offsets.foldl (fun a o => a ||| uint ((operandByte offset o.shift).toNat <<< o.shift)) 0 =
      offset := by
  have h0 := or_next_byte offset 0 (by norm_num)
  rw [pow_zero, Nat.mod_one] at h0
  simp only [offsets, foldl_cons, foldl_nil]
  rw [h0, or_next_byte _ 8 (by norm_num), or_next_byte _ 16 (by norm_num), or_next_byte _ 24 (by norm_num)]
  exact Nat.mod_eq_of_lt h

lemma fold_sizes {size : ℕ} (h : size < 2 ^ 24) :
    sizes.foldl (fun a o => a ||| uint ((operandByte size o.shift).toNat <<< o.shift)) 0 = size := by
  have h0 := or_next_byte size 0 (by norm_num)
  rw [pow_zero, Nat.mod_one] at h0
  simp only [sizes, foldl_cons, foldl_nil]
  rw [h0, or_next_byte _ 8 (by norm_num), or_next_byte _ 16 (by norm_num)]
  exact Nat.mod_eq_of_lt h

/-- The command byte built from seven flags, in the order the encoder sets them. -/
def commandCode (a b c d e f g : Bool) : UInt8 :=
  let code := if a then 0x80 ||| 0x01 <<< 0 else 0x80
  let code := if b then code ||| 0x01 <<< 1 else code
  let code := if c then code ||| 0x01 <<< 2 else code
  let code := if d then code ||| 0x01 <<< 3 else code
  let code := if e then code ||| 0x10 <<< 0 else code
  let code := if f then code ||| 0x10 <<< 1 else code
  let code := if g then code ||| 0x10 <<< 2 else code
  UInt8.ofNat code

lemma commandCode_flags : ∀ a b c d e f g : Bool, isCopyFromSrc (commandCode a b c d e f g) = true ∧
    (commandCode a b c d e f g &&& 0x01 ≠ 0 ↔ a = true) ∧ (commandCode a b c d e f g &&& 0x02 ≠ 0 ↔ b = true) ∧
    (commandCode a b c d e f g &&& 0x04 ≠ 0 ↔ c = true) ∧ (commandCode a b c d e f g &&& 0x08 ≠ 0 ↔ d = true) ∧
    (commandCode a b c d e f g &&& 0x10 ≠ 0 ↔ e = true) ∧ (commandCode a b c d e f g &&& 0x20 ≠ 0 ↔ f = true) ∧
    (commandCode a b c d e f g &&& 0x40 ≠ 0 ↔ g = true) := by
  decide +kernel

lemma encodeCopyOperation_eq (offset length : ℕ) : encodeCopyOperation offset length =
      commandCode (operandByte offset 0 ≠ 0) (operandByte offset 8 ≠ 0)
        (operandByte offset 16 ≠ 0) (operandByte offset 24 ≠ 0) (operandByte length 0 ≠ 0)
        (operandByte length 8 ≠ 0) (operandByte length 16 ≠ 0) :: (operandBytes offset (offsets.map Offset.shift) ++
        operandBytes length (sizes.map Offset.shift)) := by
  simp only [encodeCopyOperation, encodeOperand_eq, foldl_cons, foldl_nil, commandCode, decide_eq_true_eq, nil_append]
  rfl

lemma readCommand_encodeCopyOperation {offset length : ℕ} (rest : Bytes) (ho : offset < 2 ^ 32)
    (hl : length < 2 ^ 24) (hpos : 0 < length) :
    readCommand (encodeCopyOperation offset length ++ rest) = .ok (.copy offset length, rest) := by
  obtain ⟨hcopy, hf⟩ := commandCode_flags (operandByte offset 0 ≠ 0) (operandByte offset 8 ≠ 0)
    (operandByte offset 16 ≠ 0) (operandByte offset 24 ≠ 0) (operandByte length 0 ≠ 0)
    (operandByte length 8 ≠ 0) (operandByte length 16 ≠ 0)
  rw [encodeCopyOperation_eq]
  set cmd := commandCode (operandByte offset 0 ≠ 0) (operandByte offset 8 ≠ 0)
    (operandByte offset 16 ≠ 0) (operandByte offset 24 ≠ 0) (operandByte length 0 ≠ 0)
    (operandByte length 8 ≠ 0) (operandByte length 16 ≠ 0)
  simp only [decide_eq_true_eq] at hf
  have hoff : ∀ o ∈ offsets, cmd &&& o.mask ≠ 0 ↔ operandByte offset o.shift ≠ 0 := by
    intro o hm
    simp only [offsets, mem_cons, not_mem_nil, or_false] at hm
    rcases hm with rfl | rfl | rfl | rfl
    · exact hf.1
    · exact hf.2.1
    · exact hf.2.2.1
    · exact hf.2.2.2.1
  have hsz : ∀ o ∈ sizes, cmd &&& o.mask ≠ 0 ↔ operandByte length o.shift ≠ 0 := by
    intro o hm
    simp only [sizes, mem_cons, not_mem_nil, or_false] at hm
    rcases hm with rfl | rfl | rfl
    · exact hf.2.2.2.2.1
    · exact hf.2.2.2.2.2.1
    · exact hf.2.2.2.2.2.2
  have hdo : decodeOffset cmd (operandBytes offset (offsets.map Offset.shift) ++
      (operandBytes length (sizes.map Offset.shift) ++ rest)) =
      .ok (offset, operandBytes length (sizes.map Offset.shift) ++ rest) := by
    rw [decodeOffset, decodeOperand_operandBytes _ _ _ hoff, fold_offsets ho]
  have hds : decodeSize cmd (operandBytes length (sizes.map Offset.shift) ++ rest) =
      .ok (length, rest) := by
    rw [decodeSize, decodeOperand_operandBytes _ _ _ hsz, fold_sizes hl]
    simp [Except.map, defaultSize, hpos.ne']
  simp only [cons_append, append_assoc, readCommand, hcopy, ↓reduceIte, readCopy, hdo, hds, Except.toOption,
    Option.bind_eq_bind, Option.bind_some, Option.pure_def]

end GoGit.Delta
