import GoGit.DeltaRoundtrip
import GoGit.PackEncode
import GoGit.PackOrder

namespace GoGit.Pack

open List

lemma uint8_and_high (b : UInt8) : b.toNat &&& 0x80 = 0 ↔ b.toNat < 128 :=
  Base128.and_high_eq_zero b.toNat_lt

variable {data rest : Bytes} {pos : ℕ}

lemma drop_succ_of_drop {b : UInt8} (h : data.drop pos = b :: rest) : data.drop (pos + 1) = rest := by
  rw [← drop_drop, h, drop_one, tail_cons]

lemma wrapInt64_natCast {n : ℕ} (h : n < 2 ^ 63) : wrapInt64 n = n :=
  Int.bmod_eq_of_le (by omega) (by omega)

lemma continuation_byte (n : ℕ) : ∃ b : UInt8, UInt8.ofNat (0x80 ||| (n &&& 0x7f)) = b ∧
    b.toNat % 128 = n % 128 ∧ b.toNat &&& 0x80 ≠ 0 := by
  have hlow : n &&& 0x7f = n % 128 := Base128.and_low n
  have hlt : n % 128 < 128 := Nat.mod_lt _ (by norm_num)
  have hb : (UInt8.ofNat (0x80 ||| (n &&& 0x7f))).toNat = n % 128 + 128 := by
    rw [hlow, Nat.or_comm, Delta.or_continuation hlt, Base128.toNat_ofNat_of_lt (by omega)]
  refine ⟨_, rfl, by rw [hb]; omega, ?_⟩
  rw [ne_eq, uint8_and_high, hb]
  omega

lemma variableWidth_read {m : ℕ} (hm : 0 < m) (hlt : m < 2 ^ 63) (buf : Bytes)
    (hdata : data.drop pos = variableWidthBytes buf m ++ rest) :
    ∃ pos', readVariableWidthInt data pos = variableWidthLoop (m - 1 : ℕ) (buf ++ rest) pos' ∧
      pos' + buf.length = pos + (variableWidthBytes buf m).length := by
  induction m using Nat.strongRecOn generalizing buf with
  | ind m ih =>
    obtain ⟨b, hb, hmod, hcont⟩ := continuation_byte (m - 1)
    have hshift : (m - 1) >>> 7 = (m - 1) / 128 := Nat.shiftRight_eq_div_pow _ _
    rw [variableWidthBytes, if_neg (by omega), hb, hshift] at hdata ⊢
    by_cases hzero : (m - 1) / 128 = 0
    · rw [hzero, variableWidthBytes, if_pos rfl] at hdata ⊢
      refine ⟨pos + 1, ?_, by simp only [length_cons]; omega⟩
      have hrest := drop_succ_of_drop hdata
      have hbyte : readByte data pos = .ok (b, pos + 1) := by rw [readByte, hdata]; rfl
      have hv : b.toNat % 128 = m - 1 := by omega
      simp only [readVariableWidthInt, hbyte, bind, Except.bind, hcont, ne_eq, not_false_eq_true, ↓reduceIte, hrest, hv]
      rfl
    · obtain ⟨pos', hread, hpos⟩ := ih ((m - 1) / 128) (by omega) (by omega) (by omega) (b :: buf) hdata
      refine ⟨pos' + 1, ?_, by simp only [length_cons] at hpos; omega⟩
      have hv : wrapInt64 (wrapInt64 (((m - 1) / 128 - 1 : ℕ) + 1) * 128 + (b.toNat % 128 : ℕ)) =
          (m - 1 : ℕ) := by
        have h₁ : (((m - 1) / 128 - 1 : ℕ) : ℤ) + 1 = ((m - 1) / 128 : ℕ) := by omega
        rw [h₁, wrapInt64_natCast (by omega), hmod]
        have h₂ : (((m - 1) / 128 : ℕ) : ℤ) * 128 + ((m - 1) % 128 : ℕ) = (m - 1 : ℕ) := by omega
        rw [h₂, wrapInt64_natCast (by omega)]
      rw [hread, cons_append, variableWidthLoop, hv]
      simp only [ne_eq, hcont, not_false_eq_true, ↓reduceIte]

lemma read_WriteVariableWidthInt {n pos : ℕ} (hn : n < 2 ^ 63)
    (hdata : data.drop pos = WriteVariableWidthInt n ++ rest) :
    readVariableWidthInt data pos = .ok ((n : ℤ), pos + (WriteVariableWidthInt n).length) := by
  have hlow : n &&& 0x7f = n % 128 := Base128.and_low n
  have hshift : n >>> 7 = n / 128 := Nat.shiftRight_eq_div_pow _ _
  have hb : (UInt8.ofNat (n % 128)).toNat = n % 128 := Base128.toNat_ofNat_of_lt (by omega)
  have hhigh : (UInt8.ofNat (n % 128)).toNat &&& 0x80 = 0 := by
    rw [uint8_and_high, hb]
    omega
  rw [WriteVariableWidthInt, hlow, hshift] at hdata ⊢
  by_cases hzero : n / 128 = 0
  · rw [hzero, variableWidthBytes, if_pos rfl] at hdata ⊢
    have hbyte : readByte data pos = .ok (UInt8.ofNat (n % 128), pos + 1) := by
      rw [readByte, hdata]
      rfl
    have hv : (((n % 128 : ℕ) : ℤ)) = n := by omega
    simp only [readVariableWidthInt, hbyte, bind, Except.bind, hhigh, ne_eq, not_true_eq_false, ↓reduceIte]
    rw [hb, Nat.mod_mod, hv]
    rfl
  · obtain ⟨pos', hread, hpos⟩ := variableWidth_read (by omega) (by omega) [UInt8.ofNat (n % 128)] hdata
    have hv : wrapInt64 (wrapInt64 ((n / 128 - 1 : ℕ) + 1) * 128 +
        ((UInt8.ofNat (n % 128)).toNat % 128 : ℕ)) = (n : ℤ) := by
      have h₁ : ((n / 128 - 1 : ℕ) : ℤ) + 1 = (n / 128 : ℕ) := by omega
      rw [h₁, wrapInt64_natCast (by omega), hb]
      have h₂ : ((n / 128 : ℕ) : ℤ) * 128 + (n % 128 % 128 : ℕ) = (n : ℕ) := by omega
      rw [h₂, wrapInt64_natCast hn]
    rw [hread, cons_append, variableWidthLoop, hv]
    simp only [hhigh, ne_eq, not_true_eq_false, ↓reduceIte, Except.ok.injEq, Prod.mk.injEq, true_and]
    simpa using hpos

/-- An encoding is read back from in front of any bytes, and no encoding begins another one. -/
theorem readVariableWidthInt_prefix_free {n m pos : ℕ} {data rest : Bytes} (hn : n < 2 ^ 63) (hm : m < 2 ^ 63)
    (hdata : data.drop pos = WriteVariableWidthInt n ++ rest) :
    readVariableWidthInt data pos = .ok ((n : ℤ), pos + (WriteVariableWidthInt n).length) ∧
      (n ≠ m → WriteVariableWidthInt n ≠ WriteVariableWidthInt m ∧
        ¬ WriteVariableWidthInt n <+: WriteVariableWidthInt m) := by
  have hprefix : n ≠ m → ¬ WriteVariableWidthInt n <+: WriteVariableWidthInt m := by
    rintro hne ⟨t, ht⟩
    have hread : readVariableWidthInt (WriteVariableWidthInt m) 0 = _ := read_WriteVariableWidthInt hn ht.symm
    rw [read_WriteVariableWidthInt hm (append_nil _).symm] at hread
    cases hread
    exact hne rfl
  exact ⟨read_WriteVariableWidthInt hn hdata,
    fun hne => ⟨fun heq => hprefix hne (heq ▸ (List.prefix_refl _)), hprefix hne⟩⟩

theorem readVariableWidthInt_prefix_free_300 :
    readVariableWidthInt [129, 44, 7] 0 = .ok (300, 2) ∧ ¬ [129, 44] <+: WriteVariableWidthInt 301 := by
  have hwrite : WriteVariableWidthInt 300 = [129, 44] := by decide +kernel
  have h := @readVariableWidthInt_prefix_free 300 301 0 [129, 44, 7] [7] (by norm_num) (by norm_num)
    (by rw [hwrite]; rfl)
  rw [hwrite] at h
  exact ⟨h.1, (h.2 (by norm_num)).2⟩

lemma variableLengthLoop_encode (n : ℕ) {v shift : ℕ} (hv : v < 2 ^ shift) (hfit : v + 2 ^ shift * n < 2 ^ 64)
    (rest : Bytes) (offset : ℕ) :
    variableLengthLoop v shift (Base128.encode n ++ rest) offset =
      .ok (v + 2 ^ shift * n, offset + (Base128.encode n).length) := by
  induction n using Nat.strongRecOn generalizing v shift offset with
  | ind n ih =>
    have hor : ∀ c, v + 2 ^ shift * c < 2 ^ 64 → v ||| ((c <<< shift) % 2 ^ 64) = v + 2 ^ shift * c := by
      intro c hc
      have h := @Base128.or_shift_mod v shift c 64 hv
      rwa [Nat.mod_eq_of_lt (by omega), Nat.mod_eq_of_lt hc] at h
    rw [Base128.encode]
    split
    · rename_i hlt
      have hb : (UInt8.ofNat n).toNat = n := Base128.toNat_ofNat_of_lt (by omega)
      rw [cons_append, variableLengthLoop, if_pos ((uint8_and_high _).2 (by omega)), hb, Base128.and_low,
        Nat.mod_eq_of_lt hlt, hor n hfit]
      rfl
    · have hb : (UInt8.ofNat (n % 128 + 128)).toNat = n % 128 + 128 := Base128.toNat_ofNat_of_lt (by omega)
      have hlow : (n % 128 + 128) % 128 = n % 128 := by omega
      have hpow : 2 ^ (shift + 7) = 2 ^ shift * 128 := pow_add 2 shift 7
      have hsum : v + 2 ^ shift * (n % 128) + 2 ^ (shift + 7) * (n / 128) = v + 2 ^ shift * n := by
        rw [hpow, mul_assoc, add_assoc, ← mul_add, Nat.mod_add_div]
      have hnext : v + 2 ^ shift * (n % 128) < 2 ^ (shift + 7) := by
        have := Nat.mul_le_mul_left (2 ^ shift) (show n % 128 ≤ 127 by omega)
        omega
      rw [cons_append, variableLengthLoop, if_neg (by rw [uint8_and_high]; omega), hb, Base128.and_low, hlow,
        hor _ (by omega), ih (n / 128) (by omega) hnext (by omega), hsum, length_cons, Nat.add_right_comm,
        Nat.add_assoc]

lemma type_bits {x : ℕ} (h : x < 256) : (x &&& 0x70) >>> 4 = x / 16 % 8 := by
  have hall : ∀ i : Fin 256, (i.val &&& 0x70) >>> 4 = i.val / 16 % 8 := by decide +kernel
  exact hall ⟨x, h⟩

lemma ofBits_toInt {t : ObjectType} (ht : 1 ≤ t.toInt ∧ t.toInt ≤ 7) :
    ∃ k < 8, t.toInt.toNat = k ∧ ObjectType.ofBits k = t := by
  cases t <;> first
    | exact ⟨_, by decide, rfl, rfl⟩
    | simp [ObjectType.toInt] at ht

/-- Type and size of an entry are read back from in front of any bytes. -/
theorem readVariableLengthSize_entryHead {t : ObjectType} {size : ℕ} (ht : 1 ≤ t.toInt ∧ t.toInt ≤ 7)
    (hsize : size < 2 ^ 63) {data rest : Bytes} {pos : ℕ} (hdata : data.drop pos = entryHead t size ++ rest) :
    ∃ first, readByte data pos = .ok (first, pos + 1) ∧ parseType first = t ∧
      readVariableLengthSize first data (pos + 1) = .ok (size, pos + (entryHead t size).length) := by
  obtain ⟨k, hk, hnum, hbits⟩ := ofBits_toInt ht
  have hlow : ∀ x : ℕ, x &&& 0x0f = x % 16 := fun x => Nat.and_two_pow_sub_one_eq_mod x 4
  have hc : (k <<< 4) ||| (size &&& 0x0f) = k * 16 + size % 16 := by
    rw [hlow, Nat.shiftLeft_eq, Nat.mul_comm, Nat.two_pow_add_eq_or_of_lt (by omega)]
  have hhead : entryHead t size = Base128.encode (k * 16 + size % 16 + 128 * (size / 16)) := by
    rw [entryHead, hnum, hc, Nat.shiftRight_eq_div_pow, Delta.deltaEncodeSizeLoop_eq _ _ _ (by omega), nil_append]
  have htype : ∀ x < 256, x / 16 % 8 = k → ObjectType.ofBits ((x &&& 0x70) >>> 4) = t := by
    intro x hx hxk
    rw [type_bits hx, hxk, hbits]
  rw [hhead, Base128.encode] at hdata ⊢
  split at hdata
  · rename_i hlt
    rw [if_pos hlt]
    have hb := Base128.toNat_ofNat_of_lt (lt_trans hlt (by norm_num))
    refine ⟨_, by rw [readByte, hdata]; rfl, htype _ (by omega) (by omega), ?_⟩
    rw [readVariableLengthSize, hb, hlow, (Base128.and_high_eq_zero (by omega)).2 hlt, if_neg (by simp)]
    simp only [length_singleton, Except.ok.injEq, Prod.mk.injEq, and_true]
    omega
  · rename_i hge
    rw [if_neg hge]
    have hdiv : (k * 16 + size % 16 + 128 * (size / 16)) / 128 = size / 16 := by omega
    have hmod : (k * 16 + size % 16 + 128 * (size / 16)) % 128 = k * 16 + size % 16 := by omega
    rw [hdiv, hmod] at hdata ⊢
    rw [cons_append] at hdata
    have hb := @Base128.toNat_ofNat_of_lt (k * 16 + size % 16 + 128) (by omega)
    refine ⟨_, by rw [readByte, hdata], htype _ (by omega) (by omega), ?_⟩
    rw [readVariableLengthSize, hb, hlow, if_pos (by rw [ne_eq, Base128.and_high_eq_zero (by omega)]; omega),
      drop_succ_of_drop hdata, variableLengthLoop_encode (size / 16) (by omega) (by omega), length_cons]
    simp only [Except.ok.injEq, Prod.mk.injEq]
    omega

theorem readVariableLengthSize_entryHead_300 :
    ∃ first, readByte [188, 18, 7] 0 = .ok (first, 1) ∧ parseType first = .blob ∧
      readVariableLengthSize first [188, 18, 7] 1 = .ok (300, 2) := by
  have hhead : entryHead .blob 300 = [188, 18] := by decide +kernel
  have h := @readVariableLengthSize_entryHead .blob 300 (by decide) (by norm_num) [188, 18, 7] [7] 0
    (by rw [hhead]; rfl)
  rwa [hhead] at h

end GoGit.Pack
