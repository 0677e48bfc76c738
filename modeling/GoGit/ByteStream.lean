import Mathlib

namespace ByteStream

open List

/-- The last `w` digits to base 256, the highest first. -/
def digits : ℕ → ℕ → List UInt8
  | 0, _ => []
  | w + 1, n => UInt8.ofNat (n / 256 ^ w) :: digits w n

def value (b : List UInt8) : ℕ := b.foldl (fun n x => n * 256 + x.toNat) 0

@[simp] lemma length_digits (w n : ℕ) : (digits w n).length = w := by
  induction w with
  | zero => rfl
  | succ w ih => simp [digits, ih]

lemma value_cons (x : UInt8) (b : List UInt8) : value (x :: b) = x.toNat * 256 ^ b.length + value b := by
  have hacc : ∀ (b : List UInt8) (n : ℕ),
      b.foldl (fun n x => n * 256 + x.toNat) n = n * 256 ^ b.length + value b := by
    intro b
    induction b with
    | nil => simp [value]
    | cons y b ih =>
      intro n
      rw [value, foldl_cons, foldl_cons, ih, ih, length_cons]
      ring
  rw [value, foldl_cons, hacc]
  ring

lemma value_digits (w n : ℕ) : value (digits w n) = n % 256 ^ w := by
  induction w with
  | zero => simp [digits, value, Nat.mod_one]
  | succ w ih =>
    rw [digits, value_cons, ih, length_digits, Nat.mod_pow_succ, UInt8.toNat_ofNat']
    ring

lemma value_digits_of_lt {w n : ℕ} (h : n < 256 ^ w) : value (digits w n) = n := by
  rw [value_digits, Nat.mod_eq_of_lt h]

@[simp] lemma ofNat_value_digits_uint16 (x : UInt16) : UInt16.ofNat (value (digits 2 x.toNat)) = x := by
  rw [value_digits_of_lt x.toNat_lt, UInt16.ofNat_toNat]

@[simp] lemma ofNat_value_digits_uint32 (x : UInt32) : UInt32.ofNat (value (digits 4 x.toNat)) = x := by
  rw [value_digits_of_lt x.toNat_lt, UInt32.ofNat_toNat]

@[simp] lemma ofNat_value_digits_uint64 (x : UInt64) : UInt64.ofNat (value (digits 8 x.toNat)) = x := by
  rw [value_digits_of_lt x.toNat_lt, UInt64.ofNat_toNat]

lemma and_two_pow_ne_zero_iff {n w : ℕ} (hn : n < 2 ^ (w + 1)) : n &&& 2 ^ w ≠ 0 ↔ 2 ^ w ≤ n := by
  have hbit : n.testBit w = decide (2 ^ w ≤ n) := by
    rw [Nat.testBit_eq_decide_div_mod_eq, decide_eq_decide]
    have hlt : n / 2 ^ w < 2 := by
      rw [Nat.div_lt_iff_lt_mul (by positivity)]
      rw [pow_succ] at hn
      omega
    have hpos : 0 < n / 2 ^ w ↔ 2 ^ w ≤ n := by
      rw [Nat.div_pos_iff]
      exact ⟨fun h => h.2, fun h => ⟨by positivity, h⟩⟩
    rw [← hpos]
    generalize n / 2 ^ w = q at hlt
    omega
  rw [Nat.and_two_pow, hbit]
  by_cases h : 2 ^ w ≤ n <;> simp [h]

section Records

variable {α β : Type*} {l : List α} {f : α → List β} {w : ℕ}

section

variable (h : ∀ a ∈ l, (f a).length = w)

include h

lemma length_records : (l.flatMap f).length = l.length * w := by
  induction l with
  | nil => simp
  | cons a l ih =>
    rw [flatMap_cons, length_append, h a (by simp), ih fun b hb => h b (by simp [hb]), length_cons]
    ring

lemma drop_records (i : ℕ) : (l.flatMap f).drop (i * w) = (l.drop i).flatMap f := by
  induction i generalizing l with
  | zero => simp
  | succ i ih =>
    cases l with
    | nil => simp
    | cons a l =>
      have ha := h a (by simp)
      rw [flatMap_cons, Nat.succ_mul, Nat.add_comm, ← drop_drop, drop_left' ha, drop_succ_cons]
      exact ih fun b hb => h b (by simp [hb])

lemma record_at {i : ℕ} {a : α} (hi : l[i]? = some a) : ((l.flatMap f).drop (i * w)).take w = f a := by
  obtain ⟨hlt, rfl⟩ := List.getElem?_eq_some_iff.mp hi
  rw [drop_records h, drop_eq_getElem_cons hlt, flatMap_cons]
  exact take_left' (h _ (getElem_mem hlt))

end

end Records

def split {α : Type*} (n : ℕ) (s : List α) : Option (List α × List α) :=
  if n ≤ s.length then some (s.take n, s.drop n) else none

lemma split_append {α : Type*} {n : ℕ} {a : List α} (h : a.length = n) (rest : List α) :
    split n (a ++ rest) = some (a, rest) := by
  rw [split, if_pos (by simp; omega), take_left' h, drop_left' h]

end ByteStream

namespace Hex

def digit (n : UInt8) : UInt8 := if n < 10 then 48 + n else 87 + n

def encode (l : List UInt8) : List UInt8 := l.flatMap fun b => [digit (b / 16), digit (b % 16)]

def value (c : UInt8) : Option UInt8 :=
  if 48 ≤ c ∧ c ≤ 57 then some (c - 48)
  else if 97 ≤ c ∧ c ≤ 102 then some (c - 87)
  else if 65 ≤ c ∧ c ≤ 70 then some (c - 55)
  else none

def decode : List UInt8 → Option (List UInt8)
  | [] => some []
  | [_] => none
  | a :: b :: rest =>
    match value a, value b, decode rest with
    | some x, some y, some l => some ((x * 16 + y) :: l)
    | _, _, _ => none

lemma value_digits : ∀ b : UInt8, value (digit (b / 16)) = some (b / 16) ∧ value (digit (b % 16)) = some (b % 16) ∧
      b / 16 * 16 + b % 16 = b := by
  intro b
  have hall : ∀ n : Fin 256, value (digit (UInt8.ofFin n / 16)) = some (UInt8.ofFin n / 16) ∧
      value (digit (UInt8.ofFin n % 16)) = some (UInt8.ofFin n % 16) ∧
      UInt8.ofFin n / 16 * 16 + UInt8.ofFin n % 16 = UInt8.ofFin n := by decide +kernel
  exact hall b.toFin

lemma decode_encode (l : List UInt8) : decode (encode l) = some l := by
  induction l with
  | nil => rfl
  | cons b l ih =>
    obtain ⟨hhigh, hlow, hsum⟩ := value_digits b
    change decode (digit (b / 16) :: digit (b % 16) :: encode l) = _
    simp only [decode, hhigh, hlow, ih, hsum]

lemma length_encode (l : List UInt8) : (encode l).length = 2 * l.length := by
  induction l with
  | nil => rfl
  | cons b l ih =>
    change (encode l).length + 2 = 2 * (l.length + 1)
    omega

def IsDigit (c : UInt8) : Prop := (48 ≤ c ∧ c ≤ 57) ∨ (97 ≤ c ∧ c ≤ 102)

instance : DecidablePred IsDigit :=
  fun c => inferInstanceAs (Decidable ((48 ≤ c ∧ c ≤ 57) ∨ (97 ≤ c ∧ c ≤ 102)))

lemma isDigit_of_mem_encode {l : List UInt8} {c : UInt8} (h : c ∈ encode l) : IsDigit c := by
  have hall : ∀ n : Fin 256, IsDigit (digit (UInt8.ofFin n / 16)) ∧
      IsDigit (digit (UInt8.ofFin n % 16)) := by decide +kernel
  obtain ⟨x, -, hx⟩ := List.mem_flatMap.mp h
  rcases List.mem_pair.mp hx with rfl | rfl
  · exact (hall x.toFin).1
  · exact (hall x.toFin).2

end Hex
