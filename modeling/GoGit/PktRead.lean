import GoGit.Object
import GoGit.PktLine

namespace GoGit.PktLine

open List

structure Slice where
  mem : Bytes
  len : ℕ
  len_le : len ≤ mem.length

variable {b : Bytes}

namespace Slice

def cap (p : Slice) : ℕ := p.mem.length

def bytes (p : Slice) : Bytes := p.mem.take p.len

lemma len_le_copyAt (p : Slice) (off : ℕ) (b : Bytes) : p.len ≤ (copyAt p.mem off b).length := by
  have := p.len_le
  simp only [copyAt, length_append, length_take, length_drop]
  omega

def write (p : Slice) (off : ℕ) (b : Bytes) : Slice where
  mem := copyAt p.mem off b
  len := p.len
  len_le := p.len_le_copyAt off b

lemma length_bytes (p : Slice) : p.bytes.length = p.len := by
  rw [bytes, length_take, min_eq_left p.len_le]

lemma cap_write {p : Slice} {off : ℕ} (h : off + b.length ≤ p.cap) : (p.write off b).cap = p.cap := by
  rw [cap] at h
  simp only [cap, write, copyAt, length_append, length_take, length_drop]
  omega

end Slice

def err : ℤ := -1

/-- What is returned for a packet that was read; the text `ERR ` is looked for in the whole slice. -/
def lineOf (length : ℕ) (p : Slice) : ℤ × Option Fault :=
  if errPrefix.isPrefixOf (p.bytes.drop lenSize) then
    if length < lenSize + errPrefix.length then (err, some .sliceBounds)
    else
      let text := (p.mem.take length).drop (lenSize + errPrefix.length)
      (length, some (.errorLine (Trim.trimSpace text)))
  else (length, none)

/-- `Read`: the length and the error, the slice and what is left of the stream. A slice can be extended up to its
capacity. -/
def readSlice (r : Bytes) (p : Slice) : (ℤ × Option Fault) × Slice × Bytes :=
  if p.cap < lenSize then ((err, some .sliceBounds), p, r)
  else
    match Stream.readFull r lenSize with
    | .error .unexpectedEOF => ((err, some (.invalidPktLen .short)), p.write 0 r, [])
    | .error .eof => ((err, some (.io .eof)), p, [])
    | .ok (b, r) =>
      let p := p.write 0 b
      match parseLength p.bytes with
      | .error e => ((err, some e), p, r)
      | .ok length =>
        if length ≤ lenSize then ((length, none), p, r)
        else if p.cap < length then ((err, some .sliceBounds), p, r)
        else
          match Stream.readFull r (length - lenSize) with
          | .error e => ((err, some (.io e)), p.write lenSize r, [])
          | .ok (b, r) =>
            let p := p.write lenSize b
            (lineOf length p, p, r)

def declared (r : Bytes) : Except Fault ℕ :=
  match Stream.readFull r lenSize with
  | .error .unexpectedEOF => .error (.invalidPktLen .short)
  | .error .eof => .error (.io .eof)
  | .ok (b, _) => parseLength b

/-- The first packet of a stream that declares the length `l` for it. -/
def payloadOf (r : Bytes) (l : ℕ) : Except IoError Bytes := (Stream.readFull (r.drop lenSize) (l - lenSize)).map Prod.fst

/-- What is returned for a slice of the length `n`, and the payload that is in the slice. -/
def Expected (r : Bytes) (n : ℕ) (o : ℤ × Option Fault) (p : Slice) : Prop :=
  if n < lenSize then o.1 = err ∧ ∃ cause, o.2 = some (.invalidPktLen cause)
  else
    match declared r with
    | .error e => o = (err, some e)
    | .ok l =>
      if l ≤ lenSize then o = (↑l, none)
      else if n < l then o = (err, some (.io .unexpectedEOF))
      else
        match payloadOf r l with
        | .error e => o = (err, some (.io e))
        | .ok payload =>
          if errPrefix <+: payload then o = (↑l, some (.errorLine (Trim.trimSpace (payload.drop errPrefix.length))))
          else o = (↑l, none) ∧ (p.bytes.take l).drop lenSize = payload

/-- Whatever was in the slice, the read does not panic, and returns what is expected, and always the same. -/
def Secure (r : Bytes) (len cap : ℕ) : Prop :=
  (∀ p : Slice, p.len = len → p.cap = cap →
    (readSlice r p).1.2 ≠ some .sliceBounds ∧ Expected r len (readSlice r p).1 (readSlice r p).2.1) ∧
  ∀ p q : Slice, p.len = len → p.cap = cap → q.len = len → q.cap = cap → (readSlice r p).1 = (readSlice r q).1

/-- A slice that is too short for a length can be extended and there is something to read; a packet that does not
fit the slice fits its capacity and is not complete in the stream; and a payload shorter than the text `ERR ` is no
beginning of that text, if the slice has room for it. -/
def Tame (r : Bytes) (len cap : ℕ) : Prop :=
  if len < lenSize then lenSize ≤ cap ∧ r ≠ []
  else ∀ l, declared r = .ok l → lenSize < l →
    if len < l then l ≤ cap ∧ r.drop lenSize ≠ [] ∧ r.length < l
    else ¬ (lenSize + errPrefix.length ≤ len ∧ l < lenSize + errPrefix.length ∧ ∃ payload, payloadOf r l = .ok payload ∧
      payload <+: errPrefix)

lemma readFull_cases (s : Bytes) (n : ℕ) :
    (∃ b rest, s = b ++ rest ∧ b.length = n ∧ Stream.readFull s n = .ok (b, rest)) ∨
      s.length < n ∧ Stream.readFull s n = .error (if s = [] then .eof else .unexpectedEOF) := by
  by_cases h : n ≤ s.length
  · refine .inl ⟨s.take n, s.drop n, (take_append_drop n s).symm, ?_, ?_⟩
    · rw [length_take, min_eq_left h]
    · simp [Stream.readFull, ByteStream.split, h]
  · refine .inr ⟨by omega, ?_⟩
    simp [Stream.readFull, ByteStream.split, h]

lemma parseLength_append (hb : b.length = lenSize) (rest : Bytes) : parseLength (b ++ rest) = parseLength b := by
  have hlen : lenSize = 4 := rfl
  have htake : (b ++ rest).take lenSize = b.take lenSize := by rw [take_append_of_le_length (by omega)]
  rw [parseLength, parseLength, hexDecode, hexDecode, htake, if_neg (by simp; omega), if_neg (by omega)]

lemma parseLength_small (hb : b.length < lenSize) : parseLength b = .error (.invalidPktLen .smallBuffer) := by
  rw [parseLength, hexDecode, if_pos (show b.length < 4 from hb)]

section Cases

variable {r b rest c : Bytes} {p : Slice} {l : ℕ}

lemma bytes_write_zero (hb : b.length = lenSize) (hp : lenSize ≤ p.len) :
    (p.write 0 b).bytes = b ++ (p.mem.take p.len).drop lenSize := by
  have hlen := p.len_le
  simp only [Slice.bytes, Slice.write, copyAt_zero, take_append, hb, drop_take]
  rw [take_of_length_le (by omega)]

lemma mem_write_write (hb : b.length = lenSize) :
    ((p.write 0 b).write lenSize c).mem = b ++ (c ++ p.mem.drop (lenSize + c.length)) := by
  simp only [Slice.write, copyAt_zero]
  have hcopy := @copyAt_append b (p.mem.drop b.length) c
  rw [hb] at hcopy ⊢
  rw [hcopy, drop_drop]

lemma readSlice_small (hp : p.len < lenSize) (hcap : lenSize ≤ p.cap) :
    (readSlice r p).1 = (err, some (if r = [] then .io .eof
      else if r.length < lenSize then .invalidPktLen .short else .invalidPktLen .smallBuffer)) := by
  rw [readSlice, if_neg (by omega)]
  obtain ⟨b, rest, rfl, hb, hread⟩ | ⟨hlt, hread⟩ := readFull_cases r lenSize
  · have hne : b ++ rest ≠ [] := by
      intro h
      rw [append_eq_nil_iff.mp h |>.1] at hb
      exact absurd hb (by decide)
    have hsmall : (p.write 0 b).bytes.length < lenSize := by rw [Slice.length_bytes]; exact hp
    rw [hread, if_neg hne, if_neg (by simp; omega)]
    simp only [parseLength_small hsmall]
  · rw [hread]
    split_ifs with hr
    · rfl
    · rfl

/-- What is returned for the payload `c` in a packet of the length `l`, which is in the slice `p` with what was
behind it. -/
def outcome (l : ℕ) (c : Bytes) (p : Slice) : ℤ × Option Fault :=
  if errPrefix <+: (c ++ p.mem.drop l).take (p.len - lenSize) then
    if c.length < errPrefix.length then (err, some .sliceBounds)
    else (↑l, some (.errorLine (Trim.trimSpace (c.drop errPrefix.length))))
  else (↑l, none)

lemma lineOf_write_write (hb : b.length = lenSize) (hp : lenSize ≤ p.len) (hl : l = lenSize + c.length) :
    lineOf l ((p.write 0 b).write lenSize c) = outcome l c p ∧
      (l ≤ p.len → (((p.write 0 b).write lenSize c).bytes.take l).drop lenSize = c) := by
  have hmem := @mem_write_write b c p hb
  have htext : ((p.write 0 b).write lenSize c).mem.take l = b ++ c := by
    rw [hmem, ← append_assoc, hl, take_left' (by simp [hb])]
  have hbytes : ((p.write 0 b).write lenSize c).bytes.drop lenSize =
      (c ++ p.mem.drop l).take (p.len - lenSize) := by
    have hlen : ((p.write 0 b).write lenSize c).len = p.len := rfl
    rw [Slice.bytes, hlen, hmem, ← hl, take_append, take_of_length_le (by omega), hb, drop_left' hb]
  constructor
  · have hdrop : (b ++ c).drop (lenSize + errPrefix.length) = c.drop errPrefix.length := by
      rw [← drop_drop, drop_left' hb]
    have hlt : l < lenSize + errPrefix.length ↔ c.length < errPrefix.length := by omega
    simp only [lineOf, outcome, hbytes, isPrefixOf_iff_prefix, htext, hdrop, hlt]
  · intro hfits
    have hmin : min l ((p.write 0 b).write lenSize c).len = l := min_eq_left hfits
    rw [Slice.bytes, take_take, hmin, htext, drop_left' hb]

lemma readSlice_eq (hp : lenSize ≤ p.len) : (readSlice r p).1 = (match declared r with
      | .error e => (err, some e)
      | .ok l =>
        if l ≤ lenSize then (↑l, none)
        else if p.cap < l then (err, some .sliceBounds)
        else
          match payloadOf r l with
          | .error e => (err, some (.io e))
          | .ok c => outcome l c p) ∧
      ∀ l, declared r = .ok l → lenSize < l → l ≤ p.len → ∀ c, payloadOf r l = .ok c →
        ((readSlice r p).2.1.bytes.take l).drop lenSize = c := by
  have hcap : p.len ≤ p.cap := p.len_le
  rw [readSlice, if_neg (by omega), declared]
  obtain ⟨b, rest, rfl, hb, hread⟩ | ⟨hlt, hread⟩ := readFull_cases r lenSize
  · have hparse : parseLength (p.write 0 b).bytes = parseLength b := by
      rw [bytes_write_zero hb hp, parseLength_append hb]
    have hsame : (p.write 0 b).cap = p.cap := Slice.cap_write (by omega)
    simp only [hread, hparse, hsame, payloadOf, drop_left' hb]
    cases parseLength b with
    | error e => simp
    | ok l =>
      by_cases hl : l ≤ lenSize
      · simp [hl, not_lt.mpr hl]
      obtain ⟨c, rest', rfl, hc, hread'⟩ | ⟨hlt, hread'⟩ := readFull_cases rest (l - lenSize)
      · obtain ⟨hline, hin⟩ := @lineOf_write_write b c p l hb hp (by omega)
        by_cases hlarge : p.cap < l
        · simp [hl, hlarge]
          omega
        · simpa [hl, hlarge, hread', hline, Except.map] using fun _ => hin
      · by_cases hlarge : p.cap < l
        · simp [hl, hlarge, hread', Except.map]
        · simp [hl, hlarge, hread', Except.map]
  · rw [hread]
    split_ifs <;> simp

lemma payloadOf_eq (r : Bytes) (l : ℕ) : payloadOf r l =
    if l - lenSize ≤ (r.drop lenSize).length then .ok ((r.drop lenSize).take (l - lenSize))
    else .error (if r.drop lenSize = [] then .eof else .unexpectedEOF) := by
  obtain ⟨c, rest, hr, hc, hread⟩ | ⟨hlt, hread⟩ := readFull_cases (r.drop lenSize) (l - lenSize)
  · rw [payloadOf, hread, hr, if_pos (by simp; omega), take_left' hc]
    rfl
  · rw [payloadOf, hread, if_neg (not_le.mpr hlt)]
    rfl

end Cases

section Secure

variable {r : Bytes} {p : Slice} {l len cap : ℕ} {e : Fault}

lemma secure_of {o : ℤ × Option Fault} (ho : o.2 ≠ some .sliceBounds) (h : ∀ q : Slice, q.len = len → q.cap = cap →
    (readSlice r q).1 = o ∧ Expected r len o (readSlice r q).2.1) : Secure r len cap := by
  constructor
  · intro q hlen hcap
    obtain ⟨heq, hexp⟩ := h q hlen hcap
    rw [heq]
    exact ⟨ho, hexp⟩
  · intro q q' hlen hcap hlen' hcap'
    rw [(h q hlen hcap).1, (h q' hlen' hcap').1]

lemma secure_small_iff (hp : p.len < lenSize) : Secure r p.len p.cap ↔ Tame r p.len p.cap := by
  rw [Tame, if_pos hp]
  constructor
  · intro h
    obtain ⟨hpanic, hexp⟩ := h.1 p rfl rfl
    have hcap : lenSize ≤ p.cap := by
      by_contra hlt
      rw [readSlice, if_pos (by omega)] at hpanic
      exact hpanic rfl
    refine ⟨hcap, fun hr => ?_⟩
    rw [Expected, if_pos hp, readSlice_small hp hcap, if_pos hr] at hexp
    obtain ⟨cause, hcause⟩ := hexp.2
    simp at hcause
  · rintro ⟨hcap, hr⟩
    refine secure_of ?_ fun q hlen hcap' =>
      ⟨readSlice_small (p := q) (r := r) (by omega) (by omega), ?_⟩
    · rw [if_neg hr]
      split_ifs <;> simp
    · rw [Expected, if_pos hp, if_neg hr]
      refine ⟨rfl, ?_⟩
      split_ifs
      · exact ⟨_, rfl⟩
      · exact ⟨_, rfl⟩

lemma hexDigits_error {buf : Bytes} {ret : ℕ} (h : hexDigits buf ret = .error e) : e ≠ .sliceBounds := by
  induction buf generalizing ret with
  | nil => cases h
  | cons b buf ih =>
    rw [hexDigits, asciiHexToByte] at h
    cases hv : Hex.value b with
    | none =>
      rw [hv] at h
      cases h
      simp
    | some n =>
      rw [hv] at h
      exact ih h

lemma declared_error (h : declared r = .error e) : e ≠ .sliceBounds := by
  simp only [declared, parseLength, hexDecode] at h
  split at h
  case h_3 b rest _ =>
    split at h
    case h_1 e' heq =>
      cases h
      split_ifs at heq
      · cases heq
        simp
      · exact hexDigits_error heq
    case h_2 n _ => split_ifs at h <;> cases h <;> simp
  all_goals
    cases h
    simp

lemma secure_large_iff (hp : lenSize ≤ p.len) (h : declared r = .ok l) (hl : ¬ l ≤ lenSize) (hlarge : p.len < l) :
    Secure r p.len p.cap ↔ l ≤ p.cap ∧ r.drop lenSize ≠ [] ∧ r.length < l := by
  have hread : ∀ q : Slice, q.len = p.len → q.cap = p.cap → (readSlice r q).1 = _ := fun q hlen _ =>
    (@readSlice_eq r q (by omega)).1
  simp only [h, hl, if_false, payloadOf_eq, length_drop] at hread
  have hexpected : ∀ o q, Expected r p.len o q ↔ o = (err, some (.io .unexpectedEOF)) := by
    intro o q
    rw [Expected, if_neg (by omega), h]
    simp only [hl, hlarge, if_true, if_false]
  constructor
  · intro hsecure
    obtain ⟨hpanic, hexp⟩ := hsecure.1 p rfl rfl
    rw [hexpected, hread p rfl rfl] at hexp
    rw [hread p rfl rfl] at hpanic
    split_ifs at hexp with hcap hfull hr
    · simp at hexp
    · simp only [outcome] at hexp
      split_ifs at hexp <;> simp at hexp
    · simp at hexp
    · exact ⟨by omega, hr, by omega⟩
  · rintro ⟨hcap, hr, hlt⟩
    refine secure_of (o := (err, some (.io .unexpectedEOF))) (by simp) fun q hlen hcap' => ⟨?_, (hexpected _ _).mpr rfl⟩
    rw [hread q hlen hcap', if_neg (by omega), if_neg (by omega), if_neg hr]

/-- The text `ERR ` was left behind by an earlier packet. -/
def staleSlice (len cap : ℕ) (h : len ≤ cap) (hroom : lenSize + errPrefix.length ≤ len) : Slice where
  mem := List.replicate lenSize 0 ++ (errPrefix ++ List.replicate (cap - (lenSize + errPrefix.length)) 0)
  len := len
  len_le := by
    simp only [length_append, length_replicate]
    omega

variable {hroom : lenSize + errPrefix.length ≤ len} {h : len ≤ cap}

lemma cap_staleSlice : (staleSlice len cap h hroom).cap = cap := by
  simp only [Slice.cap, staleSlice, length_append, length_replicate]
  omega

section Packet

variable {c : Bytes} (hl : l = lenSize + c.length)

include hl

lemma prefix_staleSlice (hstart : c <+: errPrefix) :
    errPrefix <+: (c ++ (staleSlice len cap h hroom).mem.drop l).take ((staleSlice len cap h hroom).len - lenSize) := by
  have hlen : (staleSlice len cap h hroom).len = len := rfl
  obtain ⟨d, hd⟩ := hstart
  have hmem : c ++ (staleSlice len cap h hroom).mem.drop l =
      errPrefix ++ List.replicate (cap - (lenSize + errPrefix.length)) 0 := by
    have hdrop : (staleSlice len cap h hroom).mem.drop lenSize =
      errPrefix ++ List.replicate (cap - (lenSize + errPrefix.length)) 0 := drop_left' (length_replicate ..)
    rw [hl, ← drop_drop, hdrop, ← hd, append_assoc, drop_left]
  rw [hmem, take_append, take_of_length_le (by omega)]
  exact prefix_append _ _

lemma outcome_eq (hp : l ≤ p.len) (htame : ¬ (lenSize + errPrefix.length ≤ p.len ∧ l < lenSize + errPrefix.length ∧
    c <+: errPrefix)) : outcome l c p = if errPrefix <+: c then
      (↑l, some (.errorLine (Trim.trimSpace (c.drop errPrefix.length)))) else (↑l, none) := by
  by_cases hlong : errPrefix.length ≤ c.length
  · have hstart : errPrefix <+: (c ++ p.mem.drop l).take (p.len - lenSize) ↔ errPrefix <+: c := by
      constructor
      · intro h
        exact prefix_of_prefix_length_le (h.trans (List.take_prefix _ _)) (prefix_append c _) hlong
      · intro h
        refine prefix_of_prefix_length_le (h.trans (prefix_append c _)) (List.take_prefix _ _) ?_
        rw [length_take, length_append]
        omega
    rw [outcome, if_neg (not_lt.mpr hlong)]
    simp only [hstart]
  · rw [outcome, if_neg, if_neg fun hstart => hlong hstart.length_le]
    intro hstart
    have hlength := hstart.length_le
    rw [length_take] at hlength
    refine htame ⟨by omega, by omega, ?_⟩
    exact prefix_of_prefix_length_le (prefix_append c _) (hstart.trans (List.take_prefix _ _)) (by omega)

end Packet

lemma secure_packet_iff {c : Bytes} (h : declared r = .ok l) (hl : ¬ l ≤ lenSize) (hfits : l ≤ p.len)
    (hpayload : payloadOf r l = .ok c) : Secure r p.len p.cap ↔
      ¬ (lenSize + errPrefix.length ≤ p.len ∧ l < lenSize + errPrefix.length ∧ c <+: errPrefix) := by
  have hc : l = lenSize + c.length := by
    rw [payloadOf_eq] at hpayload
    split_ifs at hpayload
    cases hpayload
    rw [length_take]
    omega
  have hle : p.len ≤ p.cap := p.len_le
  have hread : ∀ q : Slice, q.len = p.len → q.cap = p.cap → (readSlice r q).1 = outcome l c q := by
    intro q hlen hcap
    rw [(readSlice_eq (by omega)).1]
    simp only [h, hl, if_false, hpayload, show ¬ q.cap < l by omega]
  constructor
  · rintro hsecure ⟨hroom, hshort, hstart⟩
    have hpanic := (hsecure.1 (staleSlice p.len p.cap hle hroom) rfl cap_staleSlice).1
    rw [hread (staleSlice p.len p.cap hle hroom) rfl cap_staleSlice, outcome, if_pos (prefix_staleSlice hc hstart), if_pos (by omega)] at hpanic
    exact hpanic rfl
  · intro htame
    refine secure_of (o := if errPrefix <+: c then _ else _) ?_ fun q hlen hcap =>
      ⟨(hread q hlen hcap).trans (outcome_eq hc (by omega) (by rwa [hlen])), ?_⟩
    · split_ifs <;> simp
    · have hin := (@readSlice_eq r q (by omega)).2 l h (by omega) (by omega) c hpayload
      rw [Expected, if_neg (by omega), h]
      simp only [hl, not_lt.mpr hfits, if_false, hpayload, hin, and_true]
      split_ifs <;> rfl

end Secure

/-- Exactly then a read is secure. -/
theorem readSlice_secure_iff (r : Bytes) (p : Slice) : Secure r p.len p.cap ↔ Tame r p.len p.cap := by
  have hle : p.len ≤ p.cap := p.len_le
  by_cases hp : p.len < lenSize
  · exact secure_small_iff hp
  rw [Tame, if_neg hp]
  have hread : ∀ q : Slice, q.len = p.len → (readSlice r q).1 = _ := fun q hlen => (@readSlice_eq r q (by omega)).1
  cases h : declared r with
  | error e =>
    refine iff_of_true (secure_of (o := (err, some e)) (by simpa using declared_error h) fun q hlen _ => ?_) (by simp)
    rw [hread q hlen, Expected, if_neg hp, h]
    exact ⟨rfl, rfl⟩
  | ok l =>
    simp only [Except.ok.injEq, forall_eq']
    by_cases hl : l ≤ lenSize
    · refine iff_of_true (secure_of (o := (↑l, none)) (by simp) fun q hlen _ => ?_) fun hlt => absurd hlt (by omega)
      rw [hread q hlen, Expected, if_neg hp, h]
      simp [hl]
    rw [forall_prop_of_true (not_le.mp hl)]
    by_cases hlarge : p.len < l
    · rw [if_pos hlarge, secure_large_iff (by omega) h hl hlarge]
    rw [if_neg hlarge]
    cases hpayload : payloadOf r l with
    | error e =>
      refine iff_of_true (secure_of (o := (err, some (.io e))) (by simp) fun q hlen hcap => ?_) (by simp)
      rw [hread q hlen, Expected, if_neg hp, h]
      simp [hl, hlarge, hpayload, show ¬ q.cap < l by omega]
    | ok c =>
      rw [secure_packet_iff h hl (by omega) hpayload]
      simp

def eightBytes (tail : Bytes) (h : tail.length = 4) : Slice := ⟨List.replicate 4 0 ++ tail, 8, by simp [h]⟩

theorem readSlice_not_secure : (readSlice (textBytes "0005E") (eightBytes (textBytes "    ") rfl)).1 = (5, none) ∧
      (readSlice (textBytes "0005E") (eightBytes (textBytes "ERR ") rfl)).1 = (err, some .sliceBounds) ∧
      (readSlice (textBytes "0000") ⟨[0, 0], 2, le_rfl⟩).1 = (err, some .sliceBounds) ∧
      (readSlice (textBytes "0009hello") (eightBytes (textBytes "    ") rfl)).1 = (err, some .sliceBounds) ∧
      ¬ Secure (textBytes "0005E") 8 8 ∧ ¬ Secure (textBytes "0000") 2 2 ∧ ¬ Secure (textBytes "0009hello") 8 8 := by
  have hstale : (readSlice (textBytes "0005E") (eightBytes (textBytes "ERR ") rfl)).1 = (err, some .sliceBounds) := by
    decide +kernel
  have hsmall : (readSlice (textBytes "0000") ⟨[0, 0], 2, le_rfl⟩).1 = (err, some .sliceBounds) := by decide +kernel
  have hlarge : (readSlice (textBytes "0009hello") (eightBytes (textBytes "    ") rfl)).1 =
    (err, some .sliceBounds) := by decide +kernel
  refine ⟨by decide +kernel, hstale, hsmall, hlarge, fun h => ?_, fun h => ?_, fun h => ?_⟩
  · exact (h.1 (eightBytes (textBytes "ERR ") rfl) rfl rfl).1 (congrArg Prod.snd hstale)
  · exact (h.1 ⟨[0, 0], 2, le_rfl⟩ rfl rfl).1 (congrArg Prod.snd hsmall)
  · exact (h.1 (eightBytes (textBytes "    ") rfl) rfl rfl).1 (congrArg Prod.snd hlarge)

end GoGit.PktLine
