import GoGit.CommitRoundtrip

namespace GoGit.Commit

open List

variable {h : Header} {lines : List Bytes}

section Injective

lemma textLines_join (hne : lines ≠ []) (hfeed : ∀ line ∈ lines, 0x0a ∉ line) :
    textLines (Lines.join 0x0a lines) = lines := by
  rw [Lines.join_eq_intercalate hne, textLines, getLast?_concat, if_pos rfl, dropLast_concat]
  exact splitOn_intercalate _ hfeed hne

def IsContinued (line : Bytes) : Bool := line.head? = some 0x20

lemma Header.Wf.text_eq (hw : h.Wf) : ∃ first rest, h.text = first :: rest ∧
    IsContinued first = false ∧ ∀ line ∈ rest, IsContinued line = true := by
  obtain ⟨key, lines⟩ := h
  have hhead : ∀ rest, IsContinued (key ++ rest) = false := by
    intro rest
    rw [IsContinued, head?_append_of_ne_nil _ hw.key.1, decide_eq_false_iff_not]
    exact fun hhead => (blank_not_mem hw.key).1 (mem_of_mem_head? hhead)
  cases lines with
  | nil => exact ⟨key, [], rfl, by simpa using hhead [], by simp⟩
  | cons line lines =>
    refine ⟨key ++ 0x20 :: line, lines.map (0x20 :: ·), rfl, hhead _, fun l hl => ?_⟩
    obtain ⟨l, -, rfl⟩ := mem_map.mp hl
    rfl

lemma Header.text_inj {h g : Header} (hh : h.Wf) (hg : g.Wf) (htext : h.text = g.text) : h = g := by
  obtain ⟨key, lines⟩ := h
  obtain ⟨key', lines'⟩ := g
  have hblank := (blank_not_mem hh.key).1
  have hblank' := (blank_not_mem hg.key).1
  cases lines with
  | nil =>
    cases lines' with
    | nil => simpa [text] using htext
    | cons line lines' =>
      obtain rfl : key = key' ++ 0x20 :: line := (List.cons.inj htext).1
      exact absurd (by simp) hblank
  | cons line lines =>
    cases lines' with
    | nil =>
      obtain rfl : key ++ 0x20 :: line = key' := (List.cons.inj htext).1
      exact absurd (by simp) hblank'
    | cons line' lines' =>
      obtain ⟨hfirst, hrest⟩ := List.cons.inj htext
      obtain ⟨rfl, rfl⟩ := Lines.line_inj hblank hblank' hfirst
      rw [map_injective_iff.mpr (cons_injective) hrest]

variable {hs gs : List Header}

lemma flatMap_text_inj (hh : ∀ h ∈ hs, h.Wf) (hg : ∀ g ∈ gs, g.Wf)
    (htext : hs.flatMap Header.text = gs.flatMap Header.text) : hs = gs := by
  have hstart : ∀ hs : List Header, (∀ h ∈ hs, h.Wf) →
      (hs.flatMap Header.text).takeWhile IsContinued = [] := by
    intro hs hh
    cases hs with
    | nil => rfl
    | cons h hs =>
      obtain ⟨first, rest, heq, hfirst, -⟩ := (hh h mem_cons_self).text_eq
      rw [flatMap_cons, heq, cons_append, takeWhile_cons_of_neg (by simp [hfirst])]
  induction hs generalizing gs with
  | nil =>
    cases gs with
    | nil => rfl
    | cons g gs =>
      obtain ⟨first, rest, heq, -⟩ := (hg g mem_cons_self).text_eq
      simp [heq] at htext
  | cons h hs ih =>
    have hh' : ∀ h ∈ hs, h.Wf := fun h hmem => hh h (mem_cons_of_mem _ hmem)
    obtain ⟨first, rest, heq, -, hrest⟩ := (hh h mem_cons_self).text_eq
    cases gs with
    | nil => simp [heq] at htext
    | cons g gs =>
      have hg' : ∀ g ∈ gs, g.Wf := fun g hmem => hg g (mem_cons_of_mem _ hmem)
      obtain ⟨first', rest', heq', -, hrest'⟩ := (hg g mem_cons_self).text_eq
      rw [flatMap_cons, flatMap_cons, heq, heq', cons_append, cons_append] at htext
      obtain ⟨rfl, htail⟩ := List.cons.inj htext
      -- the continued lines are those up to the next header
      have hrests : rest = rest' := by
        have htake := congrArg (List.takeWhile IsContinued) htail
        rwa [takeWhile_append_of_pos hrest, takeWhile_append_of_pos hrest', hstart hs hh',
          hstart gs hg', append_nil, append_nil] at htake
      subst hrests
      have hhg : h = g := Header.text_inj (hh h mem_cons_self) (hg g mem_cons_self) (heq.trans heq'.symm)
      rw [hhg, ih hh' hg' (append_cancel_left htail)]

lemma render_inj {tree : Bytes} {parents : List Bytes} {author author' committer committer' : Bytes}
    {message : Bytes} (hh : ∀ h ∈ fixedHeaders tree parents author committer ++ hs, h.Wf)
    (hg : ∀ h ∈ fixedHeaders tree parents author' committer' ++ gs, h.Wf)
    (heq : render (fixedHeaders tree parents author committer ++ hs) message =
      render (fixedHeaders tree parents author' committer' ++ gs) message) :
    author = author' ∧ committer = committer' ∧ hs = gs := by
  have hfeed : ∀ hs : List Header, (∀ h ∈ hs, h.Wf) → ∀ line ∈ hs.flatMap Header.text, 0x0a ∉ line := by
    intro hs hw line hline
    obtain ⟨h, hmem, hline⟩ := mem_flatMap.mp hline
    exact (hw h hmem).text_no_feed line hline
  have hlines := Lines.join_inj (hfeed _ hh) (hfeed _ hg) (append_cancel_right heq)
  have hheaders := flatMap_text_inj hh hg hlines
  simp only [fixedHeaders, cons_append, append_assoc, List.cons.injEq, true_and,
    append_cancel_left_eq, nil_append, Header.mk.injEq, and_true] at hheaders
  exact hheaders

end Injective

section Ident

/-- Someone at a time, as it is written in a commit: seconds since 1970, and a zone as a sign with two
digits for the hours and two for the minutes. -/
structure Ident where
  name : Bytes
  email : Bytes
  time : ℕ
  negative : Bool
  hours : Fin 100
  minutes : Fin 100

namespace Ident

def zone (i : Ident) : Bytes :=
  (if i.negative then 0x2d else 0x2b) ::
    (Signature.twoDigits i.hours ++ Signature.twoDigits i.minutes)

def text (i : Ident) : Bytes :=
  i.name ++ [0x20, 0x3c] ++ i.email ++ [0x3e, 0x20] ++ (formatInt i.time ++ [0x20] ++ i.zone)

@[mk_iff]
structure Wf (i : Ident) : Prop where
  name : 0x0a ∉ i.name ∧ 0x3c ∉ i.name ∧ 0x3e ∉ i.name
  email : 0x0a ∉ i.email ∧ 0x3c ∉ i.email ∧ 0x3e ∉ i.email

instance : DecidablePred Wf := fun i => decidable_of_iff' _ (wf_iff i)

@[mk_iff]
structure Kept (i : Ident) : Prop where
  name : i.name.head? ≠ some 0x20 ∧ i.name.getLast? ≠ some 0x20
  time : i.time < 2 ^ 63
  minutes : (i.minutes : ℕ) < 60
  hours : i.negative = true → (i.hours : ℕ) ≠ 0

instance : DecidablePred Kept := fun i => decidable_of_iff' _ (kept_iff i)

/-- The offset in seconds that the decoder takes the zone for. -/
def offset (i : Ident) : ℤ :=
  let minutes : ℕ := i.hours * 60 + i.minutes
  (if i.negative ∧ (i.hours : ℕ) ≠ 0 then -(minutes : ℤ) else minutes) * 60

variable {i : Ident}

lemma length_twoDigits : ∀ n : Fin 100, (Signature.twoDigits n).length = 2 := by decide +kernel

lemma visible_zone (i : Ident) : (∀ b ∈ i.zone, Visible b) ∧ i.zone.length = 5 := by
  constructor
  · refine forall_mem_cons.mpr ⟨by split_ifs <;> decide, forall_mem_append.mpr ⟨?_, ?_⟩⟩
    · exact Signature.visible_twoDigits _
    · exact Signature.visible_twoDigits _
  · simp [zone, length_twoDigits]

lemma Wf.text_spec (hw : i.Wf) : 0x0a ∉ i.text ∧ Trim.trimEnd i.text = i.text := by
  obtain ⟨hzone, hlen⟩ := i.visible_zone
  have hfeed : ∀ l : Bytes, (∀ b ∈ l, Visible b) → 0x0a ∉ l :=
    fun l hl hin => (hl _ hin).ne_feed rfl
  constructor
  · have htime := hfeed _ (visible_formatInt i.time)
    have hzone' := hfeed _ hzone
    simp [text, hw.name.1, hw.email.1, htime, hzone']
  · obtain ⟨l, b, hl⟩ := (eq_nil_or_concat' i.zone).resolve_left (ne_nil_of_length_pos (by omega))
    have hb : Visible b := hzone b (by simp [hl])
    rw [text, hl]
    simp only [← append_assoc]
    exact trimEnd_of_visible hb

lemma lastIndexByte_append {x y : Bytes} {c : UInt8} (h : c ∉ y) : lastIndexByte (x ++ c :: y) c = some x.length := by
  have hidx : ∀ l : Bytes, c ∉ l → (l ++ c :: x.reverse).idxOf? c = some l.length := by
    intro l hl
    induction l with
    | nil => simp [idxOf?_cons]
    | cons b l ih =>
      simp only [mem_cons, not_or] at hl
      rw [cons_append, idxOf?_cons, if_neg (by simpa using Ne.symm hl.1), ih hl.2]
      rfl
  rw [lastIndexByte, reverse_append, reverse_cons, append_assoc, singleton_append, hidx y.reverse (by simpa using h)]
  simp

lemma toNat_digit {c : Char} (h : c.isDigit = true) :
    (UInt8.ofNat c.toNat).toNat = c.toNat ∧ 48 ≤ c.toNat ∧ c.toNat < 58 := by
  have hc : 48 ≤ c.toNat ∧ c.toNat ≤ 57 := by simpa [Char.isDigit, UInt32.le_iff_toNat_le] using h
  rw [UInt8.toNat_ofNat', Nat.mod_eq_of_lt (by omega)]
  omega

lemma foldl_formatInt (n : ℕ) : (formatInt n).foldl (fun n d => n * 10 + (d.toNat - 48)) 0 = n := by
  rw [formatInt_natCast, foldl_map]
  refine Eq.trans ?_ (Nat.ofDigitChars_toDigits (by omega : 1 < 10) le_rfl)
  refine foldl_ext _ _ _ fun m c hc => ?_
  rw [(toNat_digit (Nat.isDigit_of_mem_toDigits (by omega) le_rfl hc)).1, Nat.mul_comm]
  rfl

lemma digit_of_mem_formatInt {n : ℕ} {d : UInt8} (h : d ∈ formatInt n) : 48 ≤ d.toNat ∧ d.toNat < 58 := by
  rw [formatInt_natCast] at h
  obtain ⟨c, hc, rfl⟩ := mem_map.mp h
  obtain ⟨heq, hlo, hhi⟩ := toNat_digit (Nat.isDigit_of_mem_toDigits (by omega) le_rfl hc)
  rw [heq]
  exact ⟨hlo, hhi⟩

lemma parseInt_formatInt (n : ℕ) : IndexFormat.parseInt 10 (formatInt n) =
    if n < 2 ^ 63 then .ok (n : ℤ) else .error (.number (formatInt n)) := by
  have hdigits : ∀ d ∈ formatInt n, 48 ≤ d.toNat ∧ d.toNat < 58 := fun d hd => digit_of_mem_formatInt hd
  have hany : (formatInt n).any (fun d => d.toNat < 48 ∨ 48 + 10 ≤ d.toNat) = false := by
    rw [any_eq_false]
    intro d hd
    have := hdigits d hd
    simp only [decide_eq_true_eq]
    omega
  rw [IndexFormat.parseInt]
  · simp only [foldl_formatInt, hany, formatInt_ne_nil, Bool.false_eq_true, if_false, false_or]
    by_cases hn : n < 2 ^ 63
    · rw [if_pos hn, if_neg (by omega)]
    · rw [if_neg hn, if_pos (by omega)]
  -- the first character is no sign
  · exact fun ds heq => absurd (hdigits 0x2d (by simp [heq])).1 (by decide)
  · exact fun ds heq => absurd (hdigits 0x2b (by simp [heq])).1 (by decide)

lemma decodeTimeZone_zone (s : Signature) (i : Ident) : s.decodeTimeZone i.zone = { s with zone := i.offset } := by
  have hplus : ∀ n : Fin 100, IndexFormat.parseInt 10 (0x2b :: Signature.twoDigits n) = .ok (n : ℤ) := by
    decide +kernel
  have hminus : ∀ n : Fin 100,
      IndexFormat.parseInt 10 (0x2d :: Signature.twoDigits n) = .ok (-(n : ℤ)) := by decide +kernel
  have hplain : ∀ n : Fin 100, IndexFormat.parseInt 10 (Signature.twoDigits n) = .ok (n : ℤ) := by
    decide +kernel
  have hhours : i.zone.take 3 = (if i.negative then 0x2d else 0x2b) :: Signature.twoDigits i.hours := by
    rw [zone, take_succ_cons, take_left' (length_twoDigits _)]
  have hmins : i.zone.drop 3 = Signature.twoDigits i.minutes := by
    rw [zone, drop_succ_cons, drop_left' (length_twoDigits _)]
  rw [Signature.decodeTimeZone, hhours, hmins, hplain]
  cases hneg : i.negative with
  | false =>
    simp only [Bool.false_eq_true, if_false, hplus, offset, hneg, false_and]
    congr 1
    omega
  | true =>
    simp only [if_true, hminus, offset, hneg, true_and]
    congr 1
    split_ifs <;> omega

lemma visible_not_mem {c : UInt8} (hc : ¬ Visible c) {l : Bytes} (h : ∀ b ∈ l, Visible b) : c ∉ l :=
  fun hin => hc (h c hin)

lemma decodeTimeAndTimeZone_text (s : Signature) (i : Ident) :
    s.decodeTimeAndTimeZone (formatInt i.time ++ [0x20] ++ i.zone) =
      if i.time < 2 ^ 63 then { s with when := .unix i.time 0, zone := i.offset } else s := by
  have hblank : (0x20 : UInt8) ∉ formatInt i.time :=
    visible_not_mem (by decide) (visible_formatInt i.time)
  have hspace : (formatInt i.time ++ [0x20] ++ i.zone).idxOf 0x20 = (formatInt i.time).length := by
    rw [append_assoc, idxOf_append_of_notMem hblank]
    rfl
  have htake : (formatInt i.time ++ [0x20] ++ i.zone).take (formatInt i.time).length =
      formatInt i.time := by
    rw [append_assoc, take_left]
  have hdrop : (formatInt i.time ++ [0x20] ++ i.zone).drop ((formatInt i.time).length + 1) = i.zone :=
    drop_left' (by simp)
  have hlen := i.visible_zone.2
  rw [Signature.decodeTimeAndTimeZone]
  dsimp only
  rw [hspace, htake, parseInt_formatInt]
  by_cases htime : i.time < 2 ^ 63
  · simp only [htime, if_true]
    rw [if_neg (by simp [hlen]), hdrop, take_of_length_le hlen.le, decodeTimeZone_zone]
  · simp only [htime, if_false]

lemma bracket_not_mem (i : Ident) : 0x3c ∉ formatInt i.time ++ [0x20] ++ i.zone ∧
    0x3e ∉ formatInt i.time ++ [0x20] ++ i.zone := by
  have htwo : ∀ n : Fin 100, 0x3c ∉ Signature.twoDigits n ∧ 0x3e ∉ Signature.twoDigits n := by
    decide +kernel
  have hlow : (0x3c : UInt8) ∉ formatInt i.time :=
    fun hin => absurd (digit_of_mem_formatInt hin).2 (by decide)
  have hhigh : (0x3e : UInt8) ∉ formatInt i.time :=
    fun hin => absurd (digit_of_mem_formatInt hin).2 (by decide)
  cases hneg : i.negative <;> simp [zone, hneg, htwo, hlow, hhigh]

lemma trimByte_snoc (c : UInt8) (l : Bytes) : trimByte c (l ++ [c]) = trimByte c l := by
  rw [trimByte, trimByte, dropWhile_append]
  split_ifs with hnil
  · simp [List.isEmpty_iff.mp hnil]
  · exact rdropWhile_concat_pos _ _ _ (by simp)

lemma Wf.decode_text (hw : i.Wf) : ({} : Signature).decode i.text =
    if i.time < 2 ^ 63 then
      { name := trimByte 0x20 i.name, email := i.email, when := .unix i.time 0, zone := i.offset }
    else { name := trimByte 0x20 i.name, email := i.email } := by
  have htime := decodeTimeAndTimeZone_text { ({} : Signature) with name := trimByte 0x20 i.name, email := i.email } i
  have hbracket := i.bracket_not_mem
  generalize hstamp : formatInt i.time ++ [0x20] ++ i.zone = stamp at htime hbracket
  have htext : i.text = i.name ++ [0x20] ++ 0x3c :: (i.email ++ 0x3e :: 0x20 :: stamp) := by
    simp [text, ← hstamp]
  have htext' : i.text = i.name ++ [0x20] ++ 0x3c :: i.email ++ 0x3e :: 0x20 :: stamp := by
    simp [text, ← hstamp]
  have hopened : lastIndexByte i.text 0x3c = some (i.name ++ [0x20]).length := by
    rw [htext]
    refine lastIndexByte_append ?_
    simp [hw.email, hbracket.1]
  have hclosed : lastIndexByte i.text 0x3e = some (i.name ++ [0x20] ++ 0x3c :: i.email).length := by
    rw [htext']
    refine lastIndexByte_append ?_
    simp [hbracket.2]
  have hname : i.text.take (i.name ++ [0x20]).length = i.name ++ [0x20] := by rw [htext, take_left]
  have hemail : (i.text.take (i.name ++ [0x20] ++ 0x3c :: i.email).length).drop
      ((i.name ++ [0x20]).length + 1) = i.email := by
    have happend : i.name ++ [0x20] ++ 0x3c :: i.email = i.name ++ [0x20, 0x3c] ++ i.email := by simp
    rw [htext', take_left, happend]
    exact drop_left' (by simp)
  have hrest : i.text.drop ((i.name ++ [0x20] ++ 0x3c :: i.email).length + 2) = stamp := by
    have happend : i.name ++ [0x20] ++ 0x3c :: i.email ++ 0x3e :: 0x20 :: stamp =
        i.name ++ [0x20] ++ 0x3c :: i.email ++ [0x3e, 0x20] ++ stamp := by simp
    rw [htext', happend]
    refine drop_left' ?_
    simp only [length_append, length_cons, length_nil]
  have hlong : (i.name ++ [0x20] ++ 0x3c :: i.email).length + 2 < i.text.length := by
    have hlen := i.visible_zone.2
    simp only [htext', ← hstamp, length_append, length_cons, hlen]
    omega
  rw [Signature.decode, hopened, hclosed]
  dsimp only
  rw [if_neg (by simp), hname, hemail, trimByte_snoc, if_pos hlong, hrest]
  exact htime

lemma formatZone_offset_iff (i : Ident) : Signature.formatZone i.offset = i.zone ↔
    (i.minutes : ℕ) < 60 ∧ (i.negative = true → (i.hours : ℕ) ≠ 0) := by
  have hinj : ∀ m n : Fin 100, Signature.twoDigits m = Signature.twoDigits n → m = n := by
    decide +kernel
  have hdiv : i.offset.tdiv 60 = if i.negative ∧ (i.hours : ℕ) ≠ 0 then
      -((i.hours * 60 + i.minutes : ℕ) : ℤ) else ((i.hours * 60 + i.minutes : ℕ) : ℤ) :=
    Int.mul_tdiv_cancel _ (by decide)
  have habs : (i.offset.tdiv 60).natAbs = i.hours * 60 + i.minutes := by
    rw [hdiv]
    split_ifs <;> omega
  have hsign : i.offset.tdiv 60 < 0 ↔ i.negative = true ∧ (i.hours : ℕ) ≠ 0 := by
    rw [hdiv]
    by_cases hneg : i.negative = true ∧ (i.hours : ℕ) ≠ 0
    · rw [if_pos hneg]
      exact ⟨fun _ => hneg, fun _ => by omega⟩
    · rw [if_neg hneg]
      exact ⟨fun hlt => by omega, fun h => absurd h hneg⟩
  have hmod : (i.hours * 60 + i.minutes) % 60 = (i.minutes : ℕ) % 60 := by omega
  rw [Signature.formatZone, zone, habs, hmod, List.cons.injEq]
  constructor
  · rintro ⟨hfirst, hrest⟩
    obtain ⟨-, hmins⟩ := append_inj' hrest (by
      rw [length_twoDigits, length_twoDigits ⟨i.minutes % 60, by omega⟩])
    have hmins := congrArg Fin.val (hinj ⟨i.minutes % 60, by omega⟩ i.minutes hmins)
    refine ⟨?_, fun hneg hzero => ?_⟩
    · dsimp only at hmins
      omega
    · have hpos : ¬ i.offset.tdiv 60 < 0 := fun hlt => (hsign.mp hlt).2 hzero
      rw [if_neg hpos, if_pos hneg] at hfirst
      exact absurd hfirst (by decide)
  · rintro ⟨hmins, hneg⟩
    have hhours : (i.hours * 60 + i.minutes) / 60 = (i.hours : ℕ) := by omega
    rw [hhours, Nat.mod_eq_of_lt hmins]
    refine ⟨?_, rfl⟩
    by_cases hn : i.negative = true
    · rw [if_pos (hsign.mpr ⟨hn, hneg hn⟩), if_pos hn]
    · rw [if_neg fun hlt => hn (hsign.mp hlt).1, if_neg hn]

lemma trimByte_eq_self_iff (c : UInt8) (l : Bytes) : trimByte c l = l ↔ l.head? ≠ some c ∧ l.getLast? ≠ some c := by
  have hhead : l.dropWhile (· = c) = l ↔ l.head? ≠ some c := by
    rw [dropWhile_eq_self_iff]
    cases l <;> simp
  have hlast : l.rdropWhile (· = c) = l ↔ l.getLast? ≠ some c := by
    rw [rdropWhile_eq_self_iff]
    rcases eq_nil_or_concat' l with rfl | ⟨l, b, rfl⟩ <;> simp
  rw [← hhead, ← hlast, trimByte]
  constructor
  · intro heq
    have hdrop : l.dropWhile (· = c) = l := by
      refine (dropWhile_suffix _).eq_of_length_le ?_
      have hle := (List.rdropWhile_prefix (· = c) (l.dropWhile (· = c))).length_le
      rwa [heq] at hle
    rw [hdrop] at heq
    exact ⟨hdrop, heq⟩
  · rintro ⟨hdrop, hrdrop⟩
    rw [hdrop, hrdrop]

lemma Wf.encode_decode_iff (hw : i.Wf) : (({} : Signature).decode i.text).encode = i.text ↔ i.Kept := by
  have hsplit : ∀ stamp stamp' : Bytes,
      trimByte 0x20 i.name ++ [0x20, 0x3c] ++ i.email ++ [0x3e, 0x20] ++ stamp =
        i.name ++ [0x20, 0x3c] ++ i.email ++ [0x3e, 0x20] ++ stamp' ↔
      trimByte 0x20 i.name = i.name ∧ stamp = stamp' := by
    intro stamp stamp'
    refine ⟨fun heq => ?_, fun h => by rw [h.1, h.2]⟩
    have htrim : 0x3c ∉ trimByte 0x20 i.name := fun hin =>
      hw.name.2.1 ((dropWhile_suffix _).subset ((List.rdropWhile_prefix _ _).subset hin))
    have happend : ∀ name stamp : Bytes, name ++ [0x20, 0x3c] ++ i.email ++ [0x3e, 0x20] ++ stamp =
        (name ++ [0x20]) ++ 0x3c :: (i.email ++ [0x3e, 0x20] ++ stamp) := by simp
    rw [happend, happend] at heq
    obtain ⟨hname, hrest⟩ := Lines.line_inj (by simp [htrim]) (by simp [hw.name.2.1]) heq
    exact ⟨append_cancel_right hname, append_cancel_left hrest⟩
  have hblank : (0x20 : UInt8) ∉ formatInt i.time :=
    visible_not_mem (by decide) (visible_formatInt i.time)
  rw [hw.decode_text]
  by_cases htime : i.time < 2 ^ 63
  · have hsec : (if (Time.unix i.time 0).sec < 0 then 0 else (Time.unix i.time 0).sec) = i.time := by
      simp [Time.unix]
    rw [if_pos htime, Signature.encode, text, hsplit, Signature.encodeTimeAndTimeZone]
    dsimp only
    rw [hsec, append_cancel_left_eq, formatZone_offset_iff, trimByte_eq_self_iff]
    exact ⟨fun h => ⟨h.1, htime, h.2.1, h.2.2⟩, fun h => ⟨h.name, h.minutes, h.hours⟩⟩
  · -- a time that is no number is written as zero
    rw [if_neg htime, Signature.encode, text, hsplit]
    refine ⟨fun h => ?_, fun h => absurd h.time htime⟩
    have hstamp := h.2
    have hzero : ({ name := trimByte 0x20 i.name, email := i.email } : Signature).encodeTimeAndTimeZone =
        formatInt (0 : ℕ) ++ ([0x20] ++ Signature.formatZone 0) := rfl
    rw [hzero, append_assoc] at hstamp
    have hdigits := (Lines.line_inj (visible_not_mem (by decide) (visible_formatInt 0)) hblank hstamp).1
    have hnum := congrArg (List.foldl (fun n d => n * 10 + (d.toNat - 48)) 0) hdigits
    rw [foldl_formatInt, foldl_formatInt] at hnum
    omega

end Ident

/-- A name and an email without brackets, whole seconds from 1970 on, and a zone of whole minutes within a day. -/
structure Regular (s : Signature) : Prop where
  name : 0x0a ∉ s.name ∧ 0x3c ∉ s.name ∧ 0x3e ∉ s.name
  email : 0x0a ∉ s.email ∧ 0x3c ∉ s.email ∧ 0x3e ∉ s.email
  trimmed : s.name.head? ≠ some 0x20 ∧ s.name.getLast? ≠ some 0x20
  seconds : 0 ≤ s.when.sec ∧ s.when.sec < 2 ^ 63 ∧ s.when.nsec = 0
  zone : 60 ∣ s.zone ∧ s.zone.natAbs < 24 * 60 * 60

def ident (s : Signature) : Ident where
  name := s.name
  email := s.email
  time := s.when.sec.toNat
  negative := s.zone < 0
  hours := .ofNat 100 (s.zone.natAbs / 3600)
  minutes := .ofNat 100 (s.zone.natAbs / 60 % 60)

lemma Regular.encode_eq {s : Signature} (h : Regular s) : s.encode = (ident s).text := by
  obtain ⟨minutes, hminutes⟩ := h.zone.1
  have hday := h.zone.2
  have hsec : (if s.when.sec < 0 then 0 else s.when.sec) = (s.when.sec.toNat : ℤ) := by
    have := h.seconds.1
    split_ifs <;> omega
  have hdiv : s.zone.tdiv 60 = minutes := by rw [hminutes, Int.mul_tdiv_cancel_left _ (by decide)]
  have hzone : Signature.formatZone s.zone = (ident s).zone := by
    have hsign : minutes < 0 ↔ s.zone < 0 := by omega
    have hhours : minutes.natAbs / 60 = s.zone.natAbs / 3600 % 100 := by omega
    have hmins : minutes.natAbs % 60 = s.zone.natAbs / 60 % 60 % 100 := by omega
    simp only [Signature.formatZone, hdiv, Ident.zone, ident, Fin.ofNat, hhours, hmins, hsign, decide_eq_true_eq]
  simp only [Signature.encode, Signature.encodeTimeAndTimeZone, hsec, hzone, Ident.text, ident]

/-- A signature is read back unless its zone is less than an hour west: the sign of the hours is lost. -/
theorem survives_iff_zone {s : Signature} (h : Regular s) : Survives s ↔ ¬ (-3600 < s.zone ∧ s.zone < 0) := by
  have hwf : (ident s).Wf := ⟨h.name, h.email⟩
  have htime : (ident s).time < 2 ^ 63 := by
    have := h.seconds
    simp only [ident]
    omega
  have hwhen : Time.unix (ident s).time 0 = s.when := by
    obtain ⟨hsec, -, hnsec⟩ := h.seconds
    have hnat : ((s.when.sec.toNat : ℕ) : ℤ) = s.when.sec := Int.toNat_of_nonneg hsec
    cases hs : s.when
    simp_all [Time.unix, ident]
  have hname : trimByte 0x20 (ident s).name = s.name := (Ident.trimByte_eq_self_iff _ _).mpr h.trimmed
  rw [Survives, h.encode_eq, hwf.decode_text, if_pos htime, hwhen, hname]
  have hoffset : (ident s).offset = s.zone ↔ ¬ (-3600 < s.zone ∧ s.zone < 0) := by
    obtain ⟨hdvd, hday⟩ := h.zone
    simp only [Ident.offset, ident, Fin.ofNat, decide_eq_true_eq]
    split_ifs <;> omega
  rw [← hoffset]
  cases s
  simp [ident]

theorem survives_iff_zone_newfoundland : Survives { someone "A" with zone := -12600 } :=
  (survives_iff_zone ⟨by decide, by decide, by decide, by decide, by decide, by decide⟩).mpr (by decide)

theorem not_survives_west : Regular { someone "A" with zone := -1800 } ∧ ¬ Survives { someone "A" with zone := -1800 } :=
  ⟨⟨by decide, by decide, by decide, by decide, by decide, by decide⟩, by unfold Survives; decide⟩

end Ident

section RawCommit

/-- A commit with a signature as it is stored: `others` are the merge tags and the extra headers, and
`sigAt` of the headers after the committer are before the signature. -/
structure RawCommit where
  tree : ObjectID
  parents : List ObjectID
  author : Ident
  committer : Ident
  encoding : Option Bytes
  others : List Header
  sigAt : ℕ
  signature : List Bytes
  message : Bytes

variable {hs : List Header}

namespace RawCommit

def fixed (r : RawCommit) : List Header :=
  fixedHeaders r.tree.string (r.parents.map ObjectID.string) r.author.text r.committer.text

def further (r : RawCommit) : List Header :=
  (r.encoding.map fun e => (⟨headerencoding, [e]⟩ : Header)).toList ++ r.others

def headers (r : RawCommit) : List Header :=
  r.fixed ++ (r.further.take r.sigAt ++ ⟨headerpgp, r.signature⟩ :: r.further.drop r.sigAt)

def raw (r : RawCommit) : Bytes := render r.headers r.message

def payload (r : RawCommit) : Bytes := render (r.fixed ++ r.further) r.message

@[mk_iff]
structure Wf (r : RawCommit) : Prop where
  author : r.author.Wf
  committer : r.committer.Wf
  encoding : ∀ e ∈ r.encoding, 0x0a ∉ e
  others : ∀ h ∈ r.others, h.Wf ∧ (h.key = headermergetag ∨ h.key ∉ reserved)
  signature : ∀ line ∈ r.signature, 0x0a ∉ line

instance : DecidablePred Wf := fun r => decidable_of_iff' _ (wf_iff r)

@[mk_iff]
structure Kept (r : RawCommit) : Prop where
  author : r.author.Kept
  committer : r.committer.Kept
  encoding : ∀ e ∈ r.encoding, e ≠ [] ∧ e ≠ defaultUtf8CommitMessageEncoding ∧
    ∀ t ∈ Trim.spaces, ¬ t <:+ e
  first : ∀ h ∈ r.others.tail, h.key ≠ headermergetag
  mergetag : ∀ h ∈ r.others, h.key = headermergetag →
    r.encoding = none ∧ h.lines ≠ [] ∧ PlainLines h.lines
  extra : ∀ h ∈ r.others, h.key ≠ headermergetag → h.lines.getLast? ≠ some []

instance : DecidablePred Kept := fun r => decidable_of_iff' _ (kept_iff r)

variable {r : RawCommit}

lemma Wf.further (hw : r.Wf) : ∀ h ∈ r.further, h.Wf ∧ h.key ≠ headerpgp := by
  intro h hh
  rcases mem_append.mp hh with hh | hh
  · obtain ⟨e, he, rfl⟩ := Option.map_eq_some_iff.mp (Option.mem_toList.mp hh)
    exact ⟨wf_single (by decide) (hw.encoding e he), (by decide : headerencoding ≠ headerpgp)⟩
  · obtain ⟨hwf, hkey⟩ := hw.others h hh
    refine ⟨hwf, fun heq => ?_⟩
    rw [heq] at hkey
    exact absurd hkey (by decide)

lemma Wf.fixed (hw : r.Wf) : ∀ h ∈ r.fixed, h.Wf :=
  wf_fixedHeaders hw.author.text_spec.1 hw.committer.text_spec.1

lemma Wf.headers (hw : r.Wf) : ∀ h ∈ r.headers, h.Wf := by
  simp only [RawCommit.headers, forall_mem_append, forall_mem_cons]
  refine ⟨hw.fixed, fun h hh => (hw.further h (mem_of_mem_take hh)).1, ?_,
    fun h hh => (hw.further h (mem_of_mem_drop hh)).1⟩
  exact ⟨(by decide : Trim.Word headerpgp), hw.signature,
    fun h => absurd h (by decide : headerpgp ∉ Header.singles)⟩

lemma foldl_apply_pgpSignature (h : ∀ h ∈ hs, h.key ≠ headerpgp) (c : Commit)
    (s : Bytes) : hs.foldl apply { c with pgpSignature := s } =
      { hs.foldl apply c with pgpSignature := s } := by
  have hone : ∀ (h : Header) (c : Commit), h.key ≠ headerpgp →
      apply { c with pgpSignature := s } h = { apply c h with pgpSignature := s } := by
    intro h c hkey
    unfold apply
    rw [if_neg hkey, if_neg hkey]
    split_ifs <;> rfl
  induction hs generalizing c with
  | nil => rfl
  | cons g hs ih =>
    rw [foldl_cons, hone g c (h g mem_cons_self), ih (fun h' hh' => h h' (mem_cons_of_mem _ hh')), foldl_cons]

lemma foldl_others (h : ∀ h ∈ hs, h.key = headermergetag ∨ h.key ∉ reserved)
    (c : Commit) : hs.foldl apply c = { c with
      mergeTag := c.mergeTag ++ (hs.filter (·.key = headermergetag)).flatMap Header.unfolded
      extraHeaders := c.extraHeaders ++ (hs.filter (·.key ≠ headermergetag)).map fun h => ⟨h.key, h.value⟩ } := by
  induction hs generalizing c with
  | nil => simp
  | cons g hs ih =>
    have ih := fun c => ih (fun h' hh' => h h' (mem_cons_of_mem _ hh')) c
    rw [foldl_cons, ih]
    by_cases htag : g.key = headermergetag
    · have happly : apply c g = { c with mergeTag := c.mergeTag ++ g.unfolded } := by
        rw [apply, htag]
        rfl
      simp [happly, htag]
    · have hkey := (h g mem_cons_self).resolve_left htag
      simp only [reserved, mem_cons, not_mem_nil, or_false, not_or] at hkey
      have happly : apply c g = { c with extraHeaders := c.extraHeaders ++ [⟨g.key, g.value⟩] } := by
        simp [apply, hkey]
      simp [happly, htag]

def decodedEncoding (r : RawCommit) : Bytes :=
  (r.encoding.map Trim.trimEnd).getD defaultUtf8CommitMessageEncoding

lemma Wf.decode_raw (hw : r.Wf) (id : ObjectID) : ∃ s, decode .commit id r.raw = .ok {
    hash := id
    author := ({} : Signature).decode r.author.text
    committer := ({} : Signature).decode r.committer.text
    mergeTag := (r.others.filter (·.key = headermergetag)).flatMap Header.unfolded
    pgpSignature := s
    message := r.message
    treeHash := .fromHex r.tree.string
    parentHashes := r.parents.map fun p => .fromHex p.string
    encoding := r.decodedEncoding
    extraHeaders := (r.others.filter (·.key ≠ headermergetag)).map fun h => ⟨h.key, h.value⟩ } := by
  have hkeys : ∀ h ∈ r.further, h.key ≠ headerpgp := fun h hh => (hw.further h hh).2
  have hothers : ∀ h ∈ r.others, h.key = headermergetag ∨ h.key ∉ reserved :=
    fun h hh => (hw.others h hh).2
  -- the signature may be anywhere among the other headers
  have hsig : ∀ c : Commit, ∃ s,
      (r.further.take r.sigAt ++ ⟨headerpgp, r.signature⟩ :: r.further.drop r.sigAt).foldl apply c =
        { r.further.foldl apply c with pgpSignature := s } := by
    intro c
    refine ⟨((r.further.take r.sigAt).foldl apply c).pgpSignature ++ Header.unfolded ⟨headerpgp, r.signature⟩, ?_⟩
    have hpgp : ∀ c : Commit, apply c ⟨headerpgp, r.signature⟩ = { c with
        pgpSignature := c.pgpSignature ++ Header.unfolded ⟨headerpgp, r.signature⟩ } := fun c => rfl
    rw [foldl_append, foldl_cons, hpgp,
      foldl_apply_pgpSignature fun h hh => hkeys h (mem_of_mem_drop hh), ← foldl_append,
      take_append_drop]
  have hencoding : ∀ c : Commit, c.encoding = defaultUtf8CommitMessageEncoding →
      (r.encoding.map fun e => (⟨headerencoding, [e]⟩ : Header)).toList.foldl apply c =
        { c with encoding := r.decodedEncoding } := by
    intro c hc
    rw [decodedEncoding]
    cases r.encoding with
    | none => simp [← hc]
    | some e => rfl
  have hparents : (r.parents.map ObjectID.string).map
      (fun p => ObjectID.fromHex (Trim.trimEnd p)) = r.parents.map fun p => .fromHex p.string := by
    rw [map_map]
    exact map_congr_left fun p _ => by simp [(string_spec p).2]
  obtain ⟨s, hs⟩ := hsig (r.fixed.foldl apply { hash := id, encoding := defaultUtf8CommitMessageEncoding })
  refine ⟨s, ?_⟩
  rw [raw, decode_render hw.headers, RawCommit.headers, foldl_append, hs, RawCommit.further,
    foldl_append, RawCommit.fixed, foldl_fixedHeaders, hencoding _ rfl, foldl_others hothers, hparents,
    (string_spec _).2, hw.author.text_spec.2, hw.committer.text_spec.2]
  simp

end RawCommit

lemma getLast?_join (h : lines ≠ []) : (Lines.join 0x0a lines).getLast? = some 0x0a := by
  rw [Lines.join_eq_intercalate h, getLast?_concat]

lemma ofExtra_value_iff (hfeed : ∀ line ∈ h.lines, 0x0a ∉ line) :
    ofExtra ⟨h.key, h.value⟩ = h ↔ h.lines.getLast? ≠ some [] := by
  obtain ⟨key, lines⟩ := h
  rcases eq_nil_or_concat' lines with rfl | ⟨init, last, rfl⟩
  · simp [ofExtra, Header.value]
  have hjoin : Lines.join 0x0a (init ++ [last]) = Lines.join 0x0a init ++ last ++ [0x0a] := by
    rw [Lines.join_append]
    simp
  have hvalue : Header.value ⟨key, init ++ [last]⟩ =
      (Lines.join 0x0a init ++ last).rdropWhile (· = 0x0a) := by
    rw [Header.value, hjoin, rdropWhile_concat_pos _ _ _ (by simp)]
  -- what is left does not end with a line feed, and its lines are those of the header
  have hlines : ∀ value : Bytes, value ++ [0x0a] = Lines.join 0x0a (init ++ [last]) →
      value.getLast? ≠ some 0x0a → textLines value = init ++ [last] := by
    intro value heq hlast
    have hback : textLines (Lines.join 0x0a (init ++ [last])) = init ++ [last] :=
      textLines_join (by simp) hfeed
    rw [← hback, ← heq]
    simp [textLines, hlast]
  rw [getLast?_concat, ne_eq, Option.some.injEq]
  by_cases hlast : last = []
  · subst hlast
    simp only [not_true, iff_false]
    intro heq
    by_cases hnil : Header.value ⟨key, init ++ [[]]⟩ = []
    · simp [ofExtra, hnil] at heq
    · have htext : textLines (Header.value ⟨key, init ++ [[]]⟩) = init ++ [[]] := by
        simpa [ofExtra, hnil] using heq
      have hend : (Header.value ⟨key, init ++ [[]]⟩).getLast? ≠ some 0x0a := by
        intro hend
        rw [getLast?_eq_some_getLast hnil, Option.some.injEq] at hend
        exact rdropWhile_last_not (fun b : UInt8 => b = 0x0a) (Lines.join 0x0a (init ++ [[]])) hnil
          (decide_eq_true hend)
      have hback := join_textLines (Header.value ⟨key, init ++ [[]]⟩)
      rw [htext, hjoin, append_nil, if_neg hend] at hback
      have hinit : Lines.join 0x0a init = Header.value ⟨key, init ++ [[]]⟩ :=
        append_cancel_right hback
      refine hend (hinit ▸ getLast?_join fun hempty => hnil ?_)
      rw [← hinit, hempty]
      rfl
  · simp only [hlast, not_false_eq_true, iff_true]
    have hend : (Lines.join 0x0a init ++ last).getLast? ≠ some 0x0a := by
      rw [getLast?_append_of_ne_nil _ hlast]
      exact fun hend => hfeed last (by simp) (mem_of_getLast? hend)
    have hself : (Lines.join 0x0a init ++ last).rdropWhile (· = 0x0a) = Lines.join 0x0a init ++ last := by
      rw [rdropWhile_eq_self_iff]
      intro hne hnl
      exact hend (by rw [getLast?_eq_some_getLast hne, of_decide_eq_true hnl])
    have hnil : Lines.join 0x0a init ++ last ≠ [] := by simp [hlast]
    rw [hvalue, hself]
    simp only [ofExtra, hnil, if_false]
    rw [hlines _ hjoin.symm hend]

lemma foldedHeader_unfolded_iff (hkey : h.key = headermergetag) (hfeed : ∀ line ∈ h.lines, 0x0a ∉ line) :
    foldedHeader headermergetag h.unfolded = h ↔ h.lines ≠ [] ∧ PlainLines h.lines := by
  have hlast : h.unfolded.getLast? = some 0x0a := by
    have hjoin : h.unfolded =
        Lines.join 0x0a (h.data :: h.lines.tail.map (·.dropWhile (· = 0x20))) := by
      simp [Header.unfolded]
    rw [hjoin, getLast?_join (by simp)]
  constructor
  · intro heq
    have hlines : textLines h.unfolded = h.lines := congrArg Header.lines heq
    have hne : h.lines ≠ [] := hlines ▸ textLines_ne_nil _
    have hjoin := join_textLines h.unfolded
    rw [if_pos hlast, hlines] at hjoin
    exact ⟨hne, (unfolded_eq_iff hne hfeed).mp hjoin.symm⟩
  · rintro ⟨hne, hplain⟩
    rw [(unfolded_eq_iff hne hfeed).mpr hplain, foldedHeader, textLines_join hne hfeed, ← hkey]

namespace RawCommit

variable {r : RawCommit}

def EncodingKept (r : RawCommit) : Prop :=
  ∀ e ∈ r.encoding, e ≠ [] ∧ e ≠ defaultUtf8CommitMessageEncoding ∧ ∀ t ∈ Trim.spaces, ¬ t <:+ e

def tagsWritten (r : RawCommit) : List Header :=
  if (r.others.filter (·.key = headermergetag)).flatMap Header.unfolded ≠ [] then
    [foldedHeader headermergetag ((r.others.filter (·.key = headermergetag)).flatMap Header.unfolded)]
  else []

def encodingWritten (r : RawCommit) : List Header :=
  if r.decodedEncoding ≠ [] ∧ r.decodedEncoding ≠ defaultUtf8CommitMessageEncoding then
    [⟨headerencoding, [r.decodedEncoding]⟩] else []

def extraWritten (r : RawCommit) : List Header :=
  (r.others.filter (·.key ≠ headermergetag)).map fun h => ofExtra ⟨h.key, h.value⟩

def written (r : RawCommit) : List Header := r.tagsWritten ++ r.encodingWritten ++ r.extraWritten

lemma encoding_iff (r : RawCommit) :
    r.encodingWritten = (r.encoding.map fun e => (⟨headerencoding, [e]⟩ : Header)).toList ↔ r.EncodingKept := by
  rw [encodingWritten, decodedEncoding, EncodingKept]
  cases r.encoding with
  | none => simp
  | some e =>
    simp only [Option.map_some, Option.getD_some, Option.toList_some, Option.mem_def, Option.some.injEq,
      forall_eq', ← Trim.trimEnd_eq_self_iff]
    constructor
    · intro heq
      split_ifs at heq with hwritten
      have hself : Trim.trimEnd e = e := by simpa using heq
      rw [hself] at hwritten
      exact ⟨hwritten.1, hwritten.2, hself⟩
    · rintro ⟨hnil, hutf8, hself⟩
      rw [hself, if_pos ⟨hnil, hutf8⟩]

lemma map_ofExtra_iff (hfeed : ∀ h ∈ hs, ∀ line ∈ h.lines, 0x0a ∉ line) :
    hs.map (fun h => ofExtra ⟨h.key, h.value⟩) = hs ↔ ∀ h ∈ hs, h.lines.getLast? ≠ some [] := by
  have hid : hs.map (fun h => ofExtra ⟨h.key, h.value⟩) = hs ↔ ∀ h ∈ hs, ofExtra ⟨h.key, h.value⟩ = h := by
    conv_lhs => rhs; rw [← map_id hs]
    exact map_inj_left
  rw [hid]
  exact forall₂_congr fun h hh => ofExtra_value_iff (hfeed h hh)

lemma Wf.further_iff_of_none (hw : r.Wf) (hnone : ∀ h ∈ r.others, h.key ≠ headermergetag) :
    r.written = r.further ↔ r.EncodingKept ∧ ∀ h ∈ r.others, h.lines.getLast? ≠ some [] := by
  have hfeed : ∀ h ∈ r.others, ∀ line ∈ h.lines, 0x0a ∉ line := fun h hh => (hw.others h hh).1.lines
  have htags : r.tagsWritten = [] := by
    have hfilter : r.others.filter (·.key = headermergetag) = [] :=
      filter_eq_nil_iff.mpr fun h hh => by simpa using hnone h hh
    simp [tagsWritten, hfilter]
  have hextra : r.extraWritten = r.others.map fun h => ofExtra ⟨h.key, h.value⟩ := by
    have hfilter : r.others.filter (·.key ≠ headermergetag) = r.others :=
      filter_eq_self.mpr fun h hh => by simpa using hnone h hh
    rw [extraWritten, hfilter]
  rw [← encoding_iff, ← map_ofExtra_iff hfeed, written, htags, nil_append, hextra, RawCommit.further]
  exact ⟨fun heq => append_inj' heq (by simp), fun h => congrArg₂ _ h.1 h.2⟩

lemma Wf.further_iff_of_first (hw : r.Wf) (hencoding : r.encoding = none) {tag : Header}
    {rest : List Header} (hothers : r.others = tag :: rest) (htag : tag.key = headermergetag)
    (hrest : ∀ h ∈ rest, h.key ≠ headermergetag) : r.written = r.further ↔
      (tag.lines ≠ [] ∧ PlainLines tag.lines) ∧ ∀ h ∈ rest, h.lines.getLast? ≠ some [] := by
  have hfeed : ∀ h ∈ tag :: rest, ∀ line ∈ h.lines, 0x0a ∉ line :=
    fun h hh => (hw.others h (hothers ▸ hh)).1.lines
  have htags : r.tagsWritten = [foldedHeader headermergetag tag.unfolded] := by
    have hfilter : r.others.filter (·.key = headermergetag) = [tag] := by
      rw [hothers, filter_cons_of_pos (by simpa using htag),
        filter_eq_nil_iff.mpr fun h hh => by simpa using hrest h hh]
    simp [tagsWritten, hfilter, Header.unfolded]
  have hextra : r.extraWritten = rest.map fun h => ofExtra ⟨h.key, h.value⟩ := by
    have hfilter : r.others.filter (·.key ≠ headermergetag) = rest := by
      rw [hothers, filter_cons_of_neg (by simpa using htag), filter_eq_self.mpr fun h hh => by simpa using hrest h hh]
    rw [extraWritten, hfilter]
  have hwritten : r.encodingWritten = [] := by simp [encodingWritten, decodedEncoding, hencoding]
  have hfurther : r.further = tag :: rest := by simp [RawCommit.further, hencoding, hothers]
  rw [← foldedHeader_unfolded_iff htag (hfeed tag mem_cons_self),
    ← map_ofExtra_iff fun h hh => hfeed h (mem_cons_of_mem _ hh), written, htags, hextra, hwritten, hfurther]
  simp

lemma first_of_further {tag : Header} (hmem : tag ∈ r.others) (htag : tag.key = headermergetag)
    (heq : r.written = r.further) :
    r.encoding = none ∧ ∃ tag rest, r.others = tag :: rest ∧ tag.key = headermergetag ∧
      ∀ h ∈ rest, h.key ≠ headermergetag := by
  have htags : ∃ text, r.tagsWritten = [foldedHeader headermergetag text] := by
    refine ⟨_, if_pos fun hnil => ?_⟩
    have := flatMap_eq_nil_iff.mp hnil tag (mem_filter.mpr ⟨hmem, by simpa using htag⟩)
    simp [Header.unfolded] at this
  have hextra : ∀ h ∈ r.extraWritten, h.key ≠ headermergetag := by
    intro h hh
    obtain ⟨g, hg, rfl⟩ := mem_map.mp hh
    exact of_decide_eq_true (mem_filter.mp hg).2
  obtain ⟨text, htext⟩ := htags
  rw [written, htext, RawCommit.further] at heq
  cases hencoding : r.encoding with
  | some e =>
    rw [hencoding] at heq
    have hkey : headermergetag = headerencoding := congrArg Header.key (List.cons.inj heq).1
    exact absurd hkey (by decide)
  | none =>
    have hwritten : r.encodingWritten = [] := by simp [encodingWritten, decodedEncoding, hencoding]
    rw [hencoding, hwritten] at heq
    exact ⟨rfl, _, _, heq.symm, rfl, hextra⟩

lemma Wf.further_iff (hw : r.Wf) : r.written = r.further ↔ r.EncodingKept ∧ (∀ h ∈ r.others.tail, h.key ≠ headermergetag) ∧
    (∀ h ∈ r.others, h.key = headermergetag → r.encoding = none ∧ h.lines ≠ [] ∧ PlainLines h.lines) ∧
    ∀ h ∈ r.others, h.key ≠ headermergetag → h.lines.getLast? ≠ some [] := by
  by_cases hnone : ∀ h ∈ r.others, h.key ≠ headermergetag
  · rw [hw.further_iff_of_none hnone]
    refine ⟨fun ⟨hencoding, hextra⟩ => ⟨hencoding, fun h hh => hnone h (mem_of_mem_tail hh),
      fun h hh htag => absurd htag (hnone h hh), fun h hh _ => hextra h hh⟩,
      fun ⟨hencoding, _, _, hextra⟩ => ⟨hencoding, fun h hh => hextra h hh (hnone h hh)⟩⟩
  · push Not at hnone
    obtain ⟨tag, hmem, htag⟩ := hnone
    constructor
    · intro heq
      obtain ⟨hencoding, first, rest, hothers, hfirst, hrest⟩ := first_of_further hmem htag heq
      obtain ⟨hplain, hextra⟩ := (hw.further_iff_of_first hencoding hothers hfirst hrest).mp heq
      refine ⟨by simp [EncodingKept, hencoding], by simpa [hothers] using hrest, fun h hh hkey => ⟨hencoding, ?_⟩,
        fun h hh hkey => ?_⟩
      · rw [hothers] at hh
        rcases mem_cons.mp hh with rfl | hh
        · exact hplain
        · exact absurd hkey (hrest h hh)
      · rw [hothers] at hh
        rcases mem_cons.mp hh with rfl | hh
        · exact absurd hfirst hkey
        · exact hextra h hh
    · rintro ⟨-, htail, htags, hextra⟩
      obtain ⟨first, rest, hothers⟩ := exists_cons_of_ne_nil (ne_nil_of_mem hmem)
      have hrest : ∀ h ∈ rest, h.key ≠ headermergetag := by simpa [hothers] using htail
      have hfirst : first.key = headermergetag := by
        rw [hothers] at hmem
        rcases mem_cons.mp hmem with rfl | hmem
        · exact htag
        · exact absurd htag (hrest tag hmem)
      have hin : first ∈ r.others := by simp [hothers]
      refine (hw.further_iff_of_first (htags first hin hfirst).1 hothers hfirst hrest).mpr
        ⟨(htags first hin hfirst).2, fun h hh => hextra h ?_ (hrest h hh)⟩
      rw [hothers]
      exact mem_cons_of_mem _ hh

end RawCommit

def EncodeWithoutSignature (c : Commit) : Bytes := c.encode false

lemma RawCommit.Wf.written {r : RawCommit} (hw : r.Wf) : ∀ h ∈ r.written, h.Wf := by
  refine forall_mem_append.mpr ⟨forall_mem_append.mpr ⟨?_, ?_⟩, fun h hh => ?_⟩
  · unfold tagsWritten
    split_ifs
    · exact forall_mem_singleton.mpr (wf_foldedHeader (by decide) (by decide) _)
    · simp
  · unfold encodingWritten
    split_ifs
    · refine forall_mem_singleton.mpr (wf_single (by decide) ?_)
      rw [decodedEncoding]
      cases he : r.encoding with
      | none => exact (by decide : 0x0a ∉ defaultUtf8CommitMessageEncoding)
      | some e => exact fun hin => hw.encoding e he ((Trim.trimEnd_isPrefix e).subset hin)
    · simp
  · obtain ⟨g, hg, rfl⟩ := mem_map.mp hh
    obtain ⟨hg, hkey⟩ := mem_filter.mp hg
    obtain ⟨hwf, hkeys⟩ := hw.others g hg
    exact wf_ofExtra hwf.key (hkeys.resolve_left (of_decide_eq_true hkey))

/-- The object without its signature is what is written of the commit decoded from it if it is kept,
and only then. -/
theorem EncodeWithoutSignature_iff {r : RawCommit} (hw : r.Wf) (id : ObjectID) :
    (decode .commit id r.raw).map EncodeWithoutSignature = .ok r.payload ↔ r.Kept := by
  obtain ⟨s, hdecode⟩ := hw.decode_raw id
  have hone := decode_oneLine hdecode
  set author := ({} : Signature).decode r.author.text with hauthor
  set committer := ({} : Signature).decode r.committer.text with hcommitter
  have hparents : (r.parents.map fun p => ObjectID.fromHex p.string).map ObjectID.string =
      r.parents.map ObjectID.string := by
    rw [map_map]
    exact map_congr_left fun p _ => p.string_fromHex_string
  have hencode : (decode .commit id r.raw).map EncodeWithoutSignature = .ok (render
      (fixedHeaders r.tree.string (r.parents.map ObjectID.string) author.encode committer.encode ++
        r.written) r.message) := by
    rw [hdecode, Except.map, EncodeWithoutSignature, encode_eq_render, headers, furtherHeaders, hparents,
      ObjectID.string_fromHex_string]
    simp [RawCommit.written, RawCommit.tagsWritten, RawCommit.encodingWritten, RawCommit.extraWritten, Function.comp_def]
  have hraw : ∀ h ∈ r.fixed ++ r.further, h.Wf :=
    forall_mem_append.mpr ⟨hw.fixed, fun h hh => (hw.further h hh).1⟩
  rw [hencode, Except.ok.injEq, RawCommit.payload, RawCommit.fixed]
  constructor
  · intro heq
    obtain ⟨ha, hc, hfurther⟩ := render_inj
      (forall_mem_append.mpr ⟨wf_fixedHeaders hone.1.encode hone.2.encode, hw.written⟩) hraw heq
    obtain ⟨hencoding, hfirst, htag, hextra⟩ := hw.further_iff.mp hfurther
    exact ⟨hw.author.encode_decode_iff.mp ha, hw.committer.encode_decode_iff.mp hc, hencoding, hfirst, htag, hextra⟩
  · intro hk
    have ha := hw.author.encode_decode_iff.mpr hk.author
    have hc := hw.committer.encode_decode_iff.mpr hk.committer
    rw [hw.further_iff.mpr ⟨hk.encoding, hk.first, hk.mergetag, hk.extra⟩, hauthor, hcommitter, ha, hc]

/-- Someone half an hour west of an hour, with a zone of so many hours. -/
def western (hours : Fin 100) : Ident where
  name := textBytes "A"
  email := textBytes "a@b"
  time := 1700000000
  negative := true
  hours := hours
  minutes := 30

def signed (hours : Fin 100) (encoding : Option String) (tags : List (List String)) : RawCommit where
  tree := .short 1
  parents := [.short 2, .short 3]
  author := western hours
  committer := western 3
  encoding := encoding.map textBytes
  others := tags.map (fun lines => ⟨headermergetag, lines.map textBytes⟩) ++
    [⟨textBytes "HG:extra", ["one", "  two", "", "three"].map textBytes⟩]
  sigAt := 1
  signature := ["-----BEGIN PGP SIGNATURE-----", "", "abc", "-----END PGP SIGNATURE-----"].map textBytes
  message := textBytes "Subject\n\n body"

theorem EncodeWithoutSignature_signed : (decode .commit .zeroHash (signed 3 none [["object 1", "", "text"]]).raw).map
      EncodeWithoutSignature = .ok (signed 3 none [["object 1", "", "text"]]).payload := by
  exact (EncodeWithoutSignature_iff (by decide +kernel) .zeroHash).mpr (by decide +kernel)

theorem EncodeWithoutSignature_lost : ((signed 0 none []).Wf ∧
      (decode .commit .zeroHash (signed 0 none []).raw).map EncodeWithoutSignature ≠ .ok (signed 0 none []).payload) ∧
    ((signed 3 (some "UTF-8") []).Wf ∧
      (decode .commit .zeroHash (signed 3 (some "UTF-8") []).raw).map EncodeWithoutSignature ≠
        .ok (signed 3 (some "UTF-8") []).payload) ∧ ((signed 3 (some "latin1") [["object 1"]]).Wf ∧
      (decode .commit .zeroHash (signed 3 (some "latin1") [["object 1"]]).raw).map
        EncodeWithoutSignature ≠ .ok (signed 3 (some "latin1") [["object 1"]]).payload) ∧
    (signed 3 none [["object 1"], ["object 2"]]).Wf ∧
      (decode .commit .zeroHash (signed 3 none [["object 1"], ["object 2"]]).raw).map
        EncodeWithoutSignature ≠ .ok (signed 3 none [["object 1"], ["object 2"]]).payload := by
  decide +kernel

end RawCommit

end GoGit.Commit
