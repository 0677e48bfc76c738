import GoGit.PackParser

namespace GoGit.Pack

open List

structure HeaderOK (data : Bytes) (n : ℕ) : Prop where
  signature : data.take 4 = [0x50, 0x41, 0x43, 0x4b]
  version : bigEndian ((data.drop 4).take 4) = 2
  objects : bigEndian ((data.drop 8).take 4) = n
  length : 12 ≤ data.length

section Entries

variable (env : Env) (seekable : Bool) (data : Bytes)

/-- At most `k` entries from `offset` on, and the offset behind them or the error that ended
the reading. -/
def readEntries : ℕ → ℕ → List ObjectHeader × Except PackError ℕ
  | 0, offset => ([], .ok offset)
  | k + 1, offset =>
    match readEntry env seekable data offset with
    | .error e => ([], .error e)
    | .ok (oh, offset) =>
      let (es, stop) := readEntries k offset
      (oh :: es, stop)

/-- The byte string is a whole pack: all announced entries can be read, and the bytes behind
them are the sum of everything before. -/
def Complete (n : ℕ) (es : List ObjectHeader) (checksum : ObjectID) : Prop :=
  ∃ offset, readEntries env seekable data n 12 = (es, .ok offset) ∧ offset + 20 ≤ data.length ∧
    (data.drop offset).take 20 = env.sha1 (data.take offset) ∧
    checksum = ObjectID.zeroHash.write (env.sha1 (data.take offset))

end Entries

variable {offset stop : ℕ} {data : Bytes}

lemma readByte_eq_ok {b : UInt8}
    (h : readByte data offset = .ok (b, stop)) : offset < data.length ∧ stop = offset + 1 := by
  unfold readByte at h
  cases hd : data.drop offset with
  | nil => simp [hd] at h
  | cons c rest =>
    simp only [hd, Except.ok.injEq, Prod.mk.injEq] at h
    refine ⟨?_, h.2.symm⟩
    by_contra hle
    rw [drop_eq_nil_of_le (by omega)] at hd
    cases hd

lemma variableLengthLoop_le {rest : Bytes} {size shift offset n stop : ℕ}
    (h : variableLengthLoop size shift rest offset = .ok (n, stop)) : offset ≤ stop := by
  induction rest generalizing size shift offset with
  | nil => simp [variableLengthLoop] at h
  | cons b rest ih =>
    simp only [variableLengthLoop] at h
    split_ifs at h with hb
    · simp only [Except.ok.injEq, Prod.mk.injEq] at h
      omega
    · have := ih h
      omega

lemma readVariableLengthSize_le {first : UInt8} {offset n stop : ℕ}
    (h : readVariableLengthSize first data offset = .ok (n, stop)) : offset ≤ stop := by
  unfold readVariableLengthSize at h
  split_ifs at h with hb
  · exact variableLengthLoop_le h
  · simp only [Except.ok.injEq, Prod.mk.injEq] at h
    omega

lemma variableWidthLoop_le {rest : Bytes} {v n : ℤ}
    (h : variableWidthLoop v rest offset = .ok (n, stop)) : offset ≤ stop := by
  induction rest generalizing v offset with
  | nil => simp [variableWidthLoop] at h
  | cons b rest ih =>
    simp only [variableWidthLoop] at h
    split_ifs at h with hb
    · have := ih h
      omega
    · simp only [Except.ok.injEq, Prod.mk.injEq] at h
      omega

lemma readVariableWidthInt_le {n : ℤ} (h : readVariableWidthInt data offset = .ok (n, stop)) : offset ≤ stop := by
  obtain ⟨⟨c, pos⟩, hc, h⟩ := bind_eq_ok_iff.mp h
  have hpos := (readByte_eq_ok hc).2
  simp only at h
  split_ifs at h with hb
  · have := variableWidthLoop_le h
    omega
  · simp only [pure_ok, Except.ok.injEq, Prod.mk.injEq] at h
    omega

lemma readFull_eq_ok {data b : Bytes} {offset n stop : ℕ} (h : readFull data offset n = .ok (b, stop)) :
    b = (data.drop offset).take n ∧ b.length = n ∧ stop = offset + n := by
  unfold readFull at h
  simp only at h
  split_ifs at h with hl
  simp only [Except.ok.injEq, Prod.mk.injEq] at h
  exact ⟨h.1.symm, by rw [← h.1]; exact hl, h.2.symm⟩

lemma readHash_eq_ok {id : ObjectID} (h : readHash data offset = .ok (id, stop)) :
    ∃ b, b = (data.drop offset).take 20 ∧ b.length = 20 ∧ id = ObjectID.zeroHash.write b ∧ stop = offset + 20 := by
  unfold readHash at h
  cases hr : readFull data offset 20 with
  | error e => simp [hr] at h
  | ok p =>
    obtain ⟨b, pos⟩ := p
    simp only [hr, Except.ok.injEq, Prod.mk.injEq] at h
    obtain ⟨hb, hl, hpos⟩ := readFull_eq_ok hr
    exact ⟨b, hb, hl, h.1.symm, by omega⟩

lemma readHash_of_length {offset : ℕ} (h : offset + 20 ≤ data.length) : readHash data offset =
      .ok (ObjectID.zeroHash.write ((data.drop offset).take 20), offset + 20) := by
  have hlen : ((data.drop offset).take 20).length = 20 := by
    simp only [length_take, length_drop]
    omega
  simp [readHash, readFull, hlen]

lemma bytes_write {b : Bytes} (h : b.length = 20) : (ObjectID.zeroHash.write b).bytes = b := by
  have h₁ : b.take 32 = b := take_of_length_le (by omega)
  have h₂ : (ObjectID.zeroHash.write b).bytes = (b ++ ObjectID.zeroHash.hash.drop b.length).take 20 := by
    rw [← h₁]
    simp [ObjectID.bytes, ObjectID.write, ObjectID.zeroHash, ObjectFormat.size, h]
  rw [h₂, take_append_of_le_length h.ge, take_of_length_le h.le]

lemma readFooter_eq_ok_iff {env : Env} {checksum : ObjectID} : readFooter env data offset = .ok (checksum, stop) ↔
      offset + 20 ≤ data.length ∧ (data.drop offset).take 20 = env.sha1 (data.take offset) ∧
        checksum = ObjectID.zeroHash.write (env.sha1 (data.take offset)) ∧ stop = offset + 20 := by
  have hlen : ((data.drop offset).take 20).length = 20 ↔ offset + 20 ≤ data.length := by
    simp only [length_take, length_drop]
    omega
  constructor
  · intro h
    unfold readFooter at h
    cases hr : readHash data offset with
    | error e => simp [hr] at h
    | ok q =>
      obtain ⟨id, pos⟩ := q
      obtain ⟨b, hb, hbl, rfl, rfl⟩ := readHash_eq_ok hr
      simp only [hr, bytes_write hbl] at h
      split_ifs at h with hne
      simp only [Except.ok.injEq, Prod.mk.injEq] at h
      push Not at hne
      refine ⟨hlen.mp (hb ▸ hbl), hb ▸ hne, ?_, h.2.symm⟩
      rw [← h.1, hne]
  · rintro ⟨hle, hsum, rfl, rfl⟩
    unfold readFooter
    have hl := hlen.mpr hle
    rw [hsum] at hl
    rw [readHash_of_length hle, hsum]
    simp [bytes_write hl]

structure HeaderAt (data : Bytes) (offset : ℕ) (oh : ObjectHeader) (stop : ℕ) : Prop where
  starts : oh.offset = offset
  inside : offset < data.length
  advances : offset < stop
  hash : oh.hash = .zeroHash
  content : oh.content = none
  externalRef : oh.externalRef = false
  size_lt : oh.size < 2 ^ 63

lemma readReference_spec {oh oh' : ObjectHeader}
    (h : readReference data oh offset = .ok (oh', stop)) : offset ≤ stop ∧ oh' = { oh with
      reference := oh'.reference, offsetReference := oh'.offsetReference } := by
  unfold readReference at h
  split at h
  · obtain ⟨⟨no, pos⟩, hno, h⟩ := bind_eq_ok_iff.mp h
    simp only [pure_ok, Except.ok.injEq, Prod.mk.injEq] at h
    obtain ⟨rfl, rfl⟩ := h
    exact ⟨readVariableWidthInt_le hno, rfl⟩
  · obtain ⟨⟨id, pos⟩, hid, h⟩ := bind_eq_ok_iff.mp h
    simp only [pure_ok, Except.ok.injEq, Prod.mk.injEq] at h
    obtain ⟨rfl, rfl⟩ := h
    obtain ⟨_, _, _, _, hstop⟩ := readHash_eq_ok hid
    exact ⟨by omega, rfl⟩
  · simp only [Except.ok.injEq, Prod.mk.injEq] at h
    obtain ⟨rfl, rfl⟩ := h
    exact ⟨le_rfl, rfl⟩

variable {oh : ObjectHeader}

lemma readEntryHeader_spec (h : readEntryHeader data offset = .ok (oh, stop)) : HeaderAt data offset oh stop := by
  obtain ⟨⟨b, pos⟩, hb, h⟩ := bind_eq_ok_iff.mp h
  obtain ⟨hin, hpos⟩ := readByte_eq_ok hb
  simp only at h
  split_ifs at h with hvalid
  obtain ⟨⟨size, pos'⟩, hs, h⟩ := bind_eq_ok_iff.mp h
  have hle := readVariableLengthSize_le hs
  obtain ⟨hstop, hoh⟩ := readReference_spec h
  rw [hoh]
  exact ⟨rfl, hin, by omega, rfl, rfl, rfl, int64_lt size⟩

section Entry

variable {env : Env} {seekable : Bool} {data : Bytes}

def rawContent (env : Env) (data : Bytes) (oh : ObjectHeader) : Bytes :=
  match inflateContent env data oh.contentOffset with
  | .error _ => []
  | .ok content => content

structure EntryAt (env : Env) (seekable : Bool) (data : Bytes) (offset : ℕ) (oh : ObjectHeader)
    (stop : ℕ) : Prop where
  starts : oh.offset = offset
  inside : offset < data.length
  before : offset < oh.contentOffset
  ends : oh.contentOffset ≤ stop
  inflates : inflateContent env data oh.contentOffset = .ok (rawContent env data oh)
  externalRef : oh.externalRef = false
  size_lt : oh.size < 2 ^ 63
  delta : oh.type.isDelta = true →
    oh.content = some (rawContent env data oh) ∧ oh.hash = .zeroHash
  full : oh.type.isDelta = false →
    oh.content = (if seekable then none else some (rawContent env data oh)) ∧
      oh.hash = hasherSum env.sha1 (hasherReset oh.type oh.size ++ rawContent env data oh)

lemma readEntry_spec
    (h : readEntry env seekable data offset = .ok (oh, stop)) : EntryAt env seekable data offset oh stop := by
  obtain ⟨⟨hd, contentOffset⟩, hhd, h⟩ := bind_eq_ok_iff.mp h
  obtain ⟨⟨content, n⟩, hinf, h⟩ := bind_eq_ok_iff.mp h
  have hat := readEntryHeader_spec hhd
  have hcontent : inflateContent env data contentOffset = .ok content := by
    simp [inflateContent, hinf, Except.map]
  have hraw : ∀ oh : ObjectHeader, oh.contentOffset = contentOffset →
      rawContent env data oh = content := by
    intro oh ho
    rw [rawContent, ho, hcontent]
  by_cases hdelta : hd.type.isDelta = true
  · simp only [hdelta, ↓reduceIte, pure_ok, Except.ok.injEq, Prod.mk.injEq] at h
    obtain ⟨rfl, rfl⟩ := h
    refine ⟨hat.starts, hat.inside, hat.advances, by simp, ?_, hat.externalRef, hat.size_lt, fun _ => ?_, ?_⟩
    · rw [hraw _ rfl]
      exact hcontent
    · rw [hraw _ rfl]
      exact ⟨rfl, hat.hash⟩
    · intro hfull
      rw [hdelta] at hfull
      cases hfull
  · simp only [hdelta, Bool.false_eq_true, if_false, pure_ok, Except.ok.injEq, Prod.mk.injEq] at h
    obtain ⟨rfl, rfl⟩ := h
    refine ⟨hat.starts, hat.inside, hat.advances, by simp, ?_, hat.externalRef, hat.size_lt, ?_, fun _ => ?_⟩
    · rw [hraw _ rfl]
      exact hcontent
    · intro htrue
      exact absurd htrue hdelta
    · rw [hraw _ rfl]
      exact ⟨rfl, rfl⟩

end Entry

def entryScanner (n k offset : ℕ) (last : PackData) : Scanner :=
  { version := 2, objects := n, objIndex := k - 1, nextFn := some .objectEntry, packData := last,
    offset := offset }

section Loop

variable {env : Env} {seekable : Bool} {data : Bytes} {n k offset : ℕ} {last : PackData}

lemma Scan_entry (hk : k < n) : (entryScanner n k offset last).Scan env seekable data =
    match readEntry env seekable data offset with
    | .ok (oh, stop) => (entryScanner n (k + 1) stop (.object oh), true)
    | .error e => ({ entryScanner n k offset last with err := some e }, false) := by
  have hmore : ¬ ((n : ℤ) ≤ ((k + 1 : ℕ) : ℤ) - 1) := by omega
  have hnext : (k : ℤ) - 1 + 1 = ((k + 1 : ℕ) : ℤ) - 1 := by omega
  cases hr : readEntry env seekable data offset <;>
    simp only [Scanner.Scan, entryScanner, Option.isSome_none, Bool.false_eq_true, reduceCtorEq,
      or_self, ↓reduceIte, scan, runState, hmore, hr, bind, Except.bind, pure, Except.pure, hnext]

lemma Scan_footer : (entryScanner n n offset last).Scan env seekable data = match readFooter env data offset with
    | .ok (checksum, stop) => ({ entryScanner n n stop (.footer checksum) with nextFn := none }, true)
    | .error e => ({ entryScanner n n offset last with err := some e }, false) := by
  have hend : (n : ℤ) ≤ (n : ℤ) - 1 + 1 := by omega
  cases hf : readFooter env data offset <;>
    simp only [Scanner.Scan, entryScanner, Option.isSome_none, Bool.false_eq_true, reduceCtorEq,
      or_self, ↓reduceIte, scan, runState, hend, hf, bind, Except.bind]

variable (observers : List Observer)

def cacheObjects (c : ParserCache) (es : List ObjectHeader) : ParserCache :=
  es.foldl (fun c oh => if oh.type.isDelta then c else c.add oh) c

/-- The notifications for the objects that are not deltas, whatever their outcome. -/
def reportObjects (h : History) (es : List ObjectHeader) : History :=
  es.foldl (fun h oh => if oh.type.isDelta then h else (reportObject observers h oh).1) h

def ofKind (t : ObjectType) (es : List ObjectHeader) : List ObjectHeader :=
  es.filter fun oh => oh.type = t

def ScanEnds (env : Env) (data : Bytes) (stop : Except PackError ℕ) (before after : Parser) : Prop :=
  (∃ offset checksum pos, stop = .ok offset ∧ readFooter env data offset = .ok (checksum, pos) ∧
    after.checksum = checksum ∧ after.scanner.packData = .footer checksum ∧
    after.scanner.err = none) ∨
  ((∀ offset, stop = .ok offset → ∃ e, readFooter env data offset = .error e) ∧
    after.checksum = before.checksum ∧ after.scanner.err ≠ none)

lemma parseLoop_object {p : Parser} {s : Scanner} {oh : ObjectHeader}
    (hscan : p.scanner.Scan env seekable data = (s, true)) (hobject : s.packData = .object oh) (fuel : ℕ)
    (ds rs : List ObjectHeader) : ∃ q : Parser, parseLoop observers env seekable data (fuel + 1) p ds rs =
        parseLoop observers env seekable data fuel q (ds ++ ofKind .ofsDelta [oh]) (rs ++ ofKind .refDelta [oh]) ∧
      q.scanner = s ∧ q.checksum = p.checksum ∧ q.cache = cacheObjects p.cache [oh] ∧
      q.history = reportObjects observers p.history [oh] := by
  rw [parseLoop, hscan]
  simp only [hobject]
  cases hdelta : oh.type.isDelta with
  | true =>
    refine ⟨{ p with scanner := s }, ?_, rfl, rfl, by simp [cacheObjects, hdelta], by simp [reportObjects, hdelta]⟩
    cases ht : oh.type <;> simp_all [ofKind, ObjectType.isDelta]
  | false =>
    refine ⟨(storeOrCache observers { p with scanner := s } oh).1, ?_, rfl, rfl,
      by simp [cacheObjects, hdelta, storeOrCache], by simp [reportObjects, hdelta, storeOrCache]⟩
    cases ht : oh.type <;> simp_all [ofKind, ObjectType.isDelta]

lemma parseLoop_entries : ∀ (m k offset : ℕ) (last : PackData) (p : Parser)
    (ds rs : List ObjectHeader) (fuel : ℕ), k + m = n → p.scanner = entryScanner n k offset last →
    (readEntries env seekable data m offset).1.length + 1 ≤ fuel →
    ∃ p', parseLoop observers env seekable data fuel p ds rs =
        (p', ds ++ ofKind .ofsDelta (readEntries env seekable data m offset).1,
          rs ++ ofKind .refDelta (readEntries env seekable data m offset).1) ∧
      p'.cache = cacheObjects p.cache (readEntries env seekable data m offset).1 ∧
      p'.history = reportObjects observers p.history (readEntries env seekable data m offset).1 ∧
      p'.scanner.objects = n ∧ ScanEnds env data (readEntries env seekable data m offset).2 p p' := by
  intro m
  induction m with
  | zero =>
    intro k offset last p ds rs fuel hk hp hfuel
    obtain rfl : k = n := by omega
    obtain ⟨fuel, rfl⟩ : ∃ f, fuel = f + 1 := ⟨fuel - 1, by omega⟩
    simp only [readEntries]
    cases hf : readFooter env data offset with
    | error e =>
      refine ⟨{ p with scanner := { entryScanner k k offset last with err := some e } }, ?_, rfl, rfl,
        rfl, .inr ⟨?_, rfl, by simp⟩⟩
      · simp [parseLoop, hp, Scan_footer, hf, ofKind]
      · intro o ho
        simp only [Except.ok.injEq] at ho
        exact ⟨e, by rw [← ho, hf]⟩
    | ok q =>
      obtain ⟨checksum, stop⟩ := q
      refine ⟨{ p with
        scanner := { entryScanner k k stop (.footer checksum) with nextFn := none }
        checksum := checksum }, ?_, rfl, rfl, rfl, .inl ⟨offset, checksum, stop, rfl, hf, rfl, rfl, rfl⟩⟩
      rw [parseLoop, hp, Scan_footer, hf]
      cases fuel with
      | zero => simp [parseLoop, entryScanner, ofKind]
      | succ fuel => simp [parseLoop, entryScanner, ofKind, Scanner.Scan]
  | succ m ih =>
    intro k offset last p ds rs fuel hk hp hfuel
    obtain ⟨fuel, rfl⟩ : ∃ f, fuel = f + 1 := ⟨fuel - 1, by omega⟩
    cases hr : readEntry env seekable data offset with
    | error e =>
      simp only [readEntries, hr]
      refine ⟨{ p with scanner := { entryScanner n k offset last with err := some e } }, ?_, rfl, rfl,
        rfl, .inr ⟨by simp, rfl, by simp⟩⟩
      simp [parseLoop, hp, Scan_entry (show k < n by omega), hr, ofKind]
    | ok q =>
      obtain ⟨oh, stop⟩ := q
      simp only [readEntries, hr, length_cons] at hfuel ⊢
      have hscan := @Scan_entry env seekable data n k offset last (by omega)
      rw [hr] at hscan
      obtain ⟨q, hq, hscanner, hchecksum, hqcache, hqhist⟩ :=
        @parseLoop_object env seekable data observers p _ oh (hp ▸ hscan) rfl fuel ds rs
      obtain ⟨p', hloop, hcache, hhist, hobj, hends⟩ := ih (k + 1) stop (.object oh) q _ _ fuel (by omega) hscanner
        (by omega)
      refine ⟨p', ?_, by rw [hcache, hqcache]; rfl, by rw [hhist, hqhist]; rfl, hobj, ?_⟩
      · rw [hq, hloop]
        simp only [ofKind, append_assoc, ← filter_append, singleton_append]
      · rwa [ScanEnds, hchecksum] at hends

lemma readEntries_length (m offset : ℕ) : (readEntries env seekable data m offset).1.length ≤ data.length - offset := by
  induction m generalizing offset with
  | zero => simp [readEntries]
  | succ m ih =>
    cases hr : readEntry env seekable data offset with
    | error e => simp [readEntries, hr]
    | ok q =>
      obtain ⟨oh, stop⟩ := q
      have hat := readEntry_spec hr
      have h₁ := hat.inside
      have h₂ := hat.before
      have h₃ := hat.ends
      have := ih stop
      simp only [readEntries, hr, length_cons]
      omega

lemma readUint32_eq {offset : ℕ} : readUint32 data offset = if offset + 4 ≤ data.length then
        .ok (bigEndian ((data.drop offset).take 4), offset + 4)
      else .error (if (data.drop offset).take 4 = [] then .eof else .unexpectedEOF) := by
  have hlen : ((data.drop offset).take 4).length = 4 ↔ offset + 4 ≤ data.length := by
    simp only [length_take, length_drop]
    omega
  by_cases h : offset + 4 ≤ data.length
  · simp only [readUint32, readFull, hlen, h, ↓reduceIte, Except.map]
  · simp only [readUint32, readFull, hlen, h, ↓reduceIte, Except.map]

lemma Scan_header (h : HeaderOK data n) (hn : n ≠ 0) :
    ({} : Scanner).Scan env seekable data = (entryScanner n 0 12 (.header 2 n), true) := by
  obtain ⟨hsig, hver, hqty, hlen⟩ := h
  have h₁ : readUint32 data 4 = .ok (2, 8) := by
    rw [readUint32_eq, if_pos (by omega), hver]
  have h₂ : readUint32 data 8 = .ok (n, 12) := by
    rw [readUint32_eq, if_pos (by omega), hqty]
  simp [Scanner.Scan, scan, runState, hsig, h₁, h₂, hn, entryScanner]

/-- The scan is over after at most one call, with no objects announced. -/
def Scanner.Idle (res : Scanner × Bool) : Prop :=
  res.1.objects = 0 ∧
    (res.2 = true → res.1.nextFn = none ∧ ∃ checksum, res.1.packData = .footer checksum)

lemma Scan_no_header (h : ∀ n, HeaderOK data n → n = 0) : Scanner.Idle (({} : Scanner).Scan env seekable data) := by
  simp only [Scanner.Idle, Scanner.Scan]
  by_cases hsig : data.take 4 = [0x50, 0x41, 0x43, 0x4b]
  · by_cases hlen : 8 ≤ data.length
    · have h₁ := @readUint32_eq data 4
      rw [if_pos (by omega)] at h₁
      by_cases hver : bigEndian ((data.drop 4).take 4) = 2
      · have h₂ := @readUint32_eq data 8
        by_cases hlen' : 12 ≤ data.length
        · rw [if_pos (by omega), h _ ⟨hsig, hver, rfl, hlen'⟩] at h₂
          cases hf : readFooter env data 12 <;> simp [scan, runState, hsig, h₁, hver, h₂, hf]
        · rw [if_neg (by omega)] at h₂
          simp [scan, runState, hsig, h₁, hver, h₂]
      · simp [scan, runState, hsig, h₁, hver]
    · have h₁ := @readUint32_eq data 4
      rw [if_neg (by omega)] at h₁
      simp [scan, runState, hsig, h₁]
  · by_cases hnil : data = []
    · simp [scan, runState, hnil]
    · simp [scan, runState, hsig, hnil]

lemma Parse_no_header (h : ∀ n, HeaderOK data n → n = 0) :
    Parse observers env seekable data = .fail .emptyPackfile := by
  obtain ⟨hobj, hend⟩ := @Scan_no_header env seekable data h
  have hloop : (parseLoop observers env seekable data (data.length + 3) {} [] []).1.scanner.objects = 0 := by
    rw [parseLoop]
    generalize ({} : Scanner).Scan env seekable data = res at hobj hend
    obtain ⟨r, b⟩ := res
    cases b with
    | false => exact hobj
    | true =>
      obtain ⟨hnext, checksum, hdata⟩ := hend rfl
      simp only at hobj hnext hdata
      simp [hdata, parseLoop, Scanner.Scan, hnext, hobj]
  simp only [Parse, hloop, ↓reduceIte]

lemma parseLoop_header (h : HeaderOK data n) (hn : n ≠ 0) :
    ∃ p', parseLoop observers env seekable data (data.length + 3) {} [] [] =
        (p', ofKind .ofsDelta (readEntries env seekable data n 12).1,
          ofKind .refDelta (readEntries env seekable data n 12).1) ∧
      p'.cache = cacheObjects {} (readEntries env seekable data n 12).1 ∧
      p'.history = reportObjects observers (forEachObserver observers [] (.header n)).1
        (readEntries env seekable data n 12).1 ∧ p'.scanner.objects = n ∧
      ScanEnds env data (readEntries env seekable data n 12).2 {} p' := by
  have hlen := @readEntries_length env seekable data n 12
  have hdata : (entryScanner n 0 12 (.header 2 n)).packData = .header 2 n := rfl
  obtain ⟨p', hloop, hcache, hhist, hobj, hends⟩ := @parseLoop_entries env seekable data n observers
    n 0 12 (.header 2 n)
    { scanner := entryScanner n 0 12 (.header 2 n)
      history := (forEachObserver observers [] (.header n)).1 } [] [] (data.length + 2) (by omega) rfl
    (by omega)
  refine ⟨p', ?_, hcache, hhist, hobj, hends⟩
  rw [parseLoop, Scan_header h hn]
  simpa [hdata] using hloop

end Loop

end GoGit.Pack
