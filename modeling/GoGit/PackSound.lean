import GoGit.PackObjects

/-! `Parse` looks neither at the error that ended the scan nor at the answers to the notifications for objects that
are not deltas. What it reports is right exactly where nothing of this kind happened. -/
namespace GoGit.Pack

open List

def objectReports (k : ObjectHeader) : History :=
  [(.objectHeader k.type k.size k.offset, true), (.objectContent k.hash k.offset k.crc32, true)]

def Event.headerAt (offset : ℕ) : Event → Bool
  | .objectHeader _ _ o => o = offset
  | _ => false

def Event.contentAt (offset : ℕ) : Event → Bool
  | .objectContent _ o _ => o = offset
  | _ => false

structure ReportedOnce (h : History) (offset : ℕ) (t : ObjectType) (size : ℤ) (hash : ObjectID)
    (crc : UInt32) : Prop where
  header : h.filter (fun e => e.1.headerAt offset) = [(.objectHeader t size offset, true)]
  content : h.filter (fun e => e.1.contentAt offset) = [(.objectContent hash offset crc, true)]

variable {es : List ObjectHeader} {k : ObjectHeader}

variable {h h' : History}

section History

variable {observers : List Observer}

/-- The objects of the list that are not deltas are reported in turn, and accepted. -/
def ObjectsAccepted (observers : List Observer) : History → List ObjectHeader → Prop
  | _, [] => True
  | h, oh :: es =>
    if oh.type.isDelta then ObjectsAccepted observers h es
    else (reportObject observers h oh).2 = none ∧
      ObjectsAccepted observers (reportObject observers h oh).1 es

lemma forEachObserver_eq (h : History) (ev : Event) :
    ∃ err, forEachObserver observers h ev = (h ++ [(ev, Option.isNone err)], err) := ⟨_, rfl⟩

lemma reportObject_cases (observers : List Observer) (h : History) (k : ObjectHeader) :
    (∃ e, reportObject observers h k = (h ++ [(.objectHeader k.type k.size k.offset, false)], some e)) ∨
      ∃ err : Option PackError, reportObject observers h k = (h ++ [(.objectHeader k.type k.size k.offset, true),
        (.objectContent k.hash k.offset k.crc32, err.isNone)], err) := by
  obtain ⟨err, hheader⟩ := @forEachObserver_eq observers h (.objectHeader k.type k.size k.offset)
  rw [reportObject, hheader]
  cases err with
  | some e => exact .inl ⟨e, rfl⟩
  | none =>
    obtain ⟨err, hcontent⟩ := @forEachObserver_eq observers (h ++ [(.objectHeader k.type k.size k.offset, true)])
      (.objectContent k.hash k.offset k.crc32)
    exact .inr ⟨err, by simpa using hcontent⟩

lemma reportObject_accepted (hr : reportObject observers h k = (h', none)) : h' = h ++ objectReports k := by
  rcases reportObject_cases observers h k with ⟨e, heq⟩ | ⟨err, heq⟩
  · simp [heq] at hr
  · obtain ⟨rfl, rfl⟩ := Prod.mk.inj (heq.symm.trans hr)
    rfl

lemma reportObjects_accepted {h : History} (hacc : ObjectsAccepted observers h es) :
    reportObjects observers h es = h ++ (fullObjects es).flatMap objectReports := by
  induction es generalizing h with
  | nil => simp [reportObjects, fullObjects]
  | cons oh es ih =>
    rw [fullObjects_cons]
    cases hd : oh.type.isDelta with
    | true =>
      simp only [ObjectsAccepted, hd, ↓reduceIte] at hacc
      simpa [reportObjects, hd] using ih hacc
    | false =>
      simp only [ObjectsAccepted, hd, Bool.false_eq_true, ↓reduceIte] at hacc
      obtain ⟨hnone, hrest⟩ := hacc
      have hrep := reportObject_accepted (Prod.ext rfl hnone :
        reportObject observers h oh = ((reportObject observers h oh).1, none))
      have := ih hrest
      rw [hrep] at this
      simpa [reportObjects, hd, hrep] using this

variable {seekable : Bool} {data : Bytes} {env : Env}

lemma resolveDeltas_cons {oh : ObjectHeader}
    {pending known : List ObjectHeader} {h : History} {st : List ObjectHeader × History}
    (hres : resolveDeltas env seekable data observers (oh :: pending) (known, h) = some st) :
    ∃ r, resolveDelta env seekable data known oh = some r ∧
      resolveDeltas env seekable data observers pending (known ++ [r], h ++ objectReports r) = some st := by
  rw [resolveDeltas] at hres
  cases hr : resolveDelta env seekable data known oh with
  | none => simp [hr] at hres
  | some r =>
    rcases hreport : reportObject observers h r with ⟨hist, _ | e⟩
    · simp only [hr, hreport] at hres
      exact ⟨r, rfl, reportObject_accepted hreport ▸ hres⟩
    · simp [hr, hreport] at hres

lemma resolveDeltas_history {pending known known' : List ObjectHeader}
    (hres : resolveDeltas env seekable data observers pending (known, h) = some (known', h')) :
    ∃ rs, known' = known ++ rs ∧ h' = h ++ rs.flatMap objectReports := by
  induction pending generalizing known h with
  | nil =>
    obtain ⟨rfl, rfl⟩ := Prod.mk.inj (Option.some.inj hres)
    exact ⟨[], by simp⟩
  | cons oh pending ih =>
    obtain ⟨r, -, hres⟩ := resolveDeltas_cons hres
    obtain ⟨rs, rfl, rfl⟩ := ih hres
    exact ⟨r :: rs, by simp⟩

end History

lemma flatMap_ite_of_nodup {α β γ : Type} [DecidableEq β] {g : α → β} (f : α → List γ) {l : List α} {a : α}
    (ha : a ∈ l) (hnd : (l.map g).Nodup) : (l.flatMap fun x => if g x = g a then f x else []) = f a := by
  induction l with
  | nil => simp at ha
  | cons x l ih =>
    simp only [map_cons, nodup_cons, mem_map, not_exists, not_and] at hnd
    rw [flatMap_cons]
    rcases mem_cons.mp ha with rfl | ha
    · rw [if_pos rfl, flatMap_eq_nil_iff.mpr fun y hy => if_neg (hnd.1 y hy), append_nil]
    · rw [if_neg fun heq => hnd.1 a ha heq.symm, ih ha hnd.2, nil_append]

lemma filter_reports {ks : List ObjectHeader} (hk : k ∈ ks) (hnd : (ks.map ObjectHeader.offset).Nodup) :
    ReportedOnce (ks.flatMap objectReports) k.offset k.type k.size k.hash k.crc32 := by
  constructor
  · rw [filter_flatMap, ← flatMap_ite_of_nodup (fun x => [(Event.objectHeader x.type x.size x.offset, true)]) hk hnd]
    refine flatMap_congr fun x _ => ?_
    by_cases hx : x.offset = k.offset <;> simp [objectReports, Event.headerAt, hx]
  · rw [filter_flatMap, ← flatMap_ite_of_nodup (fun x => [(Event.objectContent x.hash x.offset x.crc32, true)]) hk hnd]
    refine flatMap_congr fun x _ => ?_
    by_cases hx : x.offset = k.offset <;> simp [objectReports, Event.contentAt, hx]

section Sound

variable (observers : List Observer) (env : Env) (seekable : Bool) (data : Bytes)

/-- What a nil error should mean for a pack that announces `n` objects. -/
structure ParseGood (n : ℕ) (p : Parser) : Prop where
  complete : ∃ checksum, Complete env seekable data n (entries env seekable data n) checksum ∧
    p.scanner.packData = .footer checksum
  count : (entries env seekable data n).length = n
  reported : ∀ oh ∈ entries env seekable data n, ∃ t out,
    ResolvesTo env data (entries env seekable data n) oh t out ∧
      ReportedOnce p.history oh.offset t out.length (ComputeHash env.sha1 t out) oh.crc32

/-- Nothing happened that the parser does not look at: the scan went through the footer, the
declared sizes are right, the observers accepted all objects that are not deltas, and every
delta is a delta against an object of the pack. -/
structure ScanClean (n : ℕ) : Prop where
  complete : ∃ checksum, Complete env seekable data n (entries env seekable data n) checksum
  sizes : ∀ oh ∈ entries env seekable data n, oh.type.isDelta = false →
    oh.size = (rawContent env data oh).length
  accepted : ObjectsAccepted observers (forEachObserver observers [] (.header n)).1
    (entries env seekable data n)
  resolves : ∀ oh ∈ entries env seekable data n, ∃ t out,
    ResolvesTo env data (entries env seekable data n) oh t out

end Sound

section Proof

variable {observers : List Observer} {env : Env} {seekable : Bool} {data : Bytes} {n : ℕ}
  {p : Parser}

lemma HeaderOK.unique {m : ℕ} (h : HeaderOK data n) (h' : HeaderOK data m) : n = m := by
  rw [← h.objects, h'.objects]

lemma readEntries_count {m offset stop : ℕ}
    (h : readEntries env seekable data m offset = (es, .ok stop)) : es.length = m := by
  induction m generalizing offset es with
  | zero =>
    simp only [readEntries, Prod.mk.injEq] at h
    simp [← h.1]
  | succ m ih =>
    cases hr : readEntry env seekable data offset with
    | error e => simp [readEntries, hr] at h
    | ok q =>
      obtain ⟨oh, pos⟩ := q
      simp only [readEntries, hr, Prod.mk.injEq] at h
      rw [← h.1, length_cons, ih (Prod.ext rfl h.2)]

lemma ScanEnds.packData_eq {checksum : ObjectID} (h : ScanEnds env data (readEntries env seekable data n 12).2 {} p)
    (hc : Complete env seekable data n (entries env seekable data n) checksum) :
    p.scanner.packData = .footer checksum := by
  obtain ⟨offset, hread, hle, hsum, rfl⟩ := hc
  have hf := readFooter_eq_ok_iff.mpr ⟨hle, hsum, rfl, rfl⟩
  rw [hread] at h
  rcases h with ⟨o, c, pos, ho, hfo, _, hdata, _⟩ | ⟨hfo, _⟩
  · simp only [Except.ok.injEq] at ho
    subst ho
    rw [hf] at hfo
    simp only [Except.ok.injEq, Prod.mk.injEq] at hfo
    rw [hdata, hfo.1]
  · obtain ⟨e, he⟩ := hfo offset rfl
    rw [hf] at he
    cases he

lemma resolveDeltas_stands {pending done known known' : List ObjectHeader}
    (hcol : CollisionFree env data (entries env seekable data n))
    (hpend : ∀ oh ∈ pending, oh.type.isDelta = true ∧ ∃ t out,
      ResolvesTo env data (entries env seekable data n) oh t out)
    (hknown : StandsAll env seekable data (entries env seekable data n) done known)
    (hres : resolveDeltas env seekable data observers pending (known, h) = some (known', h')) :
    StandsAll env seekable data (entries env seekable data n) (done ++ pending) known' := by
  induction pending generalizing done known h with
  | nil =>
    obtain ⟨rfl, rfl⟩ := Prod.mk.inj (Option.some.inj hres)
    rwa [append_nil]
  | cons oh pending ih =>
    obtain ⟨r, hr, hres⟩ := resolveDeltas_cons hres
    obtain ⟨⟨hd, t, out, hto⟩, hpend⟩ := forall_mem_cons.mp hpend
    have hstand := resolveDelta_stands hcol hknown hto hd hr
    simpa using ih hpend (rel_append hknown (.cons hstand .nil)) hres

lemma fullObjects_deltaOrder_perm (es : List ObjectHeader) : (fullObjects es ++ deltaOrder es).Perm es := by
  have hdelta : (deltaOrder es).Perm (es.filter fun oh => oh.type.isDelta) := by
    have hp := filter_append_perm (fun oh : ObjectHeader => decide (oh.type = .refDelta))
      (es.filter fun oh => oh.type.isDelta)
    rw [filter_filter, filter_filter] at hp
    have h₁ : ofKind .refDelta es =
        es.filter fun oh => decide (oh.type = .refDelta) && oh.type.isDelta := by
      refine filter_congr fun oh _ => ?_
      cases oh.type <;> rfl
    have h₂ : ofKind .ofsDelta es =
        es.filter fun oh => (!decide (oh.type = .refDelta)) && oh.type.isDelta := by
      refine filter_congr fun oh _ => ?_
      cases oh.type <;> rfl
    rwa [deltaOrder, h₁, h₂]
  have hfull : fullObjects es = es.filter fun oh => !oh.type.isDelta := by
    refine filter_congr fun oh _ => ?_
    cases oh.type.isDelta <;> rfl
  rw [hfull]
  exact ((List.Perm.refl _).append hdelta).trans (perm_append_comm.trans (filter_append_perm _ es))

variable {hist : History}

lemma parseHistory_eq_some (h : parseHistory observers env seekable data n = some hist) :
    ∃ known h', resolvePack observers env seekable data n = some (known, h') ∧
      hist = h' ++ [(.footer (packChecksum env seekable data n), true)] := by
  unfold parseHistory at h
  cases hres : resolvePack observers env seekable data n with
  | none => simp [hres] at h
  | some st =>
    obtain ⟨known, h'⟩ := st
    obtain ⟨err, hf⟩ := @forEachObserver_eq observers h' (.footer (packChecksum env seekable data n))
    cases err with
    | some e => simp [hres, hf] at h
    | none =>
      simp only [hres, hf, Option.some.injEq] at h
      exact ⟨known, h', rfl, h.symm⟩

lemma StandsAll.offsets_nodup {known : List ObjectHeader}
    (hall : StandsAll env seekable data (entries env seekable data n)
      (fullObjects (entries env seekable data n) ++ deltaOrder (entries env seekable data n)) known) :
    (known.map ObjectHeader.offset).Nodup := by
  rw [hall.offsets, ((fullObjects_deltaOrder_perm _).map _).nodup_iff]
  exact entries_offsets_nodup

section

variable (hcol : CollisionFree env data (entries env seekable data n))

include hcol

lemma history_of_clean (hclean : ScanClean observers env seekable data n)
    (hhist : parseHistory observers env seekable data n = some hist) :
    ∃ known, StandsAll env seekable data (entries env seekable data n)
        (fullObjects (entries env seekable data n) ++ deltaOrder (entries env seekable data n)) known ∧
      hist = (forEachObserver observers [] (.header n)).1 ++ known.flatMap objectReports ++
        [(.footer (packChecksum env seekable data n), true)] := by
  have hfull : ∀ oh ∈ fullObjects (entries env seekable data n),
      Stands env seekable data (entries env seekable data n) oh oh := by
    intro oh hoh
    obtain ⟨hmem, hd⟩ := mem_fullObjects.mp hoh
    exact stands_full hmem hd (hclean.sizes oh hmem hd)
  have hpend : ∀ oh ∈ deltaOrder (entries env seekable data n), oh.type.isDelta = true ∧
      ∃ t out, ResolvesTo env data (entries env seekable data n) oh t out := by
    intro oh hoh
    obtain ⟨hmem, hd⟩ := mem_deltaOrder.mp hoh
    exact ⟨hd, hclean.resolves oh hmem⟩
  obtain ⟨known, h, hres, hfoot⟩ := parseHistory_eq_some hhist
  obtain ⟨rs, hk, hh⟩ := resolveDeltas_history hres
  refine ⟨known, resolveDeltas_stands hcol hpend (standsAll_full hfull) hres, ?_⟩
  rw [hfoot, hh, scanHistory, reportObjects_accepted hclean.accepted, hk, flatMap_append]
  simp only [append_assoc]

lemma parseGood_of_clean (hclean : ScanClean observers env seekable data n)
    (hhist : parseHistory observers env seekable data n = some p.history)
    (hends : ScanEnds env data (readEntries env seekable data n 12).2 {} p) : ParseGood env seekable data n p := by
  obtain ⟨checksum, hcomplete⟩ := hclean.complete
  have hcount : (entries env seekable data n).length = n := by
    obtain ⟨_, hread, _⟩ := hcomplete
    exact readEntries_count hread
  refine ⟨⟨checksum, hcomplete, hends.packData_eq hcomplete⟩, hcount, ?_⟩
  obtain ⟨known, hall, hfoot⟩ := history_of_clean hcol hclean hhist
  intro oh hoh
  obtain ⟨k, hkmem, t, out, hto, hko, hcrc, rfl, hsize, hhash, _, _⟩ :=
    hall.of_done ((fullObjects_deltaOrder_perm _).mem_iff.mpr hoh)
  refine ⟨k.type, out, hto, ?_⟩
  have honce := filter_reports hkmem hall.offsets_nodup
  obtain ⟨err, hheader⟩ := @forEachObserver_eq observers [] (.header n)
  rw [hheader] at hfoot
  rw [hko, hsize, hhash, hcrc] at honce
  constructor
  · simpa [hfoot, Event.headerAt] using honce.header
  · simpa [hfoot, Event.contentAt] using honce.content

end

end Proof

def adler32 (content : Bytes) : ℕ :=
  let (a, b) := content.foldl
    (fun (a, b) x => ((a + x.toNat) % 65521, (b + a + x.toNat) % 65521)) (1, 0)
  b * 65536 + a

def inflateStored : Bytes → Except PackError (Bytes × ℕ)
  | 0x78 :: 0x01 :: 0x01 :: l₀ :: l₁ :: n₀ :: n₁ :: rest =>
    let len := l₀.toNat + 256 * l₁.toNat
    if n₀ = 255 - l₀ ∧ n₁ = 255 - l₁ ∧ len + 4 ≤ rest.length ∧
        bigEndian ((rest.drop len).take 4) = adler32 (rest.take len)
    then .ok (rest.take len, len + 11)
    else .error .zlib
  | _ => .error .zlib

def lookupSum (table : List (Bytes × Bytes)) (b : Bytes) : Bytes :=
  ((table.find? fun e => e.1 = b).map Prod.snd).getD []

def blobSum : Bytes :=
  [0x2e, 0x65, 0xef, 0xe2, 0xa1, 0x45, 0xdd, 0xa7, 0xee, 0x51, 0xd1, 0x74, 0x12, 0x99, 0xf8, 0x48,
    0xe5, 0xbf, 0x75, 0x2e]

lemma inflateStored_signature (rest : Bytes) : ∃ e, inflateStored (0x50 :: rest) = .error e :=
  ⟨.zlib, rfl⟩

end GoGit.Pack
