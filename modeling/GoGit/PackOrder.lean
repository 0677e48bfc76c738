import GoGit.PackSound

/-! The parser takes all deltas by name before the deltas by offset, each kind in pack order. A delta is ready if its
base has been taken before. -/
namespace GoGit.Pack

open List

section Order

variable (env : Env) (data : Bytes) (es : List ObjectHeader)

def Ready (done : List ObjectHeader) (oh : ObjectHeader) : Prop :=
  ∃ b ∈ done, ∃ t base, ResolvesTo env data es b t base ∧
    if oh.type = .ofsDelta then (b.offset : ℤ) = oh.offsetReference
    else ComputeHash env.sha1 t base = oh.reference

def InOrder : List ObjectHeader → List ObjectHeader → Prop
  | _, [] => True
  | done, oh :: pending => Ready env data es done oh ∧ InOrder (done ++ [oh]) pending

/-- Every delta by name has a base that is not a delta, or a delta by name further up. -/
def RefsReady : Prop :=
  ∀ oh ∈ es, oh.type = .refDelta → ∃ b t base, ResolvesTo env data es b t base ∧
    ComputeHash env.sha1 t base = oh.reference ∧
    (b.type.isDelta = false ∨ b.type = .refDelta ∧ b.offset < oh.offset)

end Order

section InOrder

variable {env : Env} {data : Bytes} {es : List ObjectHeader}

lemma inOrder_iff {done pending : List ObjectHeader} : InOrder env data es done pending ↔
      ∀ pre oh post, pending = pre ++ oh :: post → Ready env data es (done ++ pre) oh := by
  induction pending generalizing done with
  | nil => simp [InOrder]
  | cons x pending ih =>
    rw [InOrder, ih]
    constructor
    · rintro ⟨hx, hrest⟩ pre oh post he
      cases pre with
      | nil =>
        simp only [nil_append, List.cons.injEq] at he
        simpa [← he.1] using hx
      | cons y pre =>
        simp only [cons_append, List.cons.injEq] at he
        simpa [he.1] using hrest pre oh post he.2
    · intro h
      refine ⟨by simpa using h [] x pending rfl, ?_⟩
      intro pre oh post he
      simpa using h (x :: pre) oh post (by simp [he])

lemma inOrder_append {done xs ys : List ObjectHeader} : InOrder env data es done (xs ++ ys) ↔
      InOrder env data es done xs ∧ InOrder env data es (done ++ xs) ys := by
  induction xs generalizing done with
  | nil => simp [InOrder]
  | cons x xs ih => simp [InOrder, ih, and_assoc]

lemma mem_before_iff {pre post : List ObjectHeader} {oh b : ObjectHeader}
    (hs : (pre ++ oh :: post).Pairwise fun x y => x.offset < y.offset) :
    b ∈ pre ↔ b ∈ pre ++ oh :: post ∧ b.offset < oh.offset := by
  obtain ⟨_, hpost, hpre⟩ := pairwise_append.mp hs
  have hlater := (pairwise_cons.mp hpost).1
  constructor
  · exact fun hb => ⟨mem_append_left _ hb, hpre b hb oh (by simp)⟩
  · rintro ⟨hb, hlt⟩
    rcases mem_append.mp hb with hb | hb
    · exact hb
    · rcases mem_cons.mp hb with rfl | hb
      · exact absurd hlt (lt_irrefl _)
      · exact absurd (hlater b hb) (by omega)

section

variable (hs : es.Pairwise fun x y => x.offset < y.offset)

include hs

lemma ofKind_sorted (t : ObjectType) : (ofKind t es).Pairwise fun x y => x.offset < y.offset := hs.filter _

lemma inOrder_refs : InOrder env data es (fullObjects es) (ofKind .refDelta es) ↔ RefsReady env data es := by
  rw [inOrder_iff]
  constructor
  · intro h oh hoh hty
    obtain ⟨pre, post, hsplit⟩ := append_of_mem (mem_ofKind.mpr ⟨hoh, hty⟩)
    obtain ⟨b, hb, t, base, hto, hlink⟩ := h pre oh post hsplit
    rw [if_neg (by simp [hty])] at hlink
    refine ⟨b, t, base, hto, hlink, ?_⟩
    rcases mem_append.mp hb with hb | hb
    · exact .inl (mem_fullObjects.mp hb).2
    · have hsorted := ofKind_sorted hs .refDelta
      rw [hsplit] at hsorted
      obtain ⟨hmem, hlt⟩ := (mem_before_iff hsorted).mp hb
      rw [← hsplit] at hmem
      exact .inr ⟨(mem_ofKind.mp hmem).2, hlt⟩
  · intro h pre oh post hsplit
    have hoh : oh ∈ ofKind .refDelta es := by simp [hsplit]
    obtain ⟨hmem, hty⟩ := mem_ofKind.mp hoh
    obtain ⟨b, t, base, hto, hlink, hb⟩ := h oh hmem hty
    refine ⟨b, ?_, t, base, hto, by simpa [hty] using hlink⟩
    have hsorted := ofKind_sorted hs .refDelta
    rw [hsplit] at hsorted
    rcases hb with hb | ⟨hb, hlt⟩
    · exact mem_append_left _ (mem_fullObjects.mpr ⟨hto.mem, hb⟩)
    · refine mem_append_right _ ((mem_before_iff hsorted).mpr ⟨?_, hlt⟩)
      rw [← hsplit]
      exact mem_ofKind.mpr ⟨hto.mem, hb⟩

variable (hres : ∀ oh ∈ es, ∃ t out, ResolvesTo env data es oh t out)
  (hback : ∀ oh ∈ es, oh.type = .ofsDelta → oh.offsetReference < oh.offset)

include hres hback

lemma inOrder_ofs : InOrder env data es (fullObjects es ++ ofKind .refDelta es) (ofKind .ofsDelta es) := by
  rw [inOrder_iff]
  intro pre oh post hsplit
  have hoh : oh ∈ ofKind .ofsDelta es := by simp [hsplit]
  obtain ⟨hmem, hty⟩ := mem_ofKind.mp hoh
  obtain ⟨t, out, hto⟩ := hres oh hmem
  cases hto with
  | full _ kind => simp [hty, ObjectType.isDelta] at kind
  | ref _ kind => simp [hty] at kind
  | @ofs _ b t base _ _ _ parent link _ =>
    have hlt : b.offset < oh.offset := by
      have := hback oh hmem hty
      omega
    have hsorted := ofKind_sorted hs .ofsDelta
    rw [hsplit] at hsorted
    have hbefore : b.type = .ofsDelta → b ∈ pre := fun hb =>
      (mem_before_iff hsorted).mpr ⟨hsplit ▸ mem_ofKind.mpr ⟨parent.mem, hb⟩, hlt⟩
    refine ⟨b, ?_, t, base, parent, by simpa [hty] using link⟩
    simp only [mem_append]
    cases hb : b.type with
    | ofsDelta => exact .inr (hbefore hb)
    | refDelta => exact .inl (.inr (mem_ofKind.mpr ⟨parent.mem, hb⟩))
    | _ => exact .inl (.inl (mem_fullObjects.mpr ⟨parent.mem, by rw [hb]; rfl⟩))

/-- In the parser's order only deltas by name can come too early. -/
lemma inOrder_iff_refsReady : InOrder env data es (fullObjects es) (deltaOrder es) ↔ RefsReady env data es := by
  rw [deltaOrder, inOrder_append, inOrder_refs hs]
  exact and_iff_left (inOrder_ofs hs hres hback)

end

end InOrder

section Run

variable {observers : List Observer} {env : Env} {data : Bytes} {n : ℕ}

lemma forEachObserver_ok (hobs : ∀ o ∈ observers, ∀ h ev, o h ev = none) (h : History) (ev : Event) :
    (forEachObserver observers h ev).2 = none :=
  findSome?_eq_none_iff.mpr fun o ho => hobs o ho h ev

lemma reportObject_ok (hobs : ∀ o ∈ observers, ∀ h ev, o h ev = none) (h : History)
    (k : ObjectHeader) : (reportObject observers h k).2 = none := by
  have h₁ := forEachObserver_ok hobs h (.objectHeader k.type k.size k.offset)
  unfold reportObject
  generalize forEachObserver observers h (.objectHeader k.type k.size k.offset) = res at h₁ ⊢
  obtain ⟨hist, err⟩ := res
  simp only at h₁
  subst h₁
  exact forEachObserver_ok hobs hist _

lemma applyDelta_isSome {oh k : ObjectHeader} {base out : Bytes}
    (hmem : oh ∈ entries env true data n) (hd : oh.type.isDelta = true)
    (hbase : parentContents env true data k = .ok base)
    (hpatch : Delta.Accepted base (rawContent env data oh) out) (hlen : out.length < 2 ^ 63) :
    (applyDelta env true data oh k).isSome := by
  obtain ⟨stop, hat⟩ := entry_at hmem
  obtain ⟨hcontent, hhash⟩ := hat.delta hd
  have hdata : deltaData env true data oh = .ok (rawContent env data oh) := by
    unfold deltaData
    rw [hcontent, hat.inflates]
    split_ifs with h₁ h₂
    · rfl
    · rfl
    · exact absurd rfl h₂
  have hgrow : ¬ int64 out.length < 0 := by
    rw [int64_of_lt hlen]
    omega
  have hok := @Delta.patchDeltaWriter_of_accepted env.sha1 .buffer base (rawContent env data oh) k.type
    out hpatch (by simpa using hgrow)
  simp [applyDelta, hdata, hbase, Except.toOption, Outcome.toOption, patchHeader, hhash, hok]

lemma resolveDelta_isSome_iff {done known : List ObjectHeader} {oh : ObjectHeader} {t : ObjectType}
    {out : Bytes} (hcol : CollisionFree env data (entries env true data n))
    (hknown : StandsAll env true data (entries env true data n) done known)
    (hres : ResolvesTo env data (entries env true data n) oh t out) (hlen : out.length < 2 ^ 63)
    (hd : oh.type.isDelta = true) : (resolveDelta env true data known oh).isSome ↔
      Ready env data (entries env true data n) done oh := by
  have hfind : (findBase known oh).isSome ↔ Ready env data (entries env true data n) done oh := by
    unfold findBase Ready
    split_ifs with hty
    · rw [find?_isSome]
      constructor
      · rintro ⟨k, hk, hoff⟩
        obtain ⟨e, he, t', out', hres', hoff', _⟩ := hknown.of_known (mem_reverse.mp hk)
        exact ⟨e, he, t', out', hres', by simpa [hoff'] using hoff⟩
      · rintro ⟨b, hb, t', base, _, hoff⟩
        obtain ⟨k, hk, _, _, _, hoff', _⟩ := hknown.of_done hb
        exact ⟨k, mem_reverse.mpr hk, by simpa [hoff'] using hoff⟩
    · rw [find?_isSome]
      constructor
      · rintro ⟨k, hk, hname⟩
        obtain ⟨e, he, t', out', hres', _, _, _, _, hhash, _⟩ :=
          hknown.of_known (mem_reverse.mp hk)
        exact ⟨e, he, t', out', hres', by simpa [hhash] using hname⟩
      · rintro ⟨b, hb, t', base, hto, hname⟩
        obtain ⟨k, hk, t'', base', hto', _, _, _, _, hhash, _⟩ := hknown.of_done hb
        obtain ⟨rfl, rfl⟩ := ResolvesTo.unique hcol entries_offset_inj hto hto'
        exact ⟨k, mem_reverse.mpr hk, by simpa [hhash] using hname⟩
  rw [← hfind, resolveDelta]
  cases hb : findBase known oh with
  | none => simp
  | some k =>
    obtain ⟨base, hpatch, _, _, hread⟩ := findBase_stands hcol hknown hres hd hb
    simpa using applyDelta_isSome hres.mem hd (hread rfl) hpatch hlen

lemma resolveDeltas_isSome_iff (hcol : CollisionFree env data (entries env true data n))
    (hobs : ∀ o ∈ observers, ∀ h ev, o h ev = none) {pending : List ObjectHeader} :
    ∀ {done known : List ObjectHeader} {h : History}, (∀ oh ∈ pending, oh.type.isDelta = true ∧ ∃ t out,
        ResolvesTo env data (entries env true data n) oh t out ∧ out.length < 2 ^ 63) →
      StandsAll env true data (entries env true data n) done known →
      ((resolveDeltas env true data observers pending (known, h)).isSome ↔
        InOrder env data (entries env true data n) done pending) := by
  induction pending with
  | nil => simp [resolveDeltas, InOrder]
  | cons oh pending ih =>
    intro done known h hpend hknown
    obtain ⟨hd, t, out, hres, hlen⟩ := hpend oh (by simp)
    rw [InOrder, ← resolveDelta_isSome_iff hcol hknown hres hlen hd, resolveDeltas]
    cases hr : resolveDelta env true data known oh with
    | none => simp
    | some r =>
      have hall := rel_append hknown (.cons (resolveDelta_stands hcol hknown hres hd hr) .nil)
      have hacc := @reportObject_ok observers hobs h r
      simp only [Option.isSome_some, true_and]
      generalize reportObject observers h r = res at hacc ⊢
      obtain ⟨hist, err⟩ := res
      simp only at hacc
      subst hacc
      exact ih (fun x hx => hpend x (by simp [hx])) hall

/-- A pack as the format describes it, every delta with its base in the pack: base links are
not cyclic, and deltas by offset point backwards. -/
structure WellFormed (env : Env) (data : Bytes) (n : ℕ) : Prop where
  header : HeaderOK data n
  complete : ∃ checksum, Complete env true data n (entries env true data n) checksum
  sizes : ∀ oh ∈ entries env true data n, oh.type.isDelta = false →
    oh.size = (rawContent env data oh).length
  resolves : ∀ oh ∈ entries env true data n, ∃ t out,
    ResolvesTo env data (entries env true data n) oh t out ∧ out.length < 2 ^ 63
  backward : ∀ oh ∈ entries env true data n, oh.type = .ofsDelta → oh.offsetReference < oh.offset

/-- The parser succeeds and reports for every entry the object it stands for. -/
def ParseResolves (observers : List Observer) (env : Env) (data : Bytes) (n : ℕ) : Prop :=
  ∃ checksum p, Parse observers env true data = .ok (checksum, p) ∧
    ∀ oh ∈ entries env true data n, ∃ t out,
      ResolvesTo env data (entries env true data n) oh t out ∧
        ReportedOnce p.history oh.offset t out.length (ComputeHash env.sha1 t out) oh.crc32

lemma objectsAccepted_of_ok (hobs : ∀ o ∈ observers, ∀ h ev, o h ev = none)
    (es : List ObjectHeader) (h : History) : ObjectsAccepted observers h es := by
  induction es generalizing h with
  | nil => trivial
  | cons oh es ih =>
    unfold ObjectsAccepted
    split_ifs
    · exact ih h
    · exact ⟨reportObject_ok hobs h oh, ih _⟩

lemma WellFormed.clean (hw : WellFormed env data n) (hobs : ∀ o ∈ observers, ∀ h ev, o h ev = none) :
    ScanClean observers env true data n := by
  refine ⟨hw.complete, hw.sizes, objectsAccepted_of_ok hobs _ _, ?_⟩
  intro oh hoh
  obtain ⟨t, out, hto, _⟩ := hw.resolves oh hoh
  exact ⟨t, out, hto⟩

lemma WellFormed.parseHistory_isSome_iff (hw : WellFormed env data n)
    (hcol : CollisionFree env data (entries env true data n)) (hobs : ∀ o ∈ observers, ∀ h ev, o h ev = none) :
    (parseHistory observers env true data n).isSome ↔ RefsReady env data (entries env true data n) := by
  have hclean := @WellFormed.clean observers env data n hw hobs
  have hfull : ∀ oh ∈ fullObjects (entries env true data n),
      Stands env true data (entries env true data n) oh oh := by
    intro oh hoh
    obtain ⟨hmem, hd⟩ := mem_fullObjects.mp hoh
    exact stands_full hmem hd (hw.sizes oh hmem hd)
  have hpend : ∀ oh ∈ deltaOrder (entries env true data n), oh.type.isDelta = true ∧ ∃ t out,
      ResolvesTo env data (entries env true data n) oh t out ∧ out.length < 2 ^ 63 := by
    intro oh hoh
    obtain ⟨hmem, hd⟩ := mem_deltaOrder.mp hoh
    exact ⟨hd, hw.resolves oh hmem⟩
  rw [← inOrder_iff_refsReady entries_sorted hclean.resolves hw.backward]
  rw [← @resolveDeltas_isSome_iff observers env data n hcol hobs _ _ _
    (scanHistory observers n (entries env true data n)) hpend (standsAll_full hfull)]
  unfold parseHistory resolvePack
  cases resolveDeltas env true data observers (deltaOrder (entries env true data n))
      (fullObjects (entries env true data n), scanHistory observers n (entries env true data n)) with
  | none => simp
  | some st =>
    obtain ⟨known, h⟩ := st
    have hfoot := forEachObserver_ok hobs h (.footer (packChecksum env true data n))
    simp only [Option.isSome_some, iff_true]
    generalize forEachObserver observers h (.footer (packChecksum env true data n)) = res at hfoot ⊢
    obtain ⟨hist, err⟩ := res
    simp only at hfoot
    subst hfoot
    rfl

/-- A well-formed pack is resolved exactly if it is not empty and no delta by name comes before
its base in the parser's order. -/
theorem Parse_resolves_iff (hz : ∀ rest, ∃ e, env.inflate (0x50 :: rest) = .error e)
    (hobs : ∀ o ∈ observers, ∀ h ev, o h ev = none) (hw : WellFormed env data n)
    (hcol : CollisionFree env data (entries env true data n)) : ParseResolves observers env data n ↔
      n ≠ 0 ∧ RefsReady env data (entries env true data n) := by
  by_cases hn : n = 0
  · have hno : ∀ m, HeaderOK data m → m = 0 := fun m hm => hm.unique (hn ▸ hw.header)
    simp [ParseResolves, Parse_no_header observers hno, hn]
  · rw [← hw.parseHistory_isSome_iff hcol hobs]
    simp only [ne_eq, hn, not_false_eq_true, true_and]
    rcases @Parse_spec env true data observers n hw.header hn hz with
      ⟨p, hp, hhist, hends⟩ | ⟨hnone, hp⟩
    · have hgood := parseGood_of_clean hcol (hw.clean hobs) hhist hends
      simp only [hhist, Option.isSome_some, iff_true]
      exact ⟨_, p, hp, hgood.reported⟩
    · simp only [hnone, Option.isSome_none, Bool.false_eq_true, iff_false]
      rintro ⟨checksum, p, hok, _⟩
      exact hp _ hok

end Run

def mixedNameB : Bytes :=
  [0x63, 0xd8, 0xdb, 0xd4, 0x0c, 0x23, 0x54, 0x2e, 0x74, 0x06, 0x59, 0xa7, 0x16, 0x8a, 0x0c, 0xe3,
    0x13, 0x8e, 0xa7, 0x48]

def mixedNameC : Bytes :=
  [0x34, 0x10, 0x06, 0x2b, 0xa6, 0x7c, 0x5e, 0xd5, 0x9b, 0x85, 0x43, 0x87, 0xa8, 0xbc, 0x0e, 0xc0,
    0x12, 0x47, 0x93, 0x68]

/-- The blob `a`, the blob `b` as a delta by offset against it, and the blob `c` as a delta
against the blob with the given name. -/
def mixedBody (reference : Bytes) : Bytes :=
  [0x50, 0x41, 0x43, 0x4b, 0x00, 0x00, 0x00, 0x02, 0x00, 0x00, 0x00, 0x03,
    0x31, 0x78, 0x01, 0x01, 0x01, 0x00, 0xfe, 0xff, 0x61, 0x00, 0x62, 0x00, 0x62,
    0x64, 0x0d, 0x78, 0x01, 0x01, 0x04, 0x00, 0xfb, 0xff, 0x01, 0x01, 0x01, 0x62, 0x00, 0x6f, 0x00, 0x66,
    0x74] ++ reference ++
  [0x78, 0x01, 0x01, 0x04, 0x00, 0xfb, 0xff, 0x01, 0x01, 0x01, 0x63, 0x00, 0x70, 0x00, 0x67]

def mixedEnv : Env where
  sha1 := lookupSum
    [(textBytes "blob 1" ++ [0, 0x61], blobSum), (textBytes "blob 1" ++ [0, 0x62], mixedNameB),
      (textBytes "blob 1" ++ [0, 0x63], mixedNameC),
      (mixedBody blobSum, [0x28, 0xec, 0xe7, 0xa4, 0x47, 0xab, 0x49, 0x4e, 0xd7, 0x49, 0xd7, 0xb4, 0x83,
        0x9b, 0xf4, 0xa0, 0xfc, 0x61, 0x01, 0x15]),
      (mixedBody mixedNameB, [0x40, 0x26, 0xf7, 0x6f, 0x8a, 0x69, 0x39, 0xa9, 0xe6, 0x24, 0xd3, 0x9c,
        0x89, 0x72, 0x9a, 0x9c, 0x36, 0x8a, 0x11, 0xdf])]
  inflate := inflateStored

def mixedPack (reference : Bytes) : Bytes := mixedBody reference ++ mixedEnv.sha1 (mixedBody reference)

def mixedValue (oh : ObjectHeader) : ObjectType × Bytes :=
  (.blob, if oh.offset = 12 then [0x61] else if oh.offset = 25 then [0x62] else [0x63])

lemma accepted_literal {src out : Bytes} (hsrc : src.length = 1) (hout : out.length = 1) :
    Delta.Accepted src ([1, 1, 1] ++ out) out := by
  obtain ⟨x, rfl⟩ := length_eq_one_iff.mp hout
  refine ⟨[.insert [x]], hsrc.symm, ⟨[], .cons rfl (.nil [])⟩, by simp, ?_, rfl, rfl⟩
  intro c hc
  obtain rfl := mem_singleton.mp hc
  exact le_refl 1

lemma mixed_describes {r : Bytes} (hr : r = blobSum ∨ r = mixedNameB) :
    Describes mixedEnv (mixedPack r) (entries mixedEnv true (mixedPack r) 3) mixedValue := by
  have hfull : ∀ oh ∈ entries mixedEnv true (mixedPack r) 3, oh.type.isDelta = false →
      mixedValue oh = (oh.type, rawContent mixedEnv (mixedPack r) oh) := by
    rcases hr with rfl | rfl <;> decide +kernel
  have hnames : ∀ a ∈ entries mixedEnv true (mixedPack r) 3,
      ∀ b ∈ entries mixedEnv true (mixedPack r) 3,
      ComputeHash mixedEnv.sha1 (mixedValue a).1 (mixedValue a).2 =
        ComputeHash mixedEnv.sha1 (mixedValue b).1 (mixedValue b).2 →
      mixedValue a = mixedValue b := by
    rcases hr with rfl | rfl <;> decide +kernel
  have hdelta : ∀ oh ∈ entries mixedEnv true (mixedPack r) 3, oh.type.isDelta = true →
      ∃ b ∈ entries mixedEnv true (mixedPack r) 3, b.offset < oh.offset ∧
        (oh.type = .ofsDelta → (b.offset : ℤ) = oh.offsetReference) ∧
        (oh.type = .refDelta →
          ComputeHash mixedEnv.sha1 (mixedValue b).1 (mixedValue b).2 = oh.reference) ∧
        rawContent mixedEnv (mixedPack r) oh = [1, 1, 1] ++ (mixedValue oh).2 ∧
        (mixedValue oh).2.length = 1 ∧ (mixedValue b).2.length = 1 := by
    rcases hr with rfl | rfl <;> decide +kernel
  refine ⟨hfull, ?_, entries_offset_inj, hnames⟩
  intro oh hoh hd
  obtain ⟨b, hb, hlt, hofs, href, hraw, hlen, hlen'⟩ := hdelta oh hoh hd
  exact ⟨b, hb, hlt, hofs, href, rfl, hraw ▸ accepted_literal hlen' hlen⟩

lemma mixed_wellFormed {r : Bytes} (hr : r = blobSum ∨ r = mixedNameB) : WellFormed mixedEnv (mixedPack r) 3 := by
  have hsizes : ∀ oh ∈ entries mixedEnv true (mixedPack r) 3, oh.type.isDelta = false →
      oh.size = (rawContent mixedEnv (mixedPack r) oh).length := by
    rcases hr with rfl | rfl <;> decide +kernel
  have hback : ∀ oh ∈ entries mixedEnv true (mixedPack r) 3, oh.type = .ofsDelta →
      oh.offsetReference < oh.offset := by
    rcases hr with rfl | rfl <;> decide +kernel
  have hread : (readEntries mixedEnv true (mixedPack r) 3 12).2 = .ok 78 ∧
      12 ≤ (mixedPack r).length ∧ 78 + 20 ≤ (mixedPack r).length := by
    rcases hr with rfl | rfl <;> decide +kernel
  refine ⟨?_, ⟨_, 78, Prod.ext rfl hread.1, hread.2.2, ?_, rfl⟩, hsizes, ?_, hback⟩
  · rcases hr with rfl | rfl <;> exact ⟨rfl, rfl, rfl, hread.2.1⟩
  · rcases hr with rfl | rfl <;> rfl
  · intro oh hoh
    refine ⟨_, _, (mixed_describes hr).resolves hoh, ?_⟩
    unfold mixedValue
    split_ifs <;> decide

theorem Parse_resolves_mixed : ParseResolves [] mixedEnv (mixedPack blobSum) 3 := by
  have hd := mixed_describes (.inl rfl)
  have hrefs : ∀ oh ∈ entries mixedEnv true (mixedPack blobSum) 3, oh.type = .refDelta →
      ∃ b ∈ entries mixedEnv true (mixedPack blobSum) 3,
        ComputeHash mixedEnv.sha1 (mixedValue b).1 (mixedValue b).2 = oh.reference ∧
          b.type.isDelta = false := by
    decide +kernel
  refine (Parse_resolves_iff inflateStored_signature (by simp) (mixed_wellFormed (.inl rfl))
    hd.collisionFree).mpr ⟨by decide, ?_⟩
  intro oh hoh hty
  obtain ⟨b, hb, hname, hfull⟩ := hrefs oh hoh hty
  exact ⟨b, _, _, hd.resolves hb, hname, .inl hfull⟩

theorem Parse_mixed_not_resolved : WellFormed mixedEnv (mixedPack mixedNameB) 3 ∧
    CollisionFree mixedEnv (mixedPack mixedNameB) (entries mixedEnv true (mixedPack mixedNameB) 3) ∧
    ¬ ParseResolves [] mixedEnv (mixedPack mixedNameB) 3 := by
  refine ⟨mixed_wellFormed (.inr rfl), (mixed_describes (.inr rfl)).collisionFree, ?_⟩
  rintro ⟨checksum, p, hok, _⟩
  have hnone : (Parse [] mixedEnv true (mixedPack mixedNameB)).toOption.isNone := by decide +kernel
  simp [hok, Outcome.toOption] at hnone

end GoGit.Pack
