import GoGit.PackEntries

/-! The second phase of the parser without its maps, pointers and buffers: a list of the objects known so far, in
which a delta looks for its base. The parser keeps exactly this list. -/
namespace GoGit.Pack

open List Function

section Abstract

variable (env : Env) (seekable : Bool) (data : Bytes)

/-- The base of a delta: the last known object at the offset, or with the name, it refers to. -/
def findBase (known : List ObjectHeader) (oh : ObjectHeader) : Option ObjectHeader :=
  if oh.type = .ofsDelta then
    known.reverse.find? fun k => (k.offset : ℤ) = oh.offsetReference
  else known.reverse.find? fun k => k.hash = oh.reference

def Outcome.toOption {α : Type} : Outcome α → Option α
  | .ok a => some a
  | _ => none

/-- A computation has a result where the other has one, related to it. -/
inductive Outcome.Follows {α β : Type} (R : α → β → Prop) : Option α → Outcome β → Prop
  | ok {a : α} {b : β} (h : R a b) : Follows R (some a) (.ok b)
  | fail (e : PackError) : Follows R none (.fail e)
  | panic : Follows R none .panic

def applyDelta (oh pa : ObjectHeader) : Option ObjectHeader := do
  let delta ← (deltaData env seekable data oh).toOption
  let contents ← (parentContents env seekable data pa).toOption
  (patchHeader env oh pa contents delta).toOption

def resolveDelta (known : List ObjectHeader) (oh : ObjectHeader) : Option ObjectHeader :=
  (findBase known oh).bind (applyDelta env seekable data oh)

variable (observers : List Observer)

def resolveDeltas : List ObjectHeader → List ObjectHeader × History → Option (List ObjectHeader × History)
  | [], st => some st
  | oh :: rest, (known, h) =>
    match resolveDelta env seekable data known oh with
    | none => none
    | some r =>
      match reportObject observers h r with
      | (_, some _) => none
      | (h, none) => resolveDeltas rest (known ++ [r], h)

end Abstract

def fullObjects (es : List ObjectHeader) : List ObjectHeader :=
  es.filter fun oh => oh.type.isDelta = false

/-- The order in which the parser takes the deltas: by name first, then by offset. -/
def deltaOrder (es : List ObjectHeader) : List ObjectHeader :=
  ofKind .refDelta es ++ ofKind .ofsDelta es

variable {t : ObjectType}

section Kinds

variable {es : List ObjectHeader} {oh : ObjectHeader}

lemma mem_ofKind : oh ∈ ofKind t es ↔ oh ∈ es ∧ oh.type = t := by
  simp [ofKind]

lemma mem_fullObjects : oh ∈ fullObjects es ↔ oh ∈ es ∧ oh.type.isDelta = false := by
  simp [fullObjects]

lemma mem_deltaOrder : oh ∈ deltaOrder es ↔ oh ∈ es ∧ oh.type.isDelta = true := by
  simp only [deltaOrder, mem_append, mem_ofKind, ← and_or_left]
  cases oh.type <;> simp [ObjectType.isDelta]

end Kinds

section Simulation

variable {env : Env} {seekable : Bool} {data : Bytes}

structure SameObject (env : Env) (seekable : Bool) (data : Bytes) (a b : ObjectHeader) : Prop where
  fields : a = { b with content := a.content }
  contents : parentContents env seekable data a = parentContents env seekable data b

structure Represents (env : Env) (seekable : Bool) (data : Bytes) (c : ParserCache)
    (known : List ObjectHeader) : Prop where
  length : c.heap.length = known.length
  same : ∀ (i : ℕ) (b : ObjectHeader), known[i]? = some b →
    ∃ a, c.heap[i]? = some a ∧ SameObject env seekable data a b
  byHash : ∀ h, (c.oiByHash h).bind (known[·]?) = known.reverse.find? fun k => k.hash = h
  byHashLt : ∀ h i, c.oiByHash h = some i → i < known.length
  byOffset : ∀ o, (c.oiByOffset o).bind (known[·]?) =
    known.reverse.find? fun k => (k.offset : ℤ) = o
  byOffsetLt : ∀ o i, c.oiByOffset o = some i → i < known.length

lemma represents_empty : Represents env seekable data {} [] :=
  ⟨rfl, by simp, by simp, by simp, by simp, by simp⟩

lemma find_snoc {κ : Type} [DecidableEq κ] {key : ObjectHeader → κ} {m : κ → Option ℕ}
    {known : List ObjectHeader} (oh : ObjectHeader)
    (h : ∀ k, (m k).bind (known[·]?) = known.reverse.find? fun x => key x = k)
    (hlt : ∀ k i, m k = some i → i < known.length) (k : κ) :
    (update m (key oh) (some known.length) k).bind ((known ++ [oh])[·]?) =
      (known ++ [oh]).reverse.find? fun x => key x = k := by
  by_cases hk : k = key oh
  · subst hk
    simp
  · have hne : ¬ key oh = k := fun he => hk he.symm
    rw [update_of_ne hk, reverse_append, reverse_singleton, singleton_append,
      find?_cons_of_neg (by simpa using hne), ← h k]
    cases hm : m k with
    | none => rfl
    | some i =>
      have := hlt k i hm
      simp [getElem?_append_left this]

variable {c : ParserCache}

lemma Represents.add {known : List ObjectHeader} (h : Represents env seekable data c known) (oh : ObjectHeader) :
    Represents env seekable data (c.add oh) (known ++ [oh]) := by
  have hupdate : ∀ {κ : Type} [DecidableEq κ] {m : κ → Option ℕ} {a : κ},
      (∀ k i, m k = some i → i < known.length) →
      ∀ k i, update m a (some known.length) k = some i → i < (known ++ [oh]).length := by
    intro κ _ m a hlt k i hi
    simp only [length_append, length_singleton]
    by_cases hk : k = a
    · subst hk
      simp only [update_self, Option.some.injEq] at hi
      omega
    · rw [update_of_ne hk] at hi
      have := hlt k i hi
      omega
  have hlen := h.length
  refine ⟨by simp [ParserCache.add, hlen], ?_, ?_, ?_, ?_, ?_⟩
  · intro i b hb
    by_cases hi : i < known.length
    · rw [getElem?_append_left hi] at hb
      obtain ⟨a, ha, hab⟩ := h.same i b hb
      exact ⟨a, by rw [ParserCache.add, getElem?_append_left (by omega), ha], hab⟩
    · have hi' : i = known.length := by
        have := (List.getElem?_eq_some_iff.mp hb).1
        simp only [length_append, length_singleton] at this
        omega
      subst hi'
      simp only [getElem?_append_right le_rfl, Nat.sub_self, getElem?_cons_zero, Option.some.injEq] at hb
      subst hb
      exact ⟨oh, by simp [ParserCache.add, ← hlen], rfl, rfl⟩
  · intro k
    have := @find_snoc _ _ ObjectHeader.hash _ _ oh h.byHash h.byHashLt k
    rwa [← hlen] at this
  · rw [ParserCache.add, hlen]
    exact hupdate h.byHashLt
  · intro k
    have := @find_snoc _ _ (fun x => (x.offset : ℤ)) _ _ oh h.byOffset h.byOffsetLt k
    rwa [← hlen] at this
  · rw [ParserCache.add, hlen]
    exact hupdate h.byOffsetLt

variable {content : Bytes}

lemma parentContents_cached {parent : ObjectHeader} (h : parentContents env seekable data parent = .ok content) :
    parentContents env seekable data { parent with content := some content } = .ok content := by
  by_cases hne : content = []
  · subst hne
    have hempty : parent.content.getD [] = [] := by
      by_contra hc
      simp only [parentContents, ne_eq, hc, not_false_eq_true, ↓reduceIte, Outcome.ok.injEq] at h
    simpa [parentContents, hempty] using h
  · simp [parentContents, hne]

variable {known : List ObjectHeader} {i : ℕ}

lemma Represents.cache {a : ObjectHeader} (h : Represents env seekable data c known) (ha : c.heap[i]? = some a)
    (hc : parentContents env seekable data a = .ok content) : Represents env seekable data
      { c with heap := c.heap.set i { a with content := some content } } known := by
  refine ⟨by simpa using h.length, ?_, h.byHash, h.byHashLt, h.byOffset, h.byOffsetLt⟩
  intro j b hb
  obtain ⟨a', ha', hsame⟩ := h.same j b hb
  by_cases hij : i = j
  · subst hij
    rw [ha] at ha'
    cases ha'
    refine ⟨{ a with content := some content }, ?_, ?_, ?_⟩
    · exact getElem?_set_self (List.getElem?_eq_some_iff.mp ha).1
    · rw [hsame.fields]
    · rw [parentContents_cached hc, ← hc, hsame.contents]
  · exact ⟨a', by rw [getElem?_set_ne hij, ha'], hsame⟩

variable {oh : ObjectHeader}

lemma findParent_spec
    (h : Represents env seekable data c known) (hoh : oh.type = .ofsDelta ∨ oh.type = .refDelta) :
    (∃ b i c' a, findBase known oh = some b ∧ findParent c oh = .ok (i, c') ∧
      c'.heap[i]? = some a ∧ SameObject env seekable data a b ∧ Represents env seekable data c' known) ∨
    (findBase known oh = none ∧ ((∃ e, findParent c oh = .fail e) ∨
      ∃ i c', findParent c oh = .ok (i, c') ∧ c'.heap[i]? = some (placeholder oh.reference))) := by
  rcases hoh with ht | ht
  · have hbase := h.byOffset oh.offsetReference
    cases hm : c.oiByOffset oh.offsetReference with
    | none =>
      refine .inr ⟨?_, .inl ⟨.objectNotFound, by simp [findParent, ht, hm]⟩⟩
      rw [findBase, if_pos ht, ← hbase, hm]
      rfl
    | some i =>
      have hi := h.byOffsetLt _ i hm
      obtain ⟨a, ha, hsame⟩ := h.same i known[i] (getElem?_eq_getElem hi)
      refine .inl ⟨known[i], i, c, a, ?_, by simp [findParent, ht, hm], ha, hsame, h⟩
      rw [findBase, if_pos ht, ← hbase, hm, Option.bind_some, getElem?_eq_getElem hi]
  · have hne : ¬ oh.type = .ofsDelta := by simp [ht]
    have hbase := h.byHash oh.reference
    cases hm : c.oiByHash oh.reference with
    | none =>
      refine .inr ⟨?_, .inr ⟨c.heap.length, { c with
        heap := c.heap ++ [placeholder oh.reference]
        oiByHash := update c.oiByHash oh.reference (some c.heap.length) },
        by simp [findParent, ht, hm], by simp⟩⟩
      rw [findBase, if_neg hne, ← hbase, hm]
      rfl
    | some i =>
      have hi := h.byHashLt _ i hm
      obtain ⟨a, ha, hsame⟩ := h.same i known[i] (getElem?_eq_getElem hi)
      have hupd : update c.oiByHash oh.reference (some i) = c.oiByHash := by
        rw [← hm, update_eq_self]
      refine .inl ⟨known[i], i, c, a, ?_, by simp [findParent, ht, hm, hupd], ha, hsame, h⟩
      rw [findBase, if_neg hne, ← hbase, hm, Option.bind_some, getElem?_eq_getElem hi]

lemma ensureContent_spec {oh a b : ObjectHeader}
    (h : Represents env seekable data c known) (hoh : oh.hash = .zeroHash)
    (ha : c.heap[i]? = some a) (hab : SameObject env seekable data a b) :
    Outcome.Follows (fun r x => x.1 = r ∧ Represents env seekable data x.2 known) (applyDelta env seekable data oh b)
      (ensureContent env seekable data c oh i) := by
  have hcomplete : oh.complete = false := by simp [ObjectHeader.complete, hoh]
  have htype : ∀ contents delta, patchHeader env oh a contents delta =
      patchHeader env oh b contents delta := by
    intro contents delta
    have : a.type = b.type := by rw [hab.fields]
    simp only [patchHeader, this]
  unfold applyDelta ensureContent
  rw [hcomplete]
  cases hd : deltaData env seekable data oh with
  | error e => exact .fail e
  | ok delta =>
    have hca := hab.contents
    cases hc : parentContents env seekable data b with
    | fail e =>
      simp only [parentReader, ha, hca, hc]
      exact .fail _
    | panic =>
      simp only [parentReader, ha, hca, hc]
      exact .panic
    | ok contents =>
      rw [hc] at hca
      simp only [parentReader, ha, hca, htype]
      cases hp : patchHeader env oh b contents delta with
      | fail e => simpa [Except.toOption, Outcome.toOption, hp] using .fail _
      | panic => simpa [Except.toOption, Outcome.toOption, hp] using .panic
      | ok r => simpa [Except.toOption, Outcome.toOption, hp] using .ok ⟨rfl, h.cache ha hca⟩

/-- The stream does not start like zlib data, so a placeholder has no contents. -/
def NoZlibAtStart (env : Env) (data : Bytes) : Prop := ∃ e, inflateContent env data 0 = .error e

lemma ensureContent_placeholder {oh : ObjectHeader} {i : ℕ} {id : ObjectID}
    (hz : NoZlibAtStart env data) (hoh : oh.hash = .zeroHash)
    (ha : c.heap[i]? = some (placeholder id)) : ∃ e, ensureContent env seekable data c oh i = .fail e := by
  have hcomplete : oh.complete = false := by simp [ObjectHeader.complete, hoh]
  have hfail : ∃ e, parentContents env seekable data (placeholder id) = .fail e := by
    obtain ⟨e, he⟩ := hz
    cases seekable with
    | false => exact ⟨.objectNotFound, by simp [parentContents, placeholder]⟩
    | true => exact ⟨.referenceDeltaNotFound, by simp [parentContents, placeholder, he]⟩
  obtain ⟨e, he⟩ := hfail
  unfold ensureContent
  rw [hcomplete]
  cases hd : deltaData env seekable data oh with
  | error e' => exact ⟨e', rfl⟩
  | ok delta => exact ⟨.wrap "apply delta patch" e, by simp [parentReader, ha, he]⟩

section Run

variable {observers : List Observer}

structure Continues (env : Env) (seekable : Bool) (data : Bytes) (p p' : Parser)
    (st : List ObjectHeader × History) : Prop where
  history : p'.history = st.2
  cache : Represents env seekable data p'.cache st.1
  scanner : p'.scanner = p.scanner
  checksum : p'.checksum = p.checksum

lemma Continues.trans {p p₁ p₂ : Parser} {st₁ st₂ : List ObjectHeader × History}
    (h : Continues env seekable data p p₁ st₁) (h' : Continues env seekable data p₁ p₂ st₂) :
    Continues env seekable data p p₂ st₂ :=
  ⟨h'.history, h'.cache, h'.scanner.trans h.scanner, h'.checksum.trans h.checksum⟩

lemma resolveDeltas_append (xs ys : List ObjectHeader) (st : List ObjectHeader × History) :
    resolveDeltas env seekable data observers (xs ++ ys) st = (resolveDeltas env seekable data observers xs st).bind
        (resolveDeltas env seekable data observers ys) := by
  induction xs generalizing st with
  | nil => rfl
  | cons oh xs ih =>
    obtain ⟨known, h⟩ := st
    simp only [cons_append, resolveDeltas]
    cases resolveDelta env seekable data known oh with
    | none => rfl
    | some r =>
      simp only
      generalize reportObject observers h r = res
      obtain ⟨hist, err⟩ := res
      cases err with
      | some e => rfl
      | none => exact ih (known ++ [r], hist)

lemma processDelta_spec {p : Parser} {known : List ObjectHeader} {oh : ObjectHeader}
    (hz : NoZlibAtStart env data) (h : Represents env seekable data p.cache known)
    (hhash : oh.hash = .zeroHash) (hoh : oh.type = .ofsDelta ∨ oh.type = .refDelta) :
    Outcome.Follows (fun st p' => Continues env seekable data p p' st)
      (resolveDeltas env seekable data observers [oh] (known, p.history))
      (processDelta observers env seekable data p oh) := by
  simp only [resolveDeltas, resolveDelta, processDelta]
  rcases findParent_spec h hoh with ⟨b, i, c', a, hb, hf, ha, hab, hrep⟩ | ⟨hnone, hf⟩
  · simp only [hb, hf, Option.bind_some]
    have hens := ensureContent_spec hrep hhash ha hab
    generalize applyDelta env seekable data oh b = x at hens ⊢
    generalize ensureContent env seekable data c' oh i = y at hens ⊢
    cases hens with
    | fail e => exact .fail e
    | panic => exact .panic
    | @ok r x hx =>
      obtain ⟨r, c''⟩ := x
      obtain ⟨rfl, hrep'⟩ := hx
      simp only [storeOrCache]
      rcases reportObject observers p.history r with ⟨hist, _ | e⟩
      · exact .ok ⟨rfl, hrep'.add r, rfl, rfl⟩
      · exact .fail e
  · simp only [hnone, Option.bind_none]
    rcases hf with ⟨e, he⟩ | ⟨i, c', hc, ha⟩
    · rw [he]
      exact .fail e
    · obtain ⟨e, he⟩ := @ensureContent_placeholder env seekable data c' oh i _ hz hhash ha
      simp only [hc, he]
      exact .fail e

lemma processDeltas_spec (hz : NoZlibAtStart env data) (label : String) {pending : List ObjectHeader} {p : Parser}
    {known : List ObjectHeader}
    (hall : ∀ oh ∈ pending, oh.hash = .zeroHash ∧ (oh.type = .ofsDelta ∨ oh.type = .refDelta))
    (h : Represents env seekable data p.cache known) :
    Outcome.Follows (fun st p' => Continues env seekable data p p' st)
      (resolveDeltas env seekable data observers pending (known, p.history))
      (processDeltas observers env seekable data label pending p) := by
  induction pending generalizing p known with
  | nil => exact .ok ⟨rfl, h, rfl, rfl⟩
  | cons oh pending ih =>
    obtain ⟨⟨hhash, hoh⟩, hall⟩ := forall_mem_cons.mp hall
    have hstep := @processDelta_spec env seekable data observers p known oh hz h hhash hoh
    rw [← singleton_append, resolveDeltas_append, singleton_append, processDeltas]
    generalize resolveDeltas env seekable data observers [oh] (known, p.history) = x at hstep ⊢
    generalize processDelta observers env seekable data p oh = y at hstep ⊢
    cases hstep with
    | fail e => exact .fail _
    | panic => exact .panic
    | @ok st p₁ hcont =>
      obtain ⟨known₁, hist⟩ := st
      obtain rfl : p₁.history = hist := hcont.history
      have hrest := ih hall hcont.cache
      simp only [Option.bind_some]
      generalize resolveDeltas env seekable data observers pending (known₁, p₁.history) = x at hrest ⊢
      generalize processDeltas observers env seekable data label pending p₁ = y at hrest ⊢
      cases hrest with
      | fail e => exact .fail e
      | panic => exact .panic
      | ok h' => exact .ok (hcont.trans h')

lemma fullObjects_cons (oh : ObjectHeader) (es : List ObjectHeader) :
    fullObjects (oh :: es) = if oh.type.isDelta then fullObjects es else oh :: fullObjects es := by
  cases hd : oh.type.isDelta <;> simp [fullObjects, hd]

lemma represents_cacheObjects {es : List ObjectHeader} :
    ∀ {c : ParserCache} {known : List ObjectHeader}, Represents env seekable data c known →
      Represents env seekable data (cacheObjects c es) (known ++ fullObjects es) := by
  induction es with
  | nil =>
    intro c known h
    simpa [cacheObjects, fullObjects] using h
  | cons oh es ih =>
    intro c known h
    rw [fullObjects_cons]
    cases hd : oh.type.isDelta with
    | true => simpa [cacheObjects, hd] using ih h
    | false => simpa [cacheObjects, hd] using ih (h.add oh)

def scanHistory (observers : List Observer) (n : ℕ) (es : List ObjectHeader) : History :=
  reportObjects observers (forEachObserver observers [] (.header n)).1 es

/-- The complete entries at the start of a pack, whether or not it goes on as announced. -/
def entries (env : Env) (seekable : Bool) (data : Bytes) (n : ℕ) : List ObjectHeader :=
  (readEntries env seekable data n 12).1

/-- The known objects and the history once all deltas among the entries are resolved. -/
def resolvePack (observers : List Observer) (env : Env) (seekable : Bool) (data : Bytes) (n : ℕ) :
    Option (List ObjectHeader × History) :=
  resolveDeltas env seekable data observers (deltaOrder (entries env seekable data n))
    (fullObjects (entries env seekable data n), scanHistory observers n (entries env seekable data n))

lemma mem_readEntries {m offset : ℕ} (h : oh ∈ (readEntries env seekable data m offset).1) :
    ∃ start stop, EntryAt env seekable data start oh stop := by
  induction m generalizing offset with
  | zero => simp [readEntries] at h
  | succ m ih =>
    cases hr : readEntry env seekable data offset with
    | error e => simp [readEntries, hr] at h
    | ok q =>
      obtain ⟨e, stop⟩ := q
      simp only [readEntries, hr, mem_cons] at h
      rcases h with rfl | h
      · exact ⟨offset, stop, readEntry_spec hr⟩
      · exact ih h

variable {n : ℕ}

lemma ofKind_pending (ht : t = .ofsDelta ∨ t = .refDelta) (h : oh ∈ ofKind t (entries env seekable data n)) :
    oh.hash = .zeroHash ∧ (oh.type = .ofsDelta ∨ oh.type = .refDelta) := by
  simp only [ofKind, mem_filter, decide_eq_true_eq] at h
  obtain ⟨hmem, rfl⟩ := h
  obtain ⟨_, _, hat⟩ := mem_readEntries hmem
  refine ⟨(hat.delta ?_).2, ht⟩
  rcases ht with h | h <;> simp [h, ObjectType.isDelta]

lemma noZlibAtStart (h : HeaderOK data n)
    (hz : ∀ rest, ∃ e, env.inflate (0x50 :: rest) = .error e) : NoZlibAtStart env data := by
  cases data with
  | nil =>
    have := h.length
    simp at this
  | cons b rest =>
    have hsig := h.signature
    simp only [take_succ_cons, List.cons.injEq] at hsig
    obtain ⟨e, he⟩ := hz rest
    exact ⟨e, by simp [inflateContent, hsig.1, he, Except.map]⟩

/-- The checksum the parser holds behind the scan: none if the footer was not reached. -/
def packChecksum (env : Env) (seekable : Bool) (data : Bytes) (n : ℕ) : ObjectID :=
  match (readEntries env seekable data n 12).2 with
  | .error _ => .zeroHash
  | .ok offset =>
    match readFooter env data offset with
    | .error _ => .zeroHash
    | .ok (checksum, _) => checksum

lemma ScanEnds.checksum_eq {p : Parser} (h : ScanEnds env data (readEntries env seekable data n 12).2 {} p) :
    p.checksum = packChecksum env seekable data n := by
  unfold packChecksum
  rcases h with ⟨offset, checksum, pos, hstop, hf, hc, _⟩ | ⟨hf, hc, _⟩
  · simp [hstop, hf, hc]
  · cases hstop : (readEntries env seekable data n 12).2 with
    | error e => simpa [hstop] using hc
    | ok offset =>
      obtain ⟨e, he⟩ := hf offset hstop
      simpa [hstop, he] using hc

def parseHistory (observers : List Observer) (env : Env) (seekable : Bool) (data : Bytes) (n : ℕ) :
    Option History :=
  match resolvePack observers env seekable data n with
  | none => none
  | some (_, h) =>
    match forEachObserver observers h (.footer (packChecksum env seekable data n)) with
    | (_, some _) => none
    | (h, none) => some h

/-- `Parse` returns a nil error exactly if the deltas among the complete entries can be
resolved and every notification from then on is accepted, whatever ended the scan. -/
lemma Parse_spec {n : ℕ} (hh : HeaderOK data n) (hn : n ≠ 0)
    (hz : ∀ rest, ∃ e, env.inflate (0x50 :: rest) = .error e) :
    (∃ p', Parse observers env seekable data = .ok (packChecksum env seekable data n, p') ∧
      parseHistory observers env seekable data n = some p'.history ∧
      ScanEnds env data (readEntries env seekable data n 12).2 {} p') ∨
    (parseHistory observers env seekable data n = none ∧ ∀ x, Parse observers env seekable data ≠ .ok x) := by
  obtain ⟨p, hloop, hcache, hhist, hobj, hends⟩ := @parseLoop_header env seekable data n observers hh hn
  have hzero := noZlibAtStart hh hz
  have hrep : Represents env seekable data p.cache (fullObjects (entries env seekable data n)) := by
    rw [hcache]
    exact @represents_cacheObjects env seekable data (readEntries env seekable data n 12).1 {} []
      represents_empty
  have hscan : p.history = scanHistory observers n (entries env seekable data n) := hhist
  have hobj' : ¬ p.scanner.objects = 0 := by rwa [hobj]
  have hloop' : parseLoop observers env seekable data (data.length + 3) {} [] [] =
      (p, ofKind .ofsDelta (entries env seekable data n),
        ofKind .refDelta (entries env seekable data n)) := hloop
  unfold Parse parseHistory resolvePack deltaOrder
  rw [resolveDeltas_append, ← hscan]
  simp only [hloop', hobj', ↓reduceIte]
  have hrefs := @processDeltas_spec env seekable data observers hzero "processing ref-delta at offset "
    (ofKind .refDelta (entries env seekable data n)) p _ (fun oh hm => ofKind_pending (.inr rfl) hm) hrep
  generalize resolveDeltas env seekable data observers _ (_, p.history) = x at hrefs ⊢
  generalize processDeltas observers env seekable data _ _ p = y at hrefs ⊢
  cases hrefs with
  | fail e => exact .inr ⟨rfl, by simp⟩
  | panic => exact .inr ⟨rfl, by simp⟩
  | @ok st₁ p₁ hc₁ =>
    obtain ⟨known₁, hist₁⟩ := st₁
    obtain rfl : p₁.history = hist₁ := hc₁.history
    have hofs := @processDeltas_spec env seekable data observers hzero "processing ofs-delta at offset "
      (ofKind .ofsDelta (entries env seekable data n)) p₁ _ (fun oh hm => ofKind_pending (.inl rfl) hm) hc₁.cache
    simp only [Option.bind_some]
    generalize resolveDeltas env seekable data observers _ (known₁, p₁.history) = x at hofs ⊢
    generalize processDeltas observers env seekable data _ _ p₁ = y at hofs ⊢
    cases hofs with
    | fail e => exact .inr ⟨rfl, by simp⟩
    | panic => exact .inr ⟨rfl, by simp⟩
    | @ok st₂ p₂ hc₂ =>
      obtain ⟨known₂, hist₂⟩ := st₂
      obtain rfl : p₂.history = hist₂ := hc₂.history
      have hends₂ : ScanEnds env data (readEntries env seekable data n 12).2 {} p₂ := by
        unfold ScanEnds
        rw [hc₂.checksum, hc₁.checksum, hc₂.scanner, hc₁.scanner]
        exact hends
      simp only [← hends₂.checksum_eq]
      rcases forEachObserver observers p₂.history (.footer p₂.checksum) with ⟨hist, _ | e⟩
      · exact .inl ⟨{ p₂ with history := hist }, rfl, rfl, hends₂⟩
      · exact .inr ⟨rfl, by simp⟩

end Run

end Simulation

end GoGit.Pack
