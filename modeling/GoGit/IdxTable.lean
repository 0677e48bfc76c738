import GoGit.IdxCodec

namespace GoGit.Idx

open ByteStream PathOrder List Function

structure Row where
  entry : Entry
  word : ℕ
  deriving DecidableEq

def Row.name (r : Row) : Bytes := r.entry.hash.bytes

structure Bucket where
  first : ℕ
  rows : List Row
  nonempty : rows ≠ []
  fans : ∀ r ∈ rows, fan r.entry.hash = first
  sha1 : ∀ r ∈ rows, r.entry.hash.format = .sha1

structure Table where
  buckets : List Bucket
  ascending : buckets.Pairwise fun a b => a.first < b.first
  sorted : (buckets.flatMap Bucket.rows).Pairwise fun a b => a.name < b.name

namespace Table

variable (t : Table)

def rows : List Row := t.buckets.flatMap Bucket.rows

def bucket? (f : ℕ) : Option Bucket := t.buckets.find? fun b => b.first = f

def upTo (f : ℕ) : ℕ := t.rows.countP fun r => fan r.entry.hash ≤ f

end Table

section Buckets

variable {t : Table} {b : Bucket} {r : Row} {f : ℕ}

lemma fan_lt (h : ObjectID) : fan h < 256 := UInt8.toNat_lt _

lemma Table.mem_rows : r ∈ t.rows ↔ ∃ b ∈ t.buckets, r ∈ b.rows := mem_flatMap

lemma Bucket.length_name (hr : r ∈ b.rows) : r.name.length = 20 :=
  ObjectID.length_bytes (b.sha1 r hr)

lemma Bucket.first_lt (b : Bucket) : b.first < 256 := by
  obtain ⟨r, hr⟩ := exists_mem_of_ne_nil _ b.nonempty
  rw [← b.fans r hr]
  exact fan_lt _

lemma Table.eq_of_first {c : Bucket} (hb : b ∈ t.buckets) (hc : c ∈ t.buckets) (h : b.first = c.first) : b = c :=
  inj_on_of_nodup_map ((pairwise_map.mpr t.ascending).imp Nat.ne_of_lt) hb hc h

lemma Table.bucket?_eq_some_iff : t.bucket? f = some b ↔ b ∈ t.buckets ∧ b.first = f := by
  constructor
  · intro h
    exact ⟨mem_of_find?_eq_some h, by simpa using find?_some h⟩
  · rintro ⟨hb, rfl⟩
    cases hf : t.bucket? b.first with
    | none => exact absurd (find?_eq_none.mp hf b hb) (by simp)
    | some c =>
      have hc : c.first = b.first := by simpa using find?_some hf
      rw [t.eq_of_first (mem_of_find?_eq_some hf) hb hc]

lemma Table.bucket?_eq_none_iff : t.bucket? f = none ↔ ∀ b ∈ t.buckets, b.first ≠ f := by
  simp [Table.bucket?]

lemma Table.mem_bucket (hr : r ∈ t.rows) : ∃ b, t.bucket? (fan r.entry.hash) = some b ∧ r ∈ b.rows := by
  obtain ⟨b, hb, hrb⟩ := t.mem_rows.mp hr
  exact ⟨b, t.bucket?_eq_some_iff.mpr ⟨hb, (b.fans r hrb).symm⟩, hrb⟩

lemma Table.split_rows (hb : t.bucket? f = some b) : ∃ before behind, t.rows = before ++ b.rows ++ behind ∧
    (∀ r ∈ before, fan r.entry.hash < f) ∧ (∀ r ∈ b.rows, fan r.entry.hash = f) ∧
    ∀ r ∈ behind, f < fan r.entry.hash := by
  obtain ⟨hmem, rfl⟩ := t.bucket?_eq_some_iff.mp hb
  obtain ⟨pre, post, hsplit⟩ := append_of_mem hmem
  have hasc := t.ascending
  rw [hsplit, pairwise_append, pairwise_cons] at hasc
  have hfans : ∀ {bs : List Bucket}, ∀ r ∈ bs.flatMap Bucket.rows, ∃ c ∈ bs, fan r.entry.hash = c.first := by
    intro bs r hr
    obtain ⟨c, hc, hrc⟩ := mem_flatMap.mp hr
    exact ⟨c, hc, c.fans r hrc⟩
  refine ⟨pre.flatMap Bucket.rows, post.flatMap Bucket.rows, by simp [Table.rows, hsplit], ?_, b.fans, ?_⟩
  · intro r hr
    obtain ⟨c, hc, hrc⟩ := hfans r hr
    exact hrc ▸ hasc.2.2 c hc b (by simp)
  · intro r hr
    obtain ⟨c, hc, hrc⟩ := hfans r hr
    exact hrc ▸ hasc.2.1.1 c hc

end Buckets

structure Lays (idx : MemoryIndex) (t : Table) : Prop where
  idSize : idx.objectIDSize = 0
  unmapped : ∀ f < 256, (∀ b ∈ t.buckets, b.first ≠ f) → idx.fanoutMapping f = noMapping
  mapped : ∀ (k : ℕ) b, t.buckets[k]? = some b → idx.fanoutMapping b.first = k
  names : idx.names = t.buckets.map fun b => b.rows.flatMap Row.name
  offset32 : idx.offset32 = t.buckets.map fun b => b.rows.flatMap fun r => digits 4 r.word
  crc32 : idx.crc32 = t.buckets.map fun b => b.rows.flatMap fun r => digits 4 r.entry.crc32.toNat

structure Stores (idx : MemoryIndex) (t : Table) : Prop extends Lays idx t where
  fanout : ∀ f < 256, idx.fanout f = t.upTo f

def wideOffsets (es : List Entry) : Bytes :=
  (es.filter fun e => e.Wide).flatMap fun e => digits 8 e.offset.toNat

/-- The words for the offsets, from the `n`-th wide one on. -/
def place : ℕ → List Entry → List Row
  | _, [] => []
  | n, e :: es =>
    if e.Wide then ⟨e, n + 2 ^ 31⟩ :: place (n + 1) es
    else ⟨e, e.offset.toNat⟩ :: place n es

variable {os : List Entry}

section Build

variable {t : Table} {s : Build} {r : Row} {o : Entry}

lemma fan_le_of_lt {a b : ObjectID} (h : a.bytes < b.bytes) : fan a ≤ fan b := by
  unfold fan
  cases ha : a.bytes with
  | nil => simp
  | cons x xs =>
    cases hb : b.bytes with
    | nil => simp [ha, hb] at h
    | cons y ys =>
      rw [ha, hb, cons_lt_cons_iff] at h
      rcases h with h | ⟨rfl, _⟩
      · exact le_of_lt h
      · exact le_rfl

def Bucket.single (r : Row) (hsha : r.entry.hash.format = .sha1) : Bucket :=
  ⟨fan r.entry.hash, [r], by simp, by simp, by simpa using hsha⟩

def Bucket.add (b : Bucket) (r : Row) (hfan : fan r.entry.hash = b.first)
    (hsha : r.entry.hash.format = .sha1) : Bucket where
  first := b.first
  rows := b.rows ++ [r]
  nonempty := by simp
  fans := forall_mem_append.mpr ⟨b.fans, by simpa using hfan⟩
  sha1 := forall_mem_append.mpr ⟨b.sha1, by simpa using hsha⟩

def Table.addNew (t : Table) (r : Row) (hsha : r.entry.hash.format = .sha1)
    (hlt : ∀ x ∈ t.rows, x.name < r.name) (hf : ∀ b ∈ t.buckets, b.first < fan r.entry.hash) : Table where
  buckets := t.buckets ++ [.single r hsha]
  ascending := pairwise_append.mpr ⟨t.ascending, by simp, by simpa [Bucket.single] using hf⟩
  sorted := by
    rw [flatMap_append, pairwise_append]
    exact ⟨t.sorted, by simp [Bucket.single], by simpa [Table.rows, Bucket.single] using hlt⟩

def Table.addLast (t : Table) (r : Row) {init : List Bucket} {b : Bucket}
    (hlast : t.buckets = init ++ [b]) (hfan : fan r.entry.hash = b.first)
    (hsha : r.entry.hash.format = .sha1) (hlt : ∀ x ∈ t.rows, x.name < r.name) : Table where
  buckets := init ++ [b.add r hfan hsha]
  ascending := by
    have := t.ascending
    rw [hlast, pairwise_append] at this
    exact pairwise_append.mpr ⟨this.1, by simp, by simpa [Bucket.add] using this.2.2⟩
  sorted := by
    have hrows : (init ++ [b.add r hfan hsha]).flatMap Bucket.rows = t.rows ++ [r] := by
      simp [Table.rows, hlast, Bucket.add]
    rw [hrows, pairwise_append]
    exact ⟨t.sorted, by simp, by simpa using hlt⟩

lemma appendAt_last {l : List Bytes} {i : ℤ} (h : i = l.length) (x b : Bytes) :
    appendAt (l ++ [x]) i b = l ++ [x ++ b] := by
  subst h
  rw [appendAt, Int.toNat_natCast]
  induction l with
  | nil => rfl
  | cons y l ih => simpa using ih

variable {init : List Bucket} {hsha : r.entry.hash.format = .sha1}

variable {b : Bucket}

lemma appendAt_add (w : Row → Bytes) {hfan : fan r.entry.hash = b.first}
    : appendAt ((init ++ [b]).map fun b => b.rows.flatMap w) init.length (w r) =
      (init ++ [b.add r hfan hsha]).map fun b => b.rows.flatMap w := by
  rw [map_append, map_singleton, appendAt_last (by simp)]
  simp [Bucket.add]

lemma appendAt_single (w : Row → Bytes) {bs : List Bucket} :
    appendAt ((bs.map fun b => b.rows.flatMap w) ++ [[]]) bs.length (w r) =
      (bs ++ [Bucket.single r hsha]).map fun b => b.rows.flatMap w := by
  rw [appendAt_last (by simp)]
  simp [Bucket.single]

section Lays

variable {idx idx' : MemoryIndex}

lemma Lays.addLast (h : Lays idx t) (hb : t.buckets = init ++ [b])
    (hfan : fan r.entry.hash = b.first) (hsha : r.entry.hash.format = .sha1)
    (hlt : ∀ x ∈ t.rows, x.name < r.name) (hsize : idx'.objectIDSize = idx.objectIDSize)
    (hmap : idx'.fanoutMapping = idx.fanoutMapping) (hnames : idx'.names = appendAt idx.names init.length r.name)
    (hoffset : idx'.offset32 = appendAt idx.offset32 init.length (digits 4 r.word))
    (hcrc : idx'.crc32 = appendAt idx.crc32 init.length (digits 4 r.entry.crc32.toNat)) :
    Lays idx' (t.addLast r hb hfan hsha hlt) := by
  refine ⟨hsize.trans h.idSize, ?_, ?_, ?_, ?_, ?_⟩
  · intro f hf hno
    rw [hmap]
    refine h.unmapped f hf fun c hc => ?_
    rw [hb, mem_append, mem_singleton] at hc
    rcases hc with hc | rfl
    · exact hno c (by simp [Table.addLast, hc])
    · exact hno (c.add r hfan hsha) (by simp [Table.addLast])
  · intro k c hc
    rw [hmap]
    simp only [Table.addLast, getElem?_append] at hc
    split_ifs at hc with hk
    · exact h.mapped k c (by rw [hb, getElem?_append_left hk, hc])
    · obtain ⟨hk', rfl⟩ := List.getElem?_eq_some_iff.mp hc
      simp only [getElem_singleton]
      refine h.mapped k b ?_
      rw [hb, getElem?_append_right (by omega)]
      simp only [length_singleton] at hk'
      simp [Nat.lt_one_iff.mp hk']
  · rw [hnames, h.names, hb]
    exact appendAt_add Row.name
  · rw [hoffset, h.offset32, hb]
    exact appendAt_add fun r => digits 4 r.word
  · rw [hcrc, h.crc32, hb]
    exact appendAt_add fun r => digits 4 r.entry.crc32.toNat

lemma Lays.addNew (h : Lays idx t) (hsha : r.entry.hash.format = .sha1)
    (hlt : ∀ x ∈ t.rows, x.name < r.name) (hf : ∀ b ∈ t.buckets, b.first < fan r.entry.hash)
    (hsize : idx'.objectIDSize = idx.objectIDSize) (hmap : idx'.fanoutMapping =
      update idx.fanoutMapping (fan r.entry.hash) (t.buckets.length : ℤ))
    (hnames : idx'.names = appendAt (idx.names ++ [[]]) t.buckets.length r.name)
    (hoffset : idx'.offset32 = appendAt (idx.offset32 ++ [[]]) t.buckets.length (digits 4 r.word))
    (hcrc : idx'.crc32 = appendAt (idx.crc32 ++ [[]]) t.buckets.length (digits 4 r.entry.crc32.toNat)) :
    Lays idx' (t.addNew r hsha hlt hf) := by
  refine ⟨hsize.trans h.idSize, ?_, ?_, ?_, ?_, ?_⟩
  · intro f hf' hno
    have hne : f ≠ fan r.entry.hash := fun heq =>
      hno (.single r hsha) (by simp [Table.addNew]) heq.symm
    rw [hmap, update_of_ne hne]
    exact h.unmapped f hf' fun c hc => hno c (by simp [Table.addNew, hc])
  · intro k c hc
    simp only [Table.addNew, getElem?_append] at hc
    split_ifs at hc with hk
    · rw [hmap, update_of_ne (hf c (mem_of_getElem? hc)).ne]
      exact h.mapped k c hc
    · obtain ⟨hk', rfl⟩ := List.getElem?_eq_some_iff.mp hc
      simp only [length_singleton] at hk'
      simp only [getElem_singleton, Bucket.single, hmap, update_self]
      omega
  · rw [hnames, h.names]
    exact appendAt_single Row.name
  · rw [hoffset, h.offset32]
    exact appendAt_single fun r => digits 4 r.word
  · rw [hcrc, h.crc32]
    exact appendAt_single fun r => digits 4 r.entry.crc32.toNat

end Lays

structure Build.Holds (s : Build) (t : Table) : Prop extends Lays s.idx t where
  last : s.last = t.buckets.getLast?.elim (-1) fun b => (b.first : ℤ)
  bucket : s.bucket = t.buckets.length - 1
  fanout : ∀ f : ℕ, (f : ℤ) ≤ s.last → s.idx.fanout f = t.upTo f
  offset64 : s.idx.offset64 = wideOffsets (t.rows.map Row.entry)
  wide : s.offset64 = (t.rows.map Row.entry).countP fun e => e.Wide

lemma Table.fan_le_last (hlast : t.buckets = init ++ [b]) (hr : r ∈ t.rows) : fan r.entry.hash ≤ b.first := by
  obtain ⟨c, hc, hrc⟩ := t.mem_rows.mp hr
  rw [c.fans r hrc]
  have hasc := t.ascending
  rw [hlast, pairwise_append] at hasc
  rw [hlast, mem_append, mem_singleton] at hc
  rcases hc with hc | rfl
  · exact (hasc.2.2 c hc b (by simp)).le
  · exact le_rfl

lemma Table.upTo_eq_length {f : ℕ} (h : ∀ r ∈ t.rows, fan r.entry.hash ≤ f) : t.upTo f = t.rows.length := by
  rw [Table.upTo, countP_eq_length]
  simpa using h

def Build.word (s : Build) (o : Entry) : ℕ :=
  if o.Wide then s.offset64 ||| 2 ^ 31 else o.offset.toNat

lemma Build.step_eq (s : Build) (i : ℕ) (o : Entry) :
    let m := s.moveTo (fan o.hash)
    (s.step i o).last = fan o.hash ∧ (s.step i o).bucket = m.bucket ∧
    (s.step i o).idx.objectIDSize = s.idx.objectIDSize ∧
    (s.step i o).idx.fanout = (s.countObject i (fan o.hash)).idx.fanout ∧
    (s.step i o).idx.fanoutMapping = m.idx.fanoutMapping ∧
    (s.step i o).idx.names = appendAt m.idx.names m.bucket o.hash.bytes ∧
    (s.step i o).idx.offset32 = appendAt m.idx.offset32 m.bucket (digits 4 (s.word o)) ∧
    (s.step i o).idx.crc32 = appendAt m.idx.crc32 m.bucket (digits 4 o.crc32.toNat) ∧
    (s.step i o).idx.offset64 = s.idx.offset64 ++ wideOffsets [o] ∧
    (s.step i o).offset64 = if o.Wide then (s.offset64 + 1) % 2 ^ 32 else s.offset64 := by
  by_cases hlast : s.last = fan o.hash <;> by_cases hwide : o.Wide <;> simp [Build.step, Build.moveTo,
    Build.countObject, Build.word, Build.addOffset64, wideOffsets, hlast, hwide]

lemma Build.Holds.fan_le (h : s.Holds t) (hr : r ∈ t.rows) : (fan r.entry.hash : ℤ) ≤ s.last := by
  rcases eq_nil_or_concat' t.buckets with hnil | ⟨init, b, hlast⟩
  · simp [Table.rows, hnil] at hr
  · rw [h.last, hlast, getLast?_concat]
    exact Int.ofNat_le.mpr (t.fan_le_last hlast hr)

lemma Build.Holds.countObject (h : s.Holds t) {f : ℕ} (hle : s.last ≤ f)
    (hcount : t.rows.length + 1 < 2 ^ 32) {g : ℕ} (hg : g ≤ f) :
    (s.countObject t.rows.length f).idx.fanout g = t.upTo g + if f ≤ g then 1 else 0 := by
  have hrows : ∀ {g : ℕ}, s.last ≤ g → t.upTo g = t.rows.length := fun hg =>
    t.upTo_eq_length fun r hr => Int.ofNat_le.mp ((h.fan_le hr).trans hg)
  simp only [Build.countObject]
  by_cases heq : g = f
  · subst heq
    rw [update_self, if_pos le_rfl, hrows hle, Nat.mod_eq_of_lt hcount]
  · rw [update_of_ne heq, fill, if_neg (by omega : ¬ f ≤ g), Nat.add_zero]
    split_ifs with hfill
    · rw [hrows (by omega), Nat.mod_eq_of_lt (by omega)]
    · exact h.fanout g (by omega)

lemma Table.upTo_of_rows {t' : Table} (hrows : t'.rows = t.rows ++ [r]) (f : ℕ) :
    t'.upTo f = t.upTo f + if fan r.entry.hash ≤ f then 1 else 0 := by
  rw [Table.upTo, hrows, countP_append, Table.upTo, countP_singleton]
  simp

lemma wideOffsets_append (es : List Entry) (o : Entry) :
    wideOffsets (es ++ [o]) = wideOffsets es ++ wideOffsets [o] := by
  simp [wideOffsets]

lemma Build.Holds.next (h : s.Holds t) {t' : Table} (hlays : Lays (s.step t.rows.length o).idx t')
    (hle : s.last ≤ fan o.hash) (hcount : t.rows.length + 1 < 2 ^ 32) (hwide : s.offset64 + 1 < 2 ^ 32)
    (hrows : t'.rows = t.rows ++ [⟨o, s.word o⟩]) (hlast : t'.buckets.getLast?.map Bucket.first = some (fan o.hash))
    (hbucket : (s.step t.rows.length o).bucket = t'.buckets.length - 1) : (s.step t.rows.length o).Holds t' := by
  obtain ⟨hlast', -, -, hfanout, -, -, -, -, hidx, hnext⟩ := s.step_eq t.rows.length o
  refine ⟨hlays, ?_, hbucket, ?_, ?_, ?_⟩
  · obtain ⟨b, hb, hfirst⟩ := Option.map_eq_some_iff.mp hlast
    rw [hlast', hb, ← hfirst, Option.elim_some]
  · intro f hf
    rw [hlast'] at hf
    rw [hfanout, h.countObject hle hcount (Int.ofNat_le.mp hf), Table.upTo_of_rows hrows]
  · rw [hidx, h.offset64, hrows, map_append, map_singleton, wideOffsets_append]
  · rw [hnext, hrows, map_append, map_singleton, countP_append, ← h.wide, countP_singleton]
    by_cases hw : o.Wide
    · simpa [hw] using hwide
    · simp [hw]

lemma Build.Holds.step (h : s.Holds t) (hsha : o.hash.format = .sha1)
    (hlt : ∀ x ∈ t.rows, x.name < o.hash.bytes) (hcount : t.rows.length + 1 < 2 ^ 32)
    (hwide : s.offset64 + 1 < 2 ^ 32) :
    ∃ t', (s.step t.rows.length o).Holds t' ∧ t'.rows = t.rows ++ [⟨o, s.word o⟩] := by
  obtain ⟨-, hbucket', hsize, -, hmap, hnames, hoffset, hcrc, -, -⟩ := s.step_eq t.rows.length o
  -- the first bytes of the buckets do not exceed that of the object
  have hfirst : ∀ b ∈ t.buckets, b.first ≤ fan o.hash := by
    intro b hb
    obtain ⟨x, hx⟩ := exists_mem_of_ne_nil _ b.nonempty
    rw [← b.fans x hx]
    exact fan_le_of_lt (hlt x (t.mem_rows.mpr ⟨b, hb, hx⟩))
  by_cases hlast : s.last = fan o.hash
  · -- the object belongs to the last bucket
    obtain ⟨init, b, hb⟩ := (eq_nil_or_concat' t.buckets).resolve_left fun hnil => by simp [h.last, hnil] at hlast
    have hfan : fan o.hash = b.first := by
      rw [h.last, hb, getLast?_concat] at hlast
      exact (Int.ofNat_inj.mp hlast).symm
    have hmove : s.moveTo (fan o.hash) = s := by rw [Build.moveTo, if_neg (not_not.mpr hlast)]
    have hbucket : s.bucket = init.length := by
      rw [h.bucket, hb]
      simp
    simp only [hmove, hbucket] at hbucket' hmap hnames hoffset hcrc
    have hrows : (t.addLast ⟨o, s.word o⟩ hb hfan hsha hlt).rows = t.rows ++ [⟨o, s.word o⟩] := by
      simp [Table.rows, Table.addLast, hb, Bucket.add]
    have hlays := h.addLast (r := ⟨o, s.word o⟩) hb hfan hsha hlt hsize hmap hnames hoffset hcrc
    exact ⟨_, h.next hlays hlast.le hcount hwide hrows (by simp [Table.addLast, Bucket.add, hfan])
      (by simp [hbucket', Table.addLast]), hrows⟩
  · -- the object opens a bucket
    have hlt' : s.last < fan o.hash := by
      refine lt_of_le_of_ne ?_ hlast
      rcases eq_nil_or_concat' t.buckets with hnil | ⟨init, b, hb⟩
      · rw [h.last, hnil]
        exact (Int.negSucc_lt_zero 0).le.trans (Int.natCast_nonneg _)
      · rw [h.last, hb, getLast?_concat]
        exact Int.ofNat_le.mpr (hfirst b (by simp [hb]))
    have hbefore : ∀ b ∈ t.buckets, b.first < fan o.hash := by
      intro b hb
      obtain ⟨x, hx⟩ := exists_mem_of_ne_nil _ b.nonempty
      have := h.fan_le (t.mem_rows.mpr ⟨b, hb, hx⟩)
      rw [b.fans x hx] at this
      omega
    have hbucket : s.bucket + 1 = t.buckets.length := by
      rw [h.bucket]
      omega
    simp only [Build.moveTo, if_pos hlast, hbucket] at hbucket' hmap hnames hoffset hcrc
    have hrows : (t.addNew ⟨o, s.word o⟩ hsha hlt hbefore).rows = t.rows ++ [⟨o, s.word o⟩] := by
      simp [Table.rows, Table.addNew, Bucket.single]
    have hlays := h.addNew (r := ⟨o, s.word o⟩) hsha hlt hbefore hsize hmap hnames hoffset hcrc
    exact ⟨_, h.next hlays hlt'.le hcount hwide hrows (by simp [Table.addNew, Bucket.single])
      (by simp [hbucket', Table.addNew]), hrows⟩

lemma Build.offset64_step (i : ℕ) (hn : o.Wide → s.offset64 < 2 ^ 31) :
    (s.step i o).offset64 = s.offset64 + if o.Wide then 1 else 0 := by
  obtain ⟨-, -, -, -, -, -, -, -, -, hnext⟩ := s.step_eq i o
  rw [hnext]
  split_ifs with hw
  · have := hn hw
    omega
  · rfl

lemma Build.place_step (i : ℕ) (os : List Entry) (hn : o.Wide → s.offset64 < 2 ^ 31) :
    place s.offset64 (o :: os) = ⟨o, s.word o⟩ :: place (s.step i o).offset64 os := by
  rw [Build.offset64_step i hn, place, Build.word]
  split_ifs with hw
  · have := Nat.two_pow_add_eq_or_of_lt (hn hw) 1
    rw [Nat.lor_comm, ← Nat.mul_one (2 ^ 31), ← this, Nat.add_comm]
  · rfl

lemma Build.Holds.run (h : s.Holds t) (hsha : ∀ o ∈ os, o.hash.format = .sha1)
    (hsorted : os.Pairwise fun a b => a.hash.bytes < b.hash.bytes)
    (hlt : ∀ x ∈ t.rows, ∀ o ∈ os, x.name < o.hash.bytes) (hcount : t.rows.length + os.length < 2 ^ 32)
    (hwide : s.offset64 + os.countP (fun e => e.Wide) ≤ 2 ^ 31) :
    ∃ t', (s.run t.rows.length os).Holds t' ∧ t'.rows = t.rows ++ place s.offset64 os := by
  induction os generalizing s t with
  | nil => exact ⟨t, h, by simp [place]⟩
  | cons o os ih =>
    rw [pairwise_cons] at hsorted
    simp only [length_cons] at hcount
    obtain ⟨t₁, h₁, hrows⟩ := h.step (hsha o (by simp)) (fun x hx => hlt x hx o (by simp)) (by omega) (by omega)
    have hlen : t₁.rows.length = t.rows.length + 1 := by simp [hrows]
    have hlt₁ : ∀ x ∈ t₁.rows, ∀ o' ∈ os, x.name < o'.hash.bytes := by
      intro x hx o' ho'
      rw [hrows, mem_append, mem_singleton] at hx
      rcases hx with hx | rfl
      · exact hlt x hx o' (by simp [ho'])
      · exact hsorted.1 o' ho'
    rw [countP_cons] at hwide
    have hn : o.Wide → s.offset64 < 2 ^ 31 := by
      intro hw
      simp only [hw, decide_true, if_true] at hwide
      omega
    have hnext := Build.offset64_step t.rows.length hn
    obtain ⟨t₂, h₂, hrows₂⟩ := ih h₁ (fun o' ho' => hsha o' (by simp [ho'])) hsorted.2 hlt₁ (by omega)
      (by simp only [decide_eq_true_eq] at hwide; omega)
    refine ⟨t₂, by rw [Build.run, ← hlen]; exact h₂, ?_⟩
    rw [hrows₂, hrows, Build.place_step t.rows.length os hn, append_assoc, singleton_append]

end Build

/-- What `sort.Sort` promises: a permutation, in order if the order is a strict weak one. -/
def Sorts {α : Type} (sort : (α → α → Bool) → List α → List α) : Prop :=
  ∀ less l, (sort less l).Perm l ∧
    ((∀ a b, less a b = true → less b a = false) →
      (∀ a b c, less a b = false → less b c = false → less a c = false) →
      (sort less l).Pairwise fun a b => less b a = false)

lemma Sorts.key {α β : Type} [LinearOrder β] {sort : (α → α → Bool) → List α → List α} (h : Sorts sort)
    {less : α → α → Bool} (key : α → β) (hless : ∀ a b, less a b = true ↔ key a < key b) (l : List α) :
    (sort less l).Pairwise fun a b => key a ≤ key b := by
  have hnot : ∀ a b, less a b = false ↔ key b ≤ key a := by
    intro a b
    rw [← not_lt, ← hless, Bool.not_eq_true]
  refine ((h less l).2 ?_ ?_).imp fun hab => (hnot _ _).mp hab
  · intro a b hab
    exact (hnot b a).mpr ((hless a b).mp hab).le
  · intro a b c hab hbc
    exact (hnot a c).mpr (((hnot b c).mp hbc).trans ((hnot a b).mp hab))

def firsts : List Entry → List Entry
  | [] => []
  | a :: as => a :: (firsts as).filter fun e => e.hash ≠ a.hash

lemma foldl_add (adds : List Entry) (w : Writer) : (adds.foldl (fun w e => w.Add e.hash e.offset e.crc32) w).objects =
      w.objects ++ (firsts adds).filter fun e => e.hash ∉ w.added := by
  induction adds generalizing w with
  | nil => simp [firsts]
  | cons a as ih =>
    rw [foldl_cons, ih, Writer.Add]
    by_cases ha : a.hash ∈ w.added
    · rw [if_pos ha, firsts, filter_cons_of_neg (by simpa using ha), filter_filter]
      congr 1
      refine filter_congr fun e _ => ?_
      by_cases he : e.hash = a.hash
      · simp [he, ha]
      · simp [he]
    · rw [if_neg ha, firsts, filter_cons_of_pos (by simpa using ha), filter_filter]
      simp [Bool.and_comm]

lemma firsts_hash_nodup (adds : List Entry) : ((firsts adds).map Entry.hash).Nodup := by
  induction adds with
  | nil => simp [firsts]
  | cons a as ih =>
    rw [firsts, map_cons, nodup_cons]
    refine ⟨by simp, ?_⟩
    exact ih.sublist (filter_sublist.map _)

structure Fresh (idx : MemoryIndex) : Prop where
  offsetHash : idx.offsetHash = none
  notFull : idx.offsetHashIsFull = false
  idxChecksum : idx.idxChecksum = .zeroHash

lemma Build.run_fresh {s : Build} {i : ℕ} (h : Fresh s.idx) : Fresh (s.run i os).idx := by
  induction os generalizing s i with
  | nil => exact h
  | cons o os ih =>
    refine ih ?_
    unfold Build.step Build.moveTo
    by_cases hw : o.Wide <;> simp only [hw, if_true, if_false] <;> split_ifs <;> exact ⟨h.1, h.2, h.3⟩

variable {adds : List Entry}

lemma mem_of_mem_firsts {e : Entry} (h : e ∈ firsts adds) : e ∈ adds := by
  induction adds with
  | nil => simp [firsts] at h
  | cons a as ih =>
    rcases mem_cons.mp h with rfl | h
    · simp
    · exact mem_cons_of_mem _ (ih (mem_of_mem_filter h))

structure Fits (es : List Entry) : Prop where
  sha1 : ∀ e ∈ es, e.hash.format = .sha1
  distinct : ∀ a ∈ es, ∀ b ∈ es, a.hash.bytes = b.hash.bytes → a.hash = b.hash
  count : es.length < 2 ^ 32
  wide : es.countP (fun e => e.Wide) ≤ 2 ^ 31

def Table.empty : Table := ⟨[], .nil, .nil⟩

structure IndexFor (idx : MemoryIndex) (t : Table) (es : List Entry) : Prop extends Stores idx t where
  rows : t.rows = place 0 (t.rows.map Row.entry)
  perm : (t.rows.map Row.entry).Perm es
  offset64 : idx.offset64 = wideOffsets (t.rows.map Row.entry)

lemma place_entries (n : ℕ) (es : List Entry) : (place n es).map Row.entry = es := by
  induction es generalizing n with
  | nil => rfl
  | cons e es ih =>
    rw [place]
    split_ifs <;> simp [ih]

variable {sort : (Entry → Entry → Bool) → List Entry → List Entry}

lemma sort_bytes (hsort : Sorts sort) {es : List Entry} (hfit : Fits es) (hnd : (es.map Entry.hash).Nodup) :
    (sort (fun a b => bytesCompare a.hash.bytes b.hash.bytes < 0) es).Pairwise
      fun a b => a.hash.bytes < b.hash.bytes := by
  set less : Entry → Entry → Bool := fun a b => bytesCompare a.hash.bytes b.hash.bytes < 0
  have hless : ∀ a b, less a b = true ↔ a.hash.bytes < b.hash.bytes := by
    intro a b
    simp only [less, bytesCompare]
    split_ifs with h₁ h₂
    · simp [h₁]
    · simp [h₁]
    · simp [h₁]
  have hperm := (hsort less es).1
  have hnd' := (hperm.map Entry.hash).nodup_iff.mpr hnd
  rw [nodup_iff_pairwise_ne] at hnd'
  refine ((hsort.key (fun e => e.hash.bytes) hless es).and (pairwise_map.mp hnd')).imp_of_mem ?_
  intro a b ha hb hab
  refine lt_of_le_of_ne hab.1 fun heq => ?_
  exact hab.2 (hfit.distinct a (hperm.mem_iff.mp ha) b (hperm.mem_iff.mp hb) heq)

lemma indexOf_indexFor (hsort : Sorts sort) (hfit : Fits (firsts adds)) (checksum : ObjectID) :
    ∃ idx t, indexOf sort adds checksum = .ok idx ∧ IndexFor idx t (firsts adds) ∧ Fresh idx ∧
      idx.version = 2 ∧ idx.packfileChecksum = checksum := by
  have hobjects : ((adds.foldl (fun w e => w.Add e.hash e.offset e.crc32) ({} : Writer)).OnFooter
      checksum).objects = firsts adds := by
    simp only [Writer.OnFooter, foldl_add]
    simp
  have hoffset : ((adds.foldl (fun w e => w.Add e.hash e.offset e.crc32) ({} : Writer)).OnFooter
      checksum).offset64 = 0 := by
    have hkeep : ∀ (as : List Entry) (w : Writer),
        (as.foldl (fun w e => w.Add e.hash e.offset e.crc32) w).offset64 = w.offset64 := by
      intro as
      induction as with
      | nil => exact fun w => rfl
      | cons a as ih =>
        intro w
        rw [foldl_cons, ih, Writer.Add]
        split_ifs <;> rfl
    exact hkeep adds {}
  set es := sort (fun a b => bytesCompare a.hash.bytes b.hash.bytes < 0) (firsts adds) with hes
  have hperm : es.Perm (firsts adds) := (hsort _ _).1
  have hsorted := sort_bytes hsort hfit (firsts_hash_nodup adds)
  have hstart : Build.Holds ⟨{ fanoutMapping := fun _ => noMapping }, 0, -1, -1⟩ Table.empty := by
    refine ⟨⟨rfl, fun _ _ _ => rfl, ?_, rfl, rfl, rfl⟩, rfl, rfl, ?_, rfl, rfl⟩
    · intro k b hb
      simp [Table.empty] at hb
    · intro f hf
      simp only [Int.reduceNeg] at hf
      omega
  obtain ⟨t, ht, hrows⟩ := hstart.run (fun o (ho : o ∈ es) => hfit.sha1 o (hperm.mem_iff.mp ho)) hsorted
    (by simp [Table.rows, Table.empty])
    (by have := hfit.count; have := hperm.length_eq; simp [Table.rows, Table.empty]; omega)
    (by have := hfit.wide; rw [← hperm.countP_eq] at this; simpa using this)
  have hempty : Table.empty.rows = [] := rfl
  rw [hempty, nil_append] at hrows
  rw [hempty, length_nil] at ht
  have hentries : t.rows.map Row.entry = es := by rw [hrows, place_entries]
  set last := (Build.run ⟨{ fanoutMapping := fun _ => noMapping }, 0, -1, -1⟩ 0 es) with hlast
  have hidx : indexOf sort adds checksum = .ok { last.idx with
      fanout := fill last.idx.fanout (last.last + 1) 256 (es.length % 2 ^ 32)
      version := 2
      packfileChecksum := checksum } := by
    rw [indexOf, Writer.createIndex, hobjects, hoffset]
    rfl
  refine ⟨_, t, hidx, ⟨⟨⟨ht.idSize, ht.unmapped, ht.mapped, ht.names, ht.offset32, ht.crc32⟩, ?_⟩, ?_, ?_,
    ht.offset64⟩, ?_, rfl, rfl⟩
  · intro f hf
    have hlen : es.length % 2 ^ 32 = t.rows.length := by
      rw [Nat.mod_eq_of_lt (by rw [hperm.length_eq]; exact hfit.count), ← hentries, length_map]
    simp only [fill, hlen]
    split_ifs with hfill
    · refine (t.upTo_eq_length fun r hr => ?_).symm
      have := ht.fan_le hr
      omega
    · exact ht.fanout f (by omega)
  · rw [hentries, hrows]
  · rw [hentries]
    exact hperm
  · have : Fresh last.idx := Build.run_fresh ⟨rfl, rfl, rfl⟩
    exact ⟨this.1, this.2, this.3⟩

end GoGit.Idx
