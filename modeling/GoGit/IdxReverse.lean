import GoGit.IdxRoundtrip

/-! The names that `FindHash`, `Entries` and `EntriesByOffset` give back are rebuilt from the packed names: a name is
written into an array of 32 bytes together with what stands behind it. -/
namespace GoGit.Idx

open ByteStream PathOrder List Function

section Drain

variable {idx : MemoryIndex} {t : Table} {es : List Entry} {n : ℕ}

variable {i : MemoryIndex.EntryIter}

lemma Fitting.entryNext_eof (hx : Fitting idx t es)
    (hi : IterAt t i t.rows.length) {fuel : ℕ} (hfuel : 256 - i.firstLevel < fuel) :
    idx.entryNext fuel i = .error .eof := by
  induction fuel generalizing i with
  | zero => omega
  | succ fuel ih =>
    rw [MemoryIndex.entryNext]
    by_cases hlevel : i.firstLevel ≥ 256
    · rw [if_pos hlevel]
      rfl
    · have hle : t.upTo i.firstLevel ≤ t.rows.length := countP_le_length
      have hfanout := hx.fanout i.firstLevel (by omega)
      rw [if_neg hlevel, if_pos (by rw [hi.total]; omega)]
      exact ih (hi.advance (by omega) hle) (by simp only; omega)

lemma Fitting.drain (hx : Fitting idx t es) (hi : IterAt t i n) {m : ℕ}
    (hm : n + m = t.rows.length) : idx.drain (m + 1) i = .ok (shown (t.rows.drop n)) := by
  induction m generalizing i n with
  | zero =>
    obtain rfl : n = t.rows.length := hm
    rw [MemoryIndex.drain, hx.entryNext_eof hi (by omega), drop_length]
    rfl
  | succ m ih =>
    obtain ⟨r, i₁, hdrop, hat, hnext⟩ := hx.entryNext hi (by omega) (by omega : 256 - i.firstLevel < 257)
    rw [MemoryIndex.drain, hnext]
    simp only [ih hat (by omega), Except.map]
    rw [hdrop, shown]

lemma Fitting.entries (hx : Fitting idx t es) : idx.Entries = .ok (shown t.rows) := by
  rw [MemoryIndex.Entries, hx.count, hx.drain (IterAt.start t) (Nat.zero_add _), drop_zero]

end Drain

/-- The hashes that one variable takes when it is written over and over. -/
def carried : ObjectID → List Row → List ObjectID
  | _, [] => []
  | hash, r :: rs => hash.write (namesFrom (r :: rs)) :: carried (hash.write (namesFrom (r :: rs))) rs

def recordAll (m : ℤ → Option ObjectID) (rs : List Row) (hs : List ObjectID) : ℤ → Option ObjectID :=
  (rs.zip hs).foldl (fun m p => update m (int64 p.1.entry.offset.toNat) (some p.2)) m

section Reverse

variable {idx : MemoryIndex} {t : Table} {es : List Entry} {b : Bucket} {f k : ℕ}

lemma Fitting.genBucket (hx : Fitting idx t es) (hb : t.bucket? f = some b) (hk : t.buckets[k]? = some b)
    (hsmall : b.rows.length * 20 < 2 ^ 32) {n s : ℕ} (hn : s + n = b.rows.length) (hash : ObjectID)
    (m : ℤ → Option ObjectID) : ∃ hash' m', idx.genBucket k n s hash m = .ok (hash', m') ∧
      recordAll m (t.rows.drop (t.below f + s)) (carried hash (t.rows.drop (t.below f + s))) =
        recordAll m' (t.rows.drop (t.below f + b.rows.length))
          (carried hash' (t.rows.drop (t.below f + b.rows.length))) := by
  induction n generalizing s hash m with
  | zero =>
    obtain rfl : s = b.rows.length := hn
    exact ⟨hash, m, rfl, rfl⟩
  | succ n ih =>
    have hs : s < b.rows.length := by omega
    have hget : b.rows[s]? = some b.rows[s] := getElem?_eq_getElem hs
    obtain ⟨hcons, hnames⟩ := t.drop_rows hb hget
    have hslice : slice (b.rows.flatMap Row.name) (s * 20) (b.rows.flatMap Row.name).length =
        .ok ((b.rows.drop s).flatMap Row.name) := slice_from (fun r hr => b.length_name hr) hs.le
    set hash₁ := hash.write (namesFrom (t.rows.drop (t.below f + s))) with hhash₁
    obtain ⟨hash', m', hgen, hrec⟩ := @ih (s + 1) (by omega) hash₁
      (update m (int64 b.rows[s].entry.offset.toNat) (some hash₁))
    refine ⟨hash', m', ?_, ?_⟩
    · have hmod : s * 20 % 2 ^ 32 = s * 20 := Nat.mod_eq_of_lt (by omega)
      simp only [MemoryIndex.genBucket, hx.names, bucketAt_map _ hk, hx.idSize_eq, hmod, hslice, hx.getOffset hk hget,
        ← hnames, ← hhash₁, ok_bind]
      exact hgen
    · rw [← hrec, ← Nat.add_assoc, hhash₁, hcons]
      rfl

lemma Fitting.genOffsetHash (hx : Fitting idx t es) (hsmall : ∀ b ∈ t.buckets, b.rows.length * 20 < 2 ^ 32) :
    idx.genOffsetHash = .ok (recordAll (fun _ => none) t.rows (carried .zeroHash t.rows)) := by
  have hgen : ∀ n f, f + n = 256 → ∀ hash m, idx.genBuckets (List.range' f n) (t.below f) hash m =
      .ok (recordAll m (t.rows.drop (t.below f)) (carried hash (t.rows.drop (t.below f)))) := by
    intro n
    induction n with
    | zero =>
      intro f hf hash m
      rw [t.below_top (by omega), drop_length]
      rfl
    | succ n ih =>
      intro f hf hash m
      have hfanout := hx.fanout f (by omega)
      have hmax : max (t.below f) (idx.fanout f) = t.below (f + 1) := by
        rw [hfanout, ← t.below_succ]
        exact max_eq_right (t.below_mono f.le_succ)
      rw [range'_succ, MemoryIndex.genBuckets, hmax]
      cases hb : t.bucket? f with
      | none =>
        have hzero : idx.fanout f - t.below f = 0 := by rw [hfanout, t.upTo_of_none hb, Nat.sub_self]
        have hbelow : t.below (f + 1) = t.below f := by rw [t.below_succ, t.upTo_of_none hb]
        rw [hzero, MemoryIndex.genBucket]
        simp only [ok_bind]
        rw [ih (f + 1) (by omega), hbelow]
      | some b =>
        obtain ⟨-, -, -, -, -, -, hup⟩ := t.below_split hb
        obtain ⟨k, hk, hmap⟩ := hx.mapped_bucket hb
        have hlen : idx.fanout f - t.below f = b.rows.length := by omega
        have hbelow : t.below (f + 1) = t.below f + b.rows.length := by rw [t.below_succ, hup]
        obtain ⟨hash', m', hgen, hrec⟩ := hx.genBucket hb hk (hsmall b (mem_of_getElem? hk)) (Nat.zero_add _) hash m
        rw [hlen, hmap, hgen]
        simp only [ok_bind]
        rw [ih (f + 1) (by omega), hbelow, ← hrec, Nat.add_zero]
  have hstart : t.below 0 = 0 := by simp [Table.below]
  have := hgen 256 0 rfl .zeroHash fun _ => none
  rw [hstart, drop_zero] at this
  rw [MemoryIndex.genOffsetHash, range_eq_range', this]

lemma recordAll_apply {rs : List Row} {hs : List ObjectID} (hlen : rs.length = hs.length)
    (hnd : (rs.map fun r => int64 r.entry.offset.toNat).Nodup) (m : ℤ → Option ObjectID) :
    (∀ (i : ℕ) (r : Row) h, rs[i]? = some r → hs[i]? = some h →
      recordAll m rs hs (int64 r.entry.offset.toNat) = some h) ∧
    ∀ o, o ∉ rs.map (fun r => int64 r.entry.offset.toNat) → recordAll m rs hs o = m o := by
  induction rs generalizing hs m with
  | nil => exact ⟨by simp, fun o _ => rfl⟩
  | cons r rs ih =>
    cases hs with
    | nil => simp at hlen
    | cons h hs =>
      rw [map_cons, nodup_cons] at hnd
      obtain ⟨ih₁, ih₂⟩ := ih (by simpa using hlen) hnd.2 (update m (int64 r.entry.offset.toNat) (some h))
      refine ⟨?_, ?_⟩
      · intro i x y hx hy
        cases i with
        | zero =>
          obtain rfl : r = x := by simpa using hx
          obtain rfl : h = y := by simpa using hy
          exact (ih₂ _ hnd.1).trans (update_self _ _ _)
        | succ i => exact ih₁ i x y (by simpa using hx) (by simpa using hy)
      · intro o ho
        rw [map_cons, mem_cons, not_or] at ho
        exact (ih₂ o ho.2).trans (update_of_ne ho.1 _ _)

lemma length_carried (hash : ObjectID) (rs : List Row) : (carried hash rs).length = rs.length := by
  induction rs generalizing hash with
  | nil => rfl
  | cons r rs ih => simp [carried, ih]

lemma length_shown (rs : List Row) : (shown rs).length = rs.length := by
  induction rs with
  | nil => rfl
  | cons r rs ih => simp [shown, ih]

end Reverse

/-- No bytes behind the sums, and twelve zeros in front of each sum that shares its first byte. -/
structure Clean (es : List Entry) : Prop where
  ends : ∀ e ∈ es, e.hash.hash.drop 20 = List.replicate 12 0
  apart : ∀ a ∈ es, ∀ b ∈ es, a.hash ≠ b.hash → fan a.hash = fan b.hash →
    b.hash.bytes.take 12 = List.replicate 12 0

structure Rebuilt (rs : List Row) : Prop where
  shown : (shown rs).map Entry.hash = rs.map fun r => r.entry.hash
  carried : carried .zeroHash rs = rs.map fun r => r.entry.hash

section Clean

variable {rs : List Row}

def behind (r : Row) (rs : List Row) : Bytes :=
  (rs.filter fun x => fan x.entry.hash = fan r.entry.hash).flatMap Row.name

lemma namesFrom_cons (r : Row) (rs : List Row) : namesFrom (r :: rs) = r.name ++ behind r rs := by
  rw [namesFrom, filter_cons_of_pos (by simp), flatMap_cons, behind]

lemma write_hash (h : ObjectID) {a b : Bytes} (ha : a.length = 20) :
    (h.write (a ++ b)).hash = a ++ (b.take 12 ++ h.hash.drop (20 + b.length)) := by
  simp only [ObjectID.write, length_append, ha]
  rw [take_append, take_of_length_le (by omega), ha, append_assoc]

variable {r : Row} {hash : ObjectID}

lemma behind_zeros (hzero : hash.hash.drop 20 = List.replicate 12 0) (hname : ∀ x ∈ rs, x.name.length = 20)
    (hapart : ∀ x ∈ rs, fan r.entry.hash = fan x.entry.hash → x.name.take 12 = List.replicate 12 0) :
    (behind r rs).take 12 ++ hash.hash.drop (20 + (behind r rs).length) = List.replicate 12 0 := by
  rw [behind]
  cases hmore : rs.filter fun x => fan x.entry.hash = fan r.entry.hash with
  | nil => simpa using hzero
  | cons x more =>
    obtain ⟨hx, hfan⟩ := mem_filter.mp (hmore ▸ mem_cons_self)
    have hxlen := hname x hx
    rw [flatMap_cons, take_append_of_le_length (by omega), hapart x hx (by simpa [eq_comm] using hfan),
      drop_of_length_le, append_nil]
    rw [hash.length_hash, length_append]
    omega

lemma write_namesFrom (hfmt : hash.format = .sha1)
    (hzero : hash.hash.drop 20 = List.replicate 12 0) (hsha : r.entry.hash.format = .sha1)
    (hend : r.entry.hash.hash.drop 20 = List.replicate 12 0) (hname : ∀ x ∈ rs, x.name.length = 20)
    (hapart : ∀ x ∈ rs, fan r.entry.hash = fan x.entry.hash → x.name.take 12 = List.replicate 12 0) :
    hash.write (namesFrom (r :: rs)) = r.entry.hash := by
  have hlen : r.name.length = 20 := ObjectID.length_bytes hsha
  have hhash : r.entry.hash.hash = r.name ++ List.replicate 12 0 := by
    rw [← hend, Row.name, ObjectID.bytes, hsha]
    exact (take_append_drop 20 _).symm
  refine ObjectID.eq_of_hash ?_ (hfmt.trans hsha.symm)
  rw [namesFrom_cons, write_hash hash hlen, behind_zeros hzero hname hapart, hhash]

lemma rebuilt_of_clean (hsha : ∀ r ∈ rs, r.entry.hash.format = .sha1)
    (hend : ∀ r ∈ rs, r.entry.hash.hash.drop 20 = List.replicate 12 0)
    (hapart : rs.Pairwise fun a b => fan a.entry.hash = fan b.entry.hash → b.name.take 12 = List.replicate 12 0) :
    (shown rs).map Entry.hash = rs.map (fun r => r.entry.hash) ∧
      ∀ hash : ObjectID, hash.format = .sha1 → hash.hash.drop 20 = List.replicate 12 0 →
        carried hash rs = rs.map fun r => r.entry.hash := by
  induction rs with
  | nil => exact ⟨rfl, fun _ _ _ => rfl⟩
  | cons r rs ih =>
    rw [pairwise_cons] at hapart
    obtain ⟨ih₁, ih₂⟩ := ih (fun x hx => hsha x (by simp [hx])) (fun x hx => hend x (by simp [hx])) hapart.2
    have hwrite : ∀ hash : ObjectID, hash.format = .sha1 → hash.hash.drop 20 = List.replicate 12 0 →
        hash.write (namesFrom (r :: rs)) = r.entry.hash := fun hash hfmt hzero =>
      write_namesFrom hfmt hzero (hsha r (by simp)) (hend r (by simp))
        (fun x hx => ObjectID.length_bytes (hsha x (by simp [hx]))) hapart.1
    refine ⟨?_, fun hash hfmt hzero => ?_⟩
    · simp only [shown, map_cons, ih₁, hwrite .zeroHash rfl rfl]
    · rw [carried, hwrite hash hfmt hzero, ih₂ _ (hsha r (by simp)) (hend r (by simp)), map_cons]

lemma zeros_of_lt {n : ℕ} {a b : Bytes} (hlt : a < b) (hlen : n ≤ a.length)
    (hb : b.take n = List.replicate n 0) : a.take n = List.replicate n 0 := by
  induction n generalizing a b with
  | zero => simp
  | succ n ih =>
    cases a with
    | nil => simp at hlen
    | cons x a =>
      cases b with
      | nil => simp [replicate_succ] at hb
      | cons y b =>
        rw [take_succ_cons, replicate_succ, List.cons.injEq] at hb
        obtain ⟨rfl, hb⟩ := hb
        rw [cons_lt_cons_iff] at hlt
        rcases hlt with hlt | ⟨rfl, hlt⟩
        · exact absurd hlt (UInt8.not_lt_zero)
        · rw [take_succ_cons, replicate_succ, ih hlt (by simpa using hlen) hb]

lemma carried_append (hash : ObjectID) (xs ys : List Row) : ∃ hs hash', hs.length = xs.length ∧
    carried hash (xs ++ ys) = hs ++ carried hash' ys := by
  induction xs generalizing hash with
  | nil => exact ⟨[], hash, rfl, rfl⟩
  | cons x xs ih =>
    obtain ⟨hs, hash', hlen, heq⟩ := ih (hash.write (namesFrom (x :: xs ++ ys)))
    exact ⟨_ :: hs, hash', by simp [hlen], congrArg _ heq⟩

lemma shown_append (xs ys : List Row) : ∃ es, es.length = xs.length ∧ shown (xs ++ ys) = es ++ shown ys := by
  induction xs with
  | nil => exact ⟨[], rfl, rfl⟩
  | cons x xs ih =>
    obtain ⟨es, hlen, heq⟩ := ih
    exact ⟨_ :: es, by simp [hlen], congrArg _ heq⟩

lemma exists_last {α : Type} {l : List α} (p : α → Prop) (h : ∃ x ∈ l, p x) :
    ∃ xs x ys, l = xs ++ x :: ys ∧ p x ∧ ∀ y ∈ ys, ¬ p y := by
  classical
  have hsome : (l.reverse.find? fun x => p x).isSome := by simpa using h
  obtain ⟨x, hx⟩ := Option.isSome_iff_exists.mp hsome
  obtain ⟨hp, as, bs, heq, hno⟩ := find?_eq_some_iff_append.mp hx
  exact ⟨bs.reverse, x, as.reverse, by simpa using congrArg reverse heq, by simpa using hp, by simpa using hno⟩

section Rebuilt

variable (hsha : ∀ r ∈ rs, r.entry.hash.format = .sha1)
  (hsorted : rs.Pairwise fun a b => a.name < b.name) (h : Rebuilt rs)
include hsha h

lemma end_of_rebuilt {xs ys : List Row} (hsplit : rs = xs ++ r :: ys) : r.entry.hash.hash.drop 20 =
    (behind r ys).take 12 ++ ObjectID.zeroHash.hash.drop (20 + (behind r ys).length) := by
  obtain ⟨es, hlen, heq⟩ := shown_append xs (r :: ys)
  have hshown := h.shown
  rw [hsplit, heq, map_append, map_append, shown, map_cons, map_cons] at hshown
  have := (append_inj hshown (by simpa using hlen)).2
  rw [List.cons.injEq] at this
  have hr : r.name.length = 20 := ObjectID.length_bytes (hsha r (by simp [hsplit]))
  refine (congrArg (fun h : ObjectID => h.hash.drop 20) this.1).symm.trans ?_
  simp only [namesFrom_cons, write_hash _ hr, drop_left' hr]

include hsorted in
lemma apart_of_rebuilt {a b : Row} (ha : a ∈ rs) (hb : b ∈ rs) (hab : a ≠ b) (hfan : fan a.entry.hash = fan b.entry.hash) :
    b.name.take 12 = List.replicate 12 0 := by
  have hname : ∀ r ∈ rs, r.name.length = 20 := fun r hr => ObjectID.length_bytes (hsha r hr)
  -- the last row of the bucket, and the one before it
  obtain ⟨xs, l, ys, hsplit, hl, hys⟩ :=
    exists_last (fun r : Row => fan r.entry.hash = fan b.entry.hash) ⟨b, hb, rfl⟩
  have hbefore : ∃ c ∈ xs, fan c.entry.hash = fan b.entry.hash := by
    by_contra hno
    push Not at hno
    have hlast : ∀ r ∈ rs, fan r.entry.hash = fan b.entry.hash → r = l := by
      intro r hr hrf
      rw [hsplit, mem_append, mem_cons] at hr
      rcases hr with hr | rfl | hr
      · exact absurd hrf (hno r hr)
      · rfl
      · exact absurd hrf (hys r hr)
    exact hab ((hlast a ha hfan).trans (hlast b hb rfl).symm)
  obtain ⟨c, hc, hcf⟩ := hbefore
  obtain ⟨xs, p, rfl⟩ := (eq_nil_or_concat' xs).resolve_left (ne_nil_of_mem hc)
  rw [append_assoc, singleton_append] at hsplit
  have hpl : rs.Pairwise fun a b => fan a.entry.hash ≤ fan b.entry.hash := hsorted.imp fan_le_of_lt
  rw [hsplit, pairwise_append, pairwise_cons] at hpl
  have hpf : fan p.entry.hash = fan l.entry.hash := by
    refine le_antisymm (hpl.2.1.1 l (by simp)) ?_
    rw [hl, ← hcf]
    rcases mem_append.mp hc with hc | hc
    · exact hpl.2.2 c hc p (by simp)
    · rw [mem_singleton.mp hc]
  have hnone : behind l ys = [] := by
    rw [behind, filter_eq_nil_iff.mpr fun x hx => by simpa [hl] using hys x hx, flatMap_nil]
  have hlname := hname l (by simp [hsplit])
  have hpname := hname p (by simp [hsplit])
  -- the last name is written with nothing behind it
  have hend : l.entry.hash.hash.drop 20 = List.replicate 12 0 := by
    have := end_of_rebuilt hsha h (show rs = (xs ++ [p]) ++ l :: ys by simp [hsplit])
    rw [hnone] at this
    simpa [ObjectID.zeroHash] using this
  -- the variable still has the start of the last name behind the one before it
  have hcarry : l.entry.hash.hash.drop 20 = l.name.take 12 := by
    have hcarried := h.carried
    obtain ⟨hs, hash', hlen, heq⟩ := carried_append .zeroHash xs (p :: l :: ys)
    rw [hsplit, heq, map_append] at hcarried
    have := (append_inj hcarried (by simpa using hlen)).2
    simp only [carried, map_cons, List.cons.injEq] at this
    obtain ⟨h₁, h₂, -⟩ := this
    rw [← h₂, namesFrom_cons l, hnone, write_hash _ hlname, drop_left' hlname,
      take_nil, nil_append, length_nil, Nat.add_zero, namesFrom_cons p,
      write_hash _ hpname, drop_left' hpname, behind, filter_cons_of_pos (by simpa using hpf.symm),
      flatMap_cons, take_append_of_le_length (by omega), drop_of_length_le, append_nil]
    rw [ObjectID.length_hash, length_append]
    omega
  have hzero : l.name.take 12 = List.replicate 12 0 := hcarry.symm.trans hend
  rw [hsplit, mem_append, mem_cons, mem_cons] at hb
  have hsorted' := hsorted
  rw [hsplit, pairwise_append, pairwise_cons] at hsorted'
  rcases hb with hb | rfl | rfl | hb
  · exact zeros_of_lt (hsorted'.2.2 b hb l (by simp)) (by rw [hname b (by simp [hsplit, hb])]; omega) hzero
  · exact zeros_of_lt (hsorted'.2.1.1 l (by simp)) (by omega) hzero
  · exact hzero
  · exact absurd rfl (hys b hb)

end Rebuilt

end Clean

inductive Lookup
  | contains (h : ObjectID)
  | findOffset (h : ObjectID)
  | findHash (o : ℤ)
  | findCRC32 (h : ObjectID)
  | count
  | entries
  | entriesByOffset

def MemoryIndex.lookup (idx : MemoryIndex) : Lookup → MemoryIndex
  | .findOffset h => (idx.FindOffset h).2
  | .findHash o => (idx.FindHash o).2
  | _ => idx

def MemoryIndex.history (idx : MemoryIndex) (ls : List Lookup) : MemoryIndex :=
  ls.foldl MemoryIndex.lookup idx

/-- Offsets are looked up for the very names that were added. -/
def Faithful (es : List Entry) (ls : List Lookup) : Prop :=
  ∀ h, .findOffset h ∈ ls → ∀ e ∈ es, e.hash.bytes = h.bytes → h = e.hash

structure Recalls (sort : (Entry → Entry → Bool) → List Entry → List Entry) (es : List Entry)
    (idx : MemoryIndex) : Prop where
  findHash : ∀ e ∈ es, (idx.FindHash e.offset.toNat).1 = .ok e.hash
  entries : ∃ l, idx.Entries = .ok l ∧ (l.map Entry.hash).Perm (es.map Entry.hash)
  byOffset : ∃ l, idx.EntriesByOffset sort = .ok l ∧ (l.map Entry.hash).Perm (es.map Entry.hash)

structure Cached (es : List Entry) (idx : MemoryIndex) : Prop where
  sound : ∀ m, idx.offsetHash = some m → ∀ o h, m o = some h → ∃ e ∈ es, (e.offset.toNat : ℤ) = o ∧ e.hash = h
  full : idx.offsetHashIsFull = true → ∃ m, idx.offsetHash = some m ∧
    ∀ e ∈ es, m e.offset.toNat = some e.hash

section History

variable {idx : MemoryIndex} {t : Table} {es : List Entry}
  {sort : (Entry → Entry → Bool) → List Entry → List Entry}

lemma Fitting.withCache (hx : Fitting idx t es) (m : Option (ℤ → Option ObjectID)) (full : Bool) :
    Fitting { idx with offsetHash := m, offsetHashIsFull := full } t es :=
  ⟨⟨⟨⟨hx.idSize, hx.unmapped, hx.mapped, hx.names, hx.offset32, hx.crc32⟩, hx.fanout⟩, hx.rows, hx.perm,
    hx.offset64⟩, hx.wide⟩

structure Addressed (t : Table) (es : List Entry) : Prop where
  small : ∀ e ∈ es, e.offset.toNat < 2 ^ 63
  nodup : (es.map Entry.offset).Nodup
  buckets : ∀ b ∈ t.buckets, b.rows.length * 20 < 2 ^ 32

lemma Fitting.mem_entries (hx : Fitting idx t es) {e : Entry} : e ∈ es ↔ ∃ r ∈ t.rows, r.entry = e := by
  rw [← hx.perm.mem_iff, mem_map]

lemma Fitting.genOffsetHash_apply (hx : Fitting idx t es) (ha : Addressed t es) : ∃ m, idx.genOffsetHash = .ok m ∧
      (∀ (i : ℕ) r h, t.rows[i]? = some r → (carried .zeroHash t.rows)[i]? = some h →
        m r.entry.offset.toNat = some h) ∧ ∀ o, (∀ e ∈ es, (e.offset.toNat : ℤ) ≠ o) → m o = none := by
  have hint : ∀ r ∈ t.rows, int64 r.entry.offset.toNat = r.entry.offset.toNat := fun r hr =>
    int64_of_lt (ha.small _ (hx.mem_entries.mpr ⟨r, hr, rfl⟩))
  have hnd : (t.rows.map fun r => int64 r.entry.offset.toNat).Nodup := by
    rw [map_congr_left hint]
    have := (hx.perm.map Entry.offset).nodup_iff.mpr ha.nodup
    rw [map_map] at this
    have hinj := this.map (f := fun o : UInt64 => (o.toNat : ℤ))
      fun a b hab => UInt64.toNat_inj.mp (Int.ofNat_inj.mp hab)
    rwa [map_map] at hinj
  obtain ⟨h₁, h₂⟩ := recordAll_apply (length_carried .zeroHash t.rows).symm hnd fun _ => none
  refine ⟨_, hx.genOffsetHash ha.buckets, ?_, ?_⟩
  · intro i r h hr hh
    have := h₁ i r h hr hh
    rwa [hint r (mem_of_getElem? hr)] at this
  · intro o ho
    refine h₂ o fun hmem => ?_
    obtain ⟨r, hr, rfl⟩ := mem_map.mp hmem
    exact ho r.entry (hx.mem_entries.mpr ⟨r, hr, rfl⟩) (hint r hr).symm

section Clean

variable (ha : Addressed t es) (hrebuilt : Rebuilt t.rows)
include ha hrebuilt

section

variable (hx : Fitting idx t es)

include hx

lemma Fitting.genOffsetHash_clean : ∃ m, idx.genOffsetHash = .ok m ∧
    Cached es { idx with offsetHash := some m, offsetHashIsFull := true } := by
  obtain ⟨m, hgen, hm, hnone⟩ := hx.genOffsetHash_apply ha
  have hall : ∀ e ∈ es, m e.offset.toNat = some e.hash := by
    intro e he
    obtain ⟨r, hr, rfl⟩ := hx.mem_entries.mp he
    obtain ⟨i, hi⟩ := getElem?_of_mem hr
    exact hm i r _ hi (by rw [hrebuilt.carried, getElem?_map, hi]; rfl)
  refine ⟨m, hgen, ?_, fun _ => ⟨m, rfl, hall⟩⟩
  rintro _ ⟨⟩ o h hoh
  by_contra hno
  push Not at hno
  by_cases ho : ∀ e ∈ es, (e.offset.toNat : ℤ) ≠ o
  · rw [hnone o ho] at hoh
    cases hoh
  · push Not at ho
    obtain ⟨e, he, rfl⟩ := ho
    rw [hall e he] at hoh
    exact hno e he rfl (Option.some.inj hoh)

lemma Fitting.lookup (hc : Cached es idx) {l : Lookup}
    (hl : ∀ h, l = .findOffset h → ∀ e ∈ es, e.hash.bytes = h.bytes → h = e.hash) :
    Fitting (idx.lookup l) t es ∧ Cached es (idx.lookup l) := by
  cases l with
  | findOffset h =>
    simp only [MemoryIndex.lookup, MemoryIndex.FindOffset]
    rcases hx.findHashIndex h with ⟨k, i, b, r, hfind, hmap, hk, hi, hname⟩ | ⟨hfind, -⟩
    · have hr : r ∈ t.rows := t.mem_rows.mpr ⟨b, mem_of_getElem? hk, mem_of_getElem? hi⟩
      have he : r.entry ∈ es := hx.mem_entries.mpr ⟨r, hr, rfl⟩
      have hh : h = r.entry.hash := hl h rfl r.entry he hname
      simp only [hfind, hmap, hx.getOffset hk hi, int64_of_lt (ha.small _ he)]
      split_ifs with hfull
      · exact ⟨hx, hc⟩
      · refine ⟨hx.withCache _ _, ?_, fun hf => absurd hf hfull⟩
        rintro _ ⟨⟩ o h' hoh
        by_cases ho : o = r.entry.offset.toNat
        · subst ho
          rw [update_self] at hoh
          cases hoh
          exact ⟨r.entry, he, rfl, hh.symm⟩
        · rw [update_of_ne ho] at hoh
          cases hm : idx.offsetHash with
          | none => simp [hm] at hoh
          | some m =>
            rw [hm] at hoh
            exact hc.sound m hm o h' hoh
    · simp only [hfind]
      exact ⟨hx, hc⟩
  | findHash o =>
    simp only [MemoryIndex.lookup, MemoryIndex.FindHash]
    cases hm : idx.offsetHash.bind fun m => m o with
    | some h => exact ⟨hx, hc⟩
    | none =>
      simp only
      split_ifs with hfull
      · exact ⟨hx, hc⟩
      · obtain ⟨m, hgen, hc'⟩ := hx.genOffsetHash_clean ha hrebuilt
        simp only [hgen]
        exact ⟨hx.withCache _ _, hc'⟩
  | _ => exact ⟨hx, hc⟩

lemma Fitting.history (hc : Cached es idx) {ls : List Lookup}
    (hls : Faithful es ls) : Fitting (idx.history ls) t es ∧ Cached es (idx.history ls) := by
  induction ls generalizing idx with
  | nil => exact ⟨hx, hc⟩
  | cons l ls ih =>
    obtain ⟨hx', hc'⟩ := hx.lookup ha hrebuilt hc (l := l) fun h hh => hls h (by simp [hh])
    exact ih hx' hc' fun h hh => hls h (by simp [hh])

lemma Fitting.findHash (hc : Cached es idx) {e : Entry} (he : e ∈ es) :
    (idx.FindHash e.offset.toNat).1 = .ok e.hash := by
  have heq : ∀ m : ℤ → Option ObjectID, (∀ o h, m o = some h → ∃ e ∈ es, (e.offset.toNat : ℤ) = o ∧ e.hash = h) →
      ∀ h, m (e.offset.toNat : ℤ) = some h → h = e.hash := by
    intro m hm h hh
    obtain ⟨x, hx', hxo, rfl⟩ := hm _ h hh
    rw [inj_on_of_nodup_map ha.nodup hx' he (UInt64.toNat_inj.mp (Int.ofNat_inj.mp hxo))]
  simp only [MemoryIndex.FindHash]
  cases hm : idx.offsetHash.bind fun m => m (e.offset.toNat : ℤ) with
  | some h =>
    obtain ⟨m, hm', hh⟩ := Option.bind_eq_some_iff.mp hm
    rw [heq m (hc.sound m hm') h hh]
  | none =>
    simp only
    split_ifs with hfull
    · obtain ⟨m, hm', hall⟩ := hc.full hfull.1
      rw [hm', Option.bind_some, hall e he] at hm
      cases hm
    · obtain ⟨m, hgen, hc'⟩ := hx.genOffsetHash_clean ha hrebuilt
      obtain ⟨_, ⟨⟩, hall⟩ := hc'.full rfl
      simp only [hgen, hall e he, Option.elim_some]

end

end Clean

lemma Fitting.rebuilt_iff_clean (hx : Fitting idx t es) (hfit : Fits es) : Rebuilt t.rows ↔ Clean es := by
  have hmem : ∀ r ∈ t.rows, r.entry ∈ es := fun r hr => hx.mem_entries.mpr ⟨r, hr, rfl⟩
  have hsha : ∀ r ∈ t.rows, r.entry.hash.format = .sha1 := fun r hr => hfit.sha1 _ (hmem r hr)
  constructor
  · intro h
    have hapart : ∀ a ∈ t.rows, ∀ b ∈ t.rows, a ≠ b → fan a.entry.hash = fan b.entry.hash →
        b.name.take 12 = List.replicate 12 0 := fun a ha b hb hab hfan =>
      apart_of_rebuilt hsha t.sorted h ha hb hab hfan
    refine ⟨?_, ?_⟩
    · intro e he
      obtain ⟨r, hr, rfl⟩ := hx.mem_entries.mp he
      obtain ⟨xs, ys, hsplit⟩ := append_of_mem hr
      have hin : ∀ x ∈ ys, x ∈ t.rows := fun x hxy => by simp [hsplit, hxy]
      have hsorted := t.sorted
      rw [← Table.rows, hsplit, pairwise_append, pairwise_cons] at hsorted
      rw [end_of_rebuilt hsha h hsplit]
      refine behind_zeros rfl (fun x hxy => ObjectID.length_bytes (hsha x (hin x hxy))) fun x hxy hfan => ?_
      exact hapart r hr x (hin x hxy) (fun heq => lt_irrefl _ (heq ▸ hsorted.2.1.1 x hxy)) hfan
    · intro a ha b hb hab hfan
      obtain ⟨r, hr, rfl⟩ := hx.mem_entries.mp ha
      obtain ⟨s, hs, rfl⟩ := hx.mem_entries.mp hb
      exact hapart r hr s hs (fun h => hab (by rw [h])) hfan
  · intro hclean
    have hapart : t.rows.Pairwise fun a b => fan a.entry.hash = fan b.entry.hash →
        b.name.take 12 = List.replicate 12 0 := by
      refine t.sorted.imp_of_mem ?_
      intro a b ha hb hlt hfan
      refine hclean.apart _ (hmem a ha) _ (hmem b hb) (fun heq => ?_) hfan
      rw [Row.name, heq] at hlt
      exact lt_irrefl _ hlt
    obtain ⟨h₁, h₂⟩ := rebuilt_of_clean hsha (fun r hr => hclean.ends _ (hmem r hr)) hapart
    exact ⟨h₁, h₂ .zeroHash rfl rfl⟩

lemma Fitting.rebuilt_of_recalls (hx : Fitting idx t es) (hfit : Fits es) (ha : Addressed t es)
    (hfresh : Fresh idx) (h : Recalls sort es idx) : Rebuilt t.rows := by
  have hmem : ∀ r ∈ t.rows, r.entry ∈ es := fun r hr => hx.mem_entries.mpr ⟨r, hr, rfl⟩
  constructor
  · obtain ⟨l, hl, hperm⟩ := h.entries
    rw [hx.entries] at hl
    cases hl
    have hkey : (shown t.rows).map Entry.key = (t.rows.map Row.entry).map Entry.key :=
      shown_key fun r hr => hfit.sha1 _ (hmem r hr)
    refine ext_getElem (by simp [length_shown]) fun i h₁ h₂ => ?_
    have hi : i < t.rows.length := by simpa using h₂
    have hi' : i < (shown t.rows).length := by rwa [length_shown]
    simp only [getElem_map]
    have hbytes : (shown t.rows)[i].hash.bytes = t.rows[i].entry.hash.bytes := by
      have := getElem_of_eq hkey (i := i) (by simpa using hi')
      simp only [getElem_map, Entry.key, Prod.mk.injEq] at this
      exact this.1
    obtain ⟨e, he, heq⟩ := mem_map.mp (hperm.mem_iff.mp (mem_map_of_mem (getElem_mem hi')))
    rw [← heq] at hbytes ⊢
    exact hfit.distinct e he _ (hmem _ (getElem_mem hi)) hbytes
  · obtain ⟨m, hgen, hm, -⟩ := hx.genOffsetHash_apply ha
    refine ext_getElem (by simp [length_carried]) fun i h₁ h₂ => ?_
    have hi : i < t.rows.length := by simpa using h₂
    have hfind := h.findHash _ (hmem _ (getElem_mem hi))
    simp only [MemoryIndex.FindHash, hfresh.offsetHash, Option.bind_none, Option.isSome_none,
      Bool.false_eq_true, and_false, if_false, hgen,
      hm i _ _ (getElem?_eq_getElem hi) (getElem?_eq_getElem h₁), Option.elim_some,
      Except.ok.injEq] at hfind
    rw [hfind, getElem_map]

lemma firsts_of_nodup {adds : List Entry} (h : (adds.map Entry.hash).Nodup) : firsts adds = adds := by
  induction adds with
  | nil => rfl
  | cons a as ih =>
    rw [map_cons, nodup_cons] at h
    rw [firsts, ih h.2, filter_eq_self.mpr]
    intro e he
    have : e.hash ≠ a.hash := fun heq => h.1 (heq ▸ mem_map_of_mem he)
    simpa using this

/-- The names come back after any lookups if and only if they are clean. -/
theorem indexOf_recalls_iff (hsort : Sorts sort) {adds : List Entry} (hfit : Fits adds)
    (hhash : (adds.map Entry.hash).Nodup) (hoffset : (adds.map Entry.offset).Nodup)
    (hoff : ∀ e ∈ adds, e.offset.toNat < 2 ^ 63)
    (hsmall : ∀ f, adds.countP (fun e => fan e.hash = f) * 20 < 2 ^ 32) (checksum : ObjectID) :
    ∃ idx, indexOf sort adds checksum = .ok idx ∧
      ((∀ ls, Faithful adds ls → Recalls sort adds (idx.history ls)) ↔ Clean adds) := by
  have hfirsts := firsts_of_nodup hhash
  obtain ⟨idx, t, hidx, hfor, hfresh, -, -⟩ := indexOf_indexFor hsort (hfirsts ▸ hfit) checksum
  rw [hfirsts] at hfor
  have hx : Fitting idx t adds := ⟨hfor, hfit.wide⟩
  have ha : Addressed t adds := ⟨hoff, hoffset, hx.buckets_small hsmall⟩
  refine ⟨idx, hidx, ?_⟩
  rw [← hx.rebuilt_iff_clean hfit]
  constructor
  · intro h
    exact hx.rebuilt_of_recalls hfit ha hfresh (h [] (by simp [Faithful]))
  · intro hrebuilt ls hls
    have hc : Cached adds idx := by
      refine ⟨fun m hm => ?_, fun hf => ?_⟩
      · rw [hfresh.offsetHash] at hm
        cases hm
      · rw [hfresh.notFull] at hf
        cases hf
    obtain ⟨hx', hc'⟩ := hx.history ha hrebuilt hc hls
    have hhashes : ((shown t.rows).map Entry.hash).Perm (adds.map Entry.hash) := by
      rw [hrebuilt.shown, ← comp_def Entry.hash Row.entry, ← map_map]
      exact hx.perm.map Entry.hash
    exact ⟨fun e he => hx'.findHash ha hrebuilt hc' he, ⟨_, hx'.entries, hhashes⟩,
      ⟨_, hx'.entriesByOffset sort, (((hsort _ _).1).map Entry.hash).trans hhashes⟩⟩

end History

def farNames : List Entry := [⟨nameOf 0x22, 7, 2 ^ 31 + 5⟩, ⟨nameOf 0x11, 8, 12⟩]

theorem indexOf_recalls_farNames : ∃ idx, indexOf sortBy farNames .zeroHash = .ok idx ∧
    ∀ ls, Faithful farNames ls → Recalls sortBy farNames (idx.history ls) := by
  have hsmall : ∀ f, farNames.countP (fun e => fan e.hash = f) * 20 < 2 ^ 32 := by
    intro f
    have hle : farNames.countP (fun e => fan e.hash = f) ≤ farNames.length := countP_le_length
    have hlen : farNames.length = 2 := rfl
    omega
  obtain ⟨idx, hidx, hiff⟩ := indexOf_recalls_iff sorts_sortBy
    ⟨by decide, by decide, by decide, by decide⟩ (by decide) (by decide) (by decide) hsmall .zeroHash
  exact ⟨idx, hidx, hiff.mpr ⟨by decide, by decide⟩⟩

def nearNames : List Entry :=
  [⟨ObjectID.zeroHash.write [0x11, 1], 7, 12⟩, ⟨ObjectID.zeroHash.write [0x11, 2], 8, 40⟩]

theorem FindHash_nearNames : (indexOf sortBy nearNames .zeroHash >>= fun idx => (idx.FindHash 12).1) ≠
      .ok (ObjectID.zeroHash.write [0x11, 1]) ∧ (indexOf sortBy nearNames .zeroHash >>= fun idx =>
      ((idx.FindOffset (ObjectID.zeroHash.write [0x11, 1])).2.FindHash 12).1) =
      .ok (ObjectID.zeroHash.write [0x11, 1]) := by
  constructor <;> decide +kernel

end GoGit.Idx
