import GoGit.IdxLookup

namespace GoGit.Idx

open ByteStream List Function

section Buckets

variable {idx : MemoryIndex} {t : Table} {ks : List ℕ}

abbrev words (rs : List Row) : Bytes := rs.flatMap fun r => digits 4 r.word

abbrev crcs (rs : List Row) : Bytes := rs.flatMap fun r => digits 4 r.entry.crc32.toNat

lemma Table.filterMap_range (t : Table) : (List.range 256).filterMap t.bucket? = t.buckets := by
  have hirrefl : Std.Irrefl fun a b : Bucket => a.first < b.first := ⟨fun _ => lt_irrefl _⟩
  have hanti : Std.Antisymm fun a b : Bucket => a.first < b.first := ⟨fun _ _ hab hba => absurd hab hba.asymm⟩
  refine Pairwise.eq_of_mem_iff ?_ t.ascending fun b => ?_
  · rw [pairwise_filterMap]
    refine pairwise_lt_range.imp ?_
    intro k l hkl a ha b hb
    rwa [(t.bucket?_eq_some_iff.mp ha).2, (t.bucket?_eq_some_iff.mp hb).2]
  · simp only [mem_filterMap, mem_range, t.bucket?_eq_some_iff]
    exact ⟨fun ⟨_, _, hb, _⟩ => hb, fun hb => ⟨b.first, b.first_lt, hb, rfl⟩⟩

lemma Lays.encodeBuckets (hl : Lays idx t) (g : Bucket → Bytes) (hks : ∀ k ∈ ks, k < 256) :
    idx.encodeBuckets (t.buckets.map g) ks = .ok ((ks.filterMap t.bucket?).flatMap g) := by
  induction ks with
  | nil => rfl
  | cons k ks ih =>
    have ih := ih fun k hk => hks k (by simp [hk])
    rw [MemoryIndex.encodeBuckets]
    cases hb : t.bucket? k with
    | none =>
      rw [if_pos (hl.unmapped k (hks k (by simp)) (t.bucket?_eq_none_iff.mp hb)), ih, filterMap_cons_none hb]
    | some b =>
      obtain ⟨p, hp, hmap⟩ := hl.mapped_bucket hb
      rw [if_neg (by rw [hmap, noMapping]; omega), hmap, bucketAt_map g hp, ih, filterMap_cons_some hb, flatMap_cons]
      rfl

lemma Lays.encodeAll (hl : Lays idx t) (g : Bucket → Bytes) :
    idx.encodeBuckets (t.buckets.map g) (List.range 256) = .ok (t.buckets.flatMap g) := by
  rw [hl.encodeBuckets g fun k hk => mem_range.mp hk, t.filterMap_range]

lemma flatMap_rows (w : Row → Bytes) : (t.buckets.flatMap fun b => b.rows.flatMap w) = t.rows.flatMap w := by
  rw [Table.rows, flatMap_assoc]

lemma Lays.encode (hl : Lays idx t) (sha1 : Bytes → Bytes) : ∃ sum, idx.Encode sha1 =
    .ok (idxHeader ++ (digits 4 idx.version ++ (idx.encodeFanout ++ (t.rows.flatMap Row.name ++
      (crcs t.rows ++
      (words t.rows ++ (idx.offset64 ++
      (idx.packfileChecksum.bytes ++ (idx.idxChecksum.write sum).bytes)))))))) := by
  refine ⟨sha1 (idx.encodeHeader ++ idx.encodeFanout ++ t.rows.flatMap Row.name ++
    crcs t.rows ++
    (words t.rows ++ idx.offset64) ++ idx.packfileChecksum.bytes), ?_⟩
  simp only [MemoryIndex.Encode, MemoryIndex.encodeHashes, MemoryIndex.encodeCRC32, MemoryIndex.encodeOffsets,
    hl.names, hl.crc32, hl.offset32, hl.encodeAll, flatMap_rows, ok_bind, pure_ok, MemoryIndex.encodeChecksums,
    MemoryIndex.encodeHeader, append_assoc]

lemma readFull_append {b : Bytes} {n : ℕ} (h : b.length = n) (rest : Bytes) :
    readFull (b ++ rest) n = .ok (b, rest) := by
  rw [readFull, split_append h]

lemma readUint32_append {n : ℕ} (h : n < 2 ^ 32) (rest : Bytes) : readUint32 (digits 4 n ++ rest) = .ok (n, rest) := by
  have hvalue : value (digits 4 n) = n := value_digits_of_lt h
  rw [readUint32, readFull_append (length_digits 4 n)]
  simp only [ok_bind, pure_ok, hvalue]

lemma readFanout_append {count : ℕ → ℕ} (hcount : ∀ k, count k < 2 ^ 32) (idx : MemoryIndex)
    (ks : List ℕ) (rest : Bytes) :
    ∃ fanout mapping, readFanout idx ((ks.flatMap fun k => digits 4 (count k)) ++ rest) ks =
        .ok ({ idx with fanout := fanout, fanoutMapping := mapping }, rest) ∧
      (∀ k, fanout k = if k ∈ ks then count k else idx.fanout k) ∧
      ∀ k, mapping k = if k ∈ ks then noMapping else idx.fanoutMapping k := by
  induction ks generalizing idx with
  | nil => exact ⟨idx.fanout, idx.fanoutMapping, rfl, by simp, by simp⟩
  | cons k ks ih =>
    obtain ⟨fanout, mapping, hread, hf, hm⟩ := ih { idx with
      fanout := update idx.fanout k (count k)
      fanoutMapping := update idx.fanoutMapping k noMapping }
    refine ⟨fanout, mapping, ?_, ?_, ?_⟩
    · simp only [readFanout, flatMap_cons, append_assoc, readUint32_append (hcount k), ok_bind]
      exact hread
    · intro j
      by_cases hj : j = k <;> simp [hf, hj]
    · intro j
      by_cases hj : j = k <;> simp [hm, hj]

lemma bucketSize_eq (hcount : t.rows.length < 2 ^ 32) (hf : ∀ f < 256, idx.fanout f = t.upTo f) {k : ℕ}
    (hk : k < 256) : bucketSize idx k = (t.bucket? k).elim 0 fun b => b.rows.length := by
  have hsize : t.upTo k = t.below k + (t.bucket? k).elim 0 fun b => b.rows.length := by
    cases hb : t.bucket? k with
    | none => exact t.upTo_of_none hb
    | some b =>
      obtain ⟨-, -, -, -, -, -, hup⟩ := t.below_split hb
      exact hup
  have hle : t.upTo k ≤ t.rows.length := countP_le_length
  unfold bucketSize
  split_ifs with hzero
  · have : t.below 0 = 0 := by
      rw [Table.below, countP_eq_zero]
      simp
    subst hzero
    rw [hf 0 hk]
    omega
  · have hbelow : t.below k = t.upTo (k - 1) := by
      rw [← t.below_succ, Nat.sub_add_cancel (by omega)]
    rw [hf k hk, hf (k - 1) (by omega), ← hbelow]
    omega

def zeros (b : Bucket) : Bytes := List.replicate (b.rows.length * 4) 0

lemma readObjectNames_append (hcount : t.rows.length < 2 ^ 32)
    (hsmall : ∀ b ∈ t.buckets, b.rows.length * 20 < 2 ^ 32) (hks : ∀ k ∈ ks, k < 256)
    (hnd : ks.Nodup) (rest : Bytes) (hsize : idx.objectIDSize = 0)
    (hf : ∀ f < 256, idx.fanout f = t.upTo f) :
    ∃ mapping, readObjectNames idx
        ((ks.filterMap t.bucket?).flatMap (fun b => b.rows.flatMap Row.name) ++ rest) ks =
        .ok ({ idx with
          fanoutMapping := mapping
          names := idx.names ++ (ks.filterMap t.bucket?).map fun b => b.rows.flatMap Row.name
          offset32 := idx.offset32 ++ (ks.filterMap t.bucket?).map zeros
          crc32 := idx.crc32 ++ (ks.filterMap t.bucket?).map zeros }, rest) ∧
      (∀ k, k ∉ ks ∨ t.bucket? k = none → mapping k = idx.fanoutMapping k) ∧
      ∀ j b, (ks.filterMap t.bucket?)[j]? = some b → mapping b.first = (idx.names.length + j : ℕ) := by
  induction ks generalizing idx with
  | nil => exact ⟨idx.fanoutMapping, by simp [readObjectNames], by simp, by simp⟩
  | cons k ks ih =>
    have hk := hks k (by simp)
    have hks' : ∀ k ∈ ks, k < 256 := fun k hk => hks k (by simp [hk])
    rw [nodup_cons] at hnd
    have hbucket := bucketSize_eq hcount hf hk
    rw [readObjectNames]
    cases hb : t.bucket? k with
    | none =>
      obtain ⟨mapping, hread, hkeep, hmap⟩ := ih hks' hnd.2 hsize hf
      rw [hb, Option.elim_none] at hbucket
      rw [filterMap_cons_none hb, if_pos hbucket]
      refine ⟨mapping, hread, ?_, hmap⟩
      intro j hj
      refine hkeep j ?_
      rcases hj with hj | hj
      · exact .inl fun hmem => hj (by simp [hmem])
      · exact .inr hj
    | some b =>
      have hmem := (t.bucket?_eq_some_iff.mp hb).1
      have hfirst := (t.bucket?_eq_some_iff.mp hb).2
      have hpos : 0 < b.rows.length := length_pos_of_ne_nil b.nonempty
      have hlen := length_records (l := b.rows) (f := Row.name) fun r hr => b.length_name hr
      have hsmall' := hsmall b hmem
      rw [hb, Option.elim_some] at hbucket
      obtain ⟨mapping, hread, hkeep, hmap⟩ := @ih { idx with
        fanoutMapping := update idx.fanoutMapping k (idx.names.length : ℤ)
        names := idx.names ++ [b.rows.flatMap Row.name]
        offset32 := idx.offset32 ++ [zeros b]
        crc32 := idx.crc32 ++ [zeros b] } hks' hnd.2 hsize hf
      refine ⟨mapping, ?_, ?_, ?_⟩
      · have hidSize : idx.idSize = 20 := by simp [MemoryIndex.idSize, hsize]
        have hread' := readFull_append hlen
          ((ks.filterMap t.bucket?).flatMap (fun b => b.rows.flatMap Row.name) ++ rest)
        have hmod : b.rows.length * 20 % 2 ^ 32 = b.rows.length * 20 := Nat.mod_eq_of_lt hsmall'
        have hmod' : b.rows.length * 4 % 2 ^ 32 = b.rows.length * 4 := Nat.mod_eq_of_lt (by omega)
        simp only [filterMap_cons_some hb, flatMap_cons, append_assoc, hbucket, hidSize, hmod, hmod', hread', ok_bind,
          if_neg (Nat.pos_iff_ne_zero.mp hpos)]
        refine hread.trans ?_
        simp
      · intro j hj
        have hne : j ≠ k := by
          rintro rfl
          rcases hj with hj | hj
          · simp at hj
          · simp [hb] at hj
        exact (hkeep j (hj.imp_left fun hj hmem => hj (by simp [hmem]))).trans (update_of_ne hne _ _)
      · intro j c hc
        rw [filterMap_cons_some hb] at hc
        cases j with
        | zero =>
          obtain rfl : b = c := by simpa using hc
          rw [hfirst, hkeep k (.inl hnd.1)]
          simp
        | succ j =>
          rw [hmap j c (by simpa using hc)]
          simp
          omega

lemma readBuckets_append {mapping : ℕ → ℤ} (hmap : idx.fanoutMapping = mapping)
    (hunmapped : ∀ k < 256, t.bucket? k = none → mapping k = noMapping) (g : Bucket → Bytes)
    (hg : ∀ b ∈ t.buckets, (g b).length = b.rows.length * 4) (hks : ∀ k ∈ ks, k < 256)
    (done : List Bytes) (rest : Bytes)
    (hpos : ∀ j b, (ks.filterMap t.bucket?)[j]? = some b → mapping b.first = (done.length + j : ℕ)) :
    readBuckets idx (done ++ (ks.filterMap t.bucket?).map zeros) ((ks.filterMap t.bucket?).flatMap g ++ rest) ks =
      .ok (done ++ (ks.filterMap t.bucket?).map g, rest) := by
  induction ks generalizing done with
  | nil => rfl
  | cons k ks ih =>
    have hks' : ∀ k ∈ ks, k < 256 := fun k hk => hks k (by simp [hk])
    cases hb : t.bucket? k with
    | none =>
      simp only [filterMap_cons_none hb] at hpos ⊢
      simp only [readBuckets, hmap, hunmapped k (hks k (by simp)) hb, if_true]
      exact ih hks' done hpos
    | some b =>
      have hmem := (t.bucket?_eq_some_iff.mp hb).1
      have hfirst := (t.bucket?_eq_some_iff.mp hb).2
      simp only [filterMap_cons_some hb] at hpos ⊢
      have hk : mapping k = (done.length : ℕ) := by
        rw [← hfirst]
        exact hpos 0 b rfl
      have hat : bucketAt (done ++ (b :: ks.filterMap t.bucket?).map zeros) (done.length : ℕ) =
          .ok (zeros b) := by
        simp [bucketAt]
      have hlen : (g b).length = (zeros b).length := by rw [hg b hmem, zeros, length_replicate]
      simp only [readBuckets, hmap, hk, hat, flatMap_cons, append_assoc, readFull_append hlen, ok_bind]
      rw [if_neg (by rw [noMapping]; omega)]
      have hset : (done ++ (b :: ks.filterMap t.bucket?).map zeros).set (done.length : ℤ).toNat (g b) =
          (done ++ [g b]) ++ (ks.filterMap t.bucket?).map zeros := by
        simp
      rw [hset, ih hks' (done ++ [g b]) fun j c hc => ?_]
      · simp
      · rw [hpos (j + 1) c (by simpa using hc)]
        simp
        omega

end Buckets

variable {x : MemoryIndex} {rs : List Row}

section Wide

variable {idx : MemoryIndex} {t : Table} {es : List Entry}

lemma marked_iff {word : ℕ} (h : word < 2 ^ 32) (rest : Bytes) :
    (digits 4 word ++ rest).getD 0 0 &&& 128 > 0 ↔ 2 ^ 31 ≤ word := by
  have hbyte : word / 256 ^ 3 < 2 ^ (7 + 1) := by omega
  have hfirst : (digits 4 word ++ rest).getD 0 0 = UInt8.ofNat (word / 256 ^ 3) := rfl
  rw [hfirst, gt_iff_lt, UInt8.lt_iff_toNat_lt, UInt8.toNat_and, UInt8.toNat_ofNat', Nat.mod_eq_of_lt hbyte]
  have := and_two_pow_ne_zero_iff hbyte
  simp only [UInt8.toNat_ofNat, Nat.reducePow, Nat.reduceMod] at this ⊢
  rw [Nat.pos_iff_ne_zero, this]
  omega

lemma countMarked_words (h : ∀ r ∈ rs, r.word < 2 ^ 32) :
    countMarked (words rs) rs.length = rs.countP fun r => 2 ^ 31 ≤ r.word := by
  induction rs with
  | nil => rfl
  | cons r rs ih =>
    have hr := h r (by simp)
    have hshift : ∀ p, (digits 4 r.word ++ words rs).getD ((p + 1) * 4) 0 =
        (words rs).getD (p * 4) 0 := by
      intro p
      rw [getD_append_right _ _ _ _ (by simp), length_digits]
      congr 1
      omega
    rw [countMarked] at ih ⊢
    rw [length_cons, range_succ_eq_map, countP_cons, countP_map, countP_cons,
      ← ih fun x hx => h x (by simp [hx]), words, flatMap_cons]
    simp only [comp_def, Nat.succ_eq_add_one, hshift, Nat.zero_mul]
    congr 1
    simp only [decide_eq_true_eq, marked_iff hr]

lemma sum_elim {α β : Type} (f : α → Option β) (g : β → ℕ) (l : List α) :
    (l.map fun a => (f a).elim 0 g).sum = ((l.filterMap f).map g).sum := by
  induction l with
  | nil => rfl
  | cons a l ih =>
    cases ha : f a with
    | none => simp [filterMap_cons_none ha, ha, ih]
    | some b => simp [filterMap_cons_some ha, ha, ih]

lemma Fitting.word_spec (hx : Fitting idx t es) {r : Row} (hr : r ∈ t.rows) :
    r.word < 2 ^ 32 ∧ (2 ^ 31 ≤ r.word ↔ r.entry.Wide) := by
  rcases hx.word_cases hr with ⟨hw, -, hlt⟩ | ⟨hw, j, hj, heq, -⟩
  · exact ⟨by omega, fun h => by omega, fun h => absurd h hw⟩
  · exact ⟨by omega, fun _ => hw, fun _ => by omega⟩

lemma countP_flatMap_rows (p : Row → Bool) : (t.buckets.map fun b => b.rows.countP p).sum = t.rows.countP p := by
  rw [Table.rows, countP_flatMap]
  rfl

lemma Fitting.marked (hx : Fitting idx t es) {ws : List Bytes} (hws : ws = t.buckets.map fun b => words b.rows)
    (hl : ∀ k < 256, t.bucket? k = none → x.fanoutMapping k = noMapping)
    (hm : ∀ k b, t.bucket? k = some b → ∃ p : ℕ, t.buckets[p]? = some b ∧ x.fanoutMapping k = p) :
    ((List.range 256).map fun k =>
      if x.fanoutMapping k = noMapping then 0 else
        let b := ws.getD (x.fanoutMapping k).toNat []
        countMarked b ((b.length + 3) / 4)).sum * 8 = (wideOffsets (t.rows.map Row.entry)).length := by
  have hterm : ∀ k ∈ List.range 256,
      (if x.fanoutMapping k = noMapping then 0
      else
        let b := ws.getD (x.fanoutMapping k).toNat []
        countMarked b ((b.length + 3) / 4)) =
      (t.bucket? k).elim 0 fun b => b.rows.countP fun r => r.entry.Wide := by
    intro k hk
    cases hb : t.bucket? k with
    | none => rw [if_pos (hl k (mem_range.mp hk) hb)]; rfl
    | some b =>
      obtain ⟨p, hp, hmap⟩ := hm k b hb
      have hmem := mem_of_getElem? hp
      have hget : ws.getD p [] = words b.rows := by
        rw [hws, getD_eq_getElem?_getD, getElem?_map, hp]
        rfl
      have hlen : (words b.rows).length = b.rows.length * 4 :=
        length_records fun _ _ => length_digits 4 _
      have hspec : ∀ r ∈ b.rows, r.word < 2 ^ 32 ∧ (2 ^ 31 ≤ r.word ↔ r.entry.Wide) := fun r hr =>
        hx.word_spec (t.mem_rows.mpr ⟨b, hmem, hr⟩)
      rw [if_neg (by rw [hmap, noMapping]; omega), hmap, Int.toNat_natCast]
      simp only [hget, hlen, Option.elim_some]
      rw [show (b.rows.length * 4 + 3) / 4 = b.rows.length by omega, countMarked_words fun r hr => (hspec r hr).1]
      exact countP_congr fun r hr => by simpa using (hspec r hr).2
  rw [map_congr_left hterm, sum_elim, t.filterMap_range, countP_flatMap_rows, wideOffsets,
    length_records fun _ _ => length_digits 8 _, ← countP_eq_length_filter, countP_map]
  rfl

end Wide

section Decode

variable {idx : MemoryIndex} {t : Table} {es : List Entry}

lemma readHash_of_length {h : ObjectID} (hf : h.format = .sha1) {s : Bytes} (hs : 20 ≤ s.length) :
    ∃ h', readHash h s = .ok (h', s.drop 20) := by
  refine ⟨h.write (s.take 20), ?_⟩
  simp [readHash, hf, ObjectFormat.size, readFull, split, hs]

lemma readChecksums_ok (hsize : x.objectIDSize = 0) {s : Bytes} (hs : 40 ≤ s.length) :
    ∃ c d, readChecksums x s = .ok { x with packfileChecksum := c, idxChecksum := d } := by
  have hidSize : x.idSize = 20 := by simp [MemoryIndex.idSize, hsize]
  have hreset : ∀ h : ObjectID, (resetBySize h 20).format = .sha1 := fun h => rfl
  obtain ⟨c, hc⟩ := readHash_of_length (hreset x.packfileChecksum) (by omega : 20 ≤ s.length)
  obtain ⟨d, hd⟩ := readHash_of_length (hreset x.idxChecksum) (by rw [length_drop]; omega : 20 ≤ (s.drop 20).length)
  refine ⟨c, d, ?_⟩
  simp only [readChecksums, hidSize, hc, hd, ok_bind, pure_ok]

lemma length_bytes (h : ObjectID) : 20 ≤ h.bytes.length := by
  rw [ObjectID.bytes, length_take, h.length_hash]
  cases h.format <;> decide

lemma Fitting.decode (hx : Fitting idx t es) (hrows : t.rows.length < 2 ^ 32)
    (hsmall : ∀ b ∈ t.buckets, b.rows.length * 20 < 2 ^ 32) {sums : Bytes} (hsums : 40 ≤ sums.length) :
    ∃ idx', Decode {} (idxHeader ++ (digits 4 2 ++
        (((List.range 256).flatMap fun k => digits 4 (t.upTo k)) ++ (t.rows.flatMap Row.name ++
        (crcs t.rows ++ (words t.rows ++
        (wideOffsets (t.rows.map Row.entry) ++ sums))))))) = .ok idx' ∧ Fitting idx' t es ∧
      idx'.offsetHash = none ∧ idx'.offsetHashIsFull = false := by
  have hrange : ∀ k ∈ List.range 256, k < 256 := fun k hk => mem_range.mp hk
  have hheader : ∀ rest, validateHeader (idxHeader ++ rest) = .ok rest := by
    intro rest
    simp only [validateHeader, readFull_append (show idxHeader.length = 4 from rfl), ok_bind, ne_eq,
      not_true_eq_false, if_false, pure_ok]
  have hversion : ∀ rest, readVersion {} (digits 4 2 ++ rest) = .ok ({ version := 2 }, rest) := by
    intro rest
    simp [readVersion, readUint32_append (n := 2) (by decide)]
  set rest₁ := crcs t.rows ++
    (words t.rows ++ (wideOffsets (t.rows.map Row.entry) ++ sums)) with hrest₁
  -- the tables of counts, of positions and of names
  obtain ⟨fanout, mapping₀, hfanout, hf, hm₀⟩ := @readFanout_append (fun k => t.upTo k)
    (fun k => countP_le_length.trans_lt hrows) { version := 2 } (List.range 256)
    (t.rows.flatMap Row.name ++ rest₁)
  have hcounts : ∀ f < 256, fanout f = t.upTo f := fun f hf' => by
    rw [hf, if_pos (mem_range.mpr hf')]
  obtain ⟨mapping, hnamesRead, hkeep, hmap⟩ := @readObjectNames_append
    { version := 2, fanout := fanout, fanoutMapping := mapping₀ } t (List.range 256) hrows hsmall hrange
    nodup_range rest₁ rfl hcounts
  rw [t.filterMap_range] at hnamesRead hmap
  rw [flatMap_rows] at hnamesRead
  simp only [nil_append, length_nil, Nat.zero_add] at hnamesRead hmap
  have hunmapped : ∀ k < 256, t.bucket? k = none → mapping k = noMapping := by
    intro k hk hb
    rw [hkeep k (.inr hb)]
    exact (hm₀ k).trans (if_pos (mem_range.mpr hk))
  have hmapped : ∀ k b, t.bucket? k = some b → ∃ p : ℕ, t.buckets[p]? = some b ∧ mapping k = p := by
    intro k b hb
    obtain ⟨hmem, rfl⟩ := t.bucket?_eq_some_iff.mp hb
    obtain ⟨p, hp⟩ := getElem?_of_mem hmem
    exact ⟨p, hp, hmap p b hp⟩
  -- the slices of checksums and of words
  have hslices : ∀ (x : MemoryIndex), x.fanoutMapping = mapping → ∀ (w : Row → ℕ) (rest : Bytes),
      readBuckets x (t.buckets.map zeros) ((t.rows.flatMap fun r => digits 4 (w r)) ++ rest)
        (List.range 256) =
      .ok (t.buckets.map fun b => b.rows.flatMap fun r => digits 4 (w r), rest) := by
    intro x hx' w rest
    have := @readBuckets_append x t (List.range 256) mapping hx' hunmapped
      (fun b => b.rows.flatMap fun r => digits 4 (w r)) (fun b _ => length_records fun _ _ => length_digits 4 _)
      hrange [] rest (by rw [t.filterMap_range]; simpa using hmap)
    rwa [t.filterMap_range, nil_append, nil_append, flatMap_rows] at this
  have hcrc : ∀ (x : MemoryIndex), x.fanoutMapping = mapping → x.crc32 = t.buckets.map zeros →
      readCRC32 x rest₁ = .ok ({ x with
        crc32 := t.buckets.map fun b => crcs b.rows },
        words t.rows ++ (wideOffsets (t.rows.map Row.entry) ++ sums)) := by
    intro x hx' hzero
    simp only [readCRC32, hzero, hrest₁, hslices x hx', ok_bind, pure_ok]
  have hoffsets : ∀ (x : MemoryIndex), x.fanoutMapping = mapping → x.offset32 = t.buckets.map zeros →
      x.offset64 = [] → readOffsets x (words t.rows ++
        (wideOffsets (t.rows.map Row.entry) ++ sums)) = .ok ({ x with
          offset32 := t.buckets.map fun b => words b.rows
          offset64 := wideOffsets (t.rows.map Row.entry) }, sums) := by
    intro x hx' hzero hempty
    have hmarked := hx.marked (x := x) rfl (by rwa [hx']) (by rwa [hx'])
    simp only [readOffsets, hzero, hslices x hx', bind, Except.bind, pure, Except.pure]
    split_ifs with hpos
    · simp only [readFull_append hmarked.symm]
    · have hnil : wideOffsets (t.rows.map Row.entry) = [] := by
        rw [← length_eq_zero_iff, ← hmarked, Nat.eq_zero_of_not_pos hpos, Nat.zero_mul]
      rw [hnil, nil_append, ← hempty]
  obtain ⟨c, d, hsum⟩ := readChecksums_ok (x := {
    version := 2
    fanout := fanout
    fanoutMapping := mapping
    names := t.buckets.map fun b => b.rows.flatMap Row.name
    crc32 := t.buckets.map fun b => crcs b.rows
    offset32 := t.buckets.map fun b => words b.rows
    offset64 := wideOffsets (t.rows.map Row.entry) }) rfl hsums
  refine ⟨_, Eq.trans ?_ hsum, ⟨⟨⟨⟨rfl, ?_, fun k b hb => hmap k b hb, rfl, rfl, rfl⟩, hcounts⟩, hx.rows, hx.perm,
    rfl⟩, hx.wide⟩, rfl, rfl⟩
  · simp only [Decode, hheader, hversion, hfanout, hnamesRead, hcrc, hoffsets, ok_bind]
  · exact fun f hf' hno => hunmapped f hf' (t.bucket?_eq_none_iff.mpr hno)

lemma Fitting.decode_encode (hx : Fitting idx t es) (hversion : idx.version = 2)
    (hcount : es.length < 2 ^ 32) (hsmall : ∀ b ∈ t.buckets, b.rows.length * 20 < 2 ^ 32) (sha1 : Bytes → Bytes) :
    ∃ data idx', idx.Encode sha1 = .ok data ∧ Decode {} data = .ok idx' ∧ Fitting idx' t es ∧
      idx'.offsetHash = none ∧ idx'.offsetHashIsFull = false := by
  have hrows : t.rows.length < 2 ^ 32 := by
    have := hx.perm.length_eq
    rw [length_map] at this
    omega
  obtain ⟨sum, henc⟩ := hx.encode sha1
  have hfanout : idx.encodeFanout = (List.range 256).flatMap fun k => digits 4 (t.upTo k) := by
    refine flatMap_congr fun k hk => ?_
    rw [hx.fanout k (mem_range.mp hk)]
  rw [hversion, hfanout, hx.offset64] at henc
  have hsums : 40 ≤ (idx.packfileChecksum.bytes ++ (idx.idxChecksum.write sum).bytes).length := by
    have h₁ := length_bytes idx.packfileChecksum
    have h₂ := length_bytes (idx.idxChecksum.write sum)
    rw [length_append]
    omega
  obtain ⟨idx', hdec, hx', hfresh⟩ := hx.decode hrows hsmall hsums
  exact ⟨_, idx', henc, hdec, hx', hfresh⟩

end Decode

def added (adds : List Entry) (h : ObjectID) : Option Entry :=
  (firsts adds).find? fun e => e.hash.bytes = h.bytes

def Entry.key (e : Entry) : Bytes × UInt32 × UInt64 := (e.hash.bytes, e.crc32, e.offset)

structure Answers (sort : (Entry → Entry → Bool) → List Entry → List Entry) (adds : List Entry)
    (idx : MemoryIndex) : Prop where
  contains : ∀ h, idx.Contains h = .ok (added adds h).isSome
  findOffset : ∀ h, (idx.FindOffset h).1 =
    (added adds h).elim (.error .objectNotFound) fun e => .ok (e.offset.toNat : ℤ)
  findCRC32 : ∀ h, idx.FindCRC32 h = (added adds h).elim (.error .objectNotFound) fun e => .ok e.crc32
  count : idx.Count = (adds.map Entry.hash).toFinset.card
  byOffset : ∃ l, idx.EntriesByOffset sort = .ok l ∧ (l.Pairwise fun a b => a.offset ≤ b.offset) ∧
    (l.map Entry.key).Perm ((firsts adds).map Entry.key)

section Answers

variable {idx : MemoryIndex} {t : Table} {adds : List Entry}
  {sort : (Entry → Entry → Bool) → List Entry → List Entry}

lemma added_eq_some (hfit : Fits (firsts adds)) {e : Entry} (he : e ∈ firsts adds) {h : ObjectID}
    (hbytes : e.hash.bytes = h.bytes) : added adds h = some e := by
  cases ha : added adds h with
  | none => exact absurd hbytes (by simpa using find?_eq_none.mp ha e he)
  | some x =>
    have hx := mem_of_find?_eq_some ha
    have hx' : x.hash.bytes = h.bytes := by simpa using find?_some ha
    rw [inj_on_of_nodup_map (firsts_hash_nodup adds) hx he (hfit.distinct x hx e he (hx'.trans hbytes.symm))]

lemma card_hashes (adds : List Entry) : (adds.map Entry.hash).toFinset.card = (firsts adds).length := by
  have hset : (adds.map Entry.hash).toFinset = ((firsts adds).map Entry.hash).toFinset := by
    induction adds with
    | nil => rfl
    | cons a as ih =>
      ext h
      have ih := Finset.ext_iff.mp ih h
      simp only [mem_toFinset, map_cons, firsts, mem_cons, mem_map, mem_filter, decide_eq_true_eq] at ih ⊢
      rw [ih]
      by_cases hh : h = a.hash
      · simp [hh]
      · simp only [hh, false_or]
        constructor
        · rintro ⟨e, he, rfl⟩
          exact ⟨e, ⟨he, hh⟩, rfl⟩
        · rintro ⟨e, ⟨he, -⟩, rfl⟩
          exact ⟨e, he, rfl⟩
  rw [hset, toFinset_card_of_nodup (firsts_hash_nodup adds), length_map]

lemma shown_key (h : ∀ r ∈ rs, r.entry.hash.format = .sha1) :
    (shown rs).map Entry.key = (rs.map Row.entry).map Entry.key := by
  induction rs with
  | nil => rfl
  | cons r rs ih =>
    have hlen : r.name.length = 20 := ObjectID.length_bytes (h r (by simp))
    have hbytes : (ObjectID.zeroHash.write (namesFrom (r :: rs))).bytes = r.name := by
      rw [namesFrom, filter_cons_of_pos (by simp), flatMap_cons]
      simp only [ObjectID.bytes, ObjectID.write, ObjectID.zeroHash, ObjectFormat.size]
      rw [take_append_of_le_length (by simp [hlen]), take_take, take_left' (by simp [hlen])]
    simp only [shown, map_cons, ih fun x hx => h x (by simp [hx]), Entry.key, hbytes]
    rfl

lemma Fitting.answers (hx : Fitting idx t (firsts adds)) (hfit : Fits (firsts adds)) (hsort : Sorts sort)
    (hoff : ∀ e ∈ adds, e.offset.toNat < 2 ^ 63) (hfresh : idx.offsetHashIsFull = false) : Answers sort adds idx := by
  -- a row that is found belongs to the first `Add` of its hash
  have hlookup : ∀ h, (∃ i e, idx.findHashIndex h = .ok (some i) ∧ e ∈ firsts adds ∧ added adds h = some e ∧
      idx.getOffset (idx.fanoutMapping (fan h)) i = .ok e.offset ∧
      idx.getCRC32 (idx.fanoutMapping (fan h)) i = .ok e.crc32) ∨
        idx.findHashIndex h = .ok none ∧ added adds h = none := by
    intro h
    rcases hx.findHashIndex h with ⟨k, i, b, r, hfind, hmap, hk, hi, hname⟩ | ⟨hfind, hno⟩
    · have hmem : r ∈ t.rows := t.mem_rows.mpr ⟨b, mem_of_getElem? hk, mem_of_getElem? hi⟩
      have he := hx.perm.mem_iff.mp (mem_map_of_mem hmem)
      rw [hmap]
      exact .inl ⟨i, _, hfind, he, added_eq_some hfit he hname, hx.getOffset hk hi, hx.getCRC32 hk hi⟩
    · refine .inr ⟨hfind, find?_eq_none.mpr fun e he => ?_⟩
      obtain ⟨r, hr, rfl⟩ := mem_map.mp (hx.perm.mem_iff.mpr he)
      simpa [Row.name] using hno r hr
  refine ⟨?_, ?_, ?_, ?_, ?_⟩
  · intro h
    rcases hlookup h with ⟨i, e, hfind, -, hadd, -⟩ | ⟨hfind, hadd⟩ <;> simp [MemoryIndex.Contains, hfind, hadd]
  · intro h
    rcases hlookup h with ⟨i, e, hfind, he, hadd, hoffset, -⟩ | ⟨hfind, hadd⟩
    · simp only [MemoryIndex.FindOffset, hfind, hoffset, hfresh, hadd, Option.elim_some,
        int64_of_lt (hoff _ (mem_of_mem_firsts he)), Bool.false_eq_true, if_false]
    · simp only [MemoryIndex.FindOffset, hfind, hadd, Option.elim_none]
  · intro h
    rcases hlookup h with ⟨i, e, hfind, -, hadd, -, hcrc⟩ | ⟨hfind, hadd⟩
    · simp only [MemoryIndex.FindCRC32, hfind, hadd, hcrc, ok_bind, Option.elim_some]
    · simp only [MemoryIndex.FindCRC32, hfind, hadd, ok_bind, Option.elim_none]
      rfl
  · rw [hx.count, card_hashes, ← hx.perm.length_eq, length_map]
  · refine ⟨_, hx.entriesByOffset sort, ?_, ?_⟩
    · refine (hsort.key (fun e : Entry => e.offset.toNat) (fun a b => ?_) _).imp UInt64.le_iff_toNat_le.mpr
      simp [UInt64.lt_iff_toNat_lt]
    · refine (((hsort _ _).1).map Entry.key).trans ?_
      rw [shown_key]
      · exact hx.perm.map Entry.key
      · intro r hr
        obtain ⟨b, -, hrb⟩ := t.mem_rows.mp hr
        exact b.sha1 r hrb

/-- The index of the writer and the decoded one answer for the objects that were added. -/
theorem indexOf_answers (hsort : Sorts sort) (hfit : Fits (firsts adds)) (hoff : ∀ e ∈ adds, e.offset.toNat < 2 ^ 63)
    (hsmall : ∀ f, (firsts adds).countP (fun e => fan e.hash = f) * 20 < 2 ^ 32) (checksum : ObjectID)
    (sha1 : Bytes → Bytes) : ∃ idx data idx', indexOf sort adds checksum = .ok idx ∧ Answers sort adds idx ∧
      idx.Encode sha1 = .ok data ∧ Decode {} data = .ok idx' ∧ Answers sort adds idx' := by
  obtain ⟨idx, t, hidx, hfor, hfresh, hversion, -⟩ := indexOf_indexFor hsort hfit checksum
  have hx : Fitting idx t (firsts adds) := ⟨hfor, hfit.wide⟩
  obtain ⟨data, idx', henc, hdec, hx', -, hfull⟩ := hx.decode_encode hversion hfit.count (hx.buckets_small hsmall) sha1
  exact ⟨idx, data, idx', hidx, hx.answers hfit hsort hoff hfresh.notFull, henc, hdec,
    hx'.answers hfit hsort hoff hfull⟩

end Answers

/-- Insertion sort, as `sort.Sort` does it for short lists. -/
def sortBy {α : Type} (less : α → α → Bool) (l : List α) : List α := l.insertionSort fun a b => !less b a

lemma sorts_sortBy {α : Type} : Sorts (α := α) sortBy := by
  intro less l
  refine ⟨List.perm_insertionSort _ l, fun hasymm htrans => ?_⟩
  have : Std.Total fun a b => (!less b a) = true := ⟨fun a b => by
    cases h : less b a
    · exact .inl rfl
    · exact .inr (by simp [hasymm b a h])⟩
  have : IsTrans α fun a b => (!less b a) = true := ⟨fun a b c hab hbc => by
    simp only [Bool.not_eq_true'] at *
    exact htrans c b a hbc hab⟩
  exact (pairwise_insertionSort _ l).imp (by simp)

def nameOf (x : UInt8) : ObjectID := ObjectID.zeroHash.write [x]

def twoObjects : List Entry :=
  [⟨nameOf 0x22, 7, 2 ^ 31 + 5⟩, ⟨nameOf 0x11, 8, 12⟩, ⟨nameOf 0x22, 9, 40⟩]

def twoObjectsSha1 (_ : Bytes) : Bytes :=
  [32, 35, 30, 214, 183, 125, 214, 83, 124, 213, 148, 163, 147, 71, 145, 192, 154, 67, 201, 98]

theorem indexOf_answers_twoObjects :
    ∃ idx data idx', indexOf sortBy twoObjects (nameOf 0x33) = .ok idx ∧ Answers sortBy twoObjects idx ∧
      idx.Encode twoObjectsSha1 = .ok data ∧ Decode {} data = .ok idx' ∧ Answers sortBy twoObjects idx' := by
  refine indexOf_answers sorts_sortBy ⟨by decide, by decide, by decide, by decide⟩ (by decide) ?_ _ _
  intro f
  have hle : (firsts twoObjects).countP (fun e => fan e.hash = f) ≤ (firsts twoObjects).length :=
    countP_le_length
  have hlen : (firsts twoObjects).length = 2 := by decide
  omega

theorem indexOf_sha256_not_found :
    (indexOf sortBy [⟨⟨List.replicate 32 0x11, .sha256, by decide⟩, 8, 12⟩] .zeroHash >>= fun idx =>
      idx.Contains ⟨List.replicate 32 0x11, .sha256, by decide⟩) = .ok false := by
  decide +kernel

end GoGit.Idx
