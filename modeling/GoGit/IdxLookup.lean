import GoGit.IdxTable
import GoGit.SortedTable

namespace GoGit.Idx

open ByteStream PathOrder List

section Slices

variable {α : Type} {l : List α} {a : α} {w : α → Bytes} {i n : ℕ}

lemma bucketAt_map {t : Table} {b : Bucket} {k : ℕ} (g : Bucket → Bytes) (hk : t.buckets[k]? = some b) :
    bucketAt (t.buckets.map g) k = .ok (g b) := by
  simp [bucketAt, hk]

lemma slice_record (hw : ∀ a ∈ l, (w a).length = n) (hi : l[i]? = some a) :
    slice (l.flatMap w) (i * n) (i * n + n) = .ok (w a) := by
  obtain ⟨hlt, _⟩ := List.getElem?_eq_some_iff.mp hi
  have hle : i * n + n ≤ l.length * n := by
    rw [← Nat.succ_mul]
    exact Nat.mul_le_mul_right n hlt
  rw [slice, if_pos ⟨by omega, by rwa [length_records hw]⟩, Nat.add_sub_cancel_left, record_at hw hi]

lemma slice_from (hw : ∀ a ∈ l, (w a).length = n) (hi : i ≤ l.length) :
    slice (l.flatMap w) (i * n) (l.flatMap w).length = .ok ((l.drop i).flatMap w) := by
  have hlen := length_records hw
  have hle : i * n ≤ l.length * n := Nat.mul_le_mul_right n hi
  rw [slice, if_pos ⟨by omega, le_rfl⟩, drop_records hw, take_of_length_le]
  rw [← drop_records hw, length_drop]

end Slices

section Lookup

variable {idx : MemoryIndex} {t : Table} {es : List Entry} {b : Bucket} {r : Row} {h : ObjectID}
  {f k i : ℕ}

lemma Lays.mapped_bucket (hl : Lays idx t) (hb : t.bucket? f = some b) :
    ∃ k : ℕ, t.buckets[k]? = some b ∧ idx.fanoutMapping f = k := by
  obtain ⟨hmem, rfl⟩ := t.bucket?_eq_some_iff.mp hb
  obtain ⟨k, hk⟩ := getElem?_of_mem hmem
  exact ⟨k, hk, hl.mapped k b hk⟩

lemma Lays.idSize_eq (hl : Lays idx t) : idx.idSize = 20 := by
  simp [MemoryIndex.idSize, hl.idSize]

lemma place_spec {n : ℕ} (hr : r ∈ place n es) : (¬ r.entry.Wide ∧ r.word = r.entry.offset.toNat) ∨
      (r.entry.Wide ∧ ∃ i, r.word = n + i + 2 ^ 31 ∧ (es.filter fun e => e.Wide)[i]? = some r.entry) := by
  induction es generalizing n with
  | nil => simp [place] at hr
  | cons e es ih =>
    rw [place] at hr
    split_ifs at hr with hw
    · rw [filter_cons_of_pos (by simpa using hw)]
      rcases mem_cons.mp hr with rfl | hr
      · exact .inr ⟨hw, 0, by simp, rfl⟩
      · rcases ih hr with h | ⟨hw', i, hword, hi⟩
        · exact .inl h
        · exact .inr ⟨hw', i + 1, by omega, by simpa using hi⟩
    · rw [filter_cons_of_neg (by simpa using hw)]
      rcases mem_cons.mp hr with rfl | hr
      · exact .inl ⟨hw, rfl⟩
      · exact ih hr

structure Fitting (idx : MemoryIndex) (t : Table) (es : List Entry) : Prop extends IndexFor idx t es where
  wide : es.countP (fun e => e.Wide) ≤ 2 ^ 31

lemma Fitting.word_cases (hx : Fitting idx t es) (hr : r ∈ t.rows) :
    (¬ r.entry.Wide ∧ r.word = r.entry.offset.toNat ∧ r.word < 2 ^ 31) ∨ (r.entry.Wide ∧
      ∃ j < 2 ^ 31, r.word = j + 2 ^ 31 ∧ ((t.rows.map Row.entry).filter fun e => e.Wide)[j]? = some r.entry) := by
  have hwide := hx.wide
  rcases place_spec (hx.rows ▸ hr) with ⟨hw, heq⟩ | ⟨hw, j, heq, hj⟩
  · exact .inl ⟨hw, heq, by unfold Entry.Wide at hw; omega⟩
  · have hj' := (List.getElem?_eq_some_iff.mp hj).1
    rw [← countP_eq_length_filter, hx.perm.countP_eq] at hj'
    exact .inr ⟨hw, j, by omega, by omega, hj⟩

lemma Fitting.getOffset (hx : Fitting idx t es) (hk : t.buckets[k]? = some b) (hi : b.rows[i]? = some r) :
    idx.getOffset k i = .ok r.entry.offset := by
  have hmem : r ∈ t.rows := t.mem_rows.mpr ⟨b, mem_of_getElem? hk, mem_of_getElem? hi⟩
  have hslice : slice (b.rows.flatMap fun r => digits 4 r.word) (i * 4) (i * 4 + 4) =
      .ok (digits 4 r.word) := slice_record (fun _ _ => length_digits 4 _) hi
  simp only [MemoryIndex.getOffset, hx.offset32, bucketAt_map _ hk, hslice, bind, Except.bind, pure, Except.pure]
  rcases hx.word_cases hmem with ⟨-, heq, hlt⟩ | ⟨-, j, hj, heq, hget⟩
  · rw [value_digits_of_lt (by omega), if_neg (by rw [and_two_pow_ne_zero_iff (by omega)]; omega), heq]
    simp
  · rw [value_digits_of_lt (by omega), if_pos (by rw [and_two_pow_ne_zero_iff (by omega)]; omega)]
    have hslice : slice (wideOffsets (t.rows.map Row.entry)) (j * 8) (j * 8 + 8) =
        .ok (digits 8 r.entry.offset.toNat) := slice_record (fun _ _ => length_digits 8 _) hget
    rw [show 8 * (r.word % 2 ^ 31) = j * 8 by omega, hx.offset64, hslice]
    simp only [ofNat_value_digits_uint64]

lemma Lays.getCRC32 (hl : Lays idx t) (hk : t.buckets[k]? = some b) (hi : b.rows[i]? = some r) :
    idx.getCRC32 k i = .ok r.entry.crc32 := by
  have hslice : slice (b.rows.flatMap fun r => digits 4 r.entry.crc32.toNat) (i * 4) (i * 4 + 4) =
      .ok (digits 4 r.entry.crc32.toNat) := slice_record (fun _ _ => length_digits 4 _) hi
  simp only [MemoryIndex.getCRC32, hl.crc32, bucketAt_map _ hk, hslice, ok_bind, pure_ok, ofNat_value_digits_uint32]

lemma searchLoop_spec {rs : List Row} (hsize : idx.idSize = 20) (hname : ∀ r ∈ rs, r.name.length = 20)
    (hsorted : rs.Pairwise fun a b => a.name < b.name) {fuel low high : ℕ} (hlt : low < high)
    (hhigh : high ≤ rs.length) (hfuel : high - low ≤ fuel) :
    (∃ i r, idx.searchLoop h (rs.flatMap Row.name) fuel low high = .ok (some i) ∧ rs[i]? = some r ∧
      r.name = h.bytes) ∨ (idx.searchLoop h (rs.flatMap Row.name) fuel low high = .ok none ∧
      ∀ i r, rs[i]? = some r → low ≤ i → i < high → r.name ≠ h.bytes) := by
  induction fuel generalizing low high with
  | zero => omega
  | succ fuel ih =>
    have hmid : (low + high) / 2 < rs.length := by omega
    have hget : rs[(low + high) / 2]? = some rs[(low + high) / 2] := getElem?_eq_getElem hmid
    set m := (low + high) / 2 with hm
    have hlow : low ≤ m := by omega
    have hhigh' : m < high := by omega
    have hslice : slice (rs.flatMap Row.name) (m * 20) (m * 20 + 20) = .ok rs[m].name :=
      slice_record hname hget
    simp only [MemoryIndex.searchLoop, hsize, ← hm, hslice, ok_bind, pure_ok]
    -- the loop goes on with the part of the table in which the name can be
    have hnext : ∀ low' high', low ≤ low' → high' ≤ high → high' - low' < high - low →
        (∀ i r, rs[i]? = some r → i < low' ∨ high' ≤ i → low ≤ i → i < high → r.name ≠ h.bytes) →
        ∀ {res}, res = (if low' ≥ high' then .ok none else idx.searchLoop h (rs.flatMap Row.name) fuel low' high') →
        (∃ i r, res = .ok (some i) ∧ rs[i]? = some r ∧ r.name = h.bytes) ∨
          (res = .ok none ∧ ∀ i r, rs[i]? = some r → low ≤ i → i < high → r.name ≠ h.bytes) := by
      rintro low' high' hlow' hhigh' hless hout _ rfl
      by_cases hend : low' ≥ high'
      · rw [if_pos hend]
        exact .inr ⟨rfl, fun i r hi => hout i r hi (by omega)⟩
      · rw [if_neg hend]
        refine (@ih low' high' (by omega) (by omega) (by omega)).imp_right fun ⟨h₁, h₂⟩ => ⟨h₁, fun i r hi => ?_⟩
        by_cases hi' : i < low' ∨ high' ≤ i
        · exact hout i r hi hi'
        · exact fun _ _ => h₂ i r hi (by omega) (by omega)
    rcases lt_trichotomy h.bytes rs[m].name with hcmp | hcmp | hcmp
    · have hval : bytesCompare h.bytes rs[m].name = -1 := by rw [bytesCompare, if_pos hcmp]
      refine hnext low m le_rfl hhigh'.le (by omega) (fun i r hi hor hle _ => ?_) (by simp [hval])
      exact SortedTable.ne_of_lt_key hsorted hget hcmp hi (by omega)
    · have hval : bytesCompare h.bytes rs[m].name = 0 := by
        rw [bytesCompare, if_neg (by rw [hcmp]; exact lt_irrefl _), if_pos hcmp]
      simp only [hval, if_true]
      exact .inl ⟨m, _, rfl, hget, hcmp.symm⟩
    · have hval : bytesCompare h.bytes rs[m].name = 1 := by
        rw [bytesCompare, if_neg hcmp.asymm, if_neg hcmp.ne']
      refine hnext (m + 1) high (by omega) le_rfl (by omega) (fun i r hi hor _ hlt => ?_) (by simp [hval])
      exact SortedTable.ne_of_key_lt hsorted hget hcmp hi (by omega)

lemma Lays.findHashIndex (hl : Lays idx t) (h : ObjectID) :
    (∃ (k : ℕ) (i : ℕ) (b : Bucket) (r : Row), idx.findHashIndex h = .ok (some i) ∧
      idx.fanoutMapping (fan h) = k ∧ t.buckets[k]? = some b ∧ b.rows[i]? = some r ∧ r.name = h.bytes) ∨
    (idx.findHashIndex h = .ok none ∧ ∀ r ∈ t.rows, r.name ≠ h.bytes) := by
  have hfan : ∀ r : Row, r.name = h.bytes → fan r.entry.hash = fan h := by
    intro r hr
    rw [fan, fan, ← hr]
    rfl
  cases hb : t.bucket? (fan h) with
  | none =>
    right
    have hno := t.bucket?_eq_none_iff.mp hb
    constructor
    · simp [MemoryIndex.findHashIndex, hl.unmapped (fan h) (fan_lt h) hno]
    · intro r hr heq
      obtain ⟨b, hb', hrb⟩ := t.mem_rows.mp hr
      exact hno b hb' ((b.fans r hrb).symm.trans (hfan r heq))
  | some b =>
    obtain ⟨k, hk, hmap⟩ := hl.mapped_bucket hb
    have hklt : k < t.buckets.length := (List.getElem?_eq_some_iff.mp hk).1
    have hlen : (b.rows.flatMap fun r => digits 4 r.word).length / 4 = b.rows.length := by
      rw [length_records fun _ _ => length_digits 4 _]
      omega
    have hpos : 0 < b.rows.length := length_pos_of_ne_nil b.nonempty
    have hfind : idx.findHashIndex h =
        idx.searchLoop h (b.rows.flatMap Row.name) (b.rows.length + 1) 0 b.rows.length := by
      simp only [MemoryIndex.findHashIndex, hmap, noMapping, hl.names, hl.offset32, bucketAt_map _ hk, length_map,
        hlen, ok_bind, pure_ok]
      rw [if_neg (by omega), if_neg (by omega), if_neg (by omega)]
    have hsorted : b.rows.Pairwise fun a b => a.name < b.name := by
      obtain ⟨before, behind, hrows, -⟩ := t.split_rows hb
      have := t.sorted
      rw [← Table.rows, hrows, pairwise_append, pairwise_append] at this
      exact this.1.2.1
    rw [hfind]
    rcases searchLoop_spec (h := h) hl.idSize_eq (fun r hr => b.length_name hr) hsorted hpos le_rfl
      (by omega : b.rows.length - 0 ≤ b.rows.length + 1) with ⟨i, r, hs, hi, hr⟩ | ⟨hs, hno⟩
    · exact .inl ⟨k, i, b, r, hs, hmap, hk, hi, hr⟩
    · refine .inr ⟨hs, fun r hr heq => ?_⟩
      obtain ⟨c, hc, hrc⟩ := t.mem_bucket hr
      rw [hfan r heq, hb] at hc
      cases hc
      obtain ⟨i, hi⟩ := getElem?_of_mem hrc
      exact hno i r hi (by omega) (List.getElem?_eq_some_iff.mp hi).1 heq

end Lookup

def Table.below (t : Table) (f : ℕ) : ℕ := t.rows.countP fun r => fan r.entry.hash < f

def namesFrom : List Row → Bytes
  | [] => []
  | r :: rs => ((r :: rs).filter fun x => fan x.entry.hash = fan r.entry.hash).flatMap Row.name

/-- The entries that the iterator makes of rows: a name is written together with those behind it. -/
def shown : List Row → List Entry
  | [] => []
  | r :: rs => ⟨ObjectID.zeroHash.write (namesFrom (r :: rs)), r.entry.crc32, r.entry.offset⟩ :: shown rs

section Iter

variable {idx : MemoryIndex} {t : Table} {es : List Entry} {b : Bucket} {r : Row} {f n s : ℕ}

lemma countP_const {l : List Row} {p : Row → Bool} (q : Bool) (h : ∀ r ∈ l, p r = q) :
    l.countP p = if q then l.length else 0 := by
  cases q with
  | true => simpa using h
  | false => simpa [countP_eq_zero] using h

lemma Table.below_split (hb : t.bucket? f = some b) : ∃ before behind, t.rows = before ++ b.rows ++ behind ∧
    before.length = t.below f ∧ (∀ r ∈ before, fan r.entry.hash < f) ∧
    (∀ r ∈ behind, f < fan r.entry.hash) ∧ t.upTo f = t.below f + b.rows.length := by
  obtain ⟨before, behind, hrows, hbefore, hin, hbehind⟩ := t.split_rows hb
  have hbelow : before.length = t.below f := by
    rw [Table.below, hrows, countP_append, countP_append, countP_const true fun r hr => by simpa using hbefore r hr,
      countP_const false fun r hr => by simpa using (hin r hr).ge,
      countP_const false fun r hr => by simpa using (hbehind r hr).le]
    rfl
  refine ⟨before, behind, hrows, hbelow, hbefore, hbehind, ?_⟩
  rw [Table.upTo, hrows, countP_append, countP_append, countP_const true fun r hr => by simpa using (hbefore r hr).le,
    countP_const true fun r hr => by simpa using (hin r hr).le,
    countP_const false fun r hr => by simpa using hbehind r hr, hbelow]
  rfl

lemma Table.upTo_of_none (hb : t.bucket? f = none) : t.upTo f = t.below f := by
  refine countP_congr fun r hr => ?_
  obtain ⟨b, hb', hrb⟩ := t.mem_rows.mp hr
  have := t.bucket?_eq_none_iff.mp hb b hb'
  rw [← b.fans r hrb] at this
  simp only [decide_eq_true_eq]
  omega

lemma Table.below_succ (t : Table) (f : ℕ) : t.below (f + 1) = t.upTo f := by
  simp only [Table.below, Table.upTo, Nat.lt_succ_iff]

lemma Table.drop_rows (hb : t.bucket? f = some b) (hs : b.rows[s]? = some r) :
    t.rows.drop (t.below f + s) = r :: t.rows.drop (t.below f + s + 1) ∧
      namesFrom (t.rows.drop (t.below f + s)) = (b.rows.drop s).flatMap Row.name := by
  obtain ⟨before, behind, hrows, hlen, -, hbehind, -⟩ := t.below_split hb
  obtain ⟨hs', rfl⟩ := List.getElem?_eq_some_iff.mp hs
  have hdrop : ∀ i, i ≤ b.rows.length → t.rows.drop (t.below f + i) = b.rows.drop i ++ behind := by
    intro i hi
    rw [hrows, ← hlen, append_assoc, drop_append, drop_append]
    simp [Nat.sub_eq_zero_of_le hi]
  have hcons : t.rows.drop (t.below f + s) = b.rows[s] :: t.rows.drop (t.below f + s + 1) := by
    rw [Nat.add_assoc, hdrop s hs'.le, hdrop (s + 1) hs', drop_eq_getElem_cons hs']
    rfl
  refine ⟨hcons, ?_⟩
  have hfirst : b.first = f := (t.bucket?_eq_some_iff.mp hb).2
  rw [hcons, namesFrom, ← hcons, hdrop s hs'.le, filter_append]
  have hfan : fan b.rows[s].entry.hash = f := (b.fans _ (getElem_mem hs')).trans hfirst
  rw [filter_eq_self.mpr, filter_eq_nil_iff.mpr, append_nil]
  · intro x hx
    have := hbehind x hx
    simp only [hfan, decide_eq_true_eq]
    omega
  · intro x hx
    simpa [hfan, ← hfirst] using b.fans x (mem_of_mem_drop hx)

lemma Table.below_mono (t : Table) {f g : ℕ} (h : f ≤ g) : t.below f ≤ t.below g := by
  refine countP_mono_left fun r _ hr => ?_
  simp only [decide_eq_true_eq] at hr ⊢
  omega

structure IterAt (t : Table) (i : MemoryIndex.EntryIter) (n : ℕ) : Prop where
  total : i.total = n
  level : i.firstLevel ≤ 256
  place : n = t.below i.firstLevel + i.secondLevel
  inside : n ≤ t.upTo i.firstLevel

lemma Table.below_top (t : Table) {f : ℕ} (hf : 256 ≤ f) : t.below f = t.rows.length := by
  rw [Table.below, countP_eq_length]
  intro r _
  have := fan_lt r.entry.hash
  simp only [decide_eq_true_eq]
  omega

variable {i : MemoryIndex.EntryIter}

lemma IterAt.advance (hi : IterAt t i n) (hlevel : i.firstLevel < 256)
    (hend : t.upTo i.firstLevel ≤ n) : IterAt t { i with firstLevel := i.firstLevel + 1, secondLevel := 0 } n := by
  have hsucc := t.below_succ i.firstLevel
  have hmono := t.below_mono (i.firstLevel + 1).le_succ
  have hinside := hi.inside
  rw [Nat.succ_eq_add_one, t.below_succ (i.firstLevel + 1)] at hmono
  exact ⟨hi.total, hlevel, by simp only; omega, by simp only; omega⟩

lemma Fitting.entryNext (hx : Fitting idx t es) (hi : IterAt t i n)
    (hn : n < t.rows.length) {fuel : ℕ} (hfuel : 256 - i.firstLevel < fuel) :
    ∃ r i', t.rows.drop n = r :: t.rows.drop (n + 1) ∧ IterAt t i' (n + 1) ∧
      idx.entryNext fuel i = .ok (⟨ObjectID.zeroHash.write (namesFrom (t.rows.drop n)), r.entry.crc32,
        r.entry.offset⟩, i') := by
  induction fuel generalizing i with
  | zero => omega
  | succ fuel ih =>
    have hlevel : i.firstLevel < 256 := by
      by_contra hge
      have := t.below_top (f := i.firstLevel) (by omega)
      have := hi.place
      omega
    have hfanout := hx.fanout i.firstLevel hlevel
    by_cases hend : i.total ≥ idx.fanout i.firstLevel
    · have hat := hi.advance hlevel (by rw [← hfanout, ← hi.total]; exact hend)
      obtain ⟨r, i', hdrop, hat', hnext⟩ := ih hat (by simp only; omega)
      refine ⟨r, i', hdrop, hat', ?_⟩
      rw [MemoryIndex.entryNext, if_neg (by omega), if_pos hend]
      exact hnext
    · have hlt : n < t.upTo i.firstLevel := by
        rw [← hfanout, ← hi.total]
        omega
      cases hb : t.bucket? i.firstLevel with
      | none =>
        have := t.upTo_of_none hb
        have := hi.place
        omega
      | some b =>
        obtain ⟨-, -, -, -, -, -, hup⟩ := t.below_split hb
        have hplace := hi.place
        have hs : i.secondLevel < b.rows.length := by omega
        have hget : b.rows[i.secondLevel]? = some b.rows[i.secondLevel] := getElem?_eq_getElem hs
        obtain ⟨k, hk, hmap⟩ := hx.mapped_bucket hb
        obtain ⟨hcons, hnames⟩ := t.drop_rows hb hget
        rw [← hplace] at hcons hnames
        have hat : IterAt t { i with secondLevel := i.secondLevel + 1, total := i.total + 1 } (n + 1) :=
          ⟨by rw [hi.total], hi.level, by rw [hplace, Nat.add_assoc], hlt⟩
        refine ⟨_, _, hcons, hat, ?_⟩
        have hslice : slice (b.rows.flatMap Row.name) (i.secondLevel * 20) (b.rows.flatMap Row.name).length =
            .ok ((b.rows.drop i.secondLevel).flatMap Row.name) :=
          slice_from (fun r hr => b.length_name hr) hs.le
        rw [MemoryIndex.entryNext, if_neg (by omega), if_neg hend]
        simp only [hmap, hx.names, bucketAt_map _ hk, hx.idSize_eq, hslice, hx.getOffset hk hget, hx.getCRC32 hk hget,
          ← hnames, ok_bind, pure_ok]

lemma Fitting.nextEntries (hx : Fitting idx t es) (hi : IterAt t i n) {m : ℕ}
    (hm : n + m = t.rows.length) : ∃ i', idx.nextEntries m i = .ok (shown (t.rows.drop n), i') := by
  induction m generalizing i n with
  | zero =>
    rw [drop_of_length_le (by omega)]
    exact ⟨i, rfl⟩
  | succ m ih =>
    obtain ⟨r, i₁, hdrop, hat, hnext⟩ := hx.entryNext hi (by omega) (by omega : 256 - i.firstLevel < 257)
    obtain ⟨i₂, hrest⟩ := ih hat (by omega)
    refine ⟨i₂, ?_⟩
    simp only [MemoryIndex.nextEntries, hnext, hrest, ok_bind, pure_ok]
    rw [hdrop, shown]

lemma Fitting.count (hx : Fitting idx t es) : idx.Count = t.rows.length := by
  rw [MemoryIndex.Count, hx.fanout 255 (by decide), ← t.below_succ, t.below_top le_rfl]

lemma IterAt.start (t : Table) : IterAt t {} 0 := ⟨rfl, by decide, by simp [Table.below], by simp⟩

lemma Fitting.entriesByOffset (hx : Fitting idx t es) (sort : (Entry → Entry → Bool) → List Entry → List Entry) :
    idx.EntriesByOffset sort = .ok (sort (fun a b => a.offset < b.offset) (shown t.rows)) := by
  obtain ⟨i, hnext⟩ := hx.nextEntries (IterAt.start t) (Nat.zero_add _)
  rw [drop_zero] at hnext
  simp only [MemoryIndex.EntriesByOffset, hx.count, hnext, ok_bind, pure_ok]

lemma Fitting.buckets_small (hx : Fitting idx t es)
    (hsmall : ∀ f, es.countP (fun e => fan e.hash = f) * 20 < 2 ^ 32) :
    ∀ b ∈ t.buckets, b.rows.length * 20 < 2 ^ 32 := by
  intro b hb
  obtain ⟨before, behind, hrows, -⟩ := t.split_rows (t.bucket?_eq_some_iff.mpr ⟨hb, rfl⟩)
  have hle : b.rows.length ≤ es.countP fun e => fan e.hash = b.first := by
    rw [← hx.perm.countP_eq, hrows, countP_map, countP_append, countP_append]
    rw [@countP_const b.rows _ true fun r hr => by simpa using b.fans r hr, if_pos rfl]
    omega
  have := hsmall b.first
  omega

end Iter

end GoGit.Idx
