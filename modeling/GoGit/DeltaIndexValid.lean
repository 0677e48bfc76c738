import GoGit.DeltaIndex

namespace GoGit.Delta

open List

variable {i : ℕ} {α : Type*}

lemma setAt_of_lt {xs : List α} (x : α) (h : i < xs.length) : setAt xs i x = some (xs.set i x) := if_pos h

lemma exists_getElem?_of_lt {xs : List α} (h : i < xs.length) :
    ∃ x, xs[i]? = some x := ⟨xs[i], getElem?_eq_getElem h⟩

lemma getElem?_eq_some_getD {xs : List ℕ} (h : i < xs.length) : xs[i]? = some (xs.getD i 0) := by
  rw [getElem?_eq_getElem h, getD_eq_getElem _ _ h]

lemma T_entry (h : i < 256) : ∃ t, T[i]? = some t ∧ t < 2 ^ 32 ∧ t.testBit 31 = i.testBit 0 := by
  have hlen : T.length = 256 := by decide +kernel
  have hall : ∀ i : Fin 256, T.getD i.val 0 < 2 ^ 32 ∧
      (T.getD i.val 0).testBit 31 = i.val.testBit 0 := by decide +kernel
  exact ⟨_, getElem?_eq_some_getD (by omega), hall ⟨i, h⟩⟩

variable {x : ℕ}

lemma lt_of_testBit_false (h : x < 2 ^ 32) (hb : x.testBit 31 = false) : x < 2 ^ 31 := by
  rw [Nat.testBit_eq_decide_div_mod_eq, decide_eq_false_iff_not] at hb
  omega

lemma hashByte_lt {hash : ℕ} (b : UInt8) (h : hash < 2 ^ 31) :
    ∃ hash', hashByte hash b = some hash' ∧ hash' < 2 ^ 31 := by
  have hi : hash >>> 23 < 256 := by
    rw [Nat.shiftRight_eq_div_pow]
    omega
  obtain ⟨t, ht, htlt, htop⟩ := T_entry hi
  have hblt : b.toNat < 2 ^ 32 := lt_of_lt_of_le b.toNat_lt (by norm_num)
  have hshift : (hash <<< 8) % 2 ^ 32 < 2 ^ 32 := Nat.mod_lt _ (by norm_num)
  refine ⟨((hash <<< 8) % 2 ^ 32 ||| b.toNat) ^^^ t, by simp [hashByte, ht], ?_⟩
  apply lt_of_testBit_false
  · exact Nat.xor_lt_two_pow (Nat.or_lt_two_pow hshift hblt) htlt
  · have hb : b.toNat.testBit 31 = false :=
      Nat.testBit_eq_false_of_lt (lt_of_lt_of_le b.toNat_lt (by norm_num))
    have hs : ((hash <<< 8) % 2 ^ 32).testBit 31 = hash.testBit 23 := by
      rw [Nat.testBit_mod_two_pow, Nat.testBit_shiftLeft]
      simp
    rw [Nat.testBit_xor, Nat.testBit_or, hs, hb, htop, Nat.testBit_shiftRight]
    simp

variable {raw : Bytes} {ptr : ℕ}

lemma hashStart_lt (h : ptr + 4 ≤ raw.length) : ∃ hash, hashStart raw ptr = some hash ∧ hash < 2 ^ 31 := by
  obtain ⟨b0, h0⟩ := exists_getElem?_of_lt (show ptr < raw.length by omega)
  obtain ⟨b1, h1⟩ := exists_getElem?_of_lt (show ptr + 1 < raw.length by omega)
  obtain ⟨b2, h2⟩ := exists_getElem?_of_lt (show ptr + 2 < raw.length by omega)
  obtain ⟨b3, h3⟩ := exists_getElem?_of_lt (show ptr + 3 < raw.length by omega)
  have hw : b0.toNat <<< 24 ||| b1.toNat <<< 16 ||| b2.toNat <<< 8 ||| b3.toNat < 2 ^ 32 := by
    have := b0.toNat_lt
    have := b1.toNat_lt
    have := b2.toNat_lt
    have := b3.toNat_lt
    refine Nat.or_lt_two_pow (Nat.or_lt_two_pow (Nat.or_lt_two_pow ?_ ?_) ?_) ?_ <;> omega
  set w := b0.toNat <<< 24 ||| b1.toNat <<< 16 ||| b2.toNat <<< 8 ||| b3.toNat
  have hi : w >>> 31 < 256 := by
    rw [Nat.shiftRight_eq_div_pow]
    omega
  obtain ⟨t, ht, htlt, htop⟩ := T_entry hi
  refine ⟨w ^^^ t, by simp [hashStart, h0, h1, h2, h3, ht, w], ?_⟩
  apply lt_of_testBit_false (Nat.xor_lt_two_pow hw htlt)
  rw [Nat.testBit_xor, htop, Nat.testBit_shiftRight]
  simp

lemma hashBlock_isSome (h : ptr + blksz ≤ raw.length) : ∃ hash, hashBlock raw ptr = some hash := by
  unfold blksz at h
  obtain ⟨hash, hs, hlt⟩ := hashStart_lt (show ptr + 4 ≤ raw.length by omega)
  have hfold : ∀ (is : List ℕ) (hash : ℕ), hash < 2 ^ 31 → (∀ i ∈ is, i < 16) →
      ∃ hash', is.foldlM (fun hash i => do
        let b ← raw[ptr + i]?
        hashByte hash b) hash = some hash' := by
    intro is
    induction is with
    | nil => intro hash _ _; exact ⟨hash, rfl⟩
    | cons i is ih =>
      intro hash hlt his
      have hi := his i (by simp)
      obtain ⟨b, hb⟩ := exists_getElem?_of_lt (show ptr + i < raw.length by omega)
      obtain ⟨hash', hh, hlt'⟩ := hashByte_lt b hlt
      obtain ⟨last, hl⟩ := ih hash' hlt' fun j hj => his j (by simp [hj])
      exact ⟨last, by simpa [foldlM_cons, hb, hh] using hl⟩
  obtain ⟨last, hl⟩ := hfold [4, 5, 6, 7, 8, 9, 10, 11, 12, 13, 14, 15] hash hlt (by decide)
  refine ⟨last, ?_⟩
  rw [hashBlock, hs]
  exact hl

lemma len8tab_entry (h : x < 256) : ∃ l, len8tab[x]? = some l ∧ l ≤ 8 ∧ (x ≠ 0 → 1 ≤ l) := by
  have hlen : len8tab.length = 256 := by decide +kernel
  have hall : ∀ i : Fin 256, len8tab.getD i.val 0 ≤ 8 ∧
      (i.val ≠ 0 → 1 ≤ len8tab.getD i.val 0) := by decide +kernel
  exact ⟨_, getElem?_eq_some_getD (by omega), hall ⟨x, h⟩⟩

lemma leadingZeros_lt (hpos : 0 < x) (h : x < 2 ^ 32) : ∃ z, leadingZeros x = some z ∧ z < 32 := by
  have hentry : ∀ y n, y < 256 → y ≠ 0 ∨ 0 < n →
      ∃ z, (len8tab[y]?.bind fun len => some (32 - (n + len))) = some z ∧ z < 32 := by
    intro y n hy hor
    obtain ⟨l, hl, hle, hone⟩ := len8tab_entry hy
    exact ⟨32 - (n + l), by rw [hl, Option.bind_some], by omega⟩
  unfold leadingZeros
  simp only [Nat.shiftLeft_eq, Nat.shiftRight_eq_div_pow]
  split_ifs <;> exact hentry _ _ (by omega) (by omega)

lemma tableSize_two_pow {n : ℕ} (hpos : 0 < n) (h : n < 2 ^ 32) : ∃ k, tableSize n = some (2 ^ k) := by
  have hmod : n % 2 ^ 32 = n := Nat.mod_eq_of_lt h
  obtain ⟨z, hz, hlt⟩ := leadingZeros_lt hpos h
  have hne : 32 - z ≠ 0 := by omega
  unfold tableSize
  rw [hmod, hz]
  simp only [Option.bind_eq_bind, Option.bind_some, hne, ↓reduceIte, Nat.shiftLeft_eq, one_mul,
    Option.pure_def, Option.some.injEq]
  split_ifs
  · exact ⟨32 - z - 1 + 1, by rw [pow_succ]; ring⟩
  · exact ⟨32 - z - 1, rfl⟩

/-- Every link points strictly downwards; `0` ends a chain. -/
def Descends (next : List ℕ) : Prop := ∀ i t : ℕ, next[i]? = some t → t = 0 ∨ t < i

structure DeltaIndexScanner.Inv (s : DeltaIndexScanner) (n k : ℕ) : Prop where
  table_length : s.table.length = 2 ^ k
  mask_eq : s.mask = 2 ^ k - 1
  entries_length : s.entries.length = n + 1
  next_length : s.next.length = n + 1
  table_le : ∀ t ∈ s.table, t ≤ s.count
  count_le : s.count ≤ n
  descends : Descends s.next

lemma and_mask_lt (key k : ℕ) : key &&& (2 ^ k - 1) < 2 ^ k := by
  rw [Nat.and_two_pow_sub_one_eq_mod]
  exact Nat.mod_lt _ (by positivity)

variable {next : List ℕ}

lemma descends_set {i t : ℕ} (h : Descends next) (ht : t = 0 ∨ t < i) : Descends (next.set i t) := by
  intro j u hu
  by_cases hij : i = j
  · subst hij
    rw [getElem?_set_self'] at hu
    cases hn : next[i]? with
    | none => simp [hn] at hu
    | some v =>
      simp only [hn, Option.map_eq_map, Option.map_some, Function.const_apply, Option.some.injEq] at hu
      subst hu
      exact ht
  · rw [getElem?_set_ne hij] at hu
    exact h j u hu

lemma scanBlock_inv {s : DeltaIndexScanner} {n k : ℕ} (hs : s.Inv n k) (hroom : s.count < n)
    (lastHash key ptr : ℕ) : ∃ s', s.scanBlock lastHash key ptr = some s' ∧ s'.Inv n k ∧ s'.count ≤ s.count + 1 := by
  have htIdx : key &&& s.mask < s.table.length := by
    rw [hs.mask_eq, hs.table_length]
    exact and_mask_lt key k
  obtain ⟨head, hhead⟩ := exists_getElem?_of_lt htIdx
  have hle : head ≤ s.count := hs.table_le head (mem_of_getElem? hhead)
  have hentries := hs.entries_length
  have hnext := hs.next_length
  by_cases hrun : head ≠ 0 ∧ lastHash = key
  · have hset := setAt_of_lt ptr (show head < s.entries.length by omega)
    refine ⟨{ s with entries := s.entries.set head ptr }, ?_, ?_, by simp⟩
    · simp [DeltaIndexScanner.scanBlock, hhead, hrun, hset]
    · exact ⟨hs.table_length, hs.mask_eq, by simpa using hentries, hnext, hs.table_le, hs.count_le, hs.descends⟩
  · have he := setAt_of_lt ptr (show s.count + 1 < s.entries.length by omega)
    have hn := setAt_of_lt head (show s.count + 1 < s.next.length by omega)
    have ht := setAt_of_lt (s.count + 1) htIdx
    refine ⟨{ s with
      entries := s.entries.set (s.count + 1) ptr
      next := s.next.set (s.count + 1) head
      table := s.table.set (key &&& s.mask) (s.count + 1)
      count := s.count + 1 }, ?_, ?_, le_rfl⟩
    · simp [DeltaIndexScanner.scanBlock, hhead, hrun, he, hn, ht]
    · refine ⟨by simpa using hs.table_length, hs.mask_eq, by simpa using hentries,
        by simpa using hnext, ?_, hroom, descends_set hs.descends (by omega)⟩
      intro t htm
      rcases mem_or_eq_of_mem_set htm with htm | rfl
      · have := hs.table_le t htm
        simp only
        omega
      · exact le_rfl

lemma scanBlocks_inv {buf : Bytes} {n k : ℕ} (hbuf : n * blksz ≤ buf.length) :
    ∀ (m lastHash : ℕ) (s : DeltaIndexScanner), s.Inv n k → s.count + m ≤ n →
      ∃ s', DeltaIndexScanner.scanBlocks buf m lastHash s = some s' ∧ s'.Inv n k := by
  intro m
  induction m with
  | zero => intro _ s hs _; exact ⟨s, rfl, hs⟩
  | succ m ih =>
    intro lastHash s hs hroom
    have hptr : m * blksz + blksz ≤ buf.length := by
      have := Nat.mul_le_mul_right blksz (show m + 1 ≤ n by omega)
      rw [Nat.succ_mul] at this
      omega
    obtain ⟨key, hkey⟩ := hashBlock_isSome hptr
    obtain ⟨s₁, h₁, hs₁, hc⟩ := scanBlock_inv hs (by omega) lastHash key (m * blksz)
    obtain ⟨s₂, h₂, hs₂⟩ := ih key s₁ hs₁ (by omega)
    exact ⟨s₂, by simp [DeltaIndexScanner.scanBlocks, hkey, h₁, h₂], hs₂⟩

inductive Chain (next : List ℕ) : ℕ → ℕ → Prop
  | last {h : ℕ} (stop : next[h]? = some 0) : Chain next h 1
  | link {h h' n : ℕ} (step : next[h]? = some h') (more : h' ≠ 0) (rest : Chain next h' n) :
      Chain next h (n + 1)

/-- Some links may have been replaced by the end of the chain. -/
def Truncates (next next' : List ℕ) : Prop :=
  next'.length = next.length ∧
    ∀ i t : ℕ, next[i]? = some t → next'[i]? = some t ∨ next'[i]? = some 0

lemma Truncates.refl (next : List ℕ) : Truncates next next := ⟨rfl, fun _ _ h => .inl h⟩

lemma Truncates.trans {a b c : List ℕ} (h : Truncates a b) (g : Truncates b c) : Truncates a c := by
  refine ⟨g.1.trans h.1, fun i t ht => ?_⟩
  rcases h.2 i t ht with hb | hb
  · exact g.2 i t hb
  · rcases g.2 i 0 hb with hc | hc <;> exact .inr hc

lemma truncates_set (i : ℕ) : Truncates next (next.set i 0) := by
  refine ⟨by simp, fun j t ht => ?_⟩
  by_cases hij : i = j
  · subst hij
    right
    rw [getElem?_set_self', ht]
    rfl
  · left
    rw [getElem?_set_ne hij, ht]

lemma Descends.truncate {next next' : List ℕ} (h : Descends next) (g : Truncates next next') : Descends next' := by
  intro i t ht
  have hi : i < next.length := by
    rw [← g.1]
    exact (List.getElem?_eq_some_iff.mp ht).1
  obtain ⟨u, hu⟩ := exists_getElem?_of_lt hi
  rcases g.2 i u hu with hg | hg
  · rw [ht] at hg
    cases hg
    exact h i t hu
  · rw [ht] at hg
    cases hg
    exact .inl rfl

lemma Chain.truncate {next next' : List ℕ} {h n : ℕ} (hc : Chain next h n)
    (g : Truncates next next') : ∃ m ≤ n, Chain next' h m := by
  induction hc with
  | last stop =>
    rcases g.2 _ _ stop with hs | hs <;> exact ⟨1, le_rfl, .last hs⟩
  | link step more _ ih =>
    obtain ⟨m, hm, hc'⟩ := ih
    rcases g.2 _ _ step with hs | hs
    · exact ⟨m + 1, by omega, .link hs more hc'⟩
    · exact ⟨1, by omega, .last hs⟩

lemma Chain.pos {h n : ℕ} (hc : Chain next h n) : 0 < n := by
  cases hc <;> omega

lemma countChain_spec (hd : Descends next) : ∀ (left h : ℕ), 0 < left → h < next.length →
      ∃ next' size m, countChain next h left = some (next', size) ∧ Truncates next next' ∧
        Chain next' h m ∧ m ≤ size := by
  intro left
  induction left with
  | zero => intro _ h; omega
  | succ left ih =>
    intro h _ hlt
    cases left with
    | zero =>
      refine ⟨next.set h 0, 1, 1, by simp [countChain, setAt_of_lt 0 hlt], truncates_set h, ?_, le_rfl⟩
      exact .last (by simp [hlt])
    | succ left =>
      obtain ⟨h', hh'⟩ := exists_getElem?_of_lt hlt
      by_cases hz : h' = 0
      · subst hz
        exact ⟨next, 1, 1, by simp [countChain, hh'], .refl _, .last hh', le_rfl⟩
      · have hlt' : h' < h := (hd h h' hh').resolve_left hz
        obtain ⟨next', size, m, he, ht, hc, hm⟩ := ih h' (by omega) (by omega)
        have heq : countChain next h (left + 1 + 1) = some (next', size + 1) := by
          simp [countChain, hh', hz, he]
        rcases ht.2 h h' hh' with hs | hs
        · exact ⟨next', size + 1, m + 1, heq, ht, .link hs hz hc, by omega⟩
        · exact ⟨next', size + 1, 1, heq, ht, .last hs, by omega⟩

/-- Chain lengths of all heads of a table; an empty bucket has none. -/
def Chains (next : List ℕ) (table ms : List ℕ) : Prop :=
  List.Forall₂ (fun h m => (h = 0 ∧ m = 0) ∨ (h ≠ 0 ∧ Chain next h m)) table ms

lemma countEntries_spec (table : List ℕ) : ∀ next : List ℕ, Descends next → (∀ h ∈ table, h < next.length) →
      ∃ next' cnt ms, countEntries table next = some (next', cnt) ∧ Truncates next next' ∧
        Chains next' table ms ∧ ms.sum ≤ cnt := by
  induction table with
  | nil => intro next _ _; exact ⟨next, 0, [], rfl, .refl _, .nil, le_rfl⟩
  | cons h table ih =>
    intro next hd hlt
    have htail : ∀ g ∈ table, g < next.length := fun g hg => hlt g (by simp [hg])
    by_cases hz : h = 0
    · obtain ⟨next', cnt, ms, he, ht, hc, hm⟩ := ih next hd htail
      exact ⟨next', cnt, 0 :: ms, by simp [countEntries, hz, he], ht, .cons (.inl ⟨hz, rfl⟩) hc, by simpa using hm⟩
    · obtain ⟨next₁, size, m, he₁, ht₁, hc₁, hm₁⟩ :=
        countChain_spec hd maxChainLength h (by decide) (hlt h (by simp))
      obtain ⟨next₂, cnt, ms, he₂, ht₂, hc₂, hm₂⟩ :=
        ih next₁ (hd.truncate ht₁) (by rw [ht₁.1]; exact htail)
      -- later cuts can only shorten the chain just counted
      obtain ⟨m', hm', hc'⟩ := hc₁.truncate ht₂
      refine ⟨next₂, size + cnt, m' :: ms, by simp [countEntries, hz, he₁, he₂], ht₁.trans ht₂,
        .cons (.inr ⟨hz, hc'⟩) hc₂, ?_⟩
      simp only [sum_cons]
      omega

variable {scanner : DeltaIndexScanner}

lemma copyChain_spec
    (hlen : scanner.entries.length = scanner.next.length) {h m : ℕ} (hc : Chain scanner.next h m) :
    ∀ (fuel : ℕ) (entries : List ℕ) (pos : ℕ), m ≤ fuel → pos + m ≤ entries.length →
      ∃ entries', copyChain scanner fuel entries pos h = some (entries', pos + m) ∧
        entries'.length = entries.length := by
  have hnamed {h : ℕ} {v : ℕ} (hv : scanner.next[h]? = some v) : ∃ entry, scanner.entries[h]? = some entry :=
    exists_getElem?_of_lt (hlen ▸ (List.getElem?_eq_some_iff.mp hv).1)
  induction hc with
  | @last h stop =>
    intro fuel entries pos hf hp
    obtain ⟨fuel, rfl⟩ := Nat.exists_eq_succ_of_ne_zero (show fuel ≠ 0 by omega)
    obtain ⟨entry, hentry⟩ := hnamed stop
    have hset := setAt_of_lt entry (show pos < entries.length by omega)
    exact ⟨entries.set pos entry, by simp [copyChain, hentry, hset, stop], by simp⟩
  | @link h h' n step more _ ih =>
    intro fuel entries pos hf hp
    obtain ⟨fuel, rfl⟩ := Nat.exists_eq_succ_of_ne_zero (show fuel ≠ 0 by omega)
    obtain ⟨entry, hentry⟩ := hnamed step
    have hset := setAt_of_lt entry (show pos < entries.length by omega)
    obtain ⟨entries', he, hl⟩ := ih fuel (entries.set pos entry) (pos + 1) (by omega) (by simp only [length_set]; omega)
    refine ⟨entries', ?_, by simpa using hl⟩
    simp only [copyChain, hentry, hset, step, more, Option.bind_eq_bind, Option.bind_some, ↓reduceIte, he]
    congr 2
    omega

lemma copyEntries_spec (hlen : scanner.entries.length = scanner.next.length) :
    ∀ (table ms entries : List ℕ) (pos : ℕ), Chains scanner.next table ms → 0 < entries.length →
      pos + ms.sum ≤ entries.length →
      ∃ table' entries', copyEntries scanner table entries pos = some (table', entries') ∧
        table'.length = table.length ∧ entries'.length = entries.length ∧ ∀ e ∈ table', e < entries.length := by
  intro table
  induction table with
  | nil =>
    intro ms entries pos _ _ _
    exact ⟨[], entries, rfl, rfl, rfl, by simp⟩
  | cons h table ih =>
    intro ms entries pos hc hpos hp
    cases hc with
    | cons hhead htail =>
      rename_i m ms
      simp only [sum_cons] at hp
      rcases hhead with ⟨rfl, rfl⟩ | ⟨hz, hchain⟩
      · obtain ⟨t, es, he, h₁, h₂, h₃⟩ := ih ms entries pos htail hpos (by omega)
        refine ⟨0 :: t, es, by simp [copyEntries, he], by simp [h₁], h₂, ?_⟩
        exact forall_mem_cons.mpr ⟨hpos, h₃⟩
      · have hm := hchain.pos
        obtain ⟨es₁, he₁, hl₁⟩ :=
          copyChain_spec hlen hchain entries.length entries pos (by omega) (by omega)
        obtain ⟨t, es, he, h₁, h₂, h₃⟩ := ih ms es₁ (pos + m) htail (by omega) (by omega)
        refine ⟨pos :: t, es, by simp [copyEntries, hz, he₁, he], by simp [h₁], by omega, ?_⟩
        intro e hme
        rcases mem_cons.mp hme with rfl | hme
        · omega
        · have := h₃ e hme
          omega

structure DeltaIndex.Valid (idx : DeltaIndex) : Prop where
  mask_lt : ∀ key, key &&& idx.mask < idx.table.length
  table_lt : ∀ e ∈ idx.table, e < idx.entries.length

lemma init_valid {buf : Bytes} (h : buf.length < 2 ^ 36) :
    ∃ idx, DeltaIndex.init buf = some idx ∧ idx.entries ≠ [] ∧ (blksz ≤ buf.length → idx.Valid) := by
  have hdiv : (buf.length - buf.length % blksz) / blksz = buf.length / blksz := by
    unfold blksz
    omega
  by_cases hsmall : buf.length / blksz < 1
  · refine ⟨{ entries := [0] }, ?_, by simp, ?_⟩
    · simp [DeltaIndex.init, newDeltaIndexScanner, hdiv, hsmall, countEntries, copyEntries]
    · intro hle
      unfold blksz at hle hsmall
      omega
  · obtain ⟨k, hk⟩ := tableSize_two_pow (show 0 < buf.length / blksz by omega)
      (show buf.length / blksz < 2 ^ 32 by unfold blksz; omega)
    set n := buf.length / blksz with hn
    let s₀ : DeltaIndexScanner :=
      { table := List.replicate (2 ^ k) 0
        mask := 2 ^ k - 1
        entries := List.replicate (n + 1) 0
        next := List.replicate (n + 1) 0 }
    have hs₀ : s₀.Inv n k := by
      refine ⟨by simp [s₀], rfl, by simp [s₀], by simp [s₀], ?_, by simp [s₀], ?_⟩
      · intro t ht
        exact le_of_eq (eq_of_mem_replicate ht)
      · intro i t ht
        exact .inl (eq_of_mem_replicate (mem_of_getElem? ht))
    obtain ⟨s, hs, hinv⟩ := scanBlocks_inv (show n * blksz ≤ buf.length from Nat.div_mul_le_self _ _)
      n 0 s₀ hs₀ (by simp [s₀])
    have hscan : newDeltaIndexScanner buf buf.length = some s := by
      simp only [newDeltaIndexScanner, hdiv, hsmall, ↓reduceIte, hk, Option.bind_eq_bind,
        Option.bind_some, DeltaIndexScanner.scan]
      exact hs
    obtain ⟨next, cnt, ms, hcnt, htr, hchains, hsum⟩ := countEntries_spec s.table s.next hinv.descends
      (by
        intro t ht
        have := hinv.table_le t ht
        have := hinv.count_le
        have := hinv.next_length
        omega)
    have hlen : s.entries.length = next.length := by
      rw [htr.1, hinv.entries_length, hinv.next_length]
    obtain ⟨table, entries, hcopy, htl, hel, hlt⟩ :=
      @copyEntries_spec { s with next := next } hlen s.table ms (List.replicate (cnt + 1) 0) 1 hchains
        (by simp) (by simp only [length_replicate]; omega)
    refine ⟨{ table, entries, mask := s.mask }, ?_, ?_, fun _ => ⟨?_, ?_⟩⟩
    · simp [DeltaIndex.init, hscan, hcnt, hcopy]
    · rw [← length_pos_iff, hel]
      simp
    · intro key
      rw [hinv.mask_eq, htl, hinv.table_length]
      exact and_mask_lt key k
    · intro e he
      rw [hel]
      exact hlt e he

end GoGit.Delta
