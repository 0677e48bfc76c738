import GoGit.DeltaRoundtrip

namespace GoGit.Delta

open List

variable {idx : DeltaIndex}

structure Emits (src : Bytes) (targetSz : ℕ) (ops out : Bytes) : Prop where
  reads : ∃ cs, (∀ rest, Reads (ops ++ rest) cs rest) ∧
    (∀ c ∈ cs, c.InRange src.length targetSz) ∧ outputs src cs = out
  length : out ≠ [] → 2 ≤ ops.length

lemma Reads.append {a b c : Bytes} {cs ds : List Command} (h : Reads a cs b) (g : Reads b ds c) :
    Reads a (cs ++ ds) c := by
  induction h with
  | nil => exact g
  | cons head _ ih => exact .cons head (ih g)

lemma outputs_append (src : Bytes) (cs ds : List Command) :
    outputs src (cs ++ ds) = outputs src cs ++ outputs src ds := by
  simp [outputs]

section

variable {src : Bytes} {targetSz : ℕ}

lemma Emits.nil : Emits src targetSz [] [] :=
  ⟨⟨[], fun rest => .nil rest, by simp, rfl⟩, fun h => absurd rfl h⟩

lemma Emits.append {ops ops' out out' : Bytes} (h : Emits src targetSz ops out)
    (g : Emits src targetSz ops' out') : Emits src targetSz (ops ++ ops') (out ++ out') := by
  obtain ⟨cs, hr, hc, ho⟩ := h.reads
  obtain ⟨ds, gr, gc, go⟩ := g.reads
  refine ⟨⟨cs ++ ds, fun rest => ?_, ?_, by rw [outputs_append, ho, go]⟩, ?_⟩
  · rw [append_assoc]
    exact (hr _).append (gr rest)
  · exact forall_mem_append.mpr ⟨hc, gc⟩
  · intro hne
    simp only [length_append]
    by_cases hout : out = []
    · have := g.length (by simpa [hout] using hne)
      omega
    · have := h.length hout
      omega

lemma emits_single {ops : Bytes} {c : Command} (hread : ∀ rest, readCommand (ops ++ rest) = .ok (c, rest))
    (hc : c.InRange src.length targetSz) (hlen : 2 ≤ ops.length) : Emits src targetSz ops (c.output src) :=
  ⟨⟨[c], fun rest => .cons (hread rest) (.nil rest), by simpa using hc, by simp [outputs]⟩, fun _ => hlen⟩

variable {offset length : ℕ}

lemma encodeCopyOperation_length (hl : length < 2 ^ 24) (hpos : 0 < length) :
    2 ≤ (encodeCopyOperation offset length).length := by
  have hne : operandBytes length (sizes.map Offset.shift) ≠ [] := by
    intro hnil
    have hz : ∀ k ∈ [0, 8, 16], operandByte length k = 0 := by
      simpa [operandBytes, sizes] using hnil
    have h0 := congrArg UInt8.toNat (hz 0 (by simp))
    have h1 := congrArg UInt8.toNat (hz 8 (by simp))
    have h2 := congrArg UInt8.toNat (hz 16 (by simp))
    rw [operandByte_toNat] at h0 h1 h2
    simp only [UInt8.toNat_zero] at h0 h1 h2
    omega
  have hpos' := length_pos_iff.mpr hne
  rw [encodeCopyOperation_eq]
  simp only [length_cons, length_append]
  omega

lemma emits_encodeCopyOperation (ho : offset < 2 ^ 32) (hl : length < 2 ^ 24)
    (hpos : 0 < length) (hfit : length ≤ targetSz) (hin : offset + length ≤ src.length) :
    Emits src targetSz (encodeCopyOperation offset length) ((src.drop offset).take length) :=
  emits_single (fun rest => readCommand_encodeCopyOperation rest ho hl hpos) ⟨hfit, hin⟩
    (encodeCopyOperation_length hl hpos)

lemma take_drop_split (xs : Bytes) (a m n : ℕ) (h : m ≤ n) :
    (xs.drop a).take n = (xs.drop a).take m ++ (xs.drop (a + m)).take (n - m) := by
  rw [← drop_drop, show n = m + (n - m) by omega, take_add]
  simp

lemma emits_copyOperations {aOffset rl : ℕ} (hin : aOffset + rl ≤ src.length)
    (hoff : aOffset + rl ≤ 2 ^ 32) (hfit : rl ≤ targetSz) :
    Emits src targetSz (copyOperations aOffset rl) ((src.drop aOffset).take rl) := by
  induction rl using Nat.strongRecOn generalizing aOffset with
  | ind rl ih =>
    rw [copyOperations]
    split_ifs with hz hlt
    · subst hz
      simpa using Emits.nil
    · unfold maxCopySize at hlt
      exact emits_encodeCopyOperation (by omega) (by omega) (by omega) hfit hin
    · unfold maxCopySize at hlt ⊢
      rw [take_drop_split src aOffset (64 * 1024) rl (by omega)]
      exact (emits_encodeCopyOperation (by omega) (by norm_num) (by norm_num) (by omega)
        (by omega)).append (ih _ (by omega) (by omega) (by omega) (by omega))

lemma insert_command_byte {n : ℕ} (hpos : 0 < n) (h : n ≤ 127) :
    isCopyFromSrc (UInt8.ofNat n) = false ∧ isCopyFromDelta (UInt8.ofNat n) = true := by
  have hall : ∀ i : Fin 128, 0 < i.val →
      isCopyFromSrc (UInt8.ofNat i.val) = false ∧ isCopyFromDelta (UInt8.ofNat i.val) = true := by
    decide +kernel
  exact hall ⟨n, by omega⟩ hpos

lemma readCommand_insert {data : Bytes} (rest : Bytes) (hne : data ≠ []) (h : data.length ≤ 127) :
    readCommand (UInt8.ofNat data.length :: data ++ rest) = .ok (.insert data, rest) := by
  have hpos := length_pos_iff.mpr hne
  obtain ⟨hc, hd⟩ := insert_command_byte hpos h
  have hn := Base128.toNat_ofNat_of_lt (show data.length < 256 by omega)
  simp [readCommand, hc, hd, hn]

lemma emits_insertOperations {b : Bytes} (hne : b ≠ []) (hfit : b.length ≤ targetSz) :
    Emits src targetSz (insertOperations b) b := by
  induction hn : b.length using Nat.strongRecOn generalizing b with
  | ind n ih =>
    have hpos := length_pos_iff.mpr hne
    rw [insertOperations]
    split_ifs with hle
    · refine emits_single (c := .insert b) (fun rest => readCommand_insert rest hne hle) hfit ?_
      simp only [length_cons]
      omega
    · have hlen : (b.take 127).length = 127 := by
        rw [length_take]
        omega
      have hne' : b.take 127 ≠ [] := by
        rw [← length_pos_iff, hlen]
        norm_num
      have hhead : Emits src targetSz (UInt8.ofNat 127 :: b.take 127) (b.take 127) := by
        refine emits_single (c := .insert (b.take 127)) (fun rest => ?_) ?_ ?_
        · have := readCommand_insert rest hne' (by omega)
          rwa [hlen] at this
        · simp only [Command.InRange]
          omega
        · simp only [length_cons]
          omega
      have htail := ih (b.drop 127).length (by simp only [length_drop]; omega)
        (b := b.drop 127) (by rw [← length_pos_iff, length_drop]; omega)
        (by simp only [length_drop]; omega) rfl
      have := hhead.append htail
      rwa [take_append_drop] at this

lemma emits_encodeInsertOperation {ibuf ops out hdr : Bytes} (h : Emits src targetSz ops out)
    (hfit : ibuf.length ≤ targetSz) : ∃ ops', encodeInsertOperation ibuf (hdr ++ ops) = hdr ++ ops' ∧
      Emits src targetSz ops' (out ++ ibuf) := by
  unfold encodeInsertOperation
  by_cases hz : ibuf.length = 0
  · have hnil := length_eq_zero_iff.mp hz
    exact ⟨ops, by simp [hz], by simpa [hnil] using h⟩
  · have hne : ibuf ≠ [] := fun hnil => hz (by simp [hnil])
    exact ⟨ops ++ insertOperations ibuf, by simp [hz], h.append (emits_insertOperations hne hfit)⟩

end

lemma matchRun_spec (xs ys : Bytes) : matchRun xs ys ≤ xs.length ∧ matchRun xs ys ≤ ys.length ∧
      xs.take (matchRun xs ys) = ys.take (matchRun xs ys) := by
  induction xs generalizing ys with
  | nil => simp [matchRun]
  | cons x xs ih =>
    cases ys with
    | nil => simp [matchRun]
    | cons y ys =>
      obtain ⟨h₁, h₂, h₃⟩ := ih ys
      simp only [matchRun]
      split_ifs with he
      · refine ⟨by simpa using h₁, by simpa using h₂, by simp [he, h₃]⟩
      · simp

def DeltaIndex.Ready (idx : DeltaIndex) (src : Bytes) : Prop := blksz ≤ src.length → idx.Valid

/-- What a match means: it stays inside the target, and one of at least a block is a real
match inside the source. -/
lemma findMatch_spec {src tgt : Bytes} {i : ℕ} (hidx : idx.Ready src) (hi : i < tgt.length) :
    ∃ offset l, idx.findMatch src tgt i = some (offset, l) ∧ (l = -1 ∨ 0 ≤ l ∧ i + l.toNat ≤ tgt.length) ∧
      ((chunkSize : ℤ) ≤ l → offset + l.toNat ≤ src.length ∧
        (src.drop offset).take l.toNat = (tgt.drop i).take l.toNat) := by
  unfold DeltaIndex.findMatch
  split_ifs with htgt hsrc
  · refine ⟨0, tgt.length - i, rfl, .inr ⟨by omega, by omega⟩, ?_⟩
    intro h
    omega
  · refine ⟨0, -1, rfl, .inl rfl, ?_⟩
    intro h
    unfold chunkSize at h
    omega
  · have hvalid := hidx (by omega)
    obtain ⟨h, hh⟩ := hashBlock_isSome (show i + blksz ≤ tgt.length by
      unfold chunkSize at htgt
      unfold blksz
      omega)
    obtain ⟨eIdx, he⟩ := exists_getElem?_of_lt (hvalid.mask_lt h)
    by_cases hz : eIdx = 0
    · refine ⟨0, 0, by simp [hh, he, hz], .inr ⟨le_rfl, by simp; omega⟩, ?_⟩
      intro hc
      unfold chunkSize at hc
      omega
    · obtain ⟨srcOffset, hs⟩ := exists_getElem?_of_lt (hvalid.table_lt eIdx (mem_of_getElem? he))
      obtain ⟨h₁, h₂, h₃⟩ := matchRun_spec (src.drop srcOffset) (tgt.drop i)
      simp only [length_drop] at h₁ h₂
      refine ⟨srcOffset, matchLength src tgt i srcOffset, by simp [hh, he, hz, hs], .inr ⟨by omega, ?_⟩, ?_⟩
      · simp only [Int.toNat_natCast, matchLength]
        omega
      · intro hc
        simp only [Int.toNat_natCast, matchLength]
        refine ⟨?_, h₃⟩
        unfold chunkSize matchLength at hc
        omega

lemma diffLoop_spec {src tgt hdr : Bytes} (hidx : idx.Ready src) (hsrc : src.length ≤ 2 ^ 32) :
    ∀ (fuel i : ℕ) (ibuf ops out : Bytes), tgt.length ≤ i + fuel → Emits src tgt.length ops out →
      out ++ ibuf = tgt.take i →
      ∃ ibuf' ops' out', diffLoop idx src tgt fuel i ibuf (hdr ++ ops) = some (ibuf', hdr ++ ops') ∧
        Emits src tgt.length ops' out' ∧ out' ++ ibuf' = tgt := by
  intro fuel
  induction fuel with
  | zero =>
    intro i ibuf ops out hfuel hemit hinv
    exact ⟨ibuf, ops, out, rfl, hemit, by rw [hinv, take_of_length_le (by omega)]⟩
  | succ fuel ih =>
    intro i ibuf ops out hfuel hemit hinv
    rw [diffLoop]
    by_cases hi : i < tgt.length
    · obtain ⟨offset, l, hm, hl, hblock⟩ := findMatch_spec hidx hi
      simp only [hi, ↓reduceIte, hm, Option.bind_eq_bind, Option.bind_some]
      have htake : ∀ k, out ++ (ibuf ++ (tgt.drop i).take k) = tgt.take (i + k) := fun k => by
        rw [← append_assoc, hinv, take_add]
      split_ifs with hzero hneg hshort
      · exact ih (i + 1) _ ops out (by omega) hemit (htake 1)
      · refine ih (tgt.length + 1) _ ops out (by omega) hemit ?_
        rw [← append_assoc, hinv, take_append_drop, take_of_length_le (by omega)]
      · exact ih (i + l.toNat) _ ops out (by omega) hemit (htake _)
      · obtain ⟨hin, heq⟩ := hblock (by omega)
        have hlen : ibuf.length ≤ tgt.length := by
          have := congrArg List.length hinv
          simp only [length_append, length_take] at this
          omega
        obtain ⟨ops₁, hops, hemit₁⟩ := @emits_encodeInsertOperation src tgt.length ibuf ops out hdr hemit hlen
        have hcopy := @emits_copyOperations src tgt.length offset l.toNat hin (by omega) (by omega)
        rw [hops, append_assoc]
        refine ih (i + l.toNat) [] _ _ (by omega) (hemit₁.append hcopy) ?_
        rw [append_nil, heq, append_assoc, htake]
    · simp only [hi, ↓reduceIte]
      exact ⟨ibuf, ops, out, rfl, hemit, by rw [hinv, take_of_length_le (by omega)]⟩

def DeltaIndex.prepared (index : DeltaIndex) (src : Bytes) : Option DeltaIndex :=
  if index.entries.length = 0 then DeltaIndex.init src else some index

lemma diffDelta_emits {index idx : DeltaIndex} {src tgt : Bytes}
    (hprep : index.prepared src = some idx) (hidx : idx.Ready src) (hsrc : src.length ≤ 2 ^ 32) :
    ∃ ops, diffDelta index src tgt = some (deltaEncodeSize src.length ++ deltaEncodeSize tgt.length ++ ops, idx) ∧
      Emits src tgt.length ops tgt := by
  obtain ⟨ibuf, ops, out, hloop, hemit, hout⟩ :=
    @diffLoop_spec idx src tgt (deltaEncodeSize src.length ++ deltaEncodeSize tgt.length) hidx hsrc
      tgt.length 0 [] [] [] (by omega) Emits.nil (by simp)
  have hlen : ibuf.length ≤ tgt.length := by
    have := congrArg List.length hout
    simp only [length_append] at this
    omega
  obtain ⟨ops', hops, hemit'⟩ := @emits_encodeInsertOperation src tgt.length ibuf ops out
    (deltaEncodeSize src.length ++ deltaEncodeSize tgt.length) hemit hlen
  rw [append_nil] at hloop
  refine ⟨ops', ?_, by rwa [hout] at hemit'⟩
  unfold DeltaIndex.prepared at hprep
  by_cases hempty : index.entries.length = 0
  · rw [if_pos hempty] at hprep
    simp only [diffDelta, if_pos hempty, hprep, Option.bind_eq_bind, Option.bind_some, hloop, hops]
    rfl
  · rw [if_neg hempty, Option.some.injEq] at hprep
    subst hprep
    simp only [diffDelta, if_neg hempty, Option.bind_eq_bind, Option.bind_some, hloop, hops]
    rfl

lemma accepted_of_emits {src tgt ops : Bytes} (hsrc : src.length < 2 ^ 64)
    (htgt : tgt.length < 2 ^ 64) (hne : tgt ≠ []) (h : Emits src tgt.length ops tgt) :
    Accepted src (deltaEncodeSize src.length ++ deltaEncodeSize tgt.length ++ ops) tgt ∧
      4 ≤ (deltaEncodeSize src.length ++ deltaEncodeSize tgt.length ++ ops).length := by
  obtain ⟨cs, hreads, hc, hout⟩ := h.reads
  have hheader := header_encode ops hsrc htgt
  constructor
  · refine ⟨cs, by rw [hheader], ⟨[], by rw [hheader]; simpa using hreads []⟩, ?_, ?_, hout.symm, ?_⟩
    · rintro rfl
      exact hne (by simpa [outputs] using hout.symm)
    · rwa [hheader]
    · rw [hheader]
  · have h₁ := h.length hne
    have h₂ := Base128.encode_length_pos src.length
    have h₃ := Base128.encode_length_pos tgt.length
    simp only [length_append, deltaEncodeSize_eq]
    omega

/-- The index left behind by earlier calls on the same source. -/
def warmIndex (src : Bytes) (earlier : List Bytes) : Option DeltaIndex :=
  earlier.foldlM (fun index tgt => (diffDelta index src tgt).map Prod.snd) {}

lemma warmIndex_prepared {src : Bytes} (hsrc : src.length < 2 ^ 32) (earlier : List Bytes) :
    ∃ index idx, warmIndex src earlier = some index ∧ index.prepared src = some idx ∧ idx.Ready src := by
  obtain ⟨idx, hinit, hne, hvalid⟩ := @init_valid src (by omega)
  have hself : idx.prepared src = some idx := by
    rw [DeltaIndex.prepared, if_neg (by simpa using hne)]
  have hfresh : ({} : DeltaIndex).prepared src = some idx := by
    simp [DeltaIndex.prepared, hinit]
  -- each call maps an index prepared as `idx` to `idx` itself
  have hrun : ∀ (tgts : List Bytes) (index : DeltaIndex), index.prepared src = some idx →
      ∃ index', tgts.foldlM (fun index tgt => (diffDelta index src tgt).map Prod.snd) index =
        some index' ∧ index'.prepared src = some idx := by
    intro tgts
    induction tgts with
    | nil => intro index hprep; exact ⟨index, rfl, hprep⟩
    | cons tgt tgts ih =>
      intro index hprep
      obtain ⟨ops, hdiff, _⟩ := @diffDelta_emits index idx src tgt hprep hvalid hsrc.le
      obtain ⟨index', hrest, hprep'⟩ := ih idx hself
      exact ⟨index', by simp [foldlM_cons, hdiff, hrest], hprep'⟩
  obtain ⟨index, hwarm, hprep⟩ := hrun earlier {} hfresh
  exact ⟨index, idx, hwarm, hprep, hvalid⟩

/-- Patching the source with a delta made for it gives the target, whether the index is
fresh or left behind by earlier calls on the same source. -/
theorem patchDelta_diffDelta {src tgt : Bytes} (earlier : List Bytes) (hsrc : 1 ≤ src.length)
    (hsrc' : src.length < 2 ^ 32) (htgt : tgt ≠ []) (htgt' : tgt.length < 2 ^ 63) :
    (∃ delta, DiffDelta src tgt = some delta ∧ PatchDelta src delta = .ok tgt) ∧
      ∃ index delta index', warmIndex src earlier = some index ∧
        diffDelta index src tgt = some (delta, index') ∧ PatchDelta src delta = .ok tgt := by
  have hcall : ∀ earlier : List Bytes, ∃ index delta index', warmIndex src earlier = some index ∧
      diffDelta index src tgt = some (delta, index') ∧ PatchDelta src delta = .ok tgt := by
    intro earlier
    obtain ⟨index, idx, hwarm, hprep, hready⟩ := warmIndex_prepared hsrc' earlier
    obtain ⟨ops, hdiff, hemit⟩ := @diffDelta_emits index idx src tgt hprep hready hsrc'.le
    obtain ⟨hacc, hlen⟩ := accepted_of_emits (by omega) (by omega) htgt hemit
    refine ⟨index, _, idx, hwarm, hdiff, ?_⟩
    rw [PatchDelta_eq_patchDelta (length_pos_iff.mp hsrc) hlen]
    exact patchDelta_of_accepted hlen hacc
  refine ⟨?_, hcall earlier⟩
  obtain ⟨index, delta, index', hwarm, hdiff, hpatch⟩ := hcall []
  simp only [warmIndex, foldlM_nil, Option.pure_def, Option.some.injEq] at hwarm
  subst hwarm
  exact ⟨delta, by simp [DiffDelta, hdiff], hpatch⟩

theorem patchDelta_diffDelta_block :
    (∃ delta, DiffDelta (replicate 16 97) (98 :: replicate 16 97) = some delta ∧
      PatchDelta (replicate 16 97) delta = .ok (98 :: replicate 16 97)) ∧
      ∃ index delta index', warmIndex (replicate 16 97) [[98], replicate 17 97] = some index ∧
        diffDelta index (replicate 16 97) (98 :: replicate 16 97) = some (delta, index') ∧
        PatchDelta (replicate 16 97) delta = .ok (98 :: replicate 16 97) :=
  patchDelta_diffDelta [[98], replicate 17 97] (by decide) (by decide) (by decide) (by decide)

end GoGit.Delta
