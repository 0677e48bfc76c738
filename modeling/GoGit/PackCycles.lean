import GoGit.PackEncode

/-! The bases of objects to pack may be linked in any way. On a cycle the encoder comes back to an object that it has
set out to write, and writes that object whole. -/
namespace GoGit.Pack

open List

section Cycles

variable {sha1 : Bytes → Bytes} (store : ObjectStorer sha1) (deflate : Bytes → Bytes) (useRefDeltas : Bool)

/-- The original of an object: it is kept with the object, or a delta is resolved by the store. -/
inductive IsOriginal (o : ObjectToPack) (original : EncodedObject) : Prop
  | kept (h : o.original = some original)
  | stored {id : ObjectID} (dropped : o.original = none) (delta : o.object.type.isDelta = true)
      (hash : o.hash = .ok id) (h : store.encodedObject id = some original)

structure Linked (os : List ObjectToPack) : Prop where
  fresh : ∀ o ∈ os, o.offset = 0
  inside : ∀ o ∈ os, ∀ b, o.base = some b → b < os.length
  whole : ∀ o ∈ os, o.base = none → o.original.isSome
  readable : ∀ o ∈ os, o.base.isSome → ∃ original, IsOriginal store o original

/-- What an object is when it is written: the object, or its original in place of a delta. -/
inductive Becomes (o o' : ObjectToPack) : Prop
  | same (h : o' = { o with offset := o'.offset })
  | whole {original : EncodedObject} (h : IsOriginal store o original) (base : o'.base = none)
      (object : o'.object = original) (known : o'.original = some original)

/-- The entries of a pack in the order in which they are written, every delta behind its base. -/
inductive Laid (final : List ObjectToPack) : List ℕ → Bytes → Prop
  | nil : Laid final [] (head final.length)
  | snoc {ws : List ℕ} {out header : Bytes} {k : ℕ} {o : ObjectToPack} (before : Laid final ws out)
      (fresh : k ∉ ws) (object : final[k]? = some o) (offset : o.offset = out.length)
      (whole : o.base = none → o.original.isSome) (base : ∀ b, o.base = some b → b ∈ ws)
      (entry : entryHeader useRefDeltas final o = .ok header) :
      Laid final (ws ++ [k]) (out ++ header ++ deflate o.object.content)

def Links (os : List ObjectToPack) (k b : ℕ) : Prop := ∃ o, os[k]? = some o ∧ o.base = some b

variable {store deflate useRefDeltas} {os : List ObjectToPack}

section Originals

variable {o o' : ObjectToPack} {original : EncodedObject}

lemma hash_of_isSome (h : o.original.isSome) : ∃ id, o.hash = .ok id := by
  obtain ⟨original, h⟩ := Option.isSome_iff_exists.mp h
  exact ⟨original.hash, by rw [ObjectToPack.hash, h]⟩

lemma IsOriginal.named (h : IsOriginal store o original) : ∃ id, o.hash = .ok id := by
  cases h with
  | kept h => exact hash_of_isSome (by rw [h]; rfl)
  | stored _ _ hash _ => exact ⟨_, hash⟩

lemma Linked.named (h : Linked store os) (ho : o ∈ os) : ∃ id, o.hash = .ok id := by
  cases hb : o.base with
  | none => exact hash_of_isSome (h.whole o ho hb)
  | some b =>
    obtain ⟨original, horiginal⟩ := h.readable o ho (by rw [hb]; rfl)
    exact horiginal.named

lemma Becomes.named (h : Becomes store o o') (hn : ∃ id, o.hash = .ok id) : ∃ id, o'.hash = .ok id := by
  cases h with
  | same h =>
    rw [h]
    exact hn
  | whole _ _ _ known => exact hash_of_isSome (by rw [known]; rfl)

lemma breakCycle_of_wantWrite (h : IsOriginal store o original) (hw : o.wantWrite = true)
    (hb : o.base.isSome) : ∃ o', breakCycle store o = .ok o' ∧ o'.base = none ∧ o'.object = original ∧
      o'.original = some original ∧ o'.offset = o.offset := by
  rw [breakCycle, if_pos hw]
  cases h with
  | kept h =>
    refine ⟨{ o with object := original, base := none, depth := 0 }, ?_, rfl, rfl, h, rfl⟩
    simp [restoreOriginal, h, ObjectToPack.backToOriginal, ObjectToPack.isDelta, hb]
  | stored dropped delta hash h =>
    refine ⟨(o.setOriginal original).backToOriginal, ?_, ?_⟩
    · simp [restoreOriginal, dropped, delta, hash, h]
    · simp [ObjectToPack.backToOriginal, ObjectToPack.setOriginal, ObjectToPack.saveOriginalMetadata,
        ObjectToPack.isDelta, hb]

lemma breakCycle_of_not_wantWrite (hw : o.wantWrite = false) : breakCycle store o = .ok o := by
  rw [breakCycle, hw]
  rfl

end Originals

section Headers

variable {final final' : List ObjectToPack} {o : ObjectToPack}

lemma type_of_isSome (h : o.original.isSome) (objects : List ObjectToPack) (fuel : ℕ) :
    ∃ t, o.type objects fuel = some t ∧ ∀ objects' fuel', o.type objects' fuel' = some t := by
  obtain ⟨original, h⟩ := Option.isSome_iff_exists.mp h
  have hvia : ∀ objects' fuel', o.type objects' fuel' = some original.type := by
    intro objects' fuel'
    cases fuel' <;> simp [ObjectToPack.type, ObjectToPack.typeVia, h]
  exact ⟨original.type, hvia _ _, hvia⟩

lemma entryHeader_congr (hwhole : o.base = none → o.original.isSome)
    (h : ∀ b, o.base = some b → final'[b]? = final[b]?) :
    entryHeader useRefDeltas final' o = entryHeader useRefDeltas final o := by
  rw [entryHeader, entryHeader]
  cases hb : o.base with
  | none =>
    obtain ⟨t, ht, hall⟩ := type_of_isSome (hwhole hb) final final.length
    simp only [ht, hall]
  | some b => simp only [sliceAt, Int.toNat_natCast, h b hb]

lemma entryHeader_ok (hwhole : o.base = none → o.original.isSome)
    (hbase : ∀ b, o.base = some b → ∃ ob, final[b]? = some ob ∧ ob.offset < o.offset ∧ ∃ id, ob.hash = .ok id) :
    ∃ header, entryHeader useRefDeltas final o = .ok header := by
  rw [entryHeader]
  cases hb : o.base with
  | none =>
    obtain ⟨t, ht, -⟩ := type_of_isSome (hwhole hb) final final.length
    obtain ⟨original, ho⟩ := Option.isSome_iff_exists.mp (hwhole hb)
    have hsize : o.size = .ok original.size := by rw [ObjectToPack.size, ho]
    refine ⟨entryHead t original.size.toNat, ?_⟩
    simp only [ht, hsize, Outcome.ok_bind, Outcome.pure_eq]
  | some b =>
    obtain ⟨ob, hob, hlt, id, hid⟩ := hbase b hb
    simp only [sliceAt_natCast hob, Outcome.ok_bind, writeDeltaHeader, hid, Outcome.pure_eq]
    split_ifs with href hneg
    · exact ⟨_, rfl⟩
    · omega
    · exact ⟨_, rfl⟩

lemma entryHeader_ofs {b : ℕ} {ob : ObjectToPack} (hb : o.base = some b) (hob : final[b]? = some ob)
    (hlt : ob.offset < o.offset) : entryHeader false final o =
      .ok (entryHead .ofsDelta o.object.size.toNat ++ WriteVariableWidthInt (o.offset - ob.offset)) := by
  have hpos : ¬ (o.offset : ℤ) - ob.offset ≤ 0 := by omega
  have hsub : ((o.offset : ℤ) - ob.offset).toNat = o.offset - ob.offset := by omega
  simp only [entryHeader, hb, sliceAt_natCast hob, Outcome.ok_bind, writeDeltaHeader, Bool.false_eq_true,
    if_false, hpos, hsub]

lemma entryHeader_ne_nil {header : Bytes} (h : entryHeader useRefDeltas final o = .ok header) : header ≠ [] := by
  have hhead : ∀ t n, entryHead t n ≠ [] := fun t n => deltaEncodeSizeLoop_ne_nil _ _ _
  rw [entryHeader] at h
  cases hb : o.base with
  | none =>
    rw [hb] at h
    dsimp only at h
    split at h
    · cases h
    · obtain ⟨size, -, h⟩ := Outcome.bind_eq_ok h
      obtain rfl := Outcome.ok.inj h
      exact hhead _ _
  | some b =>
    rw [hb] at h
    obtain ⟨ob, -, h⟩ := Outcome.bind_eq_ok h
    simp only [writeDeltaHeader] at h
    split_ifs at h
    · obtain ⟨id, -, h⟩ := Outcome.bind_eq_ok h
      obtain rfl := Outcome.ok.inj h
      simp [hhead]
    · obtain rfl := Outcome.ok.inj h
      simp [hhead]

end Headers

variable {k : ℕ}

section Layout

variable {final final' : List ObjectToPack} {ws : List ℕ} {out : Bytes}

section

variable (h : Laid deflate useRefDeltas final ws out)

include h

lemma Laid.congr (hlen : final'.length = final.length)
    (hsame : ∀ k ∈ ws, final'[k]? = final[k]?) : Laid deflate useRefDeltas final' ws out := by
  induction h with
  | nil =>
    rw [← hlen]
    exact .nil
  | @snoc ws out header k o before fresh object offset whole base entry ih =>
    have hws : ∀ j ∈ ws, final'[j]? = final[j]? := fun j hj => hsame j (mem_append_left _ hj)
    refine .snoc (ih hws) fresh ?_ offset whole base ?_
    · rw [hsame k (by simp), object]
    · rw [entryHeader_congr whole fun b hb => hws b (base b hb), entry]

lemma Laid.set (hk : k ∉ ws) (o : ObjectToPack) : Laid deflate useRefDeltas (final.set k o) ws out :=
  h.congr length_set fun _ hj => getElem?_set_ne (ne_of_mem_of_not_mem hj hk).symm

lemma Laid.offsets : 12 ≤ out.length ∧ ∀ k ∈ ws, ∃ o, final[k]? = some o ∧ 12 ≤ o.offset ∧ o.offset < out.length ∧
      ∀ b, o.base = some b → b ∈ ws ∧ ∃ ob, final[b]? = some ob ∧ ob.offset < o.offset := by
  induction h with
  | nil => exact ⟨le_rfl, by simp⟩
  | @snoc ws out header k o before fresh object offset whole base entry ih =>
    have hpos := length_pos_iff.mpr (entryHeader_ne_nil entry)
    simp only [length_append]
    refine ⟨by omega, fun j hj => ?_⟩
    rcases mem_append.mp hj with hj | hj
    · obtain ⟨oj, hoj, hlow, hhigh, hbase⟩ := ih.2 j hj
      refine ⟨oj, hoj, hlow, by omega, fun b hb => ?_⟩
      exact ⟨mem_append_left _ (hbase b hb).1, (hbase b hb).2⟩
    · obtain rfl := mem_singleton.mp hj
      refine ⟨o, object, by omega, by omega, fun b hb => ?_⟩
      obtain ⟨ob, hob, -, hlt, -⟩ := ih.2 b (base b hb)
      exact ⟨mem_append_left _ (base b hb), ob, hob, by omega⟩

lemma Laid.isWritten (hk : k ∈ ws) : ∃ o, final[k]? = some o ∧ o.isWritten = true ∧ o.wantWrite = false := by
  obtain ⟨o, ho, hlow, -⟩ := h.offsets.2 k hk
  exact ⟨o, ho, decide_eq_true (by omega), decide_eq_false (by omega)⟩

lemma Laid.nodup : ws.Nodup ∧ ∀ k ∈ ws, k < final.length := by
  induction h with
  | nil => simp
  | @snoc ws out header k o before fresh object offset whole base entry ih =>
    refine ⟨?_, fun j hj => ?_⟩
    · rw [← concat_eq_append]
      exact List.Nodup.concat fresh ih.1
    · rcases mem_append.mp hj with hj | hj
      · exact ih.2 j hj
      · obtain rfl := mem_singleton.mp hj
        exact (List.getElem?_eq_some_iff.mp object).1

end

end Layout

section Run

variable {M ws : List ℕ} {e : Encoder} {k : ℕ} {o : ObjectToPack}

structure Encoder.OnWay (store : ObjectStorer sha1) (deflate : Bytes → Bytes) (useRefDeltas : Bool)
    (os : List ObjectToPack) (M ws : List ℕ) (e : Encoder) : Prop where
  laid : Laid deflate useRefDeltas e.objects ws e.written
  length : e.objects.length = os.length
  waiting : ∀ k o, os[k]? = some o → k ∉ ws →
    e.objects[k]? = some { o with offset := if k ∈ M then 1 else 0 }
  written : ∀ k ∈ ws, ∀ o, os[k]? = some o → ∃ o', e.objects[k]? = some o' ∧ Becomes store o o'

lemma Encoder.OnWay.unmark (h : e.OnWay store deflate useRefDeltas os (k :: M) ws) (hk : k ∈ ws) :
    e.OnWay store deflate useRefDeltas os M ws := by
  refine ⟨h.laid, h.length, fun j o ho hj => ?_, h.written⟩
  have hne : j ≠ k := fun heq => hj (heq ▸ hk)
  rw [h.waiting j o ho hj]
  simp [hne]

lemma Encoder.OnWay.mark (h : e.OnWay store deflate useRefDeltas os M ws) (ho : os[k]? = some o) (hk : k ∉ ws) :
    (⟨e.written, e.objects.set k { o with offset := 1 }⟩ : Encoder).OnWay store deflate useRefDeltas os
      (k :: M) ws := by
  have hlt : k < e.objects.length := h.length ▸ (List.getElem?_eq_some_iff.mp ho).1
  refine ⟨h.laid.set hk _, by simp [h.length], fun j oj hoj hj => ?_, fun j hj oj hoj => ?_⟩
  · by_cases hjk : k = j
    · subst hjk
      obtain rfl := Option.some.inj (ho.symm.trans hoj)
      simp [getElem?_set_self hlt]
    · rw [getElem?_set_ne hjk, h.waiting j oj hoj hj]
      simp [Ne.symm hjk]
  · rw [getElem?_set_ne (ne_of_mem_of_not_mem hj hk).symm]
    exact h.written j hj oj hoj

lemma Encoder.OnWay.write (hlinked : Linked store os) (h : e.OnWay store deflate useRefDeltas os M ws)
    (ho : os[k]? = some o) (hk : k ∉ ws) {o₁ : ObjectToPack} (hbecomes : Becomes store o o₁) (hlow : o₁.offset ≤ 1)
    (hwhole : o₁.base = none → o₁.original.isSome) (hbase : ∀ b, o₁.base = some b → b ∈ ws) :
    ∃ e', writeEntry deflate useRefDeltas k ⟨e.written, e.objects.set k o₁⟩ = .ok e' ∧
      e'.OnWay store deflate useRefDeltas os M (ws ++ [k]) := by
  have hlt : k < e.objects.length := h.length ▸ (List.getElem?_eq_some_iff.mp ho).1
  have hget : (e.objects.set k o₁)[k]? = some o₁ := getElem?_set_self hlt
  have hnot : o₁.isWritten = false := by
    simp only [ObjectToPack.isWritten, decide_eq_false_iff_not]
    omega
  set o₂ : ObjectToPack := { o₁ with offset := e.written.length } with ho₂
  have hlaid := h.laid.set hk o₂
  obtain ⟨header, hheader⟩ : ∃ header, entryHeader useRefDeltas (e.objects.set k o₂) o₂ = .ok header := by
    refine entryHeader_ok hwhole fun b hb => ?_
    have hbws := hbase b hb
    obtain ⟨ob, hob, -, hoff, -⟩ := hlaid.offsets.2 b hbws
    refine ⟨ob, hob, hoff, ?_⟩
    have hbos : b < os.length := h.length ▸ h.laid.nodup.2 b hbws
    obtain ⟨ob', hob', hbb⟩ := h.written b hbws _ (getElem?_eq_getElem hbos)
    rw [getElem?_set_ne (ne_of_mem_of_not_mem hbws hk).symm, hob'] at hob
    cases hob
    exact hbb.named (hlinked.named (getElem_mem hbos))
  refine ⟨⟨e.written ++ header ++ deflate o₁.object.content, e.objects.set k o₂⟩, ?_, ?_⟩
  · simp only [writeEntry, sliceAt_natCast hget, Outcome.ok_bind, hnot, Bool.false_eq_true, if_false,
      set_set, ← ho₂, hheader, Outcome.pure_eq]
  · refine ⟨?_, by simp [h.length], ?_, ?_⟩
    · exact .snoc (o := o₂) hlaid hk (getElem?_set_self hlt) rfl hwhole hbase hheader
    · intro j oj hoj hj
      rw [mem_append, mem_singleton, not_or] at hj
      rw [getElem?_set_ne (Ne.symm hj.2), h.waiting j oj hoj hj.1]
    · intro j hj oj hoj
      by_cases hjk : j = k
      · subst hjk
        obtain rfl := Option.some.inj (ho.symm.trans hoj)
        refine ⟨o₂, getElem?_set_self hlt, ?_⟩
        cases hbecomes with
        | same heq => exact .same (by rw [ho₂, heq])
        | whole horiginal base object known => exact .whole horiginal base object known
      · have hjws : j ∈ ws := by simpa [hjk] using hj
        rw [getElem?_set_ne (Ne.symm hjk)]
        exact h.written j hjws oj hoj

lemma breakCycle_marked (hlinked : Linked store os) (ho : o ∈ os) :
    ∃ o', breakCycle store { o with offset := 1 } = .ok o' ∧ o'.base = none ∧ o'.original.isSome ∧
      o'.offset = 1 ∧ Becomes store o o' := by
  rcases Option.eq_none_or_eq_some o.base with hb | ⟨b, hb⟩
  · have hsome := hlinked.whole o ho hb
    refine ⟨{ o with offset := 1 }, ?_, hb, hsome, rfl, .same rfl⟩
    simp [breakCycle, ObjectToPack.wantWrite, restoreOriginal, hsome, ObjectToPack.backToOriginal,
      ObjectToPack.isDelta, hb]
  · obtain ⟨original, horiginal⟩ := hlinked.readable o ho (by rw [hb]; rfl)
    have hmarked : IsOriginal store { o with offset := 1 } original := by
      cases horiginal with
      | kept h => exact .kept h
      | stored dropped delta hash h => exact .stored dropped delta hash h
    obtain ⟨o', hbreak, hbase, hobject, hknown, hoffset⟩ := breakCycle_of_wantWrite hmarked rfl (by simp [hb])
    exact ⟨o', hbreak, hbase, by rw [hknown]; rfl, hoffset, .whole horiginal hbase hobject hknown⟩

def untouched (os : List ObjectToPack) (M ws : List ℕ) : ℕ :=
  ((Finset.range os.length).filter fun j => j ∉ ws ∧ j ∉ M).card

lemma untouched_cons_lt (hk : k < os.length) (hws : k ∉ ws) (hM : k ∉ M) :
    untouched os (k :: M) ws < untouched os M ws := by
  refine Finset.card_lt_card ⟨fun j hj => ?_, fun hsub => ?_⟩
  · simp only [Finset.mem_filter, mem_cons, not_or] at hj ⊢
    exact ⟨hj.1, hj.2.1, hj.2.2.2⟩
  · have hin : k ∈ (Finset.range os.length).filter fun j => j ∉ ws ∧ j ∉ M := by simp [hk, hws, hM]
    have := hsub hin
    simp at this

lemma entry_first (fuel : ℕ) (hget : e.objects[k]? = some { o with offset := 0 }) {e₁ : Encoder}
    (he₁ : e₁ = ⟨e.written, e.objects.set k { o with offset := 1 }⟩) :
    entry store deflate useRefDeltas (fuel + 1) k e =
      (match o.base with
      | none => writeEntry deflate useRefDeltas k e₁
      | some b => do
        if (← sliceAt e₁.objects b).isWritten then writeEntry deflate useRefDeltas k e₁
        else writeEntry deflate useRefDeltas k (← entry store deflate useRefDeltas fuel b e₁)) := by
  subst he₁
  simp only [entry, sliceAt_natCast hget, Outcome.ok_bind]
  rw [breakCycle_of_not_wantWrite (by simp [ObjectToPack.wantWrite])]
  simp only [Outcome.ok_bind, ObjectToPack.isWritten, set_of_getElem? hget, ObjectToPack.markWantWrite]
  rfl

lemma writeEntry_of_mem (h : e.OnWay store deflate useRefDeltas os M ws) (hk : k ∈ ws) :
    writeEntry deflate useRefDeltas k e = .ok e := by
  obtain ⟨o', ho', hwritten, -⟩ := h.laid.isWritten hk
  simp only [writeEntry, sliceAt_natCast ho', Outcome.ok_bind, hwritten, if_true, Outcome.pure_eq]

lemma Encoder.OnWay.writeDelta (hlinked : Linked store os)
    (h : e.OnWay store deflate useRefDeltas os (k :: M) ws) (ho : os[k]? = some o)
    (hbase : ∀ b, o.base = some b → b ∈ ws) : ∃ e' more, writeEntry deflate useRefDeltas k e = .ok e' ∧
      e'.OnWay store deflate useRefDeltas os M (ws ++ more) ∧ k ∈ ws ++ more := by
  by_cases hk : k ∈ ws
  · exact ⟨e, [], writeEntry_of_mem h hk, by simpa using h.unmark hk, by simpa using hk⟩
  · have hget : e.objects[k]? = some { o with offset := 1 } := by simpa using h.waiting k o ho hk
    have hbecomes : Becomes store o { o with offset := 1 } := .same rfl
    obtain ⟨e', hwrite, hon⟩ := h.write hlinked ho hk hbecomes le_rfl (hlinked.whole o (mem_of_getElem? ho)) hbase
    rw [set_of_getElem? hget] at hwrite
    exact ⟨e', [k], hwrite, hon.unmark (by simp), by simp⟩

lemma entry_writes (hlinked : Linked store os) {fuel : ℕ} (hk : k < os.length)
    (h : e.OnWay store deflate useRefDeltas os M ws) (hfuel : untouched os M ws < fuel) :
    ∃ e' more, entry store deflate useRefDeltas fuel k e = .ok e' ∧
      e'.OnWay store deflate useRefDeltas os M (ws ++ more) ∧ k ∈ ws ++ more := by
  induction fuel generalizing k M ws e with
  | zero => omega
  | succ fuel ih =>
    obtain ⟨o, ho⟩ : ∃ o, os[k]? = some o := ⟨_, getElem?_eq_getElem hk⟩
    have hmem : o ∈ os := mem_of_getElem? ho
    by_cases hws : k ∈ ws
    · obtain ⟨o', ho', hwritten, hwant⟩ := h.laid.isWritten hws
      refine ⟨e, [], ?_, by simpa using h, by simpa using hws⟩
      simp only [entry, sliceAt_natCast ho', Outcome.ok_bind, breakCycle_of_not_wantWrite hwant, hwritten, if_true,
        set_of_getElem? ho', Outcome.pure_eq]
    · have hget := h.waiting k o ho hws
      by_cases hM : k ∈ M
      · -- the encoder has come back to the object
        rw [if_pos hM] at hget
        obtain ⟨o', hbreak, hbase, hsome, hone, hbecomes⟩ := breakCycle_marked hlinked hmem
        have hnot : o'.isWritten = false := by simp [ObjectToPack.isWritten, hone]
        have hmark : o'.markWantWrite = o' := by rw [ObjectToPack.markWantWrite, ← hone]
        obtain ⟨e', hwrite, hon⟩ := h.write hlinked ho hws hbecomes hone.le (fun _ => hsome) (by simp [hbase])
        refine ⟨e', [k], ?_, hon, by simp⟩
        simp only [entry, sliceAt_natCast hget, Outcome.ok_bind, hbreak, hnot, Bool.false_eq_true, if_false, hbase,
          hmark, set_set, hwrite]
      · rw [if_neg hM] at hget
        have hmarked := h.mark ho hws
        have hless := untouched_cons_lt hk hws hM
        obtain ⟨e₁, he₁⟩ : ∃ e₁ : Encoder, e₁ = ⟨e.written, e.objects.set k { o with offset := 1 }⟩ := ⟨_, rfl⟩
        rw [← he₁] at hmarked
        rw [entry_first fuel hget he₁]
        cases hb : o.base with
        | none => exact hmarked.writeDelta hlinked ho (by simp [hb])
        | some b =>
          have hbos := hlinked.inside o hmem b hb
          by_cases hbws : b ∈ ws
          · obtain ⟨ob, hob, hwritten, -⟩ := hmarked.laid.isWritten hbws
            simp only [sliceAt_natCast hob, Outcome.ok_bind, hwritten, if_true]
            exact hmarked.writeDelta hlinked ho (by simpa [hb] using hbws)
          · have hob := hmarked.waiting b _ (getElem?_eq_getElem hbos) hbws
            obtain ⟨e₂, more, hentry, hon, hmore⟩ := ih hbos hmarked (by omega)
            obtain ⟨e', more', hwrite, hon', hin⟩ := hon.writeDelta hlinked ho (by simpa [hb] using hmore)
            refine ⟨e', more ++ more', ?_, by simpa using hon', by simpa using hin⟩
            simp only [sliceAt_natCast hob, Outcome.ok_bind]
            rw [if_neg (by simp only [ObjectToPack.isWritten]; split_ifs <;> simp), hentry, Outcome.ok_bind, hwrite]

lemma encode_run (hlinked : Linked store os) {m : ℕ} (hm : m ≤ os.length) : ∃ e ws,
    (List.range m).foldlM (fun e k => entry store deflate useRefDeltas (os.length + 1) k e)
      (⟨head os.length, os⟩ : Encoder) = .ok e ∧ e.OnWay store deflate useRefDeltas os [] ws ∧ ∀ k < m, k ∈ ws := by
  induction m with
  | zero =>
    refine ⟨_, [], rfl, ⟨.nil, rfl, fun k o ho _ => ?_, by simp⟩, by simp⟩
    simp [ho, ← hlinked.fresh o (mem_of_getElem? ho)]
  | succ m ih =>
    obtain ⟨e, ws, hfold, hon, hall⟩ := ih (by omega)
    have huntouched : untouched os [] ws ≤ os.length := (Finset.card_filter_le _ _).trans_eq (Finset.card_range _)
    obtain ⟨e', more, hentry, hon', hin⟩ := entry_writes hlinked hm hon (Nat.lt_succ_of_le huntouched)
    refine ⟨e', ws ++ more, ?_, hon', fun k hk => ?_⟩
    · rw [range_succ, foldlM_append, hfold]
      simp [hentry]
    · rcases Nat.lt_succ_iff_lt_or_eq.mp hk with hk | rfl
      · exact mem_append_left _ (hall k hk)
      · exact hin

end Run

/-- Each object is written once, a delta behind its base, and no cycle is written without an object that is
whole. -/
structure Encoded.Complete (store : ObjectStorer sha1) (deflate : Bytes → Bytes) (useRefDeltas : Bool)
    (os : List ObjectToPack) (ws : List ℕ) (r : Encoded) : Prop where
  once : ws.Perm (List.range os.length)
  laid : ∃ body, Laid deflate useRefDeltas r.objects ws body ∧ r.pack = body ++ r.checksum.bytes
  becomes : ∀ (k : ℕ) o, os[k]? = some o → ∃ o', r.objects[k]? = some o' ∧ Becomes store o o'
  behind : ∀ (k b : ℕ) o, r.objects[k]? = some o → o.base = some b → ∃ ob, r.objects[b]? = some ob ∧
    ob.offset < o.offset ∧ (useRefDeltas = false → entryHeader useRefDeltas r.objects o =
      .ok (entryHead .ofsDelta o.object.size.toNat ++ WriteVariableWidthInt (o.offset - ob.offset)))
  cycle : ∀ k, Relation.TransGen (Links os) k k → ∃ (j : ℕ) (o : ObjectToPack), Relation.ReflTransGen (Links os) k j ∧
    Relation.ReflTransGen (Links os) j k ∧ r.objects[j]? = some o ∧ o.base = none
  count : head ws.length <+: r.pack ∧
    (ws.length < 2 ^ 32 → bigEndian ((r.pack.drop 8).take 4) = ws.length)

lemma Becomes.base {o o' : ObjectToPack} (h : Becomes store o o') (hb : o'.base ≠ none) : o'.base = o.base := by
  cases h with
  | same h => rw [h]
  | whole _ base => exact absurd base hb

lemma exists_whole_of_cycle {final : List ObjectToPack}
    (hbecomes : ∀ (k : ℕ) o, os[k]? = some o → ∃ o', final[k]? = some o' ∧ Becomes store o o')
    (hbehind : ∀ (k b : ℕ) o, final[k]? = some o → o.base = some b → ∃ ob, final[b]? = some ob ∧ ob.offset < o.offset)
    (hcycle : Relation.TransGen (Links os) k k) : ∃ (j : ℕ) (o : ObjectToPack), Relation.ReflTransGen (Links os) k j ∧
      Relation.ReflTransGen (Links os) j k ∧ final[j]? = some o ∧ o.base = none := by
  by_contra hnone
  push Not at hnone
  let off (j : ℕ) := (final[j]?.map ObjectToPack.offset).getD 0
  -- one link that is left, from an object on the cycle
  have hstep : ∀ j b, Relation.ReflTransGen (Links os) k j → Relation.ReflTransGen (Links os) j k →
      Links os j b → off b < off j := by
    rintro j b hkj hjk ⟨oj, hoj, hb⟩
    obtain ⟨o, ho, hbec⟩ := hbecomes j oj hoj
    obtain ⟨ob, hob, hlt⟩ := hbehind j b o ho ((hbec.base (hnone j o hkj hjk ho)).trans hb)
    simpa [off, ho, hob] using hlt
  have hdown : ∀ j, Relation.TransGen (Links os) k j → Relation.ReflTransGen (Links os) j k → off j < off k := by
    intro j hkj
    induction hkj with
    | single hlink => exact fun hjk => hstep k _ .refl (.head hlink hjk) hlink
    | tail hki hlink ih =>
      exact fun hjk => (hstep _ _ hki.to_reflTransGen (.head hlink hjk) hlink).trans (ih (.head hlink hjk))
  exact lt_irrefl _ (hdown k hcycle .refl)

end Cycles

def emptyStore (sha1 : Bytes → Bytes) : ObjectStorer sha1 where
  encodedObject _ := none
  delta_eq := by simp
  type_mem := by simp
  hash_eq := by simp
  name_eq := by simp
  length_lt := by simp

def blobOn (b : ℕ) : ObjectToPack where
  object := { type := .ofsDelta, content := [1, 1, 1, 0x61], hash := .zeroHash }
  base := some b
  original := some { type := .blob, content := [0x61], hash := .zeroHash }
  depth := 1

end GoGit.Pack
