import GoGit.DeltaWriterSound
import GoGit.PackResolve

namespace GoGit.Pack

open List

open Delta (Accepted)

section Pointwise

variable {α β γ : Type} {R : α → β → Prop} {l₁ : List α} {l₂ : List β}

section

variable (h : List.Forall₂ R l₁ l₂)

include h

lemma forall₂_mem_left {a : α} (ha : a ∈ l₁) : ∃ b ∈ l₂, R a b := by
  induction h with
  | nil => simp at ha
  | cons hR _ ih =>
    rcases mem_cons.mp ha with rfl | ha
    · exact ⟨_, by simp, hR⟩
    · obtain ⟨b, hb, hR⟩ := ih ha
      exact ⟨b, by simp [hb], hR⟩

lemma forall₂_mem_right {b : β} (hb : b ∈ l₂) : ∃ a ∈ l₁, R a b :=
  forall₂_mem_left h.flip hb

lemma map_eq_of_forall₂ {f : α → γ} {g : β → γ} (hfg : ∀ a b, R a b → f a = g b) : l₁.map f = l₂.map g := by
  induction h with
  | nil => rfl
  | cons hR _ ih => rw [map_cons, map_cons, hfg _ _ hR, ih]

end

end Pointwise

section Meaning

variable (env : Env) (data : Bytes)

/-- Type and content of the object an entry stands for. The derivation is finite, so base
links are not cyclic. -/
inductive ResolvesTo (es : List ObjectHeader) : ObjectHeader → ObjectType → Bytes → Prop
  | full {oh : ObjectHeader} (mem : oh ∈ es) (kind : oh.type.isDelta = false) :
      ResolvesTo es oh oh.type (rawContent env data oh)
  | ofs {oh b : ObjectHeader} {t : ObjectType} {base out : Bytes} (mem : oh ∈ es)
      (kind : oh.type = .ofsDelta) (parent : ResolvesTo es b t base)
      (link : (b.offset : ℤ) = oh.offsetReference)
      (patch : Accepted base (rawContent env data oh) out) : ResolvesTo es oh t out
  | ref {oh b : ObjectHeader} {t : ObjectType} {base out : Bytes} (mem : oh ∈ es)
      (kind : oh.type = .refDelta) (parent : ResolvesTo es b t base)
      (link : ComputeHash env.sha1 t base = oh.reference)
      (patch : Accepted base (rawContent env data oh) out) : ResolvesTo es oh t out

def CollisionFree (es : List ObjectHeader) : Prop :=
  ∀ a b t t' c c', ResolvesTo env data es a t c → ResolvesTo env data es b t' c' →
    ComputeHash env.sha1 t c = ComputeHash env.sha1 t' c' → t = t' ∧ c = c'

end Meaning

variable {t : ObjectType} {c : Bytes}

section Unique

variable {env : Env} {seekable : Bool} {data : Bytes} {es : List ObjectHeader}
  {n : ℕ} {oh : ObjectHeader}

lemma ResolvesTo.mem (h : ResolvesTo env data es oh t c) : oh ∈ es := by
  cases h <;> assumption

lemma accepted_unique {base delta out out' : Bytes} (h : Accepted base delta out)
    (h' : Accepted base delta out') : out = out' := by
  obtain ⟨cs, _, ⟨r, hr⟩, hne, hin, hout, htarget⟩ := h
  obtain ⟨ds, _, ⟨s, hs⟩, hne', hin', hout', htarget'⟩ := h'
  have hsum : Delta.sizesSum cs = (Delta.header delta).targetSz := by
    rw [← Delta.outputs_length hin, ← hout, htarget]
  have hsum' : Delta.sizesSum ds = (Delta.header delta).targetSz := by
    rw [← Delta.outputs_length hin', ← hout', htarget']
  have hfirst := Delta.firstReaches_of_sum hr hne hin hsum (Delta.header_targetSz_lt delta)
  obtain rfl := Delta.eq_of_firstReaches hr hs (Delta.header_targetSz_lt delta) hfirst hne' hin' hsum'
  rw [hout, hout']

variable {base delta out : Bytes}

lemma accepted_ne_nil (h : Accepted base delta out) : out ≠ [] := by
  obtain ⟨cs, _, ⟨r, hr⟩, hne, hin, hout, _⟩ := h
  have hpos := Delta.sizesSum_pos hne hr.size_pos
  rw [← Delta.outputs_length hin, ← hout] at hpos
  exact length_pos_iff.mp hpos

lemma accepted_length_lt (h : Accepted base delta out) : out.length < 2 ^ 64 := by
  obtain ⟨_, _, _, _, _, _, htarget⟩ := h
  rw [htarget]
  exact Delta.header_targetSz_lt delta

lemma ResolvesTo.unique (hcol : CollisionFree env data es)
    (hoff : ∀ a ∈ es, ∀ b ∈ es, a.offset = b.offset → a = b) {t t' : ObjectType}
    {c c' : Bytes} (h : ResolvesTo env data es oh t c) (h' : ResolvesTo env data es oh t' c') : t = t' ∧ c = c' := by
  induction h generalizing t' c' with
  | full mem kind =>
    cases h' with
    | full => exact ⟨rfl, rfl⟩
    | ofs _ kind' => rw [kind'] at kind; cases kind
    | ref _ kind' => rw [kind'] at kind; cases kind
  | ofs mem kind parent link patch ih =>
    cases h' with
    | full _ kind' => rw [kind] at kind'; cases kind'
    | ref _ kind' => rw [kind] at kind'; cases kind'
    | ofs _ _ parent' link' patch' =>
      obtain rfl := hoff _ parent.mem _ parent'.mem (by omega)
      obtain ⟨rfl, rfl⟩ := ih parent'
      exact ⟨rfl, accepted_unique patch patch'⟩
  | ref mem kind parent link patch ih =>
    cases h' with
    | full _ kind' => rw [kind] at kind'; cases kind'
    | ofs _ kind' => rw [kind] at kind'; cases kind'
    | ref _ _ parent' link' patch' =>
      obtain ⟨rfl, rfl⟩ := hcol _ _ _ _ _ _ parent parent' (link.trans link'.symm)
      exact ⟨rfl, accepted_unique patch patch'⟩

lemma readEntries_sorted (m offset : ℕ) : (∀ oh ∈ (readEntries env seekable data m offset).1, offset ≤ oh.offset) ∧
      (readEntries env seekable data m offset).1.Pairwise fun a b => a.offset < b.offset := by
  induction m generalizing offset with
  | zero => simp [readEntries]
  | succ m ih =>
    cases hr : readEntry env seekable data offset with
    | error e => simp [readEntries, hr]
    | ok q =>
      obtain ⟨oh, stop⟩ := q
      have hat := readEntry_spec hr
      have hstart := hat.starts
      have hbefore := hat.before
      have hends := hat.ends
      obtain ⟨hle, hpw⟩ := ih stop
      simp only [readEntries, hr, mem_cons, forall_eq_or_imp, pairwise_cons]
      refine ⟨⟨hstart.ge, ?_⟩, ?_, hpw⟩
      · intro x hx
        have := hle x hx
        omega
      · intro x hx
        have := hle x hx
        omega

lemma entries_sorted : (entries env seekable data n).Pairwise fun a b => a.offset < b.offset :=
  (readEntries_sorted n 12).2

lemma entries_offsets_nodup : ((entries env seekable data n).map ObjectHeader.offset).Nodup := by
  rw [List.Nodup, pairwise_map]
  exact entries_sorted.imp fun h => h.ne

lemma entries_offset_inj : ∀ a ∈ entries env seekable data n,
    ∀ b ∈ entries env seekable data n, a.offset = b.offset → a = b :=
  fun _ ha _ hb hab => inj_on_of_nodup_map entries_offsets_nodup ha hb hab

lemma entry_at (h : oh ∈ entries env seekable data n) : ∃ stop, EntryAt env seekable data oh.offset oh stop := by
  obtain ⟨start, stop, hat⟩ := mem_readEntries h
  obtain rfl := hat.starts
  exact ⟨stop, hat⟩

end Unique

structure Describes (env : Env) (data : Bytes) (es : List ObjectHeader)
    (value : ObjectHeader → ObjectType × Bytes) : Prop where
  full : ∀ oh ∈ es, oh.type.isDelta = false → value oh = (oh.type, rawContent env data oh)
  delta : ∀ oh ∈ es, oh.type.isDelta = true → ∃ b ∈ es, b.offset < oh.offset ∧
    (oh.type = .ofsDelta → (b.offset : ℤ) = oh.offsetReference) ∧
    (oh.type = .refDelta → ComputeHash env.sha1 (value b).1 (value b).2 = oh.reference) ∧
    (value oh).1 = (value b).1 ∧ Accepted (value b).2 (rawContent env data oh) (value oh).2
  offsets : ∀ a ∈ es, ∀ b ∈ es, a.offset = b.offset → a = b
  names : ∀ a ∈ es, ∀ b ∈ es, ComputeHash env.sha1 (value a).1 (value a).2 =
    ComputeHash env.sha1 (value b).1 (value b).2 → value a = value b

variable {oh : ObjectHeader}

section Described

variable {env : Env} {data : Bytes} {es : List ObjectHeader}
  {value : ObjectHeader → ObjectType × Bytes}

lemma isDelta_iff : t.isDelta = true ↔ t = .ofsDelta ∨ t = .refDelta := by
  cases t <;> simp [ObjectType.isDelta]

section

variable (h : Describes env data es value)

include h

lemma Describes.resolves (hoh : oh ∈ es) : ResolvesTo env data es oh (value oh).1 (value oh).2 := by
  induction hk : oh.offset using Nat.strong_induction_on generalizing oh with
  | _ k ih =>
    cases hd : oh.type.isDelta with
    | false =>
      rw [h.full oh hoh hd]
      exact .full hoh hd
    | true =>
      obtain ⟨b, hb, hlt, hofs, href, htype, hpatch⟩ := h.delta oh hoh hd
      have hparent := ih b.offset (by omega) hb rfl
      rw [htype]
      rcases isDelta_iff.mp hd with hty | hty
      · exact .ofs hoh hty hparent (hofs hty) hpatch
      · exact .ref hoh hty hparent (href hty) hpatch

lemma Describes.eq_value (hres : ResolvesTo env data es oh t c) : value oh = (t, c) := by
  induction hres with
  | full mem kind => exact h.full _ mem kind
  | ofs mem kind parent link patch ih =>
    obtain ⟨b, hb, _, hofs, _, htype, hpatch⟩ := h.delta _ mem (by simp [kind, ObjectType.isDelta])
    obtain rfl := h.offsets _ parent.mem b hb (by have := hofs kind; omega)
    rw [ih] at htype hpatch
    exact Prod.ext htype (accepted_unique hpatch patch)
  | ref mem kind parent link patch ih =>
    obtain ⟨b, hb, _, _, href, htype, hpatch⟩ := h.delta _ mem (by simp [kind, ObjectType.isDelta])
    have hbase := h.names _ parent.mem b hb (by rw [ih, href kind]; exact link)
    rw [← hbase, ih] at htype hpatch
    exact Prod.ext htype (accepted_unique hpatch patch)

lemma Describes.collisionFree : CollisionFree env data es := by
  intro a b t t' c c' ha hb hname
  have hva := h.eq_value ha
  have hvb := h.eq_value hb
  have := h.names a ha.mem b hb.mem (by rw [hva, hvb]; exact hname)
  rw [hva, hvb] at this
  exact Prod.mk.injEq .. ▸ this

end

end Described

section Known

variable {env : Env} {seekable : Bool} {data : Bytes} {n : ℕ}
  {t : ObjectType}

/-- `k` is what the resolver should know of entry `oh`. -/
def Stands (env : Env) (seekable : Bool) (data : Bytes) (es : List ObjectHeader)
    (oh k : ObjectHeader) : Prop :=
  ∃ t out, ResolvesTo env data es oh t out ∧ k.offset = oh.offset ∧ k.crc32 = oh.crc32 ∧
    k.type = t ∧ k.size = out.length ∧ k.hash = ComputeHash env.sha1 t out ∧
    (∀ c, parentContents env seekable data k = .ok c → c = out) ∧
    (seekable = true → parentContents env seekable data k = .ok out)

lemma computeHash_of_size {size : ℤ} {content : Bytes} (h : size = content.length)
    (hlt : size < 2 ^ 63) : hasherSum env.sha1 (hasherReset t size ++ content) = ComputeHash env.sha1 t content := by
  have hlen : content.length < 2 ^ 63 := by omega
  rw [ComputeHash, int64_of_lt hlen, h]

lemma stands_full (hmem : oh ∈ entries env seekable data n)
    (hfull : oh.type.isDelta = false) (hsize : oh.size = (rawContent env data oh).length) :
    Stands env seekable data (entries env seekable data n) oh oh := by
  obtain ⟨stop, hat⟩ := entry_at hmem
  obtain ⟨hcontent, hhash⟩ := hat.full hfull
  refine ⟨oh.type, rawContent env data oh, .full hmem hfull, rfl, rfl, rfl, hsize, ?_, ?_, ?_⟩
  · rw [hhash, computeHash_of_size hsize hat.size_lt]
  · intro c hc
    unfold parentContents at hc
    split_ifs at hc with h₁
    · simp only [Outcome.ok.injEq] at hc
      rw [hcontent] at h₁ hc
      cases seekable with
      | true => simp at h₁
      | false => exact hc.symm
    · rw [hat.inflates] at hc
      simpa using hc.symm
  · rintro rfl
    have hoff : ¬ oh.contentOffset = 0 := by
      have := hat.starts
      have := hat.before
      omega
    have hsz : ¬ oh.size < 0 := by omega
    simp [parentContents, hcontent, hat.inflates, hat.externalRef, hoff, hsz]

lemma deltaData_eq {delta : Bytes} (hmem : oh ∈ entries env seekable data n)
    (hd : oh.type.isDelta = true) (h : deltaData env seekable data oh = .ok delta) :
    delta = rawContent env data oh := by
  obtain ⟨stop, hat⟩ := entry_at hmem
  obtain ⟨hcontent, _⟩ := hat.delta hd
  unfold deltaData at h
  rw [hcontent, hat.inflates] at h
  split_ifs at h with h₁ h₂
  · simpa using h.symm
  · simpa [Except.mapError] using h.symm

lemma applyDelta_stands {oh k r : ObjectHeader} {base out : Bytes}
    (hmem : oh ∈ entries env seekable data n) (hd : oh.type.isDelta = true)
    (hres : ResolvesTo env data (entries env seekable data n) oh t out) (ht : k.type = t)
    (hbase : ∀ c, parentContents env seekable data k = .ok c → c = base)
    (hpatch : Accepted base (rawContent env data oh) out) (h : applyDelta env seekable data oh k = some r) :
    Stands env seekable data (entries env seekable data n) oh r := by
  obtain ⟨stop, hat⟩ := entry_at hmem
  have hhash := (hat.delta hd).2
  unfold applyDelta at h
  cases hdelta : deltaData env seekable data oh with
  | error e => simp [hdelta, Except.toOption] at h
  | ok delta =>
    obtain rfl := deltaData_eq hmem hd hdelta
    cases hc : parentContents env seekable data k with
    | fail e => simp [hdelta, hc, Except.toOption, Outcome.toOption] at h
    | panic => simp [hdelta, hc, Except.toOption, Outcome.toOption] at h
    | ok c =>
      obtain rfl := hbase c hc
      by_cases hgrow : int64 out.length < 0
      · have hpanic := @Delta.patchDeltaWriter_panics env.sha1 c (rawContent env data oh) t none out hpatch hgrow
        simp [hdelta, hc, Except.toOption, Outcome.toOption, patchHeader, hhash, ht, hpanic] at h
      · have hok := @Delta.patchDeltaWriter_of_accepted env.sha1 .buffer c (rawContent env data oh) t out
          hpatch (by simpa using hgrow)
        simp only [hdelta, hc, Except.toOption, Outcome.toOption, patchHeader, hhash, ht, hok,
          Option.bind_eq_bind, Option.bind_some, ↓reduceIte, Option.some.injEq] at h
        subst h
        have hlen : int64 out.length = out.length := by
          have := accepted_length_lt hpatch
          unfold int64 at hgrow ⊢
          split_ifs at hgrow ⊢ <;> omega
        have hne := accepted_ne_nil hpatch
        refine ⟨t, out, hres, rfl, rfl, rfl, hlen, rfl, ?_, fun _ => ?_⟩
        · intro c' hc'
          simpa [parentContents, hne] using hc'.symm
        · simp [parentContents, hne]

/-- The known objects stand for the entries that are done, one by one. -/
abbrev StandsAll (env : Env) (seekable : Bool) (data : Bytes) (es done known : List ObjectHeader) :
    Prop :=
  List.Forall₂ (Stands env seekable data es) done known

variable {es done known : List ObjectHeader}

variable {k : ObjectHeader}

section

variable (h : StandsAll env seekable data es done known)

include h

lemma StandsAll.of_known (hk : k ∈ known) :
    ∃ e ∈ done, Stands env seekable data es e k := forall₂_mem_right h hk

lemma StandsAll.of_done {e : ObjectHeader} (he : e ∈ done) :
    ∃ k ∈ known, Stands env seekable data es e k := forall₂_mem_left h he

lemma StandsAll.offsets : known.map ObjectHeader.offset = done.map ObjectHeader.offset :=
  (map_eq_of_forall₂ h fun _ _ ⟨_, _, _, hoff, _⟩ => hoff.symm).symm

end

lemma standsAll_full {es : List ObjectHeader}
    (hst : ∀ oh ∈ es, Stands env seekable data (entries env seekable data n) oh oh) :
    StandsAll env seekable data (entries env seekable data n) es es :=
  forall₂_same.mpr hst

variable {oh : ObjectHeader} {out : Bytes} (hcol : CollisionFree env data (entries env seekable data n))
  (hknown : StandsAll env seekable data (entries env seekable data n) done known)
  (hres : ResolvesTo env data (entries env seekable data n) oh t out) (hd : oh.type.isDelta = true)

include hcol hknown hres hd

lemma findBase_stands (hb : findBase known oh = some k) :
    ∃ base, Accepted base (rawContent env data oh) out ∧ k.type = t ∧
      (∀ c, parentContents env seekable data k = .ok c → c = base) ∧
      (seekable = true → parentContents env seekable data k = .ok base) := by
  cases hres with
  | full _ kind => rw [kind] at hd; cases hd
  | @ofs _ b _ base _ mem kind parent link patch =>
    rw [findBase, if_pos kind] at hb
    have hoff := find?_some hb
    obtain ⟨e, _, t', out', hres', hoff', _, htype, _, _, hcont, hread⟩ :=
      hknown.of_known (mem_reverse.mp (mem_of_find?_eq_some hb))
    simp only [decide_eq_true_eq] at hoff
    obtain rfl := entries_offset_inj _ parent.mem _ hres'.mem (by omega)
    obtain ⟨rfl, rfl⟩ := ResolvesTo.unique hcol entries_offset_inj parent hres'
    exact ⟨base, patch, htype, hcont, hread⟩
  | @ref _ b _ base _ mem kind parent link patch =>
    rw [findBase, if_neg (by simp [kind])] at hb
    have hname := find?_some hb
    obtain ⟨e, _, t', out', hres', _, _, htype, _, hhash, hcont, hread⟩ :=
      hknown.of_known (mem_reverse.mp (mem_of_find?_eq_some hb))
    simp only [decide_eq_true_eq] at hname
    obtain ⟨rfl, rfl⟩ := hcol _ _ _ _ _ _ parent hres' (by rw [link, ← hname, hhash])
    exact ⟨base, patch, htype, hcont, hread⟩

lemma resolveDelta_stands {r : ObjectHeader} (h : resolveDelta env seekable data known oh = some r) :
    Stands env seekable data (entries env seekable data n) oh r := by
  unfold resolveDelta at h
  cases hb : findBase known oh with
  | none => simp [hb] at h
  | some k =>
    rw [hb, Option.bind_some] at h
    obtain ⟨base, hpatch, htype, hcont, _⟩ := findBase_stands hcol hknown hres hd hb
    exact applyDelta_stands hres.mem hd hres htype hcont hpatch h

end Known

end GoGit.Pack
