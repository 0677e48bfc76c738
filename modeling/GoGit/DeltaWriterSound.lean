import GoGit.DeltaWriter
import GoGit.DeltaEmit

namespace GoGit.Delta

open List

/-- No non-empty beginning of the list adds up to `n` as a 64-bit number. -/
def NotReached (n : ℕ) (cs : List Command) : Prop :=
  ∀ p, p <+: cs → p ≠ [] → ¬ sizesSum p ≡ n [MOD 2 ^ 64]

structure Passed (srcSz targetSz n : ℕ) (body : Bytes) (cs : List Command) (rest : Bytes) :
    Prop where
  reads : Reads body cs rest
  inRange : ∀ c ∈ cs, c.InRange srcSz targetSz
  notReached : NotReached n cs

lemma sizesSum_cons (c : Command) (cs : List Command) : sizesSum (c :: cs) = c.size + sizesSum cs := by
  simp [sizesSum]

lemma uintSub_uintSub_uint {n w s : ℕ} (hw : w < 2 ^ 64) :
    uintSub (uintSub n w) (uint s) = uintSub n (uint (w + s)) := by
  unfold uintSub uint
  omega

lemma uintSub_sum_eq_zero_iff {n s w : ℕ} (hw : w < 2 ^ 64) :
    uintSub (uintSub n (uint s)) w = 0 ↔ s + w ≡ n [MOD 2 ^ 64] := by
  unfold uintSub uint Nat.ModEq
  omega

variable {cs : List Command} {c : Command} {n : ℕ}

lemma notReached_cons (hc : c.size < 2 ^ 64) :
    NotReached n (c :: cs) ↔ uintSub n c.size ≠ 0 ∧ NotReached (uintSub n c.size) cs := by
  have hiff : ∀ p, sizesSum (c :: p) ≡ n [MOD 2 ^ 64] ↔ sizesSum p ≡ uintSub n c.size [MOD 2 ^ 64] := by
    intro p
    rw [sizesSum_cons]
    exact modEq_credit_iff hc
  have hone : sizesSum [c] ≡ n [MOD 2 ^ 64] ↔ uintSub n c.size = 0 := by
    have := uintSub_lt n c.size
    rw [hiff []]
    simp only [sizesSum, map_nil, sum_nil, Nat.ModEq]
    omega
  constructor
  · intro h
    refine ⟨fun hz => h [c] (by simp) (by simp) (hone.mpr hz), ?_⟩
    intro p hp _ hs
    exact h (c :: p) (by simpa using hp) (by simp) ((hiff p).mpr hs)
  · rintro ⟨hz, h⟩ p hp hne hs
    rcases prefix_cons_iff.mp hp with rfl | ⟨t, rfl, ht⟩
    · exact hne rfl
    · by_cases htn : t = []
      · subst htn
        exact hz (hone.mp hs)
      · exact h t ht htn ((hiff t).mp hs)

section Loop

variable {base : Bytes} {targetSz : ℕ}

def WriterState.passed (st : WriterState) (base : Bytes) (cs : List Command) (rest : Bytes) :
    WriterState :=
  ⟨uintSub st.remaining (uint (sizesSum cs)), rest, st.dst ++ outputs base cs, st.hashed ++ outputs base cs⟩

lemma writerLoop_passed {srcSz fuel : ℕ} {cs : List Command} {rest : Bytes} :
    ∀ {st : WriterState}, st.remaining < 2 ^ 64 → Passed srcSz targetSz st.remaining st.delta cs rest →
      writerLoop base srcSz targetSz (cs.length + fuel) st =
        writerLoop base srcSz targetSz fuel (st.passed base cs rest) := by
  induction cs with
  | nil =>
    intro st hr hp
    have hd : st.delta = rest := by
      cases hp.reads
      rfl
    have hst : st.passed base [] rest = st := by
      have hz : uintSub st.remaining (uint (sizesSum [])) = st.remaining :=
        uintSub_of_le hr (Nat.zero_le _)
      simp only [WriterState.passed, hz, outputs, flatMap_nil, append_nil, ← hd]
    rw [hst, length_nil, Nat.zero_add]
  | cons c cs ih =>
    rintro st hr ⟨hreads, hc, hnot⟩
    cases hreads with
    | @cons _ tail _ _ _ head more =>
      have hsize : c.size < 2 ^ 64 := lt_trans (readCommand_bounds head).2.1 (by norm_num)
      obtain ⟨hz, hnot⟩ := (notReached_cons hsize).mp hnot
      have hstep := @writerStep_inRange base srcSz targetSz st c tail head (hc c (by simp))
      have hrest := @ih (st.write c.size tail (c.output base)) (uintSub_lt _ _)
        ⟨more, fun d hd => hc d (by simp [hd]), hnot⟩
      have hpass : (st.write c.size tail (c.output base)).passed base cs rest =
          st.passed base (c :: cs) rest := by
        simp [WriterState.passed, WriterState.write, uintSub_uintSub_uint hsize, sizesSum_cons, outputs]
      rw [length_cons, Nat.add_right_comm, writerLoop, hstep]
      simp only [WriterState.write, hz, ↓reduceIte] at hrest hpass ⊢
      rw [hrest, hpass]

/-- The bytes written are the output of complete in-range commands that reach the declared
size exactly. -/
def Completes (base body : Bytes) (targetSz : ℕ) (out : Bytes) : Prop :=
  ∃ cs rest, Reads body cs rest ∧ cs ≠ [] ∧ (∀ c ∈ cs, c.InRange base.length targetSz) ∧
    out = outputs base cs ∧ sizesSum cs = targetSz

end Loop

/-- The header is complete: it declares the two sizes, and `body` follows it. -/
def HeaderReads (delta : Bytes) (srcSz targetSz : ℕ) (body : Bytes) : Prop :=
  ∃ mid, headerSize delta = .ok (srcSz, mid) ∧ headerSize mid = .ok (targetSz, body)

lemma decodeLEB128_of_headerSize {delta rest : Bytes} (h : headerSize delta = .ok (n, rest)) :
    decodeLEB128 delta = (n, rest) := by
  unfold headerSize decodeLEB128ByteReader at h
  cases hr : decodeLEB128ReaderLoop 0 0 delta with
  | error e => simp [hr, Except.mapError] at h
  | ok p =>
    simp only [hr, Except.mapError, Except.ok.injEq] at h
    subst h
    exact decodeLEB128Loop_of_reader hr

lemma HeaderReads.header_eq {delta body : Bytes} {srcSz targetSz : ℕ}
    (h : HeaderReads delta srcSz targetSz body) : header delta = ⟨srcSz, targetSz, body⟩ := by
  obtain ⟨mid, h₁, h₂⟩ := h
  simp only [header, decodeLEB128_of_headerSize h₁, decodeLEB128_of_headerSize h₂]

lemma accepted_iff_completes {base delta body out : Bytes} {targetSz : ℕ}
    (h : HeaderReads delta base.length targetSz body) : Accepted base delta out ↔ Completes base body targetSz out := by
  have hh := h.header_eq
  constructor
  · rintro ⟨cs, _, ⟨rest, hreads⟩, hne, hin, hout, htarget⟩
    rw [hh] at hreads hin htarget
    exact ⟨cs, rest, hreads, hne, hin, hout, by rw [← outputs_length hin, ← hout, htarget]⟩
  · rintro ⟨cs, rest, hreads, hne, hin, hout, hsum⟩
    refine ⟨cs, by rw [hh], ⟨rest, by rwa [hh]⟩, hne, by rwa [hh], hout, ?_⟩
    rw [hh, hout, outputs_length hin, hsum]

lemma HeaderReads.of_accepted {base delta out : Bytes} (h : Accepted base delta out) :
    HeaderReads delta base.length (header delta).targetSz (header delta).body := by
  obtain ⟨cs, hsrc, ⟨rest, hreads⟩, hne, _⟩ := h
  obtain ⟨mid, h₁, h₂⟩ := headerSize_of_header (hreads.ne_nil hne)
  exact ⟨mid, by rw [h₁, hsrc], h₂⟩

section Writer

variable {sha1 : Bytes → Bytes} {dst : Destination} {base delta : Bytes} {typ : ObjectType}
  {writeHeader : Option (ObjectType → ℤ → Option PackError)} {targetSz : ℕ} {body : Bytes}

lemma HeaderReads.targetSz_lt {srcSz : ℕ} (h : HeaderReads delta srcSz targetSz body) : targetSz < 2 ^ 64 := by
  have := header_targetSz_lt delta
  rwa [h.header_eq] at this

lemma patchDeltaWriter_of_header (h : HeaderReads delta base.length targetSz body) :
    patchDeltaWriter sha1 dst base delta typ writeHeader =
      writeTarget sha1 dst base typ writeHeader base.length targetSz body := by
  obtain ⟨mid, h₁, h₂⟩ := h
  simp [patchDeltaWriter, h₁, h₂]

lemma Reads.split_last {a rest : Bytes}
    (h : Reads a (cs ++ [c]) rest) : ∃ mid, Reads a cs mid ∧ readCommand mid = .ok (c, rest) := by
  induction cs generalizing a with
  | nil =>
    cases h with
    | cons head more =>
      cases more
      exact ⟨a, .nil _, head⟩
  | cons d cs ih =>
    cases h with
    | cons head more =>
      obtain ⟨mid, hmid, hlast⟩ := ih more
      exact ⟨mid, .cons head hmid, hlast⟩

def started (typ : ObjectType) (targetSz : ℕ) (body : Bytes) : WriterState :=
  ⟨targetSz, body, [], hasherReset typ (int64 targetSz)⟩

section Target

variable {cs : List Command} {rest : Bytes} (hlt : targetSz < 2 ^ 64)
  (hgrow : ¬ (dst = .buffer ∧ int64 targetSz < 0))
  (hheader : (writeHeader.bind fun wh => wh typ (int64 targetSz)) = none)
include hlt hgrow hheader

variable (sha1) in
lemma writeTarget_passed (hp : Passed base.length targetSz targetSz body cs rest) :
    ∃ fuel, rest.length < fuel ∧ writeTarget sha1 dst base typ writeHeader base.length targetSz body =
      match writerLoop base base.length targetSz fuel ((started typ targetSz body).passed base cs rest) with
      | (st, .error e) => some (.failed st.dst e)
      | (st, .ok ()) => some ⟨st.dst, targetSz, hasherSum sha1 st.hashed, none⟩ := by
  have hlen := hp.reads.length_add_le
  have hloop := @writerLoop_passed base targetSz base.length (body.length + 1 - cs.length) cs rest
    (started typ targetSz body) hlt hp
  rw [Nat.add_sub_cancel' (by omega)] at hloop
  refine ⟨body.length + 1 - cs.length, by omega, ?_⟩
  rw [writeTarget, if_neg hgrow, hheader, ← hloop]
  rfl

lemma writeTarget_of_completes {out : Bytes} (h : Completes base body targetSz out) :
    writeTarget sha1 dst base typ writeHeader base.length targetSz body =
      some ⟨out, targetSz, ComputeHash sha1 typ out, none⟩ := by
  obtain ⟨cs, rest, hreads, hne, hin, hout, hsum⟩ := h
  have hlen : out.length = targetSz := by rw [hout, outputs_length hin, hsum]
  obtain ⟨ds, c, rfl⟩ : ∃ ds c, cs = ds ++ [c] := ⟨_, _, (dropLast_append_getLast hne).symm⟩
  obtain ⟨mid, hds, hc⟩ := hreads.split_last
  have hsize := readCommand_bounds hc
  have hsplit : sizesSum ds + c.size = targetSz := by
    rw [sizesSum_append] at hsum
    simpa [sizesSum] using hsum
  have hp : Passed base.length targetSz targetSz body ds mid := by
    refine ⟨hds, fun d hd => hin d (by simp [hd]), ?_⟩
    rintro p ⟨t, rfl⟩ _ hmod
    rw [sizesSum_append] at hsplit
    have := Nat.ModEq.eq_of_lt_of_lt hmod (by omega) hlt
    omega
  obtain ⟨fuel, hfuel, heq⟩ := writeTarget_passed sha1 hlt hgrow hheader hp
  obtain ⟨k, rfl⟩ : ∃ k, fuel = k + 1 := ⟨fuel - 1, by omega⟩
  have hz : uintSub ((started typ targetSz body).passed base ds mid).remaining c.size = 0 :=
    (uintSub_sum_eq_zero_iff (by omega)).mpr (by rw [hsplit]; rfl)
  rw [heq, writerLoop, @writerStep_inRange base base.length targetSz _ c rest hc (hin c (by simp))]
  simp only [WriterState.write, hz, ↓reduceIte]
  simp [WriterState.passed, started, hout, outputs, ComputeHash, ← hlen]

end Target

lemma Accepted.length_eq {out : Bytes} (h : Accepted base delta out) : out.length = (header delta).targetSz := by
  obtain ⟨_, _, _, _, _, _, htarget⟩ := h
  exact htarget

lemma patchDeltaWriter_of_accepted {out : Bytes} (h : Accepted base delta out)
    (hgrow : ¬ (dst = .buffer ∧ int64 out.length < 0)) : patchDeltaWriter sha1 dst base delta typ none =
      some ⟨out, out.length, ComputeHash sha1 typ out, none⟩ := by
  have hh := HeaderReads.of_accepted h
  have hlen := h.length_eq
  rw [hlen] at hgrow
  rw [patchDeltaWriter_of_header hh, writeTarget_of_completes hh.targetSz_lt hgrow rfl
    ((accepted_iff_completes hh).mp h), hlen]

/-- The delta made for a target gives the target in one pass over a stream, too, with its size and its name. -/
theorem patchDeltaWriter_diffDelta {src tgt : Bytes} (sha1 : Bytes → Bytes) (dst : Destination) (typ : ObjectType)
    (earlier : List Bytes) (hsrc : src.length < 2 ^ 32) (htgt : tgt ≠ []) (htgt' : tgt.length < 2 ^ 63) :
    ∃ index delta index', warmIndex src earlier = some index ∧ diffDelta index src tgt = some (delta, index') ∧
      patchDeltaWriter sha1 dst src delta typ none = some ⟨tgt, tgt.length, ComputeHash sha1 typ tgt, none⟩ := by
  obtain ⟨index, idx, hwarm, hprep, hready⟩ := warmIndex_prepared hsrc earlier
  obtain ⟨ops, hdiff, hemit⟩ := @diffDelta_emits index idx src tgt hprep hready hsrc.le
  obtain ⟨hacc, -⟩ := accepted_of_emits (by omega) (by omega) htgt hemit
  refine ⟨index, _, idx, hwarm, hdiff, patchDeltaWriter_of_accepted hacc ?_⟩
  simp only [int64]
  omega

theorem patchDeltaWriter_diffDelta_block : ∃ index delta index',
    warmIndex (replicate 16 97) [[98], replicate 17 97] = some index ∧
    diffDelta index (replicate 16 97) (98 :: replicate 16 97) = some (delta, index') ∧
    patchDeltaWriter id .buffer (replicate 16 97) delta .blob none =
      some ⟨98 :: replicate 16 97, 17, ComputeHash id .blob (98 :: replicate 16 97), none⟩ :=
  patchDeltaWriter_diffDelta id .buffer .blob [[98], replicate 17 97] (by decide) (by decide) (by decide)

lemma patchDeltaWriter_panics {out : Bytes} (h : Accepted base delta out) (hgrow : int64 out.length < 0) :
    patchDeltaWriter sha1 .buffer base delta typ writeHeader = none := by
  have hh := HeaderReads.of_accepted h
  have hlen := h.length_eq
  rw [hlen] at hgrow
  rw [patchDeltaWriter_of_header hh, writeTarget, if_pos ⟨rfl, hgrow⟩]

end Writer

end GoGit.Delta
