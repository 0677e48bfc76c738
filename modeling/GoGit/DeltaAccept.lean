import GoGit.DeltaPatch

/-! The declared sizes and the commands of a delta determine at most one target. `PatchDelta` produces that target
whenever it exists; it can also succeed when it does not, because a copy outside the source is passed over. -/
namespace GoGit.Delta

open List

variable {cs : List Command} {srcSz targetSz : ℕ}

structure Header where
  srcSz : ℕ
  targetSz : ℕ
  body : Bytes
  deriving DecidableEq, Repr

def header (delta : Bytes) : Header :=
  let (srcSz, rest) := decodeLEB128 delta
  let (targetSz, body) := decodeLEB128 rest
  ⟨srcSz, targetSz, body⟩

lemma header_targetSz_lt (delta : Bytes) : (header delta).targetSz < 2 ^ 64 :=
  decodeLEB128_lt _

structure Rebuilds (src delta : Bytes) (cs : List Command) (out : Bytes) : Prop where
  source : (header delta).srcSz = src.length
  reads : ∃ rest, Reads (header delta).body cs rest
  nonempty : cs ≠ []
  inRange : ∀ c ∈ cs, c.InRange src.length (header delta).targetSz
  output : out = outputs src cs
  target : out.length = (header delta).targetSz

/-- `out` is what the delta declares and its commands produce. -/
def Accepted (src delta out : Bytes) : Prop := ∃ cs, Rebuilds src delta cs out

/-- A successful patch returns the accepted target, and every other delta is an error. -/
def PatchSound (src delta : Bytes) : Prop :=
  (∀ out, PatchDelta src delta = .ok out → Accepted src delta out) ∧
    ((∀ out, ¬ Accepted src delta out) → ∃ e, PatchDelta src delta = .error e)

/-- Where the in-range commands first add up to the declared target size, no other command
has been read, and the sum has not wrapped around. -/
def StopsClean (src delta : Bytes) : Prop :=
  (header delta).srcSz = src.length →
    ∀ cs rest, Reads (header delta).body cs rest → InsertsFit (header delta).targetSz cs →
      FirstReaches src.length (header delta).targetSz (header delta).targetSz cs →
      (∀ c ∈ cs, c.InRange src.length (header delta).targetSz) ∧
        sizesSum cs = (header delta).targetSz

lemma kept_eq_self (h : ∀ c ∈ cs, c.InRange srcSz targetSz) : kept srcSz targetSz cs = cs := by
  unfold kept
  exact filter_eq_self.mpr fun c hc => by simpa using h c hc

lemma insertsFit_of_inRange (h : ∀ c ∈ cs, c.InRange srcSz targetSz) : InsertsFit targetSz cs := fun _ hd => h _ hd

lemma Reads.size_pos {delta rest : Bytes} (h : Reads delta cs rest) : ∀ c ∈ cs, 0 < c.size := by
  induction h with
  | nil => simp
  | cons head _ ih =>
    exact forall_mem_cons.mpr ⟨(readCommand_bounds head).1, ih⟩

lemma sizesSum_append (cs ds : List Command) : sizesSum (cs ++ ds) = sizesSum cs + sizesSum ds := by
  simp [sizesSum]

lemma sizesSum_pos (hne : cs ≠ []) (hpos : ∀ c ∈ cs, 0 < c.size) : 0 < sizesSum cs := by
  obtain ⟨c, ds, rfl⟩ := exists_cons_of_ne_nil hne
  have := hpos c (by simp)
  simp only [sizesSum, map_cons, sum_cons]
  omega

lemma firstReaches_of_sum {srcSz targetSz n : ℕ} {delta rest : Bytes}
    (hreads : Reads delta cs rest) (hne : cs ≠ []) (hc : ∀ c ∈ cs, c.InRange srcSz targetSz)
    (hsum : sizesSum cs = n) (hn : n < 2 ^ 64) : FirstReaches srcSz targetSz n cs := by
  refine ⟨hne, by rw [kept_eq_self hc, hsum], ?_⟩
  rintro p ⟨t, rfl⟩ _ hne' hs
  have ht : t ≠ [] := by
    rintro rfl
    simp at hne'
  have hpos := sizesSum_pos ht fun c hc => hreads.size_pos c (by simp [hc])
  rw [kept_eq_self fun c hm => hc c (by simp [hm])] at hs
  rw [sizesSum_append] at hsum
  have := Nat.ModEq.eq_of_lt_of_lt hs (by omega) hn
  omega

variable {src delta out : Bytes}

lemma patchDelta_ok_iff (hlen : minCopySize ≤ delta.length) :
    patchDelta src delta = .ok out ↔ (header delta).srcSz = src.length ∧
        ∃ cs rest, Reads (header delta).body cs rest ∧ InsertsFit (header delta).targetSz cs ∧
          FirstReaches src.length (header delta).targetSz (header delta).targetSz cs ∧
          out = outputs src (kept src.length (header delta).targetSz cs) := by
  have hlt := header_targetSz_lt delta
  simp only [patchDelta, not_lt.mpr hlen, ↓reduceIte, header] at hlt ⊢
  by_cases hsrc : (decodeLEB128 delta).1 = src.length
  · have hiff := @patchLoop_ok_iff src src.length (decodeLEB128 (decodeLEB128 delta).2).1
      ((decodeLEB128 (decodeLEB128 delta).2).2.length + 1)
      ⟨(decodeLEB128 (decodeLEB128 delta).2).1, (decodeLEB128 (decodeLEB128 delta).2).2, []⟩ out
      (Nat.lt_succ_self _) hlt
    simpa [hsrc] using hiff
  · simp [hsrc]

lemma patchDelta_of_accepted (hlen : minCopySize ≤ delta.length)
    (h : Accepted src delta out) : patchDelta src delta = .ok out := by
  obtain ⟨cs, hsrc, ⟨rest, hreads⟩, hne, hc, hout, htarget⟩ := h
  have hsum : sizesSum cs = (header delta).targetSz := by
    rw [← outputs_length hc, ← hout, htarget]
  refine (patchDelta_ok_iff hlen).mpr ⟨hsrc, cs, rest, hreads, insertsFit_of_inRange hc, ?_, ?_⟩
  · exact firstReaches_of_sum hreads hne hc hsum (header_targetSz_lt delta)
  · rw [kept_eq_self hc, hout]

lemma eq_of_firstReaches {delta r s : Bytes} {cs ds : List Command}
    (hcs : Reads delta cs r) (hds : Reads delta ds s) (hlt : targetSz < 2 ^ 64)
    (hfirst : FirstReaches srcSz targetSz targetSz cs) (hne : ds ≠ [])
    (hc : ∀ c ∈ ds, c.InRange srcSz targetSz) (hsum : sizesSum ds = targetSz) : cs = ds := by
  have hds' := firstReaches_of_sum hds hne hc hsum hlt
  by_contra hdiff
  rcases hcs.prefix_or hds with hp | hp
  · exact hds'.first cs hp hfirst.nonempty hdiff hfirst.sum
  · exact hfirst.first ds hp hne (Ne.symm hdiff) hds'.sum

lemma PatchDelta_eq_patchDelta {src delta : Bytes} (hsrc : src ≠ [])
    (hdelta : minDeltaSize ≤ delta.length) : PatchDelta src delta = patchDelta src delta := by
  have hpos := length_pos_iff.mpr hsrc
  rw [PatchDelta, if_neg (by omega)]

/-- A patch is sound exactly on the deltas whose commands stop clean. -/
theorem patchSound_iff_stopsClean {src delta : Bytes} (hsrc : src ≠ []) (hdelta : 4 ≤ delta.length) :
    PatchSound src delta ↔ StopsClean src delta := by
  have hlt := header_targetSz_lt delta
  unfold PatchSound
  rw [PatchDelta_eq_patchDelta hsrc hdelta]
  constructor
  · rintro ⟨hok, _⟩ hs cs rest hreads hfit hreach
    obtain ⟨ds, _, ⟨s, hds⟩, hne, hc, hout, htarget⟩ :=
      hok _ ((patchDelta_ok_iff hdelta).mpr ⟨hs, cs, rest, hreads, hfit, hreach, rfl⟩)
    have hsum : sizesSum ds = (header delta).targetSz := by
      rw [← outputs_length hc, ← hout, htarget]
    obtain rfl := eq_of_firstReaches hreads hds hlt hreach hne hc hsum
    exact ⟨hc, hsum⟩
  · intro hclean
    have hok : ∀ out, patchDelta src delta = .ok out → Accepted src delta out := by
      intro out hout
      obtain ⟨hs, cs, rest, hreads, hfit, hreach, rfl⟩ := (patchDelta_ok_iff hdelta).mp hout
      obtain ⟨hc, hsum⟩ := hclean hs cs rest hreads hfit hreach
      refine ⟨cs, hs, ⟨rest, hreads⟩, hreach.nonempty, hc, by rw [kept_eq_self hc], ?_⟩
      rw [kept_eq_self hc, outputs_length hc, hsum]
    refine ⟨hok, fun hnone => ?_⟩
    cases hres : patchDelta src delta with
    | ok out => exact absurd (hok out hres) (hnone out)
    | error e => exact ⟨e, rfl⟩

theorem patchSound_iff_stopsClean_insert : PatchSound [97] [1, 1, 1, 98] ↔ StopsClean [97] [1, 1, 1, 98] :=
  patchSound_iff_stopsClean (by decide) (by decide)

theorem patchSound_counterexample : ¬ PatchSound [97] [1, 1, 0x91, 5, 1, 1, 98] := by
  intro h
  have hok : PatchDelta [97] [1, 1, 0x91, 5, 1, 1, 98] = .ok [98] := by decide
  obtain ⟨cs, _, ⟨rest, hreads⟩, hne, hc, _, _⟩ := h.1 _ hok
  have hbody : (header [1, 1, 0x91, 5, 1, 1, 98]).body = [0x91, 5, 1, 1, 98] := by decide
  have hread : readCommand [0x91, 5, 1, 1, 98] = .ok (.copy 5 1, [1, 98]) := by decide
  rw [hbody] at hreads
  cases hreads with
  | nil => exact hne rfl
  | cons head _ =>
    rw [hread] at head
    simp only [Except.ok.injEq, Prod.mk.injEq] at head
    have := hc (.copy 5 1) (by simp [head.1])
    simp [Command.InRange] at this

end GoGit.Delta
