import GoGit.DeltaCommand

namespace GoGit.Delta

open List

structure PatchState where
  remaining : ℕ
  delta : Bytes
  dst : Bytes
  deriving DecidableEq, Repr

/-- One iteration of the loop, up to the test of the remaining size. -/
def patchStep (src : Bytes) (srcSz targetSz : ℕ) (st : PatchState) :
    Except PackError PatchState :=
  match st.delta with
  | [] => .error .invalidDelta
  | cmd :: delta =>
    if isCopyFromSrc cmd then do
      let (offset, delta) ← decodeOffset cmd delta
      let (sz, delta) ← decodeSize cmd delta
      if invalidSize sz targetSz || invalidOffsetSize offset sz srcSz then
        -- `break` leaves the `switch`, not the loop: the command is dropped
        return { st with delta := delta }
      else
        return ⟨uintSub st.remaining sz, delta, st.dst ++ (src.drop offset).take sz⟩
    else if isCopyFromDelta cmd then
      let sz := cmd.toNat
      if invalidSize sz targetSz then .error .invalidDelta
      else if delta.length < sz then .error .invalidDelta
      else .ok ⟨uintSub st.remaining sz, delta.drop sz, st.dst ++ delta.take sz⟩
    else .error .deltaCmd

/-- The loop. Every iteration consumes a byte of the delta, so a fuel above its length is
never used up. -/
def patchLoop (src : Bytes) (srcSz targetSz : ℕ) : ℕ → PatchState → Except PackError Bytes
  | 0, _ => .error .invalidDelta
  | fuel + 1, st => do
    let st ← patchStep src srcSz targetSz st
    if st.remaining = 0 then return st.dst else patchLoop src srcSz targetSz fuel st

def patchDelta (src delta : Bytes) : Except PackError Bytes :=
  if delta.length < minCopySize then .error .invalidDelta
  else
    let (srcSz, delta) := decodeLEB128 delta
    if srcSz ≠ src.length then .error .invalidDelta
    else
      let (targetSz, delta) := decodeLEB128 delta
      patchLoop src srcSz targetSz (delta.length + 1) ⟨targetSz, delta, []⟩

/-- The exported entry point: the result of a failed patch is discarded. -/
def PatchDelta (src delta : Bytes) : Except PackError Bytes :=
  if src.length = 0 ∨ delta.length < minDeltaSize then .error .invalidDelta
  else patchDelta src delta

/-- An iteration by the command it reads. A copy outside the source, or larger than the target, is passed over in
silence. -/
lemma patchStep_eq (src : Bytes) (srcSz targetSz : ℕ) (st : PatchState) : patchStep src srcSz targetSz st =
    match readCommand st.delta with
    | .ok (c, tail) =>
      if c.InRange srcSz targetSz then .ok ⟨uintSub st.remaining c.size, tail, st.dst ++ c.output src⟩
      else match c with
        | .copy _ _ => .ok { st with delta := tail }
        | .insert _ => .error .invalidDelta
    | .error .zeroCommand => .error .deltaCmd
    | .error _ => .error .invalidDelta := by
  unfold patchStep readCommand
  cases st.delta with
  | nil => rfl
  | cons cmd rest =>
    by_cases hcopy : isCopyFromSrc cmd = true
    · rcases readCopy_cases cmd rest with ⟨offset, mid, sz, tail, hread, ho, hs, hoff, hsz, -⟩ | ⟨hread, hshort⟩
      · simp [hcopy, hread, decodeOffset, ho, decodeSize, hs, -Bool.or_eq_true, invalid_eq hoff hsz.2, Command.size,
          Command.output]
      · rcases hshort .invalidDelta with ho | ⟨offset, mid, ho, hs⟩
        · simp [hcopy, hread, decodeOffset, ho]
        · simp [hcopy, hread, decodeOffset, ho, decodeSize, hs, Except.map]
    · by_cases hins : isCopyFromDelta cmd = true
      · by_cases hlen : rest.length < cmd.toNat
        · simp [hcopy, hins, hlen]
        · have htake : (rest.take cmd.toNat).length = cmd.toNat := length_take_of_le (not_lt.mp hlen)
          by_cases hsz : targetSz < cmd.toNat
          · simp [hcopy, hins, hlen, invalidSize, hsz, Command.InRange, htake, -length_take]
          · simp [hcopy, hins, hlen, invalidSize, hsz, Command.InRange, Command.size, Command.output, htake,
              -length_take, not_lt.mp hsz]
      · simp [hcopy, hins]

def kept (srcSz targetSz : ℕ) (cs : List Command) : List Command :=
  cs.filter fun c => c.InRange srcSz targetSz

def InsertsFit (targetSz : ℕ) (cs : List Command) : Prop :=
  ∀ data, Command.insert data ∈ cs → data.length ≤ targetSz

structure FirstReaches (srcSz targetSz n : ℕ) (cs : List Command) : Prop where
  nonempty : cs ≠ []
  sum : sizesSum (kept srcSz targetSz cs) ≡ n [MOD 2 ^ 64]
  first : ∀ p, p <+: cs → p ≠ [] → p ≠ cs → ¬ sizesSum (kept srcSz targetSz p) ≡ n [MOD 2 ^ 64]

def credit (srcSz targetSz : ℕ) (c : Command) : ℕ := if c.InRange srcSz targetSz then c.size else 0

lemma sizesSum_kept_cons (srcSz targetSz : ℕ) (c : Command) (cs : List Command) :
    sizesSum (kept srcSz targetSz (c :: cs)) = credit srcSz targetSz c + sizesSum (kept srcSz targetSz cs) := by
  unfold kept credit
  by_cases h : c.InRange srcSz targetSz
  · simp [h, sizesSum]
  · simp [h, sizesSum]

lemma modEq_credit_iff {n w x : ℕ} (hw : w < 2 ^ 64) : w + x ≡ n [MOD 2 ^ 64] ↔ x ≡ uintSub n w [MOD 2 ^ 64] := by
  unfold Nat.ModEq uintSub uint
  omega

variable {cs : List Command} {c : Command}

lemma firstReaches_cons {srcSz targetSz n : ℕ}
    (hc : credit srcSz targetSz c < 2 ^ 64) : FirstReaches srcSz targetSz n (c :: cs) ↔
      if uintSub n (credit srcSz targetSz c) = 0 then cs = []
      else FirstReaches srcSz targetSz (uintSub n (credit srcSz targetSz c)) cs := by
  have hiff : ∀ ds, sizesSum (kept srcSz targetSz (c :: ds)) ≡ n [MOD 2 ^ 64] ↔
      sizesSum (kept srcSz targetSz ds) ≡ uintSub n (credit srcSz targetSz c) [MOD 2 ^ 64] := by
    intro ds
    rw [sizesSum_kept_cons]
    exact modEq_credit_iff hc
  have hone : sizesSum (kept srcSz targetSz [c]) ≡ n [MOD 2 ^ 64] ↔
      uintSub n (credit srcSz targetSz c) = 0 := by
    rw [hiff []]
    have := uintSub_lt n (credit srcSz targetSz c)
    simp only [kept, sizesSum, filter_nil, map_nil, sum_nil, Nat.ModEq]
    omega
  split_ifs with hz
  · constructor
    · intro h
      by_contra hne
      exact h.first [c] (by simp) (by simp) (by simpa using Ne.symm hne) (hone.mpr hz)
    · rintro rfl
      refine ⟨by simp, hone.mpr hz, ?_⟩
      intro p hp hne hne'
      rcases prefix_cons_iff.mp hp with rfl | ⟨t, rfl, ht⟩
      · exact absurd rfl hne
      · simp only [prefix_nil] at ht
        subst ht
        exact absurd rfl hne'
  · constructor
    · intro h
      refine ⟨?_, (hiff cs).mp h.sum, ?_⟩
      · rintro rfl
        exact hz (hone.mp h.sum)
      · intro p hp hne hne' hs
        exact h.first (c :: p) (by simpa using hp) (by simp) (by simpa using hne') ((hiff p).mpr hs)
    · intro h
      refine ⟨by simp, (hiff cs).mpr h.sum, ?_⟩
      intro p hp hne hne' hs
      rcases prefix_cons_iff.mp hp with rfl | ⟨t, rfl, ht⟩
      · exact hne rfl
      · by_cases htn : t = []
        · subst htn
          exact hz (hone.mp hs)
        · exact h.first t ht htn (by simpa using hne') ((hiff t).mp hs)

lemma insertsFit_cons {targetSz : ℕ} : InsertsFit targetSz (c :: cs) ↔
      (∀ data, c = .insert data → data.length ≤ targetSz) ∧ InsertsFit targetSz cs := by
  simp only [InsertsFit, mem_cons]
  constructor
  · intro h
    exact ⟨fun d hd => h d (.inl hd.symm), fun d hd => h d (.inr hd)⟩
  · rintro ⟨h, ht⟩ d (hd | hd)
    · exact h d hd.symm
    · exact ht d hd

lemma patchStep_read {src : Bytes} {srcSz targetSz : ℕ} {st : PatchState} {c : Command}
    {tail : Bytes} (h : readCommand st.delta = .ok (c, tail))
    (hfit : ∀ data, c = .insert data → data.length ≤ targetSz) (hr : st.remaining < 2 ^ 64) :
    patchStep src srcSz targetSz st = .ok ⟨uintSub st.remaining (credit srcSz targetSz c), tail,
        st.dst ++ outputs src (kept srcSz targetSz [c])⟩ := by
  rw [patchStep_eq, h]
  by_cases hc : c.InRange srcSz targetSz
  · simp [credit, kept, hc, outputs]
  · cases c with
    | insert data => exact absurd (hfit data rfl) hc
    | copy offset sz => simp [credit, kept, hc, outputs, uintSub_of_le hr (Nat.zero_le _)]

lemma exists_reads_iff {delta : Bytes} {P : List Command → Prop} (hnil : ¬ P []) :
    (∃ cs rest, Reads delta cs rest ∧ P cs) ↔
      ∃ c tail, readCommand delta = .ok (c, tail) ∧ ∃ cs rest, Reads tail cs rest ∧ P (c :: cs) := by
  constructor
  · rintro ⟨_, rest, _ | ⟨head, more⟩, hP⟩
    · exact absurd hP hnil
    · exact ⟨_, _, head, _, rest, more, hP⟩
  · rintro ⟨c, tail, head, cs, rest, more, hP⟩
    exact ⟨c :: cs, rest, .cons head more, hP⟩

/-- The loop succeeds exactly on the streams that begin with a list of complete commands
whose in-range members add up to the counter; the others of that list leave no trace. -/
lemma patchLoop_ok_iff {src : Bytes} {srcSz targetSz fuel : ℕ} {st : PatchState} {out : Bytes}
    (hfuel : st.delta.length < fuel) (hr : st.remaining < 2 ^ 64) : patchLoop src srcSz targetSz fuel st = .ok out ↔
      ∃ cs rest, Reads st.delta cs rest ∧ InsertsFit targetSz cs ∧ FirstReaches srcSz targetSz st.remaining cs ∧
        out = st.dst ++ outputs src (kept srcSz targetSz cs) := by
  induction fuel generalizing st with
  | zero => omega
  | succ fuel ih =>
    -- the recursive call and the reading of the stream peel off the same command
    rw [patchLoop, exists_reads_iff fun h => h.2.1.nonempty rfl]
    cases hd : readCommand st.delta with
    | error f =>
      rw [patchStep_eq, hd]
      cases f <;> simp
    | ok p =>
      obtain ⟨c, tail⟩ := p
      have hb := readCommand_bounds hd
      simp only [Except.ok.injEq, Prod.mk.injEq, and_assoc, exists_and_left, exists_eq_left', insertsFit_cons]
      by_cases hfit : ∀ data, c = .insert data → data.length ≤ targetSz
      · have hcredit : credit srcSz targetSz c < 2 ^ 64 := by
          unfold credit
          split_ifs <;> omega
        have hstep := @patchStep_read src srcSz targetSz st c tail hd hfit hr
        have hout : ∀ cs, outputs src (kept srcSz targetSz (c :: cs)) =
            outputs src (kept srcSz targetSz [c]) ++ outputs src (kept srcSz targetSz cs) := by
          intro cs
          rw [← singleton_append, kept, filter_append, outputs, flatMap_append]
          rfl
        generalize outputs src (kept srcSz targetSz [c]) = x at hstep hout
        simp only [hstep, ok_bind, pure_ok, firstReaches_cons hcredit, and_iff_right hfit, hout, ← append_assoc]
        by_cases hz : uintSub st.remaining (credit srcSz targetSz c) = 0
        · simp only [hz, ↓reduceIte, Except.ok.injEq]
          constructor
          · rintro rfl
            exact ⟨[], tail, .nil _, by simp [InsertsFit], rfl, by simp [kept, outputs]⟩
          · rintro ⟨cs, rest, _, _, rfl, rfl⟩
            simp [kept, outputs]
        · simp only [hz, ↓reduceIte]
          have hlen : tail.length < fuel := by omega
          exact ih hlen (uintSub_lt _ _)
      · push Not at hfit
        obtain ⟨data, rfl, hlt⟩ := hfit
        have hbad : ¬ (Command.insert data).InRange srcSz targetSz := by
          simpa [Command.InRange] using hlt
        simp [patchStep_eq, hd, hbad, hlt]

end GoGit.Delta
