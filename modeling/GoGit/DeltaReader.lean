import GoGit.DeltaAccept

/-! `ReaderFromDelta` reads the base forwards only and opens it again for a copy that lies behind the current
position. The position it keeps is carried over when it does so, and from then on runs ahead of the position the base
is read at. -/
namespace GoGit.Delta

open List

def maxInt32 : ℕ := 2 ^ 31 - 1

/-- `Discard` of a buffered reader: all of the bytes asked for, or the end of the stream. -/
def discardBytes (n : ℕ) (buf : Bytes) : Except PackError (ℕ × Bytes) :=
  if buf.length < n then .error .eof else .ok (n, buf.drop n)

/-- The loop for distances that one `Discard` cannot be given. -/
def discardLarge : ℕ → ℕ → ℕ → Bytes → Except PackError (ℕ × ℕ × Bytes)
  | 0, basePos, discard, buf => .ok (basePos, discard, buf)
  | fuel + 1, basePos, discard, buf =>
    if maxInt32 < discard then do
      let (n, buf) ← discardBytes maxInt32 buf
      discardLarge fuel (uint (basePos + n)) (uintSub discard n) buf
    else .ok (basePos, discard, buf)

/-- The second loop. Without an error everything is skipped, so it ends after one round. -/
def discardSmall (basePos discard : ℕ) (buf : Bytes) : Except PackError (ℕ × Bytes) :=
  if 0 < discard then do
    let (n, buf) ← discardBytes discard buf
    return (uint (basePos + n), buf)
  else .ok (basePos, buf)

/-- Both discarding loops: the new position and the rest of the base. -/
def discardBase (basePos discard : ℕ) (buf : Bytes) : Except PackError (ℕ × Bytes) := do
  let (basePos, discard, buf) ← discardLarge (discard / maxInt32) basePos discard buf
  discardSmall basePos discard buf

structure ReaderState where
  remaining : ℕ
  delta : Bytes
  basePos : ℕ
  baseBuf : Bytes
  dst : Bytes
  deriving DecidableEq, Repr

/-- What the reading end of the pipe sees: closing it with `io.EOF` is a regular end. -/
def closeWithError : PackError → Option PackError
  | .eof => none
  | e => some e

/-- One iteration; an error ends the stream the way it says. -/
def readerStep (base : Bytes) (srcSz targetSz : ℕ) (st : ReaderState) :
    Except (Option PackError) ReaderState :=
  match st.delta with
  | [] => .error (some .invalidDelta)
  | cmd :: delta =>
    if isCopyFromSrc cmd then do
      let (offset, delta) ← (decodeOffsetByteReader cmd delta).mapError closeWithError
      let (sz, delta) ← (decodeSizeByteReader cmd delta).mapError closeWithError
      if invalidSize sz targetSz || invalidOffsetSize offset sz srcSz then .error none
      else
        -- going back opens the base again, but `basePos` keeps its value
        let discard := if offset < st.basePos then offset else uintSub offset st.basePos
        let baseBuf := if offset < st.basePos then base else st.baseBuf
        let (basePos, baseBuf) ← (discardBase st.basePos discard baseBuf).mapError closeWithError
        return ⟨uintSub st.remaining sz, delta, uint (basePos + sz), baseBuf.drop sz,
          st.dst ++ baseBuf.take sz⟩
    else if isCopyFromDelta cmd then
      let sz := cmd.toNat
      if invalidSize sz targetSz then .error (some .invalidDelta)
      else .ok ⟨uintSub st.remaining sz, delta.drop sz, st.basePos, st.baseBuf,
        st.dst ++ delta.take sz⟩
    else .error (some .deltaCmd)

/-- The writing end of the pipe, as the bytes that arrive and how the stream ends. -/
def readerLoop (base : Bytes) (srcSz targetSz : ℕ) : ℕ → ReaderState → Bytes × Option PackError
  | 0, st => (st.dst, some .invalidDelta)
  | fuel + 1, st =>
    match readerStep base srcSz targetSz st with
    | .error e => (st.dst, e)
    | .ok st => if st.remaining = 0 then (st.dst, none) else readerLoop base srcSz targetSz fuel st

/-- A size of the header; a missing one makes the delta invalid. -/
def headerSize (delta : Bytes) : Except PackError (ℕ × Bytes) :=
  (decodeLEB128ByteReader delta).mapError fun e => if e = .eof then .invalidDelta else e

def ReaderFromDelta (base delta : Bytes) : Except PackError (Bytes × Option PackError) := do
  let (srcSz, delta) ← headerSize delta
  if srcSz ≠ base.length then .error .invalidDelta
  else
    let (targetSz, delta) ← headerSize delta
    return readerLoop base srcSz targetSz (delta.length + 1) ⟨targetSz, delta, 0, base, []⟩

structure Cursor where
  claimed : ℕ := 0
  actual : ℕ := 0
  deriving DecidableEq, Repr

namespace Cursor

def seek (cur : Cursor) (offset : ℕ) : ℕ :=
  if offset < cur.claimed then offset else cur.actual + (offset - cur.claimed)

def advance (cur : Cursor) : Command → Cursor
  | .copy offset sz =>
    ⟨uint ((if offset < cur.claimed then cur.claimed + offset else offset) + sz),
      cur.seek offset + sz⟩
  | .insert _ => cur

def read (cur : Cursor) (base : Bytes) : Command → Bytes
  | .copy offset sz => (base.drop (cur.seek offset)).take sz
  | .insert data => data

end Cursor

/-- Every copy finds, where it reads, the bytes that stand at its offset. -/
def Tracks (base : Bytes) : Cursor → List Command → Prop
  | _, [] => True
  | cur, c :: cs => cur.read base c = c.output base ∧ Tracks base (cur.advance c) cs

variable {basePos discard : ℕ}

lemma discardSmall_eq (buf : Bytes) (h : basePos < 2 ^ 64) : discardSmall basePos discard buf =
      if buf.length < discard then .error .eof else .ok (uint (basePos + discard), buf.drop discard) := by
  unfold discardSmall discardBytes
  by_cases hd : 0 < discard
  · split_ifs <;> rfl
  · obtain rfl : discard = 0 := by omega
    simp [uint_of_lt h]

lemma discardBase_eq (buf : Bytes) (h : basePos < 2 ^ 64) (hd : discard < 2 ^ 64) :
    discardBase basePos discard buf =
      if buf.length < discard then .error .eof else .ok (uint (basePos + discard), buf.drop discard) := by
  unfold discardBase
  generalize hfuel : discard / maxInt32 = fuel
  induction fuel generalizing basePos discard buf with
  | zero => exact discardSmall_eq buf h
  | succ fuel ih =>
    by_cases hbig : maxInt32 < discard
    · simp only [discardLarge, if_pos hbig]
      by_cases hshort : buf.length < maxInt32
      · have hend : buf.length < discard := by omega
        simp [discardBytes, hshort, hend]
      · have hrest := @ih (uint (basePos + maxInt32)) (discard - maxInt32) (buf.drop maxInt32)
          (uint_lt _) (by omega) (by unfold maxInt32 at hfuel hbig ⊢; omega)
        have hpos : uint (uint (basePos + maxInt32) + (discard - maxInt32)) =
            uint (basePos + discard) := by
          unfold uint
          omega
        have hend : buf.length - maxInt32 < discard - maxInt32 ↔ buf.length < discard := by omega
        rw [hpos, drop_drop, Nat.add_sub_cancel' hbig.le, length_drop] at hrest
        simp only [hend] at hrest
        simpa [discardBytes, hshort, uintSub_of_le hd hbig.le] using hrest
    · simp only [discardLarge, if_neg hbig]
      exact discardSmall_eq buf h

section Step

variable {base : Bytes} {srcSz targetSz : ℕ} {st : ReaderState} {cur : Cursor} {c : Command}
  {tail : Bytes}

structure ReaderState.At (st : ReaderState) (base : Bytes) (cur : Cursor) : Prop where
  claimed : st.basePos = cur.claimed
  actual : st.baseBuf = base.drop cur.actual
  bound : cur.claimed < 2 ^ 64

def ReaderState.after (st : ReaderState) (base : Bytes) (cur : Cursor) (c : Command)
    (tail : Bytes) : ReaderState :=
  ⟨uintSub st.remaining c.size, tail, (cur.advance c).claimed, base.drop (cur.advance c).actual,
    st.dst ++ cur.read base c⟩

lemma ReaderState.At.after (h : st.At base cur) : (st.after base cur c tail).At base (cur.advance c) := by
  refine ⟨rfl, rfl, ?_⟩
  cases c with
  | copy offset sz => exact uint_lt _
  | insert data => exact h.bound

/-- Discarding up to a copy's offset: the base then stands where the cursor reads, or the
stream ends because the base has no bytes there. -/
lemma discardBase_seek {offset : ℕ} (hoff : offset ≤ base.length) (h : st.At base cur) (ho : offset < 2 ^ 64) :
    discardBase st.basePos (if offset < st.basePos then offset else uintSub offset st.basePos)
        (if offset < st.basePos then base else st.baseBuf) =
        .ok (uint (if offset < cur.claimed then cur.claimed + offset else offset), base.drop (cur.seek offset)) ∨
      discardBase st.basePos (if offset < st.basePos then offset else uintSub offset st.basePos)
        (if offset < st.basePos then base else st.baseBuf) = .error .eof ∧ base.length ≤ cur.seek offset := by
  obtain ⟨hc, ha, hb⟩ := h
  rw [hc, ha]
  by_cases hback : offset < cur.claimed
  · simp only [if_pos hback, Cursor.seek]
    rw [discardBase_eq base hb ho, if_neg (by omega)]
    exact .inl rfl
  · simp only [if_neg hback, Cursor.seek]
    rw [uintSub_of_le ho (by omega), discardBase_eq _ hb (by omega), length_drop,
      drop_drop, Nat.add_sub_cancel' (by omega)]
    split_ifs with hend
    · exact .inr ⟨rfl, by omega⟩
    · exact .inl rfl

lemma readerStep_inRange (h : readCommand st.delta = .ok (c, tail))
    (hc : c.InRange base.length targetSz) (hat : st.At base cur) :
    readerStep base base.length targetSz st = .ok (st.after base cur c tail) ∨
      readerStep base base.length targetSz st = .error none ∧ cur.read base c = [] := by
  unfold readCommand at h
  cases hd : st.delta with
  | nil => simp [hd] at h
  | cons cmd rest =>
    rw [hd] at h
    dsimp only at h
    split_ifs at h with hcopy hins hlen
    · rcases readCopy_cases cmd rest with ⟨offset, mid, sz, rest', hread, ho, hs, hlt, hsz, -⟩ | ⟨hread, -⟩
      · simp only [hread, Except.ok.injEq, Prod.mk.injEq] at h
        obtain ⟨rfl, rfl⟩ := h
        have hoff : offset ≤ base.length := (Nat.le_add_right _ _).trans hc.2
        have hstep : readerStep base base.length targetSz st = (do
            let (basePos, baseBuf) ← (discardBase st.basePos (if offset < st.basePos then offset
              else uintSub offset st.basePos) (if offset < st.basePos then base else st.baseBuf)).mapError closeWithError
            return ⟨uintSub st.remaining sz, rest', uint (basePos + sz), baseBuf.drop sz,
              st.dst ++ baseBuf.take sz⟩) := by
          simp [readerStep, hd, hcopy, decodeOffsetByteReader, ho, decodeSizeByteReader, hs, Except.mapError,
            -Bool.or_eq_true, invalid_eq hlt hsz.2, hc]
        rcases discardBase_seek hoff hat (by omega) with hok | ⟨herr, hend⟩
        · left
          have hpos : uint (uint (if offset < cur.claimed then cur.claimed + offset else offset) + sz) =
              (cur.advance (.copy offset sz)).claimed := by
            simp only [Cursor.advance, uint]
            omega
          simp only [hstep, hok, Except.mapError, ok_bind, pure_ok, hpos, drop_drop]
          rfl
        · right
          refine ⟨by rw [hstep, herr]; rfl, ?_⟩
          simp [Cursor.read, drop_eq_nil_of_le hend]
      · simp [hread] at h
    · left
      simp only [Except.ok.injEq, Prod.mk.injEq] at h
      obtain ⟨rfl, rfl⟩ := h
      have htake : (rest.take cmd.toNat).length = cmd.toNat := length_take_of_le (not_lt.mp hlen)
      rw [Command.InRange, htake] at hc
      obtain ⟨hclaimed, hactual, _⟩ := hat
      simp [readerStep, hd, hcopy, hins, invalidSize, not_lt.mpr hc, ReaderState.after, Command.size,
        Cursor.advance, Cursor.read, htake, -length_take, hclaimed, hactual]

end Step

lemma Cursor.read_length {base : Bytes} {c : Command} (cur : Cursor) : (cur.read base c).length ≤ c.size := by
  cases c with
  | copy offset sz => simp [read, Command.size]
  | insert data => simp [read, Command.size]

lemma append_eq_append_iff_of_length_le {x y u v : Bytes} (hx : x.length ≤ u.length)
    (hy : y.length ≤ v.length) : x ++ y = u ++ v ↔ x = u ∧ y = v := by
  constructor
  · intro h
    have hlen := congrArg List.length h
    simp only [length_append] at hlen
    exact append_inj h (by omega)
  · rintro ⟨rfl, rfl⟩
    rfl

/-- The stream of a list of in-range commands always ends regularly, and carries their output
exactly if the cursor tracks them. -/
lemma readerLoop_spec {base : Bytes} {targetSz : ℕ} {cs : List Command} :
    ∀ {fuel : ℕ} {st : ReaderState} {cur : Cursor} {rest : Bytes}, cs ≠ [] →
      Reads st.delta cs rest → (∀ c ∈ cs, c.InRange base.length targetSz) →
      st.remaining = sizesSum cs → st.remaining < 2 ^ 64 → cs.length ≤ fuel → st.At base cur →
      ∃ x, readerLoop base base.length targetSz fuel st = (st.dst ++ x, none) ∧
        x.length ≤ sizesSum cs ∧ (x = outputs base cs ↔ Tracks base cur cs) := by
  induction cs with
  | nil => intro _ _ _ _ hne; exact absurd rfl hne
  | cons c cs ih =>
    intro fuel st cur rest _ hreads hc hrem hlt hfuel hat
    obtain ⟨fuel, rfl⟩ : ∃ n, fuel = n + 1 := ⟨fuel - 1, by simp at hfuel; omega⟩
    cases hreads with
    | @cons _ tail _ _ _ head more =>
      have hcs : ∀ d ∈ cs, d.InRange base.length targetSz := fun d hd => hc d (by simp [hd])
      have hsize := (readCommand_bounds head).1
      have hsum : sizesSum (c :: cs) = c.size + sizesSum cs := by simp [sizesSum]
      have hout : outputs base (c :: cs) = c.output base ++ outputs base cs := by simp [outputs]
      have hlen := Command.output_length (hc c (by simp))
      rcases readerStep_inRange head (hc c (by simp)) hat with hok | ⟨herr, hnil⟩
      · have hrem' : (st.after base cur c tail).remaining = sizesSum cs := by
          simp only [ReaderState.after]
          rw [uintSub_of_le hlt (by omega), hrem, hsum]
          omega
        -- the rest of the stream, whether or not a command is left
        obtain ⟨y, hy, hylen, hyiff⟩ : ∃ y, readerLoop base base.length targetSz (fuel + 1) st =
            (st.dst ++ cur.read base c ++ y, none) ∧ y.length ≤ sizesSum cs ∧
            (y = outputs base cs ↔ Tracks base (cur.advance c) cs) := by
          by_cases hnil : cs = []
          · subst hnil
            refine ⟨[], ?_, by simp, by simp [outputs, Tracks]⟩
            simp only [readerLoop, hok, hrem', sizesSum, map_nil, sum_nil, ↓reduceIte, append_nil]
            rfl
          · have hpos := sizesSum_pos hnil more.size_pos
            obtain ⟨y, hy, hrest⟩ := @ih fuel (st.after base cur c tail) (cur.advance c) rest hnil more
              hcs hrem' (by omega) (by simpa using hfuel) hat.after
            refine ⟨y, ?_, hrest⟩
            simp only [readerLoop, hok, hrem', if_neg hpos.ne', hy]
            rfl
        refine ⟨cur.read base c ++ y, by rw [hy, append_assoc], ?_, ?_⟩
        · have := @Cursor.read_length base c cur
          rw [length_append, hsum]
          omega
        · rw [hout, Tracks, append_eq_append_iff_of_length_le, hyiff]
          · rw [hlen]
            exact @Cursor.read_length base c cur
          · rwa [outputs_length hcs]
      · refine ⟨[], by simp [readerLoop, herr], by simp, ?_⟩
        have hne : c.output base ≠ [] := by
          rw [← length_pos_iff, hlen]
          exact hsize
        simp [hout, Tracks, hnil, hne, hne.symm]

variable {delta rest : Bytes} {cs : List Command}

lemma Reads.length_add_le (h : Reads delta cs rest) : cs.length + rest.length ≤ delta.length := by
  induction h with
  | nil => simp
  | cons head _ ih =>
    have := (readCommand_bounds head).2.2
    simp only [length_cons]
    omega

lemma Reads.ne_nil (h : Reads delta cs rest) (hne : cs ≠ []) : delta ≠ [] := by
  rintro rfl
  cases h with
  | nil => exact hne rfl
  | cons head _ => cases head

lemma headerSize_of_header {delta : Bytes} (h : (header delta).body ≠ []) :
    ∃ rest, headerSize delta = .ok ((header delta).srcSz, rest) ∧
      headerSize rest = .ok ((header delta).targetSz, (header delta).body) := by
  have hread : ∀ input : Bytes, (decodeLEB128 input).2 ≠ [] →
      headerSize input = .ok (decodeLEB128 input) := by
    intro input hne
    unfold headerSize decodeLEB128ByteReader
    cases hr : decodeLEB128ReaderLoop 0 0 input with
    | error e => exact absurd (decodeLEB128Loop_of_reader_error hr) hne
    | ok p =>
      have := decodeLEB128Loop_of_reader hr
      simp [Except.mapError, decodeLEB128, this]
  have hsecond : (decodeLEB128 (decodeLEB128 delta).2).2 ≠ [] := h
  have hfirst : (decodeLEB128 delta).2 ≠ [] := by
    intro hnil
    exact hsecond (by rw [hnil]; rfl)
  exact ⟨(decodeLEB128 delta).2, hread delta hfirst, hread _ hsecond⟩

structure Patches (base delta : Bytes) (cs : List Command) (out : Bytes) : Prop where
  accepts : patchDelta base delta = .ok out
  rebuilds : Rebuilds base delta cs out

/-- The stream of an accepted delta is the patched target exactly if every copy finds, where
the base is read, the bytes that stand at its offset. -/
theorem ReaderFromDelta_eq_iff {base delta out : Bytes} {cs : List Command} (h : Patches base delta cs out) :
    ReaderFromDelta base delta = .ok (out, none) ↔ Tracks base {} cs := by
  obtain ⟨_, hsrc, ⟨rest, hreads⟩, hne, hc, hout, htarget⟩ := h
  obtain ⟨mid, h₁, h₂⟩ := headerSize_of_header (hreads.ne_nil hne)
  have hlen := hreads.length_add_le
  have hsum : (header delta).targetSz = sizesSum cs := by
    rw [← outputs_length hc, ← hout, htarget]
  obtain ⟨x, hx, _, hiff⟩ := @readerLoop_spec base (header delta).targetSz cs
    ((header delta).body.length + 1) ⟨(header delta).targetSz, (header delta).body, 0, base, []⟩ {}
    rest hne hreads hc hsum (header_targetSz_lt delta) (by omega)
    ⟨rfl, rfl, by norm_num⟩
  have hres : ReaderFromDelta base delta = .ok (x, none) := by
    simp only [ReaderFromDelta, h₁, ok_bind, hsrc, ne_eq, not_true_eq_false, ↓reduceIte, h₂, pure_ok, hx, nil_append]
  rw [hres, ← hiff, ← hout]
  simp

lemma patches_backward : Patches [97, 98, 99, 100] [4, 3, 0x91, 1, 1, 0x91, 0, 1, 0x91, 3, 1]
      [.copy 1 1, .copy 0 1, .copy 3 1] [98, 97, 100] := by
  refine ⟨by decide, by decide, ⟨[], ?_⟩, by decide, by decide, by decide, by decide⟩
  have h₁ : readCommand [0x91, 1, 1, 0x91, 0, 1, 0x91, 3, 1] =
      .ok (.copy 1 1, [0x91, 0, 1, 0x91, 3, 1]) := by decide
  have h₂ : readCommand [0x91, 0, 1, 0x91, 3, 1] = .ok (.copy 0 1, [0x91, 3, 1]) := by decide
  have h₃ : readCommand [0x91, 3, 1] = .ok (.copy 3 1, []) := by decide
  exact .cons h₁ (.cons h₂ (.cons h₃ (.nil _)))

theorem ReaderFromDelta_eq_iff_backward :
    ReaderFromDelta [97, 98, 99, 100] [4, 3, 0x91, 1, 1, 0x91, 0, 1, 0x91, 3, 1] = .ok ([98, 97, 100], none) ↔
      Tracks [97, 98, 99, 100] {} [.copy 1 1, .copy 0 1, .copy 3 1] :=
  ReaderFromDelta_eq_iff patches_backward

theorem ReaderFromDelta_counterexample : ¬ ∀ base delta cs out, Patches base delta cs out →
      ReaderFromDelta base delta = .ok (out, none) := by
  intro h
  have hbad := h _ _ _ _ patches_backward
  have hbab : ReaderFromDelta [97, 98, 99, 100] [4, 3, 0x91, 1, 1, 0x91, 0, 1, 0x91, 3, 1] =
      .ok ([98, 97, 98], none) := by decide
  rw [hbab] at hbad
  exact absurd hbad (by decide)

end GoGit.Delta
