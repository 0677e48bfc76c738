import GoGit.DeltaReader
import GoGit.Object

/-! `patchDeltaWriter`, the variant the pack parser uses on deltas it did not produce. Some of its early returns pass
on an error variable that is still nil. -/
namespace GoGit.Delta

inductive Destination
  | buffer
  | writer
  deriving DecidableEq, Repr

structure WriterState where
  remaining : ℕ
  delta : Bytes
  dst : Bytes
  hashed : Bytes
  deriving DecidableEq, Repr

/-- The multi-writer: what goes to the destination goes to the hasher. -/
def WriterState.write (st : WriterState) (sz : ℕ) (delta data : Bytes) : WriterState :=
  ⟨uintSub st.remaining sz, delta, st.dst ++ data, st.hashed ++ data⟩

/-- One iteration. An error is an early return with that error, `none` being nil. -/
def writerStep (base : Bytes) (srcSz targetSz : ℕ) (st : WriterState) :
    Except (Option PackError) WriterState :=
  match st.delta with
  | [] => .error (some .invalidDelta)
  | cmd :: delta =>
    if isCopyFromSrc cmd then do
      let (offset, delta) ← (decodeOffsetByteReader cmd delta).mapError some
      let (sz, delta) ← (decodeSizeByteReader cmd delta).mapError some
      -- `err` is nil here: both operands have been read
      if invalidSize sz targetSz || invalidOffsetSize offset sz srcSz then .error none
      else return st.write sz delta ((base.drop offset).take sz)
    else if isCopyFromDelta cmd then
      let sz := cmd.toNat
      if invalidSize sz targetSz then .error (some .invalidDelta)
      -- a limited reader stops without an error where the stream does
      else .ok (st.write sz (delta.drop sz) (delta.take sz))
    -- `err` is the one of `ReadByte`, which is nil here
    else .error none

/-- The loop: the state it leaves off in, and the early return if there was one. -/
def writerLoop (base : Bytes) (srcSz targetSz : ℕ) : ℕ → WriterState → WriterState × Except (Option PackError) Unit
  | 0, st => (st, .error (some .invalidDelta))
  | fuel + 1, st =>
    match writerStep base srcSz targetSz st with
    | .error e => (st, .error e)
    | .ok st => if st.remaining = 0 then (st, .ok ()) else writerLoop base srcSz targetSz fuel st

structure WriterResult where
  written : Bytes
  size : ℕ
  hash : ObjectID
  err : Option PackError
  deriving DecidableEq

def WriterResult.failed (written : Bytes) (err : Option PackError) : WriterResult :=
  ⟨written, 0, ObjectID.zeroHash, err⟩

/-- The part behind the header. No result stands for the panic of `Grow` on a negative count. -/
def writeTarget (sha1 : Bytes → Bytes) (dst : Destination) (base : Bytes) (typ : ObjectType)
    (writeHeader : Option (ObjectType → ℤ → Option PackError)) (srcSz targetSz : ℕ) (body : Bytes) :
    Option WriterResult :=
  if dst = .buffer ∧ int64 targetSz < 0 then none
  else match writeHeader.bind fun wh => wh typ (int64 targetSz) with
    | some e => some (.failed [] (some (.wrap "could not lazy write header" e)))
    | none =>
      match writerLoop base srcSz targetSz (body.length + 1)
          ⟨targetSz, body, [], hasherReset typ (int64 targetSz)⟩ with
      | (st, .error e) => some (.failed st.dst e)
      | (st, .ok ()) => some ⟨st.dst, targetSz, hasherSum sha1 st.hashed, none⟩

/-- The base is a `*bytes.Reader`, as its one caller passes it, so its size is compared. -/
def patchDeltaWriter (sha1 : Bytes → Bytes) (dst : Destination) (base delta : Bytes)
    (typ : ObjectType) (writeHeader : Option (ObjectType → ℤ → Option PackError)) :
    Option WriterResult :=
  match headerSize delta with
  | .error e => some (.failed [] (some e))
  | .ok (srcSz, delta) =>
    if srcSz ≠ base.length then some (.failed [] (some .invalidDelta))
    else match headerSize delta with
      | .error e => some (.failed [] (some e))
      | .ok (targetSz, body) => writeTarget sha1 dst base typ writeHeader srcSz targetSz body

/-- An iteration by the command it reads. Only two of the four faults are reported as errors, and a truncated insert
writes what there is and takes its whole size off the counter. -/
lemma writerStep_eq (base : Bytes) (srcSz targetSz : ℕ) (st : WriterState) : writerStep base srcSz targetSz st =
    match readCommand st.delta with
    | .ok (c, tail) =>
      if c.InRange srcSz targetSz then .ok (st.write c.size tail (c.output base))
      else match c with
        | .copy _ _ => .error none
        | .insert _ => .error (some .invalidDelta)
    | .error .noCommand => .error (some .invalidDelta)
    | .error .shortCopy => .error (some .eof)
    | .error .zeroCommand => .error none
    | .error (.shortInsert sz present) =>
      if targetSz < sz then .error (some .invalidDelta) else .ok (st.write sz [] present) := by
  unfold writerStep readCommand
  cases st.delta with
  | nil => rfl
  | cons cmd rest =>
    by_cases hcopy : isCopyFromSrc cmd = true
    · rcases readCopy_cases cmd rest with ⟨offset, mid, sz, tail, hread, ho, hs, hoff, hsz, -⟩ | ⟨hread, hshort⟩
      · simp [hcopy, hread, decodeOffsetByteReader, ho, decodeSizeByteReader, hs, Except.mapError, -Bool.or_eq_true,
          invalid_eq hoff hsz.2, Command.size, Command.output]
      · rcases hshort .eof with ho | ⟨offset, mid, ho, hs⟩
        · simp [hcopy, hread, decodeOffsetByteReader, ho, Except.mapError]
        · simp [hcopy, hread, decodeOffsetByteReader, ho, decodeSizeByteReader, hs, Except.map, Except.mapError]
    · by_cases hins : isCopyFromDelta cmd = true
      · by_cases hlen : rest.length < cmd.toNat
        · simp [hcopy, hins, hlen, invalidSize, List.drop_eq_nil_of_le hlen.le, List.take_of_length_le hlen.le]
        · have htake : (rest.take cmd.toNat).length = cmd.toNat := List.length_take_of_le (not_lt.mp hlen)
          by_cases hsz : targetSz < cmd.toNat
          · simp [hcopy, hins, hlen, invalidSize, hsz, Command.InRange, htake, -List.length_take]
          · simp [hcopy, hins, hlen, invalidSize, hsz, Command.InRange, Command.size, Command.output, htake,
              -List.length_take, not_lt.mp hsz]
      · simp [hcopy, hins]

lemma writerStep_inRange {base : Bytes} {srcSz targetSz : ℕ} {st : WriterState} {c : Command} {tail : Bytes}
    (h : readCommand st.delta = .ok (c, tail)) (hc : c.InRange srcSz targetSz) :
    writerStep base srcSz targetSz st = .ok (st.write c.size tail (c.output base)) := by
  rw [writerStep_eq, h]
  exact if_pos hc

end GoGit.Delta
