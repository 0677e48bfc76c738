import GoGit.Search
import GoGit.Object

/-! `syncedReader`, which lets one goroutine read a file while another one writes it. Every atomic operation,
operation on the channel, and read or write of the file is a step of its own. -/
namespace GoGit.SyncedReader

open List

/-- Where the writer is: between two calls, in a call of `Write` or `wake`, or in `Close`. -/
inductive Writer
  | next
  | add (n : ℕ)
  | loadRead (written : ℕ)
  | isBlocked
  | unblock
  | send
  | close
  | finished
  deriving DecidableEq

/-- Where the reader is: in `sleep`, or in the loop of `Read`. The count is added when `Read` returns, with or without
the end of the file. -/
inductive Reader
  | loadRead
  | loadWritten (read : ℕ)
  | block
  | receive
  | read
  | isDone
  | addRead (n : ℕ) (eof : Bool)
  | finished
  deriving DecidableEq

/-- The shared variables, and where the two goroutines are. -/
structure State where
  /-- The writes that are still to come. -/
  chunks : List Bytes
  file : Bytes := []
  /-- The offset of the reader in the file. -/
  pos : ℕ := 0
  written : ℕ := 0
  read : ℕ := 0
  blocked : Bool := false
  done : Bool := false
  /-- The channel `news` is closed. -/
  closed : Bool := false
  received : Bytes := []
  writer : Writer := .next
  reader : Reader := .loadRead
  deriving DecidableEq

variable (chunks : List Bytes)

def start : State := { chunks }

/-- The steps. A read of the file takes some of the bytes that are there, and meets the end of the file if there are
none; a send on the channel meets a receive. -/
inductive Step : State → State → Prop
  | write {s : State} {c : Bytes} {cs : List Bytes} (hw : s.writer = .next) (hc : s.chunks = c :: cs) :
    Step s { s with file := s.file ++ c, chunks := cs, writer := .add c.length }
  | done {s : State} (hw : s.writer = .next) (hc : s.chunks = []) : Step s { s with done := true, writer := .close }
  | close {s : State} (hw : s.writer = .close) : Step s { s with closed := true, writer := .finished }
  | add {s : State} {n : ℕ} (hw : s.writer = .add n) :
    Step s { s with written := s.written + n, writer := .loadRead (s.written + n) }
  | load {s : State} {v : ℕ} (hw : s.writer = .loadRead v) :
    Step s { s with writer := if v > s.read then .isBlocked else .next }
  | isBlocked {s : State} (hw : s.writer = .isBlocked) :
    Step s { s with writer := if s.blocked then .unblock else .next }
  | unblock {s : State} (hw : s.writer = .unblock) : Step s { s with blocked := false, writer := .send }
  | meet {s : State} (hw : s.writer = .send) (hr : s.reader = .receive) :
    Step s { s with writer := .next, reader := .read }
  | receive {s : State} (hr : s.reader = .receive) (hc : s.closed = true) : Step s { s with reader := .read }
  | loadRead {s : State} (hr : s.reader = .loadRead) : Step s { s with reader := .loadWritten s.read }
  | loadWritten {s : State} {v : ℕ} (hr : s.reader = .loadWritten v) :
    Step s { s with reader := if v ≥ s.written then .block else .read }
  | block {s : State} (hr : s.reader = .block) : Step s { s with blocked := true, reader := .receive }
  | read {s : State} {n : ℕ} (hr : s.reader = .read) (hn : 0 < n) (hle : s.pos + n ≤ s.file.length) :
    Step s { s with
      received := s.received ++ (s.file.drop s.pos).take n
      pos := s.pos + n
      reader := .addRead n false }
  | eof {s : State} (hr : s.reader = .read) (hpos : s.file.length ≤ s.pos) : Step s { s with reader := .isDone }
  | isDone {s : State} (hr : s.reader = .isDone) :
    Step s { s with reader := if s.done then .addRead 0 true else .loadRead }
  | addRead {s : State} {n : ℕ} {eof : Bool} (hr : s.reader = .addRead n eof) :
    Step s { s with read := s.read + n, reader := if eof then .finished else .loadRead }

/-- Both sides are finished and the reader has got what was written. -/
def Delivered (s : State) : Prop :=
  s.writer = .finished ∧ s.reader = .finished ∧ s.received = chunks.flatten

def Single : Prop := (chunks.filter (· ≠ [])).length ≤ 1

instance (chunks : List Bytes) : Decidable (Single chunks) := inferInstanceAs (Decidable (_ ≤ _))

@[simp] def Writer.pending : Writer → ℕ
  | .add n => n
  | _ => 0

/-- Bytes that have been read and are not yet counted. -/
@[simp] def Reader.pending : Reader → ℕ
  | .addRead n _ => n
  | _ => 0

structure Inv (all : Bytes) (s : State) : Prop where
  file : s.file ++ s.chunks.flatten = all
  received : s.received = s.file.take s.pos
  pos : s.pos ≤ s.file.length
  read : s.read + s.reader.pending = s.pos
  written : s.written + s.writer.pending = s.file.length
  loadedRead : ∀ v, s.reader = .loadWritten v → v = s.read
  loadedWritten : ∀ v, s.writer = .loadRead v → v = s.written
  blocked : s.closed = false → s.blocked = true → s.reader = .receive
  unblock : s.writer = .unblock → s.blocked = true
  send : s.writer = .send → s.reader = .receive ∧ s.blocked = false
  closed : s.closed = true ↔ s.writer = .finished
  done : s.done = true ↔ s.writer = .close ∨ s.writer = .finished

lemma inv_start : Inv chunks.flatten (start chunks) := by
  constructor <;> simp [start]

section Invariant

variable {all : Bytes} {s t : State}

section

variable (h : Inv all s)

include h

lemma Inv.writer_ne_send (hr : s.reader ≠ .receive) : s.writer ≠ .send :=
  fun hw => hr (h.send hw).1

lemma Inv.reader_of_unblock (hw : s.writer = .unblock) : s.reader = .receive := by
  refine h.blocked ?_ (h.unblock hw)
  rw [Bool.eq_false_iff]
  intro hc
  simp [h.closed.mp hc] at hw

lemma Inv.move {r : Reader} (hr : s.reader ≠ .receive) (hpending : r.pending = s.reader.pending)
    (hloaded : ∀ v, r = .loadWritten v → v = s.read) : Inv all { s with reader := r } :=
  { h with
    read := by rw [← h.read, ← hpending]
    loadedRead := hloaded
    blocked := fun hc hb => absurd (h.blocked hc hb) hr
    send := fun hw => absurd hw (h.writer_ne_send hr) }

lemma Inv.turn {w : Writer} (hw : s.writer ≠ .close ∧ s.writer ≠ .finished)
    (hpending : w.pending = s.writer.pending) (hloaded : ∀ v, w ≠ .loadRead v)
    (hunblock : w = .unblock → s.blocked = true) (hleft : w ≠ .send ∧ w ≠ .close ∧ w ≠ .finished) :
    Inv all { s with writer := w } :=
  { h with
    written := by rw [← h.written, ← hpending]
    loadedWritten := fun v hv => absurd hv (hloaded v)
    unblock := hunblock
    send := fun hs => absurd hs hleft.1
    closed := by simp [h.closed, hw.2, hleft.2.2]
    done := by simp [h.done, hw, hleft] }

lemma Inv.step (hst : Step s t) : Inv all t := by
  have hwritten := h.written
  have hread := h.read
  cases hst with
  | write hw hc =>
    rw [hw] at hwritten
    exact { h with
      file := by simpa [hc] using h.file
      received := by rw [h.received, take_append_of_le_length h.pos]
      pos := by simpa using h.pos.trans (Nat.le_add_right _ _)
      written := by simpa using hwritten
      loadedWritten := by simp
      unblock := by simp
      send := by simp
      closed := by simp [h.closed, hw]
      done := by simp [h.done, hw] }
  | done hw hc =>
    rw [hw] at hwritten
    exact { h with
      written := hwritten
      loadedWritten := by simp
      unblock := by simp
      send := by simp
      closed := by simp [h.closed, hw]
      done := by simp }
  | close hw =>
    rw [hw] at hwritten
    exact { h with
      written := hwritten
      loadedWritten := by simp
      blocked := by simp
      unblock := by simp
      send := by simp
      closed := by simp
      done := by simp [h.done, hw] }
  | add hw =>
    rw [hw] at hwritten
    exact { h with
      written := hwritten
      loadedWritten := by simp
      unblock := by simp
      send := by simp
      closed := by simp [h.closed, hw]
      done := by simp [h.done, hw] }
  | load hw =>
    refine h.turn (by simp [hw]) ?_ ?_ ?_ ?_ <;> split_ifs <;> simp [hw]
  | isBlocked hw =>
    refine h.turn (by simp [hw]) ?_ ?_ ?_ ?_ <;> split_ifs with hb <;> simp [hw, hb]
  | unblock hw =>
    rw [hw] at hwritten
    exact { h with
      written := hwritten
      loadedWritten := by simp
      blocked := by simp
      unblock := by simp
      send := fun _ => ⟨h.reader_of_unblock hw, rfl⟩
      closed := by simp [h.closed, hw]
      done := by simp [h.done, hw] }
  | meet hw hr =>
    rw [hw] at hwritten
    rw [hr] at hread
    exact { h with
      read := hread
      written := hwritten
      loadedRead := by simp
      loadedWritten := by simp
      blocked := by simp [(h.send hw).2]
      unblock := by simp
      send := by simp
      closed := by simp [h.closed, hw]
      done := by simp [h.done, hw] }
  | receive hr hc =>
    rw [hr] at hread
    have hw := h.closed.mp hc
    exact { h with
      read := hread
      loadedRead := by simp
      blocked := by simp [hc]
      send := by simp [hw] }
  | loadRead hr => exact h.move (by simp [hr]) (by simp [hr]) (by simp)
  | loadWritten hr =>
    refine h.move (by simp [hr]) ?_ ?_ <;> split_ifs <;> simp [hr]
  | block hr =>
    rw [hr] at hread
    exact { h with
      read := hread
      loadedRead := by simp
      blocked := fun _ _ => rfl
      unblock := fun _ => rfl
      send := fun hw => absurd hw (h.writer_ne_send (by simp [hr])) }
  | read hr hn hle =>
    rw [hr] at hread
    exact { h with
      received := by rw [h.received, ← take_add]
      pos := hle
      read := by simpa using hread
      loadedRead := by simp
      blocked := fun hc hb => absurd (h.blocked hc hb) (by simp [hr])
      send := fun hw => absurd hw (h.writer_ne_send (by simp [hr])) }
  | eof hr hpos => exact h.move (by simp [hr]) (by simp [hr]) (by simp)
  | isDone hr =>
    refine h.move (by simp [hr]) ?_ ?_ <;> split_ifs <;> simp [hr]
  | addRead hr =>
    rw [hr] at hread
    exact { h with
      read := by split_ifs <;> simpa using hread
      loadedRead := by split_ifs <;> simp
      blocked := fun hc hb => absurd (h.blocked hc hb) (by simp [hr])
      send := fun hw => absurd hw (h.writer_ne_send (by simp [hr])) }

end

def Writer.rank : Writer → ℕ
  | .finished => 0
  | .close => 1
  | .next => 2
  | .send => 3
  | .unblock => 4
  | .isBlocked => 5
  | .loadRead _ => 6
  | .add _ => 7

/-- Steps that the reader has ahead until it waits, or gets bytes, or is finished. It does not wait for a channel that
is closed; a read that finds nothing comes after a step of the writer. -/
def Reader.rank (closed empty : Bool) : Reader → ℕ
  | .finished => 0
  | .addRead _ true => 1
  | .receive => if closed then 11 else 3
  | .block => if closed then 12 else 4
  | .loadWritten _ => if closed then 13 else 5
  | .loadRead => if closed then 14 else 6
  | .addRead _ false => if closed then 15 else 7
  | .isDone => 8
  | .read => if empty then 9 else 3

/-- What is ahead: of the writer, bytes for the reader, and steps of the reader. -/
def ahead (s : State) : ℕ :=
  16 * (8 * s.chunks.length + s.writer.rank) + 16 * (s.chunks.flatten.length + (s.file.length - s.pos)) +
    s.reader.rank s.closed (s.file.length - s.pos = 0)

lemma Reader.rank_le (r : Reader) (closed empty : Bool) : r.rank closed empty ≤ 15 := by
  cases r with
  | addRead n eof => cases closed <;> cases eof <;> simp [rank]
  | _ => cases closed <;> cases empty <;> simp [rank]

lemma Inv.ahead_lt (h : Inv all s) (hst : Step s t) : ahead t < ahead s := by
  have hpos := h.pos
  cases hst with
  | @write c cs hw hc =>
    have hrank := s.reader.rank_le s.closed ((s.file ++ c).length - s.pos = 0)
    simp only [ahead, hw, hc, Writer.rank, length_append, length_cons, flatten_cons] at hrank ⊢
    omega
  | done hw hc => simp [ahead, hw, Writer.rank]
  | close hw =>
    have hrank := s.reader.rank_le true (s.file.length - s.pos = 0)
    simp only [ahead, hw, Writer.rank]
    omega
  | add hw => simp [ahead, hw, Writer.rank]
  | load hw =>
    simp only [ahead, hw]
    split_ifs <;> simp [Writer.rank]
  | isBlocked hw =>
    simp only [ahead, hw]
    split_ifs <;> simp [Writer.rank]
  | unblock hw => simp [ahead, hw, Writer.rank]
  | meet hw hr =>
    simp only [ahead, hw, hr, Writer.rank, Reader.rank]
    split_ifs <;> omega
  | receive hr hc =>
    simp only [ahead, hr, hc, Reader.rank]
    split_ifs <;> simp
  | loadRead hr =>
    simp only [ahead, hr, Reader.rank]
    split_ifs <;> omega
  | @loadWritten v hr =>
    have hread := h.read
    have hwritten := h.written
    have hloaded := h.loadedRead v hr
    simp only [hr, Reader.pending] at hread
    simp only [ahead, hr]
    split_ifs with hle
    · simp only [Reader.rank]
      split_ifs <;> omega
    · have hsome : ¬ s.file.length - s.pos = 0 := by omega
      simp only [Reader.rank, hsome, decide_false, Bool.false_eq_true, if_false]
      split_ifs <;> omega
  | block hr =>
    simp only [ahead, hr, Reader.rank]
    split_ifs <;> omega
  | read hr hn hle =>
    simp only [ahead, hr, Reader.rank]
    split_ifs <;> omega
  | eof hr hend =>
    have hempty : s.file.length - s.pos = 0 := by omega
    simp [ahead, hr, Reader.rank, hempty]
  | isDone hr =>
    simp only [ahead, hr]
    split_ifs with hd
    · simp [Reader.rank]
    · have hc : s.closed = false := by
        rw [Bool.eq_false_iff]
        exact fun hc => hd (h.done.mpr (.inr (h.closed.mp hc)))
      simp [Reader.rank, hc]
  | @addRead n eof hr =>
    simp only [ahead, hr]
    cases eof with
    | true => simp [Reader.rank]
    | false =>
      simp only [Reader.rank, Bool.false_eq_true, if_false]
      split_ifs <;> omega

lemma Inv.goesOn (h : Inv all s) (hs : ¬ (s.writer = .finished ∧ s.reader = .finished)) : ∃ t, Step s t := by
  cases hw : s.writer with
  | next =>
    cases hc : s.chunks with
    | nil => exact ⟨_, .done hw hc⟩
    | cons c cs => exact ⟨_, .write hw hc⟩
  | add n => exact ⟨_, .add hw⟩
  | loadRead v => exact ⟨_, .load hw⟩
  | isBlocked => exact ⟨_, .isBlocked hw⟩
  | unblock => exact ⟨_, .unblock hw⟩
  | send => exact ⟨_, .meet hw (h.send hw).1⟩
  | close => exact ⟨_, .close hw⟩
  | finished =>
    cases hr : s.reader with
    | loadRead => exact ⟨_, .loadRead hr⟩
    | loadWritten v => exact ⟨_, .loadWritten hr⟩
    | block => exact ⟨_, .block hr⟩
    | receive => exact ⟨_, .receive hr (h.closed.mpr hw)⟩
    | read =>
      by_cases hend : s.file.length ≤ s.pos
      · exact ⟨_, .eof hr hend⟩
      · exact ⟨_, @Step.read s 1 hr one_pos (by omega)⟩
    | isDone => exact ⟨_, .isDone hr⟩
    | addRead n eof => exact ⟨_, .addRead hr⟩
    | finished => exact absurd ⟨hw, hr⟩ hs

end Invariant

variable {cs : List Bytes} {c : Bytes}

lemma flatten_eq_nil_of_single (h : Single (c :: cs)) (hc : c ≠ []) : cs.flatten = [] := by
  rw [Single, filter_cons_of_pos (by simpa using hc), length_cons] at h
  have hnone := filter_eq_nil_iff.mp (length_eq_zero_iff.mp (by omega : (cs.filter (· ≠ [])).length = 0))
  rw [flatten_eq_nil_iff]
  exact fun l hl => by simpa using hnone l hl

lemma single_tail (h : Single (c :: cs)) : Single cs :=
  ((sublist_cons_self c cs).filter _).length_le.trans h

@[simp] def Reader.atEnd : Reader → Bool
  | .isDone | .addRead _ true | .finished => true
  | _ => false

/-- The reader is past `sleep` and has not got bytes. -/
@[simp] def Reader.awake (r : Reader) : Bool := r = .read || r.atEnd

@[simp] def Writer.waking : Writer → Bool
  | .isBlocked | .unblock | .send => true
  | _ => false

structure Whole (s : State) : Prop where
  single : Single s.chunks
  file : s.file ≠ [] → s.chunks.flatten = []
  waking : s.writer.waking = true → s.file ≠ []
  awake : s.reader.awake = true → s.chunks.flatten = []
  atEnd : s.reader.atEnd = true → s.pos = s.file.length
  close : s.writer = .close ∨ s.writer = .finished → s.chunks = []

variable {chunks : List Bytes}

lemma whole_start (h : Single chunks) : Whole (start chunks) := by
  constructor <;> simp [start, h]

lemma Whole.step {all : Bytes} {s t : State} (hinv : Inv all s) (h : Whole s) (hst : Step s t) : Whole t := by
  cases hst with
  | @write c cs hw hc =>
    have hsingle := hc ▸ h.single
    have hflat : s.chunks.flatten = [] → c = [] ∧ cs.flatten = [] := by simp [hc]
    exact {
      single := single_tail hsingle
      file := by
        intro hfile
        by_cases hempty : c = []
        · exact (hflat (h.file (by simpa [hempty] using hfile))).2
        · exact flatten_eq_nil_of_single hsingle hempty
      waking := by simp
      awake := fun hr => (hflat (h.awake hr)).2
      atEnd := by
        intro hr
        have hawake : s.reader.awake = true := Bool.or_eq_true_iff.mpr (.inr hr)
        simp [h.atEnd hr, (hflat (h.awake hawake)).1]
      close := by simp }
  | done hw hc => exact { h with waking := by simp, close := fun _ => hc }
  | close hw => exact { h with waking := by simp, close := fun _ => h.close (.inl hw) }
  | add hw => exact { h with waking := by simp, close := by simp }
  | @load v hw =>
    have hwritten := hinv.written
    have hloaded := hinv.loadedWritten v hw
    refine { h with waking := ?_, close := ?_ }
    · split_ifs with hv
      · intro _ hfile
        rw [hfile, length_nil] at hwritten
        omega
      · simp
    · split_ifs <;> simp
  | isBlocked hw =>
    refine { h with waking := fun _ => h.waking (by simp [hw]), close := ?_ }
    split_ifs <;> simp
  | unblock hw => exact { h with waking := fun _ => h.waking (by simp [hw]), close := by simp }
  | meet hw hr =>
    exact { h with
      waking := by simp
      awake := fun _ => h.file (h.waking (by simp [hw]))
      atEnd := by simp
      close := by simp }
  | receive hr hc =>
    exact { h with
      awake := fun _ => by simp [h.close (.inr (hinv.closed.mp hc))]
      atEnd := by simp }
  | loadRead hr => exact { h with awake := by simp, atEnd := by simp }
  | loadWritten hr =>
    refine { h with awake := ?_, atEnd := ?_ }
    · split_ifs with hv
      · simp
      · intro _
        refine h.file fun hfile => ?_
        have hwritten := hinv.written
        rw [hfile, length_nil] at hwritten
        omega
    · split_ifs <;> simp
  | block hr => exact { h with awake := by simp, atEnd := by simp }
  | read hr hn hle => exact { h with awake := by simp, atEnd := by simp }
  | eof hr hend =>
    exact { h with
      awake := fun _ => h.awake (by simp [hr])
      atEnd := fun _ => le_antisymm hinv.pos hend }
  | isDone hr =>
    exact { h with
      awake := fun _ => h.awake (by simp [hr])
      atEnd := fun _ => h.atEnd (by simp [hr]) }
  | @addRead n eof hr =>
    cases eof with
    | true =>
      exact { h with
        awake := fun _ => h.awake (by simp [hr])
        atEnd := fun _ => h.atEnd (by simp [hr]) }
    | false => exact { h with awake := by simp, atEnd := by simp }

/-- Both sides finish in every interleaving, and the reader gets no other bytes than those at the start. -/
theorem finishes :
    Inevitable Step (fun s => s.writer = .finished ∧ s.reader = .finished ∧ s.received <+: chunks.flatten)
      (start chunks) := by
  refine Inevitable.of_measure ahead (fun s t => Inv.step) (fun s t => Inv.ahead_lt) (fun s hs => ?_) (inv_start chunks)
  by_cases hfinished : s.writer = .finished ∧ s.reader = .finished
  · refine .inl ⟨hfinished.1, hfinished.2, ?_⟩
    rw [hs.received, ← hs.file]
    exact (List.take_prefix _ _).trans (prefix_append _ _)
  · exact .inr (hs.goesOn hfinished)

lemma delivered_of_single (h : Single chunks) : Inevitable Step (Delivered chunks) (start chunks) := by
  refine Inevitable.of_measure ahead (P := fun s => Inv chunks.flatten s ∧ Whole s)
    (fun s t hs hst => ⟨hs.1.step hst, hs.2.step hs.1 hst⟩) (fun s t hs => hs.1.ahead_lt) (fun s hs => ?_)
    ⟨inv_start chunks, whole_start h⟩
  obtain ⟨hinv, hwhole⟩ := hs
  by_cases hfinished : s.writer = .finished ∧ s.reader = .finished
  · refine .inl ⟨hfinished.1, hfinished.2, ?_⟩
    have hpos := hwhole.atEnd (by simp [hfinished.2])
    have hchunks := hwhole.close (.inr hfinished.1)
    rw [hinv.received, hpos, take_length, ← hinv.file, hchunks, flatten_nil, append_nil]
  · exact .inr (hinv.goesOn hfinished)

section Late

open Relation (ReflTransGen)

variable {v : ℕ}

variable {s : State}

lemma run_load (hw : s.writer = .loadRead v) (hb : s.blocked = false) :
    ReflTransGen Step s { s with writer := .next } := by
  have hload := Step.load hw
  split_ifs at hload
  · have hblocked := @Step.isBlocked { s with writer := .isBlocked } rfl
    rw [if_neg (by simp [hb])] at hblocked
    exact (ReflTransGen.single hload).tail hblocked
  · exact .single hload

lemma run_nil (cs : List Bytes) : ReflTransGen Step (start ([] :: cs)) (start cs) := by
  have hwrite : Step (start ([] :: cs)) { start cs with writer := .add 0 } := .write rfl rfl
  have hadd := @Step.add { start cs with writer := .add 0 } 0 rfl
  exact ((ReflTransGen.single hwrite).tail hadd).trans (run_load rfl rfl)

lemma run_writer {s : State} (hw : s.writer = .next) (hb : s.blocked = false) :
    ∃ t, ReflTransGen Step s t ∧ t.writer = .finished ∧ t.done = true ∧ t.reader = s.reader ∧
      t.received = s.received := by
  induction hc : s.chunks generalizing s with
  | nil =>
    have hdone : Step s { s with done := true, writer := .close } := .done hw hc
    exact ⟨_, (ReflTransGen.single hdone).tail (.close rfl), rfl, rfl, rfl, rfl⟩
  | cons c cs ih =>
    have hwrite := Step.write hw hc
    have hadd := @Step.add { s with file := s.file ++ c, chunks := cs, writer := .add c.length } _ rfl
    obtain ⟨t, ht, hrest⟩ := ih (s := { s with
      file := s.file ++ c, chunks := cs, written := s.written + c.length, writer := .next }) rfl hb rfl
    exact ⟨t, (((ReflTransGen.single hwrite).tail hadd).trans (run_load rfl hb)).trans ht, hrest⟩

/-- The reader has read everything and waits, while the writer has seen that there was something to read. -/
def caughtUp (a : Bytes) (cs : List Bytes) : State where
  chunks := cs
  file := a
  pos := a.length
  written := a.length
  read := a.length
  blocked := true
  received := a
  writer := .isBlocked
  reader := .receive

lemma Step.load_some (hw : s.writer = .loadRead v) (hv : s.read < v) : Step s { s with writer := .isBlocked } := by
  simpa [hv] using Step.load hw

lemma Step.loadWritten_some (hr : s.reader = .loadWritten v) (hv : v < s.written) :
    Step s { s with reader := .read } := by
  simpa [not_le.mpr hv] using Step.loadWritten hr

lemma Step.loadWritten_none (hr : s.reader = .loadWritten v) (hv : s.written ≤ v) :
    Step s { s with reader := .block } := by
  simpa [hv] using Step.loadWritten hr

lemma run_caughtUp {a : Bytes} (ha : a ≠ []) (cs : List Bytes) :
    ReflTransGen Step (start (a :: cs)) (caughtUp a cs) := by
  have hlen : 0 < a.length := length_pos_iff.mpr ha
  have hrun := (((ReflTransGen.single (@Step.write (start (a :: cs)) a cs rfl rfl)).tail (.add rfl)).tail
    (.load_some rfl (by simpa [start]))).tail (.loadRead rfl)
  have hbytes := (hrun.tail (.loadWritten_some rfl (by simpa [start]))).tail
    (@Step.read _ a.length rfl hlen (by simp [start]))
  have hwait := (((hbytes.tail (.addRead rfl)).tail (.loadRead rfl)).tail
    (.loadWritten_none rfl (by simp [start]))).tail (.block rfl)
  simpa [start, caughtUp] using hwait

lemma run_late {a : Bytes} (ha : a ≠ []) (cs : List Bytes) :
    ∃ t, ReflTransGen Step (start (a :: cs)) t ∧ t.writer = .finished ∧ t.reader = .finished ∧ t.received = a := by
  have hempty := ((((run_caughtUp ha cs).tail (.isBlocked rfl)).tail (.unblock rfl)).tail (.meet rfl rfl)).tail
    (.eof rfl le_rfl)
  obtain ⟨t, ht, hw, hdone, hr, hreceived⟩ :=
    @run_writer { caughtUp a cs with blocked := false, writer := .next, reader := .isDone } rfl rfl
  have hend := @Step.isDone t hr
  rw [if_pos hdone] at hend
  have hlast := @Step.addRead { t with reader := .addRead 0 true } _ _ rfl
  exact ⟨_, ((hempty.trans ht).tail hend).tail hlast, hw, rfl, hreceived⟩

lemma exists_late (h : ¬ Single chunks) :
    ∃ t, ReflTransGen Step (start chunks) t ∧ t.writer = .finished ∧ t.reader = .finished ∧
      t.received ≠ chunks.flatten := by
  induction chunks with
  | nil => exact absurd (by simp [Single]) h
  | cons c cs ih =>
    by_cases hc : c = []
    · subst hc
      obtain ⟨t, ht, hrest⟩ := ih (by simpa [Single] using h)
      exact ⟨t, (run_nil cs).trans ht, hrest⟩
    · obtain ⟨t, ht, hw, hr, hreceived⟩ := run_late hc cs
      refine ⟨t, ht, hw, hr, fun heq => h ?_⟩
      rw [hreceived, flatten_cons, self_eq_append_right, flatten_eq_nil_iff] at heq
      have hnone : cs.filter (· ≠ []) = [] := filter_eq_nil_iff.mpr fun l hl => by simp [heq l hl]
      rw [Single, filter_cons, hnone]
      split_ifs <;> simp

lemma not_step_of_finished {s t : State} (hw : s.writer = .finished) (hr : s.reader = .finished) : ¬ Step s t := by
  intro hst
  cases hst <;> simp_all

lemma single_of_delivered (h : Inevitable Step (Delivered chunks) (start chunks)) : Single chunks := by
  by_contra hsingle
  obtain ⟨t, ht, hw, hr, hreceived⟩ := exists_late hsingle
  have hstable : ∀ s t, Delivered chunks s → Step s t → Delivered chunks t := fun s t hs hst =>
    absurd hst (not_step_of_finished hs.1 hs.2.1)
  cases h.of_reflTransGen hstable ht with
  | now hgoal => exact hreceived hgoal.2.2
  | later next _ =>
    obtain ⟨u, hu⟩ := next
    exact not_step_of_finished hw hr hu

end Late

/-- In every interleaving both sides finish and the reader gets exactly the bytes that were written, if and only if at
most one write has bytes. -/
theorem delivered_iff (chunks : List Bytes) : Inevitable Step (Delivered chunks) (start chunks) ↔ Single chunks :=
  ⟨single_of_delivered, delivered_of_single⟩

theorem not_delivered_two : ¬ Inevitable Step (Delivered [[0x61], [0x62]]) (start [[0x61], [0x62]]) := fun h =>
  absurd (single_of_delivered h) (by decide)

end GoGit.SyncedReader
