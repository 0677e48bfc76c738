import GoGit.Search
import GoGit.UploadRequest

/-! `UploadPack`: a loop that reads what the client has, and goroutines that write to the client. The loop waits for a
goroutine on a channel of its own in each round. -/
namespace GoGit.UploadPack

open Packp

inductive UploadError
  | advertisingReferences
  | peekingLine
  | decodingUploadRequest (cause : DecodeError)
  | closingReader
  | gettingObjectsWithRef
  | gettingShallowCommits
  | unsupportedDepthType
  | sendingShallowUpdate
  | decodingUploadHaves
  | sendingAcks
  | sendingNak
  | sendingFinalAck
  | sendingFinalNak
  | gettingObjectsToUpload
  | encodingPackfile
  | flushingSideband
  | closingWriter
  deriving DecidableEq

inductive ACKStatus
  | none
  | continue
  | common
  | ready
  deriving DecidableEq

structure ACK where
  hash : ObjectID
  status : ACKStatus
  deriving DecidableEq

inductive Message
  | shallowUpdate (shallows unshallows : List ObjectID)
  | serverResponse (acks : List ACK)
  deriving DecidableEq

structure Env where
  /-- Whether the version and the references cannot be sent. -/
  advertise : Bool
  /-- Whether closing the reader fails, after so many calls. -/
  closeReader : ℕ → Bool
  objectsWithRef : List ObjectID → Option (ObjectID → Option (List ObjectID))
  getShallowCommits : List ObjectID → ℤ → Option (List ObjectID × List ObjectID)
  /-- Whether a write fails, after what has been written. -/
  write : List Message → Message → Bool
  objectsToUpload : List ObjectID → List ObjectID → Option (List ObjectID)
  /-- Whether the pack of some objects cannot be written. -/
  encode : List ObjectID → Bool
  /-- Whether the last packet cannot be written. -/
  writeFlush : Bool
  /-- Whether closing the writer fails. -/
  closeWriter : Bool

structure Options where
  advertiseRefs : Bool
  statelessRPC : Bool

def defaultBufSize : ℕ := 4096

/-- `PeekLine`: whether the first packet is a flush packet. A packet that is larger than the buffer cannot be
looked at. -/
def peekLine : List Pkt → Option Bool
  | [] => none
  | p :: _ =>
    match p with
    | .flush => some true
    | .special => some false
    | .line text => if defaultBufSize < text.length + PktLine.lenSize then none else (p.readLine).map fun _ => false
    | .broken => none

structure UploadHaves where
  haves : List ObjectID
  done : Bool
  deriving DecidableEq

/-- `UploadHaves.Decode`; the end of the input ends the message. -/
def decodeHaves (haves : List ObjectID) : List Pkt → Option (UploadHaves × List Pkt)
  | [] => some (⟨haves, false⟩, [])
  | p :: rest =>
    match p.readLine with
    | none => none
    | some text =>
      if p = .flush then some (⟨haves, false⟩, rest)
      else if textBytes "done" <+: text then some (⟨haves, true⟩, rest)
      else if textBytes "have " <+: text then
        decodeHaves (haves ++ [.fromHex (Trim.trimSpace (text.drop 5))]) rest
      else none

def answer (havesWithRef : ObjectID → Option (List ObjectID)) (multiAck multiAckDetailed : Bool) :
    List ObjectID → ACK × List ACK → ACK × List ACK
  | [], st => st
  | hu :: haves, (ack, acks) =>
    let ok := (havesWithRef hu).isSome
    let status : ACKStatus :=
      if multiAckDetailed then if ok then .common else .ready else if multiAck then .continue else .none
    if ok || multiAck || multiAckDetailed then
      if !multiAck && !multiAckDetailed then (⟨hu, status⟩, acks ++ [⟨hu, status⟩])
      else answer havesWithRef multiAck multiAckDetailed haves (⟨hu, status⟩, acks ++ [⟨hu, status⟩])
    else answer havesWithRef multiAck multiAckDetailed haves (ack, acks)

abbrev Job := Message × UploadError

inductive Todo
  | writing (jobs : List Job)
  | sending (err : Option UploadError)
  | closing
  deriving DecidableEq

structure Goroutine where
  channel : ℕ
  /-- The channel is closed at the end. -/
  closes : Bool
  todo : Todo
  deriving DecidableEq

def shallowTodo (env : Env) (upreq : UploadRequest) : Todo :=
  if upreq.depth.isZero then .writing []
  else
    match upreq.depth with
    | .commits depth =>
      match env.getShallowCommits upreq.wants depth with
      | none => .sending (some .gettingShallowCommits)
      | some (shallows, unshallows) => .writing [(.shallowUpdate shallows unshallows, .sendingShallowUpdate)]
    | _ => .sending (some .unsupportedDepthType)

/-- The goroutine that answers a message of the client; `haves` are those of all messages. -/
def ackJobs (haves : List ObjectID) (multi done : Bool) (ack : ACK) (acks : List ACK) : List Job :=
  (if 0 < haves.length then [(.serverResponse acks, .sendingAcks)] else []) ++
  (if !done then if multi then [(.serverResponse [], .sendingNak)] else []
  else if !ack.hash.IsZero && multi then [(.serverResponse [{ ack with status := .none }], .sendingFinalAck)]
  else if ack.hash.IsZero then [(.serverResponse [], .sendingFinalNak)]
  else [])

structure Locals where
  firstRound : Bool := true
  done : Bool := false
  haves : List ObjectID := []
  wants : List ObjectID := []
  caps : CapabilityList := []
  havesWithRef : ObjectID → Option (List ObjectID) := fun _ => none
  /-- The number of channels that have been made. -/
  channels : ℕ := 0

def Locals.multiAck (l : Locals) : Bool := l.caps.supports Capability.MultiACK

def Locals.multiAckDetailed (l : Locals) : Bool := l.caps.supports Capability.MultiACKDetailed

inductive Wait
  | shallow
  | answers
  deriving DecidableEq

inductive Main
  | start
  | top (l : Locals)
  | receive (channel : ℕ) (l : Locals) (wait : Wait)
  | finished (err : Option UploadError)

structure State where
  main : Main
  goroutines : List Goroutine
  closed : List ℕ
  input : List Pkt
  written : List Message
  /-- How often the reader has been closed. -/
  closes : ℕ

def State.finish (s : State) (err : Option UploadError) : State := { s with main := .finished err }

section Run

variable (env : Env) (opts : Options)

def enter (s : State) : State :=
  if (opts.advertiseRefs || !opts.statelessRPC) && env.advertise then s.finish (some .advertisingReferences)
  else if opts.advertiseRefs then s.finish none
  else
    match peekLine s.input with
    | none => s.finish (some .peekingLine)
    | some true => s.finish none
    | some false => { s with main := .top {} }

def sendPack (l : Locals) : Option UploadError :=
  match env.objectsToUpload l.wants l.haves with
  | none => some .gettingObjectsToUpload
  | some objs =>
    let useSideband := l.caps.supports Capability.Sideband64k || l.caps.supports Capability.Sideband
    if env.encode objs then some .encodingPackfile
    else if useSideband && env.writeFlush then some .flushingSideband
    else if env.closeWriter then some .closingWriter
    else none

/-- The loop up to the first receive. A new channel is made in each round. -/
def round (s : State) (l : Locals) : State :=
  if l.done then
    if env.closeReader s.closes then s.finish (some .closingReader) else s.finish (sendPack env l)
  else
    let writec := l.channels
    let l := { l with channels := l.channels + 1 }
    if l.firstRound || opts.statelessRPC then
      match UploadRequest.decode s.input with
      | .error e => s.finish (some (.decodingUploadRequest e))
      | .ok (upreq, rest) =>
        if env.closeReader s.closes then s.finish (some .closingReader)
        else
          match env.objectsWithRef upreq.wants with
          | none => s.finish (some .gettingObjectsWithRef)
          | some havesWithRef =>
            { s with
              main := .receive writec
                { l with wants := upreq.wants, caps := upreq.capabilities, havesWithRef := havesWithRef } .shallow
              goroutines := s.goroutines ++ [⟨writec, false, shallowTodo env upreq⟩]
              input := rest
              closes := s.closes + 1 }
    else { s with main := .receive writec l .shallow }

def received (s : State) (writec : ℕ) (l : Locals) (wait : Wait) (err : Option UploadError) : State :=
  match err with
  | some e => s.finish (some e)
  | none =>
    match wait with
    | .answers => { s with main := .top { l with firstRound := false } }
    | .shallow =>
      match decodeHaves [] s.input with
      | none => s.finish (some .decodingUploadHaves)
      | some (uphav, rest) =>
        if env.closeReader s.closes then s.finish (some .closingReader)
        else
          let haves := l.haves ++ uphav.haves
          let (ack, acks) := answer l.havesWithRef l.multiAck l.multiAckDetailed uphav.haves (⟨.zeroHash, .none⟩, [])
          { s with
            main := .receive writec { l with haves := haves, done := uphav.done } .answers
            goroutines := s.goroutines ++
              [⟨writec, true, .writing (ackJobs haves (l.multiAck || l.multiAckDetailed) uphav.done ack acks)⟩]
            input := rest
            closes := s.closes + 1 }

def State.replace (s : State) (before after : List Goroutine) (g : Option Goroutine) : State :=
  { s with goroutines := before ++ g.toList ++ after }

def Goroutine.sent (g : Goroutine) : Option Goroutine := if g.closes then some { g with todo := .closing } else none

/-- The server, and the goroutines that write for it and meet it at a channel. -/
inductive Step : State → State → Prop
  | start {s : State} (h : s.main = .start) : Step s (enter env opts s)
  | top {s : State} {l : Locals} (h : s.main = .top l) : Step s (round env opts s l)
  | write {s : State} {before after : List Goroutine} {g : Goroutine} {p : Message} {e : UploadError}
      {jobs : List Job} (h : s.goroutines = before ++ g :: after) (todo : g.todo = .writing ((p, e) :: jobs)) :
      Step s (if env.write s.written p then s.replace before after (some { g with todo := .sending (some e) })
        else { s.replace before after (some { g with todo := .writing jobs }) with written := s.written ++ [p] })
  | wrote {s : State} {before after : List Goroutine} {g : Goroutine} (h : s.goroutines = before ++ g :: after)
      (todo : g.todo = .writing []) : Step s (s.replace before after (some { g with todo := .sending none }))
  | meet {s : State} {before after : List Goroutine} {g : Goroutine} {l : Locals} {wait : Wait}
      {err : Option UploadError} (main : s.main = .receive g.channel l wait)
      (h : s.goroutines = before ++ g :: after) (todo : g.todo = .sending err) :
      Step s (received env (s.replace before after g.sent) g.channel l wait err)
  | close {s : State} {before after : List Goroutine} {g : Goroutine} (h : s.goroutines = before ++ g :: after)
      (todo : g.todo = .closing) : Step s { s.replace before after none with closed := g.channel :: s.closed }
  | closed {s : State} {channel : ℕ} {l : Locals} {wait : Wait} (main : s.main = .receive channel l wait)
      (h : channel ∈ s.closed) : Step s (received env s channel l wait none)

def initial (input : List Pkt) : State := ⟨.start, [], [], input, [], 0⟩

end Run

/-- The loop waits on a channel that is not closed and that no goroutine uses. -/
def Deadlocked (s : State) : Prop :=
  ∃ channel l wait, s.main = .receive channel l wait ∧ channel ∉ s.closed ∧ ∀ g ∈ s.goroutines, g.channel ≠ channel

def Finished (s : State) : Prop := ∃ err, s.main = .finished err

def Live (env : Env) (opts : Options) (input : List Pkt) : Prop :=
  (∀ s, Relation.ReflTransGen (Step env opts) (initial input) s → ¬ Deadlocked s) ∧
    Inevitable (Step env opts) Finished (initial input)

section Condition

variable (env : Env)

/-- The error that a goroutine sends in the end, and what has been written then. -/
def jobsOutcome : List Job → List Message → Option UploadError × List Message
  | [], written => (none, written)
  | (p, e) :: jobs, written => if env.write written p then (some e, written) else jobsOutcome jobs (written ++ [p])

def outcome (todo : Todo) (written : List Message) : Option UploadError × List Message :=
  match todo with
  | .writing jobs => jobsOutcome env jobs written
  | .sending err => (err, written)
  | .closing => (none, written)

def Enters (advertiseRefs : Bool) (input : List Pkt) : Prop :=
  env.advertise = false ∧ advertiseRefs = false ∧ peekLine input = some false

def Requests (input : List Pkt) (upreq : UploadRequest) (rest : List Pkt)
    (havesWithRef : ObjectID → Option (List ObjectID)) : Prop :=
  UploadRequest.decode input = .ok (upreq, rest) ∧ env.closeReader 0 = false ∧
    env.objectsWithRef upreq.wants = some havesWithRef

def requested (upreq : UploadRequest) (havesWithRef : ObjectID → Option (List ObjectID)) : Locals :=
  { wants := upreq.wants, caps := upreq.capabilities, havesWithRef := havesWithRef, channels := 1 }

def answers (l : Locals) (uphav : UploadHaves) : List Job :=
  let (ack, acks) := answer l.havesWithRef l.multiAck l.multiAckDetailed uphav.haves (⟨.zeroHash, .none⟩, [])
  ackJobs (l.haves ++ uphav.haves) (l.multiAck || l.multiAckDetailed) uphav.done ack acks

def Answers (l : Locals) (input : List Pkt) (written : List Message) (uphav : UploadHaves) : Prop :=
  (∃ rest, decodeHaves [] input = some (uphav, rest)) ∧ env.closeReader 1 = false ∧
    (outcome env (.writing (answers l uphav)) written).1 = none

/-- The request of the client and its first message are read and answered without an error, and the message does
not say that the client is done. -/
def GoesOn (advertiseRefs : Bool) (input : List Pkt) : Prop :=
  Enters env advertiseRefs input ∧ ∃ upreq rest havesWithRef, Requests env input upreq rest havesWithRef ∧
    (outcome env (shallowTodo env upreq) []).1 = none ∧ ∃ uphav : UploadHaves, uphav.done = false ∧
      Answers env (requested upreq havesWithRef) rest (outcome env (shallowTodo env upreq) []).2 uphav

end Condition

variable {input : List Pkt}

section Steps

variable {env : Env} {opts : Options} {s t : State}

lemma deadlocked_step (h : Deadlocked s) (hstep : Step env opts s t) : Deadlocked t := by
  obtain ⟨channel, l, wait, hmain, hopen, hnone⟩ := h
  have hrest : ∀ {before after : List Goroutine} {g : Goroutine} (g' : Option Goroutine),
      s.goroutines = before ++ g :: after → (∀ x ∈ g', x.channel = g.channel) →
      ∀ x ∈ before ++ g'.toList ++ after, x.channel ≠ channel := by
    intro before after g g' hgs hg' x hx
    rw [hgs] at hnone
    simp only [List.mem_append, Option.mem_toList] at hx
    rcases hx with (hx | hx) | hx
    · exact hnone x (by simp [hx])
    · exact hg' x hx ▸ hnone g (by simp)
    · exact hnone x (by simp [hx])
  cases hstep with
  | start h => rw [hmain] at h; cases h
  | top h => rw [hmain] at h; cases h
  | @write before after g p e jobs h todo =>
    split_ifs with hwrite
    · exact ⟨channel, l, wait, hmain, hopen, hrest _ h (by simp)⟩
    · exact ⟨channel, l, wait, hmain, hopen, hrest _ h (by simp)⟩
  | wrote h todo => exact ⟨channel, l, wait, hmain, hopen, hrest _ h (by simp)⟩
  | @meet before after g l' wait' err main h todo =>
    rw [hmain] at main
    cases main
    exact absurd rfl (hnone g (by simp [h]))
  | @close before after g h todo =>
    refine ⟨channel, l, wait, hmain, ?_, hrest none h (by simp)⟩
    have hg := hnone g (by simp [h])
    simp only [List.mem_cons, not_or]
    exact ⟨hg.symm, hopen⟩
  | @closed channel' l' wait' main h =>
    rw [hmain] at main
    cases main
    exact absurd h hopen

lemma not_finished_of_deadlocked (h : Deadlocked s) : ¬ Finished s := by
  obtain ⟨channel, l, wait, hmain, -⟩ := h
  rintro ⟨err, herr⟩
  rw [hmain] at herr
  cases herr

lemma finished_step (h : Finished s) (hstep : Step env opts s t) : Finished t := by
  obtain ⟨err, herr⟩ := h
  cases hstep with
  | start h => rw [herr] at h; cases h
  | top h => rw [herr] at h; cases h
  | write h todo =>
    split_ifs
    · exact ⟨err, herr⟩
    · exact ⟨err, herr⟩
  | wrote h todo => exact ⟨err, herr⟩
  | meet main h todo => rw [herr] at main; cases main
  | close h todo => exact ⟨err, herr⟩
  | closed main h => rw [herr] at main; cases main

lemma live_of_inevitable (h : Inevitable (Step env opts) Finished (initial input)) : Live env opts input := by
  refine ⟨fun s hs => ?_, h⟩
  have hinev := h.of_reflTransGen (fun _ _ => finished_step) hs
  exact hinev.not_of_invariant (fun _ _ => deadlocked_step) fun _ => not_finished_of_deadlocked

lemma eq_of_singleton {g g' : Goroutine} {before after : List Goroutine} (h : [g] = before ++ g' :: after) :
    before = [] ∧ g' = g ∧ after = [] := by
  cases before with
  | nil => simpa [eq_comm] using h
  | cons x before => simp at h

lemma step_start_iff (hmain : s.main = .start) (hgs : s.goroutines = []) :
    Step env opts s t ↔ t = enter env opts s := by
  refine ⟨fun h => ?_, fun h => h ▸ .start hmain⟩
  cases h <;> simp_all

lemma step_top_iff {l : Locals} (hmain : s.main = .top l) (hgs : s.goroutines = []) :
    Step env opts s t ↔ t = round env opts s l := by
  refine ⟨fun h => ?_, fun h => h ▸ .top hmain⟩
  cases h <;> simp_all

section Wait

variable {channel : ℕ} {l : Locals} {wait : Wait} {closes : Bool} {todo : Todo}

structure Waits (s : State) (channel : ℕ) (l : Locals) (wait : Wait) (closes : Bool) (todo : Todo) : Prop where
  main : s.main = .receive channel l wait
  goroutines : s.goroutines = [⟨channel, closes, todo⟩]
  closed : s.closed = []

lemma Waits.step_iff (h : Waits s channel l wait closes todo) : Step env opts s t ↔ match todo with
    | .writing ((p, e) :: jobs) => t = if env.write s.written p then
        { s with goroutines := [⟨channel, closes, .sending (some e)⟩] }
      else { s with goroutines := [⟨channel, closes, .writing jobs⟩], written := s.written ++ [p] }
    | .writing [] => t = { s with goroutines := [⟨channel, closes, .sending none⟩] }
    | .sending err =>
      t = received env { s with goroutines := if closes then [⟨channel, closes, .closing⟩] else [] } channel l wait err
    | .closing => t = { s with goroutines := [], closed := [channel] } := by
  obtain ⟨hmain, hgs, hclosed⟩ := h
  constructor
  · intro hstep
    cases hstep with
    | start h => rw [hmain] at h; cases h
    | top h => rw [hmain] at h; cases h
    | write h htodo =>
      obtain ⟨rfl, rfl, rfl⟩ := eq_of_singleton (hgs ▸ h)
      subst htodo
      rfl
    | wrote h htodo =>
      obtain ⟨rfl, rfl, rfl⟩ := eq_of_singleton (hgs ▸ h)
      subst htodo
      rfl
    | meet main h htodo =>
      obtain ⟨rfl, rfl, rfl⟩ := eq_of_singleton (hgs ▸ h)
      subst htodo
      rw [hmain] at main
      cases main
      cases closes <;> rfl
    | close h htodo =>
      obtain ⟨rfl, rfl, rfl⟩ := eq_of_singleton (hgs ▸ h)
      subst htodo
      simp [State.replace, hclosed]
    | closed main h => simp [hclosed] at h
  · have hsplit : s.goroutines = [] ++ ⟨channel, closes, todo⟩ :: [] := hgs
    match todo with
    | .writing ((p, e) :: jobs) => rintro rfl; exact .write hsplit rfl
    | .writing [] => rintro rfl; exact .wrote hsplit rfl
    | .sending err =>
      rintro rfl
      have hstep : Step env opts s _ := .meet hmain hsplit rfl
      cases closes <;> exact hstep
    | .closing =>
      rintro rfl
      have hstep : Step env opts s _ := .close hsplit rfl
      rw [hclosed] at hstep
      exact hstep

lemma Waits.forced_sending {err : Option UploadError} (h : Waits s channel l wait closes (.sending err)) :
    Forced (Step env opts) s
      (received env { s with goroutines := if closes then [⟨channel, closes, .closing⟩] else [] } channel l wait err) :=
  .single fun _ => h.step_iff

lemma Waits.forced_writing {jobs : List Job} (h : Waits s channel l wait closes (.writing jobs)) :
    Forced (Step env opts) s (received env { s with
        goroutines := if closes then [⟨channel, closes, .closing⟩] else []
        written := (jobsOutcome env jobs s.written).2 } channel l wait (jobsOutcome env jobs s.written).1) := by
  induction jobs generalizing s with
  | nil =>
    have hsending : Waits { s with goroutines := [⟨channel, closes, .sending none⟩] } channel l wait closes
        (.sending none) := ⟨h.main, rfl, h.closed⟩
    exact (Forced.single fun _ => h.step_iff).trans hsending.forced_sending
  | cons job jobs ih =>
    obtain ⟨p, e⟩ := job
    have hfirst : Forced (Step env opts) s _ := Forced.single fun _ => h.step_iff
    by_cases hwrite : env.write s.written p
    · rw [if_pos hwrite] at hfirst
      simp only [jobsOutcome, if_pos hwrite]
      have hsending : Waits { s with goroutines := [⟨channel, closes, .sending (some e)⟩] } channel l wait closes
          (.sending (some e)) := ⟨h.main, rfl, h.closed⟩
      exact hfirst.trans hsending.forced_sending
    · rw [if_neg hwrite] at hfirst
      simp only [jobsOutcome, if_neg hwrite]
      have hwriting : Waits { s with goroutines := [⟨channel, closes, .writing jobs⟩], written := s.written ++ [p] }
          channel l wait closes (.writing jobs) := ⟨h.main, rfl, h.closed⟩
      exact hfirst.trans (ih hwriting)

lemma Waits.forced (h : Waits s channel l wait closes todo) (htodo : todo ≠ .closing) : Forced (Step env opts) s
      (received env { s with
        goroutines := if closes then [⟨channel, closes, .closing⟩] else []
        written := (outcome env todo s.written).2 } channel l wait (outcome env todo s.written).1) := by
  cases todo with
  | writing jobs => exact h.forced_writing
  | sending err => exact h.forced_sending
  | closing => exact absurd rfl htodo

end Wait

end Steps

section FirstRound

variable {env : Env} {advertiseRefs : Bool} {input : List Pkt}

lemma finished_finish (s : State) (err : Option UploadError) : Finished (s.finish err) := ⟨err, rfl⟩

lemma enter_cases : (Finished (enter env ⟨advertiseRefs, false⟩ (initial input)) ∧ ¬ Enters env advertiseRefs input) ∨
    enter env ⟨advertiseRefs, false⟩ (initial input) = { initial input with main := .top {} } ∧
      Enters env advertiseRefs input := by
  simp only [enter, Enters, initial, Bool.not_false, Bool.or_true, Bool.true_and]
  by_cases hadv : env.advertise
  · exact .inl ⟨by rw [if_pos hadv]; exact finished_finish _ _, by simp [hadv]⟩
  rw [if_neg hadv]
  by_cases hrefs : advertiseRefs
  · exact .inl ⟨by rw [if_pos hrefs]; exact finished_finish _ _, by simp [hrefs]⟩
  rw [if_neg hrefs]
  match hpeek : peekLine input with
  | none => exact .inl ⟨finished_finish _ _, by simp⟩
  | some true => exact .inl ⟨finished_finish _ _, by simp⟩
  | some false => exact .inr ⟨rfl, by simpa using hadv, by simpa using hrefs, rfl⟩

lemma round_cases : (Finished (round env ⟨advertiseRefs, false⟩ { initial input with main := .top {} } {}) ∧
      ∀ upreq rest havesWithRef, ¬ Requests env input upreq rest havesWithRef) ∨
    ∃ upreq rest havesWithRef, Requests env input upreq rest havesWithRef ∧
      round env ⟨advertiseRefs, false⟩ { initial input with main := .top {} } {} =
        { main := .receive 0 (requested upreq havesWithRef) .shallow
          goroutines := [⟨0, false, shallowTodo env upreq⟩], closed := [], input := rest, written := [], closes := 1 } := by
  simp only [round, Requests, initial, requested]
  rcases hdec : UploadRequest.decode input with e | ⟨upreq, rest⟩
  · exact .inl ⟨finished_finish _ _, by simp⟩
  by_cases hclose : env.closeReader 0
  · exact .inl ⟨by simpa [hclose] using finished_finish _ _, by simp [hclose]⟩
  rcases hrefs : env.objectsWithRef upreq.wants with _ | havesWithRef
  · refine .inl ⟨by simpa [hclose, hrefs] using finished_finish _ _, ?_⟩
    rintro upreq' rest' havesWithRef ⟨heq, -, hsome⟩
    cases heq
    rw [hrefs] at hsome
    cases hsome
  · refine .inr ⟨upreq, rest, havesWithRef, ⟨rfl, by simpa using hclose, hrefs⟩, ?_⟩
    simp [hclose, hrefs]

lemma received_shallow_cases {l : Locals} {written : List Message} :
    (Finished (received env ⟨.receive 0 l .shallow, [], [], input, written, 1⟩ 0 l .shallow none) ∧
      ∀ uphav, ¬ Answers env l input written uphav) ∨
    ∃ uphav rest, decodeHaves [] input = some (uphav, rest) ∧ env.closeReader 1 = false ∧
      received env ⟨.receive 0 l .shallow, [], [], input, written, 1⟩ 0 l .shallow none =
        { main := .receive 0 { l with haves := l.haves ++ uphav.haves, done := uphav.done } .answers
          goroutines := [⟨0, true, .writing (answers l uphav)⟩], closed := [], input := rest, written, closes := 2 } := by
  simp only [received, Answers]
  rcases hdec : decodeHaves [] input with _ | ⟨uphav, rest⟩
  · exact .inl ⟨finished_finish _ _, by simp⟩
  by_cases hclose : env.closeReader 1
  · exact .inl ⟨by simpa [hclose] using finished_finish _ _, by simp [hclose]⟩
  · exact .inr ⟨uphav, rest, rfl, by simpa using hclose, by simp [hclose, answers]⟩

lemma goesOn_iff {upreq : UploadRequest} {rest : List Pkt} {havesWithRef : ObjectID → Option (List ObjectID)}
    (henters : Enters env advertiseRefs input) (hreq : Requests env input upreq rest havesWithRef) :
    GoesOn env advertiseRefs input ↔ (outcome env (shallowTodo env upreq) []).1 = none ∧
      ∃ uphav : UploadHaves, uphav.done = false ∧
        Answers env (requested upreq havesWithRef) rest (outcome env (shallowTodo env upreq) []).2 uphav := by
  refine ⟨?_, fun h => ⟨henters, upreq, rest, havesWithRef, hreq, h⟩⟩
  rintro ⟨-, upreq', rest', havesWithRef', ⟨hdec, -, hrefs⟩, h⟩
  cases hreq.1.symm.trans hdec
  cases hreq.2.2.symm.trans hrefs
  exact h

structure Back (s : State) (l : Locals) : Prop where
  main : s.main = .top l
  goroutines : s.goroutines = [⟨0, true, .closing⟩]
  closed : s.closed = []
  firstRound : l.firstRound = false
  channels : l.channels = 1

lemma shallowTodo_ne_closing (env : Env) (upreq : UploadRequest) : shallowTodo env upreq ≠ .closing := by
  rw [shallowTodo]
  split_ifs
  · exact nofun
  · split
    · split <;> exact nofun
    · exact nofun

lemma firstRound_cases (env : Env) (advertiseRefs : Bool) (input : List Pkt) :
    ∃ s, Forced (Step env ⟨advertiseRefs, false⟩) (initial input) s ∧
      ((Finished s ∧ ¬ GoesOn env advertiseRefs input) ∨
        (∃ l, Back s l ∧ l.done = true ∧ ¬ GoesOn env advertiseRefs input) ∨
        ∃ l, Back s l ∧ l.done = false ∧ GoesOn env advertiseRefs input) := by
  have hstart : Forced (Step env ⟨advertiseRefs, false⟩) (initial input)
      (enter env ⟨advertiseRefs, false⟩ (initial input)) := .single fun _ => step_start_iff rfl rfl
  rcases @enter_cases env advertiseRefs input with ⟨hfin, hnot⟩ | ⟨henter, henters⟩
  · exact ⟨_, hstart, .inl ⟨hfin, fun h => hnot h.1⟩⟩
  rw [henter] at hstart
  have htop := hstart.trans (.single fun _ => step_top_iff rfl rfl)
  rcases @round_cases env advertiseRefs input with ⟨hfin, hnot⟩ | ⟨upreq, rest, havesWithRef, hreq, hround⟩
  · refine ⟨_, htop, .inl ⟨hfin, ?_⟩⟩
    rintro ⟨-, upreq, rest, havesWithRef, hreq, -⟩
    exact hnot _ _ _ hreq
  rw [hround] at htop
  have hgoes := goesOn_iff henters hreq
  set l := requested upreq havesWithRef with hl
  have hwaits : Waits ⟨.receive 0 l .shallow, [⟨0, false, shallowTodo env upreq⟩], [], rest, [], 1⟩ 0 l .shallow
    false (shallowTodo env upreq) := ⟨rfl, rfl, rfl⟩
  have hshallow := htop.trans (hwaits.forced (shallowTodo_ne_closing env upreq))
  simp only [Bool.false_eq_true, if_false] at hshallow
  generalize outcome env (shallowTodo env upreq) [] = shallows at hshallow hgoes
  obtain ⟨err | err, written⟩ := shallows
  case some => exact ⟨_, hshallow, .inl ⟨finished_finish _ _, by simp [hgoes]⟩⟩
  rcases @received_shallow_cases env rest l written with ⟨hfin, hnot⟩ | ⟨uphav, rest', hdec, hclose, hreceived⟩
  · refine ⟨_, hshallow, .inl ⟨hfin, ?_⟩⟩
    rw [hgoes]
    rintro ⟨-, uphav, -, hans⟩
    exact hnot uphav hans
  rw [hreceived] at hshallow
  set l' : Locals := { l with haves := l.haves ++ uphav.haves, done := uphav.done } with hl'
  have hwaits' : Waits ⟨.receive 0 l' .answers, [⟨0, true, .writing (answers l uphav)⟩], [], rest', written, 2⟩ 0 l'
    .answers true (.writing (answers l uphav)) := ⟨rfl, rfl, rfl⟩
  have hanswered := hshallow.trans (hwaits'.forced nofun)
  simp only [if_true] at hanswered
  have hgoes' : GoesOn env advertiseRefs input ↔
      uphav.done = false ∧ (outcome env (.writing (answers l uphav)) written).1 = none := by
    rw [hgoes]
    constructor
    · rintro ⟨-, uphav', hdone, ⟨rest'', hdec'⟩, -, hnone⟩
      cases hdec.symm.trans hdec'
      exact ⟨hdone, hnone⟩
    · rintro ⟨hdone, hnone⟩
      exact ⟨rfl, uphav, hdone, ⟨rest', hdec⟩, hclose, hnone⟩
  generalize outcome env (.writing (answers l uphav)) written = sent at hanswered hgoes'
  obtain ⟨err | err, written'⟩ := sent
  case some => exact ⟨_, hanswered, .inl ⟨finished_finish _ _, by simp [hgoes']⟩⟩
  refine ⟨_, hanswered, .inr ?_⟩
  have hback : Back ⟨.top { l' with firstRound := false }, [⟨0, true, .closing⟩], [], rest', written', 2⟩
    { l' with firstRound := false } := ⟨rfl, rfl, rfl, rfl, rfl⟩
  cases hdone : uphav.done with
  | true => exact .inl ⟨_, hback, hdone, by simp [hgoes', hdone]⟩
  | false => exact .inr ⟨_, hback, hdone, hgoes'.mpr ⟨hdone, rfl⟩⟩

end FirstRound

section Back

variable {env : Env} {advertiseRefs : Bool} {s : State} {l : Locals}

lemma finished_round (opts : Options) (s : State) (hdone : l.done = true) : Finished (round env opts s l) := by
  rw [round, if_pos hdone]
  split_ifs
  · exact finished_finish _ _
  · exact finished_finish _ _

lemma Back.inevitable (h : Back s l) (hdone : l.done = true) (opts : Options) :
    Inevitable (Step env opts) Finished s := by
  refine .later ⟨_, .top h.main⟩ fun t ht => ?_
  cases ht with
  | start hmain => rw [h.main] at hmain; cases hmain
  | top hmain =>
    cases h.main.symm.trans hmain
    exact .now (finished_round opts s hdone)
  | write hgs htodo =>
    obtain ⟨-, rfl, -⟩ := eq_of_singleton (h.goroutines ▸ hgs)
    cases htodo
  | wrote hgs htodo =>
    obtain ⟨-, rfl, -⟩ := eq_of_singleton (h.goroutines ▸ hgs)
    cases htodo
  | meet hmain => rw [h.main] at hmain; cases hmain
  | close hgs htodo =>
    obtain ⟨rfl, rfl, rfl⟩ := eq_of_singleton (h.goroutines ▸ hgs)
    set t : State := { s.replace [] [] none with closed := 0 :: s.closed }
    have hmain : t.main = .top l := h.main
    exact (Forced.single fun _ => step_top_iff hmain rfl).inevitable (.now (finished_round opts t hdone))
  | closed hmain => rw [h.main] at hmain; cases hmain

lemma Back.deadlocked (h : Back s l) (hdone : l.done = false) : Deadlocked (round env ⟨advertiseRefs, false⟩ s l) := by
  refine ⟨1, { l with channels := 2 }, .shallow, ?_, ?_, ?_⟩
  · simp [round, hdone, h.firstRound, h.channels]
  · simp [round, hdone, h.firstRound, h.closed]
  · simp [round, hdone, h.firstRound, h.goroutines]

end Back

lemma not_live_of_goesOn {env : Env} {advertiseRefs : Bool} (h : GoesOn env advertiseRefs input) :
    ¬ Live env ⟨advertiseRefs, false⟩ input := by
  intro hlive
  obtain ⟨s, hforced, ⟨-, hnot⟩ | ⟨l, -, -, hnot⟩ | ⟨l, hback, hdone, -⟩⟩ := firstRound_cases env advertiseRefs input
  · exact hnot h
  · exact hnot h
  · exact hlive.1 _ (hforced.reflTransGen.tail (.top hback.main)) (hback.deadlocked hdone)

/-- Over a connection that is not stateless, the server ends on every run and never waits in vain, unless it must
go on to a second round. -/
theorem UploadPack_live_iff (env : Env) (advertiseRefs : Bool) (input : List Pkt) :
    Live env ⟨advertiseRefs, false⟩ input ↔ ¬ GoesOn env advertiseRefs input := by
  refine ⟨fun hlive hgoes => not_live_of_goesOn hgoes hlive, fun hgoes => ?_⟩
  obtain ⟨s, hforced, ⟨hfin, -⟩ | ⟨l, hback, hdone, -⟩ | ⟨l, -, -, h⟩⟩ := firstRound_cases env advertiseRefs input
  · exact live_of_inevitable (hforced.inevitable (.now hfin))
  · exact live_of_inevitable (hforced.inevitable (hback.inevitable hdone _))
  · exact absurd h hgoes

def emptyServer : Env where
  advertise := false
  closeReader _ := false
  objectsWithRef _ := some fun _ => none
  getShallowCommits _ _ := some ([], [])
  write _ _ := false
  objectsToUpload _ _ := some []
  encode _ := false
  writeFlush := false
  closeWriter := false

def haveLines : List Pkt :=
  [.line (textBytes "have 2222222222222222222222222222222222222222\n"), .flush, .line (textBytes "done\n")]

/-- A request for one object; then a message with one name, and another one that says that the client is done. -/
def twoRounds : List Pkt :=
  .line (textBytes "want 1111111111111111111111111111111111111111\n") :: .flush :: haveLines

theorem UploadPack_not_live : ¬ Live emptyServer ⟨false, false⟩ twoRounds := by
  refine not_live_of_goesOn ⟨⟨rfl, rfl, by decide +kernel⟩,
    { wants := [.fromHex (List.replicate 40 0x31)] }, haveLines, fun _ => none, ⟨?_, rfl, rfl⟩, rfl,
    ⟨[.fromHex (List.replicate 40 0x32)], false⟩, rfl, ⟨[.line (textBytes "done\n")], ?_⟩, rfl, rfl⟩
  · rfl
  · rfl

end GoGit.UploadPack
