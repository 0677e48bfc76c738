import GoGit.PktLine

/-! A muxer sends a pack and progress messages over one stream, each cut into packets whose first byte is the channel.
A demuxer gives the bytes of the pack to its reader and forwards the progress. -/
namespace GoGit.Sideband

inductive Kind
  | sideband
  | sideband64k
  deriving DecidableEq

def maxPackedSize : ℕ := 1000

def maxPackedSize64k : ℕ := 65520

def Kind.max : Kind → ℕ
  | .sideband => maxPackedSize
  | .sideband64k => maxPackedSize64k

abbrev Channel := UInt8

def packData : Channel := 1

def progressMessage : Channel := 2

def errorMessage : Channel := 3

def withPayload (ch : Channel) (payload : Bytes) : Bytes := ch :: payload

inductive Fault
  | pkt (cause : PktLine.Fault)
  | maxPackedExceeded
  | invalidPktline (l : ℕ) (content : Bytes)
  | unexpectedError (text : Bytes)
  | unknownChannel (content : Bytes)
  | endless
  deriving DecidableEq

def Fault.eof : Fault := .pkt (.io .eof)

structure Muxer where
  max : ℕ
  w : Bytes

def chLen : ℕ := 1

def newMuxer (t : Kind) (w : Bytes) : Muxer := ⟨t.max - chLen, w⟩

namespace Muxer

def doWrite (m : Muxer) (ch : Channel) (p : Bytes) : (ℕ × Option Fault) × Muxer :=
  let sz := if p.length > m.max then m.max else p.length
  match PktLine.write m.w (withPayload ch (p.take sz)) with
  | .error e => ((sz, some (.pkt e)), m)
  | .ok w => ((sz, none), { m with w })

def writeLoop (ch : Channel) (p : Bytes) : ℕ → ℕ → Muxer → (ℕ × Option Fault) × Muxer
  | 0, wrote, m => ((wrote, some .endless), m)
  | fuel + 1, wrote, m =>
    if wrote < p.length then
      match m.doWrite ch (p.drop wrote) with
      | ((n, some e), m) => ((wrote + n, some e), m)
      | ((n, none), m) => writeLoop ch p fuel (wrote + n) m
    else ((wrote, none), m)

def writeChannel (m : Muxer) (ch : Channel) (p : Bytes) : (ℕ × Option Fault) × Muxer :=
  m.writeLoop ch p (p.length + 1) 0

def write (m : Muxer) (p : Bytes) : (ℕ × Option Fault) × Muxer := m.writeChannel packData p

end Muxer

/-- `progress` is what was forwarded, if there is a writer for it; `buffer` is the shared buffer that
the packets are read into. -/
structure Demuxer where
  r : Bytes
  max : ℕ
  pending : Bytes := []
  progress : Option Bytes := none
  buffer : Bytes

def newDemuxer (t : Kind) (r buffer : Bytes) : Demuxer := { r, max := t.max, buffer }

namespace Demuxer

/-- One packet: pack data is returned, and progress is written on. -/
def nextPackData (d : Demuxer) : Except Fault Bytes × Demuxer :=
  if d.pending ≠ [] then (.ok d.pending, { d with pending := [] })
  else
    match PktLine.readLine d.r d.buffer with
    | (.error e, buffer, r) => (.error (.pkt e), { d with buffer, r })
    | (.ok (l, content), buffer, r) =>
      let d := { d with buffer, r }
      if l = 0 then (.error .eof, d)
      else if l > d.max then (.error .maxPackedExceeded, d)
      else
        match content with
        | [] => (.error (.invalidPktline l []), d)
        | ch :: payload =>
          if ch = packData then (.ok payload, d)
          else if ch = progressMessage then
            (.ok [], { d with progress := d.progress.map (· ++ payload) })
          else if ch = errorMessage then (.error (.unexpectedError payload), d)
          else (.error (.unknownChannel content), d)

/-- What is copied to a buffer of the length `wanted`. -/
def doRead (d : Demuxer) (wanted : ℕ) : (Bytes × Option Fault) × Demuxer :=
  match d.nextPackData with
  | (.error e, d) => (([], some e), d)
  | (.ok content, d) =>
    ((content.take wanted, none),
      if content.length > wanted then { d with pending := content.drop wanted } else d)

def readLoop : ℕ → ℕ → Demuxer → (Bytes × Option Fault) × Demuxer
  | 0, _, d => (([], some .endless), d)
  | fuel + 1, req, d =>
    if req = 0 then (([], none), d)
    else
      match d.doRead req with
      | ((b, some e), d) => ((b, some e), d)
      | ((b, none), d) =>
        let rest := readLoop fuel (req - b.length) d
        ((b ++ rest.1.1, rest.1.2), rest.2)

/-- Each turn of the loop but the first and the last takes a packet off the stream. -/
def read (d : Demuxer) (req : ℕ) : (Bytes × Option Fault) × Demuxer := readLoop (d.r.length + 2) req d

/-- Reads of the given sizes up to the first error, with the bytes that they give. -/
def readAll : List ℕ → Demuxer → (Bytes × Option Fault) × Demuxer
  | [], d => (([], none), d)
  | n :: sizes, d =>
    match d.read n with
    | ((b, some e), d) => ((b, some e), d)
    | ((b, none), d) =>
      let rest := readAll sizes d
      ((b ++ rest.1.1, rest.1.2), rest.2)

end Demuxer

inductive Message
  | data (p : Bytes)
  | progress (p : Bytes)

namespace Message

def channel : Message → Channel
  | data _ => packData
  | progress _ => progressMessage

def payload : Message → Bytes
  | data p => p
  | progress p => p

def withPayload : Message → Bytes → Message
  | data _, p => data p
  | progress _, p => progress p

def packet (msg : Message) : Bytes :=
  PktLine.asciiHex16 (msg.payload.length + 1 + PktLine.lenSize) ++
    Sideband.withPayload msg.channel msg.payload

@[simp] lemma channel_withPayload (msg : Message) (p : Bytes) :
    (msg.withPayload p).channel = msg.channel := by cases msg <;> rfl

@[simp] lemma payload_withPayload (msg : Message) (p : Bytes) : (msg.withPayload p).payload = p := by
  cases msg <;> rfl

end Message

def dataOf : List Message → Bytes
  | [] => []
  | .data p :: msgs => p ++ dataOf msgs
  | .progress _ :: msgs => dataOf msgs

def progressOf : List Message → Bytes
  | [] => []
  | .data _ :: msgs => progressOf msgs
  | .progress p :: msgs => p ++ progressOf msgs

def Muxer.sendAll : List Message → Muxer → Except Fault Muxer
  | [], m => .ok m
  | msg :: msgs, m =>
    match m.writeChannel msg.channel msg.payload with
    | ((_, some e), _) => .error e
    | ((_, none), m) => sendAll msgs m

/-- No write fails, and whatever sizes are read, the demuxer gives the bytes of the pack up to the
flush packet and then the end of the file, by which it has forwarded the progress. -/
def Delivers (t : Kind) (msgs : List Message) : Prop :=
  ∃ m, (newMuxer t []).sendAll msgs = .ok m ∧ ∀ (rest buffer : Bytes) (sizes : List ℕ), ∃ d forwarded,
    Demuxer.readAll sizes
        { newDemuxer t (PktLine.writeFlush m.w ++ rest) buffer with progress := some [] } =
      (((dataOf msgs).take sizes.sum,
        if (dataOf msgs).length < sizes.sum then some .eof else none), d) ∧
    d.progress = some forwarded ∧ forwarded <+: progressOf msgs ∧
    ((dataOf msgs).length < sizes.sum → forwarded = progressOf msgs ∧ d.r = rest)

end GoGit.Sideband
