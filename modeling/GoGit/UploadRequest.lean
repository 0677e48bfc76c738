import GoGit.Capability
import GoGit.IndexDecode
import GoGit.PktLine

namespace GoGit

/-- A packet of the client, as it is read: a flush packet, another one that is no data, a line, or one that
cannot be read. -/
inductive Pkt
  | flush
  | special
  | line (text : Bytes)
  | broken
  deriving DecidableEq

/-- `ReadLine` of a packet. A line that starts with `ERR ` is read as an error. -/
def Pkt.readLine : Pkt → Option Bytes
  | .flush | .special => some []
  | .line text => if PktLine.errPrefix <+: text then none else some text
  | .broken => none

/-- `FromHex`, which tells whether there are digits only. -/
def ObjectID.fromHex? (digits : Bytes) : Option ObjectID := (Hex.decode digits).map fun _ => .fromHex digits

namespace Packp

def hashSize : ℕ := 40

def want : Bytes := textBytes "want "

def shallow : Bytes := textBytes "shallow "

def deepen : Bytes := textBytes "deepen"

def deepenCommits : Bytes := textBytes "deepen "

def deepenSince : Bytes := textBytes "deepen-since "

def deepenReference : Bytes := textBytes "deepen-not "

def trimEol (line : Bytes) : Bytes := if [0x0a] <:+ line then line.dropLast else line

inductive Depth
  | commits (n : ℤ)
  | since (t : Time)
  | reference (name : Bytes)
  deriving DecidableEq

def Depth.isZero : Depth → Bool
  | .commits n => n = 0
  | .since t => t.isZero
  | .reference name => name = []

structure UploadRequest where
  capabilities : CapabilityList := []
  wants : List ObjectID := []
  shallows : List ObjectID := []
  depth : Depth := .commits 0
  deriving DecidableEq

inductive Unexpected
  | eof
  | missingWant
  | invalidHash (text : Bytes)
  | invalidCapabilities (e : Capability.Fault)
  | wantExpected
  | shallowExpected
  | deepenSpecification
  deriving DecidableEq

inductive DecodeError
  | unexpectedData (nLine : ℕ) (cause : Unexpected) (data : Bytes)
  | read
  | malformedHash (line : Bytes)
  | number (line : Bytes)
  | negativeDepth
  | flushExpected (line : Bytes)
  deriving DecidableEq

structure UlReqDecoder where
  line : Bytes := []
  nLine : ℕ := 0
  err : Option DecodeError := none
  data : UploadRequest := {}

namespace UlReqDecoder

def error (d : UlReqDecoder) (cause : Unexpected) : UlReqDecoder :=
  { d with err := some (.unexpectedData d.nLine cause d.line) }

def atEOF (d : UlReqDecoder) : UlReqDecoder := { d with nLine := d.nLine + 1 }.error .eof

/-- `nextLine`, and whether the line could be read. -/
def nextLine (d : UlReqDecoder) (p : Pkt) : UlReqDecoder × Bool :=
  match p.readLine with
  | none => ({ d with nLine := d.nLine + 1, err := some .read }, false)
  | some text => ({ d with nLine := d.nLine + 1, line := trimEol text }, true)

def trimPrefix (d : UlReqDecoder) (word : Bytes) : UlReqDecoder := { d with line := d.line.drop word.length }

def readHash (d : UlReqDecoder) : UlReqDecoder × Option ObjectID :=
  if d.line.length < hashSize then ({ d with err := some (.malformedHash d.line) }, none)
  else
    match ObjectID.fromHex? (d.line.take hashSize) with
    | none => (d.error (.invalidHash (d.line.take hashSize)), none)
    | some h => ({ d with line := d.line.drop hashSize }, some h)

def addWant (d : UlReqDecoder) (h : ObjectID) : UlReqDecoder :=
  { d with data := { d.data with wants := d.data.wants ++ [h] } }

def addShallow (d : UlReqDecoder) (h : ObjectID) : UlReqDecoder :=
  { d with data := { d.data with shallows := d.data.shallows ++ [h] } }

def setDepth (d : UlReqDecoder) (depth : Depth) : UlReqDecoder := { d with data := { d.data with depth := depth } }

def decodeFlush (d : UlReqDecoder) : List Pkt → UlReqDecoder × List Pkt
  | [] => (d.atEOF, [])
  | p :: rest =>
    match d.nextLine p with
    | (d, false) => (d, rest)
    | (d, true) => if d.line.length ≠ 0 then ({ d with err := some (.flushExpected d.line) }, rest) else (d, rest)

/-- An error of before is forgotten when the number can be read. -/
def decodeDeepenCommits (d : UlReqDecoder) (input : List Pkt) : UlReqDecoder × List Pkt :=
  let d := d.trimPrefix deepenCommits
  match IndexFormat.parseInt 10 d.line with
  | .error _ => ({ d with err := some (.number d.line) }, input)
  | .ok n =>
    if n < 0 then ({ d with err := some .negativeDepth }, input)
    else ({ d with err := none }.setDepth (.commits n)).decodeFlush input

def decodeDeepenSince (d : UlReqDecoder) (input : List Pkt) : UlReqDecoder × List Pkt :=
  let d := d.trimPrefix deepenSince
  match IndexFormat.parseInt 10 d.line with
  | .error _ => ({ d with err := some (.number d.line) }, input)
  | .ok secs => ({ d with err := none }.setDepth (.since (.unix secs 0))).decodeFlush input

def decodeDeepenReference (d : UlReqDecoder) (input : List Pkt) : UlReqDecoder × List Pkt :=
  let d := d.trimPrefix deepenReference
  (d.setDepth (.reference d.line)).decodeFlush input

def decodeDeepen (d : UlReqDecoder) (input : List Pkt) : UlReqDecoder × List Pkt :=
  if deepenCommits <+: d.line then d.decodeDeepenCommits input
  else if deepenSince <+: d.line then d.decodeDeepenSince input
  else if deepenReference <+: d.line then d.decodeDeepenReference input
  else if d.line.length = 0 then (d, input)
  else (d.error .deepenSpecification, input)

def decodeShallow (d : UlReqDecoder) (input : List Pkt) : UlReqDecoder × List Pkt :=
  if deepen <+: d.line then d.decodeDeepen input
  else if d.line.length = 0 then (d, input)
  else if ¬ shallow <+: d.line then (d.error .shallowExpected, input)
  else
    match (d.trimPrefix shallow).readHash with
    | (d, none) => (d, input)
    | (d, some h) =>
      match input with
      | [] => ((d.addShallow h).atEOF, [])
      | p :: rest =>
        match (d.addShallow h).nextLine p with
        | (d, false) => (d, rest)
        | (d, true) => decodeShallow d rest

def decodeOtherWants (d : UlReqDecoder) : List Pkt → UlReqDecoder × List Pkt
  | [] => (d.atEOF, [])
  | p :: rest =>
    match d.nextLine p with
    | (d, false) => (d, rest)
    | (d, true) =>
      if shallow <+: d.line then d.decodeShallow rest
      else if deepen <+: d.line then d.decodeDeepen rest
      else if d.line.length = 0 then (d, rest)
      else if ¬ want <+: d.line then (d.error .wantExpected, rest)
      else
        match (d.trimPrefix want).readHash with
        | (d, none) => (d, rest)
        | (d, some h) => decodeOtherWants (d.addWant h) rest

/-- The decoder goes on when the capabilities are not valid. -/
def decodeCaps (d : UlReqDecoder) : UlReqDecoder :=
  let line := if [0x20] <+: d.line then d.line.drop 1 else d.line
  let (capabilities, err) := d.data.capabilities.decode line
  let d := { d with line := line, data := { d.data with capabilities := capabilities } }
  match err with
  | none => d
  | some e => d.error (.invalidCapabilities e)

/-- Only the first want has capabilities. -/
def decodeFirstWant (d : UlReqDecoder) : List Pkt → UlReqDecoder × List Pkt
  | [] => (d.atEOF, [])
  | p :: rest =>
    match d.nextLine p with
    | (d, false) => (d, rest)
    | (d, true) =>
      if ¬ want <+: d.line then (d.error .missingWant, rest)
      else
        match (d.trimPrefix want).readHash with
        | (d, none) => (d, rest)
        | (d, some h) => (d.addWant h).decodeCaps.decodeOtherWants rest

end UlReqDecoder

/-- `UploadRequest.Decode` into a new request, with what is left of the input. -/
def UploadRequest.decode (input : List Pkt) : Except DecodeError (UploadRequest × List Pkt) :=
  match UlReqDecoder.decodeFirstWant {} input with
  | (d, rest) =>
    match d.err with
    | some e => .error e
    | none => .ok (d.data, rest)

end Packp

end GoGit
