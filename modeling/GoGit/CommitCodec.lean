import GoGit.IndexDecode
import GoGit.Lines
import GoGit.ObjectStore
import GoGit.Trim

namespace GoGit

def trimByte (c : UInt8) (b : Bytes) : Bytes := (b.dropWhile (· = c)).rdropWhile (· = c)

def lastIndexByte (b : Bytes) (c : UInt8) : Option ℕ :=
  (b.reverse.idxOf? c).map (b.length - 1 - ·)

namespace Signature

/-- `timezone[0:3]` is the hour with its sign, the rest the minute. -/
def decodeTimeZone (s : Signature) (timezone : Bytes) : Signature :=
  match IndexFormat.parseInt 10 (timezone.take 3), IndexFormat.parseInt 10 (timezone.drop 3) with
  | .ok tzhours, .ok tzmins =>
    { s with zone := tzhours * 60 * 60 + (if tzhours < 0 then tzmins * -1 else tzmins) * 60 }
  | _, _ => s

def decodeTimeAndTimeZone (s : Signature) (b : Bytes) : Signature :=
  let space := b.idxOf 0x20
  match IndexFormat.parseInt 10 (b.take space) with
  | .error _ => s
  | .ok ts =>
    let s := { s with when := .unix ts 0, zone := 0 }
    let tzStart := space + 1
    if tzStart ≥ b.length ∨ tzStart + 5 > b.length then s
    else s.decodeTimeZone ((b.drop tzStart).take 5)

def decode (s : Signature) (b : Bytes) : Signature :=
  match lastIndexByte b 0x3c, lastIndexByte b 0x3e with
  | some opened, some closed =>
    if closed < opened then s
    else
      let s := { s with
        name := trimByte 0x20 (b.take opened), email := (b.take closed).drop (opened + 1) }
      if closed + 2 < b.length then s.decodeTimeAndTimeZone (b.drop (closed + 2)) else s
  | _, _ => s

def twoDigits (n : ℕ) : Bytes := List.replicate (2 - (formatInt n).length) 0x30 ++ formatInt n

def formatZone (zone : ℤ) : Bytes :=
  let minutes := zone.tdiv 60
  (if minutes < 0 then 0x2d else 0x2b) ::
    (twoDigits (minutes.natAbs / 60) ++ twoDigits (minutes.natAbs % 60))

def encodeTimeAndTimeZone (s : Signature) : Bytes :=
  let u := if s.when.sec < 0 then 0 else s.when.sec
  formatInt u ++ [0x20] ++ formatZone s.zone

def encode (s : Signature) : Bytes :=
  s.name ++ [0x20, 0x3c] ++ s.email ++ [0x3e, 0x20] ++ s.encodeTimeAndTimeZone

end Signature

def textLines (text : Bytes) : List Bytes :=
  (if text.getLast? = some 0x0a then text.dropLast else text).splitOn 0x0a

def continued (text : Bytes) : Bytes := [0x0a, 0x20].intercalate (textLines text)

namespace ExtraHeader

def format (h : ExtraHeader) : Bytes :=
  h.key ++ if h.value.length > 0 then [0x20] ++ continued h.value else []

end ExtraHeader

/-- `bytes.SplitN` at the first blank into at most two. -/
def splitBlank (line : Bytes) : Bytes × Option Bytes :=
  match line.span (· ≠ 0x20) with
  | (word, []) => (word, none)
  | (word, _ :: rest) => (word, some rest)

/-- The header that starts in a line, and whether it may go on in the next one. -/
def parseExtraHeader (line : Bytes) : ExtraHeader × Bool :=
  match splitBlank line with
  | (key, none) => (⟨key.rdropWhile (· = 0x0a), []⟩, false)
  | (key, some value) => (⟨key.rdropWhile (· = 0x0a), value⟩, true)

namespace Commit

def headertree : Bytes := [0x74, 0x72, 0x65, 0x65]

def headerparent : Bytes := [0x70, 0x61, 0x72, 0x65, 0x6e, 0x74]

def headerauthor : Bytes := [0x61, 0x75, 0x74, 0x68, 0x6f, 0x72]

def headercommitter : Bytes := [0x63, 0x6f, 0x6d, 0x6d, 0x69, 0x74, 0x74, 0x65, 0x72]

def headermergetag : Bytes := [0x6d, 0x65, 0x72, 0x67, 0x65, 0x74, 0x61, 0x67]

def headerencoding : Bytes := [0x65, 0x6e, 0x63, 0x6f, 0x64, 0x69, 0x6e, 0x67]

def headerpgp : Bytes := [0x67, 0x70, 0x67, 0x73, 0x69, 0x67]

def defaultUtf8CommitMessageEncoding : Bytes := [0x55, 0x54, 0x46, 0x2d, 0x38]

structure Decoder where
  commit : Commit
  message : Bool := false
  mergetag : Bool := false
  pgpsig : Bool := false
  extraheader : Option ExtraHeader := none
  msgbuf : Bytes := []

namespace Decoder

/-- A line with a header; `line` is `original` without the white space around it. -/
def header (d : Decoder) (original line : Bytes) : Decoder :=
  let c := d.commit
  let data := (splitBlank line).2.getD []
  let word := (splitBlank line).1
  if word = headertree then { d with commit := { c with treeHash := .fromHex data } }
  else if word = headerparent then
    { d with commit := { c with parentHashes := c.parentHashes ++ [.fromHex data] } }
  else if word = headerauthor then { d with commit := { c with author := c.author.decode data } }
  else if word = headercommitter then
    { d with commit := { c with committer := c.committer.decode data } }
  else if word = headermergetag then
    { d with commit := { c with mergeTag := c.mergeTag ++ data ++ [0x0a] }, mergetag := true }
  else if word = headerencoding then { d with commit := { c with encoding := data } }
  else if word = headerpgp then
    { d with commit := { c with pgpSignature := c.pgpSignature ++ data ++ [0x0a] }, pgpsig := true }
  else
    match parseExtraHeader original with
    | (h, true) => { d with extraheader := some h }
    | (h, false) => { d with commit := { c with extraHeaders := c.extraHeaders ++ [h] } }

/-- A line that continues nothing, and whether the test for the end of the text is left out. -/
def fresh (d : Decoder) (line : Bytes) : Decoder × Bool :=
  if d.message then ({ d with msgbuf := d.msgbuf ++ line }, false)
  else
    let trimmed := Trim.trimSpace line
    if trimmed = [] then ({ d with message := true }, true) else (d.header line trimmed, false)

/-- A line that starts with a blank goes on with the tag, signature or header before it. -/
def step (d : Decoder) (line : Bytes) : Decoder × Bool :=
  let blank := line.head? = some 0x20
  if d.mergetag ∧ blank then
    ({ d with commit := { d.commit with
        mergeTag := d.commit.mergeTag ++ line.dropWhile (· = 0x20) } }, true)
  else
    let d := { d with mergetag := false }
    if d.pgpsig ∧ blank then
      ({ d with commit := { d.commit with
          pgpSignature := d.commit.pgpSignature ++ line.dropWhile (· = 0x20) } }, true)
    else
      let d := { d with pgpsig := false }
      match d.extraheader with
      | none => d.fresh line
      | some h =>
        if blank then ({ d with extraheader := some { h with value := h.value ++ line.drop 1 } }, true)
        else
          let h := { h with value := h.value.rdropWhile (· = 0x0a) }
          fresh { d with
            commit := { d.commit with extraHeaders := d.commit.extraHeaders ++ [h] }
            extraheader := none } line

/-- The turns from the end of the text on: a turn that leaves the test for the end out is followed by
one with an empty line, of which the first may be taken for the line before the message. -/
def finish : ℕ → Decoder → Bytes → Decoder
  | 0, d, _ => d
  | n + 1, d, line =>
    match d.step line with
    | (d, true) => finish n d []
    | (d, false) => d

end Decoder

/-- `Decode` of an object with the type and the name into a new commit. -/
def decode (t : ObjectType) (h : ObjectID) (text : Bytes) : Except ObjectError Commit :=
  if t ≠ .commit then .error .unsupportedObject
  else
    let (lines, rest) := Lines.split 0x0a text
    let start : Decoder := { commit := { hash := h, encoding := defaultUtf8CommitMessageEncoding } }
    let d := (lines.foldl (fun d line => (d.step line).1) start).finish 3 rest
    .ok { d.commit with message := d.msgbuf }

def encode (c : Commit) (includeSig : Bool) : Bytes :=
  headertree ++ [0x20] ++ c.treeHash.string ++ [0x0a] ++
  c.parentHashes.flatMap (fun p => headerparent ++ [0x20] ++ p.string ++ [0x0a]) ++
  headerauthor ++ [0x20] ++ c.author.encode ++ [0x0a] ++
  headercommitter ++ [0x20] ++ c.committer.encode ++
  (if c.mergeTag ≠ [] then [0x0a] ++ headermergetag ++ [0x20] ++ continued c.mergeTag else []) ++
  (if c.encoding ≠ [] ∧ c.encoding ≠ defaultUtf8CommitMessageEncoding then
    [0x0a] ++ headerencoding ++ [0x20] ++ c.encoding else []) ++
  c.extraHeaders.flatMap (fun h => [0x0a] ++ h.format) ++
  (if c.pgpSignature ≠ [] ∧ includeSig then
    [0x0a] ++ headerpgp ++ [0x20] ++ continued c.pgpSignature else []) ++
  [0x0a, 0x0a] ++ c.message

end Commit

end GoGit
