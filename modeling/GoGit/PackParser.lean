import GoGit.DeltaWriter
import GoGit.PackScanner

/-! `Parser.Parse` without a storage, over a source that can or cannot be read again. Objects in the cache are shared
by pointer; a pointer is an index into `heap`. -/
namespace GoGit.Pack

inductive Outcome (α : Type)
  | ok (a : α)
  | fail (e : PackError)
  | panic
  deriving DecidableEq

inductive Event
  | header (count : ℕ)
  | objectHeader (type : ObjectType) (size : ℤ) (offset : ℕ)
  | objectContent (hash : ObjectID) (offset : ℕ) (crc32 : UInt32)
  | footer (checksum : ObjectID)
  deriving DecidableEq

/-- The notifications so far, each with whether every observer accepted it. -/
abbrev History := List (Event × Bool)

abbrev Observer := History → Event → Option PackError

structure ParserCache where
  heap : List ObjectHeader := []
  oiByHash : ObjectID → Option ℕ := fun _ => none
  oiByOffset : ℤ → Option ℕ := fun _ => none

def ParserCache.add (c : ParserCache) (oh : ObjectHeader) : ParserCache :=
  ⟨c.heap ++ [oh], Function.update c.oiByHash oh.hash (some c.heap.length),
    Function.update c.oiByOffset oh.offset (some c.heap.length)⟩

structure Parser where
  scanner : Scanner := {}
  cache : ParserCache := {}
  history : History := []
  checksum : ObjectID := .zeroHash

section

variable (observers : List Observer)

def forEachObserver (h : History) (ev : Event) : History × Option PackError :=
  let err := observers.findSome? fun o => o h ev
  (h ++ [(ev, err.isNone)], err)

/-- The two notifications for an object; the second only if the first is accepted. -/
def reportObject (h : History) (oh : ObjectHeader) : History × Option PackError :=
  match forEachObserver observers h (.objectHeader oh.type oh.size oh.offset) with
  | (h, some e) => (h, some e)
  | (h, none) => forEachObserver observers h (.objectContent oh.hash oh.offset oh.crc32)

def storeOrCache (p : Parser) (oh : ObjectHeader) : Parser × Option PackError :=
  let (h, err) := reportObject observers p.history oh
  ({ p with cache := p.cache.add oh, history := h }, err)

variable (env : Env) (seekable : Bool) (data : Bytes)

/-- The scanning loop, with the deltas set aside by kind. Neither the error of a notification
nor the one that ended the scan is looked at. -/
def parseLoop : ℕ → Parser → List ObjectHeader → List ObjectHeader → Parser × List ObjectHeader × List ObjectHeader
  | 0, p, pendingDeltas, pendingDeltaREFs => (p, pendingDeltas, pendingDeltaREFs)
  | fuel + 1, p, pendingDeltas, pendingDeltaREFs =>
    match p.scanner.Scan env seekable data with
    | (r, false) => ({ p with scanner := r }, pendingDeltas, pendingDeltaREFs)
    | (r, true) =>
      match r.packData with
      | .empty => parseLoop fuel { p with scanner := r } pendingDeltas pendingDeltaREFs
      | .header _ qty =>
        let h := (forEachObserver observers p.history (.header qty)).1
        parseLoop fuel { p with scanner := r, cache := {}, history := h } pendingDeltas
          pendingDeltaREFs
      | .object oh =>
        if oh.type = .ofsDelta then
          parseLoop fuel { p with scanner := r } (pendingDeltas ++ [oh]) pendingDeltaREFs
        else if oh.type = .refDelta then
          parseLoop fuel { p with scanner := r } pendingDeltas (pendingDeltaREFs ++ [oh])
        else
          parseLoop fuel (storeOrCache observers { p with scanner := r } oh).1 pendingDeltas
            pendingDeltaREFs
      | .footer checksum =>
        parseLoop fuel { p with scanner := r, checksum := checksum } pendingDeltas pendingDeltaREFs

/-- `inflateContent`: the content of the entry that starts there. -/
def inflateContent (contentOffset : ℕ) : Except PackError Bytes :=
  (env.inflate (data.drop contentOffset)).map Prod.fst

/-- The contents of a parent: the buffer if it holds something, else read again. -/
def parentContents (parent : ObjectHeader) : Outcome Bytes :=
  if parent.content.getD [] ≠ [] then .ok (parent.content.getD [])
  else if parent.externalRef = false ∧ parent.contentOffset = 0 then .fail .objectNotFound
  else if seekable = false then .fail .objectNotFound
  -- `Grow` panics on a negative count
  else if parent.size < 0 then .panic
  else match inflateContent env data parent.contentOffset with
    | .error _ => .fail .referenceDeltaNotFound
    | .ok content => .ok content

/-- `parentReader`: what was read again stays in the parent's buffer. -/
def parentReader (c : ParserCache) (i : ℕ) : Outcome (ObjectHeader × Bytes × ParserCache) :=
  match c.heap[i]? with
  | none => .fail .objectNotFound
  | some parent =>
    match parentContents env seekable data parent with
    | .fail e => .fail e
    | .panic => .panic
    | .ok content =>
      .ok (parent, content, { c with heap := c.heap.set i { parent with content := some content } })

/-- `applyPatchBaseHeader` on contents already read: the patched object. -/
def patchHeader (ota parent : ObjectHeader) (contents delta : Bytes) : Outcome ObjectHeader :=
  let typ := if ota.hash = .zeroHash then parent.type else ota.type
  match Delta.patchDeltaWriter env.sha1 .buffer contents delta typ none with
  | none => .panic
  | some r =>
    match r.err with
    | some e => .fail e
    | none =>
      if ota.hash = .zeroHash then
        .ok { ota with content := some r.written, type := typ, size := int64 r.size, hash := r.hash }
      else .ok { ota with content := some r.written }

/-- The delta data of a pending entry: its buffer, else read again. -/
def deltaData (oh : ObjectHeader) : Except PackError Bytes :=
  if oh.content.getD [] ≠ [] then .ok (oh.content.getD [])
  else if seekable then
    (inflateContent env data oh.contentOffset).mapError
      (.wrap ("inflating content at offset " ++ toString oh.contentOffset))
  else .error (.wrap "can't ensure content" .objectNotFound)

def ObjectHeader.complete (oh : ObjectHeader) : Bool :=
  oh.content.isSome ∧ ((oh.content.getD []).length : ℤ) = oh.size ∧ oh.hash ≠ .zeroHash

/-- Applies the delta to its parent unless the content is there. -/
def ensureContent (c : ParserCache) (oh : ObjectHeader) (parent : ℕ) :
    Outcome (ObjectHeader × ParserCache) :=
  if oh.complete then .ok (oh, c)
  else match deltaData env seekable data oh with
    | .error e => .fail e
    | .ok delta =>
      match parentReader env seekable data c parent with
      | .fail e => .fail (.wrap "apply delta patch" e)
      | .panic => .panic
      | .ok (pa, contents, c) =>
        match patchHeader env oh pa contents delta with
        | .fail e => .fail (.wrap "apply delta patch" e)
        | .panic => .panic
        | .ok oh => .ok (oh, c)

def placeholder (reference : ObjectID) : ObjectHeader :=
  { type := .any, hash := reference, diskType := .any, externalRef := true }

/-- The parent of a delta, and the cache with the reference resolved. -/
def findParent (c : ParserCache) (oh : ObjectHeader) : Outcome (ℕ × ParserCache) :=
  match oh.type with
  | .ofsDelta =>
    match c.oiByOffset oh.offsetReference with
    | none => .fail .objectNotFound
    | some i => .ok (i, c)
  | .refDelta =>
    match c.oiByHash oh.reference with
    | none =>
      .ok (c.heap.length, { c with
        heap := c.heap ++ [placeholder oh.reference]
        oiByHash := Function.update c.oiByHash oh.reference (some c.heap.length) })
    | some i => .ok (i, { c with oiByHash := Function.update c.oiByHash oh.reference (some i) })
  | _ => .fail (.other ("unsupported delta type: " ++ oh.type.string))

def processDelta (p : Parser) (oh : ObjectHeader) : Outcome Parser :=
  match findParent p.cache oh with
  | .fail e => .fail e
  | .panic => .panic
  | .ok (parent, c) =>
    match ensureContent env seekable data c oh parent with
    | .fail e => .fail e
    | .panic => .panic
    | .ok (oh, c) =>
      match storeOrCache observers { p with cache := c } oh with
      | (_, some e) => .fail e
      | (p, none) => .ok p

def processDeltas (label : String) : List ObjectHeader → Parser → Outcome Parser
  | [], p => .ok p
  | oh :: rest, p =>
    match processDelta observers env seekable data p oh with
    | .fail e => .fail (.wrap (label ++ toString oh.offset) e)
    | .panic => .panic
    | .ok p => processDeltas label rest p

/-- The checksum that is returned with a nil error, and the parser as it is left. -/
def Parse : Outcome (ObjectID × Parser) :=
  let (p, pendingDeltas, pendingDeltaREFs) :=
    parseLoop observers env seekable data (data.length + 3) {} [] []
  if p.scanner.objects = 0 then .fail .emptyPackfile
  else match processDeltas observers env seekable data "processing ref-delta at offset "
      pendingDeltaREFs p with
    | .fail e => .fail e
    | .panic => .panic
    | .ok p =>
      match processDeltas observers env seekable data "processing ofs-delta at offset "
          pendingDeltas p with
      | .fail e => .fail e
      | .panic => .panic
      | .ok p =>
        match forEachObserver observers p.history (.footer p.checksum) with
        | (_, some e) => .fail e
        | (h, none) => .ok (p.checksum, { p with history := h })

end

end GoGit.Pack
