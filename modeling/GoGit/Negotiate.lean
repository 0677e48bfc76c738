import GoGit.UploadRequest

namespace GoGit.Negotiate

structure ShallowUpdate where
  shallows : List ObjectID := []
  unshallows : List ObjectID := []
  deriving DecidableEq

inductive ACKStatus
  | plain
  | «continue»
  | common
  | ready
  deriving DecidableEq

structure ACK where
  hash : ObjectID
  status : ACKStatus
  deriving DecidableEq

structure UploadRequest extends Packp.UploadRequest where
  filter : Bytes := []
  deriving DecidableEq

inductive Message
  | uploadRequest (upreq : UploadRequest)
  | uploadHaves (haves : List ObjectID) (done : Bool)
  | flush
  | close

structure Connection (κ ε : Type) where
  capabilities : CapabilityList
  statelessRPC : Bool
  write : κ → Message → Except ε κ
  readShallowUpdate : κ → Except ε (ShallowUpdate × κ)
  readServerResponse : κ → Except ε (List ACK × κ)
  /-- Whether the goroutine that reads is done before the haves are written. -/
  readsFirst : κ → Bool

structure FetchRequest where
  wants : List ObjectID
  haves : List ObjectID
  depth : ℤ
  filter : Bytes := []
  includeTags : Bool := false
  progress : Bool := false

inductive Fault (ε : Type)
  | io (e : ε)
  | filterNotSupported
  | shallowNotSupported
  | noChange
  | capability (e : Capability.Fault)
  deriving DecidableEq

/-- `Set` of a capability without arguments, whose error is dropped. -/
def setIf (condition : Bool) (c : Capability) (l : CapabilityList) : CapabilityList :=
  if condition then (l.set c []).1 else l

def requestCapabilities (caps : CapabilityList) (agent : Bytes) (req : FetchRequest) : CapabilityList :=
  let multiAckDetailed := caps.supports Capability.MultiACKDetailed
  let sideband64k := req.progress && caps.supports Capability.Sideband64k
  let l := setIf multiAckDetailed Capability.MultiACKDetailed []
  let l := setIf (!multiAckDetailed && caps.supports Capability.MultiACK) Capability.MultiACK l
  let l := setIf sideband64k Capability.Sideband64k l
  let l := setIf (req.progress && !sideband64k && caps.supports Capability.Sideband) Capability.Sideband l
  let l := setIf (!req.progress && caps.supports Capability.NoProgress) Capability.NoProgress l
  let l := setIf (caps.supports Capability.OFSDelta) Capability.OFSDelta l
  let l := if caps.supports Capability.Agent then (l.set Capability.Agent [agent]).1 else l
  setIf (req.includeTags && caps.supports Capability.IncludeTag) Capability.IncludeTag l

def isSubset (needle haystack : List ObjectID) : Bool := needle.all (· ∈ haystack)

section Negotiation

variable {κ ε : Type} (conn : Connection κ ε)

def write (k : κ) (m : Message) : Except (Fault ε) κ := (conn.write k m).mapError .io

def uploadRequest (agent : Bytes) (shallow : Except ε (List ObjectID)) (req : FetchRequest) :
    Except (Fault ε) UploadRequest := do
  let upreq : UploadRequest := { capabilities := requestCapabilities conn.capabilities agent req }
  let upreq ←
    if req.filter = [] then .ok upreq
    else if conn.capabilities.supports Capability.Filter then
      match upreq.capabilities.set Capability.Filter [] with
      | (_, some e) => .error (.capability e)
      | (l, none) => .ok { upreq with capabilities := l, filter := req.filter }
    else .error .filterNotSupported
  let upreq := { upreq with wants := req.wants }
  if req.depth > 0 then
    if conn.capabilities.supports Capability.Shallow then do
      let shallows ← shallow.mapError .io
      .ok { upreq with depth := .commits req.depth, shallows }
    else .error .shallowNotSupported
  else .ok upreq

/-- `readShallows`. A pointer is nil or leads to a variable; the result is where it leads to in the end, with the
updates that have been read. A nil pointer is replaced by one that the caller does not see. -/
def readShallows (k : κ) (req : FetchRequest) (shallowInfo : Option (Option ShallowUpdate)) (firstRound : Bool) :
    Except (Fault ε) (Option (Option ShallowUpdate) × List ShallowUpdate × κ) :=
  if (firstRound || conn.statelessRPC) ∧ req.depth > 0 then do
    let (shupd, k) ← (conn.readShallowUpdate k).mapError .io
    match shallowInfo with
    | none => .ok (some (some shupd), [shupd], k)
    | some info => .ok (some info, [shupd], k)
  else .ok (shallowInfo, [], k)

structure State (κ : Type) where
  haves : List ObjectID
  inVein : ℕ := 0
  gotContinue : Bool := false
  firstRound : Bool := true
  shallowInfo : Option ShallowUpdate := none
  /-- The shallow updates that the server has sent. -/
  updates : List ShallowUpdate := []
  conn : κ

def maxInVein : ℕ := 256

/-- The haves are told and the shallow update is read, in either order on a full-duplex connection. -/
def tell (k : κ) (req : FetchRequest) (st : State κ) (haves : List ObjectID) (done : Bool) :
    Except (Fault ε) (Option (Option ShallowUpdate) × List ShallowUpdate × κ) :=
  if conn.statelessRPC then do
    let k ← write conn k (.uploadHaves haves done)
    let k ← write conn k .close
    readShallows conn k req (some st.shallowInfo) st.firstRound
  else if conn.readsFirst k then do
    let (shallowInfo, updates, k) ← readShallows conn k req (some st.shallowInfo) st.firstRound
    let k ← write conn k (.uploadHaves haves done)
    .ok (shallowInfo, updates, k)
  else do
    let k ← write conn k (.uploadHaves haves done)
    readShallows conn k req (some st.shallowInfo) st.firstRound

/-- The request is sent in the first round, and in every one to a server that keeps no state. -/
def sendRequest (upreq : UploadRequest) (st : State κ) : Except (Fault ε) κ :=
  if st.firstRound || conn.statelessRPC then write conn st.conn (.uploadRequest upreq) else .ok st.conn

def readResponse (k : κ) (haves : List ObjectID) (done : Bool) : Except (Fault ε) (List ACK × κ) :=
  if done || haves ≠ [] then (conn.readServerResponse k).mapError .io else .ok ([], k)

def round (req : FetchRequest) (upreq : UploadRequest) (st : State κ) (haves : List ObjectID) (done : Bool) :
    Except (Fault ε) (State κ) := do
  let k ← sendRequest conn upreq st
  let (shallowInfo, updates, k) ← tell conn k req st haves done
  let (acks, k) ← readResponse conn k haves done
  .ok { st with
    gotContinue := st.gotContinue || acks.any (·.status ≠ .plain)
    firstRound := false
    shallowInfo := shallowInfo.getD st.shallowInfo
    updates := st.updates ++ updates
    conn := k }

def stop (k : κ) : Except (Fault ε) (State κ) := do
  let k ← write conn k .flush
  let _ ← write conn k .close
  .error .noChange

/-- The haves of the next round, from the end of the list. -/
def State.told (st : State κ) : List ObjectID := st.haves.reverse.take 32

def State.next (st : State κ) : State κ :=
  { st with haves := st.haves.take (st.haves.length - 32), inVein := st.inVein + st.told.length }

def State.done (st : State κ) : Bool := st.haves.isEmpty || (st.gotContinue && maxInVein ≤ st.inVein)

lemma State.length_next {st : State κ} (h : ¬ st.next.done = true) : st.next.haves.length < st.haves.length := by
  have hne : st.next.haves ≠ [] := fun hnil => h (by simp [done, hnil])
  have hlen := List.length_pos_iff.mpr hne
  simp only [next, List.length_take] at hlen ⊢
  omega

/-- The loop over the rounds, which ends at the latest when there is nothing left to tell. -/
def rounds (req : FetchRequest) (upreq : UploadRequest) (st : State κ) : Except (Fault ε) (State κ) :=
  if isSubset req.wants st.told ∧ upreq.shallows = [] then stop conn st.conn
  else
    match round conn req upreq st.next st.told st.next.done with
    | .error e => .error e
    | .ok st' =>
      if st.next.done = true then .ok st' else rounds req upreq { st' with haves := st.next.haves }
termination_by st.haves.length
decreasing_by exact State.length_next ‹_›

def negotiate (req : FetchRequest) (upreq : UploadRequest) (k : κ) : Except (Fault ε) (State κ) :=
  if isSubset req.wants req.haves ∧ upreq.shallows = [] then stop conn k
  else rounds conn req upreq { haves := req.haves, conn := k }

def closeWriter (k : κ) : Except (Fault ε) κ := if conn.statelessRPC then .ok k else write conn k .close

structure Result (κ : Type) where
  shallowInfo : Option ShallowUpdate
  updates : List ShallowUpdate
  conn : κ

def NegotiatePack (agent : Bytes) (shallow : Except ε (List ObjectID)) (req : FetchRequest) (k : κ) :
    Except (Fault ε) (Result κ) := do
  let upreq ← uploadRequest conn agent shallow req
  let st ← negotiate conn req upreq k
  let k ← closeWriter conn st.conn
  .ok ⟨st.shallowInfo, st.updates, k⟩

variable {conn} {req : FetchRequest} {upreq : UploadRequest} {st st' : State κ} {k k' : κ}

variable {shallowInfo : Option (Option ShallowUpdate)} {updates : List ShallowUpdate}

lemma readShallows_ok {info : Option ShallowUpdate} {firstRound : Bool} (hdepth : 0 < req.depth)
    (h : readShallows conn k req (some info) firstRound = .ok (shallowInfo, updates, k')) :
    shallowInfo = some info ∧ (firstRound = true → updates ≠ []) := by
  rw [readShallows] at h
  split_ifs at h with hcond
  · obtain ⟨⟨shupd, next⟩, -, h⟩ := bind_eq_ok_iff.mp h
    cases h
    exact ⟨rfl, fun _ => by simp⟩
  · cases h
    refine ⟨rfl, fun hfirst => absurd ⟨by simp [hfirst], hdepth⟩ hcond⟩

variable {haves : List ObjectID} {done : Bool}

lemma tell_ok (hdepth : 0 < req.depth) (h : tell conn k req st haves done = .ok (shallowInfo, updates, k')) :
    shallowInfo = some st.shallowInfo ∧ (st.firstRound = true → updates ≠ []) := by
  rw [tell] at h
  split_ifs at h
  · obtain ⟨k₁, -, h⟩ := bind_eq_ok_iff.mp h
    obtain ⟨k₂, -, h⟩ := bind_eq_ok_iff.mp h
    exact readShallows_ok hdepth h
  · obtain ⟨⟨info, read, k₁⟩, hread, h⟩ := bind_eq_ok_iff.mp h
    obtain ⟨k₂, -, h⟩ := bind_eq_ok_iff.mp h
    cases h
    exact readShallows_ok hdepth hread
  · obtain ⟨k₁, -, h⟩ := bind_eq_ok_iff.mp h
    exact readShallows_ok hdepth h

structure Unset (st : State κ) : Prop where
  shallowInfo : st.shallowInfo = none
  updates : st.firstRound = false → st.updates ≠ []

lemma Unset.round (hst : Unset st) (hdepth : 0 < req.depth)
    (h : Negotiate.round conn req upreq st haves done = .ok st') : Unset st' ∧ st'.firstRound = false := by
  rw [Negotiate.round] at h
  obtain ⟨k₁, -, h⟩ := bind_eq_ok_iff.mp h
  obtain ⟨⟨info, read, k₂⟩, htell, h⟩ := bind_eq_ok_iff.mp h
  obtain ⟨⟨acks, k₃⟩, -, h⟩ := bind_eq_ok_iff.mp h
  obtain ⟨hinfo, hread⟩ := tell_ok hdepth htell
  cases h
  refine ⟨⟨by simp [hinfo, hst.shallowInfo], fun _ hnil => ?_⟩, rfl⟩
  obtain ⟨hupdates, hnone⟩ := List.append_eq_nil_iff.mp hnil
  cases hfirst : st.firstRound with
  | true => exact hread hfirst hnone
  | false => exact hst.updates hfirst hupdates

lemma stop_ne_ok : stop conn k ≠ .ok st := by
  intro h
  obtain ⟨k₁, -, h⟩ := bind_eq_ok_iff.mp h
  obtain ⟨k₂, -, h⟩ := bind_eq_ok_iff.mp h
  cases h

lemma Unset.rounds (hst : Unset st) (hdepth : 0 < req.depth) (h : Negotiate.rounds conn req upreq st = .ok st') :
    Unset st' ∧ st'.firstRound = false := by
  induction hlen : st.haves.length using Nat.strongRecOn generalizing st with
  | ind n ih =>
    rw [Negotiate.rounds] at h
    by_cases hstop : isSubset req.wants st.told = true ∧ upreq.shallows = []
    · rw [if_pos hstop] at h
      exact absurd h stop_ne_ok
    · rw [if_neg hstop] at h
      cases hround : Negotiate.round conn req upreq st.next st.told st.next.done with
      | error e =>
        rw [hround] at h
        cases h
      | ok st₁ =>
        have hnext : Unset st.next := ⟨hst.shallowInfo, hst.updates⟩
        obtain ⟨hst₁, hfirst⟩ := hnext.round hdepth hround
        simp only [hround] at h
        split_ifs at h with hdone
        · cases h
          exact ⟨hst₁, hfirst⟩
        · have hagain : Unset { st₁ with haves := st.next.haves } := ⟨hst₁.shallowInfo, hst₁.updates⟩
          exact ih _ (hlen ▸ State.length_next hdone) hagain h rfl

end Negotiation

/-- With a depth, a successful negotiation has read a shallow update, and does not return it. -/
theorem NegotiatePack_not_first {κ ε : Type} (conn : Connection κ ε) (agent : Bytes)
    (shallow : Except ε (List ObjectID)) (req : FetchRequest) (k : κ) (result : Result κ) (hdepth : 0 < req.depth)
    (h : NegotiatePack conn agent shallow req k = .ok result) :
    ∃ update, result.updates.head? = some update ∧ result.shallowInfo ≠ some update := by
  obtain ⟨upreq, -, h⟩ := bind_eq_ok_iff.mp h
  obtain ⟨st, hst, h⟩ := bind_eq_ok_iff.mp h
  obtain ⟨k₁, -, h⟩ := bind_eq_ok_iff.mp h
  cases h
  rw [negotiate] at hst
  split_ifs at hst with hstop
  · exact absurd hst stop_ne_ok
  · have hstart : Unset ({ haves := req.haves, conn := k } : State κ) := ⟨rfl, fun h => nomatch h⟩
    obtain ⟨hunset, hfirst⟩ := hstart.rounds hdepth hst
    obtain ⟨update, rest, hupdates⟩ := List.exists_cons_of_ne_nil (hunset.updates hfirst)
    exact ⟨update, by simp [hupdates], by simp [hunset.shallowInfo]⟩

/-- A server that makes every fetch shallow at one commit and acknowledges nothing. -/
def shallowServer (statelessRPC : Bool) (h : ObjectID) : Connection Unit Unit where
  capabilities := [(Capability.Shallow, [])]
  statelessRPC := statelessRPC
  write _ _ := .ok ()
  readShallowUpdate _ := .ok ({ shallows := [h] }, ())
  readServerResponse _ := .ok ([], ())
  readsFirst _ := true

def commit : ObjectID := .fromHex (textBytes "1111111111111111111111111111111111111111")

def shallowFetch : FetchRequest := { wants := [commit], haves := [], depth := 1 }

lemma NegotiatePack_shallowServer (statelessRPC : Bool) :
    NegotiatePack (shallowServer statelessRPC commit) [] (.ok []) shallowFetch () =
      .ok ⟨none, [{ shallows := [commit] }], ()⟩ := by
  have hupreq : uploadRequest (shallowServer statelessRPC commit) [] (.ok []) shallowFetch =
      .ok { wants := [commit], depth := .commits 1 } := by
    cases statelessRPC <;> decide +kernel
  have hrounds : negotiate (shallowServer statelessRPC commit) shallowFetch
      { wants := [commit], depth := .commits 1 } () =
        .ok { haves := [], firstRound := false, updates := [{ shallows := [commit] }], conn := () } := by
    rw [negotiate, if_neg (by decide), rounds, if_neg (by decide)]
    cases statelessRPC <;> rfl
  rw [NegotiatePack, hupreq]
  change (negotiate _ _ _ _ >>= _) = _
  rw [hrounds]
  cases statelessRPC <;> rfl

theorem NegotiatePack_not_first_stateless :
    ∃ update, [({ shallows := [commit] } : ShallowUpdate)].head? = some update ∧ none ≠ some update :=
  NegotiatePack_not_first (shallowServer true commit) [] (.ok []) shallowFetch () ⟨none, [{ shallows := [commit] }], ()⟩
    (by decide) (NegotiatePack_shallowServer true)

theorem NegotiatePack_returns_nil : NegotiatePack (shallowServer true commit) [] (.ok []) shallowFetch () =
        .ok ⟨none, [{ shallows := [commit] }], ()⟩ ∧
      NegotiatePack (shallowServer false commit) [] (.ok []) shallowFetch () =
        .ok ⟨none, [{ shallows := [commit] }], ()⟩ :=
  ⟨NegotiatePack_shallowServer true, NegotiatePack_shallowServer false⟩

end GoGit.Negotiate
