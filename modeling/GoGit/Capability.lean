import GoGit.Object
import GoGit.Trim

namespace GoGit

def cut (b : UInt8) (text : Bytes) : Bytes × Option Bytes :=
  match text.span (· ≠ b) with
  | (before, []) => (before, none)
  | (before, _ :: after) => (before, some after)

abbrev Capability := Bytes

namespace Capability

def MultiACK : Capability := textBytes "multi_ack"

def MultiACKDetailed : Capability := textBytes "multi_ack_detailed"

def NoDone : Capability := textBytes "no-done"

def ThinPack : Capability := textBytes "thin-pack"

def NoThin : Capability := textBytes "no-thin"

def Sideband : Capability := textBytes "side-band"

def Sideband64k : Capability := textBytes "side-band-64k"

def OFSDelta : Capability := textBytes "ofs-delta"

def Agent : Capability := textBytes "agent"

def Shallow : Capability := textBytes "shallow"

def DeepenSince : Capability := textBytes "deepen-since"

def DeepenNot : Capability := textBytes "deepen-not"

def DeepenRelative : Capability := textBytes "deepen-relative"

def NoProgress : Capability := textBytes "no-progress"

def IncludeTag : Capability := textBytes "include-tag"

def ReportStatus : Capability := textBytes "report-status"

def DeleteRefs : Capability := textBytes "delete-refs"

def Quiet : Capability := textBytes "quiet"

def Atomic : Capability := textBytes "atomic"

def PushOptions : Capability := textBytes "push-options"

def AllowTipSHA1InWant : Capability := textBytes "allow-tip-sha1-in-want"

def AllowReachableSHA1InWant : Capability := textBytes "allow-reachable-sha1-in-want"

def PushCert : Capability := textBytes "push-cert"

def SymRef : Capability := textBytes "symref"

def ObjectFormat : Capability := textBytes "object-format"

def Filter : Capability := textBytes "filter"

def known : List Capability :=
  [MultiACK, MultiACKDetailed, NoDone, ThinPack, Sideband, Sideband64k, OFSDelta, Agent, Shallow, DeepenSince,
    DeepenNot, DeepenRelative, NoProgress, IncludeTag, ReportStatus, DeleteRefs, Quiet, Atomic, PushOptions,
    AllowTipSHA1InWant, AllowReachableSHA1InWant, PushCert, SymRef, ObjectFormat, Filter]

def requiresArgument : List Capability := [Agent, PushCert, SymRef, ObjectFormat]

def multipleArgument : List Capability := [SymRef]

inductive Fault
  | argumentsRequired
  | arguments
  | emptyArgument
  | multipleArguments
  deriving DecidableEq

def validateNoEmptyArgs (values : List Bytes) : Option Fault :=
  if [] ∈ values then some .emptyArgument else none

def validate (c : Capability) (values : List Bytes) : Option Fault :=
  if c ∉ known then validateNoEmptyArgs values
  else if c ∈ requiresArgument ∧ values.length = 0 then some .argumentsRequired
  else if c ∉ requiresArgument ∧ values.length ≠ 0 then some .arguments
  else if c ∉ multipleArgument ∧ values.length > 1 then some .multipleArguments
  else validateNoEmptyArgs values

end Capability

/-- Capabilities with their values, in the order in which they were added. -/
abbrev CapabilityList := List (Capability × List Bytes)

namespace CapabilityList

def supports (l : CapabilityList) (c : Capability) : Bool := l.any (·.1 = c)

def get (l : CapabilityList) (c : Capability) : List Bytes := (l.lookup c).getD []

def put (l : CapabilityList) (c : Capability) (values : List Bytes) : CapabilityList :=
  l.map fun e => if e.1 = c then (c, values) else e

/-- The list, and the error: a capability without its argument may stay behind. -/
def add (l : CapabilityList) (c : Capability) (values : List Bytes) : CapabilityList × Option Capability.Fault :=
  match Capability.validate c values with
  | some e => (l, some e)
  | none =>
    let l := if l.supports c then l else l ++ [(c, [])]
    if values.length = 0 then (l, none)
    else if c ∈ Capability.known ∧ c ∉ Capability.multipleArgument ∧ 0 < (l.get c).length then
      (l, some .multipleArguments)
    else (l.put c (l.get c ++ values), none)

def set (l : CapabilityList) (c : Capability) (values : List Bytes) : CapabilityList × Option Capability.Fault :=
  (if l.supports c then l.put c [] else l).add c values

def addWord (l : CapabilityList) (data : Bytes) : CapabilityList × Option Capability.Fault :=
  match cut 0x3d data with
  | (c, none) => l.add c []
  | (c, some value) => l.add c [value]

def addWords (l : CapabilityList) : List Bytes → CapabilityList × Option Capability.Fault
  | [] => (l, none)
  | data :: words =>
    match l.addWord data with
    | (l, some e) => (l, some e)
    | (l, none) => addWords l words

def decode (l : CapabilityList) (raw : Bytes) : CapabilityList × Option Capability.Fault :=
  let raw := Trim.trimSpace raw
  if raw.length = 0 then (l, none) else l.addWords (raw.splitOn 0x20)

end CapabilityList

end GoGit
