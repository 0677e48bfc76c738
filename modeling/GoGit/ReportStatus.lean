import GoGit.Capability
import GoGit.ReceivePack

namespace GoGit.Push

open ReceivePack (Command UpdateError reference_apply command)

structure Input (ε : Type) where
  /-- Whether the packet ahead is a flush packet. -/
  peek : Except ε Bool
  commands : Except ε (List Command)
  pushOptions : Option ε := none
  unpack : Option ε := none
  closeReader : Option ε := none
  sendReport : Option ε := none
  flush : Option ε := none
  closeWriter : Option ε := none

inductive PushError (ε : Type)
  | io (e : ε)
  | update (e : UpdateError)

section Push

variable {σ ε : Type} (S : ReferenceStorer σ)

/-- One round of `updateReferences`: the storage, and the status that is set. -/
def updateReference (s : σ) (c : Command) : σ × Option (ReferenceName × Option UpdateError) :=
  if c.goesOn (S.reference s c.name).isSome then (ReceivePack.apply S s c, some (c.name, none))
  else if c.action = .invalid then (s, none)
  else (s, some (c.name, some .updateReference))

def updateReferences (s : σ) : List Command → σ × List (ReferenceName × Option UpdateError)
  | [] => (s, [])
  | c :: commands =>
    let (s, status) := updateReference S s c
    let (s, statuses) := updateReferences s commands
    (s, status.toList ++ statuses)

def firstErr (statuses : List (ReferenceName × Option UpdateError)) : Option UpdateError :=
  statuses.findSome? Prod.snd

variable (input : Input ε) (caps : CapabilityList)

def useSideband : Bool :=
  !caps.supports Capability.NoProgress && (caps.supports Capability.Sideband64k || caps.supports Capability.Sideband)

/-- The error of the pack, which is only read if a command needs one. -/
def Input.unpackErr (commands : List Command) : Option ε :=
  if commands.any (·.action ≠ .delete) then input.unpack else none

def Input.optionsErr : Option ε :=
  if caps.supports Capability.PushOptions then input.pushOptions else none

/-- `ReceivePack` behind the advertisement of the references: the storage, and the error. -/
def ReceivePack (advertiseRefs : Bool) (input : Input ε) (caps : CapabilityList) (s : σ) : σ × Option (PushError ε) :=
  if advertiseRefs then (s, none)
  else
    match input.peek with
    | .error e => (s, some (.io e))
    | .ok true => (s, none)
    | .ok false =>
      match input.commands with
      | .error e => (s, some (.io e))
      | .ok commands =>
        match input.optionsErr caps with
        | some e => (s, some (.io e))
        | none =>
          match input.closeReader with
          | some e => (s, some (.io e))
          | none =>
            if ¬ caps.supports Capability.ReportStatus then (s, (input.unpackErr commands).map .io)
            else
              match input.unpackErr commands with
              | some _ => (s, input.sendReport.map .io)
              | none =>
                let (s, statuses) := updateReferences S s commands
                match input.sendReport.or (if useSideband caps then input.flush else none) with
                | some e => (s, some (.io e))
                | none =>
                  match firstErr statuses with
                  | some e => (s, some (.update e))
                  | none => (s, input.closeWriter.map .io)

def Input.Complete (commands : List Command) : Prop :=
  input.peek = .ok false ∧ input.commands = .ok commands ∧ input.optionsErr caps = none ∧ input.closeReader = none

def change (v : Option Reference) (c : Command) : Option Reference :=
  if c.goesOn v.isSome then if c.action = .delete then none else some ⟨c.name, .hash c.new⟩ else v

/-- The commands for each reference, taken in order, lead back to what it was. -/
def LeadsBack (s : σ) (commands : List Command) : Prop :=
  ∀ n, (commands.filter (·.name = n)).foldl change (S.reference s n) = S.reference s n

def silent : CapabilityList := caps.filter (·.1 ≠ Capability.ReportStatus)

def reporting : CapabilityList := silent caps ++ [(Capability.ReportStatus, [])]

variable {S} {s : σ} {input : Input ε} {caps : CapabilityList} {commands : List Command}

lemma supports_silent : (silent caps).supports Capability.ReportStatus = false := by
  simp [silent, CapabilityList.supports]

lemma supports_reporting : (reporting caps).supports Capability.ReportStatus = true := by
  simp [reporting, CapabilityList.supports]

lemma supports_reporting_of_ne {c : Capability} (hc : c ≠ Capability.ReportStatus) :
    (reporting caps).supports c = (silent caps).supports c := by
  simp [reporting, CapabilityList.supports, hc.symm]

lemma Input.complete_reporting : input.Complete (reporting caps) commands ↔ input.Complete (silent caps) commands := by
  have hne : Capability.PushOptions ≠ Capability.ReportStatus := by decide +kernel
  rw [Complete, Complete, optionsErr, optionsErr, supports_reporting_of_ne hne]

lemma reference_updateReference (s : σ) (c : Command) (n : ReferenceName) : S.reference (updateReference S s c).1 n =
      if c.name = n then change (S.reference s n) c else S.reference s n := by
  rw [updateReference, change]
  by_cases hgo : c.goesOn (S.reference s c.name).isSome = true
  · rw [if_pos hgo, reference_apply, ReceivePack.View.apply, Function.update_apply]
    by_cases hname : c.name = n
    · subst hname
      rw [if_pos rfl, if_pos rfl, if_pos hgo]
    · rw [if_neg (Ne.symm hname), if_neg hname]
  · rw [if_neg hgo]
    by_cases hname : c.name = n
    · subst hname
      rw [if_pos rfl, if_neg hgo]
      split_ifs <;> rfl
    · rw [if_neg hname]
      split_ifs <;> rfl

lemma reference_updateReferences (s : σ) (commands : List Command) (n : ReferenceName) :
    S.reference (updateReferences S s commands).1 n =
      (commands.filter (·.name = n)).foldl change (S.reference s n) := by
  induction commands generalizing s with
  | nil => rfl
  | cons c commands ih =>
    change S.reference (updateReferences S (updateReference S s c).1 commands).1 n = _
    rw [ih, reference_updateReference]
    by_cases hname : c.name = n
    · simp [hname]
    · simp [hname]

lemma ReceivePack_silent (advertiseRefs : Bool) (h : caps.supports Capability.ReportStatus = false) :
    (ReceivePack S advertiseRefs input caps s).1 = s := by
  simp only [ReceivePack, h, Bool.false_eq_true, not_false_eq_true, if_true]
  repeat' split
  all_goals rfl

lemma ReceivePack_reporting (h : caps.supports Capability.ReportStatus = true) (hinput : input.Complete caps commands)
    (hunpack : input.unpackErr commands = none) :
    (ReceivePack S false input caps s).1 = (updateReferences S s commands).1 := by
  obtain ⟨hpeek, hcommands, hoptions, hclose⟩ := hinput
  simp only [ReceivePack, hpeek, hcommands, hoptions, hclose, h, hunpack, Bool.false_eq_true, if_false,
    not_true_eq_false]
  split
  · rfl
  · split <;> rfl

lemma ReceivePack_incomplete (h : ∀ commands, ¬ input.Complete caps commands) :
    (ReceivePack S false input caps s).1 = s := by
  rw [ReceivePack, if_neg (by simp)]
  split
  · rfl
  · rfl
  · next hpeek =>
    split
    · rfl
    · next commands hcommands =>
      cases hoptions : input.optionsErr caps with
      | some e => rfl
      | none =>
        cases hclose : input.closeReader with
        | some e => rfl
        | none => exact absurd ⟨hpeek, hcommands, hoptions, hclose⟩ (h commands)

end Push

/-- The references after a push are the same with and without a report exactly if the request is not read to its end
or its commands lead back to what was there. -/
theorem ReceivePack_indifferent_iff {σ ε : Type} (S : ReferenceStorer σ) (input : Input ε) (caps : CapabilityList) (s : σ)
    (hunpack : ∀ commands, input.commands = .ok commands → input.unpackErr commands = none) :
    (∀ n, S.reference (ReceivePack S false input (reporting caps) s).1 n =
        S.reference (ReceivePack S false input (silent caps) s).1 n) ↔
      ∀ commands, input.Complete (silent caps) commands → LeadsBack S s commands := by
  have hsilent : (ReceivePack S false input (silent caps) s).1 = s := ReceivePack_silent false supports_silent
  rw [hsilent]
  constructor
  · intro h commands hcomplete n
    rw [← reference_updateReferences, ← h n,
      ReceivePack_reporting supports_reporting (Input.complete_reporting.mpr hcomplete) (hunpack commands hcomplete.2.1)]
  · intro h n
    by_cases hcomplete : ∃ commands, input.Complete (silent caps) commands
    · obtain ⟨commands, hcomplete⟩ := hcomplete
      rw [ReceivePack_reporting supports_reporting (Input.complete_reporting.mpr hcomplete)
        (hunpack commands hcomplete.2.1), reference_updateReferences, h commands hcomplete n]
    · rw [ReceivePack_incomplete]
      intro commands hc
      exact hcomplete ⟨commands, Input.complete_reporting.mp hc⟩

def request (commands : List Command) : Input Unit := { peek := .ok false, commands := .ok commands }

theorem ReceivePack_indifferent_deleted : Memory.storer.reference (ReceivePack Memory.storer false
        (request [command "b" "" "22", command "b" "22" ""]) (reporting []) (oneBranch (branchAt "a" "11"))).1 (branch "b") =
      Memory.storer.reference (ReceivePack Memory.storer false
        (request [command "b" "" "22", command "b" "22" ""]) (silent []) (oneBranch (branchAt "a" "11"))).1 (branch "b") := by
  refine (ReceivePack_indifferent_iff Memory.storer _ [] _ fun commands _ => ?_).mpr (fun commands hcomplete n => ?_) _
  · simp [Input.unpackErr, request]
  · obtain rfl : [command "b" "" "22", command "b" "22" ""] = commands := Except.ok.inj hcomplete.2.1
    by_cases hn : branch "b" = n
    · subst hn
      decide +kernel
    · rw [List.filter_eq_nil_iff.mpr]
      · rfl
      · simp [command, hn]

theorem ReceivePack_not_indifferent : (request [command "b" "" "22"]).unpackErr [command "b" "" "22"] = none ∧
    Memory.storer.reference (ReceivePack Memory.storer false (request [command "b" "" "22"]) (reporting [])
        (oneBranch (branchAt "a" "11"))).1 (branch "b") = some (branchAt "b" "22") ∧
      Memory.storer.reference (ReceivePack Memory.storer false (request [command "b" "" "22"]) (silent [])
        (oneBranch (branchAt "a" "11"))).1 (branch "b") = none := by
  decide +kernel

end GoGit.Push
