import GoGit.Remote

/-! An update of a remote reference has to be a fast-forward, or it has to be covered by a lease and replace the value
that the lease expects. Under a lease the code does not look for fast-forwards any more, and it looks up the expected
value by the local name. -/
namespace GoGit

open List

lemma foldlM_mem {ε α β : Type} {f : List β → α → Except ε (List β)} {good must : α → β → Prop}
    {xs : List α} {before after : List β} (hstep : ∀ acc acc', ∀ x ∈ xs, f acc x = .ok acc' →
      (∀ c ∈ acc', c ∈ acc ∨ good x c) ∧ ∀ c, c ∈ acc ∨ must x c → c ∈ acc') (h : xs.foldlM f before = .ok after) :
    (∀ c ∈ after, c ∈ before ∨ ∃ x ∈ xs, good x c) ∧ ∀ c, c ∈ before ∨ (∃ x ∈ xs, must x c) → c ∈ after := by
  induction xs generalizing before with
  | nil =>
    cases h
    exact ⟨fun c hc => .inl hc, by simp⟩
  | cons x xs ih =>
    rw [foldlM_cons] at h
    obtain ⟨acc, hx, hrest⟩ := bind_eq_ok_iff.mp h
    obtain ⟨hgood, hmust⟩ := hstep before acc x mem_cons_self hx
    obtain ⟨hgoods, hmusts⟩ := ih (fun a a' y hy => hstep a a' y (mem_cons_of_mem _ hy)) hrest
    constructor
    · intro c hc
      rcases hgoods c hc with hc | ⟨y, hy, hc⟩
      · exact (hgood c hc).imp id fun hc => ⟨x, mem_cons_self, hc⟩
      · exact .inr ⟨y, mem_cons_of_mem _ hy, hc⟩
    · rintro c (hc | ⟨y, hy, hc⟩)
      · exact hmusts c (.inl (hmust c (.inl hc)))
      · rcases mem_cons.mp hy with rfl | hy
        · exact hmusts c (.inl (hmust c (.inr hc)))
        · exact hmusts c (.inr ⟨y, hy, hc⟩)

namespace Remote

open ReceivePack (Command)

variable {r : Remote} {rs : RefSpec} {localRefs remoteRefs : List Reference} {ref : Reference}
  {cmds cmds' : List Command} {c : Command} {lease : Option ForceWithLease}

def Covers (l : ForceWithLease) (n : ReferenceName) : Prop := l.refName = [] ∨ l.refName = n

/-- The value that a lease expects of a reference of the remote: its own, or what the repository knows of
the reference. -/
def expected (r : Remote) (l : ForceWithLease) (n : ReferenceName) : Option ObjectID :=
  if !l.hash.IsZero then some l.hash else (ResolveReference r.refs (r.tracking n)).toOption.map Reference.hash

/-- The update replaces what a lease expects, or it is a fast-forward. -/
def Guarded (r : Remote) (lease : Option ForceWithLease) (c : Command) : Prop :=
  (∃ l, lease = some l ∧ Covers l c.name ∧ r.expected l c.name = some c.old) ∨
    r.objects.Ancestor c.new c.old

def considered (rs : RefSpec) (localRefs : List Reference) : List Reference :=
  if rs.IsWildcard then localRefs else (refsDict localRefs rs.Src).toList

/-- The command for a local reference that differs from the one of the remote. -/
def Makes (rs : RefSpec) (remoteRefs : List Reference) (ref : Reference) (c : Command) : Prop :=
  ∃ old new, ref.target = .hash new ∧ rs.Match ref.name = true ∧
    oldValue remoteRefs (rs.Dst ref.name) = some old ∧ old ≠ new ∧ c = ⟨rs.Dst ref.name, old, new⟩

/-- Each update that a push under a lease would make is a fast-forward, or the lease is for its reference and
has a value of its own or one that is known for the same reference. -/
def LeaseSuffices (r : Remote) (l : ForceWithLease) (refspecs : List RefSpec)
    (localRefs remoteRefs : List Reference) : Prop :=
  ∀ rs ∈ refspecs, rs.IsDelete = false → ∀ ref ∈ considered rs localRefs, ∀ c, Makes rs remoteRefs ref c →
    c.action = .update →
    (Covers l c.name ∧ (l.hash.IsZero = false ∨ r.expected l c.name = some c.old)) ∨
      r.objects.Ancestor c.new c.old

lemma old_ne_of_update (h : c.action = .update) : c.old ≠ .zeroHash ∧ c.new ≠ .zeroHash := by
  unfold Command.action at h
  split_ifs at h with hboth hold hnew
  exact ⟨hold, hnew⟩

lemma ancestor_of_check (h : r.checkFastForwardUpdate remoteRefs c = .ok ()) (hact : c.action = .update) :
    r.objects.Ancestor c.new c.old := by
  rw [checkFastForwardUpdate, if_neg (old_ne_of_update hact).1] at h
  have hspec := isFastForward_spec r.objects c.old c.new
  cases hff : isFastForward r.objects c.old c.new none with
  | error e => simp [hff] at h
  | ok ff =>
    rw [hff] at h hspec
    cases ff with
    | false => simp at h
    | true => exact hspec.mp rfl

lemma old_eq_of_check {l : ForceWithLease} (h : r.checkForceWithLease ref c l = .ok ()) (hcovers : Covers l c.name)
    (hhash : l.hash.IsZero = false) : c.old = l.hash := by
  rw [checkForceWithLease] at h
  cases hres : ResolveReference r.refs (r.tracking ref.name) with
  | error e => simp [hres] at h
  | ok known =>
    rw [hres] at h
    simp only [Covers] at hcovers
    by_contra hne
    simp [hcovers, hhash, hne] at h

def Checked (r : Remote) (remoteRefs : List Reference) (lease : Option ForceWithLease) (ref : Reference)
    (c : Command) : Prop :=
  match lease with
  | some l => r.checkForceWithLease ref c l = .ok ()
  | none => r.checkFastForwardUpdate remoteRefs c = .ok ()

lemma addReference_mem (hforce : rs.IsForceUpdate = false)
    (h : r.addReferenceIfRefSpecMatches rs remoteRefs ref cmds lease = .ok cmds') :
    (∀ c ∈ cmds', c ∈ cmds ∨ (Makes rs remoteRefs ref c ∧ Checked r remoteRefs lease ref c)) ∧
      ∀ c, c ∈ cmds ∨ Makes rs remoteRefs ref c → c ∈ cmds' := by
  -- no command is made
  have hnone (hcmds : cmds = cmds') (hmakes : ∀ c, ¬ Makes rs remoteRefs ref c) :
      (∀ c ∈ cmds', c ∈ cmds ∨ (Makes rs remoteRefs ref c ∧ Checked r remoteRefs lease ref c)) ∧
        ∀ c, c ∈ cmds ∨ Makes rs remoteRefs ref c → c ∈ cmds' := by
    subst hcmds
    exact ⟨fun c hc => .inl hc, fun c hc => hc.resolve_right (hmakes c)⟩
  rw [addReferenceIfRefSpecMatches] at h
  cases htarget : ref.target with
  | symbolic target =>
    rw [htarget] at h
    refine hnone (Except.ok.inj h) ?_
    rintro c ⟨old, new, hhash, -⟩
    exact nomatch htarget.symm.trans hhash
  | hash new =>
    rw [htarget] at h
    by_cases hmatch : rs.Match ref.name = true
    · simp only [hmatch, Bool.not_true, Bool.false_eq_true, if_false] at h
      cases hold : oldValue remoteRefs (rs.Dst ref.name) with
      | none =>
        rw [hold] at h
        refine hnone (Except.ok.inj h) ?_
        rintro c ⟨old, new, -, -, hsome, -⟩
        exact nomatch hold.symm.trans hsome
      | some old =>
        rw [hold] at h
        by_cases heq : old = new
        · simp only [heq, if_true] at h
          refine hnone (Except.ok.inj h) ?_
          rintro c ⟨old', new', hhash, -, hsome, hne, -⟩
          rw [htarget] at hhash
          rw [hold] at hsome
          cases hhash
          cases hsome
          exact hne heq
        · simp only [heq, if_false, hforce, Bool.not_false, if_true] at h
          have hmakes (c : Command) : Makes rs remoteRefs ref c ↔ c = ⟨rs.Dst ref.name, old, new⟩ := by
            simp [Makes, htarget, hmatch, hold, heq]
          have hdone (hcheck : Checked r remoteRefs lease ref ⟨rs.Dst ref.name, old, new⟩)
              (hcmds : cmds ++ [⟨rs.Dst ref.name, old, new⟩] = cmds') :
              (∀ c ∈ cmds', c ∈ cmds ∨ (Makes rs remoteRefs ref c ∧ Checked r remoteRefs lease ref c)) ∧
                ∀ c, c ∈ cmds ∨ Makes rs remoteRefs ref c → c ∈ cmds' := by
            subst hcmds
            simp only [hmakes, mem_append, mem_singleton]
            refine ⟨fun c hc => hc.imp id ?_, fun c hc => hc⟩
            rintro rfl
            exact ⟨rfl, hcheck⟩
          cases lease with
          | none =>
            simp only at h
            split at h
            · exact nomatch h
            · exact hdone ‹_› (Except.ok.inj h)
          | some l =>
            simp only at h
            split at h
            · exact nomatch h
            · exact hdone ‹_› (Except.ok.inj h)
    · simp only [hmatch, Bool.not_false, if_true] at h
      refine hnone (Except.ok.inj h) ?_
      rintro c ⟨-, -, -, hyes, -⟩
      exact hmatch hyes

lemma deleteReference_eq (dict : ReferenceName → Option Reference) (prune : Bool) (ref : Reference) :
    deleteReference rs dict prune cmds ref = cmds ∨
      ∃ h, deleteReference rs dict prune cmds ref = cmds ++ [⟨ref.name, h, .zeroHash⟩] := by
  rw [deleteReference]
  cases ref.target with
  | symbolic target => exact .inl rfl
  | hash h =>
    dsimp only
    generalize (if prune = true then _ else _ : Bool) = kept
    cases kept with
    | true => exact .inl rfl
    | false => exact .inr ⟨h, rfl⟩

lemma deleteReferences_mem {dict : ReferenceName → Option Reference} {prune : Bool} :
    (∀ c ∈ deleteReferences rs remoteRefs dict cmds prune, c ∈ cmds ∨ c.new = .zeroHash) ∧
      ∀ c ∈ cmds, c ∈ deleteReferences rs remoteRefs dict cmds prune := by
  rw [deleteReferences]
  induction remoteRefs generalizing cmds with
  | nil => exact ⟨fun c hc => .inl hc, fun c hc => hc⟩
  | cons ref remoteRefs ih =>
    rw [foldl_cons]
    rcases @deleteReference_eq rs cmds dict prune ref with heq | ⟨h, heq⟩
    · rw [heq]
      exact ih
    · rw [heq]
      obtain ⟨hadded, hkept⟩ := @ih (cmds ++ [⟨ref.name, h, .zeroHash⟩])
      refine ⟨fun c hc => ?_, fun c hc => hkept c (mem_append_left _ hc)⟩
      rcases hadded c hc with hc | hc
      · rcases mem_append.mp hc with hc | hc
        · exact .inl hc
        · rw [mem_singleton.mp hc]
          exact .inr rfl
      · exact .inr hc

lemma addObject_mem {object : ObjectID} (hforce : rs.IsForceUpdate = false)
    (h : r.addObject rs remoteRefs object cmds = .ok cmds') :
    (∀ c ∈ cmds', c ∈ cmds ∨ r.checkFastForwardUpdate remoteRefs c = .ok ()) ∧ ∀ c ∈ cmds, c ∈ cmds' := by
  rw [addObject] at h
  by_cases hwild : rs.IsWildcard = true
  · simp [hwild] at h
  rw [if_neg hwild] at h
  cases hold : oldValue remoteRefs (rs.Dst []) with
  | none =>
    rw [hold] at h
    cases h
    exact ⟨fun c hc => .inl hc, fun c hc => hc⟩
  | some old =>
    simp only [hold, hforce, Bool.not_false, if_true] at h
    by_cases heq : old = object
    · rw [if_pos heq] at h
      cases h
      exact ⟨fun c hc => .inl hc, fun c hc => hc⟩
    · rw [if_neg heq] at h
      cases hcheck : r.checkFastForwardUpdate remoteRefs ⟨rs.Dst [], old, object⟩ with
      | error e => simp [hcheck] at h
      | ok _ =>
        rw [hcheck] at h
        cases h
        refine ⟨fun c hc => ?_, fun c hc => mem_append_left _ hc⟩
        rcases mem_append.mp hc with hc | hc
        · exact .inl hc
        · rw [mem_singleton.mp hc]
          exact .inr hcheck

def From (r : Remote) (localRefs remoteRefs : List Reference) (lease : Option ForceWithLease) (rs : RefSpec)
    (c : Command) : Prop :=
  c.new = .zeroHash ∨ r.checkFastForwardUpdate remoteRefs c = .ok () ∨
    (rs.IsDelete = false ∧
      ∃ ref ∈ considered rs localRefs, Makes rs remoteRefs ref c ∧ Checked r remoteRefs lease ref c)

lemma addOrUpdateReferences_mem (hforce : rs.IsForceUpdate = false)
    (h : r.addOrUpdateReferences rs localRefs (refsDict localRefs) remoteRefs cmds lease = .ok cmds') :
    (∀ c ∈ cmds', c ∈ cmds ∨ r.checkFastForwardUpdate remoteRefs c = .ok () ∨
        ∃ ref ∈ considered rs localRefs, Makes rs remoteRefs ref c ∧ Checked r remoteRefs lease ref c) ∧
      ∀ c, c ∈ cmds ∨ (∃ ref ∈ considered rs localRefs, Makes rs remoteRefs ref c) → c ∈ cmds' := by
  rw [addOrUpdateReferences] at h
  by_cases hwild : rs.IsWildcard = true
  · simp only [hwild, Bool.not_true, Bool.false_eq_true, if_false] at h
    rw [considered, if_pos hwild]
    obtain ⟨hadded, hmade⟩ := foldlM_mem (fun acc acc' ref _ hstep => addReference_mem hforce hstep) h
    exact ⟨fun c hc => (hadded c hc).imp id .inr, hmade⟩
  · simp only [hwild, Bool.not_false, if_true] at h
    rw [considered, if_neg hwild]
    cases hdict : refsDict localRefs rs.Src with
    | some ref =>
      rw [hdict] at h
      obtain ⟨hadded, hmade⟩ := addReference_mem hforce h
      simp only [Option.toList_some, mem_singleton, exists_eq_left]
      exact ⟨fun c hc => (hadded c hc).imp id .inr, hmade⟩
    | none =>
      rw [hdict] at h
      simp only [Option.toList_none, not_mem_nil, false_and, exists_false, or_false]
      cases hobject : r.objects.encodedObject .any (.fromHex rs.Src) >>= Store.decodeObject with
      | ok o =>
        simp only [hobject] at h
        exact addObject_mem hforce h
      | error e =>
        simp only [hobject] at h
        cases h
        exact ⟨fun c hc => .inl hc, fun c hc => hc⟩

lemma addRefSpec_mem {prune : Bool} (hforce : rs.IsForceUpdate = false)
    (h : r.addRefSpec localRefs remoteRefs prune lease cmds rs = .ok cmds') :
    (∀ c ∈ cmds', c ∈ cmds ∨ From r localRefs remoteRefs lease rs c) ∧
      ∀ c, c ∈ cmds ∨ (rs.IsDelete = false ∧ ∃ ref ∈ considered rs localRefs, Makes rs remoteRefs ref c) →
        c ∈ cmds' := by
  rw [addRefSpec] at h
  by_cases hdelete : rs.IsDelete = true
  · rw [if_pos hdelete] at h
    cases h
    refine ⟨fun c hc => (deleteReferences_mem.1 c hc).imp id .inl, fun c hc => ?_⟩
    exact deleteReferences_mem.2 c (hc.resolve_right fun hnot => by simp [hdelete] at hnot)
  · rw [if_neg hdelete] at h
    have hnot : rs.IsDelete = false := by simpa using hdelete
    cases hadd : r.addOrUpdateReferences rs localRefs (refsDict localRefs) remoteRefs cmds lease with
    | error e => simp [hadd] at h
    | ok added =>
      obtain ⟨hadded, hmade⟩ := addOrUpdateReferences_mem hforce hadd
      have hfrom : ∀ c ∈ added, c ∈ cmds ∨ From r localRefs remoteRefs lease rs c := fun c hc =>
        (hadded c hc).imp id fun hc => .inr (hc.imp id fun hc => ⟨hnot, hc⟩)
      have hmade' : ∀ c, c ∈ cmds ∨ (rs.IsDelete = false ∧
          ∃ ref ∈ considered rs localRefs, Makes rs remoteRefs ref c) → c ∈ added :=
        fun c hc => hmade c (hc.imp id And.right)
      simp only [hadd] at h
      by_cases hprune : prune = true
      · rw [if_pos hprune] at h
        cases h
        refine ⟨fun c hc => ?_, fun c hc => deleteReferences_mem.2 c (hmade' c hc)⟩
        rcases deleteReferences_mem.1 c hc with hc | hc
        · exact hfrom c hc
        · exact .inr (.inl hc)
      · rw [if_neg hprune] at h
        cases h
        exact ⟨hfrom, hmade'⟩

/-- The updates of an unforced push are guarded if there is no lease, or if the lease suffices for all of
them, and only then. -/
theorem addReferencesToUpdate_guarded_iff (r : Remote) (refspecs : List RefSpec)
    (localRefs remoteRefs : List Reference) (prune : Bool) (lease : Option ForceWithLease) (cmds : List Command)
    (hforce : ∀ rs ∈ refspecs, rs.IsForceUpdate = false)
    (hok : r.addReferencesToUpdate refspecs localRefs remoteRefs [] prune lease = .ok cmds) :
    (∀ c ∈ cmds, c.action = .update → r.Guarded lease c) ↔
      ∀ l, lease = some l → r.LeaseSuffices l refspecs localRefs remoteRefs := by
  obtain ⟨hfrom, hmade⟩ := foldlM_mem (fun acc acc' rs hrs hstep => addRefSpec_mem (hforce rs hrs) hstep) hok
  constructor
  · rintro hguarded l rfl rs hrs hdelete ref href c hmakes hact
    have hmem : c ∈ cmds := hmade c (.inr ⟨rs, hrs, hdelete, ref, href, hmakes⟩)
    rcases hguarded c hmem hact with ⟨l', hl, hcovers, hexpected⟩ | hancestor
    · cases hl
      exact .inl ⟨hcovers, .inr hexpected⟩
    · exact .inr hancestor
  · intro hlease c hc hact
    rcases (hfrom c hc).resolve_left not_mem_nil with ⟨rs, hrs, hnew | hff | hmakes⟩
    · exact absurd hnew (old_ne_of_update hact).2
    · exact .inr (ancestor_of_check hff hact)
    · obtain ⟨hdelete, ref, href, hmakes, hcheck⟩ := hmakes
      cases lease with
      | none => exact .inr (ancestor_of_check hcheck hact)
      | some l =>
        rcases hlease l rfl rs hrs hdelete ref href c hmakes hact with ⟨hcovers, hhash | hexpected⟩ | hancestor
        · refine .inl ⟨l, rfl, hcovers, ?_⟩
          rw [expected, hhash, old_eq_of_check hcheck hcovers hhash]
          rfl
        · exact .inl ⟨l, rfl, hcovers, hexpected⟩
        · exact .inr hancestor

def rootCommit (b : UInt8) : Commit := { hash := .short b }

/-- A remote with three commits without a common history, and what is known of it. -/
def unrelated : Remote where
  name := textBytes "origin"
  objects := .ofCommits [rootCommit 1, rootCommit 2, rootCommit 3]
  refs n := if n = textBytes "refs/remotes/origin/a" then some ⟨n, .hash (.short 1)⟩
    else if n = textBytes "refs/remotes/origin/b" then some ⟨n, .hash (.short 2)⟩ else none

def branchOf (name : String) (b : UInt8) : Reference := ⟨branch name, .hash (.short b)⟩

def allHeads : RefSpec := textBytes "refs/heads/*:refs/heads/*"

theorem addReferencesToUpdate_guarded_leased :
    unrelated.addReferencesToUpdate [allHeads] [branchOf "a" 3] [branchOf "a" 1] [] false
        (some ⟨[], .zeroHash⟩) = .ok [⟨branch "a", .short 1, .short 3⟩] ∧
    ∀ c ∈ [(⟨branch "a", .short 1, .short 3⟩ : Command)], c.action = .update →
      unrelated.Guarded (some ⟨[], .zeroHash⟩) c := by
  have hok : unrelated.addReferencesToUpdate [allHeads] [branchOf "a" 3] [branchOf "a" 1] [] false
      (some ⟨[], .zeroHash⟩) = .ok [⟨branch "a", .short 1, .short 3⟩] := by
    decide +kernel
  refine ⟨hok, (addReferencesToUpdate_guarded_iff _ _ _ _ _ _ _ (by decide +kernel) hok).mpr ?_⟩
  rintro l ⟨⟩ rs hrs - ref href c ⟨old, new, htarget, -, hold, -, rfl⟩ -
  obtain rfl := mem_singleton.mp hrs
  have href : ref ∈ [branchOf "a" 3] := href
  obtain rfl := mem_singleton.mp href
  have hadvertised : oldValue [branchOf "a" 1] (allHeads.Dst (branchOf "a" 3).name) = some (.short 1) := by
    decide +kernel
  obtain rfl := Option.some.inj (hadvertised.symm.trans hold)
  have hknown : unrelated.expected ⟨[], .zeroHash⟩ (allHeads.Dst (branchOf "a" 3).name) = some (.short 1) := by
    decide +kernel
  exact .inl ⟨.inl rfl, .inr hknown⟩

theorem addReferencesToUpdate_not_guarded :
    unrelated.addReferencesToUpdate [allHeads] [branchOf "b" 3] [branchOf "b" 2] [] false
        (some ⟨branch "a", .short 1⟩) = .ok [⟨branch "b", .short 2, .short 3⟩] ∧
    ((⟨branch "b", .short 2, .short 3⟩ : Command).action = .update ∧
      ¬ unrelated.Guarded (some ⟨branch "a", .short 1⟩) ⟨branch "b", .short 2, .short 3⟩) := by
  refine ⟨by decide +kernel, by decide +kernel, ?_⟩
  rintro (⟨l, ⟨⟩, hcovers, -⟩ | hancestor)
  · exact absurd hcovers (by unfold Covers; decide +kernel)
  · rcases Relation.ReflTransGen.cases_head hancestor with heq | ⟨p, hparent, -⟩
    · exact absurd heq (by decide +kernel)
    · obtain ⟨c, hc, -, hp⟩ := Store.parent_ofCommits hparent
      have hroots : ∀ c ∈ [rootCommit 1, rootCommit 2, rootCommit 3], c.parentHashes = [] := by decide +kernel
      rw [hroots c hc] at hp
      exact absurd hp not_mem_nil

end Remote

end GoGit
