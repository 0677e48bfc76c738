import GoGit.CommitPreorder
import GoGit.ReferenceName
import GoGit.ReferenceStorage

/-! `Repository.Merge`: the branch of `HEAD` is moved to a commit of which its own is an ancestor. -/

namespace GoGit

inductive MergeError
  | unsupportedMergeStrategy
  | fastForwardMergeNotPossible
  | head (e : ResolveError)
  | history (e : ObjectError)
  deriving DecidableEq

abbrev MergeStrategy := Int8

def FastForwardMerge : MergeStrategy := 0

structure Repository (σ : Type) where
  objects : Store
  shallow : List ObjectID
  references : σ

namespace Repository

variable {σ : Type} (S : ReferenceStorer σ) (r : Repository σ) (ref head : Reference)

def Head : Except ResolveError Reference := ResolveReference (S.reference r.references) .HEAD

/-- The error, and the references after it; a shallow list that cannot be read is an empty one. -/
def Merge (strategy : MergeStrategy) : Except MergeError Unit × σ :=
  if strategy ≠ FastForwardMerge then (.error .unsupportedMergeStrategy, r.references)
  else
    match r.Head S with
    | .error e => (.error (.head e), r.references)
    | .ok head =>
      match isFastForward r.objects head.hash ref.hash r.shallow.head? with
      | .error e => (.error (.history e), r.references)
      | .ok false => (.error .fastForwardMergeNotPossible, r.references)
      | .ok true => (.ok (), S.setReference r.references ⟨head.name, .hash ref.hash⟩)

/-- The branch is moved exactly if its commit is an ancestor, and nothing changes otherwise. -/
def Merges : Prop :=
  (r.objects.Ancestor ref.hash head.hash → r.Merge S ref FastForwardMerge =
    (.ok (), S.setReference r.references ⟨head.name, .hash ref.hash⟩)) ∧
  (¬ r.objects.Ancestor ref.hash head.hash → ∃ e, r.Merge S ref FastForwardMerge = (.error e, r.references))

/-- The shallow commits are there, their parents are not. -/
def Truncated : Prop :=
  ∀ h ∈ r.shallow, ∃ c, r.objects.getCommit h = .ok c ∧ ∀ p ∈ c.parentHashes, r.objects.object p = none

/-- A commit that is not in the store, and no parent of the first shallow commit either. -/
def Lacks (h : ObjectID) : Prop := (∀ f ∈ r.shallow.head?, ¬ r.objects.Parent f h) ∧ ¬ r.objects.IsCommit h

variable {r ref head}

lemma Truncated.ignored (hr : r.Truncated) : ∃ ignore, parentsToIgnore r.objects r.shallow.head? = .ok ignore ∧
    (∀ h ∈ ignore, r.objects.object h = none) ∧ r.objects.Lacks ignore = r.Lacks := by
  cases hf : r.shallow.head? with
  | none => exact ⟨[], rfl, by simp, by ext h; simp [Store.Lacks, Lacks, hf]⟩
  | some f =>
    obtain ⟨c, hc, hmissing⟩ := hr f (List.mem_of_head? hf)
    refine ⟨c.parentHashes, by simp [parentsToIgnore, hc], hmissing, ?_⟩
    ext h
    simp [Store.Lacks, Lacks, hf, r.objects.parent_iff hc]

/-- In a history without cycles the merge does what it should exactly if the branch is no ancestor of the target, or
parents lead to it before which only parents with a history without gaps are named; the history may end at the parents
of the first shallow commit. -/
theorem Merges_iff (hhead : r.Head S = .ok head) (hold : r.objects.IsCommit head.hash)
    (hnew : r.objects.IsCommit ref.hash) (hr : r.Truncated) (hcycle : ∀ h, ¬ Relation.TransGen r.objects.Parent h h) :
    r.Merges S ref head ↔ (r.objects.Ancestor ref.hash head.hash →
      Relation.ReflTransGen (DepthFirst.Clear r.objects.parents r.Lacks) ref.hash head.hash) := by
  obtain ⟨ignore, hparents, hmissing, hlacks⟩ := hr.ignored
  obtain ⟨c, hc, -⟩ := r.objects.getCommit_of_isCommit hnew
  have hclear := isFastForward_clear_iff hc hparents hmissing hold hcycle
  have hspec := @isFastForward_searched _ head.hash _ _ _ _ hc hparents hmissing
  rw [Store.ClearTo, hlacks] at hclear
  rw [← hclear]
  constructor
  · intro hmerges hancestor
    have hrun := hmerges.1 hancestor
    cases hff : isFastForward r.objects head.hash ref.hash r.shallow.head? with
    | error e => simp [Merge, hhead, hff] at hrun
    | ok found =>
      cases found with
      | false => simp [Merge, hhead, hff] at hrun
      | true => rfl
  · refine fun hfound => ⟨fun hancestor => by simp [Merge, hhead, hfound hancestor], fun hnot => ?_⟩
    cases hff : isFastForward r.objects head.hash ref.hash r.shallow.head? with
    | error e => exact ⟨.history e, by simp [Merge, hhead, hff]⟩
    | ok found =>
      rw [hff] at hspec
      have hpresent : head.hash ∉ ignore := fun hin => by
        obtain ⟨d, hd⟩ := hold
        cases hd.symm.trans (hmissing _ hin)
      cases found with
      | true => exact absurd ((hspec hpresent).mp rfl) hnot
      | false => exact ⟨.fastForwardMergeNotPossible, by simp [Merge, hhead, hff]⟩

def joinedCommit (name : UInt8) (parents : List UInt8) : Commit :=
  { hash := .short name, parentHashes := parents.map .short }

def joinedCommits : List Commit :=
  [joinedCommit 5 [3, 4], joinedCommit 4 [], joinedCommit 3 [1], joinedCommit 2 [0]]

def main : Reference := ⟨textBytes "refs/heads/main", .hash (.short 4)⟩

def next : Reference := ⟨textBytes "refs/heads/next", .hash (.short 5)⟩

/-- Two lines that meet in one commit; the branch is on the second, and the first is cut off. -/
def joined (shallow : List UInt8) : Repository Memory.ReferenceStorage where
  objects := .ofCommits joinedCommits
  shallow := shallow.map .short
  references n :=
    if n = .HEAD then some ⟨n, .symbolic main.name⟩
    else if n = main.name then some main
    else none

theorem Merges_joined : (joined [3, 2]).Merges Memory.storer next main := by
  refine (Merges_iff _ rfl (by decide) (by decide) ?_ fun h hcycle => ?_).mpr fun _ =>
    .single ⟨[.short 3], [], by decide +kernel, ?_⟩
  · exact List.forall_mem_cons.mpr ⟨⟨_, rfl, by decide⟩, List.forall_mem_singleton.mpr ⟨_, rfl, by decide⟩⟩
  · have hrank : ∀ a b, (joined [3, 2]).objects.Parent a b → b.hash.headD 0 < a.hash.headD 0 := by
      intro a b hab
      obtain ⟨c, hc, rfl, hb⟩ := Store.parent_ofCommits hab
      exact (by decide : ∀ c ∈ joinedCommits, ∀ p ∈ c.parentHashes, p.hash.headD 0 < c.hash.hash.headD 0) c hc b hb
    have hless := hcycle.lift (p := (· > ·)) (fun a => a.hash.headD 0) hrank
    rw [Relation.transGen_eq_self] at hless
    exact UInt8.lt_irrefl _ hless
  · have hone : DepthFirst.Whole (joined [3, 2]).objects.parents (joined [3, 2]).Lacks (.short 1) :=
      DepthFirst.whole_iff.mpr ⟨fun hl => hl.1 (.short 3) rfl ⟨_, rfl, .head _⟩, nofun⟩
    refine List.forall_mem_singleton.mpr (DepthFirst.whole_iff.mpr ⟨fun hl => hl.2 (by decide), fun p hp => ?_⟩)
    have hparents : (joined [3, 2]).objects.parents (.short 3) = [.short 1] := by decide +kernel
    rw [hparents, List.mem_singleton] at hp
    exact hp ▸ hone

/-- The other order of the shallow commits: the branch is an ancestor, and the merge fails. -/
theorem not_Merges_joined : (joined [2, 3]).Head Memory.storer = .ok main ∧
    (joined [2, 3]).Truncated ∧ ¬ (joined [2, 3]).Merges Memory.storer next main := by
  refine ⟨rfl, List.forall_mem_cons.mpr ⟨⟨_, rfl, by decide⟩, List.forall_mem_singleton.mpr ⟨_, rfl, by decide⟩⟩,
    fun hmerges => ?_⟩
  have hfail : ((joined [2, 3]).Merge Memory.storer next FastForwardMerge).1 =
      .error (.history .objectNotFound) := by decide +kernel
  rw [hmerges.1 (.single ⟨joinedCommit 5 [3, 4], rfl, by decide⟩)] at hfail
  exact nomatch hfail

end Repository

end GoGit
