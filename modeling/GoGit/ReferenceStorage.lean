import GoGit.Object

namespace GoGit

inductive StorageError
  | referenceNotFound
  | referenceHasChanged
  deriving DecidableEq

structure ReferenceStorer (σ : Type) where
  reference : σ → ReferenceName → Option Reference
  setReference : σ → Reference → σ
  removeReference : σ → ReferenceName → σ
  reference_set : ∀ s r n, reference (setReference s r) n = if n = r.name then some r else reference s n
  reference_remove : ∀ s m n, reference (removeReference s m) n = if n = m then none else reference s n

namespace Memory

abbrev ReferenceStorage := ReferenceName → Option Reference

def storer : ReferenceStorer ReferenceStorage where
  reference s n := s n
  setReference s r := Function.update s r.name (some r)
  removeReference s n := Function.update s n none
  reference_set s r n := by simp [Function.update_apply]
  reference_remove s m n := by simp [Function.update_apply]

def CheckAndSetReference (s : ReferenceStorage) (ref : Reference) (old : Option Reference) :
    Except StorageError Unit × ReferenceStorage :=
  match old with
  | none => (.ok (), storer.setReference s ref)
  | some old =>
    match s ref.name with
    | none => (.ok (), storer.setReference s ref)
    | some tmp =>
      if tmp.hash ≠ old.hash then (.error .referenceHasChanged, s)
      else (.ok (), storer.setReference s ref)

end Memory

namespace Transactional

structure ReferenceStorage (β τ : Type) where
  base : β
  temporal : τ
  deleted : List ReferenceName

variable {β τ : Type} (B : ReferenceStorer β) (T : ReferenceStorer τ)

/-- The staged reference, or else the one below; what is deleted is not looked at. -/
def lookup (s : ReferenceStorage β τ) (n : ReferenceName) : Option Reference :=
  (T.reference s.temporal n).or (B.reference s.base n)

def storer : ReferenceStorer (ReferenceStorage β τ) where
  reference s n := if n ∈ s.deleted then none else lookup B T s n
  setReference s r :=
    { s with
      temporal := T.setReference s.temporal r
      deleted := s.deleted.filter (· ≠ r.name) }
  removeReference s n :=
    { s with
      temporal := T.removeReference s.temporal n
      deleted := n :: s.deleted }
  reference_set s r n := by
    by_cases h : n = r.name
    · simp [lookup, T.reference_set, h]
    · simp [lookup, T.reference_set, h]
  reference_remove s m n := by
    by_cases h : n = m
    · simp [h]
    · simp [lookup, T.reference_remove, h]

def CheckAndSetReference (s : ReferenceStorage β τ) (ref : Reference) (old : Option Reference) :
    Except StorageError Unit × ReferenceStorage β τ :=
  match old with
  | none => (.ok (), (storer B T).setReference s ref)
  | some old =>
    match lookup B T s old.name with
    | none => (.error .referenceNotFound, s)
    | some tmp =>
      if tmp.hash ≠ old.hash then (.error .referenceHasChanged, s)
      else (.ok (), (storer B T).setReference s ref)

end Transactional

section Guarded

variable {σ : Type}

def Matches (S : ReferenceStorer σ) (s : σ) (old : Reference) : Prop :=
  ∃ current, S.reference s old.name = some current ∧ current.target = old.target

lemma matches_iff {S : ReferenceStorer σ} {s : σ} {old : Reference} :
    Matches S s old ↔ (S.reference s old.name).map Reference.target = some old.target := by
  rw [Matches, Option.map_eq_some_iff]

/-- The reference is stored, and only over the old one; otherwise nothing changes. -/
def Guarded (S : ReferenceStorer σ) (s : σ) (ref old : Reference) : Except StorageError Unit × σ → Prop
  | (.ok (), s') => Matches S s old ∧
      ∀ n, S.reference s' n = if n = ref.name then some ref else S.reference s n
  | (.error _, s') => ∀ n, S.reference s' n = S.reference s n

lemma Memory.guarded_iff (s : Memory.ReferenceStorage) (ref old : Reference) :
    Guarded Memory.storer s ref old (Memory.CheckAndSetReference s ref (some old)) ↔
      Matches Memory.storer s old ∨ ∃ tmp, s ref.name = some tmp ∧ tmp.hash ≠ old.hash := by
  have hset := Memory.storer.reference_set s ref
  rw [Memory.CheckAndSetReference]
  cases htmp : s ref.name with
  | none => simp [Guarded, hset]
  | some tmp =>
    by_cases hash : tmp.hash = old.hash
    · simp [Guarded, hset, hash]
    · simp [Guarded, hash]

lemma Transactional.guarded_iff {β τ : Type} (B : ReferenceStorer β) (T : ReferenceStorer τ)
    (s : Transactional.ReferenceStorage β τ) (ref old : Reference) :
    Guarded (Transactional.storer B T) s ref old (Transactional.CheckAndSetReference B T s ref (some old)) ↔
      Matches (Transactional.storer B T) s old ∨
        ∀ tmp, Transactional.lookup B T s old.name = some tmp → tmp.hash ≠ old.hash := by
  have hset := (Transactional.storer B T).reference_set s ref
  rw [Transactional.CheckAndSetReference]
  cases htmp : Transactional.lookup B T s old.name with
  | none => simp [Guarded]
  | some tmp =>
    by_cases hash : tmp.hash = old.hash
    · simp [Guarded, hset, hash]
    · simp [Guarded, hash]

/-- Where the two storages compare before they set. In memory it is the reference of the new name that is
compared, and a missing one counts as equal; the transactional storage does not look at what is deleted;
and both compare no more than hashes. -/
theorem CheckAndSetReference_guarded_iff (ref old : Reference) : (∀ s : Memory.ReferenceStorage,
      Guarded Memory.storer s ref old (Memory.CheckAndSetReference s ref (some old)) ↔
        Matches Memory.storer s old ∨ ∃ tmp, s ref.name = some tmp ∧ tmp.hash ≠ old.hash) ∧
    ∀ {β τ : Type} (B : ReferenceStorer β) (T : ReferenceStorer τ) (s : Transactional.ReferenceStorage β τ),
      Guarded (Transactional.storer B T) s ref old (Transactional.CheckAndSetReference B T s ref (some old)) ↔
        Matches (Transactional.storer B T) s old ∨
          ∀ tmp, Transactional.lookup B T s old.name = some tmp → tmp.hash ≠ old.hash :=
  ⟨fun s => Memory.guarded_iff s ref old, fun B T s => Transactional.guarded_iff B T s ref old⟩

def branch (name : String) : ReferenceName := textBytes "refs/heads/" ++ textBytes name

def branchAt (name digits : String) : Reference := ⟨branch name, .hash (.fromHex (textBytes digits))⟩

def branchTo (name target : String) : Reference := ⟨branch name, .symbolic (branch target)⟩

def oneBranch (r : Reference) : Memory.ReferenceStorage := Function.update (fun _ => none) r.name (some r)

def deletedBranch (r : Reference) :
    Transactional.ReferenceStorage Memory.ReferenceStorage Memory.ReferenceStorage :=
  ⟨oneBranch r, fun _ => none, [r.name]⟩

theorem CheckAndSetReference_not_guarded :
    ¬ Guarded Memory.storer (fun _ => none) (branchAt "a" "22") (branchAt "a" "11")
      (Memory.CheckAndSetReference (fun _ => none) (branchAt "a" "22") (some (branchAt "a" "11"))) ∧
    ¬ Guarded Memory.storer (oneBranch (branchTo "a" "y")) (branchTo "a" "z") (branchTo "a" "x")
      (Memory.CheckAndSetReference (oneBranch (branchTo "a" "y")) (branchTo "a" "z") (some (branchTo "a" "x"))) ∧
    ¬ Guarded (Transactional.storer Memory.storer Memory.storer) (deletedBranch (branchAt "a" "11"))
      (branchAt "a" "22") (branchAt "a" "11")
      (Transactional.CheckAndSetReference Memory.storer Memory.storer (deletedBranch (branchAt "a" "11"))
        (branchAt "a" "22") (some (branchAt "a" "11"))) := by
  refine ⟨fun h => ?_, fun h => ?_, fun h => ?_⟩
  · have hmatch := matches_iff.mp h.1
    exact nomatch hmatch
  · rw [Memory.guarded_iff, matches_iff] at h
    rcases h with h | ⟨tmp, htmp, hne⟩
    · exact absurd h (by decide +kernel)
    · have hsome : oneBranch (branchTo "a" "y") (branchTo "a" "z").name = some (branchTo "a" "y") := by
        decide +kernel
      rw [hsome] at htmp
      cases htmp
      exact absurd rfl hne
  · rw [Transactional.guarded_iff, matches_iff] at h
    rcases h with h | h
    · exact absurd h (by decide +kernel)
    · exact h (branchAt "a" "11") (by decide +kernel) rfl

end Guarded

end GoGit
