import GoGit.TransactionalStorage

namespace GoGit.Transactional

open List

structure Base (β ε : Type) where
  notFound : ε
  reference : β → ReferenceName → Except ε Reference
  setReference : β → Reference → Except ε β
  removeReference : β → ReferenceName → Except ε β
  reference_set : ∀ {s r s'}, setReference s r = .ok s' →
    ∀ n, reference s' n = if n = r.name then .ok r else reference s n
  reference_remove : ∀ {s m s'}, removeReference s m = .ok s' →
    ∀ n, reference s' n = if n = m then .error notFound else reference s n

section Commit

variable {β τ ε : Type} (B : Base β ε) (T : ReferenceLister τ)

variable (s : ReferenceStorage β τ)

def SetReference (r : Reference) : ReferenceStorage β τ :=
  { s with deleted := s.deleted.filter (· ≠ r.name), temporal := T.setReference s.temporal r }

def RemoveReference (n : ReferenceName) : ReferenceStorage β τ :=
  { s with deleted := n :: s.deleted, temporal := T.removeReference s.temporal n }

def lookupReference (n : ReferenceName) : Except ε Reference :=
  if n ∈ s.deleted then .error B.notFound
  else
    match T.reference s.temporal n with
    | none => B.reference s.base n
    | some r => .ok r

def stageStep : ReferenceOp → ReferenceStorage β τ
  | .set r => SetReference T s r
  | .remove n => RemoveReference T s n
  | .reference _ | .iter => s

def stage (ops : List ReferenceOp) : ReferenceStorage β τ := ops.foldl (stageStep T) s

/-- `Commit`, which goes through the deleted names in the order given. -/
def Commit (order : List ReferenceName) (s : ReferenceStorage β τ) : Except ε β := do
  let base ← order.foldlM B.removeReference s.base
  (T.iterReferences s.temporal).foldlM B.setReference base

def Cancelled : Prop := ∀ n ∈ s.deleted, T.reference s.temporal n = none

variable {B T} {s : ReferenceStorage β τ}

lemma Cancelled.step (h : Cancelled T s) (op : ReferenceOp) : Cancelled T (stageStep T s op) := by
  intro n hn
  cases op with
  | set r =>
    have hmem : n ∈ s.deleted ∧ n ≠ r.name := by simpa [stageStep, SetReference] using hn
    change T.reference (T.setReference s.temporal r) n = none
    rw [T.reference_set, if_neg hmem.2, h n hmem.1]
  | remove m =>
    change T.reference (T.removeReference s.temporal m) n = none
    rw [T.reference_remove]
    split_ifs with hname
    · rfl
    · exact h n ((mem_cons.mp hn).resolve_left hname)
  | reference _ => exact h n hn
  | iter => exact h n hn

lemma Cancelled.stage (h : Cancelled T s) (ops : List ReferenceOp) : Cancelled T (stage T s ops) := by
  induction ops generalizing s with
  | nil => exact h
  | cons op ops ih => exact ih (h.step op)

variable {order : List ReferenceName} {base base' : β}

lemma reference_removeAll (h : order.foldlM B.removeReference base = .ok base') (n : ReferenceName) :
    B.reference base' n = if n ∈ order then .error B.notFound else B.reference base n := by
  induction order generalizing base with
  | nil =>
    cases h
    simp
  | cons m order ih =>
    rw [foldlM_cons] at h
    obtain ⟨next, hnext, h⟩ := bind_eq_ok_iff.mp h
    rw [ih h, B.reference_remove hnext]
    by_cases hm : n = m
    · simp [hm]
    · simp [hm]

lemma reference_setAll {refs : List Reference} (hnodup : (refs.map Reference.name).Nodup)
    (h : refs.foldlM B.setReference base = .ok base') : (∀ r ∈ refs, B.reference base' r.name = .ok r) ∧
      ∀ n, n ∉ refs.map Reference.name → B.reference base' n = B.reference base n := by
  induction refs generalizing base with
  | nil =>
    cases h
    exact ⟨by simp, fun _ _ => rfl⟩
  | cons r refs ih =>
    rw [foldlM_cons] at h
    obtain ⟨next, hnext, h⟩ := bind_eq_ok_iff.mp h
    rw [map_cons, nodup_cons] at hnodup
    obtain ⟨hset, hkept⟩ := ih hnodup.2 h
    constructor
    · intro r' hr'
      rcases mem_cons.mp hr' with rfl | hr'
      · rw [hkept _ hnodup.1, B.reference_set hnext, if_pos rfl]
      · exact hset r' hr'
    · intro n hn
      rw [map_cons, mem_cons, not_or] at hn
      rw [hkept n hn.2, B.reference_set hnext, if_neg hn.1]

lemma reference_Commit {base' : β} (hs : Cancelled T s)
    (horder : ∀ n, n ∈ order ↔ n ∈ s.deleted) (h : Commit B T order s = .ok base') (n : ReferenceName) :
    B.reference base' n = lookupReference B T s n := by
  obtain ⟨base, hremove, hset⟩ := bind_eq_ok_iff.mp h
  obtain ⟨hstaged, hkept⟩ := reference_setAll (T.nodup_iter _) hset
  have hbase := reference_removeAll hremove n
  rw [lookupReference]
  cases hT : T.reference s.temporal n with
  | none =>
    rw [hkept n (by simp [mem_names_iff, hT]), hbase]
    simp only [horder]
  | some r =>
    have hname := T.name_of_reference hT
    have hdeleted : n ∉ s.deleted := fun hmem => by simp [hs n hmem] at hT
    rw [if_neg hdeleted]
    subst hname
    exact hstaged r ((T.mem_iter _ r).mpr hT)

end Commit

/-- After a successful `Commit` the base answers for every name as the transaction did before. -/
theorem Commit_reference {β τ ε : Type} (B : Base β ε) (T : ReferenceLister τ) (base base' : β) (temporal : τ)
    (ops : List ReferenceOp) (order : List ReferenceName)
    (horder : ∀ n, n ∈ order ↔ n ∈ (stage T ⟨base, temporal, []⟩ ops).deleted)
    (h : Commit B T order (stage T ⟨base, temporal, []⟩ ops) = .ok base') (n : ReferenceName) :
    B.reference base' n = lookupReference B T (stage T ⟨base, temporal, []⟩ ops) n :=
  reference_Commit (Cancelled.stage (fun _ hn => absurd hn not_mem_nil) ops) horder h n

def branchesOnly : Base Memory.ReferenceStorage Unit where
  notFound := ()
  reference s n := (s n).elim (.error ()) .ok
  setReference s r :=
    if textBytes "refs/heads/" <+: r.name then .ok (Memory.storer.setReference s r) else .error ()
  removeReference s n := .ok (Memory.storer.removeReference s n)
  reference_set := by
    intro s r s' h n
    split_ifs at h
    cases h
    by_cases hn : n = r.name
    · simp [Memory.storer, hn]
    · simp [Memory.storer, hn]
  reference_remove := by
    intro s m s' h n
    cases h
    by_cases hn : n = m
    · simp [Memory.storer, hn]
    · simp [Memory.storer, hn]

theorem Commit_reference_again : ∃ base', Commit branchesOnly References.lister [branch "b"]
        (stage References.lister ⟨oneBranch (branchAt "a" "11"), noReferences, []⟩
          [.remove (branch "a"), .set (branchAt "b" "33"), .set (branchAt "a" "22"), .remove (branch "b")]) =
        .ok base' ∧ branchesOnly.reference base' (branch "a") = .ok (branchAt "a" "22") :=
  ⟨_, rfl, Commit_reference branchesOnly References.lister _ _ noReferences
    [.remove (branch "a"), .set (branchAt "b" "33"), .set (branchAt "a" "22"), .remove (branch "b")] [branch "b"]
    (fun n => by rw [show (stage References.lister _ _).deleted = [branch "b"] by decide +kernel]) rfl (branch "a")⟩

end GoGit.Transactional
