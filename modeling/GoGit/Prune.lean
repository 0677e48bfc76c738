import GoGit.Remote

/-! A reference of the destination side is pruned if the source side has no counterpart of it. Both kinds of pruning
exchange the sides of the refspec, and with them the place of a `+`. -/
namespace GoGit.Remote

open RefSpec ReceivePack List

variable {s : RefSpec} {x y : Bytes} {n : ReferenceName}
  {sources : List Reference}

def dstSide (s : RefSpec) : Bytes := s.drop (s.idxOf refSpecSeparator + 1)

/-- A name of the destination side without a counterpart among the names of the source side. -/
def Stale (s : RefSpec) (sources : List Reference) (n : ReferenceName) : Prop :=
  ∃ m, n = Wildcard.fill refSpecWildcard (dstSide s) m ∧
    ∀ ref ∈ sources, ref.name ≠ Wildcard.fill refSpecWildcard s.Src m

/-- Push deletes exactly the remote references to objects that are stale. -/
def PrunesOnPush (s : RefSpec) (localRefs remoteRefs : List Reference) : Prop :=
  ∀ c, c ∈ deleteReferences s remoteRefs (refsDict localRefs) [] true ↔
    ∃ ref ∈ remoteRefs, ∃ h, ref.target = .hash h ∧ c = ⟨ref.name, h, .zeroHash⟩ ∧ Stale s localRefs ref.name

def PrunesOnFetch {σ : Type} (S : ReferenceStorer σ) (s : RefSpec) (localRefs remoteRefs : List Reference)
    (st : σ) : Prop :=
  ∀ n, ((∃ ref ∈ localRefs, ref.name = n ∧ Stale s remoteRefs n) →
      S.reference (pruneRemotes S [s] localRefs remoteRefs st).1 n = none) ∧
    ((¬ ∃ ref ∈ localRefs, ref.name = n ∧ Stale s remoteRefs n) →
      S.reference (pruneRemotes S [s] localRefs remoteRefs st).1 n = S.reference st n)

variable {refs : List Reference}

lemma lookupRef_eq_none_iff : lookupRef refs n = none ↔ ∀ ref ∈ refs, ref.name ≠ n := by
  simp [lookupRef]

lemma refsDict_eq_none_iff : refsDict refs n = none ↔ ∀ ref ∈ refs, ref.name ≠ n := by
  simp [refsDict, lookupRef_eq_none_iff]

/-- The exchanged refspec matches a name, and its destination is not among some names. -/
def Dropped (s : RefSpec) (sources : List Reference) (n : ReferenceName) : Prop :=
  s.Reverse.Match n = true ∧ ∀ ref ∈ sources, ref.name ≠ s.Reverse.Dst n

lemma mem_deleteReferences {localRefs remoteRefs : List Reference} {cmds : List Command} {c : Command} :
    c ∈ deleteReferences s remoteRefs (refsDict localRefs) cmds true ↔ c ∈ cmds ∨
      ∃ ref ∈ remoteRefs, ∃ h, ref.target = .hash h ∧ c = ⟨ref.name, h, .zeroHash⟩ ∧ Dropped s localRefs ref.name := by
  induction remoteRefs generalizing cmds with
  | nil => simp [deleteReferences]
  | cons ref remoteRefs ih =>
    rw [deleteReferences, foldl_cons, ← deleteReferences, ih]
    simp only [mem_cons, exists_eq_or_imp, ← or_assoc]
    refine or_congr_left ?_
    cases htarget : ref.target with
    | symbolic target => simp [deleteReference, htarget]
    | hash h =>
      have hkept : (!s.Reverse.Match ref.name || (refsDict localRefs (s.Reverse.Dst ref.name)).isSome) = true ↔
          ¬ Dropped s localRefs ref.name := by
        rw [Dropped, ← refsDict_eq_none_iff]
        cases s.Reverse.Match ref.name <;> cases refsDict localRefs (s.Reverse.Dst ref.name) <;> simp
      by_cases hdrop : Dropped s localRefs ref.name
      · have hnot := mt hkept.mp (not_not.mpr hdrop)
        simp only [deleteReference, htarget, if_true, hnot, ReferenceTarget.hash.injEq, hdrop]
        simp
      · simp [deleteReference, htarget, hkept.mpr hdrop, hdrop]

lemma reference_pruneRemotes {σ : Type} (S : ReferenceStorer σ) (localRefs remoteRefs : List Reference) (st : σ) :
    ((∃ ref ∈ localRefs, ref.name = n ∧ Dropped s remoteRefs n) →
      S.reference (pruneRemotes S [s] localRefs remoteRefs st).1 n = none) ∧
    ((¬ ∃ ref ∈ localRefs, ref.name = n ∧ Dropped s remoteRefs n) →
      S.reference (pruneRemotes S [s] localRefs remoteRefs st).1 n = S.reference st n) := by
  classical
  -- once removed, a reference stays away
  suffices hfold : ∀ st : σ × Bool, S.reference (localRefs.foldl (fun acc ref =>
      if s.Reverse.Match ref.name ∧ lookupRef remoteRefs (s.Reverse.Dst ref.name) = none then
        (S.removeReference acc.1 ref.name, true)
      else acc) st).1 n =
      if (∃ ref ∈ localRefs, ref.name = n ∧ Dropped s remoteRefs n) then none else S.reference st.1 n by
    exact ⟨fun h => (hfold (st, false)).trans (if_pos h), fun h => (hfold (st, false)).trans (if_neg h)⟩
  induction localRefs with
  | nil => simp
  | cons ref localRefs ih =>
    intro st
    rw [foldl_cons]
    simp only [mem_cons, exists_eq_or_imp]
    have hdropped : (s.Reverse.Match ref.name = true ∧ lookupRef remoteRefs (s.Reverse.Dst ref.name) = none) ↔
        Dropped s remoteRefs ref.name := by
      rw [Dropped, lookupRef_eq_none_iff]
    by_cases hdrop : Dropped s remoteRefs ref.name
    · rw [if_pos (hdropped.mpr hdrop), ih, S.reference_remove]
      by_cases hname : ref.name = n
      · subst hname
        simp [hdrop]
      · simp [hname, Ne.symm hname]
    · rw [if_neg (mt hdropped.mp hdrop), ih]
      have hne : ¬ (ref.name = n ∧ Dropped s remoteRefs n) := by
        rintro ⟨rfl, h⟩
        exact hdrop h
      simp [hne]

lemma dropped_iff (h : Sides s x y) (hy : refSpecSeparator ∉ y) :
    Dropped s sources n ↔ ∃ m, n = Wildcard.fill refSpecWildcard (unforced y) m ∧
      ∀ ref ∈ sources, ref.name ≠ Wildcard.fill refSpecWildcard x m := by
  have hrev := h.reverse hy
  rw [Dropped, hrev.match_iff]
  constructor
  · rintro ⟨⟨m, rfl⟩, hsources⟩
    exact ⟨m, rfl, by rwa [hrev.dst_fill] at hsources⟩
  · rintro ⟨m, rfl, hsources⟩
    exact ⟨⟨m, rfl⟩, by rwa [hrev.dst_fill]⟩

lemma stale_iff (h : Sides s x y) : Stale s sources n ↔ ∃ m, n = Wildcard.fill refSpecWildcard y m ∧
      ∀ ref ∈ sources, ref.name ≠ Wildcard.fill refSpecWildcard (unforced x) m := by
  rw [Stale, dstSide, h.drop, h.src]

lemma dropped_iff_stale (h : Sides s x y) (hy : refSpecSeparator ∉ y) (hx : x.head? ≠ some refSpecForce)
    (hforce : y.head? ≠ some refSpecForce) : Dropped s sources n ↔ Stale s sources n := by
  rw [dropped_iff h hy, stale_iff h, unforced, if_neg hforce, unforced, if_neg hx]

lemma cons_tail_of_head {a : UInt8} {b : Bytes} (h : b.head? = some a) : b = a :: b.tail := by
  cases b with
  | nil => exact nomatch h
  | cons c b =>
    cases h
    rfl

lemma exists_dropped_of_forced_dst (h : Sides s x y) (hy : refSpecSeparator ∉ y)
    (hforce : y.head? = some refSpecForce) : ∃ n, Dropped s [] n ∧ ¬ Stale s [] n := by
  have hcons := cons_tail_of_head hforce
  refine ⟨Wildcard.fill refSpecWildcard (unforced y) [], ?_, fun hstale => ?_⟩
  · exact (dropped_iff h hy).mpr ⟨[], rfl, fun _ hmem => absurd hmem not_mem_nil⟩
  · obtain ⟨m, hm, -⟩ := (stale_iff h).mp hstale
    rw [unforced, if_pos hforce] at hm
    rw [hcons, tail_cons, Wildcard.fill_cons_of_ne (by decide)] at hm
    -- with the mark there is no room for the shorter name
    have hle := @Wildcard.length_fill_nil_le _ _ refSpecWildcard y.tail m
    have hlen := congrArg List.length hm
    rw [length_cons] at hlen
    omega

lemma exists_dropped_of_forced (h : Sides s x y) (hy : refSpecSeparator ∉ y)
    (hforce : x.head? = some refSpecForce) (hdst : y.head? ≠ some refSpecForce) :
    ∃ n sources, Dropped s sources n ∧ ¬ Stale s sources n := by
  have hcons := cons_tail_of_head hforce
  let counterpart : Reference := ⟨Wildcard.fill refSpecWildcard (unforced x) [], .hash .zeroHash⟩
  refine ⟨Wildcard.fill refSpecWildcard y [], [counterpart], ?_, fun hstale => ?_⟩
  · refine (dropped_iff h hy).mpr ⟨[], by rw [unforced, if_neg hdst], fun ref hmem => ?_⟩
    obtain rfl := mem_singleton.mp hmem
    intro heq
    have hlen := congrArg List.length heq
    change (Wildcard.fill refSpecWildcard (unforced x) []).length = _ at hlen
    rw [unforced, if_pos hforce] at hlen
    rw [hcons, tail_cons, Wildcard.fill_cons_of_ne (by decide), length_cons] at hlen
    omega
  · obtain ⟨m, hm, hsources⟩ := (stale_iff h).mp hstale
    refine hsources counterpart mem_cons_self ?_
    change Wildcard.fill refSpecWildcard (unforced x) [] = _
    by_cases hw : refSpecWildcard ∈ y
    · rw [Wildcard.fill_inj hw hm]
    · have hx : refSpecWildcard ∉ unforced x := fun hx => hw (h.wildcard.mp (wildcard_mem_unforced.mp hx))
      rw [Wildcard.fill_of_not_mem hx, Wildcard.fill_of_not_mem hx]

/-- Pruning is exact for any references if neither the refspec nor its destination side starts with `+`, and
only then. -/
theorem prune_exact_iff (hvalid : s.Validate = .ok ()) :
    ((∀ localRefs remoteRefs, PrunesOnPush s localRefs remoteRefs) ∧
      ∀ {σ : Type} (S : ReferenceStorer σ) localRefs remoteRefs st, PrunesOnFetch S s localRefs remoteRefs st) ↔
    s.head? ≠ some refSpecForce ∧ (dstSide s).head? ≠ some refSpecForce := by
  obtain ⟨x, y, h, hy⟩ := sides_of_validate hvalid
  have hhead : s.head? = some refSpecForce ↔ x.head? = some refSpecForce := by
    rw [← h.isForceUpdate, IsForceUpdate, decide_eq_true_eq]
  rw [dstSide, h.drop, ne_eq, hhead]
  constructor
  · rintro ⟨hpush, -⟩
    -- a name that is dropped but not stale is deleted from the remote
    have hnone : ∀ n sources, Dropped s sources n → Stale s sources n := by
      intro n sources hdropped
      have hmem : (⟨n, .zeroHash, .zeroHash⟩ : Command) ∈
          deleteReferences s [⟨n, .hash .zeroHash⟩] (refsDict sources) [] true :=
        mem_deleteReferences.mpr (.inr ⟨_, mem_cons_self, _, rfl, rfl, hdropped⟩)
      obtain ⟨ref, href, _, _, -, hstale⟩ := (hpush sources _ _).mp hmem
      obtain rfl := mem_singleton.mp href
      exact hstale
    have hdst : y.head? ≠ some refSpecForce := by
      intro hforce
      obtain ⟨n, hdropped, hstale⟩ := exists_dropped_of_forced_dst h hy hforce
      exact hstale (hnone n [] hdropped)
    refine ⟨fun hforce => ?_, hdst⟩
    obtain ⟨n, sources, hdropped, hstale⟩ := exists_dropped_of_forced h hy hforce hdst
    exact hstale (hnone n sources hdropped)
  · rintro ⟨hx, hforce⟩
    have heq {n : ReferenceName} {sources : List Reference} : Dropped s sources n ↔ Stale s sources n :=
      dropped_iff_stale h hy hx hforce
    refine ⟨fun localRefs remoteRefs c => ?_, fun S localRefs remoteRefs st n => ?_⟩
    · simp only [mem_deleteReferences, not_mem_nil, false_or, heq]
    · simp only [← heq]
      exact reference_pruneRemotes S localRefs remoteRefs st

theorem prune_exact_heads : RefSpec.Validate (textBytes "refs/heads/*:refs/heads/*") = .ok () ∧
      ∀ localRefs remoteRefs, PrunesOnPush (textBytes "refs/heads/*:refs/heads/*") localRefs remoteRefs :=
  ⟨by decide +kernel, ((prune_exact_iff (by decide +kernel)).mpr (by decide +kernel)).1⟩

def forcedFetch : RefSpec := textBytes "+refs/heads/*:refs/remotes/origin/*"

def forcedPush : RefSpec := textBytes "+refs/heads/*:refs/heads/*"

lemma not_stale_fill {ref : Reference} {m : Bytes} (hw : refSpecWildcard ∈ dstSide s) (href : ref ∈ sources)
    (hname : ref.name = Wildcard.fill refSpecWildcard s.Src m) :
    ¬ Stale s sources (Wildcard.fill refSpecWildcard (dstSide s) m) := by
  rintro ⟨m', hm, hsources⟩
  rw [Wildcard.fill_inj hw hm] at hname
  exact hsources ref href hname

theorem not_prunes_forced : forcedPush.Validate = .ok () ∧ forcedFetch.Validate = .ok () ∧
    ¬ PrunesOnPush forcedPush [branchAt "main" "11"] [branchAt "main" "11"] ∧
    ¬ PrunesOnFetch Memory.storer forcedFetch [⟨textBytes "refs/remotes/origin/main", .hash .zeroHash⟩]
      [branchAt "main" "11"] (oneBranch ⟨textBytes "refs/remotes/origin/main", .hash .zeroHash⟩) := by
  refine ⟨by decide +kernel, by decide +kernel, fun h => ?_, fun h => ?_⟩
  · have hmem : (⟨branch "main", .fromHex (textBytes "11"), .zeroHash⟩ : Command) ∈
        deleteReferences forcedPush [branchAt "main" "11"] (refsDict [branchAt "main" "11"]) [] true := by
      decide +kernel
    obtain ⟨ref, href, _, -, -, hstale⟩ := (h _).mp hmem
    obtain rfl := mem_singleton.mp href
    have hfill : (branchAt "main" "11").name =
        Wildcard.fill refSpecWildcard (dstSide forcedPush) (textBytes "main") := by
      decide +kernel
    rw [hfill] at hstale
    exact not_stale_fill (by decide +kernel) mem_cons_self (by decide +kernel) hstale
  · have hfill : textBytes "refs/remotes/origin/main" =
        Wildcard.fill refSpecWildcard (dstSide forcedFetch) (textBytes "main") := by
      decide +kernel
    have hkept := (h (textBytes "refs/remotes/origin/main")).2 fun ⟨_, _, _, hstale⟩ => by
      rw [hfill] at hstale
      exact not_stale_fill (by decide +kernel) mem_cons_self (by decide +kernel) hstale
    exact absurd hkept (by decide +kernel)

end GoGit.Remote
