import GoGit.RevList

/-! All walks share one table of names that have been seen. Between two steps of a walk an object in it names only
objects in it and objects that the walk still has before it; when the walk ends nothing is before it and the table is
closed. -/
namespace GoGit.RevList

open Search List

variable {s : Store} {root h : ObjectID} {ignore : List ObjectID} {w w' w'' : Walk} {P : Set ObjectID}

section Grows

def Walk.found (w : Walk) : Set ObjectID := {h | h ∈ w.seen}

lemma Walk.found_add : (w.add h).found = insert h w.found := by
  unfold Walk.add
  split_ifs with hs
  · have hmem : h ∈ w.found := hs
    rw [Set.insert_eq_of_mem hmem]
  · ext k
    simp [Walk.found]

structure Walk.Collects (ignore : List ObjectID) (w : Walk) : Prop where
  nodup : w.result.Nodup
  mem_seen : ∀ h, h ∈ w.seen ↔ h ∈ ignore ∨ h ∈ w.result
  apart : ∀ h ∈ w.result, h ∉ ignore

lemma Walk.Collects.add (hw : w.Collects ignore) : (w.add h).Collects ignore := by
  unfold Walk.add
  split_ifs with hs
  · exact hw
  · have hnot : h ∉ ignore ∧ h ∉ w.result := not_or.mp fun hor => hs ((hw.mem_seen h).mpr hor)
    refine ⟨nodup_cons.mpr ⟨hnot.2, hw.nodup⟩, fun k => ?_, fun k hk => ?_⟩
    · simp only [mem_cons, hw.mem_seen]
      tauto
    · rcases mem_cons.mp hk with rfl | hk
      · exact hnot.1
      · exact hw.apart k hk

structure Grows (s : Store) (root : ObjectID) (ignore : List ObjectID) (w w' : Walk) : Prop where
  seen : w.found ⊆ w'.found
  reach : ∀ h ∈ w'.found, h ∈ w.found ∨ s.Reach root h
  collects : w.Collects ignore → w'.Collects ignore

lemma Grows.refl : Grows s root ignore w w := ⟨subset_rfl, fun _ => .inl, id⟩

lemma Grows.trans (h₁ : Grows s root ignore w w') (h₂ : Grows s root ignore w' w'') : Grows s root ignore w w'' where
  seen := h₁.seen.trans h₂.seen
  reach := fun h hh => (h₂.reach h hh).elim (h₁.reach h) .inr
  collects := h₂.collects ∘ h₁.collects

lemma Grows.of_reach (hg : Grows s h ignore w w') (hr : s.Reach root h) : Grows s root ignore w w' :=
  ⟨hg.seen, fun k hk => (hg.reach k hk).imp id hr.trans, hg.collects⟩

lemma Grows.add (hr : s.Reach root h) : Grows s root ignore w (w.add h) where
  seen := by rw [Walk.found_add]; exact Set.subset_insert _ _
  reach := by
    intro k hk
    rw [Walk.found_add] at hk
    rcases hk with rfl | hk
    · exact .inr hr
    · exact .inl hk
  collects := Walk.Collects.add

end Grows

section Trees

def treeSteps (s : Store) : ℕ := weight (treeSize s) s.names []

lemma walkTree_spec (hsound : ∀ h, s.Reach root h → s.Sound h)
    (hdepth : ∀ n t, s.Nested root n t → n ≤ maxTreeDepth) {fuel : ℕ}
    {stack : List (List TreeEntry)} {base : Bytes} (hopen : Open s root stack)
    (hfuel : remaining stack + weight (treeSize s) s.names w.seen < fuel) :
    ∃ w', walkTree s fuel ⟨stack, base, true⟩ w = (w', none) ∧ Grows s root ignore w w' ∧
      ∀ P, ClosedUpTo s.Refers (P ∪ pendingEntries stack) w.found → ClosedUpTo s.Refers P w'.found := by
  induction fuel generalizing stack base w with
  | zero => omega
  | succ fuel ih =>
    rcases nextEntry_spec hsound hdepth hopen w.seen base with
      ⟨⟨walker, hnext⟩, hall⟩ | ⟨name, e, stack', base', hnext, hgives⟩
    · refine ⟨w, by simp [walkTree, TreeWalker.next, hnext], .refl, fun P hP => hP.mono ?_⟩
      rintro k (hk | hk)
      · exact .inr hk
      · exact .inl (hall k hk)
    · have hsize := hgives.size
      by_cases hsub : e.mode = FileMode.submodule
      · -- nothing is added for the commit of a submodule
        have hdir : e.mode ≠ FileMode.dir := hsub ▸ FileMode.dir_ne_submodule.symm
        rw [if_neg hdir] at hsize
        obtain ⟨w', hw', hgrows, hclosed⟩ := @ih w stack' base' hgives.opened (by omega)
        refine ⟨w', by simpa [walkTree, TreeWalker.next, hnext, hsub] using hw', hgrows, ?_⟩
        refine fun P hP => hclosed P (hP.mono ?_)
        rintro k (hk | hk)
        · exact .inr (.inl hk)
        · rcases hgives.pending k hk with hk | ⟨hno, -⟩ | hk
          · exact .inl hk
          · exact absurd hsub hno
          · exact .inr (.inr hk)
      · have hadd : (w.add e.hash).seen = e.hash :: w.seen := by simp [Walk.add, hgives.unseen]
        have hweight : weight (treeSize s) s.names (e.hash :: w.seen) + treeSize s e.hash ≤
            weight (treeSize s) s.names w.seen :=
          weight_cons_add_le (s.mem_names _ (hgives.object hsub)) hgives.unseen
        have hfuel' : remaining stack' + weight (treeSize s) s.names (w.add e.hash).seen < fuel := by
          rw [hadd]
          split_ifs at hsize <;> omega
        obtain ⟨w', hw', hgrows, hclosed⟩ := @ih (w.add e.hash) stack' base' hgives.opened hfuel'
        refine ⟨w', ?_, (Grows.add (hgives.reach hsub)).trans hgrows, fun P hP => hclosed P ?_⟩
        · simpa [walkTree, TreeWalker.next, hnext, hsub, hgives.unseen] using hw'
        · rw [Walk.found_add]
          refine hP.insert ?_ fun k hk => .inr (.inr (.inr (hgives.refs hsub k hk)))
          rintro k (hk | hk)
          · exact .inr (.inr (.inl hk))
          · rcases hgives.pending k hk with hk | ⟨-, hk⟩ | hk
            · exact .inr (.inl hk)
            · exact .inl hk
            · exact .inr (.inr (.inr hk))

structure Walks (s : Store) (root : ObjectID) (ignore : List ObjectID) (w w' : Walk) : Prop where
  grows : Grows s root ignore w w'
  mem : root ∈ w'.found
  closed : ∀ P, ClosedUpTo s.Refers P w.found → ClosedUpTo s.Refers P w'.found

lemma Walks.of_mem (h : root ∈ w.found) : Walks s root ignore w w := ⟨.refl, h, fun _ => id⟩

lemma iterateCommitTrees_spec (hsound : ∀ h, s.Reach root h → s.Sound h)
    (hdepth : ∀ n t, s.Nested root n t → n ≤ maxTreeDepth) {entries : List TreeEntry}
    (ho : s.object root = some (.tree entries)) {fuel : ℕ} (hfuel : treeSteps s < fuel) :
    ∃ w', iterateCommitTrees s fuel ⟨root, entries⟩ w = (w', none) ∧ Walks s root ignore w w' := by
  by_cases hseen : root ∈ w.seen
  · exact ⟨w, by simp [iterateCommitTrees, hseen], .of_mem hseen⟩
  · have hopen : Open s root [entries] := .cons .root ho (fun _ he => he) .nil
    have hadd : (w.add root).seen = root :: w.seen := by simp [Walk.add, hseen]
    have hfuel' : remaining [entries] + weight (treeSize s) s.names (w.add root).seen < fuel := by
      have hroot : weight (treeSize s) s.names (root :: w.seen) + treeSize s root ≤
          weight (treeSize s) s.names w.seen :=
        weight_cons_add_le (s.mem_names root (by simp [ho])) hseen
      have hall : weight (treeSize s) s.names w.seen ≤ treeSteps s :=
        weight_anti fun _ hb => absurd hb not_mem_nil
      have hsize : treeSize s root = entries.length := by simp [treeSize, ho]
      have hremaining : remaining [entries] = entries.length := by simp [remaining]
      rw [hadd]
      omega
    obtain ⟨w', hw', hgrows, hclosed⟩ := @walkTree_spec s root ignore (w.add root) hsound hdepth
      fuel [entries] [] hopen hfuel'
    have hroot : root ∈ (w.add root).found := Walk.found_add ▸ Set.mem_insert _ _
    refine ⟨w', ?_, (Grows.add .refl).trans hgrows, hgrows.seen hroot, fun P hP => hclosed P ?_⟩
    · simpa [iterateCommitTrees, hseen, NewTreeWalker] using hw'
    · rw [Walk.found_add]
      refine hP.insert (fun k hk => .inr (.inr (.inl hk))) ?_
      rintro k ⟨o, hk, hmem⟩
      cases ho.symm.trans hk
      exact .inr (.inr (.inr (mem_pendingEntries_cons.mpr (.inl (Object.mem_refs_tree.mp hmem)))))

end Trees

variable {fuel : ℕ}

section Commits

lemma closed_add_commit {i i' : CommitPreIterator} {c : Commit}
    (hyields : i.Yields s root w.seen c i') (hP : ClosedUpTo s.Refers (P ∪ i.pending) w.found)
    (hrefs : ∀ k, s.Refers c.hash k → k = c.treeHash ∨ k ∈ c.parentHashes)
    (hseen : ∀ k ∈ i'.seen, k = c.hash ∨ k ∈ w.found) :
    ClosedUpTo s.Refers (insert c.treeHash (P ∪ i'.pending)) (w.add c.hash).found := by
  rw [Walk.found_add]
  refine hP.insert ?_ ?_
  · rintro k (hk | hk)
    · exact .inr (.inr (.inr (.inl hk)))
    · rcases hyields.pending k hk with hk | hk | hk
      · exact (hseen k hk).imp id .inl
      · exact .inr (.inl hk)
      · exact .inr (.inr (.inr (.inr hk)))
  · intro k hk
    rcases hrefs k hk with rfl | hk
    · exact .inr (.inr (.inl rfl))
    · rcases hyields.parents k hk with hk | hk
      · exact (hseen k hk).imp id .inl
      · exact .inr (.inr (.inr (.inr hk)))

lemma walkCommits_spec (hsound : ∀ h, s.Reach root h → s.Sound h)
    (hdepth : ∀ t, s.Reach root t → ∀ n u, s.Nested t n u → n ≤ maxTreeDepth) {steps fuel : ℕ}
    (hsteps : treeSteps s < steps) {i : CommitPreIterator} {pending : List ObjectID}
    (hi : i.Valid s root) (hseen : ∀ h ∈ i.seen, h ∈ w.found) (hfuel : s.unseen i.seen < fuel) :
    ∃ w', walkCommits s steps [] fuel i pending w = (w', none) ∧ Grows s root ignore w w' ∧
      i.pending ⊆ w'.found ∧ ∀ P, ClosedUpTo s.Refers (P ∪ i.pending) w.found → ClosedUpTo s.Refers P w'.found := by
  induction fuel generalizing i pending w with
  | zero => omega
  | succ fuel ih =>
    rcases CommitPreIterator.next_spec hsound hi w.seen with
      ⟨hend, hall⟩ | ⟨c, i', hnext, hyields⟩
    · have hpending : i.pending ⊆ w.found := fun k hk => (hall k hk).elim (hseen k) id
      refine ⟨w, by simp [walkCommits, hend], .refl, hpending, fun P hP => hP.mono ?_⟩
      rintro k (hk | hk)
      · exact .inr hk
      · exact .inl (hpending hk)
    · obtain ⟨hrefs, ⟨entries, htree⟩, -⟩ := (hsound _ hyields.reach).of_getCommit hyields.getCommit
      have hreach : s.Reach root c.treeHash := hyields.reach.tail ((hrefs _).mpr (.inl rfl))
      have hseen' : ∀ k ∈ i'.seen, k = c.hash ∨ k ∈ w.found := by
        intro k hk
        rw [hyields.seen] at hk
        exact (mem_cons.mp hk).imp id (hseen k)
      obtain ⟨w₂, hw₂, hwalks⟩ := @iterateCommitTrees_spec s c.treeHash ignore (w.add c.hash)
        (fun k hk => hsound k (hreach.trans hk)) (hdepth _ hreach) entries htree steps hsteps
      have hin : ∀ k, k = c.hash ∨ k ∈ w.found → k ∈ w₂.found := by
        intro k hk
        exact hwalks.grows.seen (Walk.found_add ▸ hk)
      have hfuel' : s.unseen i'.seen < fuel := by
        obtain ⟨c₀, hc₀, -⟩ := Store.object_of_getCommit hyields.getCommit
        have hlt : s.unseen (c.hash :: i.seen) < s.unseen i.seen :=
          s.unseen_cons_lt (by simp [hc₀]) hyields.unseen.1
        rw [hyields.seen]
        omega
      obtain ⟨w', hw', hgrows, hpending, hclosed⟩ := @ih w₂ i'
        (addPendingParents (pending.filter (· ≠ c.hash)) [] c) hyields.valid
        (fun k hk => hin k (hseen' k hk)) hfuel'
      refine ⟨w', ?_, ?_, ?_, ?_⟩
      · simpa [walkCommits, hnext, hyields.unseen.2, s.getTree_of_object htree, hw₂] using hw'
      · exact (Grows.add hyields.reach).trans ((hwalks.grows.of_reach hreach).trans hgrows)
      · intro k hk
        rcases hyields.pending k hk with hk | hk | hk
        · exact hgrows.seen (hin k (hseen' k hk))
        · exact hgrows.seen (hin k (.inr hk))
        · exact hpending hk
      · intro P hP
        have hadd := closed_add_commit hyields hP (fun k => (hrefs k).mp) hseen'
        refine hclosed P ((hwalks.closed _ hadd).mono ?_)
        rintro k (rfl | hk)
        · exact .inl hwalks.mem
        · exact .inr hk

lemma reachableObjects_spec (hsound : ∀ h, s.Reach root h → s.Sound h)
    (hdepth : ∀ t, s.Reach root t → ∀ n u, s.Nested t n u → n ≤ maxTreeDepth) {c : Commit}
    (hc : s.object root = some (.commit c)) (hignore : ∀ h ∈ ignore, h ∈ w.found)
    (hfuel : treeSteps s + s.unseen [] < fuel) :
    ∃ w', reachableObjects s fuel { c with hash := root } [] ignore w = (w', none) ∧
      Walks s root ignore w w' := by
  set i := NewCommitPreorderIter { c with hash := root } ignore with hi
  have hvalid : i.Valid s root := by
    refine ⟨fun d hd => ?_, by simp [hi, NewCommitPreorderIter]⟩
    obtain rfl : { c with hash := root } = d := by simpa [hi, NewCommitPreorderIter] using hd
    exact ⟨s.getCommit_of_object hc, .refl⟩
  have hunseen := s.unseen_le i.seen
  obtain ⟨w', hw', hgrows, hpending, hclosed⟩ := @walkCommits_spec s root ignore w hsound hdepth fuel
    fuel (by omega) i (addPendingParents [] [] { c with hash := root }) hvalid hignore (by omega)
  have hroot : root ∈ i.pending := .inl ⟨_, rfl, rfl⟩
  exact ⟨w', hw', hgrows, hpending hroot, fun P hP =>
    hclosed P (hP.mono fun _ hk => .inr (.inl hk))⟩

end Commits

section Objects

lemma processObject_spec {fuel tags : ℕ} (hfuel : treeSteps s + s.unseen [] < fuel)
    (hroot : s.Complete [root]) (hignore : ∀ h ∈ ignore, h ∈ w.found) (htags : s.unseen w.seen < tags) :
    ∃ w', processObject s [] ignore fuel tags root w = (w', none) ∧ Walks s root ignore w w' := by
  induction tags generalizing root w with
  | zero => omega
  | succ tags ih =>
    have hsound := hroot.sound root (.head _)
    have hdepth := hroot.depth root (.head _)
    by_cases hseen : root ∈ w.seen
    · exact ⟨w, by simp [processObject, hseen], .of_mem hseen⟩
    have hadd : root ∈ (w.add root).found := Walk.found_add ▸ Set.mem_insert _ _
    have hstep : ∀ o, s.object root = some o → s.encodedObject .any root = .ok o :=
      fun o ho => Store.encodedObject_eq_ok_iff.mpr ⟨ho, .inl rfl⟩
    obtain ⟨o, ho, htyped⟩ := hsound root .refl
    cases o with
    | commit c =>
      obtain ⟨w', hw', hwalks⟩ := reachableObjects_spec hsound hdepth ho hignore hfuel
      exact ⟨w', by simpa [processObject, hseen, hstep _ ho, Store.decodeObject] using hw', hwalks⟩
    | tree entries =>
      obtain ⟨w', hw', hwalks⟩ := @iterateCommitTrees_spec s root ignore w hsound
        (hdepth root .refl) entries ho fuel (by omega)
      exact ⟨w', by simpa [processObject, hseen, hstep _ ho, Store.decodeObject] using hw', hwalks⟩
    | blob =>
      refine ⟨w.add root, by simp [processObject, hseen, hstep _ ho, Store.decodeObject],
        Grows.add .refl, hadd, fun P hP => ?_⟩
      rw [Walk.found_add]
      refine hP.insert (fun k hk => .inr (.inr hk)) fun k ⟨o, hk, hmem⟩ => ?_
      cases ho.symm.trans hk
      exact absurd hmem not_mem_nil
    | corrupt t => exact htyped.elim
    | tag target =>
      have hreach : s.Reach root target := .single ⟨_, ho, .head _⟩
      have htarget : s.Complete [target] := hroot.of_reach (.head _) hreach
      have hlt : s.unseen (root :: w.seen) < s.unseen w.seen := s.unseen_cons_lt (by simp [ho]) hseen
      have hseen' : (w.add root).seen = root :: w.seen := by simp [Walk.add, hseen]
      have hgrows : Grows s root ignore w (w.add root) := Grows.add .refl
      obtain ⟨w', hw', hwalks⟩ := ih htarget (fun k hk => hgrows.seen (hignore k hk)) (by rw [hseen']; omega)
      refine ⟨w', by simpa [processObject, hseen, hstep _ ho, Store.decodeObject] using hw',
        hgrows.trans (hwalks.grows.of_reach hreach), hwalks.grows.seen hadd, fun P hP => ?_⟩
      have hopen : ClosedUpTo s.Refers (insert target P) (w.add root).found := by
        rw [Walk.found_add]
        refine hP.insert (fun k hk => .inr (.inr (.inr hk))) fun k ⟨o, hk, hmem⟩ => ?_
        cases ho.symm.trans hk
        exact .inr (.inr (.inl (mem_singleton.mp hmem)))
      refine (hwalks.closed _ hopen).mono ?_
      rintro k (rfl | hk)
      · exact .inl hwalks.mem
      · exact .inr hk

variable {objs : List ObjectID}

lemma processObjects_spec (hfuel : treeSteps s + s.unseen [] < fuel) (hobjs : s.Complete objs) (allow : Bool)
    (hw : w.Collects ignore) (hclosed : ClosedUpTo s.Refers ∅ w.found) :
    ∃ w', processObjects s [] ignore allow fuel objs w = (w', none) ∧ w'.Collects ignore ∧
      ClosedUpTo s.Refers ∅ w'.found ∧ w.found ⊆ w'.found ∧ (∀ o ∈ objs, o ∈ w'.found) ∧
      ∀ h ∈ w'.found, h ∈ w.found ∨ ∃ o ∈ objs, s.Reach o h := by
  induction objs generalizing w with
  | nil => exact ⟨w, rfl, hw, hclosed, subset_rfl, by simp, fun _ => .inl⟩
  | cons o objs ih =>
    have hignore : ∀ h ∈ ignore, h ∈ w.found := fun h hh => (hw.mem_seen h).mpr (.inl hh)
    have hunseen := s.unseen_le w.seen
    have htags : s.unseen w.seen < fuel := by omega
    obtain ⟨w₁, hw₁, hwalks⟩ :=
      processObject_spec hfuel (hobjs.of_reach mem_cons_self .refl) hignore htags
    have hrest : s.Complete objs :=
      ⟨fun o ho => hobjs.sound o (.tail _ ho), fun o ho => hobjs.depth o (.tail _ ho)⟩
    obtain ⟨w₂, hw₂, hcollects, hclosed₂, hsub, hall, hreach⟩ := ih hrest
      (hwalks.grows.collects hw) (hwalks.closed ∅ hclosed)
    refine ⟨w₂, by simpa [processObjects, hw₁] using hw₂, hcollects, hclosed₂, hwalks.grows.seen.trans hsub, ?_, ?_⟩
    · simpa using ⟨hsub hwalks.mem, hall⟩
    · intro h hh
      rcases hreach h hh with hh | ⟨o', ho', hr⟩
      · exact (hwalks.grows.reach h hh).imp id fun hr => ⟨o, .head _, hr⟩
      · exact .inr ⟨o', .tail _ ho', hr⟩

lemma objects_spec {order : List ObjectID → List ObjectID} (horder : ∀ l, (order l).Perm l)
    (hfuel : treeSteps s + s.unseen [] < fuel)
    (hobjs : s.Complete objs) (allow : Bool) (hclosed : ClosedUpTo s.Refers ∅ {h | h ∈ ignore}) :
    ∃ result, objects s order fuel objs ignore allow = .ok result ∧ result.Nodup ∧
      ∀ h, h ∈ result ↔ (∃ o ∈ objs, s.Reach o h) ∧ h ∉ ignore := by
  have hstart : (⟨ignore, []⟩ : Walk).Collects ignore := ⟨.nil, by simp, by simp⟩
  obtain ⟨w, hw, hcollects, hclosed', -, hall, hreach⟩ :=
    processObjects_spec hfuel hobjs allow hstart hclosed
  have hperm := horder w.result
  refine ⟨order w.result, by simp [objects, hw], hperm.nodup_iff.mpr hcollects.nodup, fun h => ?_⟩
  rw [hperm.mem_iff]
  constructor
  · intro hh
    have hnot := hcollects.apart h hh
    exact ⟨(hreach h ((hcollects.mem_seen h).mpr (.inr hh))).resolve_left hnot, hnot⟩
  · rintro ⟨⟨o, ho, hr⟩, hnot⟩
    have hfound := hclosed'.reach (hall o ho) hr
    exact ((hcollects.mem_seen h).mp hfound).resolve_left hnot

/-- With enough steps the listing succeeds and gives, each once, the objects reachable from `objs`
and not from `ignore`. -/
theorem Objects_exact {order : List ObjectID → List ObjectID} (horder : ∀ l, (order l).Perm l)
    {objs : List ObjectID} (hobjs : s.Complete objs) (hignore : s.Complete ignore) :
    ∃ enough, ∀ fuel, enough ≤ fuel → ∃ result, Objects s order fuel objs ignore = .ok result ∧
      result.Nodup ∧ ∀ h, h ∈ result ↔ (∃ o ∈ objs, s.Reach o h) ∧ ¬ ∃ o ∈ ignore, s.Reach o h := by
  refine ⟨treeSteps s + s.unseen [] + 1, fun fuel hfuel => ?_⟩
  have hnil : ClosedUpTo s.Refers ∅ {h | h ∈ ([] : List ObjectID)} :=
    fun h hh => absurd hh not_mem_nil
  obtain ⟨all, hall, -, hmem⟩ := objects_spec horder hfuel hignore true hnil
  have hclosed : ClosedUpTo s.Refers ∅ {h | h ∈ all} := by
    intro h hh k hk
    obtain ⟨⟨o, ho, hr⟩, -⟩ := (hmem h).mp hh
    exact .inl ((hmem k).mpr ⟨⟨o, ho, hr.tail hk⟩, not_mem_nil⟩)
  obtain ⟨result, hresult, hnodup, hiff⟩ := objects_spec horder hfuel hobjs false hclosed
  refine ⟨result, by simp [Objects, ObjectsWithStorageForIgnores, hall, hresult], hnodup, ?_⟩
  intro h
  rw [hiff, hmem]
  simp

/-- A commit on top of another, with a directory and a submodule, under a tag of a tag. -/
def taggedObjects : List (ObjectID × Object) :=
    [(.short 1, .blob), (.short 2, .blob), (.short 3, .tree [⟨[97], FileMode.regular, .short 1⟩]),
      (.short 4, .tree [⟨[97], FileMode.regular, .short 1⟩, ⟨[98], FileMode.regular, .short 2⟩]),
      (.short 5, .tree [⟨[97], FileMode.regular, .short 1⟩, ⟨[100], FileMode.dir, .short 4⟩,
        ⟨[115], FileMode.submodule, .short 9⟩]),
      (.short 6, .commit { treeHash := .short 3 }),
      (.short 7, .commit { treeHash := .short 5, parentHashes := [.short 6] }),
      (.short 8, .tag (.short 7)), (.short 10, .tag (.short 8))]

def taggedHistory : Store := .ofList taggedObjects

theorem Objects_taggedHistory : Objects taggedHistory id 20 [.short 10] [.short 6] =
        .ok [.short 2, .short 4, .short 5, .short 7, .short 8, .short 10] ∧ ∃ enough, ∀ fuel, enough ≤ fuel →
        ∃ result, Objects taggedHistory id fuel [.short 10] [.short 6] = .ok result ∧ result.Nodup ∧ ∀ h, h ∈ result ↔
            (∃ o ∈ [ObjectID.short 10], taggedHistory.Reach o h) ∧
              ¬ ∃ o ∈ [ObjectID.short 6], taggedHistory.Reach o h := by
  have hclosed : taggedHistory.Closed := by decide
  have hcomplete := hclosed.complete (fun h => if h = .short 5 then 1 else 0)
    (fun h => by split_ifs <;> decide) (by decide)
  refine ⟨by decide +kernel, Objects_exact (fun _ => .rfl) ?_ ?_⟩
  · exact hcomplete.of_reach (by decide) .refl
  · exact hcomplete.of_reach (by decide) .refl

end Objects

end GoGit.RevList
