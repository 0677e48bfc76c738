import GoGit.CommitPreorder
import GoGit.IndependentsExact

/-! The iterators over a history differ in what they keep of it, a stack of lists of parents, a stack of commits, a
queue or a heap, and in when they look at the commits seen. What they give out is the same in each case. -/
namespace GoGit

open List

structure CommitPostIterator where
  stack : List Commit
  seen : List ObjectID

def NewCommitPostorderIter (c : Commit) (ignore : List ObjectID) : CommitPostIterator := ⟨[c], ignore⟩

def CommitPostIterator.next (s : Store) (w : CommitPostIterator) :
    Except ObjectError (Option (Commit × CommitPostIterator)) :=
  match w.stack.dropWhile (·.hash ∈ w.seen) with
  | [] => .ok none
  | c :: stack =>
    match appendHashes s (fun _ => false) c.parentHashes [] with
    | .error e => .error e
    | .ok parents => .ok (some (c, ⟨parents.reverse ++ stack, c.hash :: w.seen⟩))

/-- The binary heap of another package, over the list it is kept in: what is pushed stays until it is popped. -/
structure BinaryHeap (α : Type) where
  push : (α → α → ℤ) → List α → α → List α
  pop : (α → α → ℤ) → List α → Option (α × List α)
  push_perm : ∀ cmp l x, (push cmp l x).Perm (x :: l)
  pop_none : ∀ cmp l, pop cmp l = none → l = []
  pop_some : ∀ cmp l x rest, pop cmp l = some (x, rest) → l.Perm (x :: rest)

structure CommitIteratorByCTime where
  seen : List ObjectID
  heap : List Commit

section CTime

variable (H : BinaryHeap Commit) (s : Store)

def byCommitterTime (a b : Commit) : ℤ := if a.committer.when.before b.committer.when then 1 else -1

def NewCommitIterCTime (c : Commit) (ignore : List ObjectID) : CommitIteratorByCTime :=
  ⟨ignore, H.push byCommitterTime [] c⟩

/-- Pops up to the first commit that is not skipped. -/
def popUnseen (skip : Commit → Bool) : ℕ → List Commit → Option (Commit × List Commit)
  | 0, _ => none
  | n + 1, heap =>
    match H.pop byCommitterTime heap with
    | none => none
    | some (c, heap) => if skip c then popUnseen skip n heap else some (c, heap)

def CommitIteratorByCTime.next (seenExternal : List ObjectID) (w : CommitIteratorByCTime) :
    Except ObjectError (Option (Commit × CommitIteratorByCTime)) :=
  match popUnseen H (fun c => c.hash ∈ w.seen ∨ c.hash ∈ seenExternal) w.heap.length w.heap with
  | none => .ok none
  | some (c, heap) =>
    let seen := c.hash :: w.seen
    match appendHashes s (fun h => h ∈ seen ∨ h ∈ seenExternal) c.parentHashes [] with
    | .error e => .error e
    | .ok parents => .ok (some (c, ⟨seen, parents.foldl (H.push byCommitterTime) heap⟩))

end CTime

section Specs

open Relation Search History

variable {s : Store} {ignore : List ObjectID} {start : Commit}

lemma CommitPostIterator.next_advances {w : CommitPostIterator} (hgood : s.Loaded w.stack)
    (hparents : ∀ c ∈ w.stack, ∀ p ∈ c.parentHashes, s.IsCommit p) :
    Advances s (fun w => s.Loaded w.stack) seen (·.stack.map Commit.hash) w (w.next s) := by
  cases hdrop : w.stack.dropWhile (·.hash ∈ w.seen) with
  | nil =>
    have hall : ∀ c ∈ w.stack, c.hash ∈ w.seen := by simpa using hdrop
    simpa [CommitPostIterator.next, hdrop, Advances] using hall
  | cons c rest =>
    obtain ⟨cs, hcs, hvisit⟩ := (picks_dropWhile hdrop).visit (fun _ => false) hgood hparents (by simp) []
    obtain ⟨hgood', hget, htakes⟩ := hvisit (cs.reverse ++ rest) (by simp [or_comm])
    simpa only [CommitPostIterator.next, hdrop, hcs, nil_append] using ⟨hgood', hget, rfl, htakes⟩

variable (H : BinaryHeap Commit)

lemma perm_foldl_push (cs heap : List Commit) : (cs.foldl (H.push byCommitterTime) heap).Perm (cs ++ heap) := by
  induction cs generalizing heap with
  | nil => exact .refl _
  | cons c cs ih => exact (ih _).trans (((H.push_perm _ heap c).append_left cs).trans perm_middle)

lemma popUnseen_spec (seen : List ObjectID) {n : ℕ} {heap : List Commit} (hn : heap.length ≤ n) :
    match popUnseen H (·.hash ∈ seen) n heap with
    | none => ∀ c ∈ heap, c.hash ∈ seen
    | some (c, rest) => Picks seen heap c rest := by
  induction n generalizing heap with
  | zero => simp [popUnseen, length_eq_zero_iff.mp (Nat.le_zero.mp hn)]
  | succ n ih =>
    rw [popUnseen]
    cases hpop : H.pop byCommitterTime heap with
    | none => simp [H.pop_none _ _ hpop]
    | some popped =>
      obtain ⟨c, rest⟩ := popped
      have hperm := H.pop_some _ _ _ _ hpop
      have hmem (d : Commit) : d ∈ heap ↔ d = c ∨ d ∈ rest := hperm.mem_iff.trans mem_cons
      by_cases hskip : c.hash ∈ seen
      · have hrest := @ih rest (by simpa [hperm.length_eq] using hn)
        simp only [hskip, decide_true, if_true]
        cases hnext : popUnseen H (·.hash ∈ seen) n rest with
        | none => simp_all
        | some found =>
          rw [hnext] at hrest
          refine ⟨(hmem _).mpr (.inr hrest.mem), hrest.fresh, fun d hd => (hmem d).mpr (.inr (hrest.subset d hd)), ?_⟩
          intro d hd
          rcases (hmem d).mp hd with rfl | hd
          · exact .inl hskip
          · exact hrest.passed d hd
      · simp only [hskip, decide_false]
        exact ⟨(hmem c).mpr (.inl rfl), hskip, fun d hd => (hmem d).mpr (.inr hd), fun d hd => .inr ((hmem d).mp hd)⟩

lemma CommitIteratorByCTime.next_advances {w : CommitIteratorByCTime} (hgood : s.Loaded w.heap)
    (hparents : ∀ c ∈ w.heap, ∀ p ∈ c.parentHashes, s.IsCommit p) :
    Advances s (fun w => s.Loaded w.heap) seen (·.heap.map Commit.hash) w (w.next H s []) := by
  have hpop := popUnseen_spec H w.seen (le_refl w.heap.length)
  simp only [CommitIteratorByCTime.next, not_mem_nil, or_false]
  cases hnext : popUnseen H (·.hash ∈ w.seen) w.heap.length w.heap with
  | none =>
    rw [hnext] at hpop
    simpa [Advances] using hpop
  | some popped =>
    obtain ⟨c, rest⟩ := popped
    rw [hnext] at hpop
    obtain ⟨cs, hcs, hvisit⟩ := hpop.visit (· ∈ c.hash :: w.seen) hgood hparents (by simp) []
    obtain ⟨hgood', hget, htakes⟩ := hvisit (cs.foldl (H.push byCommitterTime) rest)
      fun d => by simp [(perm_foldl_push H cs rest).mem_iff, or_comm]
    simpa only [hcs, nil_append] using ⟨hgood', hget, rfl, htakes⟩

lemma CommitPreIterator.next_advances {w : CommitPreIterator} (hstart : ∀ c ∈ w.start, s.getCommit c.hash = .ok c)
    (hnames : ∀ h ∈ w.names, s.IsCommit h) :
    Advances s (fun w => ∀ c ∈ w.start, s.getCommit c.hash = .ok c) seen names w (w.next s []) := by
  have hnext := @next_found s [] w hstart
  cases hres : w.next s [] with
  | error e =>
    rw [hres] at hnext
    obtain ⟨h, hh, he⟩ := hnext.exists_mem
    obtain ⟨c, hget, -⟩ := s.getCommit_of_isCommit (hnames h hh)
    cases he.symm.trans hget
  | ok given =>
    rw [hres] at hnext
    cases given with
    | none => simpa [skips, Advances] using hnext
    | some given =>
      obtain ⟨stack, hvisit, hfound⟩ := hnext
      exact ⟨hvisit ▸ by simp [visit], hfound.getCommit, hvisit ▸ rfl, hvisit ▸ hfound.takes⟩

/-- The commits that an iterator gives out, the last one first, and the error it ends with. -/
def Store.commits {ι : Type} (s : Store) (next : ι → Except ObjectError (Option (Commit × ι))) (i : ι) :
    List Commit × Option ObjectError :=
  forEachCommit (fun _ => next) (fun c cs => (c :: cs, none)) (s.names.length + 1) i []

/-- Each commit on a path from the start that avoids the ignored commits is given out once, and after one of its
children; no other commit is. -/
structure Traverses (s : Store) (ignore : List ObjectID) (start : Commit)
    (result : List Commit × Option ObjectError) : Prop where
  ended : result.2 = none
  nodup : result.1.Nodup
  mem_iff : ∀ c, c ∈ result.1 ↔ s.getCommit c.hash = .ok c ∧ c.hash ∉ ignore ∧
    ReflTransGen (s.ParentUnless {h | h ∈ ignore}) start.hash c.hash
  child : ∀ c earlier, c :: earlier <:+ result.1 → c = start ∨ ∃ d ∈ earlier, c.hash ∈ d.parentHashes

lemma commits_traverses {ι : Type} {next : ι → Except ObjectError (Option (Commit × ι))} {good : ι → Prop}
    {seen pending : ι → List ObjectID} {i : ι} (hget : s.getCommit start.hash = .ok start)
    (hstep : ∀ i, good i → (∀ h ∈ pending i, s.Ancestor start.hash h) → Advances s good seen pending i (next i))
    (hgood : good i) (hseen : seen i = ignore) (hpending : pending i = [start.hash]) :
    Traverses s ignore start (s.commits next i) := by
  have hinj {c d : Commit} (hc : s.getCommit c.hash = .ok c) (hd : s.getCommit d.hash = .ok d)
      (h : c.hash = d.hash) : c = d := Except.ok.inj (hc.symm.trans ((congrArg s.getCommit h).trans hd))
  refine @forEachCommit_run _ _ _ _ (fun i (cs : List Commit) => good i ∧ seen i = cs.map Commit.hash ++ ignore ∧
    s.Loaded cs ∧ Explores (s.ParentUnless {h | h ∈ ignore}) ignore start.hash
      (cs.map Commit.hash) (pending i)) (Traverses s ignore start) (fun i => s.unseen (seen i)) ?_ _ _ _
    ⟨hgood, hseen, nofun, hpending ▸ Explores.start fun a ha b hab => hab.2 ha⟩
    (Nat.lt_succ_of_le ((s.unseen_le _).trans s.unseen_nil_le))
  rintro i cs ⟨hi, hseen, hcs, hexplores⟩
  have hspec := hstep i hi fun h hh => Store.ancestor_of_unless (hexplores.reached_pending hh)
  cases hnext : next i with
  | error e =>
    rw [hnext] at hspec
    exact hspec.elim
  | ok given =>
    rw [hnext] at hspec
    cases given with
    | none =>
      refine ⟨rfl, hexplores.nodup.of_map, fun c => ?_, fun c earlier hsuffix => ?_⟩
      · rw [← hexplores.mem_iff (hseen ▸ hspec), mem_map]
        refine ⟨fun hc => ⟨hcs c hc, c, hc, rfl⟩, fun ⟨hc, d, hd, heq⟩ => ?_⟩
        exact hinj (hcs d hd) hc heq ▸ hd
      · have hc := hcs c (hsuffix.subset (.head _))
        rcases hexplores.traced _ _ (hsuffix.map Commit.hash) with heq | ⟨h, hh, hp⟩
        · exact .inl (hinj hc hget heq)
        · obtain ⟨d, hd, rfl⟩ := mem_map.mp hh
          exact .inr ⟨d, hd, (s.parent_iff (hcs d (hsuffix.subset (.tail _ hd)))).mp hp.1⟩
    | some given =>
      obtain ⟨hgood, hc, hseen', htakes⟩ := hspec
      obtain ⟨c₀, hobject, -⟩ := Store.object_of_getCommit hc
      have hnew : given.1.hash ∉ ignore := fun hh => htakes.fresh (hseen ▸ mem_append_right _ hh)
      refine ⟨hseen' ▸ s.unseen_cons_lt (by simp [hobject]) htakes.fresh, hgood, by simp [hseen', hseen],
        forall_mem_cons.mpr ⟨hc, hcs⟩, hexplores.step (hseen ▸ htakes) fun p => ?_⟩
      exact (and_iff_left hnew).trans (s.parent_iff hc)

/-- In a history without missing commits the four iterators give out the same commits, whatever the heap is. -/
theorem iterators_traverse (H : BinaryHeap Commit) (hstart : s.getCommit start.hash = .ok start)
    (hhist : ∀ h, s.Ancestor start.hash h → s.IsCommit h) (ignore : List ObjectID) :
    Traverses s ignore start (s.commits (·.next s []) (NewCommitPreorderIter start ignore)) ∧
      Traverses s ignore start (s.commits (·.next s) (NewCommitPostorderIter start ignore)) ∧
      Traverses s ignore start (s.commits (·.next s []) (NewCommitIterBSF start ignore)) ∧
      Traverses s ignore start (s.commits (·.next H s []) (NewCommitIterCTime H start ignore)) := by
  have hone : s.Loaded [start] := by simpa [Store.Loaded] using hstart
  have hheap : H.push byCommitterTime [] start = [start] := perm_singleton.mp (H.push_perm _ _ _)
  refine ⟨commits_traverses hstart (fun w hw hh => w.next_advances hw fun h hmem => hhist h (hh h hmem)) ?_ rfl rfl,
    commits_traverses hstart (fun w hw hh => w.next_advances hw (parents_of_history hhist hw hh)) hone rfl rfl,
    commits_traverses hstart (fun w hw hh => w.next_advances hw (parents_of_history hhist hw hh)) hone rfl rfl,
    commits_traverses hstart (fun w hw hh => w.next_advances H hw (parents_of_history hhist hw hh)) ?_ rfl ?_⟩
  · rintro c ⟨⟩
    exact hstart
  · simpa [NewCommitIterCTime, hheap] using hone
  · simp [NewCommitIterCTime, hheap]

/-- A heap that does not look at the order. -/
def listHeap : BinaryHeap Commit where
  push _ l x := x :: l
  pop _ l := l.head?.map (·, l.tail)
  push_perm _ _ _ := .refl _
  pop_none _ l h := by simpa using h
  pop_some _ l x rest h := by cases l <;> simp_all

theorem iterators_traverse_crissCross : Traverses (.ofCommits crissCross) [.short 2] (crissCommit 4 5 [2, 3])
    ((Store.ofCommits crissCross).commits (·.next (.ofCommits crissCross))
      (NewCommitPostorderIter (crissCommit 4 5 [2, 3]) [.short 2])) :=
  (iterators_traverse listHeap (by decide) (crissCross_history _ (by decide)) [.short 2]).2.1

end Specs

end GoGit
