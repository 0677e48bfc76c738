import GoGit.CommitWalk
import GoGit.DepthFirst
import GoGit.ObjectWalk

namespace GoGit

section FastForward

variable (s : Store)

/-- Whether the old commit is found from the new one on; the parents of the earliest commit of a shallow
history are ignored. -/
def isFastForward (old new : ObjectID) (earliestShallow : Option ObjectID) : Except ObjectError Bool := do
  let c ← s.getCommit new
  let parentsToIgnore ← match earliestShallow with
    | none => pure []
    | some h => Commit.parentHashes <$> s.getCommit h
  match forEachCommit (fun (_ : Bool) (w : CommitPreIterator) => w.next s [])
      (fun c found => if c.hash ≠ old then (found, none) else (true, some .stop))
      (s.names.length + 1) (NewCommitPreorderIter c parentsToIgnore) false with
  | (found, none) => .ok found
  | (_, some e) => .error e

end FastForward

section Specs

open Search

variable {s : Store} {root old new : ObjectID} {ignore : List ObjectID}

lemma Store.getCommit_ne_endless (h : ObjectID) : s.getCommit h ≠ .error .endless := by
  rw [Store.getCommit, Store.encodedObject]
  cases s.object h with
  | none => rintro ⟨⟩
  | some o =>
    cases o with
    | commit | tree | blob | tag => simp [Object.type, Store.decodeCommit]
    | corrupt t => cases t <;> simp [Object.type, Store.decodeCommit]

lemma Store.unseen_nil_le (s : Store) : s.unseen [] ≤ s.names.length := by
  simp [Store.unseen, Search.weight]

namespace CommitPreIterator

variable {w : CommitPreIterator}

variable {stack : List (List ObjectID)} {c : Commit}

lemma names_visit : (w.visit c stack).names = c.parentHashes.filter (· ∉ c.hash :: w.seen) ++ stack.flatten := by
  rw [names, visit]
  cases hp : c.parentHashes with
  | nil => simp
  | cons p parents => simp

lemma mem_names_visit {h : ObjectID} :
    h ∈ (w.visit c stack).names ↔ (h ∈ c.parentHashes ∧ h ∉ c.hash :: w.seen) ∨ h ∈ stack.flatten :=
  mem_stack_visit

lemma Found.takes {c : Commit} {stack : List (List ObjectID)} (hfound : Found s [] w w.names c stack.flatten) :
    Takes {p | p ∈ c.parentHashes} w.seen w.names c.hash (w.visit c stack).names where
  mem := hfound.mem
  fresh := by simpa [skips] using hfound.unseen
  kept := by
    intro h hh
    rcases hfound.passed h hh with hh | hh | hh
    · exact .inr (.inl (by simpa [skips] using hh))
    · exact .inl hh
    · exact .inr (.inr (mem_names_visit.mpr (.inr hh)))
  subset := fun h hh => (mem_names_visit.mp hh).symm.imp (hfound.subset h) And.left
  next := by
    intro p hp
    by_cases hseen : p ∈ c.hash :: w.seen
    · exact (List.mem_cons.mp hseen).imp id .inl
    · exact .inr (.inr (mem_names_visit.mpr (.inl ⟨hp, hseen⟩)))

structure Walks (s : Store) (ignore : List ObjectID) (root : ObjectID) (w : CommitPreIterator) : Prop where
  start : ∀ c ∈ w.start, s.getCommit c.hash = .ok c
  named : ∀ h ∈ w.names, h ∉ ignore
  explores : ∃ found, w.seen = found ++ ignore ∧ Explores s.Parent ignore root found w.names

lemma walks_start (hc : s.getCommit root = .ok c) (hignore : ∀ h ∈ ignore, s.object h = none) :
    Walks s ignore root (NewCommitPreorderIter c ignore) := by
  obtain ⟨c₀, hobject, rfl⟩ := Store.object_of_getCommit hc
  refine ⟨?_, ?_, [], rfl, Explores.start ?_⟩
  · rintro d ⟨⟩
    exact hc
  · intro h hh
    obtain rfl : h = root := by simpa [names, NewCommitPreorderIter] using hh
    intro hh
    cases hobject.symm.trans (hignore h hh)
  · rintro h hh p ⟨d, hd, -⟩
    cases hd.symm.trans (hignore h hh)

lemma Walks.visit (hw : Walks s ignore root w)
    (hfound : Found s [] w w.names c stack.flatten) : Walks s ignore root (w.visit c stack) := by
  obtain ⟨found, hseen, hexplores⟩ := hw.explores
  refine ⟨fun _ h => (nomatch h), fun h hh => ?_, c.hash :: found, congrArg (c.hash :: ·) hseen,
    hexplores.step (hseen ▸ hfound.takes) fun h => s.parent_iff hfound.getCommit⟩
  rcases mem_names_visit.mp hh with ⟨-, hnew⟩ | hh
  · exact fun hh => hnew (.tail _ (hseen ▸ List.mem_append_right _ hh))
  · exact hw.named h (hfound.subset h hh)

lemma Walks.next (hw : Walks s ignore root w) : match w.next s [] with
    | .error e => ∃ h, h ∉ ignore ∧ s.Ancestor root h ∧ s.getCommit h = .error e
    | .ok none => ∀ h, h ∉ ignore → (h ∈ w.seen ↔ s.Ancestor root h)
    | .ok (some (c, w')) => Walks s ignore root w' ∧ w'.seen = c.hash :: w.seen ∧ c.hash ∉ w.seen ∧
        s.object c.hash ≠ none ∧ s.Ancestor root c.hash := by
  obtain ⟨found, hseen, hexplores⟩ := hw.explores
  have hnext := @next_found s [] w hw.start
  cases hres : w.next s [] with
  | error e =>
    rw [hres] at hnext
    obtain ⟨h, hh, he⟩ := hnext.exists_mem
    exact ⟨h, hw.named h hh, hexplores.reached_pending hh, he⟩
  | ok given =>
    rw [hres] at hnext
    cases given with
    | none =>
      intro h hnot
      have hdone : ∀ h ∈ w.names, h ∈ found ++ ignore := by simpa [skips, hseen] using hnext
      simpa [hseen, hnot, Store.Ancestor] using @hexplores.mem_iff _ _ _ _ _ _ h hdone
    | some given =>
      obtain ⟨stack, hvisit, hfound⟩ := hnext
      obtain ⟨c₀, hobject, -⟩ := Store.object_of_getCommit hfound.getCommit
      exact ⟨hvisit ▸ hw.visit hfound, hvisit ▸ rfl, hfound.takes.fresh, by simp [hobject],
        hexplores.reached_pending hfound.mem⟩

end CommitPreIterator

/-- What is known once the search for a commit has ended. -/
def SearchedFor (s : Store) (ignore : List ObjectID) (old new : ObjectID) : Bool × Option ObjectError → Prop
  | (_, some e) => ∃ h, h ∉ ignore ∧ s.Ancestor new h ∧ s.getCommit h = .error e
  | (found, none) => old ∉ ignore → (found = true ↔ s.Ancestor new old)

/-- The search for a commit from another one on. -/
def searchFor (s : Store) (ignore : List ObjectID) (old : ObjectID) (c : Commit) : Bool × Option ObjectError :=
  forEachCommit (fun (_ : Bool) (w : CommitPreIterator) => w.next s [])
    (fun c found => if c.hash ≠ old then (found, none) else (true, some .stop))
    (s.names.length + 1) (NewCommitPreorderIter c ignore) false

lemma searchedFor_searchFor {c : Commit} (hc : s.getCommit new = .ok c) (hignore : ∀ h ∈ ignore, s.object h = none) :
    SearchedFor s ignore old new (searchFor s ignore old c) := by
  -- as long as the search goes on, the old commit has not been given out
  refine @forEachCommit_run _ _ _ _
    (fun w found => CommitPreIterator.Walks s ignore new w ∧ found = false ∧ (old ∈ w.seen → old ∈ ignore))
    (SearchedFor s ignore old new) (fun w => s.unseen w.seen) ?_ _ _ _
    ⟨CommitPreIterator.walks_start hc hignore, rfl, id⟩ ?_
  · rintro w found ⟨hw, rfl, hold⟩
    have hspec := hw.next
    cases hnext : w.next s [] with
    | error e => simpa [hnext, SearchedFor] using hspec
    | ok given =>
      rw [hnext] at hspec
      cases given with
      | none => exact fun hnot => by simpa [← hspec old hnot] using fun hh => hnot (hold hh)
      | some given =>
        obtain ⟨hw', hseen, hfresh, hobject, hreach⟩ := hspec
        refine ⟨?_, ?_⟩
        · rw [hseen]
          exact s.unseen_cons_lt hobject hfresh
        · by_cases hfound : given.1.hash = old
          · simpa [hfound, SearchedFor] using fun _ => hfound ▸ hreach
          · simpa [hfound, hseen, Ne.symm hfound] using ⟨hw', hold⟩
  · exact Nat.lt_succ_of_le ((s.unseen_le _).trans s.unseen_nil_le)

/-- The commits that a search does not look for. -/
def parentsToIgnore (s : Store) : Option ObjectID → Except ObjectError (List ObjectID)
  | none => .ok []
  | some h => Commit.parentHashes <$> s.getCommit h

variable {earliestShallow : Option ObjectID} {c : Commit}

lemma isFastForward_eq (hc : s.getCommit new = .ok c)
    (hparents : parentsToIgnore s earliestShallow = .ok ignore) :
    isFastForward s old new earliestShallow = match searchFor s ignore old c with
      | (found, none) => .ok found
      | (_, some e) => .error e := by
  have hff : isFastForward s old new earliestShallow = (do
      let c ← s.getCommit new
      let ignore ← parentsToIgnore s earliestShallow
      match searchFor s ignore old c with
      | (found, none) => .ok found
      | (_, some e) => .error e) := by cases earliestShallow <;> rfl
  rw [hff, hc, hparents]
  rfl

lemma isFastForward_searched (hc : s.getCommit new = .ok c)
    (hparents : parentsToIgnore s earliestShallow = .ok ignore) (hignore : ∀ h ∈ ignore, s.object h = none) :
    match isFastForward s old new earliestShallow with
    | .error e => ∃ h, h ∉ ignore ∧ s.Ancestor new h ∧ s.getCommit h = .error e
    | .ok found => old ∉ ignore → (found = true ↔ s.Ancestor new old) := by
  have hrun := @searchedFor_searchFor s old new ignore c hc hignore
  rw [isFastForward_eq hc hparents]
  rcases hsearch : searchFor s ignore old c with ⟨found, e⟩
  rw [hsearch] at hrun
  cases e with
  | none => exact hrun
  | some e => exact hrun

open DepthFirst Relation

/-- The parents that a commit names, in their order. -/
def Store.parents (s : Store) (h : ObjectID) : List ObjectID :=
  match s.getCommit h with
  | .ok c => c.parentHashes
  | .error _ => []

lemma Store.mem_parents {h p : ObjectID} : p ∈ s.parents h ↔ s.Parent h p := by
  rw [Store.parents]
  cases hc : s.getCommit h with
  | ok c => exact (s.parent_iff hc).symm
  | error e =>
    refine iff_of_false List.not_mem_nil ?_
    rintro ⟨c, ho, -⟩
    cases hc.symm.trans (s.getCommit_of_object ho)

/-- What the search must read and cannot. -/
def Store.Lacks (s : Store) (ignore : List ObjectID) (h : ObjectID) : Prop := h ∉ ignore ∧ ¬ s.IsCommit h

lemma Store.parents_of_lacks {h : ObjectID} (hh : s.Lacks ignore h) : s.parents h = [] :=
  List.eq_nil_iff_forall_not_mem.mpr fun p hp => by
    obtain ⟨c, hc, -⟩ := mem_parents.mp hp
    exact hh.2 ⟨c, hc⟩

lemma CommitPreIterator.Found.parents {w : CommitPreIterator} {names rest : List ObjectID}
    (hfound : Found s [] w names c rest) : s.parents c.hash = c.parentHashes := by
  rw [Store.parents, hfound.getCommit]

/-- One turn of the search: it fails at a commit that it must read, or it goes on with the first one not seen. -/
lemma CommitPreIterator.Walks.turn {w : CommitPreIterator} (hw : Walks s ignore root w) : match w.next s [] with
    | .error _ => ∃ skipped h rest, w.names = skipped ++ h :: rest ∧ (∀ x ∈ skipped, x ∈ w.seen) ∧ s.Lacks ignore h
    | .ok none => ∀ h ∈ w.names, h ∈ w.seen
    | .ok (some (c, w')) => ∃ skipped rest, w.names = skipped ++ c.hash :: rest ∧ (∀ x ∈ skipped, x ∈ w.seen) ∧
        c.hash ∉ w.seen ∧ ¬ s.Lacks ignore c.hash ∧ w'.seen = c.hash :: w.seen ∧
        w'.names = (s.parents c.hash).filter (· ∉ c.hash :: w.seen) ++ rest := by
  have hnext := @next_found s [] w hw.start
  cases hres : w.next s [] with
  | error e =>
    rw [hres] at hnext
    obtain ⟨skipped, h, rest, hsplit, hskipped, he⟩ := hnext
    refine ⟨skipped, h, rest, hsplit, by simpa [skips] using hskipped, hw.named h (by simp [hsplit]), fun hcommit => ?_⟩
    obtain ⟨c, hc, -⟩ := s.getCommit_of_isCommit hcommit
    cases he.symm.trans hc
  | ok given =>
    rw [hres] at hnext
    cases given with
    | none => simpa [skips] using hnext
    | some given =>
      obtain ⟨stack, hvisit, hfound⟩ := hnext
      obtain ⟨skipped, hsplit, hskipped⟩ := hfound.split
      obtain ⟨c₀, ho, -⟩ := Store.object_of_getCommit hfound.getCommit
      exact ⟨skipped, stack.flatten, hsplit, by simpa [skips] using hskipped, hfound.takes.fresh,
        fun hlacks => hlacks.2 ⟨c₀, ho⟩, hvisit ▸ rfl, by rw [hvisit, names_visit, hfound.parents]⟩

/-- Clear edges lead from one commit to another. -/
abbrev Store.ClearTo (s : Store) (ignore : List ObjectID) : ObjectID → ObjectID → Prop :=
  ReflTransGen (Clear s.parents (s.Lacks ignore))

/-- Clear edges do not lead past what is ignored. -/
lemma clear_unless (hnone : ∀ h ∈ ignore, s.parents h = []) (hold : old ∉ ignore) (hclear : s.ClearTo ignore new old) :
    new ∉ ignore ∧ ReflTransGen (fun a b => Clear s.parents (s.Lacks ignore) a b ∧ b ∉ ignore) new old := by
  induction hclear using ReflTransGen.head_induction_on with
  | refl => exact ⟨hold, .refl⟩
  | head hstep _ ih =>
    refine ⟨fun hin => ?_, ih.2.head ⟨hstep, ih.1⟩⟩
    obtain ⟨first, rest, hparents, -⟩ := hstep
    simp [hnone _ hin] at hparents

/-- The search for a commit ends well exactly if clear edges lead to it: no parent that comes before them has a history
with gaps. -/
lemma searchFor_clear_iff (hc : s.getCommit new = .ok c) (hignore : ∀ h ∈ ignore, s.object h = none)
    (hold : s.IsCommit old) (hcycle : ∀ h, ¬ TransGen s.Parent h h) :
    searchFor s ignore old c = (true, none) ↔ s.ClearTo ignore new old := by
  have hstart := CommitPreIterator.walks_start hc hignore
  have hnames : (NewCommitPreorderIter c ignore).names = [new] := by
    simp [CommitPreIterator.names, NewCommitPreorderIter, Store.hash_of_getCommit hc]
  have hfuel : s.unseen (NewCommitPreorderIter c ignore).seen < s.names.length + 1 :=
    Nat.lt_succ_of_le ((s.unseen_le _).trans s.unseen_nil_le)
  have hnone : ∀ h ∈ ignore, s.parents h = [] := fun h hh => List.eq_nil_iff_forall_not_mem.mpr fun p hp => by
    obtain ⟨d, hd, -⟩ := Store.mem_parents.mp hp
    cases hd.symm.trans (hignore h hh)
  have hpresent : old ∉ ignore := fun hin => by
    obtain ⟨d, hd⟩ := hold
    cases hd.symm.trans (hignore old hin)
  have hedge : ∀ a, ¬ TransGen (fun a b => b ∈ s.parents a) a a := fun a ha =>
    hcycle a (TransGen.mono (fun _ _ => Store.mem_parents.mp) _ _ ha)
  -- what is given out has been reached over clear edges, and as long as the search goes on, clear edges lead from what
  -- is pending to the commit, if any lead there
  refine @forEachCommit_run _ _ _ _
    (fun w found => CommitPreIterator.Walks s ignore new w ∧ found = false ∧
      Traced s.parents (s.Lacks ignore) new w.seen w.names ∧
      (s.ClearTo ignore new old → Awaits s.parents (s.Lacks ignore) old w.seen w.names))
    (fun result => result = (true, none) ↔ s.ClearTo ignore new old)
    (fun w => s.unseen w.seen) ?_ _ _ _ ⟨hstart, rfl, hnames ▸ .start fun y hy => ?_, fun hclear => ?_⟩ hfuel
  · rintro w found ⟨hw, rfl, htraced, hawaits⟩
    have hspec := hw.next
    have hturn := hw.turn
    cases hnext : w.next s [] with
    | error e =>
      rw [hnext] at hturn
      obtain ⟨skipped, h, rest, hsplit, hskipped, hlacks⟩ := hturn
      refine iff_of_false (by simp) fun hclear => ?_
      exact (hsplit ▸ hawaits hclear).not_miss hskipped (fun _ => Store.parents_of_lacks) (fun hl => hl.2 hold) hlacks
    | ok given =>
      rw [hnext] at hspec hturn
      cases given with
      | none =>
        refine iff_of_false (by simp) fun hclear => ?_
        obtain ⟨first, v, rest, hsplit, -, hv, -⟩ := hawaits hclear
        exact hv (hturn v (by simp [hsplit]))
      | some given =>
        obtain ⟨hw', hseen, hfresh, hobject, -⟩ := hspec
        obtain ⟨skipped, rest, hsplit, hskipped, -, hread, -, hnames'⟩ := hturn
        rw [hsplit] at htraced hawaits
        refine ⟨hseen ▸ s.unseen_cons_lt hobject hfresh, ?_⟩
        by_cases hfound : given.1.hash = old
        · simpa [hfound] using hfound ▸ htraced.path_front hskipped
        · have hnext' : Traced s.parents (s.Lacks ignore) new given.2.seen given.2.names ∧
              (s.ClearTo ignore new old → Awaits s.parents (s.Lacks ignore) old given.2.seen given.2.names) := by
            rw [hseen, hnames']
            exact ⟨htraced.step hskipped hfresh (hedge _) hread,
              fun hclear => ((hawaits hclear).step hskipped).resolve_left hfound⟩
          simpa [hfound] using ⟨hw', hnext'⟩
  · exact whole_iff.mpr ⟨fun hlacks => hlacks.1 hy, by simp [hnone y hy]⟩
  · obtain ⟨hnew, hpath⟩ := clear_unless hnone hpresent hclear
    exact hnames ▸ ⟨[], new, [], rfl, by simp, hnew, hpath⟩

lemma isFastForward_clear_iff (hc : s.getCommit new = .ok c)
    (hparents : parentsToIgnore s earliestShallow = .ok ignore) (hignore : ∀ h ∈ ignore, s.object h = none)
    (hold : s.IsCommit old) (hcycle : ∀ h, ¬ TransGen s.Parent h h) :
    isFastForward s old new earliestShallow = .ok true ↔ s.ClearTo ignore new old := by
  rw [← searchFor_clear_iff hc hignore hold hcycle, isFastForward_eq hc hparents]
  obtain ⟨found, e⟩ := searchFor s ignore old c
  cases e <;> simp

/-- A search for an ancestor in a history finds it exactly if there is one, unless the history cannot be
read. -/
lemma isFastForward_spec (s : Store) (old new : ObjectID) : match isFastForward s old new none with
    | .error e => e ≠ .endless
    | .ok found => found = true ↔ s.Ancestor new old := by
  cases hc : s.getCommit new with
  | error e =>
    simp only [isFastForward, hc, error_bind]
    exact fun he => s.getCommit_ne_endless new (he ▸ hc)
  | ok c =>
    have hspec := @isFastForward_searched s old new [] none c hc rfl (by simp)
    cases hff : isFastForward s old new none with
    | error e =>
      rw [hff] at hspec
      obtain ⟨h, -, -, he⟩ := hspec
      exact fun hendless => s.getCommit_ne_endless h (hendless ▸ he)
    | ok found =>
      rw [hff] at hspec
      exact hspec List.not_mem_nil

end Specs

end GoGit
