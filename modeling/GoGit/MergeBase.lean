import GoGit.CommitWalk

/-! The best common ancestors of two commits, and the commits of a list that no other commit of the list reaches. The
sorting function is a parameter: which of two commits with the same date comes first is left open by the library that
sorts. -/
namespace GoGit.History

abbrev SortSlice := (Commit → Commit → Bool) → List Commit → List Commit

def sortByCommitDateDesc (sort : SortSlice) (commits : List Commit) : List Commit :=
  sort (fun a b => a.committer.when.after b.committer.when) commits

def indexOf (commits : List Commit) (target : Commit) : ℤ :=
  match commits.findIdx? (target.hash = ·.hash) with
  | some i => i
  | none => -1

def remove (commits : List Commit) (toDelete : Commit) : List Commit :=
  commits.filter (·.hash ≠ toDelete.hash)

def removeSeen : List ObjectID → List Commit → List Commit
  | _, [] => []
  | seen, c :: commits =>
    if c.hash ∈ seen then removeSeen seen commits
    else c :: removeSeen (c.hash :: seen) commits

def removeDuplicated (commits : List Commit) : List Commit := removeSeen [] commits

structure Elimination where
  candidates : List Commit
  others : List Commit
  seen : List ObjectID
  deriving DecidableEq

/-- The loop over the others ranges over the list as it was before. -/
def Elimination.removeOthers (fromAncestor : Commit) (st : Elimination) : Elimination :=
  st.others.foldl (fun st other =>
    if fromAncestor.hash = other.hash then
      { st with candidates := remove st.candidates other, others := remove st.others other }
    else st) st

def eliminate (fromAncestor : Commit) (st : Elimination) : Elimination × Option ObjectError :=
  let st := st.removeOthers fromAncestor
  if st.candidates.length = 1 then (st, some .stop)
  else ({ st with seen := fromAncestor.hash :: st.seen }, none)

section

variable (s : Store)

def eliminateFrom (fuel : ℕ) (start : Commit) (candidates : List Commit) (seen : List ObjectID) :
    Elimination × Option ObjectError :=
  forEachCommit (fun st w => w.next s (fun _ => true) (fun c => c.hash ∈ st.seen) fuel) eliminate fuel
    (NewFilterCommitIter start) ⟨candidates, remove candidates start, seen⟩

/-- The loop of `Independents`; `steps` is the fuel of each walk. -/
def independentsLoop (steps : ℕ) : ℕ → List Commit → List ObjectID → ℕ → Except ObjectError (List Commit)
  | 0, _, _, _ => .error .endless
  | fuel + 1, candidates, seen, pos =>
    match candidates[pos]? with
    | none => .error .indexOutOfRange
    | some start =>
      match eliminateFrom s steps start candidates seen with
      | (_, some e) => .error e
      | (st, none) =>
        let nextPos := indexOf st.candidates start + 1
        if (st.candidates.length : ℤ) ≤ nextPos then .ok st.candidates
        else independentsLoop steps fuel st.candidates st.seen nextPos.toNat

def Independents (sort : SortSlice) (fuel : ℕ) (commits : List Commit) : Except ObjectError (List Commit) :=
  let candidates := removeDuplicated (sortByCommitDateDesc sort commits)
  if candidates.length < 2 then .ok candidates
  else independentsLoop s fuel fuel candidates [] 0

/-- The names of a commit and its ancestors, or the error `isReachable` if one of them is the
excluded commit. -/
def ancestorsIndex (fuel : ℕ) (excluded starting : Commit) : Except ObjectError (List ObjectID) :=
  if excluded.hash.string = starting.hash.string then .error .isReachable
  else
    match forEachCommit (fun _ w => BfsCommitIterator.next s [] w)
      (fun c history =>
        if c.hash = excluded.hash then (history, some .isReachable) else (c.hash :: history, none))
      fuel (NewCommitIterBSF starting []) [] with
    | (_, some e) => .error e
    | (history, none) => .ok history

/-- The commits of the history of `older` in the index that are met first; an error only ends the
walk. -/
def commonFrontier (fuel : ℕ) (older : Commit) (index : List ObjectID) : List Commit :=
  (forEachCommit (fun _ w => w.next s (·.hash ∈ index) (·.hash ∈ index) fuel)
    (fun c res => (res ++ [c], none)) fuel (NewFilterCommitIter older) []).1

def MergeBase (sort : SortSlice) (fuel : ℕ) (c other : Commit) : Except ObjectError (List Commit) :=
  match sortByCommitDateDesc sort [c, other] with
  | [newer, older] =>
    match ancestorsIndex s fuel older newer with
    | .error e => if e = .isReachable then .ok [older] else .error e
    | .ok newerHistory => Independents s sort fuel (commonFrontier s fuel older newerHistory)
  | _ => .error .indexOutOfRange

end

end GoGit.History
