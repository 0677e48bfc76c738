import GoGit.ObjectStorage
import GoGit.ObjectStore
import GoGit.Search

/-! `fetchWalker`: a queue of objects that are asked for one by one. What the server does not have as a file of its
own is looked for in the indexes of its packs, which are downloaded first. -/
namespace GoGit.Dumb

open List

open ObjectStorage (Pack)

inductive Fault
  | repositoryNotFound
  | invalidType
  | decode
  | status
  | alreadyClosed
  deriving DecidableEq

/-- What the server answers when it is asked for the file of an object. -/
inductive Answer
  | object
  | notFound
  | fault
  deriving DecidableEq

/-- The repository of the server. A reference comes with the object that its tag is peeled to. -/
structure Remote where
  store : Store
  head : ObjectID
  refs : List (ObjectID × Option ObjectID) := []
  answer : ObjectID → Answer
  packs : List Pack := []
  infoFails : Bool := false
  idxFails : ObjectID → Bool := fun _ => false
  packFails : ObjectID → Bool := fun _ => false

/-- The walker. `packIdx` are the packs whose indexes have been downloaded, `indicies` those that have been read and
`packs` the ones that have been downloaded themselves. -/
structure Walker where
  queue : List ObjectID
  stored : List ObjectID
  processed : List ObjectID := []
  packIdx : List Pack := []
  indicies : List Pack := []
  packs : List Pack := []

/-- `downloadFile`. The temporary file is closed when it has been written, and once more at the end of the function,
which returns the error of that. -/
def downloadFile (fails : Bool) : Except Fault Unit := if fails then .error .status else .error .alreadyClosed

section Walk

variable (r : Remote)

/-- The loop of `process` over the list of the packs; a line that is no name is passed over. -/
def downloadIndexes : List Pack → List Pack → Except Fault (List Pack)
  | [], packIdx => .ok packIdx
  | p :: packs, packIdx =>
    if p.name.IsZero then downloadIndexes packs packIdx
    else do
      downloadFile (r.idxFails p.name)
      downloadIndexes packs (packIdx ++ [p])

def process (stored : List ObjectID) : Except Fault Walker :=
  if r.head.IsZero then .error .repositoryNotFound
  else if r.infoFails then .error .status
  else do
    let packIdx ← downloadIndexes r r.packs []
    let queue := r.refs.flatMap fun ref => (ref.1 :: ref.2.toList).filter (· ∉ stored)
    return { queue := r.head :: queue ++ [r.head], stored := stored, packIdx := packIdx }

/-- The names that are queued when an object has been read; the entries of a tree are all among them. -/
def queued (h : ObjectID) : Object → Option (List ObjectID)
  | .commit c => some (c.parentHashes ++ [c.treeHash])
  | .tree entries => some (h :: entries.map (·.hash))
  | .tag target => some [h, target]
  | .blob => some [h]
  | .corrupt _ => none

/-- The loop over the indexes of the packs. An object that is in none has no type. -/
def searchPacks (h : ObjectID) : List Pack → Walker → Except Fault Walker
  | [], _ => .error .invalidType
  | p :: order, w =>
    let w := { w with indicies := w.indicies ++ [p] }
    if h ∈ p.hashes then
      if p ∈ w.packs then .ok { w with processed := h :: w.processed }
      else do
        downloadFile (r.packFails p.name)
        return { w with processed := h :: w.processed, packs := p :: w.packs }
    else searchPacks h order w

/-- The body of the loop of `fetch`. An object that is stored is not read, and so it has no type. -/
def examine (order : List Pack → List Pack) (h : ObjectID) (w : Walker) : Except Fault Walker :=
  if h ∈ w.processed then .ok w
  else if ∃ p ∈ w.indicies, h ∈ p.hashes then .ok w
  else if h ∈ w.stored then .error .invalidType
  else
    match r.answer h with
    | .fault => .error .status
    | .notFound => searchPacks r h (order w.packIdx) w
    | .object =>
      match r.store.object h >>= queued h with
      | none => .error .decode
      | some next =>
        .ok { w with queue := w.queue ++ next, stored := h :: w.stored, processed := h :: w.processed }

/-- The loop of `fetch` with a bound on its turns. The map of the packs is gone through in another order each time. -/
def fetchLoop (orders : ℕ → List Pack → List Pack) : ℕ → Walker → Option (Except Fault Walker)
  | 0, _ => none
  | n + 1, w =>
    match w.queue with
    | [] => some (.ok w)
    | h :: queue =>
      match examine r (orders n) h { w with queue := queue } with
      | .error e => some (.error e)
      | .ok w => fetchLoop orders n w

/-- `process` and `fetch`, which stores the packs at its end. -/
def fetchDumb (orders : ℕ → List Pack → List Pack) (stored : List ObjectID) (fuel : ℕ) :
    Option (Except Fault (List ObjectID)) :=
  match process r stored with
  | .error e => some (.error e)
  | .ok w => (fetchLoop r orders fuel w).map (·.map fun w => w.stored ++ w.packs.flatMap Pack.hashes)

end Walk

namespace Remote

variable (r : Remote)

def roots : List ObjectID := r.head :: r.refs.flatMap fun ref => ref.1 :: ref.2.toList

def Reachable (h : ObjectID) : Prop := ∃ root ∈ r.roots, r.store.Reach root h

/-- The server serves everything that can be reached, as files or in packs. -/
structure Serves : Prop where
  head : r.head.IsZero = false
  info : r.infoFails = false
  object : ∀ h, r.Reachable h → ∃ o, r.store.object h = some o ∧ ∀ t, o ≠ .corrupt t
  answer : ∀ h, r.Reachable h →
    r.answer h = .object ∨ (r.answer h = .notFound ∧ ∃ p ∈ r.packs, h ∈ p.hashes)
  pack : ∀ p ∈ r.packs, r.idxFails p.name = false ∧ r.packFails p.name = false

/-- Whatever the order of the packs: a fetch without error stores all objects, and there is none if the server answers. -/
def Fetches (stored : List ObjectID) : Prop :=
  ∀ orders : ℕ → List Pack → List Pack, (∀ n packs, (orders n packs).Perm packs) →
    (∀ fuel s, fetchDumb r orders stored fuel = some (.ok s) → ∀ h, r.Reachable h → h ∈ s) ∧
    (r.Serves → ∃ bound, ∀ fuel ≥ bound, ∃ s, fetchDumb r orders stored fuel = some (.ok s))

/-- The object `h`, once it is read, makes the walker ask for `k`. -/
def Names (h k : ObjectID) : Prop := ∃ next, r.store.object h >>= queued h = some next ∧ k ∈ next

/-- The names that the walker comes to: the head, the references that are not stored, and what these name. -/
def Asked (stored : List ObjectID) (h : ObjectID) : Prop :=
  ∃ root ∈ r.roots, (root = r.head ∨ root ∉ stored) ∧ Relation.ReflTransGen r.Names root h

/-- No pack is listed, and whatever is asked for is new and served as a file. -/
structure Plain (stored : List ObjectID) : Prop where
  head : r.head.IsZero = false
  info : r.infoFails = false
  packs : ∀ p ∈ r.packs, p.name.IsZero
  asked : ∀ h, r.Asked stored h → h ∉ stored ∧ r.answer h = .object ∧ (r.store.object h >>= queued h).isSome

end Remote

section Steps

variable {r : Remote} {stored : List ObjectID} {order : List Pack → List Pack} {h : ObjectID} {w w' : Walker}
  {fuel : ℕ} {orders : ℕ → List Pack → List Pack}

lemma downloadIndexes_eq_ok_iff {packs packIdx idx : List Pack} :
    downloadIndexes r packs packIdx = .ok idx ↔ (∀ p ∈ packs, p.name.IsZero) ∧ idx = packIdx := by
  induction packs with
  | nil => exact ⟨fun hok => ⟨nofun, (Except.ok.inj hok).symm⟩, fun hok => hok.2 ▸ rfl⟩
  | cons p packs ih =>
    rw [downloadIndexes]
    split_ifs with hp
    · simp [ih, hp]
    · cases hf : r.idxFails p.name <;> simp [downloadFile, hp, bind, Except.bind]

/-- A walker that can start has no pack to look into. -/
lemma process_eq_ok_iff : process r stored = .ok w ↔
    r.head.IsZero = false ∧ r.infoFails = false ∧ (∀ p ∈ r.packs, p.name.IsZero) ∧
      w = { queue := r.head :: (r.refs.flatMap fun ref => (ref.1 :: ref.2.toList).filter (· ∉ stored)) ++ [r.head],
            stored := stored } := by
  rw [process]
  cases hhead : r.head.IsZero
  · cases hinfo : r.infoFails
    · cases hidx : downloadIndexes r r.packs [] with
      | error e =>
        have hnot : ¬ ∀ p ∈ r.packs, p.name.IsZero := fun hp => by
          rw [downloadIndexes_eq_ok_iff.mpr ⟨hp, rfl⟩] at hidx
          cases hidx
        simp [bind, Except.bind, hnot]
      | ok idx =>
        obtain ⟨hp, rfl⟩ := downloadIndexes_eq_ok_iff.mp hidx
        simp only [Bool.false_eq_true, if_false, bind, Except.bind, pure, Except.pure, Except.ok.injEq, true_and]
        exact ⟨fun hw => ⟨hp, hw.symm⟩, fun hw => hw.2.symm⟩
    · simp
  · simp

/-- The walker has read what it has stored, asks only for what it comes to, and has queued what it has read of. -/
structure Walker.Valid (r : Remote) (stored : List ObjectID) (w : Walker) : Prop where
  packs : w.packIdx = [] ∧ w.indicies = [] ∧ w.packs = []
  queue : ∀ h ∈ w.queue, r.Asked stored h
  held : ∀ h, h ∈ w.stored ↔ h ∈ stored ∨ h ∈ w.processed
  read : ∀ h ∈ w.processed, r.Asked stored h ∧ h ∉ stored ∧ r.answer h = .object ∧ (r.store.object h >>= queued h).isSome
  roots : ∀ root ∈ r.roots, root = r.head ∨ root ∉ stored → root ∈ w.processed ∨ root ∈ w.queue
  closed : Search.ClosedUpTo r.Names {h | h ∈ w.queue} {h | h ∈ w.processed}

lemma valid_process (hw : process r stored = .ok w) : w.Valid r stored := by
  obtain ⟨-, -, -, rfl⟩ := process_eq_ok_iff.mp hw
  have hqueue : ∀ root, root ∈ r.head :: (r.refs.flatMap fun ref => (ref.1 :: ref.2.toList).filter (· ∉ stored)) ++
      [r.head] ↔ root ∈ r.roots ∧ (root = r.head ∨ root ∉ stored) := by
    intro root
    simp only [Remote.roots, mem_append, mem_cons, mem_flatMap, mem_filter, decide_eq_true_eq, not_mem_nil, or_false]
    constructor
    · rintro ((rfl | ⟨ref, href, hroot, hnew⟩) | rfl)
      · exact ⟨.inl rfl, .inl rfl⟩
      · exact ⟨.inr ⟨ref, href, hroot⟩, .inr hnew⟩
      · exact ⟨.inl rfl, .inl rfl⟩
    · rintro ⟨rfl | ⟨ref, href, hroot⟩, hnew⟩
      · exact .inr rfl
      · exact hnew.elim (fun heq => .inr heq) fun hnew => .inl (.inr ⟨ref, href, hroot, hnew⟩)
  refine ⟨⟨rfl, rfl, rfl⟩, fun h hh => ?_, fun h => by simp, by simp, fun root hroot hnew => ?_, by simp [Search.ClosedUpTo]⟩
  · obtain ⟨hroot, hnew⟩ := (hqueue h).mp hh
    exact ⟨h, hroot, hnew, .refl⟩
  · exact .inr ((hqueue root).mpr ⟨hroot, hnew⟩)

variable {queue : List ObjectID}

/-- A turn of the loop without an error: the object has been met before, or it is new, served and read. -/
lemma Walker.Valid.examine_eq (hv : w.Valid r stored) (horder : ∀ packs, (order packs).Perm packs) :
    examine r order h { w with queue := queue } = .ok w' ↔
      (h ∈ w.processed ∧ w' = { w with queue := queue }) ∨
      (h ∉ w.processed ∧ h ∉ stored ∧ r.answer h = .object ∧ ∃ next, r.store.object h >>= queued h = some next ∧
        w' = { w with queue := queue ++ next, stored := h :: w.stored, processed := h :: w.processed }) := by
  obtain ⟨hidx, hindicies, -⟩ := hv.packs
  have hnone : order w.packIdx = [] := by
    rw [hidx]
    exact (horder []).eq_nil
  rw [examine]
  by_cases hprocessed : h ∈ w.processed
  · simp [hprocessed, eq_comm]
  have hstored : h ∈ w.stored ↔ h ∈ stored := by rw [hv.held, or_iff_left hprocessed]
  by_cases hold : h ∈ stored
  · simp [hprocessed, hindicies, hstored, hold]
  cases hanswer : r.answer h with
  | fault | notFound => simp [hprocessed, hindicies, hstored, hold, hnone, searchPacks]
  | object =>
    cases hnext : r.store.object h >>= queued h with
    | none => simp [hprocessed, hindicies, hstored, hold]
    | some next => simp [hprocessed, hindicies, hstored, hold, eq_comm]

lemma Walker.Valid.examine (hv : w.Valid r stored) (horder : ∀ packs, (order packs).Perm packs)
    (hqueue : w.queue = h :: queue) (hok : examine r order h { w with queue := queue } = .ok w') :
    w'.Valid r stored := by
  have hfront : ∀ k ∈ w.queue, k = h ∨ k ∈ queue := fun k hk => mem_cons.mp (hqueue ▸ hk)
  have hrest : ∀ k ∈ queue, r.Asked stored k := fun k hk => hv.queue k (hqueue ▸ mem_cons_of_mem h hk)
  obtain ⟨hprocessed, rfl⟩ | ⟨-, hnew, hanswer, next, hnext, rfl⟩ := (hv.examine_eq horder).mp hok
  · have hmet : ∀ k ∈ w.queue, k ∈ w.processed ∨ k ∈ queue := by
      intro k hk
      rcases hfront k hk with rfl | hk
      · exact .inl hprocessed
      · exact .inr hk
    exact ⟨hv.packs, hrest, hv.held, hv.read, fun root hroot hor => (hv.roots root hroot hor).elim .inl (hmet root),
      hv.closed.mono hmet⟩
  · have hasked : r.Asked stored h := hv.queue h (by simp [hqueue])
    refine ⟨hv.packs, fun k hk => ?_, fun k => ?_, ?_, fun root hroot hor => ?_, ?_⟩
    · rcases mem_append.mp hk with hk | hk
      · exact hrest k hk
      · obtain ⟨root, hroot, hor, hreach⟩ := hasked
        exact ⟨root, hroot, hor, hreach.tail ⟨next, hnext, hk⟩⟩
    · simp only [mem_cons, hv.held k, or_left_comm]
    · exact forall_mem_cons.mpr ⟨⟨hasked, hnew, hanswer, by simp [hnext]⟩, hv.read⟩
    · rcases hv.roots root hroot hor with hk | hk
      · exact .inl (mem_cons_of_mem h hk)
      · rcases hfront root hk with rfl | hk
        · exact .inl mem_cons_self
        · exact .inr (mem_append_left next hk)
    · have hinsert : {k | k ∈ h :: w.processed} = insert h {k | k ∈ w.processed} := by
        ext k
        exact mem_cons
      rw [hinsert]
      refine hv.closed.insert (fun k hk => ?_) ?_
      · exact (hfront k hk).imp id fun hk => .inr (mem_append_left next hk)
      · rintro k ⟨next', hnext', hk⟩
        obtain rfl := Option.some.inj (hnext.symm.trans hnext')
        exact .inr (.inr (mem_append_right _ hk))

lemma fetchLoop_ok (horders : ∀ n packs, (orders n packs).Perm packs) (hv : w.Valid r stored)
    (hok : fetchLoop r orders fuel w = some (.ok w')) : w'.Valid r stored ∧ w'.queue = [] := by
  induction fuel generalizing w with
  | zero => simp [fetchLoop] at hok
  | succ n ih =>
    rw [fetchLoop] at hok
    cases hqueue : w.queue with
    | nil =>
      simp only [hqueue, Option.some.injEq, Except.ok.injEq] at hok
      exact hok ▸ ⟨hv, hqueue⟩
    | cons h queue =>
      simp only [hqueue] at hok
      cases hexamine : Dumb.examine r (orders n) h { w with queue := queue } with
      | error e => simp [hexamine] at hok
      | ok next =>
        simp only [hexamine] at hok
        exact ih (hv.examine (horders n) hqueue hexamine) hok

/-- When the queue is empty everything that is asked for has been read. -/
lemma Walker.Valid.mem_processed_iff (hv : w.Valid r stored) (hqueue : w.queue = []) :
    h ∈ w.processed ↔ r.Asked stored h := by
  refine ⟨fun hh => (hv.read h hh).1, ?_⟩
  rintro ⟨root, hroot, hor, hreach⟩
  have hclosed : Search.ClosedUpTo r.Names ∅ {h | h ∈ w.processed} := by simpa [hqueue] using hv.closed
  have hstart : root ∈ w.processed := (hv.roots root hroot hor).resolve_right (by simp [hqueue])
  exact hclosed.reach hstart hreach

/-- A fetch without an error: what is stored at its end. -/
lemma fetchDumb_ok {s : List ObjectID} (horders : ∀ n packs, (orders n packs).Perm packs)
    (hok : fetchDumb r orders stored fuel = some (.ok s)) :
    r.Plain stored ∧ ∀ h, h ∈ s ↔ h ∈ stored ∨ r.Asked stored h := by
  rw [fetchDumb] at hok
  cases hprocess : process r stored with
  | error e => simp [hprocess] at hok
  | ok w =>
    simp only [hprocess, Option.map_eq_some_iff] at hok
    obtain ⟨_ | w', hloop, hend⟩ := hok
    · cases hend
    cases hend
    obtain ⟨hv, hqueue⟩ := fetchLoop_ok horders (valid_process hprocess) hloop
    obtain ⟨hhead, hinfo, hpacks, -⟩ := process_eq_ok_iff.mp hprocess
    refine ⟨⟨hhead, hinfo, hpacks, fun h hh => (hv.read h ((hv.mem_processed_iff hqueue).mpr hh)).2⟩, fun h => ?_⟩
    simp only [hv.packs.2.2, flatMap_nil, append_nil, hv.held, hv.mem_processed_iff hqueue]

/-- What the walker has left to do at most: the names it will queue and those that are queued. -/
def Walker.weight (r : Remote) (w : Walker) : ℕ :=
  (∑ h ∈ r.store.names.toFinset \ w.processed.toFinset, ((r.store.object h >>= queued h).getD []).length) + w.queue.length

lemma weight_read {next : List ObjectID} (hnext : r.store.object h >>= queued h = some next) (hnew : h ∉ w.processed)
    (hqueue : w.queue = h :: queue) :
    Walker.weight r { w with queue := queue ++ next, stored := h :: w.stored, processed := h :: w.processed } <
      w.weight r := by
  have hmem : h ∈ r.store.names.toFinset \ w.processed.toFinset := by
    obtain ⟨o, ho, -⟩ := Option.bind_eq_some_iff.mp hnext
    simpa [hnew] using r.store.mem_names h (by simp [ho])
  have hsum := Finset.add_sum_erase _ (fun h => ((r.store.object h >>= queued h).getD []).length) hmem
  have hcost : ((r.store.object h >>= queued h).getD []).length = next.length := by simp [hnext]
  simp only [Walker.weight, toFinset_cons, Finset.sdiff_insert, hqueue, length_cons, length_append]
  omega

lemma fetchLoop_returns (hp : r.Plain stored) (horders : ∀ n packs, (orders n packs).Perm packs)
    (hv : w.Valid r stored) (hfuel : w.weight r < fuel) : ∃ w', fetchLoop r orders fuel w = some (.ok w') := by
  induction fuel generalizing w with
  | zero => omega
  | succ n ih =>
    rw [fetchLoop]
    cases hqueue : w.queue with
    | nil => exact ⟨w, rfl⟩
    | cons h queue =>
      obtain ⟨w', hw', hless⟩ : ∃ w', Dumb.examine r (orders n) h { w with queue := queue } = .ok w' ∧
          w'.weight r < w.weight r := by
        by_cases hprocessed : h ∈ w.processed
        · exact ⟨_, (hv.examine_eq (horders n)).mpr (.inl ⟨hprocessed, rfl⟩), by simp [Walker.weight, hqueue]⟩
        · obtain ⟨hnew, hanswer, hread⟩ := hp.asked h (hv.queue h (by simp [hqueue]))
          obtain ⟨next, hnext⟩ := Option.isSome_iff_exists.mp hread
          exact ⟨_, (hv.examine_eq (horders n)).mpr (.inr ⟨hprocessed, hnew, hanswer, next, hnext, rfl⟩),
            weight_read hnext hprocessed hqueue⟩
      simp only [hw']
      exact ih (hv.examine (horders n) hqueue hw') (by omega)

lemma fetchDumb_returns (hp : r.Plain stored) (horders : ∀ n packs, (orders n packs).Perm packs) :
    ∃ bound, ∀ fuel ≥ bound, ∃ s, fetchDumb r orders stored fuel = some (.ok s) := by
  obtain ⟨w, hw⟩ : ∃ w, process r stored = .ok w := ⟨_, process_eq_ok_iff.mpr ⟨hp.head, hp.info, hp.packs, rfl⟩⟩
  refine ⟨w.weight r + 1, fun fuel hfuel => ?_⟩
  obtain ⟨w', hw'⟩ := fetchLoop_returns hp horders (valid_process hw) (show w.weight r < fuel from hfuel)
  exact ⟨_, by rw [fetchDumb, hw]; simp only [hw']; rfl⟩

/-- What an object refers to is among what it names; the commits of submodules are named besides. -/
lemma names_of_refers {k : ObjectID} (hread : (r.store.object h >>= queued h).isSome) (hk : r.store.Refers h k) :
    r.Names h k := by
  obtain ⟨o, ho, hmem⟩ := hk
  obtain ⟨next, hnext⟩ := Option.isSome_iff_exists.mp hread
  refine ⟨next, hnext, ?_⟩
  rw [ho, Option.bind_eq_bind, Option.bind_some] at hnext
  cases o with
  | commit c =>
    cases hnext
    simpa [Object.refs, or_comm] using hmem
  | tree entries =>
    cases hnext
    obtain ⟨e, he, -, rfl⟩ := Object.mem_refs_tree.mp hmem
    exact mem_cons_of_mem _ (mem_map_of_mem he)
  | tag target =>
    cases hnext
    exact mem_cons_of_mem _ hmem
  | blob | corrupt => cases hmem

lemma Remote.Plain.asked_of_reach {root : ObjectID} (hp : r.Plain stored) (hroot : r.Asked stored root)
    (hreach : r.store.Reach root h) : r.Asked stored h := by
  induction hreach with
  | refl => exact hroot
  | tail _ hstep ih =>
    obtain ⟨start, hstart, hor, hpath⟩ := ih
    exact ⟨start, hstart, hor, hpath.tail (names_of_refers (hp.asked _ ⟨start, hstart, hor, hpath⟩).2.2 hstep)⟩

end Steps

/-- A commit with its tree, whose entries are given, and a blob. -/
def served (entries : List TreeEntry) : Remote where
  store := .ofList [(.short 1, .commit { treeHash := .short 2 }), (.short 2, .tree entries), (.short 3, .blob)]
  head := .short 1
  answer := fun h => if h = .short 6 then .notFound else .object

end GoGit.Dumb
