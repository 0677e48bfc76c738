import GoGit.ObjectStore

/-! The two iterators take the next commit from the front of a queue and put its parents at the end of it. One of them
gives out only the commits that pass a test and does not go beyond those that pass another one; the tests may depend
on what the caller has done with the commits so far. -/
namespace GoGit

open List

section ForEach

variable {ι τ : Type} (next : τ → ι → Except ObjectError (Option (Commit × ι)))
  (cb : Commit → τ → τ × Option ObjectError)

/-- Hands the commits of an iterator to a callback that works on a state; `stop` ends the loop. -/
def forEachCommit : ℕ → ι → τ → τ × Option ObjectError
  | 0, _, t => (t, some .endless)
  | fuel + 1, i, t =>
    match next t i with
    | .error e => (t, some e)
    | .ok none => (t, none)
    | .ok (some (c, i)) =>
      match cb c t with
      | (t, none) => forEachCommit fuel i t
      | (t, some e) => if e = .stop then (t, none) else (t, some e)

variable {next cb}

lemma forEachCommit_run {inv : ι → τ → Prop} {done : τ × Option ObjectError → Prop} {size : ι → ℕ}
    (hstep : ∀ i t, inv i t →
      match next t i with
      | .error e => done (t, some e)
      | .ok none => done (t, none)
      | .ok (some (c, i')) => size i' < size i ∧
          match cb c t with
          | (t', none) => inv i' t'
          | (t', some e) => done (t', if e = .stop then none else some e))
    {fuel : ℕ} {i : ι} {t : τ} (hi : inv i t) (hfuel : size i < fuel) :
    done (forEachCommit next cb fuel i t) := by
  induction fuel generalizing i t with
  | zero => omega
  | succ fuel ih =>
    have hspec := hstep i t hi
    rw [forEachCommit]
    cases hnext : next t i with
    | error e => simpa [hnext] using hspec
    | ok found =>
      rw [hnext] at hspec
      cases found with
      | none => exact hspec
      | some found =>
        obtain ⟨c, i'⟩ := found
        obtain ⟨hsize, hcb⟩ := hspec
        cases hres : cb c t with
        | mk t' e =>
          simp only [hres] at hcb ⊢
          cases e with
          | none => exact ih hcb (by omega)
          | some e =>
            simp only at hcb ⊢
            split_ifs at hcb ⊢ <;> exact hcb

lemma forEachCommit_spec {inv : ι → τ → Prop} {done : τ → Option ObjectError → Prop} {size : ι → ℕ}
    (hstep : ∀ i t, inv i t → (next t i = .ok none ∧ done t none) ∨
      ∃ c i' t' e, next t i = .ok (some (c, i')) ∧ cb c t = (t', e) ∧ size i' < size i ∧
        match e with
        | none => inv i' t'
        | some e => done t' (if e = .stop then none else some e))
    {fuel : ℕ} {i : ι} {t : τ} (hi : inv i t) (hfuel : size i < fuel) :
    ∃ t' e, forEachCommit next cb fuel i t = (t', e) ∧ done t' e := by
  refine ⟨_, _, rfl, @forEachCommit_run _ _ _ _ inv (fun r => done r.1 r.2) size (fun i t hi => ?_) _ _ _ hi hfuel⟩
  rcases hstep i t hi with ⟨hend, hdone⟩ | ⟨c, i', t', e, hnext, hcb, hsize, he⟩
  · rw [hend]
    exact hdone
  · rw [hnext]
    refine ⟨hsize, ?_⟩
    rw [hcb]
    cases e <;> exact he

end ForEach

section Iterators

variable (s : Store)

/-- Looks up the commits that are not skipped and puts them at the end of the queue. -/
def appendHashes (skip : ObjectID → Bool) : List ObjectID → List Commit → Except ObjectError (List Commit)
  | [], queue => .ok queue
  | h :: hashes, queue =>
    if skip h then appendHashes skip hashes queue
    else
      match s.getCommit h with
      | .error e => .error e
      | .ok c => appendHashes skip hashes (queue ++ [c])

structure BfsCommitIterator where
  seen : List ObjectID
  queue : List Commit
  deriving DecidableEq

def NewCommitIterBSF (c : Commit) (ignore : List ObjectID) : BfsCommitIterator := ⟨ignore, [c]⟩

def BfsCommitIterator.next (seenExternal : List ObjectID) (w : BfsCommitIterator) :
    Except ObjectError (Option (Commit × BfsCommitIterator)) :=
  match w.queue.dropWhile (fun c => c.hash ∈ w.seen ∨ c.hash ∈ seenExternal) with
  | [] => .ok none
  | c :: queue =>
    let seen := c.hash :: w.seen
    match appendHashes s (fun h => h ∈ seen ∨ h ∈ seenExternal) c.parentHashes queue with
    | .error e => .error e
    | .ok queue => .ok (some (c, ⟨seen, queue⟩))

structure FilterCommitIter where
  visited : List ObjectID := []
  queue : List Commit
  deriving DecidableEq

def NewFilterCommitIter (c : Commit) : FilterCommitIter := { queue := [c] }

/-- The loop of `Next`, counted by a fuel: commits that are not valid are visited and passed over. -/
def FilterCommitIter.next (isValid isLimit : Commit → Bool) :
    ℕ → FilterCommitIter → Except ObjectError (Option (Commit × FilterCommitIter))
  | 0, _ => .error .endless
  | fuel + 1, w =>
    match w.queue.dropWhile (·.hash ∈ w.visited) with
    | [] => .ok none
    | c :: queue =>
      let visited := c.hash :: w.visited
      match (if isLimit c then .ok queue
        else appendHashes s (· ∈ visited) c.parentHashes queue) with
      | .error e => .error e
      | .ok queue =>
        if isValid c then .ok (some (c, ⟨visited, queue⟩))
        else FilterCommitIter.next isValid isLimit fuel ⟨visited, queue⟩

end Iterators

section Specs

open Relation Search

variable {s : Store} {root : ObjectID} {r : ObjectID → ObjectID → Prop} {visited : List ObjectID}
  {queue rest : List Commit} {c : Commit}

lemma appendHashes_spec {skip : ObjectID → Bool} {hashes : List ObjectID}
    (hall : ∀ h ∈ hashes, s.IsCommit h) (queue : List Commit) :
    ∃ cs, appendHashes s skip hashes queue = .ok (queue ++ cs) ∧
      (∀ c ∈ cs, s.getCommit c.hash = .ok c ∧ c.hash ∈ hashes) ∧
      ∀ h ∈ hashes, skip h = true ∨ ∃ c ∈ cs, c.hash = h := by
  induction hashes generalizing queue with
  | nil => exact ⟨[], by simp [appendHashes], by simp, by simp⟩
  | cons h hashes ih =>
    have hrest : ∀ k ∈ hashes, s.IsCommit k := fun k hk => hall k (.tail _ hk)
    by_cases hskip : skip h = true
    · obtain ⟨cs, hcs, hget, hcover⟩ := ih hrest queue
      refine ⟨cs, by simp [appendHashes, hskip, hcs],
        fun d hd => ⟨(hget d hd).1, .tail _ (hget d hd).2⟩, ?_⟩
      exact forall_mem_cons.mpr ⟨.inl hskip, hcover⟩
    · obtain ⟨d, hd, rfl⟩ := s.getCommit_of_isCommit (hall h (.head _))
      obtain ⟨cs, hcs, hget, hcover⟩ := ih hrest (queue ++ [d])
      refine ⟨d :: cs, by simp [appendHashes, hskip, hd, hcs], ?_, ?_⟩
      · exact forall_mem_cons.mpr ⟨⟨hd, .head _⟩, fun e he => ⟨(hget e he).1, .tail _ (hget e he).2⟩⟩
      · intro k hk
        rcases mem_cons.mp hk with rfl | hk
        · exact .inr ⟨d, .head _, rfl⟩
        · rcases hcover k hk with hk | ⟨e, he, hk⟩
          · exact .inl hk
          · exact .inr ⟨e, .tail _ he, hk⟩

/-- What a call of `Next` does to the commits an iterator has seen and to those it has still to look at. -/
def Advances {ι : Type} (s : Store) (good : ι → Prop) (seen pending : ι → List ObjectID) (i : ι) :
    Except ObjectError (Option (Commit × ι)) → Prop
  | .error _ => False
  | .ok none => ∀ h ∈ pending i, h ∈ seen i
  | .ok (some (c, i')) => good i' ∧ s.getCommit c.hash = .ok c ∧ seen i' = c.hash :: seen i ∧
      Takes {p | p ∈ c.parentHashes} (seen i) (pending i) c.hash (pending i')

structure Picks (visited : List ObjectID) (queue : List Commit) (c : Commit) (rest : List Commit) : Prop where
  mem : c ∈ queue
  fresh : c.hash ∉ visited
  subset : ∀ d ∈ rest, d ∈ queue
  passed : ∀ d ∈ queue, d.hash ∈ visited ∨ d = c ∨ d ∈ rest

lemma picks_dropWhile (hdrop : queue.dropWhile (·.hash ∈ visited) = c :: rest) : Picks visited queue c rest := by
  obtain ⟨hpass, hmem, hrest, -, hall⟩ := dropWhile_eq_cons hdrop
  exact ⟨hmem, by simpa using hpass, hrest, by simpa using hall⟩

lemma Picks.takes (h : Picks visited queue c rest) (cs : List Commit) {next : Set ObjectID} {queue' : List Commit}
    (hcs : ∀ d ∈ cs, d.hash ∈ next) (hcover : ∀ k ∈ next, k ∈ c.hash :: visited ∨ ∃ d ∈ cs, d.hash = k)
    (hqueue : ∀ d, d ∈ queue' ↔ d ∈ rest ∨ d ∈ cs) :
    Takes next visited (queue.map Commit.hash) c.hash (queue'.map Commit.hash) where
  mem := mem_map_of_mem h.mem
  fresh := h.fresh
  kept := by
    refine forall_mem_map.mpr fun d hd => ?_
    rcases h.passed d hd with hd | rfl | hd
    · exact .inr (.inl hd)
    · exact .inl rfl
    · exact .inr (.inr (mem_map_of_mem ((hqueue d).mpr (.inl hd))))
  subset := by
    refine forall_mem_map.mpr fun d hd => ?_
    exact ((hqueue d).mp hd).imp (fun hd => mem_map_of_mem (h.subset d hd)) (hcs d)
  next := by
    intro k hk
    rcases hcover k hk with hk | ⟨d, hd, rfl⟩
    · exact (mem_cons.mp hk).imp id .inl
    · exact .inr (.inr (mem_map_of_mem ((hqueue d).mpr (.inr hd))))

def Store.Loaded (s : Store) (queue : List Commit) : Prop := ∀ c ∈ queue, s.getCommit c.hash = .ok c

structure Searches (s : Store) (r : ObjectID → ObjectID → Prop) (root : ObjectID)
    (visited : List ObjectID) (queue : List Commit) : Prop extends
    Explores r [] root visited (queue.map Commit.hash) where
  getCommit : s.Loaded queue

lemma Searches.start (hc : s.getCommit c.hash = .ok c) : Searches s r c.hash [] [c] :=
  ⟨Explores.start (by simp), by simpa [Store.Loaded] using hc⟩

lemma Searches.step (h : Searches s r root visited queue) {next : Set ObjectID} {queue' : List Commit}
    (htakes : Takes next visited (queue.map Commit.hash) c.hash (queue'.map Commit.hash))
    (hnext : ∀ k, r c.hash k ↔ k ∈ next) (hget : s.Loaded queue') : Searches s r root (c.hash :: visited) queue' := by
  rw [← append_nil visited] at htakes
  exact ⟨h.toExplores.step htakes hnext, hget⟩

lemma Searches.mem_iff (h : Searches s r root visited queue)
    (hdrop : queue.dropWhile (·.hash ∈ visited) = []) (k : ObjectID) : k ∈ visited ↔ ReflTransGen r root k := by
  simpa using @Explores.mem_iff _ _ _ _ _ _ k h.toExplores (by simpa using hdrop)

lemma parents_of_history (hhist : ∀ h, s.Ancestor root h → s.IsCommit h)
    (hgood : s.Loaded queue) (hqueue : ∀ h ∈ queue.map Commit.hash, s.Ancestor root h) :
    ∀ c ∈ queue, ∀ p ∈ c.parentHashes, s.IsCommit p :=
  fun c hc p hp => hhist p ((hqueue _ (mem_map_of_mem hc)).tail ((s.parent_iff (hgood c hc)).mpr hp))

lemma Picks.visit (h : Picks visited queue c rest) (skip : ObjectID → Bool) (hgood : s.Loaded queue)
    (hparents : ∀ d ∈ queue, ∀ p ∈ d.parentHashes, s.IsCommit p) (hskip : ∀ h, skip h = true → h ∈ c.hash :: visited)
    (base : List Commit) : ∃ cs, appendHashes s skip c.parentHashes base = .ok (base ++ cs) ∧
      ∀ queue' : List Commit, (∀ d, d ∈ queue' ↔ d ∈ rest ∨ d ∈ cs) → s.Loaded queue' ∧ s.getCommit c.hash = .ok c ∧
        Takes {p | p ∈ c.parentHashes} visited (queue.map Commit.hash) c.hash (queue'.map Commit.hash) := by
  obtain ⟨cs, hcs, hnew, hcover⟩ := @appendHashes_spec s skip c.parentHashes (hparents c h.mem) base
  refine ⟨cs, hcs, fun queue' hqueue => ⟨fun d hd => ?_, hgood c h.mem,
    h.takes cs (fun d hd => (hnew d hd).2) (fun k hk => (hcover k hk).imp (hskip k) id) hqueue⟩⟩
  rcases (hqueue d).mp hd with hd | hd
  · exact hgood d (h.subset d hd)
  · exact (hnew d hd).1

lemma BfsCommitIterator.next_advances {w : BfsCommitIterator} (hgood : s.Loaded w.queue)
    (hparents : ∀ c ∈ w.queue, ∀ p ∈ c.parentHashes, s.IsCommit p) :
    Advances s (fun w => s.Loaded w.queue) seen (·.queue.map Commit.hash) w (w.next s []) := by
  cases hdrop : w.queue.dropWhile (·.hash ∈ w.seen) with
  | nil =>
    have hall : ∀ c ∈ w.queue, c.hash ∈ w.seen := by simpa using hdrop
    simpa [BfsCommitIterator.next, hdrop, Advances] using hall
  | cons c rest =>
    obtain ⟨cs, hcs, hvisit⟩ := (picks_dropWhile hdrop).visit (· ∈ c.hash :: w.seen) hgood hparents (by simp) rest
    obtain ⟨hgood', hget, htakes⟩ := hvisit (rest ++ cs) fun d => mem_append
    simp only [mem_cons, Bool.decide_or] at hcs
    simpa [BfsCommitIterator.next, hdrop, hcs] using ⟨hgood', hget, rfl, htakes⟩

lemma BfsCommitIterator.next_spec {w : BfsCommitIterator} (hhist : ∀ h, s.Ancestor root h → s.IsCommit h)
    (hw : Searches s s.Parent root w.seen w.queue) : (w.next s [] = .ok none ∧ ∀ k, k ∈ w.seen ↔ s.Ancestor root k) ∨
      ∃ c w', w.next s [] = .ok (some (c, w')) ∧ s.getCommit c.hash = .ok c ∧
        s.Ancestor root c.hash ∧ c.hash ∉ w.seen ∧ w'.seen = c.hash :: w.seen ∧
        Searches s s.Parent root w'.seen w'.queue := by
  have hspec := next_advances hw.getCommit (parents_of_history hhist hw.getCommit fun _ => hw.reached_pending)
  cases hnext : w.next s [] with
  | error e =>
    rw [hnext] at hspec
    exact hspec.elim
  | ok given =>
    rw [hnext] at hspec
    cases given with
    | none =>
      refine .inl ⟨rfl, fun k => ?_⟩
      simpa [Store.Ancestor] using @Explores.mem_iff _ _ _ _ _ _ k hw.toExplores (by simpa [Advances] using hspec)
    | some given =>
      obtain ⟨hgood, hget, hseen, htakes⟩ := hspec
      exact .inr ⟨_, _, rfl, hget, hw.reached_pending htakes.mem, htakes.fresh, hseen,
        hseen ▸ hw.step htakes (fun _ => s.parent_iff hget) hgood⟩

/-- The edges to parents, except from the commits in `L`. -/
def Store.ParentUnless (s : Store) (L : Set ObjectID) (h p : ObjectID) : Prop := s.Parent h p ∧ h ∉ L

lemma Store.ancestor_of_unless {L : Set ObjectID} {h k : ObjectID}
    (hr : ReflTransGen (s.ParentUnless L) h k) : s.Ancestor h k :=
  hr.lift id fun _ _ hab => hab.1

def Rejected (s : Store) (isValid : Commit → Bool) (h : ObjectID) : Prop :=
  ∃ c, s.getCommit h = .ok c ∧ isValid c = false

variable {L : Set ObjectID} {isValid isLimit : Commit → Bool}

lemma FilterCommitIter.visit {w : FilterCommitIter} (hhist : ∀ h, s.Ancestor root h → s.IsCommit h)
    (hw : Searches s (s.ParentUnless L) root w.visited w.queue)
    (hdrop : w.queue.dropWhile (·.hash ∈ w.visited) = c :: rest) (hlimit : isLimit c = true ↔ c.hash ∈ L) :
    ∃ queue', (if isLimit c then .ok rest
        else appendHashes s (· ∈ c.hash :: w.visited) c.parentHashes rest) = Except.ok queue' ∧
      Searches s (s.ParentUnless L) root (c.hash :: w.visited) queue' := by
  have hpick := picks_dropWhile hdrop
  by_cases hl : c.hash ∈ L
  · refine ⟨rest, by simp [hlimit.mpr hl], hw.step (@Picks.takes _ _ _ _ hpick [] ∅ rest (by simp) (by simp) (by simp))
      (fun k => ?_) fun d hd => hw.getCommit d (hpick.subset d hd)⟩
    simp [Store.ParentUnless, hl]
  · have hparents := parents_of_history hhist hw.getCommit fun _ h => Store.ancestor_of_unless (hw.reached_pending h)
    obtain ⟨cs, hcs, hvisit⟩ := hpick.visit (· ∈ c.hash :: w.visited) hw.getCommit hparents (by simp) rest
    obtain ⟨hgood, hget, htakes⟩ := hvisit (rest ++ cs) fun d => mem_append
    refine ⟨rest ++ cs, ?_, hw.step htakes (fun k => (and_iff_left hl).trans (s.parent_iff hget)) hgood⟩
    rw [if_neg (fun hlim => hl (hlimit.mp hlim))]
    exact hcs

lemma FilterCommitIter.next_spec (hhist : ∀ h, s.Ancestor root h → s.IsCommit h) {fuel : ℕ}
    {w : FilterCommitIter} (hw : Searches s (s.ParentUnless L) root w.visited w.queue)
    (hlimit : ∀ c : Commit, c.hash ∉ w.visited → (isLimit c = true ↔ c.hash ∈ L))
    (hfuel : s.unseen w.visited < fuel) : (w.next s isValid isLimit fuel = .ok none ∧ ∃ visited : List ObjectID,
        (∀ k, k ∈ visited ↔ ReflTransGen (s.ParentUnless L) root k) ∧
        ∀ k ∈ visited, k ∈ w.visited ∨ Rejected s isValid k) ∨
      ∃ c w', w.next s isValid isLimit fuel = .ok (some (c, w')) ∧ s.getCommit c.hash = .ok c ∧
        isValid c = true ∧ c.hash ∉ w.visited ∧ c.hash ∈ w'.visited ∧
        Searches s (s.ParentUnless L) root w'.visited w'.queue ∧ (∀ k ∈ w.visited, k ∈ w'.visited) ∧
        (∀ k ∈ w'.visited, k ∈ w.visited ∨ k = c.hash ∨ Rejected s isValid k) ∧
        s.unseen w'.visited < s.unseen w.visited := by
  induction fuel generalizing w with
  | zero => omega
  | succ fuel ih =>
    cases hdrop : w.queue.dropWhile (·.hash ∈ w.visited) with
    | nil =>
      exact .inl ⟨by simp [FilterCommitIter.next, hdrop], w.visited, hw.mem_iff hdrop,
        fun k hk => .inl hk⟩
    | cons c rest =>
      have hunseen := (picks_dropWhile hdrop).fresh
      have hget := hw.getCommit c (picks_dropWhile hdrop).mem
      obtain ⟨queue', hqueue, hsearch⟩ := FilterCommitIter.visit hhist hw hdrop (hlimit c hunseen)
      have hless : s.unseen (c.hash :: w.visited) < s.unseen w.visited := by
        obtain ⟨c₀, hc₀, -⟩ := Store.object_of_getCommit hget
        exact s.unseen_cons_lt (by simp [hc₀]) hunseen
      by_cases hvalid : isValid c = true
      · refine .inr ⟨c, ⟨c.hash :: w.visited, queue'⟩, ?_, hget, hvalid, hunseen, .head _, hsearch,
          fun k hk => .tail _ hk, ?_, hless⟩
        · simp only [FilterCommitIter.next, hdrop, hqueue, hvalid, if_true]
        · exact fun k hk => (mem_cons.mp hk).elim (fun h => .inr (.inl h)) .inl
      · have hrej : Rejected s isValid c.hash := ⟨c, hget, by simpa using hvalid⟩
        have hnext : w.next s isValid isLimit (fuel + 1) =
            FilterCommitIter.next s isValid isLimit fuel ⟨c.hash :: w.visited, queue'⟩ := by
          simp only [FilterCommitIter.next, hdrop, hqueue, if_neg hvalid]
        have hback : ∀ k ∈ c.hash :: w.visited, k ∈ w.visited ∨ Rejected s isValid k := by
          exact forall_mem_cons.mpr ⟨.inr hrej, fun k hk => .inl hk⟩
        have hlimit' : ∀ d : Commit, d.hash ∉ c.hash :: w.visited → (isLimit d = true ↔ d.hash ∈ L) :=
          fun d hd => hlimit d fun hv => hd (.tail _ hv)
        rcases @ih ⟨c.hash :: w.visited, queue'⟩ hsearch hlimit' (lt_of_lt_of_le hless (by omega)) with
          ⟨hend, visited, hiff, hall⟩ | ⟨d, w', hd, hgetd, hvd, hund, hind, hs, hsub, hall, hlt⟩
        · refine .inl ⟨hnext.trans hend, visited, hiff, fun k hk => ?_⟩
          exact (hall k hk).elim (hback k) .inr
        · refine .inr ⟨d, w', hnext.trans hd, hgetd, hvd, fun hv => hund (.tail _ hv), hind, hs,
            fun k hk => hsub k (.tail _ hk), fun k hk => ?_, hlt.trans hless⟩
          rcases hall k hk with hk | hk | hk
          · exact (hback k hk).imp id .inr
          · exact .inr (.inl hk)
          · exact .inr (.inr hk)

end Specs

end GoGit
