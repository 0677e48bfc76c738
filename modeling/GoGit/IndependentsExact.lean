import GoGit.MergeBase

/-! A walk from one candidate does not go beyond what earlier walks have seen. This hides nothing: a candidate that is
left is reached from no seen commit but itself. -/
namespace GoGit.History

open Relation Search List

variable {s : Store}

variable {visited visited' : List ObjectID} {h : ObjectID}

section Lists

variable {commits candidates : List Commit} {start c : Commit} {seen : List ObjectID}

lemma eq_of_length_lt_two {l : List Commit} {c d : Commit} (h : l.length < 2) (hc : c ∈ l) (hd : d ∈ l) : c = d := by
  match l, h with
  | [x], _ => exact (mem_singleton.mp hc).trans (mem_singleton.mp hd).symm

lemma mem_remove : c ∈ remove commits start ↔ c ∈ commits ∧ c.hash ≠ start.hash := by
  simp [remove]

lemma remove_remove : remove (remove commits start) start = remove commits start := by
  simp [remove, filter_filter]

lemma removeSeen_spec (seen : List ObjectID) (commits : List Commit) : (removeSeen seen commits).Sublist commits ∧
      (removeSeen seen commits).Pairwise (·.hash ≠ ·.hash) ∧ (∀ c ∈ removeSeen seen commits, c.hash ∉ seen) ∧
      ∀ c ∈ commits, c.hash ∈ seen ∨ ∃ d ∈ removeSeen seen commits, d.hash = c.hash := by
  induction commits generalizing seen with
  | nil => simp [removeSeen]
  | cons c commits ih =>
    by_cases hc : c.hash ∈ seen
    · obtain ⟨hsub, hpair, hnot, hall⟩ := ih seen
      simp only [removeSeen, if_pos hc]
      refine ⟨hsub.cons c, hpair, hnot, fun d hd => ?_⟩
      rcases mem_cons.mp hd with rfl | hd
      · exact .inl hc
      · exact hall d hd
    · obtain ⟨hsub, hpair, hnot, hall⟩ := ih (c.hash :: seen)
      simp only [removeSeen, if_neg hc]
      refine ⟨hsub.cons_cons c, hpair.cons fun d hd heq => hnot d hd (heq ▸ .head _), ?_, ?_⟩
      · exact forall_mem_cons.mpr ⟨hc, fun d hd => fun hs => hnot d hd (.tail _ hs)⟩
      · intro d hd
        rcases mem_cons.mp hd with rfl | hd
        · exact .inr ⟨d, .head _, rfl⟩
        · rcases hall d hd with hd | ⟨e, he, hd⟩
          · rcases mem_cons.mp hd with hd | hd
            · exact .inr ⟨c, .head _, hd.symm⟩
            · exact .inl hd
          · exact .inr ⟨e, .tail _ he, hd⟩

/-- What is left of the candidates once the commits in `visited` have been met. -/
def keep (start : Commit) (visited : List ObjectID) (candidates : List Commit) : List Commit :=
  candidates.filter fun c => c.hash = start.hash ∨ c.hash ∉ visited

lemma mem_keep {visited : List ObjectID} :
    c ∈ keep start visited candidates ↔ c ∈ candidates ∧ (c.hash = start.hash ∨ c.hash ∉ visited) := by
  simp [keep]

lemma keep_congr (h : ∀ k, k ∈ visited ↔ k ∈ visited') :
    keep start visited candidates = keep start visited' candidates := by
  simp [keep, h]

lemma keep_cons {visited : List ObjectID} : keep start (h :: visited) candidates =
      if h = start.hash then keep start visited candidates
      else (keep start visited candidates).filter (·.hash ≠ h) := by
  unfold keep
  split_ifs with hs
  · refine filter_congr fun c _ => ?_
    by_cases hc : c.hash = start.hash <;> simp [hc, hs]
  · rw [filter_filter]
    refine filter_congr fun c _ => ?_
    by_cases hc : c.hash = start.hash
    · have hne : start.hash ≠ h := fun heq => hs heq.symm
      simp [hc, hne]
    · by_cases hch : c.hash = h <;> simp [hc, hch, hs]

end Lists

section Eliminate

variable {start : Commit}

lemma removeOthers_eq (a : Commit) (st : Elimination) : st.removeOthers a = if ∃ o ∈ st.others, o.hash = a.hash then
      { st with candidates := remove st.candidates a, others := remove st.others a } else st := by
  have hloop : ∀ (l : List Commit) (t : Elimination),
      l.foldl (fun st other =>
        if a.hash = other.hash then
          { st with candidates := remove st.candidates other, others := remove st.others other }
        else st) t =
      if ∃ o ∈ l, o.hash = a.hash then
        { t with candidates := remove t.candidates a, others := remove t.others a } else t := by
    intro l
    induction l with
    | nil => simp
    | cons o l ih =>
      intro t
      by_cases ho : a.hash = o.hash
      · have hremove : ∀ commits, remove commits o = remove commits a := by simp [remove, ho]
        simp only [foldl_cons, if_pos ho, ih, hremove, remove_remove]
        have hex : ∃ o' ∈ o :: l, o'.hash = a.hash := ⟨o, .head _, ho.symm⟩
        rw [if_pos hex]
        split_ifs <;> rfl
      · simp only [foldl_cons, if_neg ho, ih]
        simp [Ne.symm ho]
  exact hloop st.others st

lemma removeOthers_candidates {a : Commit} {st : Elimination} (h : st.others = remove st.candidates start) :
    (st.removeOthers a).candidates = (if a.hash = start.hash then st.candidates else remove st.candidates a) ∧
      (st.removeOthers a).others = remove (st.removeOthers a).candidates start ∧
      (st.removeOthers a).seen = st.seen := by
  rw [removeOthers_eq]
  by_cases hex : ∃ o ∈ st.others, o.hash = a.hash
  · obtain ⟨o, ho, hoa⟩ := hex
    have hne : a.hash ≠ start.hash := by
      rw [h, mem_remove, hoa] at ho
      exact ho.2
    rw [if_pos ⟨o, ho, hoa⟩, if_neg hne]
    refine ⟨rfl, ?_, rfl⟩
    simp only [h, remove, filter_filter]
    exact filter_congr fun c _ => Bool.and_comm _ _
  · rw [if_neg hex]
    refine ⟨?_, h, rfl⟩
    split_ifs with ha
    · rfl
    · refine (filter_eq_self.mpr fun c hc => ?_).symm
      have hca : c.hash ≠ a.hash := fun hca =>
        hex ⟨c, h ▸ mem_remove.mpr ⟨hc, hca ▸ ha⟩, hca⟩
      simpa using hca

variable {C : List Commit} {seen : List ObjectID}

structure Eliminates (start : Commit) (C : List Commit) (seen visited : List ObjectID)
    (st : Elimination) : Prop where
  candidates : st.candidates = keep start visited C
  others : st.others = remove st.candidates start
  seen : ∀ h, h ∈ st.seen ↔ h ∈ seen ∨ h ∈ visited

lemma Eliminates.eliminate {st : Elimination} {a : Commit}
    (h : Eliminates start C seen visited st) (hv : ∀ k, k ∈ visited' ↔ k = a.hash ∨ k ∈ visited) :
    ∃ st' e, History.eliminate a st = (st', e) ∧ st'.candidates = keep start visited' C ∧
      match e with
      | none => Eliminates start C seen visited' st'
      | some e => e = .stop ∧ st'.candidates.length = 1 := by
  have hkeep : keep start visited' C = keep start (a.hash :: visited) C :=
    keep_congr fun k => by rw [hv, mem_cons]
  obtain ⟨hcand, hothers, hseen⟩ := @removeOthers_candidates start a st h.others
  set st₁ := st.removeOthers a with hst₁
  have hcand : st₁.candidates = keep start visited' C := by
    rw [hcand, hkeep, keep_cons, h.candidates]
    rfl
  by_cases hone : st₁.candidates.length = 1
  · exact ⟨st₁, some .stop, by simp [History.eliminate, ← hst₁, hone], hcand, rfl, hone⟩
  · refine ⟨{ st₁ with seen := a.hash :: st₁.seen }, none, by simp [History.eliminate, ← hst₁, hone],
      hcand, hcand, hothers, fun k => ?_⟩
    simp only [mem_cons, hseen, h.seen, hv]
    tauto

lemma not_rejected : ¬ Rejected s (fun _ => true) h := by
  rintro ⟨c, -, hc⟩
  cases hc

lemma eliminateFrom_spec (hhist : ∀ h, s.Ancestor start.hash h → s.IsCommit h)
    (hget : s.getCommit start.hash = .ok start) {fuel : ℕ} (hfuel : s.unseen [] < fuel) :
    ∃ st visited, eliminateFrom s fuel start C seen = (st, none) ∧
      st.candidates = keep start visited C ∧ (∀ h ∈ visited, s.Ancestor start.hash h) ∧ (st.candidates.length = 1 ∨
        (∀ h, h ∈ visited ↔ ReflTransGen (s.ParentUnless {k | k ∈ seen}) start.hash h) ∧
        ∀ h, h ∈ st.seen ↔ h ∈ seen ∨ h ∈ visited) := by
  let L : Set ObjectID := {k | k ∈ seen}
  let inv : FilterCommitIter → Elimination → Prop := fun w st =>
    Searches s (s.ParentUnless L) start.hash w.visited w.queue ∧
      Eliminates start C seen w.visited st
  let done : Elimination → Option ObjectError → Prop := fun st e =>
    e = none ∧ ∃ visited, st.candidates = keep start visited C ∧
      (∀ h ∈ visited, s.Ancestor start.hash h) ∧
      (st.candidates.length = 1 ∨
        (∀ h, h ∈ visited ↔ ReflTransGen (s.ParentUnless L) start.hash h) ∧
        ∀ h, h ∈ st.seen ↔ h ∈ seen ∨ h ∈ visited)
  have hstart : inv (NewFilterCommitIter start) ⟨C, remove C start, seen⟩ :=
    ⟨.start hget, by simp [NewFilterCommitIter, keep], rfl, by simp [NewFilterCommitIter]⟩
  have hrun := @forEachCommit_spec _ _
    (fun st w => w.next s (fun _ => true) (fun c => c.hash ∈ st.seen) fuel) History.eliminate
    inv done (fun w => s.unseen w.visited) ?_ fuel _ _ hstart hfuel
  · obtain ⟨st, e, hst, rfl, visited, h⟩ := hrun
    exact ⟨st, visited, hst, h⟩
  rintro w st ⟨hsearch, helim⟩
  have hlimit : ∀ c : Commit, c.hash ∉ w.visited → (decide (c.hash ∈ st.seen) = true ↔ c.hash ∈ L) := by
    intro c hc
    rw [decide_eq_true_iff, helim.seen]
    exact or_iff_left hc
  rcases @FilterCommitIter.next_spec s start.hash L (fun _ => true) (fun c => c.hash ∈ st.seen) hhist
    fuel w hsearch hlimit (lt_of_le_of_lt (s.unseen_le _) hfuel) with
    ⟨hend, visited, hiff, hall⟩ | ⟨c, w', hnext, -, -, -, hin, hsearch', hsub, hall, hless⟩
  · have hvisited : ∀ k, k ∈ visited ↔ k ∈ w.visited := fun k =>
      ⟨fun hk => (hall k hk).resolve_right not_rejected, fun hk => (hiff k).mpr (hsearch.reached k hk)⟩
    refine .inl ⟨hend, rfl, visited, ?_, ?_, .inr ⟨hiff, ?_⟩⟩
    · rw [helim.candidates, keep_congr hvisited]
    · exact fun k hk => Store.ancestor_of_unless ((hiff k).mp hk)
    · simp [helim.seen, hvisited]
  · have hvisited : ∀ k, k ∈ w'.visited ↔ k = c.hash ∨ k ∈ w.visited := by
      intro k
      constructor
      · intro hk
        rcases hall k hk with hk | hk | hk
        · exact .inr hk
        · exact .inl hk
        · exact absurd hk not_rejected
      · rintro (rfl | hk)
        · exact hin
        · exact hsub k hk
    obtain ⟨st', e, hst', hcand, he⟩ := helim.eliminate hvisited
    refine .inr ⟨c, w', st', e, hnext, hst', hless, ?_⟩
    cases e with
    | none => exact ⟨hsearch', he⟩
    | some e =>
      obtain ⟨rfl, hone⟩ := he
      exact ⟨by simp, w'.visited, hcand,
        fun k hk => Store.ancestor_of_unless (hsearch'.reached k hk), .inl hone⟩

end Eliminate

section CrissCross

def crissCommit (name : UInt8) (sec : ℤ) (parents : List UInt8) : Commit :=
  { hash := .short name, committer := { when := .unix sec 0 }, parentHashes := parents.map .short }

/-- Two branches merged into each other, each commit older than its parents by its date. -/
def crissCross : List Commit :=
  [crissCommit 1 50 [], crissCommit 2 10 [1], crissCommit 3 10 [1], crissCommit 4 5 [2, 3], crissCommit 5 5 [3, 2]]

/-- Insertion sort, as `sort.Slice` does it for short lists. -/
def insertionSort : SortSlice := fun less l => l.insertionSort fun a b => !less b a

lemma perm_insertionSort (less : Commit → Commit → Bool) (l : List Commit) :
    (insertionSort less l).Perm l := List.perm_insertionSort _ l

lemma crissCross_acyclic : (Store.ofCommits crissCross).Acyclic := by
  refine Store.acyclic_of_rank _ (fun h => (h.hash.headD 0).toNat) fun a p hp => ?_
  obtain ⟨c, hc, rfl, hmem⟩ := Store.parent_ofCommits hp
  have hall : ∀ c ∈ crissCross, ∀ p ∈ c.parentHashes,
      (p.hash.headD 0).toNat < (c.hash.hash.headD 0).toNat := by decide
  exact hall c hc p hmem

lemma crissCross_history : ∀ c ∈ crissCross, ∀ h,
    (Store.ofCommits crissCross).Ancestor c.hash h → (Store.ofCommits crissCross).IsCommit h := by
  intro c hc h hch
  refine Store.history_of_closed _ (by decide : ∀ h ∈ crissCross.map (·.hash), _) ?_ (mem_map_of_mem hc) hch
  intro k _ p hp
  obtain ⟨d, hd, -, hp⟩ := Store.parent_ofCommits hp
  have hall : ∀ c ∈ crissCross, ∀ p ∈ c.parentHashes, p ∈ crissCross.map (·.hash) := by decide
  exact hall d hd p hp

end CrissCross

section Independents

variable {C : List Commit}
  {c : Commit}

structure Remains (s : Store) (C before after : List Commit) (seen : List ObjectID) : Prop where
  sublist : (before ++ after).Sublist C
  removed : ∀ c ∈ C, c ∉ before ++ after → ∃ d ∈ C, d ≠ c ∧ s.Ancestor d.hash c.hash
  apart : ∀ h ∈ seen, ∀ c ∈ before ++ after, s.Ancestor h c.hash → c.hash = h
  walked : ∀ c ∈ before, c.hash ∈ seen

structure IsIndependent (s : Store) (C result : List Commit) : Prop where
  sublist : result.Sublist C
  removed : ∀ c ∈ C, c ∉ result → ∃ d ∈ C, d ≠ c ∧ s.Ancestor d.hash c.hash
  apart : ∀ c ∈ result, ∀ d ∈ result, s.Ancestor d.hash c.hash → c = d

variable {start : Commit} {before after : List Commit} {seen visited : List ObjectID}

lemma keep_append_cons : keep start visited (before ++ start :: after) =
    keep start visited before ++ start :: keep start visited after := by
  simp [keep]

lemma indexOf_append_cons (h : ∀ c ∈ before, c.hash ≠ start.hash) :
    indexOf (before ++ start :: after) start = before.length := by
  have hnone : before.findIdx? (fun c => start.hash = c.hash) = none :=
    findIdx?_eq_none_iff.mpr fun c hc => by simpa using Ne.symm (h c hc)
  simp [indexOf, findIdx?_append, hnone, findIdx?_cons]

lemma Remains.removed_keep (h : Remains s C before (start :: after) seen)
    (hreach : ∀ k ∈ visited, s.Ancestor start.hash k) (hc : c ∈ C)
    (hout : c ∉ keep start visited (before ++ start :: after)) : ∃ d ∈ C, d ≠ c ∧ s.Ancestor d.hash c.hash := by
  by_cases hin : c ∈ before ++ start :: after
  · have hgone : ¬ (c.hash = start.hash ∨ c.hash ∉ visited) := fun hk => hout (mem_keep.mpr ⟨hin, hk⟩)
    push Not at hgone
    refine ⟨start, h.sublist.subset (by simp), ?_, hreach _ hgone.2⟩
    rintro rfl
    exact hgone.1 rfl
  · exact h.removed c hc hin

lemma Remains.walk (hacyclic : s.Acyclic) (h : Remains s C before (start :: after) seen) {seen' : List ObjectID}
    (hiff : ∀ k, k ∈ visited ↔ ReflTransGen (s.ParentUnless {k | k ∈ seen}) start.hash k)
    (hseen : ∀ k, k ∈ seen' ↔ k ∈ seen ∨ k ∈ visited) :
    Remains s C (keep start visited before ++ [start]) (keep start visited after) seen' := by
  have hlist : keep start visited before ++ [start] ++ keep start visited after =
      keep start visited (before ++ start :: after) := by simp [keep_append_cons]
  have hreach : ∀ k ∈ visited, s.Ancestor start.hash k :=
    fun k hk => Store.ancestor_of_unless ((hiff k).mp hk)
  refine ⟨?_, ?_, ?_, ?_⟩
  · rw [hlist]
    exact filter_sublist.trans h.sublist
  · rw [hlist]
    exact fun c hc hout => h.removed_keep hreach hc hout
  · rw [hlist]
    intro k hk c hc hkc
    obtain ⟨hin, hkept⟩ := mem_keep.mp hc
    rcases (hseen k).mp hk with hk | hk
    · exact h.apart k hk c hin hkc
    · -- a candidate that the walk has met is its start
      have hmet : c.hash ∈ visited → c.hash = k := by
        intro hv
        have hcs : c.hash = start.hash := hkept.resolve_right fun hno => hno hv
        exact hacyclic _ _ (hcs ▸ hreach k hk) hkc
      have hclosed : ClosedUpTo (s.ParentUnless {k | k ∈ seen}) ∅ {k | k ∈ visited} :=
        fun a ha b hab => .inl ((hiff b).mpr (((hiff a).mp ha).tail hab))
      rcases hclosed.exit hk hkc with hv | ⟨u, hu, hus, huc⟩
      · exact hmet hv
      · have hcu : c.hash = u := h.apart u hus c hin huc
        exact hmet (hcu ▸ hu)
  · intro c hc
    rw [hseen]
    rcases mem_append.mp hc with hc | hc
    · exact .inl (h.walked c (mem_keep.mp hc).1)
    · obtain rfl := mem_singleton.mp hc
      exact .inr ((hiff _).mpr .refl)

lemma independentsLoop_spec (hacyclic : s.Acyclic) (hdistinct : C.Pairwise (·.hash ≠ ·.hash))
    (hget : ∀ c ∈ C, s.getCommit c.hash = .ok c)
    (hhist : ∀ c ∈ C, ∀ h, s.Ancestor c.hash h → s.IsCommit h) {steps fuel : ℕ}
    (hsteps : s.unseen [] < steps) (h : Remains s C before (start :: after) seen) (hfuel : after.length < fuel) :
    ∃ result, independentsLoop s steps fuel (before ++ start :: after) seen before.length =
      .ok result ∧ IsIndependent s C result := by
  induction fuel generalizing before start after seen with
  | zero => omega
  | succ fuel ih =>
    have hstart : start ∈ C := h.sublist.subset (by simp)
    obtain ⟨st, visited, hst, hcand, hreach, hcase⟩ := @eliminateFrom_spec s start
      (before ++ start :: after) seen (hhist start hstart) (hget start hstart) steps hsteps
    have hnodup := hdistinct.sublist h.sublist
    have hbefore : ∀ c ∈ keep start visited before, c.hash ≠ start.hash := fun c hc =>
      (pairwise_append.mp hnodup).2.2 c (mem_keep.mp hc).1 start (.head _)
    have hindex : indexOf st.candidates start = (keep start visited before).length := by
      rw [hcand, keep_append_cons, indexOf_append_cons hbefore]
    have hlen : st.candidates.length =
        (keep start visited before).length + 1 + (keep start visited after).length := by
      rw [hcand, keep_append_cons, length_append, length_cons]
      omega
    have hunfold : independentsLoop s steps (fuel + 1) (before ++ start :: after) seen before.length =
        if (st.candidates.length : ℤ) ≤ indexOf st.candidates start + 1 then .ok st.candidates
        else independentsLoop s steps fuel st.candidates st.seen
          (indexOf st.candidates start + 1).toNat := by
      simp [independentsLoop, hst]
    by_cases hlast : keep start visited after = []
    · have hle : (st.candidates.length : ℤ) ≤ indexOf st.candidates start + 1 := by
        rw [hlast, length_nil] at hlen
        omega
      refine ⟨st.candidates, by rw [hunfold, if_pos hle], ?_, ?_, ?_⟩
      · rw [hcand]
        exact filter_sublist.trans h.sublist
      · rw [hcand]
        exact fun c hc hout => h.removed_keep hreach hc hout
      · intro c hc d hd hdc
        rcases hcase with hone | ⟨hiff, hseen⟩
        · exact eq_of_length_lt_two (by omega) hc hd
        · have hnext := h.walk hacyclic hiff hseen
          rw [hcand, keep_append_cons, hlast] at hc hd
          have heq := hnext.apart d.hash (hnext.walked d hd) c (mem_append_left _ hc) hdc
          have hin : ∀ x ∈ keep start visited before ++ [start], x ∈ C :=
            fun x hx => hnext.sublist.subset (mem_append_left _ hx)
          exact Except.ok.inj ((hget c (hin c hc)).symm.trans (heq ▸ hget d (hin d hd)))
    · obtain ⟨x, rest, hx⟩ := exists_cons_of_ne_nil hlast
      have hlt : ¬ (st.candidates.length : ℤ) ≤ indexOf st.candidates start + 1 := by
        rw [hx, length_cons] at hlen
        omega
      have hnotone : st.candidates.length ≠ 1 := by
        rw [hx, length_cons] at hlen
        omega
      obtain ⟨hiff, hseen⟩ := hcase.resolve_left hnotone
      have hnext := h.walk hacyclic hiff hseen
      rw [hx] at hnext
      have hshort : rest.length < fuel := by
        have hle := length_filter_le (fun c => c.hash = start.hash ∨ c.hash ∉ visited) after
        have hlen' : (keep start visited after).length = rest.length + 1 := by rw [hx, length_cons]
        unfold keep at hlen'
        omega
      obtain ⟨result, hresult, hind⟩ := ih hnext hshort
      refine ⟨result, ?_, hind⟩
      have hpos : (indexOf st.candidates start + 1).toNat =
          (keep start visited before ++ [start]).length := by
        rw [hindex, length_append, length_singleton]
        omega
      have hcand' : st.candidates = keep start visited before ++ [start] ++ x :: rest := by
        rw [hcand, keep_append_cons, hx, append_assoc, singleton_append]
      rw [hunfold, if_neg hlt, hpos, hcand']
      exact hresult

lemma IsIndependent.mem_iff {result : List Commit} (h : IsIndependent s C result)
    (hacyclic : s.Acyclic) (hget : ∀ c ∈ C, s.getCommit c.hash = .ok c) :
    c ∈ result ↔ c ∈ C ∧ ∀ d ∈ C, d ≠ c → ¬ s.Ancestor d.hash c.hash := by
  have hinj : ∀ x ∈ C, ∀ y ∈ C, x.hash = y.hash → x = y := fun x hx y hy heq =>
    Except.ok.inj ((hget x hx).symm.trans (heq ▸ hget y hy))
  constructor
  · intro hc
    have hcC := h.sublist.subset hc
    refine ⟨hcC, fun d hd hne hdc => hne ?_⟩
    -- a commit that nothing else reaches stands above `d` and is left
    obtain ⟨k, ⟨m, hm, rfl⟩, hmd, hmax⟩ := @exists_maximal _ s.Parent (fun k => ∃ m ∈ C, m.hash = k)
      d.hash hacyclic ((C.finite_toSet).image Commit.hash) ⟨d, hd, rfl⟩
    have hmres : m ∈ result := by
      by_contra hout
      obtain ⟨e, he, hem, hanc⟩ := h.removed m hm hout
      exact hem (hinj e he m hm (hmax e.hash ⟨e, he, rfl⟩ hanc))
    have hcm : c = m := h.apart c hc m hmres (hmd.trans hdc)
    exact hinj d hd c hcC (hacyclic _ _ hdc (hcm ▸ hmd))
  · rintro ⟨hcC, hnone⟩
    by_contra hout
    obtain ⟨d, hd, hne, hdc⟩ := h.removed c hcC hout
    exact hnone d hd hne hdc

variable {commits : List Commit} {sort : SortSlice}

lemma mem_removeDuplicated (hget : ∀ c ∈ commits, s.getCommit c.hash = .ok c) :
    c ∈ removeDuplicated commits ↔ c ∈ commits := by
  obtain ⟨hsub, -, -, hall⟩ := removeSeen_spec [] commits
  refine ⟨fun hc => hsub.subset hc, fun hc => ?_⟩
  obtain ⟨d, hd, hdc⟩ := (hall c hc).resolve_left not_mem_nil
  have heq : d = c :=
    Except.ok.inj ((hget d (hsub.subset hd)).symm.trans (hdc ▸ hget c hc))
  exact heq ▸ hd

lemma independents_spec (hsort : ∀ less l, (sort less l).Perm l) (hacyclic : s.Acyclic)
    (hget : ∀ c ∈ commits, s.getCommit c.hash = .ok c)
    (hhist : ∀ c ∈ commits, ∀ h, s.Ancestor c.hash h → s.IsCommit h) {fuel : ℕ}
    (hfuel : s.unseen [] < fuel) (hlen : commits.length < fuel) :
    ∃ result, Independents s sort fuel commits = .ok result ∧ result.Nodup ∧
      ∀ c, c ∈ result ↔ c ∈ commits ∧ ∀ d ∈ commits, d ≠ c → ¬ s.Ancestor d.hash c.hash := by
  have hperm : (sortByCommitDateDesc sort commits).Perm commits := hsort _ _
  set sorted := sortByCommitDateDesc sort commits with hsorted
  set C := removeDuplicated sorted with hC
  obtain ⟨hsub, hdistinct, -, -⟩ := removeSeen_spec [] sorted
  have hmem : ∀ c, c ∈ C ↔ c ∈ commits := by
    intro c
    rw [hC, mem_removeDuplicated fun d hd => hget d (hperm.mem_iff.mp hd), hperm.mem_iff]
  have hgetC : ∀ c ∈ C, s.getCommit c.hash = .ok c := fun c hc => hget c ((hmem c).mp hc)
  have hlenC : C.length < fuel := (hsub.length_le.trans hperm.length_eq.le).trans_lt hlen
  have hresult : ∃ result, Independents s sort fuel commits = .ok result ∧
      IsIndependent s C result := by
    by_cases hshort : C.length < 2
    · refine ⟨C, by simp only [Independents, ← hsorted, ← hC, if_pos hshort], .refl _,
        fun c hc hout => absurd hc hout, fun c hc d hd _ => ?_⟩
      exact eq_of_length_lt_two hshort hc hd
    · obtain ⟨start, after, hcons⟩ : ∃ start after, C = start :: after :=
        exists_cons_of_length_pos (by omega)
      have hremains : Remains s C [] (start :: after) [] := by
        rw [hcons]
        exact ⟨.refl _, fun c hc hout => absurd hc hout, by simp, by simp⟩
      have hafter : after.length < fuel := by
        rw [hcons, length_cons] at hlenC
        omega
      obtain ⟨result, hloop, hind⟩ := independentsLoop_spec hacyclic hdistinct hgetC
        (fun c hc => hhist c ((hmem c).mp hc)) hfuel hremains hafter
      refine ⟨result, ?_, hind⟩
      simp only [Independents, ← hsorted, ← hC, if_neg hshort]
      rw [hcons]
      exact hloop
  obtain ⟨result, hres, hind⟩ := hresult
  refine ⟨result, hres, ?_, fun c => ?_⟩
  · have hpair := hdistinct.sublist hind.sublist
    exact hpair.imp fun hne heq => hne (congrArg Commit.hash heq)
  · rw [hind.mem_iff hacyclic hgetC]
    simp only [hmem]

/-- `Independents` gives each commit of the list that no other one reaches, once. -/
theorem Independents_exact (hsort : ∀ less l, (sort less l).Perm l) (hacyclic : s.Acyclic)
    (hget : ∀ c ∈ commits, s.getCommit c.hash = .ok c)
    (hhist : ∀ c ∈ commits, ∀ h, s.Ancestor c.hash h → s.IsCommit h) :
    ∃ enough, ∀ fuel, enough ≤ fuel → ∃ result, Independents s sort fuel commits = .ok result ∧ result.Nodup ∧
      ∀ c, c ∈ result ↔ c ∈ commits ∧ ∀ d ∈ commits, d ≠ c → ¬ s.Ancestor d.hash c.hash := by
  refine ⟨s.unseen [] + commits.length + 1, fun fuel hfuel => ?_⟩
  exact independents_spec hsort hacyclic hget hhist (by omega) (by omega)

theorem Independents_crissCross : Independents (.ofCommits crissCross) insertionSort 20
        ([1, 3, 0, 1, 4].filterMap (crissCross[·]?)) = .ok ([3, 4].filterMap (crissCross[·]?)) ∧
      ∃ enough, ∀ fuel, enough ≤ fuel → ∃ result, Independents (.ofCommits crissCross) insertionSort fuel
          ([1, 3, 0, 1, 4].filterMap (crissCross[·]?)) = .ok result ∧ result.Nodup ∧
        ∀ c, c ∈ result ↔ c ∈ [1, 3, 0, 1, 4].filterMap (crissCross[·]?) ∧
          ∀ d ∈ [1, 3, 0, 1, 4].filterMap (crissCross[·]?), d ≠ c →
            ¬ (Store.ofCommits crissCross).Ancestor d.hash c.hash := by
  have hmem : ∀ c ∈ [1, 3, 0, 1, 4].filterMap (crissCross[·]?), c ∈ crissCross := by decide
  exact ⟨by decide +kernel, Independents_exact perm_insertionSort crissCross_acyclic (by decide)
    fun c hc => crissCross_history c (hmem c hc)⟩

end Independents

end GoGit.History
