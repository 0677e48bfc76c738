import GoGit.CommitTopo

/-! If every commit comes before its parents in the order of the heap, a commit is explored after all its children.
The counts of the parents of a visited commit are then complete, and a parent is given out after its last child. -/
namespace GoGit.CommitTopo

open Relation CommitNode List Function

variable {gci : CommitNodeIndex} {heap visits : Stackable} {N : List CommitNode} {start : CommitNode}

variable {h : ObjectID}

variable {n : CommitNode}

section History

def Edge (N : List CommitNode) (n m : CommitNode) : Prop := n ∈ N ∧ m ∈ N ∧ m.id ∈ n.parentHashes

structure IsHistory (gci : CommitNodeIndex) (start : CommitNode) (N : List CommitNode) : Prop where
  start_mem : start ∈ N
  nodup : N.Nodup
  id_inj : ∀ n ∈ N, ∀ m ∈ N, n.id = m.id → n = m
  parents : ∀ n ∈ N, ∀ i h, n.parentHashes[i]? = some h →
    ∃ m ∈ N, gci.parentNode n i = .ok m ∧ m.id = h
  reach : ∀ n ∈ N, ReflTransGen (Edge N) start n

lemma IsHistory.exists_parent (hN : IsHistory gci start N) (hn : n ∈ N)
    (hh : h ∈ n.parentHashes) : ∃ m ∈ N, m.id = h := by
  obtain ⟨i, hi⟩ := mem_iff_getElem?.mp hh
  obtain ⟨m, hm, -, hid⟩ := hN.parents n hn i h hi
  exact ⟨m, hm, hid⟩

structure Keyed {K : Type} [LinearOrder K] (heap : Stackable) (N : List CommitNode)
    (key : CommitNode → K) : Prop where
  parent : ∀ n m, Edge N n m → key m < key n
  level : ∀ x ∈ N, ∀ n ∈ N, ∀ m ∈ N, key m ≤ key n →
    level (x.generationV2 ≠ 0) m ≤ level (x.generationV2 ≠ 0) n
  top : ∀ l a rest, heap.Built l → (∀ x ∈ l, x ∈ N) → heap.pop l = some (a, rest) →
    ∀ b ∈ l, key b ≤ key a

variable {K : Type} [LinearOrder K] {key : CommitNode → K}

lemma Keyed.le (hk : Keyed heap N key) {n m : CommitNode} (h : ReflTransGen (Edge N) n m) : key m ≤ key n := by
  induction h with
  | refl => exact le_rfl
  | tail _ hp ih => exact (hk.parent _ _ hp).le.trans ih

end History

variable {S : Finset CommitNode}

section Counts

/-- The number of times the nodes of a set name a parent. -/
def edges (S : Finset CommitNode) (h : ObjectID) : ℤ := ∑ n ∈ S, (n.parentHashes.count h : ℤ)

lemma edges_insert (hn : n ∉ S) (h : ObjectID) :
    edges (insert n S) h = n.parentHashes.count h + edges S h := Finset.sum_insert hn

lemma edges_eq_zero_iff : edges S h = 0 ↔ ∀ n ∈ S, h ∉ n.parentHashes := by
  rw [edges, Finset.sum_eq_zero_iff_of_nonneg fun _ _ => Int.natCast_nonneg _]
  simp [count_eq_zero]

lemma edges_mono {S T : Finset CommitNode} (hTS : T ⊆ S) (h : ObjectID) : edges T h ≤ edges S h :=
  Finset.sum_le_sum_of_subset_of_nonneg hTS fun _ _ _ => Int.natCast_nonneg _

lemma edges_sub_eq_zero_iff {S T : Finset CommitNode} (hTS : T ⊆ S) :
    edges S h - edges T h = 0 ↔ ∀ n ∈ S, h ∈ n.parentHashes → n ∈ T := by
  have hsum : edges (S \ T) h + edges T h = edges S h := Finset.sum_sdiff hTS
  have hzero : edges S h - edges T h = 0 ↔ edges (S \ T) h = 0 := by omega
  rw [hzero, edges_eq_zero_iff]
  constructor
  · intro hno n hn hh
    by_contra hnT
    exact hno n (Finset.mem_sdiff.mpr ⟨hn, hnT⟩) hh
  · intro hall n hn hh
    obtain ⟨hnS, hnT⟩ := Finset.mem_sdiff.mp hn
    exact hnT (hall n hnS hh)

lemma update_add_count (counts : ObjectID → ℤ) (h : ObjectID) (hashes : List ObjectID) (d : ℤ) (k : ObjectID) :
    update counts h (counts h + d) k + d * hashes.count k = counts k + d * (h :: hashes).count k := by
  by_cases hk : k = h
  · subst hk
    rw [update_self, count_cons_self]
    push_cast
    ring
  · rw [update_of_ne hk, count_cons_of_ne (Ne.symm hk)]

end Counts

section CountParents

lemma countParents_spec (hN : IsHistory gci start N) {t : CommitNode} (ht : t ∈ N) {i : ℕ}
    {hashes : List ObjectID} (hdrop : t.parentHashes.drop i = hashes) {iter : Iterator}
    (hignore : iter.ignore = []) (hnonneg : ∀ h, 0 ≤ iter.inCounts h) (hbuilt : heap.Built iter.exploreStack) :
    ∃ iter' new, countParents gci heap t i hashes iter = .ok iter' ∧
      iter'.visitStack = iter.visitStack ∧ iter'.ignore = [] ∧
      (∀ h, iter'.inCounts h = iter.inCounts h + hashes.count h) ∧
      iter'.exploreStack.Perm (new ++ iter.exploreStack) ∧ heap.Built iter'.exploreStack ∧
      new.Nodup ∧ ∀ m, m ∈ new ↔ m ∈ N ∧ m.id ∈ hashes ∧ iter.inCounts m.id = 0 := by
  induction hashes generalizing i iter with
  | nil => exact ⟨iter, [], rfl, rfl, hignore, by simp, .rfl, hbuilt, .nil, by simp⟩
  | cons h hashes ih =>
    have hget : t.parentHashes[i]? = some h := by
      have := congrArg (·[0]?) hdrop
      simpa using this
    have hdrop' : t.parentHashes.drop (i + 1) = hashes := by
      rw [← drop_drop, hdrop]
      rfl
    obtain ⟨pc, hpc, hnode, hid⟩ := hN.parents t ht i h hget
    set counts := update iter.inCounts h (iter.inCounts h + 1) with hcounts
    have hsum : ∀ k, counts k + hashes.count k = iter.inCounts k + (h :: hashes).count k := by
      simpa using update_add_count iter.inCounts h hashes 1
    have hself : counts h = iter.inCounts h + 1 := update_self ..
    have hother : ∀ k, k ≠ h → counts k = iter.inCounts k := fun k hk => update_of_ne hk ..
    have hnonneg' : ∀ k, 0 ≤ counts k := by
      intro k
      have hle : hashes.count k ≤ (h :: hashes).count k := count_le_count_cons
      have := hsum k
      have := hnonneg k
      omega
    have hzero : ∀ k, counts k = 0 ↔ k ≠ h ∧ iter.inCounts k = 0 := by
      intro k
      by_cases hk : k = h
      · have := hnonneg h
        simp only [hk, hself, ne_eq, not_true_eq_false, false_and, iff_false]
        omega
      · simp [hother k hk, hk]
    have hnotin : h ∉ iter.ignore := by simp [hignore]
    by_cases hone : counts h = 1
    · obtain ⟨iter', new, hrun, hvisit, hign, hcount, hperm, hb, hnd, hmem⟩ :=
        @ih (i + 1) hdrop' { iter with
          inCounts := counts, exploreStack := heap.push iter.exploreStack pc }
          hignore hnonneg' (hbuilt.push pc)
      have hnew : pc ∉ new := fun hin => ((hzero _).mp ((hmem pc).mp hin).2.2).1 hid
      refine ⟨iter', pc :: new, ?_, hvisit, hign, fun k => (hcount k).trans (hsum k), ?_, hb,
        nodup_cons.mpr ⟨hnew, hnd⟩, ?_⟩
      · rw [countParents, if_neg hnotin]
        simp only [← hcounts, hone, if_true, hnode]
        exact hrun
      · calc iter'.exploreStack.Perm _ := hperm
          _ |>.Perm (new ++ pc :: iter.exploreStack) := (heap.push_perm _ _).append_left new
          _ |>.Perm (pc :: (new ++ iter.exploreStack)) := perm_middle
      · intro m
        have hfirst : iter.inCounts h = 0 := by omega
        constructor
        · rintro hin
          rcases mem_cons.mp hin with rfl | hin
          · exact ⟨hpc, by simp [hid], hid ▸ hfirst⟩
          · obtain ⟨hm, hh, hz⟩ := (hmem m).mp hin
            exact ⟨hm, mem_cons_of_mem _ hh, ((hzero _).mp hz).2⟩
        · rintro ⟨hm, hh, hz⟩
          by_cases hk : m.id = h
          · exact mem_cons.mpr (.inl (hN.id_inj m hm pc hpc (hk.trans hid.symm)))
          · have hin : m.id ∈ hashes := (mem_cons.mp hh).resolve_left hk
            exact mem_cons_of_mem _ ((hmem m).mpr ⟨hm, hin, (hzero _).mpr ⟨hk, hz⟩⟩)
    · obtain ⟨iter', new, hrun, hvisit, hign, hcount, hperm, hb, hnd, hmem⟩ :=
        @ih (i + 1) hdrop' { iter with inCounts := counts } hignore hnonneg' hbuilt
      refine ⟨iter', new, ?_, hvisit, hign, fun k => (hcount k).trans (hsum k), hperm, hb, hnd, ?_⟩
      · rw [countParents, if_neg hnotin]
        simp only [← hcounts, hone, if_false]
        exact hrun
      · intro m
        rw [hmem m]
        constructor
        · rintro ⟨hm, hh, hz⟩
          exact ⟨hm, mem_cons_of_mem _ hh, ((hzero _).mp hz).2⟩
        · rintro ⟨hm, hh, hz⟩
          have hk : m.id ≠ h := by
            rintro hk
            rw [hk] at hz
            omega
          exact ⟨hm, (mem_cons.mp hh).resolve_left hk, (hzero _).mpr ⟨hk, hz⟩⟩

end CountParents

section VisitParents

variable (visits) in
lemma visitParents_spec (hN : IsHistory gci start N) {parents : List (ObjectID × CommitNode)}
    (hparents : ∀ p ∈ parents, p.2 ∈ N ∧ p.2.id = p.1) {iter : Iterator} (hignore : iter.ignore = [])
    (hle : ∀ h, ((parents.map Prod.fst).count h : ℤ) ≤ iter.inCounts h) :
    ∃ new, (visitParents visits parents iter).exploreStack = iter.exploreStack ∧
      (visitParents visits parents iter).ignore = [] ∧ (∀ h, (visitParents visits parents iter).inCounts h =
        iter.inCounts h - (parents.map Prod.fst).count h) ∧
      (visitParents visits parents iter).visitStack.Perm (new ++ iter.visitStack) ∧
      new.Nodup ∧ ∀ m, m ∈ new ↔ m ∈ N ∧ m.id ∈ parents.map Prod.fst ∧
        iter.inCounts m.id = (parents.map Prod.fst).count m.id := by
  induction parents generalizing iter with
  | nil => exact ⟨[], rfl, hignore, by simp [visitParents], .rfl, .nil, by simp⟩
  | cons p parents ih =>
    obtain ⟨h, pc⟩ := p
    obtain ⟨hpc, hid⟩ : pc ∈ N ∧ pc.id = h := hparents _ mem_cons_self
    have hparents' : ∀ p ∈ parents, p.2 ∈ N ∧ p.2.id = p.1 :=
      fun p hp => hparents p (mem_cons_of_mem _ hp)
    set hashes := parents.map Prod.fst with hhashes
    set counts := update iter.inCounts h (iter.inCounts h - 1) with hcounts
    have hcons : (((h, pc) :: parents).map Prod.fst) = h :: hashes := rfl
    have hsum : ∀ k, counts k - hashes.count k = iter.inCounts k - (h :: hashes).count k := by
      simpa [← sub_eq_add_neg] using update_add_count iter.inCounts h hashes (-1)
    have hle' : ∀ k, (hashes.count k : ℤ) ≤ counts k := by
      intro k
      have h1 := hle k
      have h2 := hsum k
      rw [hcons] at h1
      omega
    have heq : ∀ k, counts k = hashes.count k ↔ iter.inCounts k = (h :: hashes).count k := by
      intro k
      have := hsum k
      omega
    have hnotin : h ∉ iter.ignore := by simp [hignore]
    rw [hcons, visitParents, if_neg hnotin]
    simp only [← hcounts]
    by_cases hlast : counts h = 0
    · rw [if_pos hlast]
      obtain ⟨new, hexplore, hign, hcount, hperm, hnd, hmem⟩ :=
        @ih hparents' { iter with inCounts := counts, visitStack := visits.push iter.visitStack pc }
          hignore hle'
      have hgone : h ∉ hashes := by
        have := hle' h
        exact count_eq_zero.mp (by omega)
      have hnew : pc ∉ new := fun hin => hgone (hid ▸ ((hmem pc).mp hin).2.1)
      refine ⟨pc :: new, hexplore, hign, fun k => (hcount k).trans (hsum k), ?_, nodup_cons.mpr ⟨hnew, hnd⟩, ?_⟩
      · exact hperm.trans (((visits.push_perm _ _).append_left new).trans perm_middle)
      · intro m
        rw [mem_cons, hmem m, heq, mem_cons]
        constructor
        · rintro (rfl | ⟨hm, hh, hz⟩)
          · refine ⟨hpc, .inl hid, (heq _).mp ?_⟩
            rw [hid, hlast, count_eq_zero.mpr hgone]
            rfl
          · exact ⟨hm, .inr hh, hz⟩
        · rintro ⟨hm, hk | hh, hz⟩
          · exact .inl (hN.id_inj m hm pc hpc (hk.trans hid.symm))
          · exact .inr ⟨hm, hh, hz⟩
    · rw [if_neg hlast]
      obtain ⟨new, hexplore, hign, hcount, hperm, hnd, hmem⟩ :=
        @ih hparents' { iter with inCounts := counts } hignore hle'
      refine ⟨new, hexplore, hign, fun k => (hcount k).trans (hsum k), hperm, hnd, ?_⟩
      intro m
      rw [hmem m, heq, mem_cons]
      constructor
      · rintro ⟨hm, hh, hz⟩
        exact ⟨hm, .inr hh, hz⟩
      · rintro ⟨hm, hk | hh, hz⟩
        · -- the parent is named again later, since its count is not used up
          refine ⟨hm, ?_, hz⟩
          have := (heq _).mpr hz
          rw [hk] at this ⊢
          by_contra hgone
          rw [count_eq_zero.mpr hgone] at this
          exact hlast this
        · exact ⟨hm, hh, hz⟩

end VisitParents

section Explore

variable {rest : List CommitNode} {t : CommitNode}

/-- The state of an iterator: `E` are the commits that were explored, `V` those that were given out. -/
structure Explored (heap : Stackable) (start : CommitNode) (N : List CommitNode)
    (V E : Finset CommitNode) (iter : Iterator) : Prop where
  subset : ∀ n ∈ E, n ∈ N
  visited : V ⊆ E
  built : heap.Built iter.exploreStack
  nodup : iter.exploreStack.Nodup
  fringe : ∀ n ∈ iter.exploreStack, n ∈ N ∧ n ∉ E
  found : ∀ n ∈ iter.exploreStack, n = start ∨ ∃ c ∈ E, n.id ∈ c.parentHashes
  root : start ∈ E ∨ start ∈ iter.exploreStack
  closed : ∀ n ∈ E, ∀ m ∈ N, m.id ∈ n.parentHashes → m ∈ E ∨ m ∈ iter.exploreStack
  children : ∀ n ∈ E, ∀ c ∈ N, n.id ∈ c.parentHashes → c ∈ E
  counts : ∀ h, iter.inCounts h = edges E h - edges V h
  complete : ∀ v ∈ V, ∀ h ∈ v.parentHashes, ∀ c ∈ N, h ∈ c.parentHashes → c ∈ E
  ignore : iter.ignore = []

variable {K : Type} [LinearOrder K] {key : CommitNode → K} {V E : Finset CommitNode} {iter : Iterator}

section

variable (hI : Explored heap start N V E iter)

include hI

lemma Explored.above (hN : IsHistory gci start N)
    (hn : n ∈ N) (hnE : n ∉ E) : ∃ z ∈ iter.exploreStack, ReflTransGen (Edge N) z n := by
  have hall : ∀ m, ReflTransGen (Edge N) start m →
      m ∈ E ∨ ∃ z ∈ iter.exploreStack, ReflTransGen (Edge N) z m := by
    intro m hm
    induction hm with
    | refl => exact hI.root.imp_right fun h => ⟨start, h, .refl⟩
    | tail _ hstep ih =>
      rcases ih with hE | ⟨z, hz, hreach⟩
      · exact (hI.closed _ hE _ hstep.2.1 hstep.2.2).imp_right fun h => ⟨_, h, .refl⟩
      · exact .inr ⟨z, hz, hreach.tail hstep⟩
  exact (hall n (hN.reach n hn)).resolve_left hnE

lemma Explored.edges_le (h : ObjectID) : 0 ≤ iter.inCounts h := by
  have hle := edges_mono hI.visited h
  rw [hI.counts h]
  omega

lemma Explored.of_visitStack (rest : List CommitNode) : Explored heap start N V E { iter with visitStack := rest } :=
  ⟨hI.subset, hI.visited, hI.built, hI.nodup, hI.fringe, hI.found, hI.root, hI.closed, hI.children,
    hI.counts, hI.complete, hI.ignore⟩

end

lemma IsHistory.start_not_parent (hN : IsHistory gci start N) (hk : Keyed heap N key)
    (hn : n ∈ N) : start.id ∉ n.parentHashes := by
  intro hstart
  have hlt := hk.parent n start ⟨hn, hN.start_mem, hstart⟩
  exact absurd (hk.le (hN.reach n hn)) (not_le.mpr hlt)

section

variable (hI : Explored heap start N V E iter)

include hI

lemma Explored.children_top (hN : IsHistory gci start N) (hk : Keyed heap N key)
    (hpop : heap.pop iter.exploreStack = some (t, rest)) (ht : t ∈ N) {c : CommitNode} (hc : c ∈ N)
    (hchild : t.id ∈ c.parentHashes) : c ∈ E := by
  by_contra hcE
  obtain ⟨z, hz, hreach⟩ := hI.above hN hc hcE
  have htop := hk.top _ t rest hI.built (fun x hx => (hI.fringe x hx).1) hpop z hz
  have hlt := hk.parent c t ⟨hc, ht, hchild⟩
  exact absurd (hlt.trans_le ((hk.le hreach).trans htop)) (lt_irrefl _)

lemma Explored.count_eq_zero_iff (ht : t ∈ N)
    (htE : t ∉ E) (hh : h ∈ t.parentHashes) : iter.inCounts h = 0 ↔ ∀ c ∈ E, h ∉ c.parentHashes := by
  have hnone : edges V h = 0 := by
    rw [edges_eq_zero_iff]
    intro v hv hvh
    exact htE (hI.complete v hv h hvh t ht hh)
  rw [hI.counts h, hnone, sub_zero, edges_eq_zero_iff]

lemma Explored.step (hN : IsHistory gci start N) (hk : Keyed heap N key)
    (hpop : heap.pop iter.exploreStack = some (t, rest)) :
    ∃ iter', countParents gci heap t 0 t.parentHashes { iter with exploreStack := rest } = .ok iter' ∧
      iter'.visitStack = iter.visitStack ∧ t ∈ N ∧ t ∉ E ∧
      (∀ x, x ∈ E ∨ x ∈ iter.exploreStack → x ∈ insert t E ∨ x ∈ iter'.exploreStack) ∧
      Explored heap start N V (insert t E) iter' := by
  have hne : iter.exploreStack ≠ [] := by
    intro hnil
    rw [hnil, heap.pop_nil] at hpop
    cases hpop
  obtain ⟨a, r, hpop', hperm⟩ := heap.pop_perm _ hne
  obtain ⟨rfl, rfl⟩ : a = t ∧ r = rest := by simpa using hpop'.symm.trans hpop
  have hmem : ∀ x, x ∈ iter.exploreStack ↔ x = a ∨ x ∈ r := fun x => by simp [hperm.mem_iff]
  obtain ⟨hanr, hrnd⟩ : a ∉ r ∧ r.Nodup := nodup_cons.mp (hperm.nodup_iff.mp hI.nodup)
  obtain ⟨ha, haE⟩ := hI.fringe a ((hmem a).mpr (.inl rfl))
  have hup := fun c (hc : c ∈ N) => hI.children_top hN hk hpop ha hc
  have hself : a.id ∉ a.parentHashes := fun h => haE (hup a ha h)
  obtain ⟨iter', new, hrun, hvisit, hign, hcount, hp, hb, hnd, hnew⟩ :=
    @countParents_spec gci heap N start hN a ha 0 _ drop_zero { iter with exploreStack := r }
      hI.ignore hI.edges_le (hI.built.pop hpop)
  have hnew' : ∀ m, m ∈ new ↔ m ∈ N ∧ m.id ∈ a.parentHashes ∧ ∀ c ∈ E, m.id ∉ c.parentHashes := by
    intro m
    rw [hnew m]
    refine and_congr_right fun _ => and_congr_right fun hpar => ?_
    exact hI.count_eq_zero_iff ha haE hpar
  have hmem' : ∀ x, x ∈ iter'.exploreStack ↔ x ∈ new ∨ x ∈ r := fun x => by
    simp [hp.mem_iff]
  have hkeep : ∀ x, x ∈ E ∨ x ∈ iter.exploreStack → x ∈ insert a E ∨ x ∈ iter'.exploreStack := by
    rintro x (h | h)
    · exact .inl (Finset.mem_insert_of_mem h)
    · rcases (hmem x).mp h with h | h
      · exact .inl (h ▸ Finset.mem_insert_self _ _)
      · exact .inr ((hmem' x).mpr (.inr h))
  refine ⟨iter', hrun, hvisit, ha, haE, hkeep, ?_⟩
  constructor
  case subset =>
    intro n hn
    rcases Finset.mem_insert.mp hn with rfl | hn
    · exact ha
    · exact hI.subset n hn
  case visited => exact hI.visited.trans (Finset.subset_insert _ _)
  case built => exact hb
  case nodup =>
    rw [hp.nodup_iff, nodup_append']
    refine ⟨hnd, hrnd, fun m hm hmr => ?_⟩
    obtain ⟨_, hpar, hnone⟩ := (hnew' m).mp hm
    rcases hI.found m ((hmem m).mpr (.inr hmr)) with rfl | ⟨c, hc, hch⟩
    · exact hN.start_not_parent hk ha hpar
    · exact hnone c hc hch
  case fringe =>
    intro n hn
    rcases (hmem' n).mp hn with hn | hn
    · obtain ⟨hnN, hpar, -⟩ := (hnew' n).mp hn
      refine ⟨hnN, fun hin => ?_⟩
      rcases Finset.mem_insert.mp hin with rfl | hin
      · exact hself hpar
      · exact haE (hI.children n hin a ha hpar)
    · obtain ⟨hnN, hnE⟩ := hI.fringe n ((hmem n).mpr (.inr hn))
      refine ⟨hnN, fun hin => ?_⟩
      rcases Finset.mem_insert.mp hin with rfl | hin
      · exact hanr hn
      · exact hnE hin
  case found =>
    intro n hn
    rcases (hmem' n).mp hn with hn | hn
    · exact .inr ⟨a, Finset.mem_insert_self _ _, ((hnew' n).mp hn).2.1⟩
    · refine (hI.found n ((hmem n).mpr (.inr hn))).imp_right ?_
      rintro ⟨c, hc, hch⟩
      exact ⟨c, Finset.mem_insert_of_mem hc, hch⟩
  case root => exact hkeep start hI.root
  case closed =>
    intro n hn m hm hpar
    rcases Finset.mem_insert.mp hn with rfl | hn
    · -- a parent that is not new has an explored child already
      by_cases hnone : ∀ c ∈ E, m.id ∉ c.parentHashes
      · exact .inr ((hmem' m).mpr (.inl ((hnew' m).mpr ⟨hm, hpar, hnone⟩)))
      · push Not at hnone
        obtain ⟨c, hc, hch⟩ := hnone
        exact hkeep m (hI.closed c hc m hm hch)
    · exact hkeep m (hI.closed n hn m hm hpar)
  case children =>
    intro n hn c hc hch
    refine Finset.mem_insert_of_mem ?_
    rcases Finset.mem_insert.mp hn with rfl | hn
    · exact hup c hc hch
    · exact hI.children n hn c hc hch
  case counts =>
    intro h
    rw [hcount h, edges_insert haE, hI.counts h]
    ring
  case complete =>
    intro v hv h hh c hc hch
    exact Finset.mem_insert_of_mem (hI.complete v hv h hh c hc hch)
  case ignore => exact hign

end

/-- What the visit of a commit needs: it is explored, and so are all children of its parents. -/
def Settled (N : List CommitNode) (E : Finset CommitNode) (next : CommitNode) : Prop :=
  next ∈ E ∧ ∀ m ∈ N, m.id ∈ next.parentHashes → ∀ c ∈ N, m.id ∈ c.parentHashes → c ∈ E

variable {next : CommitNode} {minimum : UInt64}

section

variable (hI : Explored heap start N V E iter)

include hI

lemma Explored.settled_of_nil (hN : IsHistory gci start N)
    (hnil : iter.exploreStack = []) (hnext : next ∈ N) : Settled N E next := by
  have hall : ∀ n ∈ N, n ∈ E := by
    intro n hn
    by_contra hnE
    obtain ⟨z, hz, -⟩ := hI.above hN hn hnE
    simp [hnil] at hz
  exact ⟨hall next hnext, fun _ _ _ c hc _ => hall c hc⟩

lemma Explored.settled_of_single (hN : IsHistory gci start N)
    (hk : Keyed heap N key) {t next : CommitNode} (hsingle : iter.exploreStack = [t])
    (hother : t.id ≠ next.id) (hdisc : next ∈ E ∨ next ∈ iter.exploreStack) : Settled N E next := by
  have hnextE : next ∈ E := hdisc.resolve_right fun h => by
    rw [hsingle, mem_singleton] at h
    exact hother (congrArg CommitNode.id h.symm)
  refine ⟨hnextE, fun m hm hpar c hc hch => ?_⟩
  rcases hI.closed next hnextE m hm hpar with hmE | hmt
  · exact hI.children m hmE c hc hch
  · by_contra hcE
    obtain ⟨z, hz, hreach⟩ := hI.above hN hc hcE
    rw [hsingle, mem_singleton] at hz hmt
    subst hz hmt
    exact absurd ((hk.parent c m ⟨hc, hm, hch⟩).trans_le (hk.le hreach)) (lt_irrefl _)

lemma Explored.settled_of_level (hk : Keyed heap N key)
    {t next : CommitNode} (hpop : heap.pop iter.exploreStack = some (t, rest))
    (ht : t ∈ N) (hnext : next ∈ N) (hmin : minimum ≤ level (next.generationV2 ≠ 0) next)
    (hparents : ∀ m ∈ N, m.id ∈ next.parentHashes → minimum ≤ level (next.generationV2 ≠ 0) m)
    (hlow : level (next.generationV2 ≠ 0) t < minimum) (hdisc : next ∈ E ∨ next ∈ iter.exploreStack) :
    Settled N E next := by
  have hout : ∀ n ∈ N, minimum ≤ level (next.generationV2 ≠ 0) n → n ∉ iter.exploreStack := by
    intro n hn hle hin
    have htop := hk.top _ t rest hI.built (fun x hx => (hI.fringe x hx).1) hpop n hin
    have hlevel := hk.level next hnext t ht n hn htop
    exact UInt64.lt_irrefl _ (UInt64.lt_of_le_of_lt (UInt64.le_trans hle hlevel) hlow)
  have hnextE : next ∈ E := hdisc.resolve_right (hout next hnext hmin)
  refine ⟨hnextE, fun m hm hpar c hc hch => ?_⟩
  have hmE := (hI.closed next hnextE m hm hpar).resolve_right (hout m hm (hparents m hm hpar))
  exact hI.children m hmE c hc hch

end

lemma card_sdiff_insert_lt (ht : t ∈ N) (htS : t ∉ S) : (N.toFinset \ insert t S).card < (N.toFinset \ S).card := by
  refine Finset.card_lt_card (Finset.ssubset_iff_of_subset ?_ |>.mpr ⟨t, ?_, ?_⟩)
  · exact Finset.sdiff_subset_sdiff le_rfl (Finset.subset_insert _ _)
  · simp [ht, htS]
  · simp

lemma explore_spec (hN : IsHistory gci start N) (hk : Keyed heap N key)
    (hnext : next ∈ N) (hmin : minimum ≤ level (next.generationV2 ≠ 0) next)
    (hparents : ∀ m ∈ N, m.id ∈ next.parentHashes → minimum ≤ level (next.generationV2 ≠ 0) m)
    {fuel : ℕ} (hI : Explored heap start N V E iter) (hdisc : next ∈ E ∨ next ∈ iter.exploreStack)
    (hfuel : (N.toFinset \ E).card < fuel) :
    ∃ iter' E', explore gci heap next (next.generationV2 ≠ 0) minimum fuel iter = .ok iter' ∧
      iter'.visitStack = iter.visitStack ∧ Explored heap start N V E' iter' ∧ Settled N E' next := by
  induction fuel generalizing E iter with
  | zero => omega
  | succ fuel ih =>
    rw [explore]
    by_cases hne : iter.exploreStack = []
    · rw [hne, heap.pop_nil]
      exact ⟨iter, E, rfl, rfl, hI, hI.settled_of_nil hN hne hnext⟩
    obtain ⟨t, rest, hpop, hperm⟩ := heap.pop_perm _ hne
    obtain ⟨iter₁, hrun, hvisit, ht, htE, hkeep, hI₁⟩ := hI.step hN hk hpop
    simp only [hpop]
    split_ifs with hstop hlow
    · have hsingle : iter.exploreStack = [t] := by
        obtain ⟨u, hu⟩ := length_eq_one_iff.mp hstop.2
        have htu : t ∈ iter.exploreStack := hperm.mem_iff.mpr mem_cons_self
        rw [hu, mem_singleton] at htu
        rw [hu, htu]
      exact ⟨iter, E, rfl, rfl, hI, hI.settled_of_single hN hk hsingle hstop.1 hdisc⟩
    · exact ⟨iter, E, rfl, rfl, hI, hI.settled_of_level hk hpop ht hnext hmin hparents hlow hdisc⟩
    · rw [hrun]
      have hless : (N.toFinset \ insert t E).card < (N.toFinset \ E).card := card_sdiff_insert_lt ht htE
      obtain ⟨iter', E', hrun', hvisit', hI', hsettled⟩ := ih hI₁ (hkeep next hdisc) (by omega)
      exact ⟨iter', E', hrun', hvisit'.trans hvisit, hI', hsettled⟩

end Explore

section Visit

variable {n : CommitNode}

lemma loadParents_spec (hN : IsHistory gci start N) (hn : n ∈ N) :
    ∃ parents, loadParents gci n = .ok parents ∧ (∀ m ∈ parents, m ∈ N) ∧
      parents.map CommitNode.id = n.parentHashes := by
  have hget : ∀ i, ∃ m, i < n.parentHashes.length →
      m ∈ N ∧ gci.parentNode n i = .ok m ∧ n.parentHashes[i]? = some m.id := by
    intro i
    by_cases hi : i < n.parentHashes.length
    · obtain ⟨m, hm, hnode, hid⟩ := hN.parents n hn i _ (getElem?_eq_getElem hi)
      exact ⟨m, fun _ => ⟨hm, hnode, by rw [hid, getElem?_eq_getElem hi]⟩⟩
    · exact ⟨n, fun h => absurd h hi⟩
  choose g hg using hget
  refine ⟨(List.range n.parentHashes.length).map g, ?_, ?_, ?_⟩
  · exact mapM_ok fun i hi => (hg i (mem_range.mp hi)).2.1
  · intro m hm
    obtain ⟨i, hi, rfl⟩ := mem_map.mp hm
    exact (hg i (mem_range.mp hi)).1
  · refine ext_getElem? fun i => ?_
    by_cases hi : i < n.parentHashes.length
    · rw [(hg i hi).2.2]
      simp [hi]
    · simp [hi]

lemma minimumLevel_le (v2 : Bool) (next : CommitNode) (parents : List CommitNode) :
    minimumLevel v2 next parents ≤ level v2 next ∧ ∀ m ∈ parents, minimumLevel v2 next parents ≤ level v2 m := by
  have hfold : ∀ (l : List CommitNode) (x : UInt64),
      l.foldl (fun m pc => if level v2 pc < m then level v2 pc else m) x ≤ x ∧
        ∀ m ∈ l, l.foldl (fun m pc => if level v2 pc < m then level v2 pc else m) x ≤ level v2 m := by
    intro l
    induction l with
    | nil => simp
    | cons a l ih =>
      intro x
      obtain ⟨hle, hall⟩ := ih (if level v2 a < x then level v2 a else x)
      have hstep : (if level v2 a < x then level v2 a else x) ≤ x ∧
          (if level v2 a < x then level v2 a else x) ≤ level v2 a := by
        split_ifs with h
        · exact ⟨UInt64.le_of_lt h, UInt64.le_refl _⟩
        · exact ⟨UInt64.le_refl _, UInt64.not_lt.mp h⟩
      refine ⟨UInt64.le_trans hle hstep.1, fun m hm => ?_⟩
      rcases mem_cons.mp hm with rfl | hm
      · exact UInt64.le_trans hle hstep.2
      · exact hall m hm
  exact hfold parents _

structure Ready (N : List CommitNode) (V : Finset CommitNode) (iter : Iterator) : Prop where
  nodup : iter.visitStack.Nodup
  mem : ∀ n, n ∈ iter.visitStack ↔ n ∈ N ∧ n ∉ V ∧ ∀ c ∈ N, n.id ∈ c.parentHashes → c ∈ V
  children : ∀ v ∈ V, ∀ c ∈ N, v.id ∈ c.parentHashes → c ∈ V

variable {K : Type} [LinearOrder K] {key : CommitNode → K} {V E : Finset CommitNode} {iter : Iterator}

lemma Explored.count_of_ready (hI : Explored heap start N V E iter)
    (hn : ∀ c ∈ N, n.id ∈ c.parentHashes → c ∈ V) : iter.inCounts n.id = 0 := by
  rw [hI.counts, edges_sub_eq_zero_iff hI.visited]
  exact fun c hc hch => hn c (hI.subset c hc) hch

lemma Explored.discovered (hI : Explored heap start N V E iter) (hN : IsHistory gci start N)
    (hn : n ∈ N) (hready : ∀ c ∈ N, n.id ∈ c.parentHashes → c ∈ V) : n ∈ E ∨ n ∈ iter.exploreStack := by
  rcases (hN.reach n hn).cases_tail with rfl | ⟨c, -, hc, -, hch⟩
  · exact hI.root
  · exact hI.closed c (hI.visited (hready c hc hch)) n hn hch

variable (visits) in
lemma popVisit_spec (hI : Explored heap start N V E iter) (hR : Ready N V iter) (hne : iter.visitStack ≠ []) :
    ∃ n rest, popVisit visits iter.inCounts iter.visitStack.length iter.visitStack = some (n, rest) ∧
      iter.visitStack.Perm (n :: rest) := by
  obtain ⟨n, rest, hpop, hperm⟩ := visits.pop_perm _ hne
  obtain ⟨k, hk⟩ := Nat.exists_eq_succ_of_ne_zero (mt length_eq_zero_iff.mp hne)
  refine ⟨n, rest, ?_, hperm⟩
  have hn := (hR.mem n).mp (hperm.mem_iff.mpr mem_cons_self)
  rw [hk, Nat.succ_eq_add_one, popVisit, hpop]
  simp [hI.count_of_ready hn.2.2]

variable {iter' : Iterator}

lemma Explored.visit (hI : Explored heap start N V E iter) (hN : IsHistory gci start N)
    (hn : n ∈ N) (hsettled : Settled N E n)
    (hexplore : iter'.exploreStack = iter.exploreStack) (hignore : iter'.ignore = [])
    (hcounts : ∀ h, iter'.inCounts h = edges E h - edges (insert n V) h) :
    Explored heap start N (insert n V) E iter' := by
  constructor
  case visited => exact Finset.insert_subset hsettled.1 hI.visited
  case counts => exact hcounts
  case ignore => exact hignore
  case complete =>
    intro v hv h hh c hc hch
    rcases Finset.mem_insert.mp hv with rfl | hv
    · obtain ⟨m, hm, rfl⟩ := hN.exists_parent hn hh
      exact hsettled.2 m hm hh c hc hch
    · exact hI.complete v hv h hh c hc hch
  case subset => exact hI.subset
  case children => exact hI.children
  all_goals rw [hexplore]
  case built => exact hI.built
  case nodup => exact hI.nodup
  case fringe => exact hI.fringe
  case found => exact hI.found
  case root => exact hI.root
  case closed => exact hI.closed

lemma Ready.visit (hR : Ready N V iter) {rest new : List CommitNode} (hperm : iter.visitStack.Perm (n :: rest))
    (hstack : iter'.visitStack.Perm (new ++ rest)) (hnd : new.Nodup)
    (hnew : ∀ m, m ∈ new ↔ m ∈ N ∧ m.id ∈ n.parentHashes ∧ ∀ c ∈ N, m.id ∈ c.parentHashes → c ∈ insert n V) :
    Ready N (insert n V) iter' := by
  obtain ⟨hn, hnV, hready⟩ := (hR.mem n).mp (hperm.mem_iff.mpr mem_cons_self)
  obtain ⟨hnrest, hrest⟩ : n ∉ rest ∧ rest.Nodup := nodup_cons.mp (hperm.nodup_iff.mp hR.nodup)
  have hself : n.id ∉ n.parentHashes := fun h => hnV (hready n hn h)
  have hold : ∀ m, m ∈ rest ↔ m ≠ n ∧ m ∈ N ∧ m ∉ V ∧ ∀ c ∈ N, m.id ∈ c.parentHashes → c ∈ V := by
    intro m
    rw [← hR.mem m, hperm.mem_iff, mem_cons]
    constructor
    · intro hm
      exact ⟨fun h => hnrest (h ▸ hm), .inr hm⟩
    · rintro ⟨hne, hm⟩
      exact hm.resolve_left hne
  have hout : ∀ m ∈ new, m ∉ insert n V := by
    intro m hm hin
    obtain ⟨hmN, hpar, -⟩ := (hnew m).mp hm
    rcases Finset.mem_insert.mp hin with rfl | hin
    · exact hself hpar
    · exact hnV (hR.children m hin n hn hpar)
  constructor
  case nodup =>
    rw [hstack.nodup_iff, nodup_append']
    refine ⟨hnd, hrest, fun m hm hmr => ?_⟩
    exact hnV (((hold m).mp hmr).2.2.2 n hn ((hnew m).mp hm).2.1)
  case mem =>
    intro m
    rw [hstack.mem_iff, mem_append]
    constructor
    · rintro (hm | hm)
      · exact ⟨((hnew m).mp hm).1, hout m hm, ((hnew m).mp hm).2.2⟩
      · obtain ⟨hne, hmN, hmV, hch⟩ := (hold m).mp hm
        refine ⟨hmN, fun hin => ?_, fun c hc h => Finset.mem_insert_of_mem (hch c hc h)⟩
        exact hmV ((Finset.mem_insert.mp hin).resolve_left hne)
    · rintro ⟨hmN, hmV, hch⟩
      by_cases hpar : m.id ∈ n.parentHashes
      · exact .inl ((hnew m).mpr ⟨hmN, hpar, hch⟩)
      · refine .inr ((hold m).mpr ⟨?_, hmN, ?_, fun c hc h => ?_⟩)
        · exact fun h => hmV (h ▸ Finset.mem_insert_self _ _)
        · exact fun h => hmV (Finset.mem_insert_of_mem h)
        · refine (Finset.mem_insert.mp (hch c hc h)).resolve_left ?_
          rintro rfl
          exact hpar h
  case children =>
    intro v hv c hc hch
    refine Finset.mem_insert_of_mem ?_
    rcases Finset.mem_insert.mp hv with rfl | hv
    · exact hready c hc hch
    · exact hR.children v hv c hc hch

lemma next_spec (hN : IsHistory gci start N) (hk : Keyed heap N key)
    (hI : Explored heap start N V E iter) (hR : Ready N V iter) (hne : iter.visitStack ≠ []) {fuel : ℕ}
    (hfuel : N.length < fuel) : ∃ n iter' E', next gci heap visits fuel iter = .ok (some (n, iter')) ∧ n ∈ N ∧ n ∉ V ∧
      (∀ c ∈ N, n.id ∈ c.parentHashes → c ∈ V) ∧
      Explored heap start N (insert n V) E' iter' ∧ Ready N (insert n V) iter' := by
  obtain ⟨n, rest, hpop, hperm⟩ := popVisit_spec visits hI hR hne
  obtain ⟨hn, hnV, hready⟩ := (hR.mem n).mp (hperm.mem_iff.mpr mem_cons_self)
  obtain ⟨parents, hload, hparents, hids⟩ := loadParents_spec hN hn
  obtain ⟨hmin, hminp⟩ := minimumLevel_le (n.generationV2 ≠ 0) n parents
  have hminp' : ∀ m ∈ N, m.id ∈ n.parentHashes →
      minimumLevel (n.generationV2 ≠ 0) n parents ≤ level (n.generationV2 ≠ 0) m := by
    intro m hm hpar
    obtain ⟨m', hm', hid⟩ := mem_map.mp (hids ▸ hpar)
    exact hN.id_inj m' (hparents m' hm') m hm hid ▸ hminp m' hm'
  have hcard : (N.toFinset \ E).card < fuel :=
    (Finset.card_le_card Finset.sdiff_subset).trans_lt
      ((toFinset_card_le N).trans_lt hfuel)
  obtain ⟨iter₁, E₁, hexplore, hvisit, hI₁, hnE, hsettled⟩ := explore_spec hN hk hn hmin hminp'
    (hI.of_visitStack rest) (hI.discovered hN hn hready) hcard
  have hsub : insert n V ⊆ E₁ := Finset.insert_subset hnE hI₁.visited
  have hzip : n.parentHashes.zip parents = parents.map fun m => (m.id, m) := by
    rw [← hids, map_prod_right_eq_zip]
  have hfst : (n.parentHashes.zip parents).map Prod.fst = n.parentHashes := by
    rw [hzip, List.map_map, ← hids]
    rfl
  have hpairs : ∀ p ∈ n.parentHashes.zip parents, p.2 ∈ N ∧ p.2.id = p.1 := by
    intro p hp
    rw [hzip] at hp
    obtain ⟨m, hm, rfl⟩ := mem_map.mp hp
    exact ⟨hparents m hm, rfl⟩
  have hcount : ∀ h, iter₁.inCounts h - n.parentHashes.count h =
      edges E₁ h - edges (insert n V) h := by
    intro h
    rw [hI₁.counts h, edges_insert hnV]
    ring
  obtain ⟨new, hexp, hign, hcounts, hstack, hnd, hnew⟩ :=
    visitParents_spec visits hN hpairs hI₁.ignore (by
      intro h
      have hmono := edges_mono hsub h
      have := hcount h
      rw [hfst]
      omega)
  rw [hfst] at hcounts hnew
  rw [show iter₁.visitStack = rest from hvisit] at hstack
  have hready' : edges E₁ n.id - edges (insert n V) n.id = 0 := by
    rw [edges_sub_eq_zero_iff hsub]
    exact fun c hc hch => Finset.mem_insert_of_mem (hready c (hI₁.subset c hc) hch)
  have hnew' : ∀ m, m ∈ new ↔ m ∈ N ∧ m.id ∈ n.parentHashes ∧
      ∀ c ∈ N, m.id ∈ c.parentHashes → c ∈ insert n V := by
    intro m
    rw [hnew m]
    refine and_congr_right fun hm => and_congr_right fun hpar => ?_
    rw [← sub_eq_zero, hcount, edges_sub_eq_zero_iff hsub]
    exact ⟨fun h c hc hch => h c (hsettled m hm hpar c hc hch) hch,
      fun h c hc => h c (hI₁.subset c hc)⟩
  set iter₂ := visitParents visits (n.parentHashes.zip parents) iter₁ with hiter₂
  refine ⟨n, { iter₂ with inCounts := update iter₂.inCounts n.id 0 }, E₁, ?_, hn, hnV, hready,
    hI₁.visit hN hn ⟨hnE, hsettled⟩ hexp hign ?_, hR.visit hperm hstack hnd hnew'⟩
  · unfold next
    rw [hpop]
    dsimp only
    rw [hload]
    dsimp only
    rw [hexplore]
  · intro h
    by_cases hh : h = n.id
    · subst hh
      rw [hready']
      exact update_self _ _ _
    · rw [← hcount h, ← hcounts h]
      exact update_of_ne hh _ _

lemma Ready.all_visited (hR : Ready N V iter) (hk : Keyed heap N key) (hnil : iter.visitStack = [])
    (hn : n ∈ N) : n ∈ V := by
  by_contra hnV
  obtain ⟨m, hm, hmax⟩ := Finset.exists_max_image (N.toFinset \ V) key ⟨n, by simp [hn, hnV]⟩
  obtain ⟨hmN, hmV⟩ : m ∈ N ∧ m ∉ V := by simpa using hm
  have hin : m ∈ iter.visitStack := by
    refine (hR.mem m).mpr ⟨hmN, hmV, fun c hc hch => ?_⟩
    by_contra hcV
    exact absurd (hmax c (by simp [hc, hcV])) (not_le.mpr (hk.parent c m ⟨hc, hmN, hch⟩))
  simp [hnil] at hin

lemma collect_spec (hN : IsHistory gci start N) (hk : Keyed heap N key) {steps fuel : ℕ}
    (hsteps : N.length < steps) (hI : Explored heap start N V E iter) (hR : Ready N V iter)
    (hfuel : (N.toFinset \ V).card < fuel) : ∃ ys, collect gci heap visits steps fuel iter = .ok ys ∧ ys.Nodup ∧
      (∀ n, n ∈ ys ↔ n ∈ N ∧ n ∉ V) ∧ ys.Pairwise fun a b => a.id ∉ b.parentHashes := by
  induction fuel generalizing V E iter with
  | zero => omega
  | succ fuel ih =>
    rw [collect]
    by_cases hne : iter.visitStack = []
    · refine ⟨[], ?_, .nil, fun n => ?_, .nil⟩
      · simp [next, hne, popVisit]
      · simpa using fun hn => hR.all_visited hk hne hn
    obtain ⟨n, iter', E', hnext, hn, hnV, hready, hI', hR'⟩ := next_spec hN hk hI hR hne hsteps
    have hless := card_sdiff_insert_lt hn hnV
    obtain ⟨ys, hrun, hnd, hmem, hpair⟩ := ih hI' hR' (by omega)
    refine ⟨n :: ys, ?_, nodup_cons.mpr ⟨?_, hnd⟩, fun m => ?_, pairwise_cons.mpr ⟨?_, hpair⟩⟩
    · rw [hnext]
      simp [hrun, Except.map]
    · intro hin
      exact ((hmem n).mp hin).2 (Finset.mem_insert_self _ _)
    · rw [mem_cons, hmem m, Finset.mem_insert]
      by_cases hm : m = n
      · simp [hm, hn, hnV]
      · simp [hm]
    · intro b hb hch
      obtain ⟨hbN, hbV⟩ := (hmem b).mp hb
      exact hbV (Finset.mem_insert_of_mem (hready b hbN hch))

variable (visits) in
lemma newIterator_spec (hN : IsHistory gci start N) (hk : Keyed heap N key) :
    Explored heap start N ∅ ∅ (newIterator heap visits start []) ∧ Ready N ∅ (newIterator heap visits start []) := by
  have hheap : (newIterator heap visits start []).exploreStack.Perm [start] := heap.push_perm _ _
  have hvisit : (newIterator heap visits start []).visitStack.Perm [start] := visits.push_perm _ _
  constructor
  · constructor
    case built => exact .push start .nil
    case nodup => simp [hheap.nodup_iff]
    case fringe => simpa [hheap.mem_iff] using hN.start_mem
    case found => simp [hheap.mem_iff]
    case root => simp [hheap.mem_iff]
    case counts => simp [newIterator, edges]
    case ignore => rfl
    all_goals simp
  · constructor
    case nodup => simp [hvisit.nodup_iff]
    case children => simp
    case mem =>
      intro n
      rw [hvisit.mem_iff, mem_singleton]
      constructor
      · rintro rfl
        exact ⟨hN.start_mem, by simp, fun c hc hch => absurd hch (hN.start_not_parent hk hc)⟩
      · rintro ⟨hn, -, hnone⟩
        rcases (hN.reach n hn).cases_tail with h | ⟨c, -, hc, -, hch⟩
        · exact h
        · exact absurd (hnone c hc hch) (by simp)

end Visit

end GoGit.CommitTopo
