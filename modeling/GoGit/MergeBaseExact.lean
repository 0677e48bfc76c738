import GoGit.IndependentsExact

namespace GoGit.History

open Relation Search List

variable {s : Store}

section MergeBase

variable {newer older excluded starting : Commit} {index : List ObjectID}

lemma ancestorsIndex_spec (hget : s.getCommit starting.hash = .ok starting)
    (hhist : ∀ h, s.Ancestor starting.hash h → s.IsCommit h) (he : excluded.hash.Proper)
    (hs : starting.hash.Proper) {fuel : ℕ} (hfuel : s.unseen [] < fuel) :
    (ancestorsIndex s fuel excluded starting = .error .isReachable ∧ s.Ancestor starting.hash excluded.hash) ∨
      ∃ index, ancestorsIndex s fuel excluded starting = .ok index ∧ ∀ k, k ∈ index ↔ s.Ancestor starting.hash k := by
  by_cases hsame : excluded.hash.string = starting.hash.string
  · rw [he.eq_of_string hs hsame]
    exact .inl ⟨by simp [ancestorsIndex, hsame], .refl⟩
  let inv : BfsCommitIterator → List ObjectID → Prop := fun w index =>
    Searches s s.Parent starting.hash w.seen w.queue ∧ ∀ k, k ∈ index ↔ k ∈ w.seen
  let done : List ObjectID → Option ObjectError → Prop := fun index e =>
    (e = none ∧ ∀ k, k ∈ index ↔ s.Ancestor starting.hash k) ∨
      (e = some .isReachable ∧ s.Ancestor starting.hash excluded.hash)
  have hrun := @forEachCommit_spec _ _ (fun _ w => BfsCommitIterator.next s [] w)
    (fun c history =>
      if c.hash = excluded.hash then (history, some .isReachable) else (c.hash :: history, none))
    inv done (fun w => s.unseen w.seen) ?_ fuel (NewCommitIterBSF starting []) []
    ⟨.start hget, by simp [NewCommitIterBSF]⟩ hfuel
  · obtain ⟨index, e, hindex, ⟨rfl, hiff⟩ | ⟨rfl, hanc⟩⟩ := hrun
    · exact .inr ⟨index, by simp only [ancestorsIndex, if_neg hsame, hindex], hiff⟩
    · exact .inl ⟨by simp only [ancestorsIndex, if_neg hsame, hindex], hanc⟩
  rintro w index ⟨hsearch, hiff⟩
  rcases BfsCommitIterator.next_spec hhist hsearch with
    ⟨hend, hall⟩ | ⟨c, w', hnext, hgetc, hreach, hunseen, hseen, hsearch'⟩
  · exact .inl ⟨hend, .inl ⟨rfl, fun k => (hiff k).trans (hall k)⟩⟩
  · have hless : s.unseen w'.seen < s.unseen w.seen := by
      obtain ⟨c₀, hc₀, -⟩ := Store.object_of_getCommit hgetc
      rw [hseen]
      exact s.unseen_cons_lt (by simp [hc₀]) hunseen
    by_cases hc : c.hash = excluded.hash
    · refine .inr ⟨c, w', index, some .isReachable, hnext, if_pos hc, hless, ?_⟩
      exact .inr ⟨by simp, hc ▸ hreach⟩
    · refine .inr ⟨c, w', c.hash :: index, none, hnext, if_neg hc, hless, hsearch', fun k => ?_⟩
      rw [hseen, mem_cons, mem_cons, hiff]

lemma commonFrontier_spec (hget : s.getCommit older.hash = .ok older)
    (hhist : ∀ h, s.Ancestor older.hash h → s.IsCommit h) {fuel : ℕ} (hfuel : s.unseen [] < fuel) :
    (commonFrontier s fuel older index).length ≤ s.unseen [] ∧
      ∀ c, c ∈ commonFrontier s fuel older index ↔ s.getCommit c.hash = .ok c ∧ c.hash ∈ index ∧
        ReflTransGen (s.ParentUnless {k | k ∈ index}) older.hash c.hash := by
  let L : Set ObjectID := {k | k ∈ index}
  -- the commits collected are those visited that are in the index
  let inv : FilterCommitIter → List Commit → Prop := fun w res =>
    Searches s (s.ParentUnless L) older.hash w.visited w.queue ∧
      res.length + s.unseen w.visited ≤ s.unseen [] ∧
      ∀ c, c ∈ res ↔ s.getCommit c.hash = .ok c ∧ c.hash ∈ index ∧ c.hash ∈ w.visited
  let done : List Commit → Option ObjectError → Prop := fun res _ =>
    res.length ≤ s.unseen [] ∧
      ∀ c, c ∈ res ↔ s.getCommit c.hash = .ok c ∧ c.hash ∈ index ∧
        ReflTransGen (s.ParentUnless L) older.hash c.hash
  have hrun := @forEachCommit_spec _ _
    (fun _ w => w.next s (·.hash ∈ index) (·.hash ∈ index) fuel) (fun c res => (res ++ [c], none))
    inv done (fun w => s.unseen w.visited) ?_ fuel (NewFilterCommitIter older) []
    ⟨.start hget, by simp [NewFilterCommitIter], by simp [NewFilterCommitIter]⟩ hfuel
  · obtain ⟨res, e, hres, hdone⟩ := hrun
    rw [commonFrontier, hres]
    exact hdone
  rintro w res ⟨hsearch, hlen, hmem⟩
  have hrej : ∀ k, Rejected s (fun c => decide (c.hash ∈ index)) k → k ∉ index := by
    rintro k ⟨c, hc, hno⟩ hk
    obtain ⟨c₀, -, rfl⟩ := Store.object_of_getCommit hc
    simp [hk] at hno
  rcases @FilterCommitIter.next_spec s older.hash L (·.hash ∈ index) (·.hash ∈ index) hhist
    fuel w hsearch (by simp [L]) (lt_of_le_of_lt (s.unseen_le _) hfuel) with
    ⟨hend, visited, hiff, hall⟩ | ⟨c, w', hnext, hgetc, hvalid, hunseen, hin, hsearch', hsub, hall, hless⟩
  · refine .inl ⟨hend, by omega, fun c => ?_⟩
    rw [hmem, ← hiff]
    refine and_congr_right fun _ => and_congr_right fun hc => ⟨fun hv => ?_, fun hv => ?_⟩
    · exact (hiff _).mpr (hsearch.reached _ hv)
    · exact (hall _ hv).resolve_right fun hr => hrej _ hr hc
  · refine .inr ⟨c, w', res ++ [c], none, hnext, rfl, hless, hsearch', ?_, fun d => ?_⟩
    · rw [length_append, length_singleton]
      omega
    · rw [mem_append, hmem, mem_singleton]
      constructor
      · rintro (⟨hd, hi, hv⟩ | rfl)
        · exact ⟨hd, hi, hsub _ hv⟩
        · exact ⟨hgetc, by simpa using hvalid, hin⟩
      · rintro ⟨hd, hi, hv⟩
        rcases hall _ hv with hv | hv | hv
        · exact .inl ⟨hd, hi, hv⟩
        · exact .inr (Except.ok.inj (hd.symm.trans (hv ▸ hgetc)))
        · exact absurd hi (hrej _ hv)

def CommonAncestor (s : Store) (a b k : ObjectID) : Prop := s.Ancestor a k ∧ s.Ancestor b k

def BestCommonAncestor (s : Store) (a b k : ObjectID) : Prop :=
  CommonAncestor s a b k ∧ ∀ d, CommonAncestor s a b d → d ≠ k → ¬ s.Ancestor d k

variable {a b k : ObjectID}

lemma BestCommonAncestor.symm (h : BestCommonAncestor s a b k) : BestCommonAncestor s b a k :=
  ⟨h.1.symm, fun d hd => h.2 d hd.symm⟩

lemma bestCommonAncestor_iff_of_ancestor (hacyclic : s.Acyclic)
    (hab : s.Ancestor a b) : BestCommonAncestor s a b k ↔ k = b := by
  constructor
  · rintro ⟨hk, hmax⟩
    by_contra hne
    exact hmax b ⟨hab, .refl⟩ (Ne.symm hne) hk.2
  · rintro rfl
    refine ⟨⟨hab, .refl⟩, fun d hd hne hdk => hne ?_⟩
    exact hacyclic _ _ hdk hd.2

lemma BestCommonAncestor.reached {k : ObjectID} (hbest : BestCommonAncestor s newer.hash older.hash k)
    (hindex : ∀ h, h ∈ index ↔ s.Ancestor newer.hash h) :
    ReflTransGen (s.ParentUnless {h | h ∈ index}) older.hash k := by
  have hpath : ∀ a, s.Ancestor older.hash a → s.Ancestor a k →
      ReflTransGen (s.ParentUnless {h | h ∈ index}) a k := by
    intro a ha hak
    induction hak using ReflTransGen.head_induction_on with
    | refl => exact .refl
    | @head a b hab hbk ih =>
      by_cases hak : a = k
      · subst hak
        exact .refl
      · have hout : a ∉ index := fun hin =>
          hbest.2 a ⟨(hindex a).mp hin, ha⟩ hak (.head hab hbk)
        exact .head ⟨hab, hout⟩ (ih (ha.tail hab))
  exact hpath older.hash .refl hbest.1.2

lemma independent_frontier_iff (hacyclic : s.Acyclic) {frontier : List Commit}
    (hindex : ∀ h, h ∈ index ↔ s.Ancestor newer.hash h) (hhist : ∀ h, s.Ancestor older.hash h → s.IsCommit h)
    (hfrontier : ∀ c, c ∈ frontier ↔ s.getCommit c.hash = .ok c ∧ c.hash ∈ index ∧
      ReflTransGen (s.ParentUnless {k | k ∈ index}) older.hash c.hash) (c : Commit) :
    (c ∈ frontier ∧ ∀ d ∈ frontier, d ≠ c → ¬ s.Ancestor d.hash c.hash) ↔
      s.getCommit c.hash = .ok c ∧ BestCommonAncestor s newer.hash older.hash c.hash := by
  have hcommon : ∀ d ∈ frontier, CommonAncestor s newer.hash older.hash d.hash := fun d hd =>
    ⟨(hindex _).mp ((hfrontier d).mp hd).2.1, Store.ancestor_of_unless ((hfrontier d).mp hd).2.2⟩
  have hbestmem : ∀ d, s.getCommit d.hash = .ok d →
      BestCommonAncestor s newer.hash older.hash d.hash → d ∈ frontier := fun d hd hbest =>
    (hfrontier d).mpr ⟨hd, (hindex _).mpr hbest.1.1, hbest.reached hindex⟩
  constructor
  · rintro ⟨hc, hnone⟩
    refine ⟨((hfrontier c).mp hc).1, hcommon c hc, fun k hk hne hkc => ?_⟩
    -- a best one above `k` has been met, and it reaches `c`
    have hfin : {m | CommonAncestor s newer.hash older.hash m}.Finite := by
      refine (s.names.finite_toSet).subset fun m hm => s.mem_names m ?_
      obtain ⟨d, hd⟩ := hhist m hm.2
      simp [hd]
    obtain ⟨m, hm, hmk, hmax⟩ := exists_maximal hacyclic hfin hk
    obtain ⟨d, hd, rfl⟩ := s.getCommit_of_isCommit (hhist m hm.2)
    have hbest : BestCommonAncestor s newer.hash older.hash d.hash :=
      ⟨hm, fun e he hne hed => hne (hmax e he hed)⟩
    have hdc : d ≠ c := by
      rintro rfl
      exact hne (hacyclic _ _ hkc hmk)
    exact hnone d (hbestmem d hd hbest) hdc (hmk.trans hkc)
  · rintro ⟨hget, hbest⟩
    refine ⟨hbestmem c hget hbest, fun d hd hne hdc => ?_⟩
    have hhash : d.hash ≠ c.hash := fun heq =>
      hne (Except.ok.inj (((hfrontier d).mp hd).1.symm.trans (heq ▸ hget)))
    exact hbest.2 d.hash (hcommon d hd) hhash hdc

variable {sort : SortSlice}

lemma mergeBase_of_sorted (hsort : ∀ less l, (sort less l).Perm l) (hacyclic : s.Acyclic)
    (hnewer : s.getCommit newer.hash = .ok newer) (holder : s.getCommit older.hash = .ok older)
    (hhistn : ∀ h, s.Ancestor newer.hash h → s.IsCommit h)
    (hhisto : ∀ h, s.Ancestor older.hash h → s.IsCommit h) (hpn : newer.hash.Proper)
    (hpo : older.hash.Proper) {fuel : ℕ} (hfuel : s.unseen [] < fuel) {a b : Commit}
    (hsorted : sortByCommitDateDesc sort [a, b] = [newer, older]) :
    ∃ result, MergeBase s sort fuel a b = .ok result ∧ result.Nodup ∧ ∀ c, c ∈ result ↔ s.getCommit c.hash = .ok c ∧
        BestCommonAncestor s newer.hash older.hash c.hash := by
  rcases ancestorsIndex_spec hnewer hhistn hpo hpn hfuel with ⟨hreach, hanc⟩ | ⟨index, hok, hindex⟩
  · refine ⟨[older], by simp [MergeBase, hsorted, hreach], by simp, fun c => ?_⟩
    rw [bestCommonAncestor_iff_of_ancestor hacyclic hanc, mem_singleton]
    constructor
    · rintro rfl
      exact ⟨holder, rfl⟩
    · rintro ⟨hc, heq⟩
      exact Except.ok.inj (hc.symm.trans (heq ▸ holder))
  · obtain ⟨hlen, hfrontier⟩ := @commonFrontier_spec s older index holder hhisto fuel hfuel
    have hreached : ∀ c ∈ commonFrontier s fuel older index, s.Ancestor older.hash c.hash :=
      fun c hc => Store.ancestor_of_unless ((hfrontier c).mp hc).2.2
    obtain ⟨result, hres, hnodup, hiff⟩ := independents_spec hsort hacyclic (fun c hc => ((hfrontier c).mp hc).1)
      (fun c hc h hch => hhisto h ((hreached c hc).trans hch)) hfuel (hlen.trans_lt hfuel)
    refine ⟨result, by simp [MergeBase, hsorted, hok, hres], hnodup, fun c => ?_⟩
    rw [hiff, independent_frontier_iff hacyclic hindex hhisto hfrontier]

/-- `MergeBase` gives the best common ancestors, each once, whatever the dates. -/
theorem MergeBase_exact (hsort : ∀ less l, (sort less l).Perm l) (hacyclic : s.Acyclic)
    {a b : Commit} (ha : s.getCommit a.hash = .ok a) (hb : s.getCommit b.hash = .ok b)
    (hhista : ∀ h, s.Ancestor a.hash h → s.IsCommit h)
    (hhistb : ∀ h, s.Ancestor b.hash h → s.IsCommit h) (hpa : a.hash.Proper) (hpb : b.hash.Proper) :
    ∃ enough, ∀ fuel, enough ≤ fuel → ∃ result, MergeBase s sort fuel a b = .ok result ∧
      result.Nodup ∧ ∀ c, c ∈ result ↔ s.getCommit c.hash = .ok c ∧ BestCommonAncestor s a.hash b.hash c.hash := by
  refine ⟨s.unseen [] + 1, fun fuel hfuel => ?_⟩
  rcases perm_pair.mp (hsort (fun a b => a.committer.when.after b.committer.when) [a, b]) with
    hsorted | hsorted
  · exact mergeBase_of_sorted hsort hacyclic ha hb hhista hhistb hpa hpb hfuel hsorted
  · obtain ⟨result, hres, hnodup, hiff⟩ :=
      mergeBase_of_sorted hsort hacyclic hb ha hhistb hhista hpb hpa hfuel hsorted
    refine ⟨result, hres, hnodup, fun c => (hiff c).trans ?_⟩
    exact and_congr_right fun _ => ⟨BestCommonAncestor.symm, BestCommonAncestor.symm⟩

theorem MergeBase_crissCross : MergeBase (.ofCommits crissCross) insertionSort 20 (crissCommit 4 5 [2, 3])
        (crissCommit 5 5 [3, 2]) = .ok [crissCommit 3 10 [1], crissCommit 2 10 [1]] ∧
      ∃ enough, ∀ fuel, enough ≤ fuel → ∃ result,
        MergeBase (.ofCommits crissCross) insertionSort fuel (crissCommit 4 5 [2, 3])
          (crissCommit 5 5 [3, 2]) = .ok result ∧ result.Nodup ∧
        ∀ c, c ∈ result ↔ (Store.ofCommits crissCross).getCommit c.hash = .ok c ∧
          BestCommonAncestor (.ofCommits crissCross) (.short 4) (.short 5) c.hash :=
  ⟨by decide +kernel, MergeBase_exact perm_insertionSort crissCross_acyclic (by decide) (by decide)
    (crissCross_history _ (by decide)) (crissCross_history _ (by decide)) rfl rfl⟩

end MergeBase

end GoGit.History
