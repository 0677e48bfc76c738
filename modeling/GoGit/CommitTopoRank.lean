import GoGit.CommitTopoOrder

namespace GoGit.CommitTopo

open CommitNode List

variable {gci : CommitNodeIndex} {heap : Stackable} {N : List CommitNode} {start : CommitNode} {n m : CommitNode}

section Ordered

variable {n : CommitNode}

def InGraph : CommitNode → Prop
  | .graph .. => True
  | .object _ => False

/-- The graph numbers a commit above its parents, all commits by one of the two numbers and below the
values that stand for a commit outside of it; outside of the graph a commit is newer than its
parents. -/
structure Ordered (N : List CommitNode) : Prop where
  bounded : ∀ n ∈ N, InGraph n → n.generationV2 < maxInt64 ∧ n.generation < CommitGraph.maxUint64
  uniform : (∀ n ∈ N, InGraph n → n.generationV2 = 0) ∨ ∀ n ∈ N, InGraph n → n.generationV2 ≠ 0
  generation : ∀ n m, Edge N n m → InGraph n →
    if n.generationV2 = 0 then m.generation < n.generation else m.generationV2 < n.generationV2
  time : ∀ n m, Edge N n m → ¬ InGraph n → ¬ InGraph m → m.commitTime.before n.commitTime

def nanos (t : Time) : ℤ := t.sec * 10 ^ 9 + t.nsec

lemma before_iff {t u : Time} : t.before u = true ↔ nanos t < nanos u := by
  have ht := t.nsec_lt
  have hu := u.nsec_lt
  simp only [Time.before, decide_eq_true_eq, nanos]
  omega

def rank (n : CommitNode) : ℕ ×ₗ ℤ :=
  toLex (if n.generationV2 = 0 then n.generation.toNat else n.generationV2.toNat,
    if n.generationV2 = 0 ∨ n.generationV2 = CommitGraph.maxUint64 then nanos n.commitTime else 0)

lemma generationV2_of_not_inGraph (h : ¬ InGraph n) :
    n.generationV2 = CommitGraph.maxUint64 ∧ n.generation = CommitGraph.maxUint64 := by
  cases n with
  | graph => exact absurd trivial h
  | object => exact ⟨rfl, rfl⟩

lemma rank_of_not_inGraph (h : ¬ InGraph n) : rank n = toLex (2 ^ 64 - 1, nanos n.commitTime) := by
  rw [rank, (generationV2_of_not_inGraph h).1]
  rfl

lemma rank_of_zero (h : n.generationV2 = 0) : rank n = toLex (n.generation.toNat, nanos n.commitTime) := by
  simp [rank, h]

lemma rank_of_ne_zero (h : n.generationV2 ≠ 0)
    (hmax : n.generationV2 ≠ CommitGraph.maxUint64) : rank n = toLex (n.generationV2.toNat, 0) := by
  simp [rank, h, hmax]

lemma Ordered.ne_max (ho : Ordered N) (hn : n ∈ N) (hin : InGraph n) :
    n.generationV2 ≠ maxInt64 ∧ n.generationV2 ≠ CommitGraph.maxUint64 := by
  have hlt := (ho.bounded n hn hin).1
  constructor
  · exact UInt64.ne_of_lt hlt
  · exact UInt64.ne_of_lt (UInt64.lt_trans hlt (by decide))

lemma toNat_lt_max {x : UInt64} (h : x < CommitGraph.maxUint64) : x.toNat < 2 ^ 64 - 1 := h

lemma Ordered.rank_lt_outside (ho : Ordered N) (hn : n ∈ N) (hin : InGraph n)
    (hm : ¬ InGraph m) : rank n < rank m ∧ generationAndDateOrderComparator n m = 1 := by
  obtain ⟨hne, hmax⟩ := ho.ne_max hn hin
  obtain ⟨hv2, hgen⟩ := ho.bounded n hn hin
  obtain ⟨hmv2, hmgen⟩ := generationV2_of_not_inGraph hm
  have hlt : n.generationV2 < CommitGraph.maxUint64 := UInt64.lt_trans hv2 (by decide)
  have hm0 : ¬ CommitGraph.maxUint64 = 0 := by decide
  have hmint : ¬ CommitGraph.maxUint64 = maxInt64 := by decide
  rw [rank_of_not_inGraph hm, generationAndDateOrderComparator]
  by_cases h0 : n.generationV2 = 0
  · rw [rank_of_zero h0]
    refine ⟨Prod.Lex.toLex_lt_toLex.mpr (.inl (toNat_lt_max hgen)), ?_⟩
    rw [if_neg hmax]
    simp only [hmv2, hmgen, hmint, h0, hgen, if_true, if_false, true_or]
  · rw [rank_of_ne_zero h0 hmax]
    refine ⟨Prod.Lex.toLex_lt_toLex.mpr (.inl (toNat_lt_max hlt)), ?_⟩
    rw [if_neg hmax]
    simp only [hmv2, hmint, h0, hm0, hlt, if_true, if_false, or_self]

lemma Ordered.rank_inside (ho : Ordered N) (hn : n ∈ N) (hm : m ∈ N)
    (hnin : InGraph n) (hmin : InGraph m) : (n.generationV2 = 0 ∧ m.generationV2 = 0 ∧
      rank n = toLex (n.generation.toNat, nanos n.commitTime) ∧
      rank m = toLex (m.generation.toNat, nanos m.commitTime)) ∨ (n.generationV2 ≠ 0 ∧ m.generationV2 ≠ 0 ∧
      rank n = toLex (n.generationV2.toNat, 0) ∧ rank m = toLex (m.generationV2.toNat, 0)) := by
  rcases ho.uniform with h | h
  · have hn0 := h n hn hnin
    have hm0 := h m hm hmin
    exact .inl ⟨hn0, hm0, rank_of_zero hn0, rank_of_zero hm0⟩
  · have hn0 := h n hn hnin
    have hm0 := h m hm hmin
    exact .inr ⟨hn0, hm0, rank_of_ne_zero hn0 (ho.ne_max hn hnin).2, rank_of_ne_zero hm0 (ho.ne_max hm hmin).2⟩

lemma Ordered.rank_le (ho : Ordered N) (hn : n ∈ N) (hm : m ∈ N)
    (hcmp : generationAndDateOrderComparator n m ≤ 0) : rank m ≤ rank n := by
  by_cases hnin : InGraph n
  · by_cases hmin : InGraph m
    · rw [generationAndDateOrderComparator, if_neg (ho.ne_max hn hnin).2, if_neg (ho.ne_max hm hmin).1] at hcmp
      rcases ho.rank_inside hn hm hnin hmin with ⟨hn0, hm0, hrn, hrm⟩ | ⟨hn0, hm0, hrn, hrm⟩
      · simp only [hn0, hm0, or_self, if_true, before_iff, UInt64.lt_iff_toNat_lt] at hcmp
        rw [hrn, hrm, Prod.Lex.toLex_le_toLex]
        split_ifs at hcmp <;> omega
      · simp only [hn0, hm0, or_self, if_false, UInt64.lt_iff_toNat_lt] at hcmp
        rw [hrn, hrm, Prod.Lex.toLex_le_toLex]
        split_ifs at hcmp <;> omega
    · rw [(ho.rank_lt_outside hn hnin hmin).2] at hcmp
      norm_num at hcmp
  · by_cases hmin : InGraph m
    · exact (ho.rank_lt_outside hm hmin hnin).1.le
    · rw [rank_of_not_inGraph hnin, rank_of_not_inGraph hmin]
      refine Prod.Lex.toLex_le_toLex.mpr (.inr ⟨rfl, ?_⟩)
      simp only [generationAndDateOrderComparator, (generationV2_of_not_inGraph hnin).1,
        (generationV2_of_not_inGraph hmin).1, if_true, before_iff] at hcmp
      split_ifs at hcmp <;> omega

lemma IsHistory.inGraph_parent (hN : IsHistory gci start N) (he : Edge N n m) (hin : InGraph n) : InGraph m := by
  obtain ⟨hn, hm, hpar⟩ := he
  obtain ⟨i, hi⟩ := mem_iff_getElem?.mp hpar
  obtain ⟨m', hm', hnode, hid⟩ := hN.parents n hn i _ hi
  rw [hN.id_inj m hm m' hm' hid.symm]
  cases n with
  | object => exact absurd hin id
  | graph hash index data =>
    simp only [CommitNodeIndex.parentNode] at hnode
    split at hnode
    · cases hnode
    · cases hnode
    · split at hnode
      · cases hnode
      · cases hnode
      · cases hnode
        trivial

lemma Ordered.rank_parent (ho : Ordered N) (hN : IsHistory gci start N) (he : Edge N n m) : rank m < rank n := by
  have hn := he.1
  have hm := he.2.1
  by_cases hnin : InGraph n
  · have hgen := ho.generation n m he hnin
    rcases ho.rank_inside hn hm hnin (hN.inGraph_parent he hnin) with
      ⟨hn0, -, hrn, hrm⟩ | ⟨hn0, -, hrn, hrm⟩
    · rw [if_pos hn0] at hgen
      rw [hrn, hrm]
      exact Prod.Lex.toLex_lt_toLex.mpr (.inl hgen)
    · rw [if_neg hn0] at hgen
      rw [hrn, hrm]
      exact Prod.Lex.toLex_lt_toLex.mpr (.inl hgen)
  · by_cases hmin : InGraph m
    · exact (ho.rank_lt_outside hm hmin hnin).1
    · rw [rank_of_not_inGraph hnin, rank_of_not_inGraph hmin]
      exact Prod.Lex.toLex_lt_toLex.mpr (.inr ⟨rfl, before_iff.mp (ho.time n m he hnin hmin)⟩)

lemma Ordered.level_le (ho : Ordered N) {x n m : CommitNode} (hx : x ∈ N) (hn : n ∈ N) (hm : m ∈ N)
    (hle : rank m ≤ rank n) : level (x.generationV2 ≠ 0) m ≤ level (x.generationV2 ≠ 0) n := by
  by_cases hnin : InGraph n
  · have hmin : InGraph m := by
      by_contra hmout
      exact absurd hle (not_le.mpr (ho.rank_lt_outside hn hnin hmout).1)
    rcases ho.rank_inside hn hm hnin hmin with ⟨hn0, hm0, hrn, hrm⟩ | ⟨hn0, hm0, hrn, hrm⟩
    · rw [hrn, hrm, Prod.Lex.toLex_le_toLex] at hle
      by_cases hx0 : x.generationV2 = 0
      · simp only [level, hx0, ne_eq, not_true_eq_false, decide_false, Bool.false_eq_true, if_false]
        exact UInt64.le_iff_toNat_le.mpr (by simpa using by omega)
      · simp [level, hx0, hn0, hm0]
    · have hx0 : x.generationV2 ≠ 0 := by
        by_cases hxin : InGraph x
        · exact ho.uniform.resolve_left (fun h => hn0 (h n hn hnin)) x hx hxin
        · rw [(generationV2_of_not_inGraph hxin).1]
          decide
      rw [hrn, hrm, Prod.Lex.toLex_le_toLex] at hle
      simp only [level, hx0, ne_eq, not_false_eq_true, decide_true, if_true]
      exact UInt64.le_iff_toNat_le.mpr (by simpa using by omega)
  · obtain ⟨hv2, hgen⟩ := generationV2_of_not_inGraph hnin
    have hmax : ∀ y : UInt64, y ≤ CommitGraph.maxUint64 := fun y =>
      UInt64.le_iff_toNat_le.mpr (Nat.le_of_lt_succ y.toNat_lt)
    unfold level
    split_ifs
    · rw [hv2]
      exact hmax _
    · rw [hgen]
      exact hmax _

lemma Ordered.keyed (ho : Ordered N) (hN : IsHistory gci start N)
    (hheap : ∀ l a rest, heap.Built l → (∀ x ∈ l, x ∈ N) → heap.pop l = some (a, rest) →
      ∀ b ∈ l, generationAndDateOrderComparator a b ≤ 0) : Keyed heap N rank where
  parent n m he := ho.rank_parent hN he
  level x hx n hn m hm hle := ho.level_le hx hn hm hle
  top := by
    intro l a rest hbuilt hl hpop b hb
    have hne : l ≠ [] := ne_nil_of_mem hb
    obtain ⟨a', rest', hpop', hperm⟩ := heap.pop_perm l hne
    obtain ⟨rfl, rfl⟩ : a' = a ∧ rest' = rest := by simpa using hpop'.symm.trans hpop
    exact ho.rank_le (hl a' (hperm.mem_iff.mpr mem_cons_self)) (hl b hb) (hheap l a' rest' hbuilt hl hpop b hb)

/-- In an ordered history the iterators end after every commit was given out once, none of them before
one of its children. The stack of the visits is the last-in-first-out one or a heap; the result does
not depend on it. -/
theorem collect_ordered (hN : IsHistory gci start N) (ho : Ordered N)
    (hheap : ∀ l a rest, heap.Built l → (∀ x ∈ l, x ∈ N) → heap.pop l = some (a, rest) →
      ∀ b ∈ l, generationAndDateOrderComparator a b ≤ 0) (visits : Stackable) :
    ∃ enough, ∀ fuel, enough ≤ fuel → ∃ ys,
      collect gci heap visits fuel fuel (newIterator heap visits start []) = .ok ys ∧ ys.Perm N ∧
        ys.Pairwise fun a b => a.id ∉ b.parentHashes := by
  have hk := ho.keyed hN hheap
  obtain ⟨hI, hR⟩ := newIterator_spec visits hN hk
  refine ⟨N.length + 1, fun fuel hfuel => ?_⟩
  obtain ⟨ys, hrun, hnd, hmem, hpair⟩ := collect_spec hN hk (show N.length < fuel by omega) hI hR
    (((Finset.card_le_card Finset.sdiff_subset).trans (toFinset_card_le N)).trans_lt hfuel)
  refine ⟨ys, hrun, ?_, hpair⟩
  exact (perm_ext_iff_of_nodup hnd hN.nodup).mpr fun n => by simpa using hmem n

end Ordered

section Fork

def least (a : CommitNode) (l : List CommitNode) : CommitNode :=
  l.foldl (fun m x => if generationAndDateOrderComparator x m < 0 then x else m) a

lemma least_mem (a : CommitNode) (l : List CommitNode) : least a l ∈ a :: l := by
  induction l generalizing a with
  | nil => simp [least]
  | cons b l ih =>
    have hstep : least a (b :: l) =
      least (if generationAndDateOrderComparator b a < 0 then b else a) l := rfl
    rw [hstep]
    have := ih (if generationAndDateOrderComparator b a < 0 then b else a)
    split_ifs at this ⊢ <;> grind

def leastFirst : Stackable where
  push l a := a :: l
  pop
    | [] => none
    | a :: l => some (least a l, (a :: l).erase (least a l))
  push_perm := Stackable.lifo.push_perm
  pop_nil := rfl
  pop_perm := by
    intro l hl
    obtain ⟨a, l, rfl⟩ := exists_cons_of_ne_nil hl
    exact ⟨_, _, rfl, perm_cons_erase (least_mem a l)⟩

lemma comparator_outside (hn : ¬ InGraph n) (hm : ¬ InGraph m) :
    (generationAndDateOrderComparator n m ≤ 0 ↔ nanos m.commitTime ≤ nanos n.commitTime) ∧
      (generationAndDateOrderComparator n m < 0 ↔ nanos m.commitTime < nanos n.commitTime) := by
  simp only [generationAndDateOrderComparator, (generationV2_of_not_inGraph hn).1,
    (generationV2_of_not_inGraph hm).1, if_true, before_iff]
  split_ifs <;> omega

variable {a : CommitNode}

lemma nanos_le_least {l : List CommitNode} (h : ∀ x ∈ a :: l, ¬ InGraph x) :
    ∀ b ∈ a :: l, nanos b.commitTime ≤ nanos (least a l).commitTime := by
  induction l generalizing a with
  | nil => simp [least]
  | cons c l ih =>
    have hstep : least a (c :: l) =
      least (if generationAndDateOrderComparator c a < 0 then c else a) l := rfl
    have hca := (comparator_outside (h c (by simp)) (h a (by simp))).2
    rw [hstep]
    split_ifs with hlt
    · have hih := @ih c (fun x hx => h x (by grind))
      grind
    · have hih := @ih a (fun x hx => h x (by grind))
      grind

lemma leastFirst_top {l rest : List CommitNode} (h : ∀ x ∈ l, ¬ InGraph x)
    (hpop : leastFirst.pop l = some (a, rest)) : ∀ b ∈ l, generationAndDateOrderComparator a b ≤ 0 := by
  cases l with
  | nil => cases hpop
  | cons c l =>
    obtain ⟨rfl, rfl⟩ : least c l = a ∧ (c :: l).erase (least c l) = rest := by
      simpa [leastFirst] using hpop
    intro b hb
    exact (comparator_outside (h _ (least_mem c l)) (h b hb)).1.mpr (nanos_le_least h b hb)

def forkCommit (name : UInt8) (sec : ℤ) (parents : List UInt8) : Commit :=
  { hash := .short name, committer := { when := .unix sec 0 }, parentHashes := parents.map .short }

/-- A merge of two branches off one commit, with the times of that commit and of one branch. -/
def fork (root branch : ℤ) : List Commit :=
  [forkCommit 4 10 [3, 2], forkCommit 3 branch [1], forkCommit 2 9 [1], forkCommit 1 root []]

def forkNodes (root branch : ℤ) : List CommitNode := (fork root branch).map .object

def forkIndex (root branch : ℤ) : CommitNodeIndex := ⟨none, .ofCommits (fork root branch)⟩

lemma fork_isHistory (root branch : ℤ) :
    IsHistory (forkIndex root branch) (.object (forkCommit 4 10 [3, 2])) (forkNodes root branch) := by
  have hids : (forkNodes root branch).map CommitNode.id = [.short 4, .short 3, .short 2, .short 1] := rfl
  have hnd : ((forkNodes root branch).map CommitNode.id).Nodup := by
    rw [hids]
    decide
  have hmem : ∀ n, n ∈ forkNodes root branch ↔ n = .object (forkCommit 4 10 [3, 2]) ∨
      n = .object (forkCommit 3 branch [1]) ∨ n = .object (forkCommit 2 9 [1]) ∨
      n = .object (forkCommit 1 root []) := fun n => by simp [forkNodes, fork]
  constructor
  case start_mem => simp [hmem]
  case nodup => exact List.Nodup.of_map _ hnd
  case id_inj => exact fun n hn m hm h => inj_on_of_nodup_map hnd hn hm h
  case parents =>
    intro n hn i h hi
    rcases (hmem n).mp hn with rfl | rfl | rfl | rfl
    · match i, hi with
      | 0, rfl => exact ⟨.object (forkCommit 3 branch [1]), by simp [hmem], rfl, rfl⟩
      | 1, rfl => exact ⟨.object (forkCommit 2 9 [1]), by simp [hmem], rfl, rfl⟩
    · match i, hi with
      | 0, rfl => exact ⟨.object (forkCommit 1 root []), by simp [hmem], rfl, rfl⟩
    · match i, hi with
      | 0, rfl => exact ⟨.object (forkCommit 1 root []), by simp [hmem], rfl, rfl⟩
    · cases hi
  case reach =>
    have h43 : Edge (forkNodes root branch) (.object (forkCommit 4 10 [3, 2]))
        (.object (forkCommit 3 branch [1])) := ⟨by simp [hmem], by simp [hmem], .head _⟩
    have h42 : Edge (forkNodes root branch) (.object (forkCommit 4 10 [3, 2]))
        (.object (forkCommit 2 9 [1])) := ⟨by simp [hmem], by simp [hmem], .tail _ (.head _)⟩
    have h31 : Edge (forkNodes root branch) (.object (forkCommit 3 branch [1]))
        (.object (forkCommit 1 root [])) := ⟨by simp [hmem], by simp [hmem], .head _⟩
    intro n hn
    rcases (hmem n).mp hn with rfl | rfl | rfl | rfl
    · exact .refl
    · exact .single h43
    · exact .single h42
    · exact .tail (.single h43) h31

lemma forkNodes_outside (root branch : ℤ) : ∀ n ∈ forkNodes root branch, ¬ InGraph n := by
  intro n hn
  obtain ⟨c, -, rfl⟩ := mem_map.mp hn
  exact id

lemma leastFirst_fork (root branch : ℤ) : ∀ l a rest, leastFirst.Built l →
    (∀ x ∈ l, x ∈ forkNodes root branch) → leastFirst.pop l = some (a, rest) →
    ∀ b ∈ l, generationAndDateOrderComparator a b ≤ 0 :=
  fun _ _ _ _ hl hpop => leastFirst_top (fun x hx => forkNodes_outside root branch x (hl x hx)) hpop

theorem collect_skewed : IsHistory (forkIndex 5 1) (.object (forkCommit 4 10 [3, 2])) (forkNodes 5 1) ∧
    (∀ l a rest, leastFirst.Built l → (∀ x ∈ l, x ∈ forkNodes 5 1) →
      leastFirst.pop l = some (a, rest) → ∀ b ∈ l, generationAndDateOrderComparator a b ≤ 0) ∧
    ∀ visits ∈ [Stackable.lifo, leastFirst], (collect (forkIndex 5 1) leastFirst visits 20 20
        (newIterator leastFirst visits (.object (forkCommit 4 10 [3, 2])) [])).map
          (·.map CommitNode.id) = .ok [.short 4, .short 2, .short 1, .short 3, .short 1] := by
  refine ⟨fork_isHistory 5 1, leastFirst_fork 5 1, ?_⟩
  intro visits hvisits
  simp only [mem_cons, not_mem_nil, or_false] at hvisits
  rcases hvisits with rfl | rfl
  · decide +kernel
  · decide +kernel

theorem collect_fork : ∃ enough, ∀ fuel, enough ≤ fuel → ∃ ys, collect (forkIndex 5 8) leastFirst .lifo fuel fuel
        (newIterator leastFirst .lifo (.object (forkCommit 4 10 [3, 2])) []) = .ok ys ∧
        ys.Perm (forkNodes 5 8) ∧ ys.Pairwise fun a b => a.id ∉ b.parentHashes := by
  refine collect_ordered (fork_isHistory 5 8) ?_ (leastFirst_fork 5 8) .lifo
  have hout := forkNodes_outside 5 8
  constructor
  case bounded => exact fun n hn hin => absurd hin (hout n hn)
  case uniform => exact .inl fun n hn hin => absurd hin (hout n hn)
  case generation => exact fun n m he hin => absurd hin (hout n he.1)
  case time =>
    have hall : ∀ n ∈ forkNodes 5 8, ∀ m ∈ forkNodes 5 8, m.id ∈ n.parentHashes →
        m.commitTime.before n.commitTime = true := by decide +kernel
    exact fun n m he _ _ => hall n he.1 m he.2.1 he.2.2

end Fork

end GoGit.CommitTopo
