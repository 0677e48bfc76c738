import GoGit.TrieRun

namespace GoGit.Merkletrie

open PathOrder List

structure Side.Holds (s : Side) (ps : List Path) : Prop where
  current : s.current = ps.head?
  iter : ps ≠ [] → s.iter.hasStarted = true ∧ s.iter.Holds ps

def DoubleIter.Holds (ii : DoubleIter) (F T : List Path) : Prop := ii.From.Holds F ∧ ii.To.Holds T

section Sides

variable {s : Side} {ii : DoubleIter} {p q : Path} {ps F T : List Path}

lemma turnEOFIntoNil_first {i : Iter} (h : ps ≠ [] → i.hasStarted = true ∧ i.Holds ps) :
    ∃ s, turnEOFIntoNil (Iter.firstPath ps, i) = .ok s ∧ s.Holds ps := by
  refine ⟨⟨i, ps.head?⟩, ?_, rfl, h⟩
  cases ps <;> rfl

lemma Side.Holds.next (h : s.Holds (p :: ps)) : ∃ s', s.next = .ok s' ∧ s'.Holds ps := by
  obtain ⟨hs, hh⟩ := h.iter (by simp)
  obtain ⟨i, hi, hi'⟩ := hh.next hs
  rw [Side.next, hi]
  exact turnEOFIntoNil_first fun _ => hi'

lemma Side.Holds.step (h : s.Holds (p :: ps)) : ∃ s', s.step = .ok s' ∧ s'.Holds (childPaths p ++ ps) := by
  obtain ⟨hs, hh⟩ := h.iter (by simp)
  obtain ⟨i, hi, hi'⟩ := hh.step hs
  rw [Side.step, hi]
  exact turnEOFIntoNil_first fun _ => hi'

lemma DoubleIter.Holds.nextFrom (h : ii.Holds (p :: F) T) : ∃ i, ii.nextFrom = .ok i ∧ i.Holds F T := by
  obtain ⟨s, hs, hh⟩ := h.1.next
  exact ⟨{ ii with From := s }, by simp [DoubleIter.nextFrom, hs],
    hh, h.2⟩

lemma DoubleIter.Holds.nextTo (h : ii.Holds F (q :: T)) : ∃ i, ii.nextTo = .ok i ∧ i.Holds F T := by
  obtain ⟨s, hs, hh⟩ := h.2.next
  exact ⟨{ ii with To := s }, by simp [DoubleIter.nextTo, hs],
    h.1, hh⟩

lemma DoubleIter.Holds.nextBoth (h : ii.Holds (p :: F) (q :: T)) : ∃ i, ii.nextBoth = .ok i ∧ i.Holds F T := by
  obtain ⟨i, hi, hh⟩ := h.nextFrom
  obtain ⟨j, hj, hh'⟩ := hh.nextTo
  exact ⟨j, by simp [DoubleIter.nextBoth, hi, hj], hh'⟩

lemma DoubleIter.Holds.stepBoth (h : ii.Holds (p :: F) (q :: T)) :
    ∃ i, ii.stepBoth = .ok i ∧ i.Holds (childPaths p ++ F) (childPaths q ++ T) := by
  obtain ⟨s, hs, hh⟩ := h.1.step
  obtain ⟨t, ht, hh'⟩ := h.2.step
  exact ⟨⟨s, t⟩, by simp [DoubleIter.stepBoth, hs, ht], hh, hh'⟩

lemma newDoubleIter_holds (fromTree toTree : Option Node) :
    ∃ i, newDoubleIter fromTree toTree = .ok i ∧ i.Holds (rootPaths fromTree) (rootPaths toTree) := by
  obtain ⟨i, hi, hh⟩ := Iter.newIter_advance fromTree [] false rfl
  obtain ⟨j, hj, hh'⟩ := Iter.newIter_advance toTree [] false rfl
  obtain ⟨s, hs, hside⟩ := turnEOFIntoNil_first hh
  obtain ⟨t, ht, hside'⟩ := turnEOFIntoNil_first hh'
  refine ⟨⟨s, t⟩, ?_, hside, hside'⟩
  simp [newDoubleIter, Iter.next, hi, hj, hs, ht]

end Sides

/-- Nothing below the path that is skipped has anything below it that is not. -/
def SkipsClosed (p : Path) : Prop :=
  ∀ r, Below p r → r.skip = true → ∀ c ∈ r.last.children, c.skip = true

def SameFiles (p q : Path) : Prop :=
  p.isDir = q.isDir ∧ ∀ rel hash,
    (∃ r, Below p r ∧ r.isDir = false ∧ r.key = p.key ++ rel ∧ r.last.hash = hash) ↔
      ∃ s, Below q s ∧ s.isDir = false ∧ s.key = q.key ++ rel ∧ s.last.hash = hash

section Branches

variable {p q r s : Path} {rs ss : List Path}

lemma Below.skip_of_skip (hclosed : SkipsClosed p) (h : Below p r) (hskip : p.skip = true) : r.skip = true := by
  induction h with
  | refl => exact hskip
  | child parent mem ih => exact hclosed _ parent ih _ mem

lemma Below.of_isPrefix (hord : Ordered [p]) (hr : Below p r) (hs : Below p s) (hpre : s.key <+: r.key) :
    Below s r := by
  have hp : ∀ {t : Path}, Below p t → Pending [p] t := fun ht => ⟨p, by simp, ht⟩
  induction hr with
  | refl =>
    have hle := hs.key_isPrefix.length_le
    rw [hs.eq_of_key_eq (hpre.eq_of_length (by have := hpre.length_le; omega))]
    exact .refl
  | @child r c parent mem ih =>
    rw [Path.key_child, prefix_concat_iff] at hpre
    rcases hpre with heq | hpre
    · rw [hord.eq_of_keys (hp hs) (hp (Below.child parent mem)) (by rw [heq, Path.key_child])]
      exact .refl
    · exact .child (ih hpre) mem

lemma not_hides_file (hord : Ordered [p]) (hclosed : SkipsClosed p) (hr : Below p r) (hf : r.IsFile) :
    ¬ Hides (Below p) r.key := by
  rintro ⟨s, hs, hpre, hskip⟩
  have hbelow := hr.of_isPrefix hord hs hpre
  have := hbelow.skip_of_skip (fun t ht => hclosed t (hs.trans ht)) hskip
  exact absurd (hf.2.symm.trans this) (by simp)

lemma not_hides_top (hskip : p.skip = false) : ¬ Hides (Below p) p.key := by
  rintro ⟨s, hs, hpre, hskip'⟩
  have hle := hs.key_isPrefix.length_le
  rw [hs.eq_of_key_eq (hpre.eq_of_length (by have := hpre.length_le; omega)), hskip] at hskip'
  cases hskip'

lemma not_hides_leaf (hleaf : childPaths p = []) (hskip : p.skip = false) (x : List Bytes) : ¬ Hides (Below p) x := by
  rintro ⟨s, hs, _, hskip'⟩
  rw [below_iff_childPaths, hleaf] at hs
  rw [hs.resolve_right pending_nil, hskip] at hskip'
  cases hskip'

variable {A B : Path → Prop}

lemma lists_hidden {x : List Bytes} (hx : Hides A x ∨ Hides B x)
    (hall : ∀ r, A r ∨ B r → x <+: r.key) : ListsChanges (Expected A B) [] := by
  refine ⟨fun c => ⟨by simp, fun hc => ?_⟩, by simp⟩
  have hides : ∀ {S : Path → Prop} {r : Path}, A r ∨ B r → Hides S x → Hides S r.key :=
    fun hr ⟨t, ht, hpre, hskip⟩ => ⟨t, ht, hpre.trans (hall _ hr), hskip⟩
  cases hc with
  | delete mem _ here there =>
    exact absurd (hx.imp (hides (.inl mem)) (hides (.inl mem))) (not_or.mpr ⟨here, there⟩)
  | insert mem _ here there =>
    exact absurd (hx.imp (hides (.inr mem)) (hides (.inr mem))) (not_or.mpr ⟨here, there⟩)
  | modify mem _ _ _ _ here there =>
    exact absurd (hx.imp (hides (.inl mem)) (hides (.inl mem))) (not_or.mpr ⟨here, there⟩)

lemma lists_replace (hrs : ListsFiles A rs) (hss : ListsFiles B ss)
    (hA : ∀ r, A r → r.IsFile → ¬ Hides A r.key ∧ ¬ Hides B r.key)
    (hB : ∀ s, B s → s.IsFile → ¬ Hides A s.key ∧ ¬ Hides B s.key)
    (hkinds : ∀ r s, A r → B s → r.key = s.key → r.isDir = true ∨ s.isDir = true) :
    ListsChanges (Expected A B) (rs.map .newDelete ++ ss.map .newInsert) := by
  refine ⟨?_, ?_⟩
  · intro c
    rw [mem_append, mem_map, mem_map]
    constructor
    · rintro (⟨r, hr, rfl⟩ | ⟨s, hs, rfl⟩)
      · obtain ⟨hmem, hf⟩ := (hrs.mem_iff r).mp hr
        refine .delete hmem hf (hA r hmem hf).1 (hA r hmem hf).2 fun s hs hk => ?_
        exact (hkinds r s hmem hs hk.symm).resolve_left (by simp [hf.1])
      · obtain ⟨hmem, hf⟩ := (hss.mem_iff s).mp hs
        refine .insert hmem hf (hB s hmem hf).1 (hB s hmem hf).2 fun r hr hk => ?_
        exact (hkinds r s hr hmem hk).resolve_right (by simp [hf.1])
    · intro hc
      cases hc with
      | delete mem hf => exact .inl ⟨_, (hrs.mem_iff _).mpr ⟨mem, hf⟩, rfl⟩
      | insert mem hf => exact .inr ⟨_, (hss.mem_iff _).mpr ⟨mem, hf⟩, rfl⟩
      | modify mem mem' hf hf' key =>
        have := hkinds _ _ mem mem' key
        simp [hf.1, hf'.1] at this
  · have hdel : (rs.map Change.newDelete).map Change.key = rs.map Path.key := by
      simp [Change.newDelete, Change.key]
    have hins : (ss.map Change.newInsert).map Change.key = ss.map Path.key := by
      simp [Change.newInsert, Change.key]
    rw [map_append, hdel, hins, nodup_append]
    refine ⟨hrs.nodup, hss.nodup, ?_⟩
    intro x hx y hy hxy
    obtain ⟨r, hr, rfl⟩ := mem_map.mp hx
    obtain ⟨s, hs, rfl⟩ := mem_map.mp hy
    obtain ⟨hmem, hf⟩ := (hrs.mem_iff r).mp hr
    obtain ⟨hmem', hf'⟩ := (hss.mem_iff s).mp hs
    have := hkinds r s hmem hmem' hxy
    simp [hf.1, hf'.1] at this

lemma listsFiles_none : ListsFiles (fun _ => False) [] := ⟨by simp, by simp⟩

lemma not_hides_none (x : List Bytes) : ¬ Hides (fun _ => False) x := fun ⟨_, h, _⟩ => h

lemma lists_delete (hord : Ordered [p]) (hclosed : SkipsClosed p) (hrs : ListsFiles (Below p) rs) :
    ListsChanges (Expected (Below p) fun _ => False) (rs.map .newDelete) := by
  have := lists_replace hrs listsFiles_none
    (fun r hr hf => ⟨not_hides_file hord hclosed hr hf, not_hides_none _⟩) (fun _ h => h.elim)
    (fun _ _ _ h => h.elim)
  simpa using this

lemma lists_insert (hord : Ordered [q]) (hclosed : SkipsClosed q) (hss : ListsFiles (Below q) ss) :
    ListsChanges (Expected (fun _ => False) (Below q)) (ss.map .newInsert) := by
  have := lists_replace listsFiles_none hss (fun _ h => h.elim)
    (fun s hs hf => ⟨not_hides_none _, not_hides_file hord hclosed hs hf⟩) (fun _ _ h => h.elim)
  simpa using this

lemma lists_leaf (hk : p.key = q.key) (hord : Ordered [p]) (hord' : Ordered [q])
    (hclosed : SkipsClosed p) (hclosed' : SkipsClosed q) (hskip : p.skip = false)
    (hskip' : q.skip = false) (hrs : ListsFiles (Below p) rs) (hss : ListsFiles (Below q) ss)
    (hleaf : childPaths p = [] ∨ childPaths q = []) (hkinds : p.isDir = true ∨ q.isDir = true) :
    ListsChanges (Expected (Below p) (Below q)) (rs.map .newDelete ++ ss.map .newInsert) := by
  have hp : ∀ {p : Path}, childPaths p = [] → ∀ r, Below p r → r = p := fun hnil r hr =>
    ((below_iff_childPaths.mp hr).resolve_right (hnil ▸ pending_nil))
  refine lists_replace hrs hss ?_ ?_ ?_
  · intro r hr hf
    refine ⟨not_hides_file hord hclosed hr hf, ?_⟩
    rcases hleaf with hnil | hnil
    · rw [hp hnil r hr, hk]
      exact not_hides_top hskip'
    · exact not_hides_leaf hnil hskip' _
  · intro s hs hf
    refine ⟨?_, not_hides_file hord' hclosed' hs hf⟩
    rcases hleaf with hnil | hnil
    · exact not_hides_leaf hnil hskip _
    · rw [hp hnil s hs, ← hk]
      exact not_hides_top hskip
  · intro r s hr hs hrs
    -- the one without anything below it has the names of both
    rcases hleaf with hnil | hnil
    · rw [hp hnil r hr] at hrs ⊢
      rw [hs.eq_of_key_eq (hrs.symm.trans hk)]
      exact hkinds
    · rw [hp hnil s hs] at hrs ⊢
      rw [hr.eq_of_key_eq (hrs.trans hk.symm)]
      exact hkinds

lemma lists_same (hord' : Ordered [q]) (hk : p.key = q.key) (hsame : SameFiles p q) :
    ListsChanges (Expected (Below p) (Below q)) [] := by
  have hp : ∀ {t : Path}, Below q t → Pending [q] t := fun ht => ⟨q, by simp, ht⟩
  -- every file on one side has a file with its names and hash on the other
  have hfrom : ∀ r, Below p r → r.isDir = false → ∃ s, Below q s ∧ s.isDir = false ∧ s.key = r.key ∧
      s.last.hash = r.last.hash := by
    intro r hr hf
    obtain ⟨rel, hrel⟩ := hr.key_isPrefix
    obtain ⟨s, hs, hsf, hkey, hhash⟩ := (hsame.2 rel r.last.hash).mp ⟨r, hr, hf, hrel.symm, rfl⟩
    exact ⟨s, hs, hsf, by rw [hkey, ← hrel, hk], hhash⟩
  have hto : ∀ s, Below q s → s.isDir = false → ∃ r, Below p r ∧ r.isDir = false ∧ r.key = s.key := by
    intro s hs hf
    obtain ⟨rel, hrel⟩ := hs.key_isPrefix
    obtain ⟨r, hr, hrf, hkey, _⟩ := (hsame.2 rel s.last.hash).mpr ⟨s, hs, hf, hrel.symm, rfl⟩
    exact ⟨r, hr, hrf, by rw [hkey, ← hrel, hk]⟩
  refine ⟨fun c => ⟨by simp, fun hc => ?_⟩, by simp⟩
  cases hc with
  | @delete r mem hf _ _ gone =>
    obtain ⟨s, hs, hsf, hkey, _⟩ := hfrom r mem hf.1
    exact absurd (gone s hs hkey) (by simp [hsf])
  | @insert s mem hf _ _ fresh =>
    obtain ⟨r, hr, hrf, hkey⟩ := hto s mem hf.1
    exact absurd (fresh r hr hkey) (by simp [hrf])
  | @modify r s mem mem' hf hf' key _ _ hash =>
    obtain ⟨t, ht, _, hkey, hhash⟩ := hfrom r mem hf.1
    rw [hord'.eq_of_keys (hp ht) (hp mem') (hkey.trans key)] at hhash
    exact absurd hhash.symm hash

lemma lists_modify (hk : p.key = q.key) (hp : p.IsFile) (hq : q.IsFile) (hhash : p.last.hash ≠ q.last.hash) :
    ListsChanges (Expected (Below p) (Below q)) [.newModify p q] := by
  have hleaf := childPaths_file hp.1
  have hleaf' := childPaths_file hq.1
  refine ⟨fun c => ?_, by simp⟩
  rw [mem_singleton]
  constructor
  · rintro rfl
    exact .modify .refl .refl hp hq hk (not_hides_leaf hleaf hp.2 _) (not_hides_leaf hleaf' hq.2 _) hhash
  · intro hc
    cases hc with
    | @delete r mem _ _ _ gone =>
      obtain rfl := (below_file hp.1).mp mem
      exact absurd (gone q .refl hk.symm) (by simp [hq.1])
    | @insert s mem _ _ _ fresh =>
      obtain rfl := (below_file hq.1).mp mem
      exact absurd (fresh p .refl hk) (by simp [hp.1])
    | @modify r s mem mem' =>
      obtain rfl := (below_file hp.1).mp mem
      obtain rfl := (below_file hq.1).mp mem'
      rfl

end Branches

lemma compareNodes_eq (a b : List Node) : compareNodes a b =
      if a.map Node.name < b.map Node.name then -1 else if a.map Node.name = b.map Node.name then 0 else 1 := by
  induction a generalizing b with
  | nil =>
    cases b with
    | nil => simp [compareNodes]
    | cons y b => simp [compareNodes]
  | cons x a ih =>
    cases b with
    | nil => simp [compareNodes]
    | cons y b =>
      rw [compareNodes, ih, map_cons, map_cons, stringsCompare]
      rcases lt_trichotomy x.name y.name with h | h | h
      · simp [h, cons_lt_cons_iff]
      · simp [h]
      · simp [h.ne', h.not_gt, cons_lt_cons_iff]

section Loop

variable {hashEqual : Path → Path → Bool} {p q : Path} {F T : List Path}
  {F' T' : List Path} {cs : Changes}

lemma compare_eq (p q : Path) : p.compare q = if p.key < q.key then -1 else if p.key = q.key then 0 else 1 :=
  compareNodes_eq p.nodes q.nodes

structure Good (hashEqual : Path → Path → Bool) (F T : List Path) : Prop extends Aligned F T where
  inStep : InStep (Pending F) (Pending T)
  namesake : ¬ Namesake (Pending F) (Pending T)
  namesake' : ¬ Namesake (Pending T) (Pending F)
  sound : ∀ r s, Pending F r → Pending T s → hashEqual r s = true → SameFiles r s
  files : ∀ r s, Pending F r → Pending T s → r.isDir = false → s.isDir = false →
    r.last.hash = s.last.hash → hashEqual r s = true

lemma Good.round (hg : Good hashEqual F T) (h : Round F T cs F' T') : Good hashEqual F' T' := by
  have hk := h.keeps hg.toAligned
  exact ⟨h.aligned hg.toAligned, hg.inStep.keeps hk, fun hn => hg.namesake (hn.of_keeps hk),
    fun hn => hg.namesake' (hn.of_keeps hk.symm),
    fun r s hr hs => hg.sound r s (hk.left r hr) (hk.right s hs),
    fun r s hr hs => hg.files r s (hk.left r hr) (hk.right s hs)⟩

lemma Ordered.le_of_pending (h : Ordered (p :: F)) {r : Path} (hr : Pending (p :: F) r) : p.key ≤ r.key := by
  rcases pending_cons.mp hr with hr | hr
  · exact le_of_isPrefix hr.key_isPrefix
  · exact (h.prefix_lt prefix_rfl hr).1.le

lemma skip_head (hal : Aligned (p :: F) (q :: T)) (hin : InStep (Pending (p :: F)) (Pending (q :: T)))
    (hskip : p.skip = true) (hk : p.key ≠ q.key) : ∀ s ∈ q :: T, s.key ≠ p.key := by
  intro s hs hkey
  rcases mem_cons.mp hs with rfl | hs
  · exact hk hkey.symm
  · have hlt : q.key < p.key := hkey ▸ (hal.ordered'.head hs).1
    obtain ⟨a, b, ha, _, _, _, hlt'⟩ := hin p s ⟨p, by simp, .refl⟩ ⟨s, by simp [hs], .refl⟩ hkey.symm
      (.inl hskip) q (.inr ⟨q, by simp, .refl⟩) hlt
    exact absurd (hal.ordered.le_of_pending ha) (not_le.mpr hlt')

lemma skip_namesake (hal : Aligned (p :: F) (q :: T))
    (hname : ¬ Namesake (Pending (p :: F)) (Pending (q :: T))) (hskip : p.skip = true)
    (habs : ∀ s ∈ q :: T, s.key ≠ p.key) (hpq : p.name = q.name) : q.skip = true := by
  by_contra hqs
  obtain ⟨x, hx⟩ := hal.place
  refine hname ⟨p, q, ⟨p, by simp, .refl⟩, hskip, ?_, ⟨q, by simp, .refl⟩, by simpa using hqs, hpq,
    prefix_or_prefix_of_prefix (hx p (by simp)) (hx q (by simp))⟩
  intro s hs hkey
  exact (hal.apart_of_absent habs .refl hs).ne hkey.symm

lemma Aligned.closed (h : Aligned (p :: F) T) : SkipsClosed p :=
  fun r hr => h.skips r (.inl (pending_cons.mpr (.inl hr)))

/-- One round, or two with no changes in the first. -/
inductive Rounds : List Path → List Path → Changes → List Path → List Path → Prop
  | one {F T F' T' : List Path} {cs : Changes} (h : Round F T cs F' T') : Rounds F T cs F' T'
  | two {F T F₁ T₁ F' T' : List Path} {cs : Changes} (h : Round F T [] F₁ T₁)
      (h' : Round F₁ T₁ cs F' T') : Rounds F T cs F' T'

/-- A branch of the loop reports changes and leaves an iterator as some rounds do. -/
def Does (result : Except Fault (Changes × DoubleIter)) (l : Changes) (F T : List Path) : Prop :=
  ∃ cs F' T' i, result = .ok (l ++ cs, i) ∧ i.Holds F' T' ∧ Rounds F T cs F' T'

section Branch

variable {ii : DoubleIter} {l : Changes}

lemma Aligned.addDelete (h : Aligned (p :: F) T) (l : Changes) :
    ∃ rs, addRecursiveDelete l p = .ok (l ++ rs.map .newDelete) ∧ ListsFiles (Below p) rs :=
  addRecursive_spec l h.ordered.single (h.strings p (by simp))

lemma Aligned.addInsert (h : Aligned F (q :: T)) (l : Changes) :
    ∃ ss, addRecursiveInsert l q = .ok (l ++ ss.map .newInsert) ∧ ListsFiles (Below q) ss :=
  addRecursive_spec l h.ordered'.single (h.strings q (by simp))

lemma childPaths_nil (h : p.last.numChildren = 0) : childPaths p = [] := by
  rw [childPaths, map_eq_nil_iff, ← length_eq_zero_iff, (frame_perm p.last).length_eq]
  exact h

lemma listsFiles_empty (hleaf : childPaths p = []) (hdir : p.isDir = true) : ListsFiles (Below p) [] := by
  refine ⟨fun r => ⟨by simp, fun ⟨hr, hf⟩ => ?_⟩, by simp⟩
  rw [below_iff_childPaths, hleaf] at hr
  obtain rfl := hr.resolve_right pending_nil
  exact absurd (hf.1.symm.trans hdir) (by simp)

lemma Aligned.replace {rs ss : List Path} (hal : Aligned (p :: F) (q :: T)) (hk : p.key = q.key)
    (hskip : p.skip = false) (hskip' : q.skip = false) (hrs : ListsFiles (Below p) rs)
    (hss : ListsFiles (Below q) ss) (hleaf : childPaths p = [] ∨ childPaths q = [])
    (hkinds : p.isDir = true ∨ q.isDir = true) : Round (p :: F) (q :: T) (rs.map .newDelete ++ ss.map .newInsert) F T :=
  .passBoth hk (lists_leaf hk hal.ordered.single hal.ordered'.single hal.closed hal.symm.closed hskip
    hskip' hrs hss hleaf hkinds)

lemma diffDirs_does (hg : Good hashEqual (p :: F) (q :: T)) (hii : ii.Holds (p :: F) (q :: T))
    (hk : p.key = q.key) (hskip : p.skip = false) (hskip' : q.skip = false) (hdir : p.isDir = true)
    (hdir' : q.isDir = true) : Does (diffDirs hashEqual l p q ii) l (p :: F) (q :: T) := by
  have hal := hg.toAligned
  obtain ⟨i, hi, hholds⟩ := hii.nextBoth
  by_cases hempty : p.last.numChildren = 0
  · obtain ⟨ss, hss, hfiles⟩ := hal.addInsert l
    have hleaf := childPaths_nil hempty
    refine ⟨ss.map .newInsert, F, T, i, ?_, hholds, .one ?_⟩
    · simp [diffDirs, compareCurrent, hdir, hempty, hss, hi]
    · exact hal.replace hk hskip hskip' (listsFiles_empty hleaf hdir) hfiles (.inl hleaf) (.inl hdir)
  by_cases hempty' : q.last.numChildren = 0
  · obtain ⟨rs, hrs, hfiles⟩ := hal.addDelete l
    have hleaf := childPaths_nil hempty'
    refine ⟨rs.map .newDelete, F, T, i, ?_, hholds, .one ?_⟩
    · simp [diffDirs, compareCurrent, hdir', hempty, hempty', hrs, hi]
    · have := hal.replace hk hskip hskip' hfiles (listsFiles_empty hleaf hdir') (.inr hleaf) (.inl hdir)
      simpa using this
  · obtain ⟨j, hj, hholds'⟩ := hii.stepBoth
    refine ⟨[], _, _, j, ?_, hholds', .one (.enter hk hdir hdir' hskip hskip')⟩
    simp [diffDirs, compareCurrent, hempty, hempty', hj]

lemma diffNodesSameName_does (hg : Good hashEqual (p :: F) (q :: T))
    (hii : ii.Holds (p :: F) (q :: T)) (hk : p.key = q.key) (hskip : p.skip = false)
    (hskip' : q.skip = false) : Does (diffNodesSameName hashEqual l p q ii) l (p :: F) (q :: T) := by
  have hal := hg.toAligned
  have hp : Pending (p :: F) p := ⟨p, by simp, .refl⟩
  have hq : Pending (q :: T) q := ⟨q, by simp, .refl⟩
  obtain ⟨i, hi, hholds⟩ := hii.nextBoth
  by_cases hsame : hashEqual p q = true
  · refine ⟨[], F, T, i, ?_, hholds, .one (.passBoth hk (lists_same hal.ordered'.single hk (hg.sound p q hp hq hsame)))⟩
    simp [diffNodesSameName, compareCurrent, hsame, hi]
  · cases hdir : p.isDir <;> cases hdir' : q.isDir
    · have hhash : p.last.hash ≠ q.last.hash := fun h => hsame (hg.files p q hp hq hdir hdir' h)
      refine ⟨[.newModify p q], F, T, i, ?_, hholds,
        .one (.passBoth hk (lists_modify hk ⟨hdir, hskip⟩ ⟨hdir', hskip'⟩ hhash))⟩
      simp [diffNodesSameName, compareCurrent, hsame, hdir, hdir', hi]
    -- a file against a directory
    case false.true | true.false =>
      obtain ⟨rs, hrs, hfiles⟩ := hal.addDelete l
      obtain ⟨ss, hss, hfiles'⟩ := hal.addInsert (l ++ rs.map .newDelete)
      refine ⟨rs.map .newDelete ++ ss.map .newInsert, F, T, i, ?_, hholds, .one ?_⟩
      · simp [diffNodesSameName, compareCurrent, hsame, hdir, hdir', hrs, hss, hi]
      · exact hal.replace hk hskip hskip' hfiles hfiles' (by simp [childPaths_file, hdir, hdir']) (by simp [hdir, hdir'])
    · have hdirs := diffDirs_does (l := l) hg hii hk hskip hskip' hdir hdir'
      have heq : diffNodesSameName hashEqual l p q ii = diffDirs hashEqual l p q ii := by
        simp [diffNodesSameName, compareCurrent, hsame, hdir, hdir']
      rw [heq]
      exact hdirs

lemma Ordered.ne_of_lt (h : Ordered (q :: T)) (hlt : p.key < q.key) : ∀ s ∈ q :: T, s.key ≠ p.key := by
  intro s hs hkey
  exact absurd (h.le_of_pending ⟨s, hs, .refl⟩) (not_le.mpr (hkey ▸ hlt))

lemma diffNodes_does (hg : Good hashEqual (p :: F) (q :: T)) (hii : ii.Holds (p :: F) (q :: T))
    (hskip : p.skip = false) (hskip' : q.skip = false) : Does (diffNodes hashEqual l p q ii) l (p :: F) (q :: T) := by
  have hal := hg.toAligned
  rcases lt_trichotomy p.key q.key with hlt | heq | hlt
  · obtain ⟨rs, hrs, hfiles⟩ := hal.addDelete l
    obtain ⟨i, hi, hholds⟩ := hii.nextFrom
    refine ⟨rs.map .newDelete, F, q :: T, i, ?_, hholds,
      .one (.passFrom (hal.ordered'.ne_of_lt hlt) (lists_delete hal.ordered.single hal.closed hfiles))⟩
    simp [diffNodes, compare_eq, hlt, hrs, hi]
  · have hsame := diffNodesSameName_does (l := l) hg hii heq hskip hskip'
    have hbranch : diffNodes hashEqual l p q ii = diffNodesSameName hashEqual l p q ii := by
      simp [diffNodes, compare_eq, heq]
    rw [hbranch]
    exact hsame
  · obtain ⟨ss, hss, hfiles⟩ := hal.addInsert l
    obtain ⟨i, hi, hholds⟩ := hii.nextTo
    refine ⟨ss.map .newInsert, p :: F, T, i, ?_, hholds,
      .one (.passTo (hal.ordered.ne_of_lt hlt) (lists_insert hal.ordered'.single hal.symm.closed hfiles))⟩
    simp [diffNodes, compare_eq, hlt.not_gt, hlt.ne', hss, hi]

lemma Round.skipFrom (hskip : p.skip = true) (habs : ∀ s ∈ T, s.key ≠ p.key) : Round (p :: F) T [] F T :=
  .passFrom habs (lists_hidden (.inl ⟨p, .refl, prefix_rfl, hskip⟩) fun _ hr =>
    hr.elim Below.key_isPrefix False.elim)

lemma Round.skipTo (hskip : q.skip = true) (habs : ∀ s ∈ F, s.key ≠ q.key) : Round F (q :: T) [] F T :=
  .passTo habs (lists_hidden (.inr ⟨q, .refl, prefix_rfl, hskip⟩) fun _ hr =>
    hr.elim False.elim Below.key_isPrefix)

lemma Round.skipBoth (hk : p.key = q.key) (hskip : p.skip = true ∨ q.skip = true) : Round (p :: F) (q :: T) [] F T := by
  refine .passBoth hk (lists_hidden (x := p.key) ?_ fun r hr => ?_)
  · exact hskip.imp (fun h => ⟨p, .refl, prefix_rfl, h⟩) fun h =>
      ⟨q, .refl, hk ▸ prefix_rfl, h⟩
  · exact hr.elim Below.key_isPrefix fun h => hk ▸ h.key_isPrefix

lemma name_of_key (h : p.key = q.key) : p.name = q.name := by
  rw [p.key_eq, q.key_eq] at h
  simpa using (append_inj' h rfl).2

lemma diffBoth_does (hg : Good hashEqual (p :: F) (q :: T)) (hii : ii.Holds (p :: F) (q :: T)) :
    Does (diffBoth hashEqual l p q ii) l (p :: F) (q :: T) := by
  have hal := hg.toAligned
  cases hskip : p.skip with
  | true =>
    by_cases hk : p.key = q.key
    · obtain ⟨i, hi, hholds⟩ := hii.nextBoth
      refine ⟨[], F, T, i, ?_, hholds, .one (.skipBoth hk (.inl hskip))⟩
      simp [diffBoth, hskip, name_of_key hk, hi]
    · have habs := skip_head hal hg.inStep hskip hk
      by_cases hname : p.name = q.name
      · -- a namesake is skipped too, and not in the first list
        have hskip' := skip_namesake hal hg.namesake hskip habs hname
        have habs' := skip_head hal.symm hg.inStep.symm hskip' (Ne.symm hk)
        obtain ⟨i, hi, hholds⟩ := hii.nextBoth
        refine ⟨[], F, T, i, ?_, hholds, .two (.skipFrom hskip habs)
          (.skipTo hskip' fun s hs => habs' s (by simp [hs]))⟩
        simp [diffBoth, hskip, hname, hi]
      · obtain ⟨i, hi, hholds⟩ := hii.nextFrom
        refine ⟨[], F, q :: T, i, ?_, hholds, .one (.skipFrom hskip habs)⟩
        simp [diffBoth, hskip, hname, hi]
  | false =>
    cases hskip' : q.skip with
    | true =>
      by_cases hk : p.key = q.key
      · obtain ⟨i, hi, hholds⟩ := hii.nextBoth
        refine ⟨[], F, T, i, ?_, hholds, .one (.skipBoth hk (.inr hskip'))⟩
        simp [diffBoth, hskip, hskip', name_of_key hk, hi]
      · have habs := skip_head hal.symm hg.inStep.symm hskip' (Ne.symm hk)
        have hname : p.name ≠ q.name := fun h =>
          absurd (skip_namesake hal.symm hg.namesake' hskip' habs h.symm) (by simp [hskip])
        obtain ⟨i, hi, hholds⟩ := hii.nextTo
        refine ⟨[], p :: F, T, i, ?_, hholds, .one (.skipTo hskip' habs)⟩
        simp [diffBoth, hskip, hskip', hname, hi]
    | false =>
      have hnodes := diffNodes_does (l := l) hg hii hskip hskip'
      have hbranch : diffBoth hashEqual l p q ii = diffNodes hashEqual l p q ii := by
        simp [diffBoth, hskip, hskip']
      rw [hbranch]
      exact hnodes

end Branch

lemma diffRound_spec {ii : DoubleIter} (hg : Good hashEqual F T) (hii : ii.Holds F T) (l : Changes) :
    (F = [] ∧ T = [] ∧ diffRound hashEqual l ii = .ok none) ∨
      ∃ cs F' T' i, diffRound hashEqual l ii = .ok (some (l ++ cs, i)) ∧ i.Holds F' T' ∧ Rounds F T cs F' T' := by
  have hal := hg.toAligned
  cases F with
  | nil =>
    cases T with
    | nil =>
      refine .inl ⟨rfl, rfl, ?_⟩
      simp [diffRound, hii.1.current, hii.2.current]
    | cons q T =>
      obtain ⟨i, hi, hholds⟩ := hii.nextTo
      cases hskip : q.skip with
      | true =>
        refine .inr ⟨[], [], T, i, ?_, hholds, .one (.skipTo hskip (by simp))⟩
        simp [diffRound, hii.1.current, hii.2.current, hskip, hi]
      | false =>
        obtain ⟨ss, hss, hfiles⟩ := hal.addInsert l
        refine .inr ⟨ss.map .newInsert, [], T, i, ?_, hholds,
          .one (.passTo (by simp) (lists_insert hal.ordered'.single hal.symm.closed hfiles))⟩
        simp [diffRound, hii.1.current, hii.2.current, hskip, hss, hi]
  | cons p F =>
    cases T with
    | nil =>
      obtain ⟨i, hi, hholds⟩ := hii.nextFrom
      cases hskip : p.skip with
      | true =>
        refine .inr ⟨[], F, [], i, ?_, hholds, .one (.skipFrom hskip (by simp))⟩
        simp [diffRound, hii.1.current, hii.2.current, hskip, hi]
      | false =>
        obtain ⟨rs, hrs, hfiles⟩ := hal.addDelete l
        refine .inr ⟨rs.map .newDelete, F, [], i, ?_, hholds,
          .one (.passFrom (by simp) (lists_delete hal.ordered.single hal.closed hfiles))⟩
        simp [diffRound, hii.1.current, hii.2.current, hskip, hrs, hi]
    | cons q T =>
      obtain ⟨cs, F', T', i, hdoes, hholds, hrounds⟩ := @diffBoth_does hashEqual p q F T ii l hg hii
      refine .inr ⟨cs, F', T', i, ?_, hholds, hrounds⟩
      simp [diffRound, hii.1.current, hii.2.current, hdoes]

lemma Rounds.count (h : Rounds F T cs F' T') : countPaths F' + countPaths T' < countPaths F + countPaths T := by
  cases h with
  | one h => exact h.count
  | two h h' => exact h'.count.trans h.count

lemma Good.rounds (hg : Good hashEqual F T) (h : Rounds F T cs F' T') : Good hashEqual F' T' := by
  cases h with
  | one h => exact hg.round h
  | two h h' => exact (hg.round h).round h'

lemma Rounds.lists {cs cs' : Changes} (h : Rounds F T cs F' T')
    (hg : Good hashEqual F T) (hrest : ListsChanges (Expected (Pending F') (Pending T')) cs') :
    ListsChanges (Expected (Pending F) (Pending T)) (cs ++ cs') := by
  cases h with
  | one h => exact h.lists hg.toAligned hrest
  | two h h' => exact h.lists hg.toAligned (h'.lists (hg.round h).toAligned hrest)

lemma diffLoop_spec {fuel : ℕ} {ii : DoubleIter} (hg : Good hashEqual F T) (hii : ii.Holds F T)
    (hfuel : countPaths F + countPaths T < fuel) (l : Changes) : ∃ cs, diffLoop hashEqual fuel l ii = .ok (l ++ cs) ∧
      ListsChanges (Expected (Pending F) (Pending T)) cs := by
  induction fuel generalizing F T ii l with
  | zero => omega
  | succ fuel ih =>
    rcases diffRound_spec hg hii l with ⟨rfl, rfl, hround⟩ | ⟨cs, F', T', i, hround, hholds, hrounds⟩
    · refine ⟨[], by simp [diffLoop, hround], ?_, by simp⟩
      refine fun c => ⟨by simp, fun hc => ?_⟩
      obtain ⟨r, hr, _⟩ := hc.about
      exact absurd hr (by simp)
    · have hcount := hrounds.count
      obtain ⟨cs', hloop, hlists⟩ := ih (hg.rounds hrounds) hholds (by omega) (l ++ cs)
      refine ⟨cs ++ cs', ?_, hrounds.lists hg hlists⟩
      simp [diffLoop, hround, hloop]

end Loop

end GoGit.Merkletrie
