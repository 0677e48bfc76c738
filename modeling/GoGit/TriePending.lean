import GoGit.TrieDiff

namespace GoGit.Merkletrie

open PathOrder List

section Paths

variable {p q r : Path} {n c : Node}

@[simp] lemma Path.nodes_child (p : Path) (n : Node) : (p.child n).nodes = p.nodes ++ [n] := rfl

@[simp] lemma Path.last_child (p : Path) (n : Node) : (p.child n).last = n := rfl

@[simp] lemma Path.key_child (p : Path) (n : Node) : (p.child n).key = p.key ++ [n.name] := by
  simp [Path.key]

lemma Path.key_eq (p : Path) : p.key = p.ancestors.map Node.name ++ [p.name] := by
  simp [Path.key, Path.nodes, Path.name]

inductive Below (p : Path) : Path → Prop
  | refl : Below p p
  | child {r : Path} {c : Node} (parent : Below p r) (mem : c ∈ r.last.children) : Below p (r.child c)

lemma Below.key_isPrefix (h : Below p r) : p.key <+: r.key := by
  induction h with
  | refl => exact prefix_rfl
  | child _ _ ih =>
    rw [Path.key_child]
    exact ih.trans (prefix_append _ _)

lemma Below.trans (h : Below p q) (h' : Below q r) : Below p r := by
  induction h' with
  | refl => exact h
  | child _ mem ih => exact .child ih mem

lemma below_iff : Below p r ↔ r = p ∨ ∃ c ∈ p.last.children, Below (p.child c) r := by
  constructor
  · intro h
    induction h with
    | refl => exact .inl rfl
    | @child r c parent mem ih =>
      rcases ih with rfl | ⟨c', hc', hbelow⟩
      · exact .inr ⟨c, mem, .refl⟩
      · exact .inr ⟨c', hc', .child hbelow mem⟩
  · rintro (rfl | ⟨c, hc, hbelow⟩)
    · exact .refl
    · exact (Below.child .refl hc).trans hbelow

lemma Below.eq_of_key_eq (h : Below p r) (hk : r.key = p.key) : r = p := by
  cases h with
  | refl => rfl
  | @child s c parent mem =>
    have hlen := parent.key_isPrefix.length_le
    have := congrArg List.length hk
    simp only [Path.key_child, length_append, length_singleton] at this
    omega

lemma Below.eq_of_keys (hnames : ∀ s, Below p s → (s.last.children.map Node.name).Nodup)
    (h : Below p r) (h' : Below p q) (hk : r.key = q.key) : r = q := by
  induction h generalizing q with
  | refl => exact (h'.eq_of_key_eq hk.symm).symm
  | @child r c parent mem ih =>
    cases h' with
    | refl => exact (Below.child parent mem).eq_of_key_eq hk
    | @child q c' parent' mem' =>
      rw [Path.key_child, Path.key_child] at hk
      obtain ⟨hkey, hname⟩ := append_inj' hk rfl
      obtain rfl := ih parent' hkey
      rw [inj_on_of_nodup_map (hnames r parent) mem mem' (by simpa using hname)]

end Paths

def childPaths (p : Path) : List Path := (Frame.new p.last).map p.child

def rootPaths (tree : Option Node) : List Path := (tree.toList.flatMap Frame.new).map fun n => ⟨[], n⟩

def Pending (paths : List Path) (r : Path) : Prop := ∃ p ∈ paths, Below p r

structure Ordered (paths : List Path) : Prop where
  sorted : paths.Pairwise fun p q => p.key < q.key ∧ ¬ p.key <+: q.key
  names : ∀ r, Pending paths r → (r.last.children.map Node.name).Nodup

section Lists

variable {p q r s : Path} {paths : List Path}

lemma frame_perm (n : Node) : (Frame.new n).Perm n.children := List.perm_insertionSort _ _

lemma mem_frame {n c : Node} : c ∈ Frame.new n ↔ c ∈ n.children := (frame_perm n).mem_iff

lemma frame_sorted {n : Node} (h : (n.children.map Node.name).Nodup) :
    (Frame.new n).Pairwise fun a b => a.name < b.name := by
  have hle : (Frame.new n).Pairwise fun a b => a.name ≤ b.name :=
    pairwise_insertionSort (fun a b : Node => a.name ≤ b.name) n.children
  have hne : (Frame.new n).Pairwise fun a b => a.name ≠ b.name := by
    rw [← pairwise_map (f := Node.name) (R := fun a b => a ≠ b)]
    exact ((frame_perm n).map Node.name).nodup_iff.mpr h
  exact (hle.and hne).imp fun ⟨h, h'⟩ => lt_of_le_of_ne h h'

lemma frame_paths_sorted {n : Node} (base : List Node) (h : (n.children.map Node.name).Nodup) :
    ((Frame.new n).map (Path.mk base)).Pairwise fun p q => p.key < q.key ∧ ¬ p.key <+: q.key := by
  rw [pairwise_map]
  refine (frame_sorted h).imp ?_
  intro a b hab
  rw [Path.key_eq, Path.key_eq]
  exact ⟨snoc_lt_snoc hab, not_snoc_prefix_snoc hab.ne⟩

@[simp] lemma pending_nil : ¬ Pending [] r := by simp [Pending]

lemma pending_cons : Pending (p :: paths) r ↔ Below p r ∨ Pending paths r := by simp [Pending]

lemma pending_append {more : List Path} : Pending (paths ++ more) r ↔ Pending paths r ∨ Pending more r := by
  simp [Pending, or_and_right, exists_or]

lemma below_iff_childPaths : Below p r ↔ r = p ∨ Pending (childPaths p) r := by
  rw [below_iff]
  simp [Pending, childPaths, mem_frame]

lemma pending_expand : Pending (p :: paths) r ↔ r = p ∨ Pending (childPaths p ++ paths) r := by
  rw [pending_cons, below_iff_childPaths, pending_append, or_assoc]

lemma pending_of_expand (h : Pending (childPaths p ++ paths) r) : Pending (p :: paths) r :=
  pending_expand.mpr (.inr h)

section

variable (h : Ordered (p :: paths))

include h

lemma Ordered.head {q : Path} (hq : q ∈ paths) :
    p.key < q.key ∧ ¬ p.key <+: q.key := (pairwise_cons.mp h.sorted).1 q hq

lemma Ordered.tail : Ordered paths :=
  ⟨(pairwise_cons.mp h.sorted).2, fun r hr => h.names r (pending_cons.mpr (.inr hr))⟩

lemma Ordered.single : Ordered [p] :=
  ⟨pairwise_singleton _ _, fun r hr => h.names r (by
    rw [pending_cons] at hr ⊢
    exact hr.imp_right fun h => absurd h pending_nil)⟩

lemma Ordered.prefix_lt {x : List Bytes} (hx : p.key <+: x) (hs : Pending paths s) : x < s.key ∧ Apart x s.key := by
  obtain ⟨q, hq, hqs⟩ := hs
  obtain ⟨hlt, hpre⟩ := h.head hq
  exact ⟨lt_of_isPrefix hlt hpre hx hqs.key_isPrefix, (apart_of_lt hlt hpre).of_isPrefix hx hqs.key_isPrefix⟩

lemma Ordered.expand : Ordered (childPaths p ++ paths) := by
  refine ⟨?_, ?_⟩
  · rw [pairwise_append]
    refine ⟨?_, h.tail.sorted, ?_⟩
    · exact frame_paths_sorted p.nodes (h.names p (pending_cons.mpr (.inl .refl)))
    · intro a ha b hb
      obtain ⟨c, hc, rfl⟩ := mem_map.mp ha
      have := h.prefix_lt (Below.child .refl (mem_frame.mp hc)).key_isPrefix ⟨b, hb, .refl⟩
      exact ⟨this.1, this.2.1⟩
  · exact fun r hr => h.names r (pending_of_expand hr)

lemma Ordered.lt_of_expand (hr : Pending (childPaths p ++ paths) r) : p.key < r.key := by
  rcases pending_append.mp hr with ⟨q, hq, hbelow⟩ | hr
  · obtain ⟨c, _, rfl⟩ := mem_map.mp hq
    have hpre := hbelow.key_isPrefix
    rw [Path.key_child] at hpre
    refine lt_of_le_of_ne (le_of_isPrefix ((prefix_append _ _).trans hpre)) ?_
    intro heq
    have := hpre.length_le
    simp [heq] at this
  · exact (h.prefix_lt prefix_rfl hr).1

end

lemma Ordered.eq_of_keys (h : Ordered paths) (hr : Pending paths r) (hs : Pending paths s)
    (hk : r.key = s.key) : r = s := by
  induction paths with
  | nil => exact absurd hr pending_nil
  | cons p paths ih =>
    rcases pending_cons.mp hr with hpr | hr' <;> rcases pending_cons.mp hs with hps | hs'
    · exact Below.eq_of_keys (fun t ht => h.names t (pending_cons.mpr (.inl ht))) hpr hps hk
    · exact absurd hk (h.prefix_lt hpr.key_isPrefix hs').2.ne
    · exact absurd hk.symm (h.prefix_lt hps.key_isPrefix hr').2.ne
    · exact ih h.tail hr' hs'

def countPaths (paths : List Path) : ℕ := (paths.map fun p => p.last.count).sum

lemma countAll_eq (ns : List Node) : Node.countAll ns = (ns.map Node.count).sum := by
  induction ns with
  | nil => rfl
  | cons n ns ih => rw [Node.countAll, ih, map_cons, sum_cons]

lemma count_eq (n : Node) : n.count = (n.children.map Node.count).sum + 1 := by
  cases n with
  | file => rfl
  | dir name hash children skip => rw [Node.count, countAll_eq, Node.children]

lemma count_frame (n : Node) : ((Frame.new n).map Node.count).sum + 1 = n.count := by
  rw [count_eq, ((frame_perm n).map Node.count).sum_eq]

lemma countPaths_cons : countPaths (p :: paths) = p.last.count + countPaths paths := by
  simp [countPaths]

lemma countPaths_expand : countPaths (childPaths p ++ paths) + 1 = countPaths (p :: paths) := by
  have : ((Frame.new p.last).map fun n => n.count).sum + 1 = p.last.count := count_frame p.last
  simp only [countPaths, childPaths, map_append, map_map, sum_append, map_cons,
    sum_cons, Function.comp_def, Path.last_child]
  omega

/-- The paths and those below them, a directory before what it holds. -/
def preorder : ℕ → List Path → List Path
  | 0, _ | _, [] => []
  | fuel + 1, p :: paths => p :: preorder fuel (childPaths p ++ paths)

lemma mem_preorder {fuel : ℕ} (h : countPaths paths ≤ fuel) : r ∈ preorder fuel paths ↔ Pending paths r := by
  induction fuel generalizing paths with
  | zero =>
    cases paths with
    | nil => simp [preorder]
    | cons p paths =>
      have := @countPaths_expand p paths
      omega
  | succ fuel ih =>
    cases paths with
    | nil => simp [preorder]
    | cons p paths =>
      have := @countPaths_expand p paths
      rw [preorder, mem_cons, ih (by omega), pending_expand]

end Lists

namespace Iter

/-- The noders at the top of the frames, from the bottom of the stack. -/
def heads : List Frame → List Node
  | [] => []
  | f :: stack => heads stack ++ f.head?.toList

def behind (base : List Node) : List Frame → List Path
  | [] => []
  | f :: stack => f.tail.map (fun n => ⟨base ++ heads stack, n⟩) ++ behind base stack

def paths (base : List Node) : List Frame → List Path
  | [] => []
  | f :: stack => f.map (fun n => ⟨base ++ heads stack, n⟩) ++ behind base stack

structure Holds (iter : Iter) (ps : List Path) : Prop where
  frames : ∀ f ∈ iter.frameStack, f ≠ []
  paths_eq : paths iter.base iter.frameStack = ps

def firstPath : List Path → Except Fault Path
  | [] => .error .eof
  | p :: _ => .ok p

section

variable {iter : Iter} {p : Path} {ps : List Path}

lemma firsts_eq {stack : List Frame} (h : ∀ f ∈ stack, f ≠ []) : firsts stack = some (heads stack) := by
  induction stack with
  | nil => rfl
  | cons f stack ih =>
    cases f with
    | nil => exact absurd rfl (h [] (by simp))
    | cons n f => simp [firsts, ih fun g hg => h g (by simp [hg]), heads]

lemma Holds.current_eq (h : iter.Holds ps) : iter.current = firstPath ps := by
  obtain ⟨hframes, hpaths⟩ := h
  rw [← hpaths]
  unfold current
  match hs : iter.frameStack with
  | [] => rfl
  | [] :: stack => exact absurd rfl (hframes [] (by simp [hs]))
  | (n :: f) :: stack =>
    have hrest : ∀ g ∈ stack, g ≠ [] := fun g hg => hframes g (by simp [hs, hg])
    simp [firsts_eq hrest, paths, firstPath]

lemma drop_spec (base : List Node) {stack : List Frame} (h : ∀ f ∈ stack, f ≠ []) :
    paths base (drop stack) = behind base stack ∧ ∀ f ∈ drop stack, f ≠ [] := by
  induction stack with
  | nil => exact ⟨rfl, by simp [drop]⟩
  | cons f stack ih =>
    have hrest : ∀ g ∈ stack, g ≠ [] := fun g hg => h g (by simp [hg])
    rw [drop]
    split_ifs with htail
    · rw [behind, htail]
      exact ih hrest
    · refine ⟨rfl, ?_⟩
      exact forall_mem_cons.mpr ⟨htail, hrest⟩

section

variable (h : iter.Holds (p :: ps))

include h

lemma Holds.stack : p.nodes = iter.base ++ heads iter.frameStack ∧ behind iter.base iter.frameStack = ps := by
  obtain ⟨hframes, hpaths⟩ := h
  match hs : iter.frameStack with
  | [] => simp [hs, paths] at hpaths
  | [] :: stack => exact absurd rfl (hframes [] (by simp [hs]))
  | (n :: f) :: stack =>
    simp only [hs, paths, map_cons, cons_append, List.cons.injEq] at hpaths
    obtain ⟨rfl, hrest⟩ := hpaths
    exact ⟨by simp [Path.nodes, heads], hrest⟩

lemma Holds.drop : ({ iter with frameStack := drop iter.frameStack } : Iter).Holds ps := by
  obtain ⟨hpaths, hframes⟩ := drop_spec iter.base h.frames
  exact ⟨hframes, hpaths.trans h.stack.2⟩

lemma Holds.push (hne : p.last.numChildren ≠ 0) :
    ({ iter with frameStack := Frame.new p.last :: iter.frameStack } : Iter).Holds
      (childPaths p ++ ps) := by
  obtain ⟨hnodes, hbehind⟩ := h.stack
  refine ⟨?_, ?_⟩
  · intro f hf
    rcases mem_cons.mp hf with rfl | hf
    · intro hnil
      have := (frame_perm p.last).length_eq
      rw [hnil] at this
      exact hne this.symm
    · exact h.frames f hf
  · simp only [paths, hbehind, ← hnodes]
    rfl

section

variable (hs : iter.hasStarted = true)

include hs

lemma Holds.advance_eq (wantDescend : Bool) : iter.advance wantDescend = (let i : Iter := { iter with
        frameStack := if p.last.numChildren ≠ 0 ∧ wantDescend = true
          then Frame.new p.last :: iter.frameStack else Iter.drop iter.frameStack }
      (i.current, i)) := by
  simp only [advance, h.current_eq, firstPath]
  rw [if_neg (by simp [hs])]

lemma Holds.next : ∃ i, iter.next = (firstPath ps, i) ∧ i.hasStarted = true ∧ i.Holds ps := by
  refine ⟨{ iter with frameStack := Iter.drop iter.frameStack }, ?_, hs, h.drop⟩
  rw [Iter.next, h.advance_eq hs, if_neg (by simp)]
  exact Prod.ext h.drop.current_eq rfl

lemma Holds.step :
    ∃ i, iter.step = (firstPath (childPaths p ++ ps), i) ∧ i.hasStarted = true ∧ i.Holds (childPaths p ++ ps) := by
  by_cases hne : p.last.numChildren = 0
  · have hnil : childPaths p = [] := by
      have := (frame_perm p.last).length_eq
      rw [childPaths, map_eq_nil_iff, ← length_eq_zero_iff, this]
      exact hne
    rw [hnil, nil_append]
    refine ⟨{ iter with frameStack := Iter.drop iter.frameStack }, ?_, hs, h.drop⟩
    rw [Iter.step, h.advance_eq hs, if_neg (by simp [hne])]
    exact Prod.ext h.drop.current_eq rfl
  · refine ⟨{ iter with frameStack := Frame.new p.last :: iter.frameStack }, ?_, hs, h.push hne⟩
    rw [Iter.step, h.advance_eq hs, if_pos ⟨hne, rfl⟩]
    exact Prod.ext (h.push hne).current_eq rfl

end

end

lemma Holds.advance_first (h : iter.Holds ps) (hs : iter.hasStarted = false) (wantDescend : Bool) :
    ∃ i, iter.advance wantDescend = (firstPath ps, i) ∧ (ps ≠ [] → i.hasStarted = true ∧ i.Holds ps) := by
  cases ps with
  | nil => exact ⟨iter, by simp [advance, h.current_eq, firstPath], by simp⟩
  | cons p ps =>
    refine ⟨{ iter with hasStarted := true }, ?_, fun _ => ⟨rfl, h.frames, h.paths_eq⟩⟩
    simp [advance, h.current_eq, firstPath, hs]

/-- The next step of the iterator goes to the first of these paths. -/
def Visits (iter : Iter) (ps : List Path) : Prop :=
  ∃ i, iter.step = (firstPath ps, i) ∧ (ps ≠ [] → i.hasStarted = true ∧ i.Holds ps)

lemma Holds.visits (h : iter.Holds (p :: ps)) (hs : iter.hasStarted = true) : iter.Visits (childPaths p ++ ps) := by
  obtain ⟨i, hi, hstarted, hholds⟩ := h.step hs
  exact ⟨i, hi, fun _ => ⟨hstarted, hholds⟩⟩

lemma newIter_advance (root : Option Node) (base : List Node) (wantDescend : Bool) {ps : List Path}
    (hps : ps = (root.toList.flatMap Frame.new).map fun n => ⟨base, n⟩) :
    ∃ i, (newIter root base).advance wantDescend = (firstPath ps, i) ∧
      (ps ≠ [] → i.hasStarted = true ∧ i.Holds ps) := by
  cases root with
  | none =>
    subst hps
    exact ⟨_, rfl, by simp⟩
  | some n =>
    simp only [Option.toList_some, flatMap_cons, flatMap_nil, append_nil] at hps
    cases hf : Frame.new n with
    | nil =>
      refine ⟨newIter (some n) base, ?_, by simp [hps, hf]⟩
      simp [newIter, hf, advance, current, firstPath, hps]
    | cons c cs =>
      have hholds : (newIter (some n) base).Holds ps := by
        refine ⟨by simp [newIter, hf], ?_⟩
        simp [newIter, hf, paths, heads, behind, hps]
      exact hholds.advance_first rfl wantDescend

end

end Iter

def Path.IsFile (r : Path) : Prop := r.isDir = false ∧ r.skip = false

structure ListsFiles (among : Path → Prop) (rs : List Path) : Prop where
  mem_iff : ∀ r, r ∈ rs ↔ among r ∧ r.IsFile
  nodup : (rs.map Path.key).Nodup

section Files

variable {ctor : Path → Change} {p : Path} {ps : List Path}

lemma addLoop_spec {fuel : ℕ} {i : Iter} (l : Changes) (hord : Ordered ps)
    (hfuel : countPaths ps < fuel) (hvis : i.Visits ps) :
    ∃ rs, addLoop ctor fuel i l = .ok (l ++ rs.map ctor) ∧ ListsFiles (Pending ps) rs := by
  induction fuel generalizing i ps l with
  | zero => omega
  | succ fuel ih =>
    obtain ⟨i', hi', hholds⟩ := hvis
    cases ps with
    | nil => exact ⟨[], by simp [addLoop, hi', Iter.firstPath], by simp, by simp⟩
    | cons p ps =>
      obtain ⟨hs, hh⟩ := hholds (by simp)
      have hcount := @countPaths_expand p ps
      have hnext := fun l => ih l hord.expand (by omega) (hh.visits hs)
      simp only [addLoop, hi', Iter.firstPath]
      split_ifs with hpass
      · obtain ⟨rs, hrs, hmem, hnd⟩ := hnext l
        refine ⟨rs, hrs, ?_, hnd⟩
        intro r
        rw [hmem, pending_expand]
        constructor
        · exact fun ⟨h, hf⟩ => ⟨.inr h, hf⟩
        · rintro ⟨rfl | h, hf⟩
          · rcases hpass with h | h
            · exact absurd (hf.1.symm.trans h) (by simp)
            · exact absurd (hf.2.symm.trans h) (by simp)
          · exact ⟨h, hf⟩
      · obtain ⟨rs, hrs, hmem, hnd⟩ := hnext (l ++ [ctor p])
        refine ⟨p :: rs, by simp [hrs], ?_, ?_⟩
        · intro r
          rw [mem_cons, hmem, pending_expand]
          have hfile : p.IsFile := by simpa [Path.IsFile] using hpass
          constructor
          · rintro (rfl | ⟨h, hf⟩)
            · exact ⟨.inl rfl, hfile⟩
            · exact ⟨.inr h, hf⟩
          · rintro ⟨rfl | h, hf⟩
            · exact .inl rfl
            · exact .inr ⟨h, hf⟩
        · rw [map_cons, nodup_cons]
          refine ⟨?_, hnd⟩
          intro hk
          obtain ⟨r, hr, hkey⟩ := mem_map.mp hk
          have hr' := ((hmem r).mp hr).1
          have := hord.eq_of_keys (pending_of_expand hr') (pending_expand.mpr (.inl rfl)) hkey
          exact lt_irrefl _ (hord.lt_of_expand (this ▸ hr'))

lemma childPaths_file (h : p.isDir = false) : childPaths p = [] := by
  have : p.last.children = [] := by
    cases hl : p.last with
    | file => rfl
    | dir => simp [Path.isDir, hl, Node.isDir] at h
  rw [childPaths, map_eq_nil_iff, ← length_eq_zero_iff, (frame_perm p.last).length_eq, this]
  rfl

lemma below_file (h : p.isDir = false) {r : Path} : Below p r ↔ r = p := by
  rw [below_iff_childPaths, childPaths_file h]
  simp

lemma addRecursive_spec (l : Changes) (hord : Ordered [p]) (hname : p.string ≠ []) :
    ∃ rs, addRecursive ctor l p = .ok (l ++ rs.map ctor) ∧ ListsFiles (Below p) rs := by
  unfold addRecursive
  rw [if_neg hname]
  split_ifs with hdir hskip
  · refine ⟨[p], rfl, ?_, by simp⟩
    intro r
    rw [below_file hdir, mem_singleton]
    exact ⟨fun h => ⟨h, h ▸ ⟨hdir, hskip⟩⟩, fun h => h.1⟩
  · refine ⟨[], by simp, ?_, by simp⟩
    intro r
    rw [below_file hdir]
    simp only [not_mem_nil, false_iff, not_and]
    rintro rfl hf
    exact hskip hf.2
  · have hexp : Ordered (childPaths p) := by simpa using hord.expand
    have hcount := @countPaths_expand p []
    rw [append_nil, countPaths_cons] at hcount
    have hnil : countPaths [] = 0 := rfl
    obtain ⟨rs, hrs, hmem, hnd⟩ := @addLoop_spec ctor (childPaths p) p.last.count
      (Iter.newIter (some p.last) p.nodes) l hexp (by omega)
      (Iter.newIter_advance (some p.last) p.nodes true (by simp [childPaths, Path.child]))
    refine ⟨rs, hrs, ?_, hnd⟩
    intro r
    rw [hmem, below_iff_childPaths]
    constructor
    · exact fun ⟨h, hf⟩ => ⟨.inr h, hf⟩
    · rintro ⟨rfl | h, hf⟩
      · exact absurd hf.1 hdir
      · exact ⟨h, hf⟩

end Files

end GoGit.Merkletrie
