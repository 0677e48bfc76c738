import GoGit.TriePending

namespace GoGit.Merkletrie

open PathOrder List

def Hides (A : Path → Prop) (x : List Bytes) : Prop := ∃ r, A r ∧ r.key <+: x ∧ r.skip = true

inductive Expected (A B : Path → Prop) : Change → Prop
  | delete {r : Path} (mem : A r) (file : r.IsFile) (here : ¬ Hides A r.key) (there : ¬ Hides B r.key)
      (gone : ∀ s, B s → s.key = r.key → s.isDir = true) : Expected A B (.newDelete r)
  | insert {s : Path} (mem : B s) (file : s.IsFile) (here : ¬ Hides A s.key) (there : ¬ Hides B s.key)
      (fresh : ∀ r, A r → r.key = s.key → r.isDir = true) : Expected A B (.newInsert s)
  | modify {r s : Path} (mem : A r) (mem' : B s) (file : r.IsFile) (file' : s.IsFile)
      (key : r.key = s.key) (here : ¬ Hides A r.key) (there : ¬ Hides B r.key)
      (hash : r.last.hash ≠ s.last.hash) : Expected A B (.newModify r s)

structure ListsChanges (expected : Change → Prop) (cs : Changes) : Prop where
  mem_iff : ∀ c, c ∈ cs ↔ expected c
  nodup : (cs.map Change.key).Nodup

section Expected

variable {A B P Q : Path → Prop} {c : Change}

lemma Expected.about (h : Expected A B c) : ∃ r, (A r ∨ B r) ∧ c.key = r.key := by
  cases h with
  | @delete r mem => exact ⟨r, .inl mem, rfl⟩
  | @insert s mem => exact ⟨s, .inr mem, rfl⟩
  | @modify r s mem mem' => exact ⟨s, .inr mem', rfl⟩

lemma expected_part {A' B' : Path → Prop} (hA : ∀ r, A r → A' r) (hB : ∀ r, B r → B' r)
    (hA' : ∀ r s, A r ∨ B r → A' s → s.key <+: r.key → A s) (hB' : ∀ r s, A r ∨ B r → B' s → s.key <+: r.key → B s) :
    Expected A B c ↔ Expected A' B' c ∧ ∃ r, (A r ∨ B r) ∧ c.key = r.key := by
  have hideA : ∀ r, A r ∨ B r → (Hides A' r.key ↔ Hides A r.key) := by
    intro r hr
    constructor
    · exact fun ⟨s, hs, hpre, hskip⟩ => ⟨s, hA' r s hr hs hpre, hpre, hskip⟩
    · exact fun ⟨s, hs, hpre, hskip⟩ => ⟨s, hA s hs, hpre, hskip⟩
  have hideB : ∀ r, A r ∨ B r → (Hides B' r.key ↔ Hides B r.key) := by
    intro r hr
    constructor
    · exact fun ⟨s, hs, hpre, hskip⟩ => ⟨s, hB' r s hr hs hpre, hpre, hskip⟩
    · exact fun ⟨s, hs, hpre, hskip⟩ => ⟨s, hB s hs, hpre, hskip⟩
  constructor
  · intro hc
    refine ⟨?_, hc.about⟩
    cases hc with
    | @delete r mem file here there gone =>
      rw [← hideA r (.inl mem)] at here
      rw [← hideB r (.inl mem)] at there
      refine .delete (hA r mem) file here there fun s hs hk => ?_
      exact gone s (hB' r s (.inl mem) hs (hk ▸ prefix_rfl)) hk
    | @insert s mem file here there fresh =>
      rw [← hideA s (.inr mem)] at here
      rw [← hideB s (.inr mem)] at there
      refine .insert (hB s mem) file here there fun r hr hk => ?_
      exact fresh r (hA' s r (.inr mem) hr (hk ▸ prefix_rfl)) hk
    | @modify r s mem mem' file file' key here there hash =>
      rw [← hideA r (.inl mem)] at here
      rw [← hideB r (.inl mem)] at there
      exact .modify (hA r mem) (hB s mem') file file' key here there hash
  · rintro ⟨hc, t, ht, hkey⟩
    cases hc with
    | @delete r mem file here there gone =>
      have hr : A r := hA' t r ht mem (hkey ▸ prefix_rfl)
      rw [hideA r (.inl hr)] at here
      rw [hideB r (.inl hr)] at there
      exact .delete hr file here there fun s hs => gone s (hB s hs)
    | @insert s mem file here there fresh =>
      have hs : B s := hB' t s ht mem (hkey ▸ prefix_rfl)
      rw [hideA s (.inr hs)] at here
      rw [hideB s (.inr hs)] at there
      exact .insert hs file here there fun r hr => fresh r (hA r hr)
    | @modify r s mem mem' file file' key here there hash =>
      have hs : B s := hB' t s ht mem' (hkey ▸ prefix_rfl)
      have hr : A r := hA' t r ht mem (key ▸ hkey ▸ prefix_rfl)
      rw [hideA r (.inl hr)] at here
      rw [hideB r (.inl hr)] at there
      exact .modify hr hs file file' key here there hash

lemma expected_union (h : ∀ r s, P r ∨ Q r → A s ∨ B s → Apart r.key s.key) :
    Expected (fun r => P r ∨ A r) (fun r => Q r ∨ B r) c ↔ Expected P Q c ∨ Expected A B c := by
  rw [@expected_part P Q c (fun r => P r ∨ A r) (fun r => Q r ∨ B r) (fun _ => .inl) (fun _ => .inl)
      (fun r s hr hs hpre => hs.resolve_right fun hs => (h r s hr (.inl hs)).2 hpre)
      (fun r s hr hs hpre => hs.resolve_right fun hs => (h r s hr (.inr hs)).2 hpre),
    @expected_part A B c (fun r => P r ∨ A r) (fun r => Q r ∨ B r) (fun _ => .inr) (fun _ => .inr)
      (fun r s hr hs hpre => hs.resolve_left fun hs => (h s r (.inl hs) hr).1 hpre)
      (fun r s hr hs hpre => hs.resolve_left fun hs => (h s r (.inr hs) hr).1 hpre), ← and_or_left]
  constructor
  · intro hc
    obtain ⟨r, hr, hkey⟩ := hc.about
    refine ⟨hc, ?_⟩
    rcases hr with (hr | hr) | (hr | hr)
    · exact .inl ⟨r, .inl hr, hkey⟩
    · exact .inr ⟨r, .inl hr, hkey⟩
    · exact .inl ⟨r, .inr hr, hkey⟩
    · exact .inr ⟨r, .inr hr, hkey⟩
  · exact And.left

lemma expected_dirs (hP : ∀ r, P r → r.isDir = true ∧ r.skip = false)
    (hQ : ∀ r, Q r → r.isDir = true ∧ r.skip = false) :
    Expected (fun r => P r ∨ A r) (fun r => Q r ∨ B r) c ↔ Expected A B c := by
  have hides : ∀ {S D : Path → Prop}, (∀ r, D r → r.isDir = true ∧ r.skip = false) →
      ∀ x, (Hides (fun r => D r ∨ S r) x ↔ Hides S x) := by
    intro S D hD x
    constructor
    · rintro ⟨s, hs | hs, hpre, hskip⟩
      · exact absurd ((hD s hs).2.symm.trans hskip) (by simp)
      · exact ⟨s, hs, hpre, hskip⟩
    · exact fun ⟨s, hs, hpre, hskip⟩ => ⟨s, .inr hs, hpre, hskip⟩
  have file : ∀ {D : Path → Prop}, (∀ r, D r → r.isDir = true ∧ r.skip = false) →
      ∀ r, r.IsFile → ¬ D r := by
    intro D hD r hf hr
    exact absurd (hf.1.symm.trans (hD r hr).1) (by simp)
  constructor
  · intro hc
    cases hc with
    | @delete r mem hf here there gone =>
      rw [hides hP] at here
      rw [hides hQ] at there
      exact .delete (mem.resolve_left (file hP r hf)) hf here there fun s hs => gone s (.inr hs)
    | @insert s mem hf here there fresh =>
      rw [hides hP] at here
      rw [hides hQ] at there
      exact .insert (mem.resolve_left (file hQ s hf)) hf here there fun r hr => fresh r (.inr hr)
    | @modify r s mem mem' hf hf' key here there hash =>
      rw [hides hP] at here
      rw [hides hQ] at there
      exact .modify (mem.resolve_left (file hP r hf)) (mem'.resolve_left (file hQ s hf')) hf hf' key here there hash
  · intro hc
    cases hc with
    | @delete r mem hf here there gone =>
      rw [← hides hP] at here
      rw [← hides hQ] at there
      exact .delete (.inr mem) hf here there fun s hs hk => hs.elim (fun h => (hQ s h).1) fun h => gone s h hk
    | @insert s mem hf here there fresh =>
      rw [← hides hP] at here
      rw [← hides hQ] at there
      exact .insert (.inr mem) hf here there fun r hr hk => hr.elim (fun h => (hP r h).1) fun h => fresh r h hk
    | @modify r s mem mem' hf hf' key here there hash =>
      rw [← hides hP] at here
      rw [← hides hQ] at there
      exact .modify (.inr mem) (.inr mem') hf hf' key here there hash

end Expected

def Path.dirKey (p : Path) : List Bytes := p.ancestors.map Node.name

/-- Between a path that both sets have, skipped in one of them, and any earlier path there is
a path that both have: the paths just before it are the same. -/
def InStep (A B : Path → Prop) : Prop :=
  ∀ a b, A a → B b → a.key = b.key → a.skip = true ∨ b.skip = true → ∀ m, A m ∨ B m → m.key < a.key →
    ∃ a' b', A a' ∧ B b' ∧ a'.key = b'.key ∧ m.key ≤ a'.key ∧ a'.key < a.key

/-- A skipped noder that the other set lacks, and a noder with its name that is not skipped, in
a directory above or below. -/
def Namesake (A B : Path → Prop) : Prop :=
  ∃ a b, A a ∧ a.skip = true ∧ (∀ s, B s → s.key ≠ a.key) ∧ B b ∧ b.skip = false ∧ a.name = b.name ∧
    (a.dirKey <+: b.dirKey ∨ b.dirKey <+: a.dirKey)

structure Keeps (A B A' B' : Path → Prop) : Prop where
  left : ∀ r, A' r → A r
  right : ∀ r, B' r → B r
  both : ∀ a b, A a → B b → a.key = b.key → ∀ m, A' m ∨ B' m → m.key ≤ a.key → A' a ∧ B' b

section Keeps

variable {A B A' B' : Path → Prop}

lemma Keeps.symm (h : Keeps A B A' B') : Keeps B A B' A' :=
  ⟨h.right, h.left, fun a b ha hb hk m hm hle =>
    (h.both b a hb ha hk.symm m hm.symm (hk ▸ hle)).symm⟩

lemma InStep.symm (h : InStep A B) : InStep B A := by
  intro a b ha hb hk hskip m hm hlt
  obtain ⟨a', b', ha', hb', hk', hle, hlt'⟩ := h b a hb ha hk.symm hskip.symm m hm.symm (hk ▸ hlt)
  exact ⟨b', a', hb', ha', hk'.symm, hk' ▸ hle, by rw [← hk', hk]; exact hlt'⟩

lemma InStep.keeps (h : InStep A B) (hk : Keeps A B A' B') : InStep A' B' := by
  intro a b ha hb hkey hskip m hm hlt
  obtain ⟨a', b', ha', hb', hkey', hle, hlt'⟩ := h a b (hk.left a ha) (hk.right b hb) hkey hskip m
    (hm.imp (hk.left m) (hk.right m)) hlt
  obtain ⟨ha'', hb''⟩ := hk.both a' b' ha' hb' hkey' m hm hle
  exact ⟨a', b', ha'', hb'', hkey', hle, hlt'⟩

lemma Namesake.of_keeps (hk : Keeps A B A' B') (h : Namesake A' B') : Namesake A B := by
  obtain ⟨a, b, ha, hskip, habs, hb, hb'⟩ := h
  refine ⟨a, b, hk.left a ha, hskip, ?_, hk.right b hb, hb'⟩
  intro s hs hkey
  exact habs s (hk.both a s (hk.left a ha) hs hkey.symm a (.inl ha) le_rfl).2 hkey

end Keeps

structure Aligned (F T : List Path) : Prop where
  ordered : Ordered F
  ordered' : Ordered T
  cross : ∀ p ∈ F, ∀ q ∈ T, p.key = q.key ∨ Apart p.key q.key
  strings : ∀ p, p ∈ F ∨ p ∈ T → p.string ≠ []
  skips : ∀ r, Pending F r ∨ Pending T r → r.skip = true → ∀ c ∈ r.last.children, c.skip = true
  dirs : F.Pairwise fun p q => q.dirKey <+: p.dirKey
  dirs' : T.Pairwise fun p q => q.dirKey <+: p.dirKey
  place : ∃ x : List Bytes, ∀ p, p ∈ F ∨ p ∈ T → p.dirKey <+: x

section Aligned

variable {p q : Path} {F T : List Path}

lemma Aligned.symm (h : Aligned F T) : Aligned T F := by
  refine ⟨h.ordered', h.ordered, ?_, fun p hp => h.strings p hp.symm, fun r hr => h.skips r hr.symm,
    h.dirs', h.dirs, h.place.imp fun x hx p hp => hx p hp.symm⟩
  intro p hp q hq
  exact (h.cross q hq p hp).imp Eq.symm Apart.symm

lemma Aligned.tail (h : Aligned (p :: F) T) : Aligned F T := by
  refine ⟨h.ordered.tail, h.ordered', fun r hr => h.cross r (by simp [hr]), ?_, ?_,
    (pairwise_cons.mp h.dirs).2, h.dirs', ?_⟩
  · exact fun r hr => h.strings r (hr.imp_left (mem_cons_of_mem p))
  · exact fun r hr => h.skips r (hr.imp_left fun h => pending_cons.mpr (.inr h))
  · exact h.place.imp fun x hx r hr => hx r (hr.imp_left (mem_cons_of_mem p))

lemma Aligned.apart_of_absent (h : Aligned (p :: F) T) (hp : ∀ q ∈ T, q.key ≠ p.key) {r s : Path}
    (hr : Below p r) (hs : Pending T s) : Apart r.key s.key := by
  obtain ⟨q, hq, hqs⟩ := hs
  rcases h.cross p (by simp) q hq with heq | hap
  · exact absurd heq.symm (hp q hq)
  · exact hap.of_isPrefix hr.key_isPrefix hqs.key_isPrefix

lemma Aligned.keeps_tail (h : Aligned (p :: F) T) (hp : ∀ q ∈ T, q.key ≠ p.key) :
    Keeps (Pending (p :: F)) (Pending T) (Pending F) (Pending T) := by
  refine ⟨fun r hr => pending_cons.mpr (.inr hr), fun _ => id, ?_⟩
  intro a b ha hb hk m hm hle
  refine ⟨(pending_cons.mp ha).resolve_left fun ha => ?_, hb⟩
  exact (h.apart_of_absent hp ha hb).ne hk

lemma Aligned.tails (h : Aligned (p :: F) (q :: T)) : Aligned F T := h.tail.symm.tail.symm

lemma Aligned.keeps_tails (h : Aligned (p :: F) (q :: T)) (hk : p.key = q.key) :
    Keeps (Pending (p :: F)) (Pending (q :: T)) (Pending F) (Pending T) := by
  refine ⟨fun r hr => pending_cons.mpr (.inr hr), fun r hr => pending_cons.mpr (.inr hr), ?_⟩
  intro a b ha hb hkey m hm hle
  have hbefore : ¬ p.key <+: a.key := by
    intro hpre
    rcases hm with hm | hm
    · exact absurd (h.ordered.prefix_lt hpre hm).1 (not_lt.mpr hle)
    · exact absurd (h.ordered'.prefix_lt (hk ▸ hpre) hm).1 (not_lt.mpr hle)
  refine ⟨(pending_cons.mp ha).resolve_left fun ha => hbefore ha.key_isPrefix,
    (pending_cons.mp hb).resolve_left fun hb => hbefore ?_⟩
  rw [hk, hkey]
  exact hb.key_isPrefix

lemma Path.string_child (p : Path) (c : Node) : (p.child c).string ≠ [] := by
  have : ∀ xs : List Bytes, xs ≠ [] → ∀ y, [0x2f].intercalate (xs ++ [y]) ≠ [] := by
    intro xs hxs y
    match xs with
    | [] => exact absurd rfl hxs
    | [x] => simp [List.intercalate]
    | x :: x' :: xs => simp [List.intercalate]
  rw [Path.string, Path.key_child]
  exact this _ (by simp [Path.key, Path.nodes]) _

lemma Path.dirKey_isPrefix (p : Path) : p.dirKey <+: p.key := ⟨[p.name], p.key_eq.symm⟩

lemma dirKey_of_mem_childPaths {r : Path} (hr : r ∈ childPaths p) : r.dirKey = p.key := by
  obtain ⟨c, _, rfl⟩ := mem_map.mp hr
  rfl

lemma prefix_of_mem_childPaths {r : Path} (hr : r ∈ childPaths p) : p.key <+: r.key :=
  dirKey_of_mem_childPaths hr ▸ r.dirKey_isPrefix

lemma pairwise_dirs_expand (h : (p :: F).Pairwise fun p q => q.dirKey <+: p.dirKey) :
    (childPaths p ++ F).Pairwise fun p q => q.dirKey <+: p.dirKey := by
  rw [pairwise_cons] at h
  rw [pairwise_append]
  refine ⟨pairwise_of_forall_mem_list fun a ha b hb => ?_, h.2, fun a ha b hb => ?_⟩
  · rw [dirKey_of_mem_childPaths ha, dirKey_of_mem_childPaths hb]
  · rw [dirKey_of_mem_childPaths ha]
    exact (h.1 b hb).trans p.dirKey_isPrefix

lemma Aligned.enter (h : Aligned (p :: F) (q :: T)) (hk : p.key = q.key) :
    Aligned (childPaths p ++ F) (childPaths q ++ T) := by
  have hdir : p.dirKey = q.dirKey := by
    have := hk
    rw [p.key_eq, q.key_eq] at this
    exact (append_inj' this rfl).1
  refine ⟨h.ordered.expand, h.ordered'.expand, ?_, ?_, ?_, pairwise_dirs_expand h.dirs,
    pairwise_dirs_expand h.dirs', p.key, ?_⟩
  · intro a ha b hb
    rcases mem_append.mp ha with ha | ha <;> rcases mem_append.mp hb with hb | hb
    · obtain ⟨c, _, rfl⟩ := mem_map.mp ha
      obtain ⟨c', _, rfl⟩ := mem_map.mp hb
      rw [Path.key_child, Path.key_child, hk]
      by_cases hname : c.name = c'.name
      · exact .inl (by rw [hname])
      · exact .inr ⟨not_snoc_prefix_snoc hname, not_snoc_prefix_snoc (Ne.symm hname)⟩
    · refine .inr (h.ordered'.prefix_lt ?_ ⟨b, hb, .refl⟩).2
      rw [← hk]
      exact prefix_of_mem_childPaths ha
    · refine .inr (h.ordered.prefix_lt ?_ ⟨a, ha, .refl⟩).2.symm
      rw [hk]
      exact prefix_of_mem_childPaths hb
    · exact h.cross a (by simp [ha]) b (by simp [hb])
  · intro r hr
    rcases hr with hr | hr
    · rcases mem_append.mp hr with hr | hr
      · obtain ⟨c, _, rfl⟩ := mem_map.mp hr
        exact Path.string_child p c
      · exact h.strings r (by simp [hr])
    · rcases mem_append.mp hr with hr | hr
      · obtain ⟨c, _, rfl⟩ := mem_map.mp hr
        exact Path.string_child q c
      · exact h.strings r (by simp [hr])
  · exact fun r hr => h.skips r (hr.imp pending_of_expand pending_of_expand)
  · intro r hr
    rcases hr with hr | hr
    · rcases mem_append.mp hr with hr | hr
      · rw [dirKey_of_mem_childPaths hr]
      · exact ((pairwise_cons.mp h.dirs).1 r hr).trans p.dirKey_isPrefix
    · rcases mem_append.mp hr with hr | hr
      · rw [dirKey_of_mem_childPaths hr, hk]
      · exact ((pairwise_cons.mp h.dirs').1 r hr).trans (hdir ▸ p.dirKey_isPrefix)

lemma Aligned.keeps_enter (h : Aligned (p :: F) (q :: T)) (hk : p.key = q.key) :
    Keeps (Pending (p :: F)) (Pending (q :: T)) (Pending (childPaths p ++ F)) (Pending (childPaths q ++ T)) := by
  refine ⟨fun _ => pending_of_expand, fun _ => pending_of_expand, ?_⟩
  intro a b ha hb hkey m hm hle
  have hbefore : p.key < a.key := by
    rcases hm with hm | hm
    · exact lt_of_lt_of_le (h.ordered.lt_of_expand hm) hle
    · exact lt_of_lt_of_le (hk ▸ h.ordered'.lt_of_expand hm) hle
  refine ⟨(pending_expand.mp ha).resolve_left ?_, (pending_expand.mp hb).resolve_left ?_⟩
  · rintro rfl
    exact lt_irrefl _ hbefore
  · rintro rfl
    rw [hk, hkey] at hbefore
    exact lt_irrefl _ hbefore

end Aligned

/-- What a round can do to the paths still to be visited, with the changes it reports: pass the
first path of one list if the other does not have it, pass both if they have the same names, or
enter both. -/
inductive Round : List Path → List Path → Changes → List Path → List Path → Prop
  | passFrom {p : Path} {F T : List Path} {cs : Changes} (absent : ∀ q ∈ T, q.key ≠ p.key)
      (lists : ListsChanges (Expected (Below p) fun _ => False) cs) : Round (p :: F) T cs F T
  | passTo {q : Path} {F T : List Path} {cs : Changes} (absent : ∀ p ∈ F, p.key ≠ q.key)
      (lists : ListsChanges (Expected (fun _ => False) (Below q)) cs) : Round F (q :: T) cs F T
  | passBoth {p q : Path} {F T : List Path} {cs : Changes} (key : p.key = q.key)
      (lists : ListsChanges (Expected (Below p) (Below q)) cs) : Round (p :: F) (q :: T) cs F T
  | enter {p q : Path} {F T : List Path} (key : p.key = q.key) (dir : p.isDir = true)
      (dir' : q.isDir = true) (skip : p.skip = false) (skip' : q.skip = false) :
      Round (p :: F) (q :: T) [] (childPaths p ++ F) (childPaths q ++ T)

section Rounds

variable {p q : Path} {F T F' T' : List Path} {cs cs' : Changes}

lemma Round.aligned (h : Round F T cs F' T') (hal : Aligned F T) : Aligned F' T' := by
  cases h with
  | passFrom => exact hal.tail
  | passTo => exact hal.symm.tail.symm
  | passBoth => exact hal.tails
  | enter key => exact hal.enter key

lemma Round.keeps (h : Round F T cs F' T') (hal : Aligned F T) :
    Keeps (Pending F) (Pending T) (Pending F') (Pending T') := by
  cases h with
  | passFrom absent => exact hal.keeps_tail absent
  | passTo absent => exact (hal.symm.keeps_tail absent).symm
  | passBoth key => exact hal.keeps_tails key
  | enter key => exact hal.keeps_enter key

lemma Round.count (h : Round F T cs F' T') : countPaths F' + countPaths T' < countPaths F + countPaths T := by
  have hpos : ∀ n : Node, 0 < n.count := fun n => by rw [count_eq]; omega
  cases h with
  | @passFrom p =>
    have := hpos p.last
    rw [countPaths_cons]
    omega
  | @passTo q =>
    have := hpos q.last
    rw [countPaths_cons]
    omega
  | @passBoth p q =>
    have := hpos p.last
    rw [countPaths_cons, countPaths_cons]
    omega
  | @enter p q F T =>
    have h₁ := @countPaths_expand p F
    have h₂ := @countPaths_expand q T
    omega

lemma ListsChanges.append {E E' : Change → Prop} (h : ListsChanges E cs) (h' : ListsChanges E' cs')
    (hne : ∀ c c', E c → E' c' → c.key ≠ c'.key) : ListsChanges (fun c => E c ∨ E' c) (cs ++ cs') := by
  refine ⟨fun c => by rw [mem_append, h.mem_iff, h'.mem_iff], ?_⟩
  rw [map_append, nodup_append]
  refine ⟨h.nodup, h'.nodup, ?_⟩
  intro x hx y hy
  obtain ⟨c, hc, rfl⟩ := mem_map.mp hx
  obtain ⟨c', hc', rfl⟩ := mem_map.mp hy
  exact hne c c' ((h.mem_iff c).mp hc) ((h'.mem_iff c').mp hc')

lemma ListsChanges.union {A B P Q : Path → Prop}
    (hap : ∀ r s, P r ∨ Q r → A s ∨ B s → Apart r.key s.key) (h : ListsChanges (Expected P Q) cs)
    (h' : ListsChanges (Expected A B) cs') :
    ListsChanges (Expected (fun r => P r ∨ A r) (fun r => Q r ∨ B r)) (cs ++ cs') := by
  have happ := h.append h' (by
    intro c c' hc hc'
    obtain ⟨r, hr, hkey⟩ := hc.about
    obtain ⟨s, hs, hkey'⟩ := hc'.about
    rw [hkey, hkey']
    exact (hap r s hr hs).ne)
  exact ⟨fun c => (happ.mem_iff c).trans (expected_union hap).symm, happ.nodup⟩

lemma pending_cons_eq : Pending (p :: F) = fun r => Below p r ∨ Pending F r :=
  funext fun _ => propext pending_cons

lemma Round.lists (h : Round F T cs F' T') (hal : Aligned F T)
    (hrest : ListsChanges (Expected (Pending F') (Pending T')) cs') :
    ListsChanges (Expected (Pending F) (Pending T)) (cs ++ cs') := by
  cases h with
  | @passFrom p _ _ _ absent lists =>
    have := lists.union (A := Pending F') (B := Pending T) (by
      rintro r s (hr | hr) (hs | hs)
      · exact (hal.ordered.prefix_lt hr.key_isPrefix hs).2
      · exact hal.apart_of_absent absent hr hs
      · exact hr.elim
      · exact hr.elim) hrest
    rw [pending_cons_eq]
    simpa only [false_or] using this
  | @passTo q _ _ _ absent lists =>
    have := lists.union (A := Pending F) (B := Pending T') (by
      rintro r s (hr | hr) (hs | hs)
      · exact hr.elim
      · exact hr.elim
      · exact hal.symm.apart_of_absent absent hr hs
      · exact (hal.ordered'.prefix_lt hr.key_isPrefix hs).2) hrest
    rw [pending_cons_eq]
    simpa only [false_or] using this
  | @passBoth p q _ _ _ key lists =>
    have := lists.union (A := Pending F') (B := Pending T') (by
      have hpre : ∀ r, Below p r ∨ Below q r → p.key <+: r.key ∧ q.key <+: r.key := by
        rintro r (hr | hr)
        · exact ⟨hr.key_isPrefix, key ▸ hr.key_isPrefix⟩
        · exact ⟨key ▸ hr.key_isPrefix, hr.key_isPrefix⟩
      rintro r s hr (hs | hs)
      · exact (hal.ordered.prefix_lt (hpre r hr).1 hs).2
      · exact (hal.ordered'.prefix_lt (hpre r hr).2 hs).2) hrest
    rw [pending_cons_eq, pending_cons_eq]
    exact this
  | @enter p q F T key dir dir' skip skip' =>
    refine ⟨fun c => (hrest.mem_iff c).trans ?_, hrest.nodup⟩
    rw [← @expected_dirs _ _ (· = p) (· = q) c (fun r hr => hr ▸ ⟨dir, skip⟩) (fun r hr => hr ▸ ⟨dir', skip'⟩)]
    have hexp : ∀ {p : Path} {F : List Path},
        (fun r => r = p ∨ Pending (childPaths p ++ F) r) = Pending (p :: F) :=
      funext fun _ => propext pending_expand.symm
    rw [hexp, hexp]

end Rounds

end GoGit.Merkletrie
