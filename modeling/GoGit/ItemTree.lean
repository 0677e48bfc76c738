import GoGit.FileTree
import GoGit.PathTree

namespace PathTree

open List

variable {ν α : Type} [DecidableEq ν]

/-- The entries of a directory, from its items and the directories below. -/
def entriesOf (sub : List ν → FileTree ν α) : List (Item ν α) → FileTree ν α
  | [] => .empty
  | it :: its =>
    match it.value with
    | some v => .file it.name v (entriesOf sub its)
    | none => .dir it.name (sub it.path) (entriesOf sub its)

def toFileTree (items : List (Item ν α)) : ℕ → List ν → FileTree ν α
  | 0, _ => .empty
  | n + 1, q => entriesOf (toFileTree items n) (children items q)

variable {items its : List (Item ν α)} {sub : List ν → FileTree ν α} {q p : List ν} {v : α} {n : ℕ}

omit [DecidableEq ν] in
lemma names_entriesOf : (entriesOf sub its).names = its.map Item.name := by
  induction its with
  | nil => rfl
  | cons it its ih => cases hv : it.value <;> simp [entriesOf, hv, FileTree.names, ih]

omit [DecidableEq ν] in
lemma wf_entriesOf (hnames : (its.map Item.name).Nodup) (hsub : ∀ it ∈ its, (sub it.path).Wf) :
    (entriesOf sub its).Wf := by
  induction its with
  | nil => trivial
  | cons it its ih =>
    obtain ⟨hname, hrest⟩ := nodup_cons.mp hnames
    have hwf := ih hrest fun x hx => hsub x (mem_cons_of_mem _ hx)
    have hnot : it.name ∉ (entriesOf sub its).names := by rwa [names_entriesOf]
    cases hv : it.value with
    | some v =>
      simp only [entriesOf, hv]
      exact ⟨hnot, hwf⟩
    | none =>
      simp only [entriesOf, hv]
      exact ⟨hnot, hsub it mem_cons_self, hwf⟩

omit [DecidableEq ν] in
lemma mem_files_entriesOf : (p, v) ∈ (entriesOf sub its).files ↔ ∃ it ∈ its, it.value = some v ∧ p = [it.name] ∨
      it.value = none ∧ ∃ r, p = it.name :: r ∧ (r, v) ∈ (sub it.path).files := by
  induction its with
  | nil => simp [entriesOf, FileTree.files]
  | cons it its ih =>
    rw [exists_mem_cons_iff, ← ih]
    cases hv : it.value with
    | some w =>
      simp only [entriesOf, hv, FileTree.files, mem_cons, Prod.mk.injEq, Option.some.injEq, reduceCtorEq,
        false_and, or_false]
      refine or_congr_left ?_
      rw [and_comm, eq_comm]
    | none =>
      simp only [entriesOf, hv, FileTree.files, mem_append, mem_map, reduceCtorEq, false_and, false_or, true_and]
      refine or_congr_left ?_
      constructor
      · rintro ⟨⟨r, w⟩, hmem, heq⟩
        cases heq
        exact ⟨r, rfl, hmem⟩
      · rintro ⟨r, rfl, hmem⟩
        exact ⟨(r, v), hmem, rfl⟩

lemma wf_toFileTree (h : (items.map Item.path).Nodup) : (toFileTree items n q).Wf := by
  induction n generalizing q with
  | zero => trivial
  | succ n ih => exact wf_entriesOf (nodup_paths_iff_names.mp h q) fun _ _ => ih

lemma mem_files_toFileTree (hc : Closed items) (hn : Shallow items q n) :
    (p, v) ∈ (toFileTree items (n + 1) q).files ↔
      ∃ it ∈ items, q <+: it.parent ∧ it.path = q ++ p ∧ it.value = some v := by
  induction n generalizing q p with
  | zero =>
    have hnone : ∀ it ∈ items, ¬ q <+: it.parent := by
      intro it hit hpre
      have := hn it hit hpre
      have := hpre.length_le
      omega
    rw [toFileTree, mem_files_entriesOf]
    constructor
    · rintro ⟨it, hit, -⟩
      obtain ⟨hmem, rfl⟩ := mem_children.mp hit
      exact absurd prefix_rfl (hnone it hmem)
    · rintro ⟨it, hit, hpre, -⟩
      exact absurd hpre (hnone it hit)
  | succ n ih =>
    rw [toFileTree, mem_files_entriesOf]
    constructor
    · rintro ⟨it, hit, ⟨hv, rfl⟩ | ⟨-, r, rfl, hr⟩⟩
      · obtain ⟨hmem, rfl⟩ := mem_children.mp hit
        exact ⟨it, hmem, prefix_rfl, rfl, hv⟩
      · obtain ⟨-, rfl⟩ := mem_children.mp hit
        obtain ⟨x, hx, hpre, hpath, hv⟩ := (ih (hn.below it.name)).mp hr
        exact ⟨x, hx, (prefix_append _ _).trans hpre, by simpa [Item.path] using hpath, hv⟩
    · rintro ⟨it, hit, hpre, hpath, hv⟩
      by_cases hq : it.parent = q
      · have hp : p = [it.name] := by
          rw [Item.path, hq] at hpath
          exact (append_cancel_left hpath).symm
        exact ⟨it, mem_children.mpr ⟨hit, hq⟩, .inl ⟨hv, hp⟩⟩
      · obtain ⟨d, hd, hdv, hdpre⟩ := hc.dir hit hpre hq
        obtain ⟨-, rfl⟩ := mem_children.mp hd
        obtain ⟨rel, hrel⟩ := hdpre
        have hp : p = d.name :: (rel ++ [it.name]) := by
          rw [Item.path, ← hrel, Item.path] at hpath
          simpa using hpath.symm
        have hrest : it.path = d.path ++ (rel ++ [it.name]) := by rw [Item.path, ← hrel, append_assoc]
        exact ⟨d, hd, .inr ⟨hdv, _, hp, (ih (hn.below d.name)).mpr ⟨it, hit, ⟨rel, hrel⟩, hrest, hv⟩⟩⟩

lemma fileAt_toFileTree (hc : Closed items) (hn : Shallow items [] n) (h : (items.map Item.path).Nodup) :
    (toFileTree items (n + 1) []).fileAt p = some v ↔ (p, v) ∈ files items := by
  rw [← FileTree.mem_files_iff (wf_toFileTree h), mem_files_toFileTree hc hn, mem_files]
  simp

end PathTree
