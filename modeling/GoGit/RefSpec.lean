import GoGit.Object
import GoGit.Wildcard

/-! A refspec maps the names of one side to names of the other. A `+` at the start is not a part of the source side;
after the two sides are exchanged, it is in front of what is now the destination. -/
namespace GoGit

open List

inductive RefSpecError
  | malformedSeparator
  | malformedWildcard
  deriving DecidableEq

abbrev RefSpec := Bytes

namespace RefSpec

def refSpecWildcard : UInt8 := 0x2a

def refSpecForce : UInt8 := 0x2b

def refSpecSeparator : UInt8 := 0x3a

variable (s : RefSpec) (n : ReferenceName)

def Validate : Except RefSpecError Unit :=
  if s.count refSpecSeparator ≠ 1 then .error .malformedSeparator
  else
    let sep := s.idxOf refSpecSeparator
    if sep = s.length - 1 then .error .malformedSeparator
    else
      let ws := (s.take sep).count refSpecWildcard
      let wd := (s.drop (sep + 1)).count refSpecWildcard
      if ws = wd ∧ ws < 2 ∧ wd < 2 then .ok () else .error .malformedWildcard

def IsForceUpdate : Bool := s.head? = some refSpecForce

def IsDelete : Bool := s.head? = some refSpecSeparator

def Src : Bytes :=
  (s.take (s.idxOf refSpecSeparator)).drop (if s.IsForceUpdate then 1 else 0)

def IsWildcard : Bool := refSpecWildcard ∈ s

def matchExact : Bool := s.Src = n

def matchGlob : Bool :=
  let src := s.Src
  let wildcard := src.idxOf refSpecWildcard
  let before := src.take wildcard
  let after := src.drop (wildcard + 1)
  before.length + after.length ≤ n.length ∧ before <+: n ∧ after <:+ n

def Match : Bool :=
  if !s.IsWildcard then s.matchExact n else s.matchGlob n

def Dst : ReferenceName :=
  let dst := s.drop (s.idxOf refSpecSeparator + 1)
  let src := s.Src
  if !s.IsWildcard then dst
  else
    let ws := src.idxOf refSpecWildcard
    let wd := dst.idxOf refSpecWildcard
    let matched := (n.take (n.length - (src.length - (ws + 1)))).drop ws
    dst.take wd ++ matched ++ dst.drop (wd + 1)

def Reverse : RefSpec :=
  let separator := s.idxOf refSpecSeparator
  s.drop (separator + 1) ++ [refSpecSeparator] ++ s.take separator

section Sides

variable {x y m : Bytes} {n : ReferenceName}

def unforced (x : Bytes) : Bytes := if x.head? = some refSpecForce then x.tail else x

lemma wildcard_mem_unforced : refSpecWildcard ∈ unforced x ↔ refSpecWildcard ∈ x := by
  cases x with
  | nil => rfl
  | cons a x =>
    rw [unforced]
    split_ifs with h
    · obtain rfl : a = refSpecForce := by simpa using h
      simp [refSpecForce, refSpecWildcard]
    · rfl

structure Sides (s : RefSpec) (x y : Bytes) : Prop where
  eq : s = x ++ refSpecSeparator :: y
  not_mem : refSpecSeparator ∉ x
  wildcard : refSpecWildcard ∈ x ↔ refSpecWildcard ∈ y

variable {s : RefSpec}

section

variable (h : Sides s x y)

include h

lemma Sides.idxOf : s.idxOf refSpecSeparator = x.length := by
  rw [h.eq, idxOf_append_of_notMem h.not_mem, idxOf_cons_self, Nat.add_zero]

lemma Sides.take : s.take (s.idxOf refSpecSeparator) = x := by
  rw [h.idxOf, h.eq, take_left]

lemma Sides.drop : s.drop (s.idxOf refSpecSeparator + 1) = y := by
  rw [h.idxOf, h.eq, ← drop_drop, drop_left, drop_one, tail_cons]

lemma Sides.isForceUpdate : s.IsForceUpdate = true ↔ x.head? = some refSpecForce := by
  rw [IsForceUpdate, decide_eq_true_eq, h.eq]
  cases x with
  | nil => simp [refSpecSeparator, refSpecForce]
  | cons a x => rfl

lemma Sides.src : s.Src = unforced x := by
  rw [Src, h.take, unforced]
  by_cases hforce : x.head? = some refSpecForce
  · rw [if_pos (h.isForceUpdate.mpr hforce), if_pos hforce, drop_one]
  · rw [if_neg fun hs => hforce (h.isForceUpdate.mp hs), if_neg hforce, drop_zero]

lemma Sides.isWildcard : s.IsWildcard = true ↔ refSpecWildcard ∈ unforced x := by
  rw [IsWildcard, decide_eq_true_eq, h.eq, mem_append, mem_cons, wildcard_mem_unforced, ← h.wildcard]
  have hne : refSpecWildcard ≠ refSpecSeparator := by decide
  tauto

lemma Sides.match_iff : s.Match n = true ↔ ∃ m, n = Wildcard.fill refSpecWildcard (unforced x) m := by
  rw [Match]
  by_cases hw : refSpecWildcard ∈ unforced x
  · simp only [h.isWildcard.mpr hw, Bool.not_true, Bool.false_eq_true, if_false, matchGlob, h.src,
      decide_eq_true_eq, Wildcard.fill_of_mem hw]
    exact Wildcard.exists_middle_iff
  · have hnot : s.IsWildcard = false := Bool.eq_false_iff.mpr fun hs => hw (h.isWildcard.mp hs)
    simp only [hnot, Bool.not_false, if_true, matchExact, h.src, Wildcard.fill_of_not_mem hw, decide_eq_true_eq]
    exact ⟨fun heq => ⟨[], heq.symm⟩, fun ⟨_, heq⟩ => heq.symm⟩

lemma Sides.dst_fill (m : Bytes) :
    s.Dst (Wildcard.fill refSpecWildcard (unforced x) m) = Wildcard.fill refSpecWildcard y m := by
  rw [Dst, h.drop, h.src]
  by_cases hw : refSpecWildcard ∈ unforced x
  · have hy : refSpecWildcard ∈ y := h.wildcard.mp (wildcard_mem_unforced.mp hw)
    simp only [h.isWildcard.mpr hw, Bool.not_true, Bool.false_eq_true, if_false, Wildcard.middle_fill hw,
      Wildcard.fill_of_mem hy]
  · have hnot : s.IsWildcard = false := Bool.eq_false_iff.mpr fun hs => hw (h.isWildcard.mp hs)
    have hy : refSpecWildcard ∉ y := fun hy => hw (wildcard_mem_unforced.mpr (h.wildcard.mpr hy))
    simp only [hnot, Bool.not_false, if_true, Wildcard.fill_of_not_mem hy]

end

lemma sides_of_validate (h : s.Validate = .ok ()) : ∃ x y, Sides s x y ∧ refSpecSeparator ∉ y := by
  dsimp only [Validate] at h
  split_ifs at h with hcount hend hwild
  have hmem : refSpecSeparator ∈ s := count_pos_iff.mp (by omega)
  obtain ⟨x, y, rfl, hx⟩ := eq_append_cons_of_mem hmem
  have hidx : (x ++ refSpecSeparator :: y).idxOf refSpecSeparator = x.length := by
    rw [idxOf_append_of_notMem hx, idxOf_cons_self, Nat.add_zero]
  have hy : refSpecSeparator ∉ y := by
    rw [count_append, count_cons_self, count_eq_zero_of_not_mem hx] at hcount
    exact count_eq_zero.mp (by omega)
  have hdrop : (x ++ refSpecSeparator :: y).drop (x.length + 1) = y := by
    rw [← drop_drop, drop_left, drop_one, tail_cons]
  rw [hidx, take_left, hdrop] at hwild
  refine ⟨x, y, ⟨rfl, hx, ?_⟩, hy⟩
  rw [← count_pos_iff, ← count_pos_iff, hwild.1]

lemma Sides.reverse (h : Sides s x y) (hy : refSpecSeparator ∉ y) : Sides s.Reverse y x := by
  refine ⟨?_, hy, h.wildcard.symm⟩
  rw [Reverse]
  simp only [h.take, h.drop, append_assoc, singleton_append]

end Sides

end RefSpec

end GoGit
