import GoGit.Object

/-! Searching the lines of a file for patterns. A pattern is the lines it matches, and may be nil. -/
namespace GoGit.Grep

open List

abbrev Pattern := Option (Bytes → Bool)

def Pattern.matchString (pattern : Pattern) (cnt : Bytes) : Bool := pattern.any (· cnt)

structure GrepResult where
  fileName : Bytes
  lineNumber : ℕ
  content : Bytes
  treeName : Bytes
  deriving DecidableEq

/-- The loop over the patterns. -/
def addToResult (invertMatch : Bool) (cnt : Bytes) : List Pattern → Bool
  | [] => false
  | pattern :: patterns =>
    if pattern.matchString cnt then
      if !invertMatch then true else addToResult invertMatch cnt patterns
    else if invertMatch then true
    else addToResult invertMatch cnt patterns

section File

variable (fileName treeName content : Bytes) (patterns : List Pattern)

def findMatchInFile (invertMatch : Bool) : List GrepResult :=
  (content.splitOn 0x0a).zipIdx.filterMap fun (cnt, lineNum) =>
    if addToResult invertMatch cnt patterns then some ⟨fileName, lineNum + 1, cnt, treeName⟩ else none

/-- The lines of a file as results. -/
def lines : List GrepResult :=
  (content.splitOn 0x0a).zipIdx.map fun (cnt, lineNum) => ⟨fileName, lineNum + 1, cnt, treeName⟩

/-- The lines of the results are apart from each other, and together all lines, each once and in order. -/
def Complements (inverted plain all : List GrepResult) : Prop :=
  inverted <+ all ∧ plain <+ all ∧ all.Nodup ∧ inverted.Disjoint plain ∧ ∀ r ∈ all, r ∈ inverted ∨ r ∈ plain

lemma addToResult_eq (invertMatch : Bool) (cnt : Bytes) :
    addToResult invertMatch cnt patterns = patterns.any fun p => p.matchString cnt != invertMatch := by
  induction patterns with
  | nil => rfl
  | cons p patterns ih =>
    rw [addToResult, ih, any_cons]
    cases p.matchString cnt <;> cases invertMatch <;> simp

lemma findMatchInFile_eq (invertMatch : Bool) : findMatchInFile fileName treeName content patterns invertMatch =
    (lines fileName treeName content).filter fun r => patterns.any fun p => p.matchString r.content != invertMatch := by
  simp only [findMatchInFile, lines, addToResult_eq, filter_map, ← filterMap_eq_filter, map_filterMap]
  congr 1
  funext ⟨cnt, n⟩
  simp only [Option.guard, Function.comp]
  split_ifs <;> simp

lemma lines_nodup : (lines fileName treeName content).Nodup := by
  refine Nodup.of_map GrepResult.lineNumber ?_
  have hnumbers : (lines fileName treeName content).map GrepResult.lineNumber =
      (range' 0 (content.splitOn 0x0a).length).map (· + 1) := by
    rw [← zipIdx_map_snd, lines, map_map, map_map]
    rfl
  rw [hnumbers]
  exact (nodup_range' _).map (add_left_injective 1)

lemma map_content_lines : (lines fileName treeName content).map GrepResult.content = content.splitOn 0x0a := by
  rw [lines, map_map]
  exact zipIdx_map_fst 0 _

/-- A line that one pattern matches and another one does not is returned both ways. -/
theorem findMatchInFile_complements_iff (h : patterns ≠ []) :
    Complements (findMatchInFile fileName treeName content patterns true)
        (findMatchInFile fileName treeName content patterns false) (lines fileName treeName content) ↔
      ∀ cnt ∈ content.splitOn 0x0a, (∀ p ∈ patterns, p.matchString cnt) ∨ ∀ p ∈ patterns, ¬ p.matchString cnt := by
  rw [findMatchInFile_eq, findMatchInFile_eq, ← map_content_lines fileName treeName content, forall_mem_map]
  constructor
  · rintro ⟨-, -, -, hdisjoint, -⟩ r hr
    by_contra hmixed
    push Not at hmixed
    obtain ⟨⟨p, hp, hnot⟩, q, hq, hmatch⟩ := hmixed
    refine hdisjoint (mem_filter.mpr ⟨hr, any_eq_true.mpr ⟨p, hp, ?_⟩⟩) (mem_filter.mpr ⟨hr, any_eq_true.mpr ⟨q, hq, ?_⟩⟩)
    · simpa using hnot
    · simpa using hmatch
  · intro hall
    obtain ⟨p, hp⟩ := exists_mem_of_ne_nil patterns h
    refine ⟨filter_sublist, filter_sublist, lines_nodup .., fun r hinverted hplain => ?_, fun r hr => ?_⟩
    · simp only [mem_filter, any_eq_true, bne_iff_ne, ne_eq, Bool.not_eq_true, Bool.not_eq_false] at hinverted hplain
      obtain ⟨hr, q, hq, hnot⟩ := hinverted
      obtain ⟨-, q', hq', hmatch⟩ := hplain
      rcases hall r hr with hmatches | hnone
      · exact Bool.false_ne_true (hnot.symm.trans (hmatches q hq))
      · exact hnone q' hq' hmatch
    · simp only [mem_filter, hr, true_and, any_eq_true, bne_iff_ne, ne_eq]
      rcases hall r hr with hmatches | hnone
      · exact .inr ⟨p, hp, by simp [hmatches p hp]⟩
      · exact .inl ⟨p, hp, hnone p hp⟩

end File

theorem findMatchInFile_complements_two : Complements
    (findMatchInFile [1] [2] [0x61, 0x0a, 0x62] [some (· == [0x61]), some (0x61 ∈ ·)] true)
    (findMatchInFile [1] [2] [0x61, 0x0a, 0x62] [some (· == [0x61]), some (0x61 ∈ ·)] false)
    (lines [1] [2] [0x61, 0x0a, 0x62]) :=
  (findMatchInFile_complements_iff _ _ _ _ (by simp)).mpr (by decide)

/-- The line `a` with patterns for `a` and for `b`. -/
theorem findMatchInFile_not_complements : ¬ Complements
    (findMatchInFile [1] [2] [0x61] [some (· == [0x61]), some (· == [0x62])] true)
    (findMatchInFile [1] [2] [0x61] [some (· == [0x61]), some (· == [0x62])] false) (lines [1] [2] [0x61]) := by
  rintro ⟨-, -, -, hdisjoint, -⟩
  exact @hdisjoint ⟨[1], 1, [0x61], [2]⟩ (by decide) (by decide)

end GoGit.Grep
