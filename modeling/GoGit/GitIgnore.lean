import GoGit.Glob
import GoGit.Object
import GoGit.PathPattern

/-! A pattern with a slash is matched segment by segment against the components of a path below its domain. Behind
`**` the path is taken up to the first component that matches the next segment, and this choice is not taken back. -/
namespace GoGit.GitIgnore

open PathPattern List

inductive MatchResult
  | noMatch
  | exclude
  | includes
  deriving DecidableEq

def inclusionPrefix : Bytes := textBytes "!"

def zeroToManyDirs : Bytes := textBytes "**"

def patternDirSep : UInt8 := 0x2f

def space : UInt8 := 0x20

structure Pattern where
  domain : List Bytes
  pattern : List Bytes
  inclusion : Bool
  dirOnly : Bool
  isGlob : Bool

def ParsePattern (p : Bytes) (domain : List Bytes) : Pattern :=
  let inclusion := inclusionPrefix.isPrefixOf p
  let p := if inclusion then p.drop 1 else p
  let p := if textBytes "\\ " <:+ p then p else p.rdropWhile (· = space)
  let dirOnly : Bool := [patternDirSep] <:+ p
  let p := if dirOnly then p.dropLast else p
  { domain, pattern := p.splitOn patternDirSep, inclusion, dirOnly, isGlob := patternDirSep ∈ p }

namespace Pattern

def simpleNameMatch (p : Pattern) : List Bytes → Bool → Bool
  | [], _ => false
  | name :: path, isDir =>
    match Glob.Match (p.pattern.headD []) name with
    | .error _ => false
    | .ok false => simpleNameMatch p path isDir
    | .ok true => !(p.dirOnly && !isDir && path.isEmpty)

/-- The loop behind `**`: whether a component was found, and what follows it. -/
def traversePath (pattern : Bytes) : List Bytes → Option (Bool × List Bytes)
  | [] => some (false, [])
  | e :: path =>
    match Glob.Match pattern e with
    | .error _ => none
    | .ok true => some (true, path)
    | .ok false => traversePath pattern path

/-- The loop over the segments: `matched` and what is left of the path; `none` is a return of `false`. -/
def globLoop : List Bytes → Bool → Bool → List Bytes → Option (Bool × List Bytes)
  | [], matched, _, path => some (matched, path)
  | pattern :: rest, matched, canTraverse, path =>
    if pattern = [] then globLoop rest matched false path
    else if pattern = zeroToManyDirs then
      if rest = [] then some (matched, path) else globLoop rest matched true path
    else if zeroToManyDirs <:+: pattern then none
    else
      match path with
      | [] => none
      | e :: path =>
        if canTraverse then
          match traversePath pattern (e :: path) with
          | none => none
          | some (matched, path) => globLoop rest matched false path
        else
          match Glob.Match pattern e with
          | .ok true => globLoop rest (!(path.isEmpty && !rest.isEmpty)) false path
          | _ => none

def globMatch (p : Pattern) (path : List Bytes) (isDir : Bool) : Bool :=
  match globLoop p.pattern false false path with
  | none => false
  | some (matched, path) => matched && !(p.dirOnly && !isDir && path.isEmpty)

/-- Only the part of the path behind the domain is matched. -/
def Match (p : Pattern) (path : List Bytes) (isDir : Bool) : MatchResult :=
  if path.length ≤ p.domain.length then .noMatch
  else if ¬ p.domain <+: path then .noMatch
  else
    let path := path.drop p.domain.length
    if p.isGlob ∧ ¬ p.globMatch path isDir then .noMatch
    else if ¬ p.isGlob ∧ ¬ p.simpleNameMatch path isDir then .noMatch
    else if p.inclusion then .includes
    else .exclude

end Pattern

def globs (s c : Bytes) : Bool := Glob.Match s c = .ok true

/-- A segment in which `**` stands beside other characters is invalid. -/
def valid (s c : Bytes) : Bool := ¬ zeroToManyDirs <:+: s ∧ Glob.Match s c = .ok true

def segments (l : List Bytes) : List (Option Bytes) := l.map fun s => if s = zeroToManyDirs then none else some s

/-- The segments of a pattern; a slash at the beginning is not one. -/
def Pattern.segments (p : Pattern) : List (Option Bytes) :=
  GitIgnore.segments (if p.pattern.head? = some [] then p.pattern.tail else p.pattern)

/-- The path, or a directory above it, matches the pattern below its domain. -/
def Pattern.Meaning (ok : Bytes → Bytes → Bool) (p : Pattern) (path : List Bytes) (isDir : Bool) : Prop :=
  ∃ pre post, path = p.domain ++ (pre ++ post) ∧ pre ≠ [] ∧ Matches ok p.segments pre ∧
    (p.dirOnly = true → post = [] → isDir = true)

section Loop

variable {s : Bytes} {l path rest : List Bytes} {matched traverse : Bool}

/-- Whether the last name is found only with something behind it: if directories follow it and do not precede it. -/
def checked : List (Option Bytes) → Bool → Bool
  | [], _ => false
  | none :: segs, _ => checked segs true
  | some _ :: segs, traverse => if segs.all Option.isNone then !traverse && !segs.isEmpty else checked segs false

variable {segs : List (Option Bytes)}

lemma open_of_checked (h : checked segs traverse = true) : Open segs := by
  induction segs generalizing traverse with
  | nil => cases h
  | cons seg segs ih =>
    cases seg with
    | none =>
      by_cases hne : segs = []
      · simp [hne, Open]
      · exact (open_cons hne).mpr (ih h)
    | some s =>
      rw [open_some]
      rw [checked] at h
      split_ifs at h with hall
      · -- the segments behind the last name are directories
        have hne : segs ≠ [] := by
          rintro rfl
          simp at h
        have hlast := all_eq_true.mp hall _ (getLast_mem hne)
        rw [Open, getLast?_eq_some_getLast hne, Option.isNone_iff_eq_none.mp hlast]
      · exact ih h

lemma valid_eq_false_of_dirs (h : zeroToManyDirs <:+: s) (c : Bytes) : valid s c = false := by simp [valid, h]

lemma first_of_invalid (h : zeroToManyDirs <:+: s) : first valid (some s :: segs) traverse path = none := by
  cases traverse with
  | false => cases path <;> simp [first, valid_eq_false_of_dirs h]
  | true =>
    have hdrop : path.dropWhile (fun c => !valid s c) = [] := by
      simp [valid_eq_false_of_dirs h]
    rw [first, hdrop]

lemma traversePath_eq (hs : ¬ zeroToManyDirs <:+: s) (hne : path ≠ []) :
    Pattern.traversePath s path = none ∧ path.dropWhile (fun c => !valid s c) = [] ∨
      Pattern.traversePath s path = match path.dropWhile (fun c => !valid s c) with
        | [] => some (false, [])
        | _ :: rest => some (true, rest) := by
  by_cases hbad : ∃ c e, Glob.Match s c = .error e
  · obtain ⟨c, e, hc⟩ := hbad
    have hall : ∀ d, valid s d = false := by
      intro d
      obtain ⟨e', hd⟩ := @Glob.Match_error s c d e hc
      simp [valid, hd]
    obtain ⟨d, path, rfl⟩ := exists_cons_of_ne_nil hne
    obtain ⟨e', hd⟩ := @Glob.Match_error s c d e hc
    exact .inl ⟨by simp [Pattern.traversePath, hd], by simp [hall]⟩
  · right
    push Not at hbad
    clear hne
    induction path with
    | nil => rfl
    | cons d path ih =>
      rw [Pattern.traversePath]
      cases hd : Glob.Match s d with
      | error e => exact absurd hd (hbad d e)
      | ok b =>
        cases b with
        | true =>
          have hvalid : valid s d = true := by simp [valid, hs, hd]
          simp [hvalid]
        | false =>
          have hvalid : valid s d = false := by simp [valid, hd]
          simpa [dropWhile_cons, hvalid] using ih

lemma globLoop_any (hl : l ≠ []) :
    Pattern.globLoop (zeroToManyDirs :: l) matched traverse path = Pattern.globLoop l matched true path := by
  have hne : zeroToManyDirs ≠ [] := by decide
  cases path <;> simp [Pattern.globLoop, hne, hl]

lemma globLoop_name (hs : s ≠ []) (hany : s ≠ zeroToManyDirs) (hstars : ¬ zeroToManyDirs <:+: s) :
    Pattern.globLoop (s :: l) matched traverse path =
      match path with
      | [] => none
      | e :: path =>
        if traverse then (Pattern.traversePath s (e :: path)).bind fun r => Pattern.globLoop l r.1 false r.2
        else if valid s e then Pattern.globLoop l (!(path.isEmpty && !l.isEmpty)) false path
        else none := by
  cases path with
  | nil => simp [Pattern.globLoop, hs, hany]
  | cons e path =>
    simp only [Pattern.globLoop, hs, hany, hstars, if_false]
    cases traverse with
    | true => cases Pattern.traversePath s (e :: path) <;> rfl
    | false =>
      cases he : Glob.Match s e with
      | error err => simp [valid, he]
      | ok b => cases b <;> simp [valid, hstars, he]

lemma globLoop_iff (hne : ∀ s ∈ l, s ≠ []) : Pattern.globLoop l matched traverse path = some (true, rest) ↔
    first valid (segments l) traverse path = some rest ∧
      if (segments l).all Option.isNone then matched = true else checked (segments l) traverse = true → rest ≠ [] := by
  induction l generalizing matched traverse path with
  | nil => simp [Pattern.globLoop, segments, first, and_comm]
  | cons s l ih =>
    obtain ⟨hs, hl⟩ := forall_mem_cons.mp hne
    by_cases hany : s = zeroToManyDirs
    · subst hany
      have hsegs : segments (zeroToManyDirs :: l) = none :: segments l := by simp [segments]
      by_cases hlast : l = []
      · subst hlast
        cases path <;> simp [Pattern.globLoop, hs, segments, first, and_comm]
      · obtain ⟨t, l, rfl⟩ := exists_cons_of_ne_nil hlast
        have hfirst : first valid (none :: segments (t :: l)) traverse path = first valid (segments (t :: l)) true path := by
          rw [segments, map_cons, first]
        rw [globLoop_any hlast, ih hl, hsegs, hfirst]
        simp [checked]
    · have hsegs : segments (s :: l) = some s :: segments l := by simp [segments, hany]
      have hempty : (segments l).isEmpty = l.isEmpty := by simp [segments]
      -- what the loop says after a name that was found
      have hname : ∀ (found : Bool) (path' : List Bytes), (found = true ↔ (!traverse && !l.isEmpty) = true → path' ≠ []) →
          (Pattern.globLoop l found false path' = some (true, rest) ↔ first valid (segments l) false path' = some rest ∧
            if (some s :: segments l).all Option.isNone then matched = true
            else checked (some s :: segments l) traverse = true → rest ≠ []) := by
        intro found path' hfound
        rw [ih hl, checked, hempty]
        simp only [all_cons, Option.isNone_some, Bool.false_and, Bool.false_eq_true, if_false]
        refine and_congr_right fun hfirst => ?_
        split_ifs with hall
        · rw [first_of_all_none hall, Option.some.injEq] at hfirst
          rw [hfound, hfirst]
        · rfl
      rw [hsegs]
      by_cases hstars : zeroToManyDirs <:+: s
      · cases path <;> simp [Pattern.globLoop, hs, hany, hstars, first_of_invalid hstars]
      · rw [globLoop_name hs hany hstars]
        cases path with
        | nil => cases traverse <;> simp [first]
        | cons e path =>
          cases traverse with
          | false =>
            simp only [Bool.false_eq_true, if_false, first]
            by_cases he : valid s e = true
            · rw [if_pos he, if_pos he]
              exact hname _ _ (by simp; tauto)
            · simp [he]
          | true =>
            simp only [if_true, first]
            obtain ⟨htraverse, hdrop⟩ | htraverse := traversePath_eq hstars (cons_ne_nil e path)
            · simp [htraverse, hdrop]
            · rw [htraverse]
              cases hdrop : (e :: path).dropWhile (fun c => !valid s c) with
              | nil =>
                simp only [Option.bind_some, reduceCtorEq, false_and, iff_false, ih hl]
                rintro ⟨hfirst, hmatched⟩
                cases hall : (segments l).all Option.isNone with
                | true => simp [hall] at hmatched
                | false => simp [first_nil hall] at hfirst
              | cons c path' => exact hname true path' (by simp)

end Loop

section Meaning

variable {p : Pattern} {path rel : List Bytes} {isDir : Bool}

lemma Match_ne_noMatch_iff (hglob : p.isGlob = true) : p.Match path isDir ≠ .noMatch ↔
    ∃ rel, path = p.domain ++ rel ∧ rel ≠ [] ∧ p.globMatch rel isDir = true := by
  rw [Pattern.Match]
  by_cases hlen : path.length ≤ p.domain.length
  · rw [if_pos hlen]
    refine iff_of_false (fun h => h rfl) ?_
    rintro ⟨rel, rfl, hne, -⟩
    have := length_pos_iff.mpr hne
    rw [length_append] at hlen
    omega
  · rw [if_neg hlen]
    by_cases hdomain : p.domain <+: path
    · obtain ⟨rel, rfl⟩ := hdomain
      have hrel : rel ≠ [] := by
        rintro rfl
        simp at hlen
      have hresult : (if p.inclusion = true then MatchResult.includes else .exclude) ≠ .noMatch := by split_ifs <;> simp
      rw [if_neg (by simp), drop_left]
      cases hmatch : p.globMatch rel isDir with
      | true => simpa [hglob, hmatch, hrel] using hresult
      | false => simp [hglob, hmatch]
    · rw [if_pos hdomain]
      refine iff_of_false (fun h => h rfl) ?_
      rintro ⟨rel, rfl, -, -⟩
      exact hdomain (prefix_append _ _)

lemma globMatch_iff (hempty : ∀ s ∈ p.pattern.tail, s ≠ []) : p.globMatch rel isDir = true ↔
    ∃ rest, first valid p.segments false rel = some rest ∧ p.segments.all Option.isNone = false ∧
      (checked p.segments false = true → rest ≠ []) ∧ (p.dirOnly = true → isDir = false → rest ≠ []) := by
  set l := if p.pattern.head? = some [] then p.pattern.tail else p.pattern with hl
  have hsegs : p.segments = segments l := rfl
  have hloop : Pattern.globLoop p.pattern false false rel = Pattern.globLoop l false false rel := by
    rw [hl]
    split_ifs with hhead
    · obtain ⟨rest, hrest⟩ := head?_eq_some_iff.mp hhead
      cases rel <;> simp [hrest, Pattern.globLoop]
    · rfl
  have hne : ∀ s ∈ l, s ≠ [] := by
    rw [hl]
    split_ifs with hhead
    · exact hempty
    · intro s hs
      cases hpattern : p.pattern with
      | nil => simp [hpattern] at hs
      | cons t rest =>
        rw [hpattern] at hs hhead hempty
        rcases mem_cons.mp hs with rfl | hs
        · simpa using hhead
        · exact hempty s hs
  have hfinal : ∀ rest : List Bytes, (!(p.dirOnly && !isDir && rest.isEmpty)) = true ↔
      (p.dirOnly = true → isDir = false → rest ≠ []) := by
    intro rest
    cases p.dirOnly <;> cases isDir <;> simp
  have hmatch : p.globMatch rel isDir = true ↔ ∃ rest, Pattern.globLoop l false false rel = some (true, rest) ∧
      (!(p.dirOnly && !isDir && rest.isEmpty)) = true := by
    rw [Pattern.globMatch, hloop]
    rcases Pattern.globLoop l false false rel with _ | ⟨_ | _, rest⟩ <;> simp
  rw [hmatch, hsegs]
  refine exists_congr fun rest => ?_
  rw [globLoop_iff hne, hfinal]
  cases (segments l).all Option.isNone <;> simp [and_assoc]

/-- If the pattern ends with `**`, a directory is asked for where it has to be one, and the path does not end at a
component that has the last name of the pattern, unless that name is checked. -/
def Pattern.EndsInside (p : Pattern) (path : List Bytes) (isDir : Bool) : Prop :=
  Open p.segments → (p.dirOnly = true → isDir = true) ∧
    (checked p.segments false = true ∨ ∀ u ∈ lastName p.segments, ∀ c ∈ path.getLast?, valid u c = false)

/-- A pattern with a slash and without an empty segment matches the paths that it means: what is found is meant, and
what is meant is found if no name behind `**` and before a further name is that of several components. -/
theorem Match_spec (text : Bytes) (domain path : List Bytes) (isDir : Bool)
    (hglob : (ParsePattern text domain).isGlob = true)
    (hempty : ∀ s ∈ (ParsePattern text domain).pattern.tail, s ≠ []) :
    ((ParsePattern text domain).EndsInside path isDir → (ParsePattern text domain).Match path isDir ≠ .noMatch →
      (ParsePattern text domain).Meaning valid path isDir) ∧ ((∃ s, some s ∈ (ParsePattern text domain).segments) →
      Single valid (ParsePattern text domain).segments (path.drop domain.length) →
      (ParsePattern text domain).Meaning valid path isDir → (ParsePattern text domain).Match path isDir ≠ .noMatch) := by
  have hdomain : (ParsePattern text domain).domain = domain := rfl
  generalize ParsePattern text domain = p at *
  rw [Match_ne_noMatch_iff hglob]
  constructor
  · rintro hends ⟨rel, rfl, hrel, hmatch⟩
    obtain ⟨rest, hfirst, hall, hchecked, hdir⟩ := (globMatch_iff hempty).mp hmatch
    obtain ⟨pre, rfl, hclosed, hopen⟩ := first_sound (by simp) hfirst
    have hne : ∀ {l : List Bytes}, Matches valid p.segments l → l ≠ [] := by
      rintro l hl rfl
      rw [matches_nil hl] at hall
      cases hall
    by_cases ho : Open p.segments
    · obtain ⟨hdirOnly, hlast⟩ := hends ho
      have hrest : rest ≠ [] := by
        rintro rfl
        obtain ⟨u, c, hu, hc, hvalid⟩ := first_eq_nil hrel hfirst
        rcases hlast with hcheck | hlast
        · exact hchecked hcheck rfl
        · have hpathLast : (p.domain ++ (pre ++ [])).getLast? = some c := by rw [getLast?_append, hc]; rfl
          rw [hlast u hu c hpathLast] at hvalid
          cases hvalid
      have hmeant : Matches valid p.segments (pre ++ rest) := hopen ho rest hrest
      exact ⟨pre ++ rest, [], by simp, hne hmeant, hmeant, fun h _ => hdirOnly h⟩
    · refine ⟨pre, rest, rfl, hne (hclosed ho), hclosed ho, fun hdirOnly hrest => ?_⟩
      cases hfile : isDir with
      | true => rfl
      | false => exact absurd hrest (hdir hdirOnly hfile)
  · rintro ⟨s, hs⟩ hsingle ⟨pre, post, rfl, hpre, hmatch, hdir⟩
    rw [hdomain, drop_left] at hsingle
    have hcomplete : ∃ rest, first valid p.segments false (pre ++ post) = some rest ∧ post <:+ rest ∧
      (Open p.segments → post ≠ rest) := first_complete (by simp) hsingle hmatch
    obtain ⟨rest, hfirst, hsuffix, hopen⟩ := hcomplete
    refine ⟨pre ++ post, rfl, by simp [hpre], (globMatch_iff hempty).mpr ⟨rest, hfirst, ?_, fun hchecked => ?_, ?_⟩⟩
    · rw [all_eq_false]
      exact ⟨some s, hs, by simp⟩
    · rintro rfl
      exact hopen (open_of_checked hchecked) (suffix_nil.mp hsuffix)
    · rintro hdirOnly hfile rfl
      exact absurd (hdir hdirOnly (suffix_nil.mp hsuffix)) (by simp [hfile])

theorem Match_spec_found :
    (ParsePattern (textBytes "**/a/b") []).Meaning valid [textBytes "x", textBytes "a", textBytes "b"] false ∧
      (ParsePattern (textBytes "**/a/b") []).Match [textBytes "x", textBytes "a", textBytes "b"] false ≠ .noMatch := by
  obtain ⟨hsound, hcomplete⟩ := Match_spec (textBytes "**/a/b") [] [textBytes "x", textBytes "a", textBytes "b"] false
    (by decide +kernel) (by decide +kernel)
  have hsegs : (ParsePattern (textBytes "**/a/b") []).segments = [none, some (textBytes "a"), some (textBytes "b")] := by
    decide +kernel
  have hmeaning : (ParsePattern (textBytes "**/a/b") []).Meaning valid
      [textBytes "x", textBytes "a", textBytes "b"] false := by
    refine hsound (fun hopen => ?_) (by decide +kernel)
    rw [hsegs] at hopen
    cases hopen
  refine ⟨hmeaning, hcomplete ⟨textBytes "b", by rw [hsegs]; simp⟩ ?_ hmeaning⟩
  rintro s u hpart
  rw [hsegs] at hpart
  cases hpart.eq_of_length rfl
  decide +kernel

theorem Match_not_meaning :
    ((ParsePattern (textBytes "a/b**") []).Meaning globs [textBytes "a", textBytes "bc"] false ∧
        (ParsePattern (textBytes "a/b**") []).Match [textBytes "a", textBytes "bc"] false = .noMatch) ∧
      ((ParsePattern (textBytes "**/a/b") []).Meaning globs [textBytes "a", textBytes "a", textBytes "b"] false ∧
        (ParsePattern (textBytes "**/a/b") []).Match [textBytes "a", textBytes "a", textBytes "b"] false = .noMatch) ∧
      ¬ (ParsePattern (textBytes "**/a/**") []).Meaning globs [textBytes "a"] false ∧
        (ParsePattern (textBytes "**/a/**") []).Match [textBytes "a"] false = .exclude := by
  refine ⟨⟨⟨[textBytes "a", textBytes "bc"], [], rfl, by simp, ?_, ?_⟩, by decide +kernel⟩,
    ⟨⟨[textBytes "a", textBytes "a", textBytes "b"], [], rfl, by simp, ?_, ?_⟩, by decide +kernel⟩, ?_, by decide +kernel⟩
  · have hsegs : (ParsePattern (textBytes "a/b**") []).segments = [some (textBytes "a"), some (textBytes "b**")] := by
      decide +kernel
    rw [hsegs]
    exact .name (by decide +kernel) (.name (by decide +kernel) .nil)
  · intro h
    exact absurd h (by decide +kernel)
  · have hsegs : (ParsePattern (textBytes "**/a/b") []).segments = [none, some (textBytes "a"), some (textBytes "b")] := by
      decide +kernel
    rw [hsegs]
    exact .more (by simp) _ (.zero (by simp) (.name (by decide +kernel) (.name (by decide +kernel) .nil)))
  · intro h
    exact absurd h (by decide +kernel)
  · have hsegs : (ParsePattern (textBytes "**/a/**") []).segments = [none, some (textBytes "a"), none] := by
      decide +kernel
    rintro ⟨pre, post, hpath, -, hmatch, -⟩
    rw [hsegs] at hmatch
    obtain ⟨skipped, rest, rfl, hrest⟩ := matches_none (by simp) hmatch
    obtain ⟨c, rest, rfl, -, hinside⟩ := matches_some hrest
    have hlen := congrArg List.length hpath
    have hpos := length_pos_iff.mpr (matches_inside hinside)
    simp only [length_append, length_cons, length_nil] at hlen
    omega

end Meaning

end GoGit.GitIgnore
