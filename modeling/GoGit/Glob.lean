import Mathlib

namespace Glob

open List

/-- The first character of a text in UTF-8 and its length; of an invalid one the length is one. -/
def decodeRune : List UInt8 → ℕ × ℕ
  | [] => (0xfffd, 0)
  | a :: l =>
    let continues (lo hi : UInt8) (x : Option UInt8) : Bool := x.any fun x => lo ≤ x ∧ x ≤ hi
    let bits (x : Option UInt8) : ℕ := (x.getD 0).toNat % 64
    if a < 0x80 then (a.toNat, 1)
    else if 0xc2 ≤ a ∧ a ≤ 0xdf ∧ continues 0x80 0xbf l[0]? then (a.toNat % 32 * 64 + bits l[0]?, 2)
    else if 0xe0 ≤ a ∧ a ≤ 0xef ∧
        continues (if a = 0xe0 then 0xa0 else 0x80) (if a = 0xed then 0x9f else 0xbf) l[0]? ∧
        continues 0x80 0xbf l[1]? then
      (a.toNat % 16 * 64 ^ 2 + bits l[0]? * 64 + bits l[1]?, 3)
    else if 0xf0 ≤ a ∧ a ≤ 0xf4 ∧
        continues (if a = 0xf0 then 0x90 else 0x80) (if a = 0xf4 then 0x8f else 0xbf) l[0]? ∧
        continues 0x80 0xbf l[1]? ∧ continues 0x80 0xbf l[2]? then
      (a.toNat % 8 * 64 ^ 3 + bits l[0]? * 64 ^ 2 + bits l[1]? * 64 + bits l[2]?, 4)
    else (0xfffd, 1)

inductive BadPattern
  | bad
  deriving DecidableEq

def separator : UInt8 := 0x2f
def star : UInt8 := 0x2a
def question : UInt8 := 0x3f
def backslash : UInt8 := 0x5c
def openClass : UInt8 := 0x5b
def closeClass : UInt8 := 0x5d
def caret : UInt8 := 0x5e
def dash : UInt8 := 0x2d

/-- A pattern up to its next `*` outside of a class. -/
def scanTo : Bool → List UInt8 → List UInt8 × List UInt8
  | _, [] => ([], [])
  | inRange, c :: d :: pattern =>
    if c = backslash then
      let (chunk, rest) := scanTo inRange pattern
      (c :: d :: chunk, rest)
    else if c = star ∧ ¬ inRange then ([], c :: d :: pattern)
    else
      let (chunk, rest) := scanTo (if c = openClass then true else if c = closeClass then false else inRange)
        (d :: pattern)
      (c :: chunk, rest)
  | inRange, [c] => if c = star ∧ ¬ inRange then ([], [c]) else ([c], [])

/-- Whether a pattern starts with `*`, its part up to the next one, and the rest. -/
def scanChunk (pattern : List UInt8) : Bool × List UInt8 × List UInt8 :=
  (pattern.head? = some star, scanTo false (pattern.dropWhile (· = star)))

def getEsc (chunk : List UInt8) : Except BadPattern (ℕ × List UInt8) :=
  if chunk = [] ∨ chunk.head? = some dash ∨ chunk.head? = some closeClass then .error .bad
  else
    let chunk := if chunk.head? = some backslash then chunk.tail else chunk
    let (r, n) := decodeRune chunk
    if chunk = [] ∨ r = 0xfffd ∧ n = 1 ∨ chunk.drop n = [] then .error .bad
    else .ok (r, chunk.drop n)

/-- The ranges of a class, for at most as many of them as the first argument says: whether one has the
character, and what follows the class. -/
def matchRanges (r : ℕ) : ℕ → List UInt8 → ℕ → Bool → Except BadPattern (Bool × List UInt8)
  | 0, _, _, _ => .error .bad
  | n + 1, chunk, nrange, found =>
    if chunk.head? = some closeClass ∧ nrange > 0 then .ok (found, chunk.tail)
    else do
      let (lo, chunk) ← getEsc chunk
      let (hi, chunk) ← if chunk.head? = some dash then getEsc chunk.tail else .ok (lo, chunk)
      matchRanges r n chunk (nrange + 1) (found ∨ lo ≤ r ∧ r ≤ hi)

/-- What a part of a pattern without `*` leaves of a name, if it matches. The part is read to its end also
after a mismatch, so that it is malformed for all names or for none. -/
def matchChunk : ℕ → List UInt8 → List UInt8 → Bool → Except BadPattern (Option (List UInt8))
  | _, [], s, failed => .ok (if failed then none else some s)
  | 0, _ :: _, _, _ => .error .bad
  | n + 1, c :: chunk, s, failed =>
    let failed := failed ∨ s = []
    if c = openClass then do
      let (r, size) := if failed then (0, 0) else decodeRune s
      let negated := chunk.head? = some caret
      let chunk := if negated then chunk.tail else chunk
      let (found, chunk) ← matchRanges r (chunk.length + 1) chunk 0 false
      matchChunk n chunk (s.drop size) (failed ∨ found = negated)
    else if c = question then
      matchChunk n chunk (s.drop (decodeRune s).2) (failed ∨ s.head? = some separator)
    else if c = backslash then
      match chunk with
      | [] => .error .bad
      | d :: chunk => matchChunk n chunk s.tail (failed ∨ s.head? ≠ some d)
    else matchChunk n chunk s.tail (failed ∨ s.head? ≠ some c)

/-- What a part of a pattern after a `*` leaves of a name, after as few bytes before it as possible. The
last part leaves nothing. -/
def skipTo (chunk : List UInt8) (last : Bool) : List UInt8 → Except BadPattern (Option (List UInt8))
  | [] => .ok none
  | c :: name =>
    if c = separator then .ok none
    else do
      match ← matchChunk chunk.length chunk name false with
      | none => skipTo chunk last name
      | some t => if last ∧ t ≠ [] then skipTo chunk last name else .ok (some t)

def checkRest : ℕ → List UInt8 → Except BadPattern Unit
  | 0, _ => .ok ()
  | n + 1, pattern =>
    if pattern = [] then .ok ()
    else do
      let (_, chunk, rest) := scanChunk pattern
      let _ ← matchChunk chunk.length chunk [] false
      checkRest n rest

def matchFrom : ℕ → List UInt8 → List UInt8 → Except BadPattern Bool
  | 0, _, name => .ok (name = [])
  | n + 1, pattern, name =>
    if pattern = [] then .ok (name = [])
    else
      let (starred, chunk, rest) := scanChunk pattern
      if starred ∧ chunk = [] then .ok (separator ∉ name)
      else do
        let here ← matchChunk chunk.length chunk name false
        match here.filter (fun t => t = [] ∨ rest ≠ []) with
        | some t => matchFrom n rest t
        | none =>
          match ← if starred then skipTo chunk (rest = []) name else .ok none with
          | some t => matchFrom n rest t
          | none => do
            checkRest rest.length rest
            .ok false

/-- Whether a name matches a pattern. Each part of the pattern takes at least one byte of it. -/
def Match (pattern name : List UInt8) : Except BadPattern Bool := matchFrom pattern.length pattern name

lemma Match_nil (name : List UInt8) : Match [] name = .ok (name = []) := rfl

lemma matchRanges_snd (r r' n : ℕ) (chunk : List UInt8) (nrange : ℕ) (found found' : Bool) :
    (matchRanges r n chunk nrange found).map Prod.snd = (matchRanges r' n chunk nrange found').map Prod.snd := by
  induction n generalizing chunk nrange found found' with
  | zero => rfl
  | succ n ih =>
    simp only [matchRanges]
    split_ifs with hclose
    · rfl
    · cases getEsc chunk with
      | error e => rfl
      | ok lo =>
        simp only [bind, Except.bind]
        split_ifs with hdash
        · cases getEsc lo.2.tail with
          | error e => rfl
          | ok hi => exact ih _ _ _ _
        · exact ih _ _ _ _

lemma isOk_matchChunk (n : ℕ) (chunk s s' : List UInt8) (failed failed' : Bool) :
    (matchChunk n chunk s failed).isOk = (matchChunk n chunk s' failed').isOk := by
  induction n generalizing chunk s s' failed failed' with
  | zero => cases chunk <;> rfl
  | succ n ih =>
    cases chunk with
    | nil => rfl
    | cons c chunk =>
      simp only [matchChunk]
      by_cases hclass : c = openClass
      · rw [if_pos hclass, if_pos hclass]
        generalize (if failed = true ∨ s = [] then (0, 0) else decodeRune s) = first
        generalize (if failed' = true ∨ s' = [] then (0, 0) else decodeRune s') = first'
        set inner := if chunk.head? = some caret then chunk.tail else chunk
        have hranges := matchRanges_snd first.1 first'.1 (inner.length + 1) inner 0 false false
        cases hx : matchRanges first.1 (inner.length + 1) inner 0 false with
        | error e =>
          cases hy : matchRanges first'.1 (inner.length + 1) inner 0 false with
          | error e' =>
            rfl
          | ok y => simp [hx, hy, Except.map] at hranges
        | ok x =>
          cases hy : matchRanges first'.1 (inner.length + 1) inner 0 false with
          | error e => simp [hx, hy, Except.map] at hranges
          | ok y =>
            obtain ⟨found, rest⟩ := x
            obtain ⟨found', rest'⟩ := y
            have heq : rest = rest' := by simpa [hx, hy, Except.map] using hranges
            rw [heq]
            exact ih _ _ _ _ _
      · rw [if_neg hclass, if_neg hclass]
        split_ifs with hquestion hescape
        · exact ih _ _ _ _ _
        · cases chunk with
          | nil => rfl
          | cons d chunk => exact ih _ _ _ _ _
        · exact ih _ _ _ _ _

lemma scanTo_append (inRange : Bool) (l : List UInt8) : (scanTo inRange l).1 ++ (scanTo inRange l).2 = l := by
  fun_induction scanTo inRange l with
  | case1 => rfl
  | case2 inRange d pattern chunk rest heq ih =>
    rw [heq] at ih
    simpa using ih
  | case3 => rfl
  | case4 inRange c d pattern hescape hstar chunk rest heq ih =>
    rw [heq] at ih
    simpa using ih
  | case5 => rfl
  | case6 => rfl

lemma scanTo_ne_nil {c : UInt8} (hc : c ≠ star) (l : List UInt8) : (scanTo false (c :: l)).1 ≠ [] := by
  cases l with
  | nil => simp [scanTo, hc]
  | cons d l =>
    rw [scanTo]
    by_cases hescape : c = backslash
    · rw [if_pos hescape]
      exact cons_ne_nil _ _
    · rw [if_neg hescape, if_neg fun hstar => hc hstar.1]
      exact cons_ne_nil _ _

lemma scanChunk_spec {pattern : List UInt8} (h : pattern ≠ []) : (scanChunk pattern).2.2.length < pattern.length ∧
      ((scanChunk pattern).2.1 = [] → (scanChunk pattern).2.2 = []) := by
  have happend := congrArg List.length (scanTo_append false (pattern.dropWhile (· = star)))
  rw [length_append] at happend
  cases hdrop : pattern.dropWhile (· = star) with
  | nil =>
    simp only [scanChunk, hdrop, scanTo, length_nil, length_pos_iff.mpr h, implies_true, and_self]
  | cons c l =>
    have hc : c ≠ star := by
      have hhead := head?_dropWhile_not (· = star) pattern
      simpa [hdrop] using hhead
    have hne := scanTo_ne_nil hc l
    have hlen := (dropWhile_suffix (· = star) (l := pattern)).length_le
    have hpos := length_pos_iff.mpr hne
    rw [hdrop] at happend hlen
    simp only [scanChunk, hdrop]
    exact ⟨by omega, fun hnil => absurd hnil hne⟩

lemma checkRest_fuel {n m : ℕ} {pattern : List UInt8} (hn : pattern.length ≤ n) (hm : pattern.length ≤ m) :
    checkRest n pattern = checkRest m pattern := by
  induction n generalizing m pattern with
  | zero =>
    rw [length_eq_zero_iff.mp (by omega : pattern.length = 0)]
    cases m <;> rfl
  | succ n ih =>
    cases m with
    | zero =>
      rw [length_eq_zero_iff.mp (by omega : pattern.length = 0)]
      rfl
    | succ m =>
      by_cases h : pattern = []
      · simp [checkRest, h]
      · have hlt := (scanChunk_spec h).1
        have hrest := @ih m (scanChunk pattern).2.2 (by omega) (by omega)
        simp only [checkRest, h, if_false, hrest]

lemma isOk_skipTo {chunk : List UInt8} (h : ∀ s, (matchChunk chunk.length chunk s false).isOk = true) (last : Bool)
    (name : List UInt8) : (skipTo chunk last name).isOk = true := by
  induction name with
  | nil => rfl
  | cons c name ih =>
    rw [skipTo]
    split_ifs with hc
    · rfl
    · have hname := h name
      cases hmatch : matchChunk chunk.length chunk name false with
      | error e => rw [hmatch] at hname; cases hname
      | ok t =>
        cases t with
        | none => exact ih
        | some t =>
          simp only [bind, Except.bind]
          split_ifs
          · exact ih
          · rfl

lemma isOk_matchFrom {n : ℕ} {pattern : List UInt8} (hn : pattern.length ≤ n) (name : List UInt8) :
    (matchFrom n pattern name).isOk = (checkRest n pattern).isOk := by
  induction n generalizing pattern name with
  | zero => rfl
  | succ n ih =>
    by_cases h : pattern = []
    · rw [matchFrom, checkRest, if_pos h, if_pos h]
      rfl
    · obtain ⟨hlt, hempty⟩ := scanChunk_spec h
      rw [matchFrom, checkRest, if_neg h, if_neg h]
      generalize scanChunk pattern = parts at hlt hempty ⊢
      obtain ⟨starred, chunk, rest⟩ := parts
      simp only at hlt hempty ⊢
      by_cases hlast : starred = true ∧ chunk = []
      · have hrest := hempty hlast.2
        rw [if_pos hlast, hlast.2, hrest]
        cases n <;> rfl
      · rw [if_neg hlast]
        have hsame := fun s => isOk_matchChunk chunk.length chunk s [] false false
        have hrest := fun t => @ih rest (by omega) t
        have hcheck : checkRest rest.length rest = checkRest n rest := checkRest_fuel le_rfl (by omega)
        cases hnil : matchChunk chunk.length chunk [] false with
        | error e =>
          cases hname : matchChunk chunk.length chunk name false with
          | error e' => rfl
          | ok here =>
            have hok := hsame name
            rw [hname, hnil] at hok
            cases hok
        | ok o =>
          have hok : ∀ s, (matchChunk chunk.length chunk s false).isOk = true := by
            intro s
            rw [hsame s, hnil]
            rfl
          cases hname : matchChunk chunk.length chunk name false with
          | error e' =>
            have hbad := hok name
            rw [hname] at hbad
            cases hbad
          | ok here =>
            simp only [bind, Except.bind]
            cases here.filter (fun t => t = [] ∨ rest ≠ []) with
            | some t => exact hrest t
            | none =>
              have hend : (checkRest rest.length rest >>= fun _ => Except.ok false).isOk = (checkRest n rest).isOk := by
                rw [hcheck]
                cases checkRest n rest <;> rfl
              cases starred with
              | false => exact hend
              | true =>
                have hskip := isOk_skipTo hok (decide (rest = [])) name
                simp only [if_true]
                cases hskipped : skipTo chunk (decide (rest = [])) name with
                | error e =>
                  rw [hskipped] at hskip
                  cases hskip
                | ok t =>
                  cases t with
                  | some t => exact hrest t
                  | none => exact hend

lemma Match_error {pattern name name' : List UInt8} {e : BadPattern} (h : Match pattern name = .error e) :
    ∃ e', Match pattern name' = .error e' := by
  have hname := isOk_matchFrom (le_refl pattern.length) name
  have hname' := isOk_matchFrom (le_refl pattern.length) name'
  rw [← hname, ← Match, ← Match, h] at hname'
  cases hmatch : Match pattern name' with
  | error e' => exact ⟨e', rfl⟩
  | ok b =>
    rw [hmatch] at hname'
    cases hname'

end Glob
