import GoGit.DotGit
import GoGit.GitAttributes
import GoGit.Glob
import GoGit.Trim

/-! The reader splits a line into a name, which may be quoted, and attributes. The name is split at its slashes, and a
path is compared with it part by part. Both take the first element of a list that can be empty. -/
namespace GoGit.GitAttributes

open List

inductive Panic
  | indexOutOfRange
  deriving DecidableEq

structure Pattern where
  domain : List Bytes
  pattern : List Bytes
  deriving DecidableEq

def slash : UInt8 := 0x2f

def zeroToManyDirs : Bytes := textBytes "**"

def ParsePattern (p : Bytes) (domain : List Bytes) : Pattern := ⟨domain, p.splitOn slash⟩

/-- Skips an empty element and eats a doublestar behind it. -/
def enter (doublestar : Bool) (pattern : List Bytes) : Bool × List Bytes :=
  let pattern := if pattern.head? = some [] then pattern.tail else pattern
  if pattern.head? = some zeroToManyDirs then (true, pattern.tail) else (doublestar, pattern)

inductive Turn
  | result (r : Except Panic Bool)
  | next (pattern : List Bytes) (matched doublestar : Bool)

def turn (part : Bytes) (pattern : List Bytes) (doublestar : Bool) : Turn :=
  if pattern = [] then .result (.ok false)
  else if pattern = [[]] then .result (.error .indexOutOfRange)
  else
    match enter doublestar pattern with
    | (_, []) => .result (.ok true)
    | (doublestar, first :: pattern) =>
      if zeroToManyDirs <:+: first then .result (.ok false)
      else
        match Glob.Match first part with
        | .error _ => .result (.ok false)
        | .ok true => .next pattern true false
        | .ok false => if doublestar then .next (first :: pattern) false true else .result (.ok false)

def matchParts : List Bytes → List Bytes → Bool → Bool → Except Panic Bool
  | [], pattern, matched, _ => .ok (if pattern.length > 0 then false else matched)
  | part :: path, pattern, _, doublestar =>
    match turn part pattern doublestar with
    | .result r => r
    | .next pattern matched doublestar => matchParts path pattern matched doublestar

def Pattern.Match (p : Pattern) (path : List Bytes) : Except Panic Bool :=
  if path.length ≤ p.domain.length then .ok false
  else if ¬ p.domain <+: path then .ok false
  else if p.pattern.length = 1 then matchParts (path.drop (path.length - 1)) p.pattern false false
  else matchParts (path.drop p.domain.length) p.pattern false false

inductive LineError
  | panic (p : Panic)
  | macroNotAllowed
  | invalidAttributeName
  deriving DecidableEq

def quote : UInt8 := 0x22
def hash : UInt8 := 0x23

def macroPrefix : Bytes := textBytes "[attr]"

/-- The text up to the next quote that is not escaped, and the text behind it. -/
def quoted : Bytes → Option (Bytes × Bytes)
  | [] => none
  | [c] => if c = quote then some ([], []) else none
  | c :: d :: str =>
    if c = Glob.backslash then (quoted str).map fun (name, rest) => (c :: d :: name, rest)
    else if c = quote then some ([], d :: str)
    else (quoted (d :: str)).map fun (name, rest) => (c :: name, rest)

def unquote (str : Bytes) : Except Panic (Bytes × Bytes) :=
  match str with
  | [] => .error .indexOutOfRange
  | c :: rest => .ok (if c ≠ quote then ([], str) else (quoted rest).getD ([], str))

def nameChar (ch : UInt8) : Bool :=
  ch = 0x2d ∨ ch = 0x2e ∨ ch = 0x5f ∨ 0x30 ≤ ch ∧ ch ≤ 0x39 ∨ 0x61 ≤ ch ∧ ch ≤ 0x7a ∨ 0x41 ≤ ch ∧ ch ≤ 0x5a

def validAttributeName (name : Bytes) : Bool :=
  ¬ (name.length = 0 ∨ name.head? = some 0x2d) ∧ name.all nameChar

def checkMacro (name : Bytes) (allowMacro : Bool) : Except LineError (Bool × Bytes) :=
  if ¬ macroPrefix <+: name then .ok (false, name)
  else if ¬ allowMacro then .error .macroNotAllowed
  else if ¬ validAttributeName (name.drop macroPrefix.length) then .error .invalidAttributeName
  else .ok (true, name.drop macroPrefix.length)

/-- An attribute with its state before its name or its value behind it. -/
def parseAttribute (attrName : Bytes) : Except LineError Attribute :=
  match attrName with
  | [] => .error (.panic .indexOutOfRange)
  | c :: rest => do
    let attr : Attribute :=
      if 0x3d ∈ attrName then
        ⟨attrName.takeWhile (· ≠ 0x3d), .setValue, (attrName.dropWhile (· ≠ 0x3d)).tail⟩
      else if c = 0x21 then ⟨rest, .unspecified, []⟩
      else if c = 0x2d then ⟨rest, .unset, []⟩
      else ⟨attrName, .set, []⟩
    if ¬ validAttributeName attr.name then .error .invalidAttributeName else .ok attr

def takeName (name : Bytes) (attrs : List Bytes) : Except LineError (Bytes × List Bytes) :=
  if name.length = 0 then
    match attrs with
    | [] => .error (.panic .indexOutOfRange)
    | first :: attrs => .ok (first, attrs)
  else .ok (name, attrs)

def ParseAttributesLine (text : Bytes) (domain : List Bytes) (allowMacro : Bool) :
    Except LineError (MatchAttribute Pattern) :=
  let text := Trim.trimSpace text
  if text.head? = some hash ∨ text.length = 0 then .ok ⟨[], none, []⟩
  else do
    let (name, unquoted) ← (unquote text).mapError .panic
    let (name, attrs) ← takeName name (Trim.fields unquoted)
    let (isMacro, name) ← checkMacro name allowMacro
    let attributes ← attrs.mapM parseAttribute
    .ok ⟨name, if isMacro then none else some (ParsePattern name domain), attributes⟩

inductive ReadError
  | line (e : LineError)
  | tooLong
  deriving DecidableEq

def readLines (domain : List Bytes) (allowMacro : Bool) :
    List Bytes → List (MatchAttribute Pattern) → Except Panic (List (MatchAttribute Pattern) × Option LineError)
  | [], attributes => .ok (attributes, none)
  | text :: lines, attributes =>
    match ParseAttributesLine text domain allowMacro with
    | .error (.panic p) => .error p
    | .error e => .ok (attributes, some e)
    | .ok m => readLines domain allowMacro lines (if m.name.length = 0 then attributes else attributes ++ [m])

def ReadAttributes (content : Bytes) (domain : List Bytes) (allowMacro : Bool) :
    Except Panic (List (MatchAttribute Pattern) × Option ReadError) := do
  let (attributes, err) ← readLines domain allowMacro (DotGit.scanLines content).1 []
  .ok (attributes, err.map ReadError.line <|> if (DotGit.scanLines content).2 then some ReadError.tooLong else none)


def Matchable (first : Bytes) : Prop := ∃ part, Glob.Match first part = .ok true

/-- Parts of a path can lead to an element that is empty and the last one: each element on the way is
matched by some part, and after a doublestar an empty element is passed over. -/
inductive Hazard : Bool → List Bytes → Prop
  | slash {doublestar : Bool} : Hazard doublestar [[]]
  | compare {doublestar d : Bool} {first : Bytes} {pattern rest : List Bytes}
      (henter : enter doublestar pattern = (d, first :: rest)) (hfirst : ¬ zeroToManyDirs <:+: first)
      (hmatch : Matchable first) (hrest : Hazard false rest) : Hazard doublestar pattern
  | pass {doublestar : Bool} {pattern rest : List Bytes} (henter : enter doublestar pattern = (true, [] :: rest))
      (hrest : Hazard true ([] :: rest)) : Hazard doublestar pattern

section Patterns

variable {first : Bytes} {path pattern rest : List Bytes} {matched doublestar d : Bool}

lemma enter_self (hfirst : first ≠ []) (hstars : ¬ zeroToManyDirs <:+: first) :
    enter doublestar (first :: rest) = (doublestar, first :: rest) := by
  have hne : first ≠ zeroToManyDirs := fun h => hstars (h ▸ infix_rfl)
  simp [enter, hfirst, hne]

lemma turn_of_enter (part : Bytes) (h : enter doublestar pattern = (d, first :: rest))
    (hstars : ¬ zeroToManyDirs <:+: first) :
    turn part pattern doublestar =
      match Glob.Match first part with
      | .error _ => .result (.ok false)
      | .ok true => .next rest true false
      | .ok false => if d then .next (first :: rest) false true else .result (.ok false) := by
  have hnil : pattern ≠ [] := by
    rintro rfl
    simp [enter] at h
  have hslash : pattern ≠ [[]] := by
    rintro rfl
    simp [enter] at h
  rw [turn, if_neg hnil, if_neg hslash, h]
  simp only [if_neg hstars]

lemma turn_cases (part : Bytes) (pattern : List Bytes) (doublestar : Bool) :
    (pattern = [[]] ∧ turn part pattern doublestar = .result (.error .indexOutOfRange)) ∨
    (∃ b, turn part pattern doublestar = .result (.ok b)) ∨
    ∃ d first rest, enter doublestar pattern = (d, first :: rest) ∧ ¬ zeroToManyDirs <:+: first ∧
      ((Glob.Match first part = .ok true ∧ turn part pattern doublestar = .next rest true false) ∨
        d = true ∧ turn part pattern doublestar = .next (first :: rest) false true) := by
  by_cases hnil : pattern = []
  · exact .inr (.inl ⟨false, by rw [turn, if_pos hnil]⟩)
  by_cases hslash : pattern = [[]]
  · exact .inl ⟨hslash, by rw [turn, if_neg hnil, if_pos hslash]⟩
  right
  rcases henter : enter doublestar pattern with ⟨d, _ | ⟨first, rest⟩⟩
  · exact .inl ⟨true, by rw [turn, if_neg hnil, if_neg hslash, henter]⟩
  by_cases hstars : zeroToManyDirs <:+: first
  · refine .inl ⟨false, ?_⟩
    rw [turn, if_neg hnil, if_neg hslash, henter]
    simp only [if_pos hstars]
  have hturn := turn_of_enter part henter hstars
  cases hmatch : Glob.Match first part with
  | error e => exact .inl ⟨false, by rw [hturn, hmatch]⟩
  | ok b =>
    rw [hmatch] at hturn
    cases b with
    | true => exact .inr ⟨d, first, rest, rfl, hstars, .inl ⟨hmatch, hturn⟩⟩
    | false =>
      cases d with
      | true => exact .inr ⟨true, first, rest, rfl, hstars, .inr ⟨rfl, hturn⟩⟩
      | false => exact .inl ⟨false, hturn⟩

lemma Hazard.of_stay (henter : enter doublestar pattern = (true, first :: rest))
    (hstars : ¬ zeroToManyDirs <:+: first) (h : Hazard true (first :: rest)) : Hazard doublestar pattern := by
  by_cases hfirst : first = []
  · subst hfirst
    exact .pass henter h
  · have hself := @enter_self first rest true hfirst hstars
    cases h with
    | slash => exact absurd rfl hfirst
    | compare henter' hstars' hmatch hrest =>
      rw [hself] at henter'
      obtain ⟨rfl, rfl⟩ := List.cons.inj (Prod.mk.inj henter').2
      exact .compare henter hstars' hmatch hrest
    | pass henter' hrest =>
      rw [hself] at henter'
      exact absurd (List.cons.inj (Prod.mk.inj henter').2).1 hfirst

lemma hazard_of_matchParts (h : matchParts path pattern matched doublestar = .error .indexOutOfRange) :
    Hazard doublestar pattern := by
  induction path generalizing pattern matched doublestar with
  | nil => simp [matchParts] at h
  | cons part path ih =>
    rw [matchParts] at h
    rcases turn_cases part pattern doublestar with ⟨rfl, -⟩ | ⟨b, hturn⟩ |
      ⟨d, first, rest, henter, hstars, ⟨hmatch, hturn⟩ | ⟨rfl, hturn⟩⟩
    · exact .slash
    · rw [hturn] at h
      exact absurd h (by simp)
    · rw [hturn] at h
      exact .compare henter hstars ⟨part, hmatch⟩ (ih h)
    · rw [hturn] at h
      exact .of_stay henter hstars (ih h)

lemma Hazard.exists_matchParts (h : Hazard doublestar pattern) :
    ∃ path, ∀ matched, matchParts path pattern matched doublestar = .error .indexOutOfRange := by
  induction h with
  | slash => exact ⟨[[]], fun _ => rfl⟩
  | compare henter hstars hmatch _ ih =>
    obtain ⟨part, hpart⟩ := hmatch
    obtain ⟨path, hpath⟩ := ih
    refine ⟨part :: path, fun matched => ?_⟩
    rw [matchParts, turn_of_enter _ henter hstars, hpart]
    exact hpath true
  | pass henter _ ih =>
    -- any part that is not empty is passed over
    obtain ⟨path, hpath⟩ := ih
    refine ⟨[0x61] :: path, fun matched => ?_⟩
    rw [matchParts, turn_of_enter _ henter (by decide), Glob.Match_nil]
    exact hpath false

end Patterns

section Match

variable {name : Bytes} {domain : List Bytes}

lemma Hazard.not_singleton {first : Bytes} {doublestar : Bool} (hfirst : first ≠ []) : ¬ Hazard doublestar [first] := by
  have hnil : ∀ d, ¬ Hazard d [] := by
    intro d h
    cases h with
    | compare henter => simp [enter] at henter
    | pass henter => simp [enter] at henter
  intro h
  cases h with
  | slash => exact hfirst rfl
  | @compare _ d first' _ rest henter _ _ hrest =>
    have htail : rest = [] := by
      simp only [enter, head?_cons, Option.some_inj, if_neg hfirst] at henter
      split_ifs at henter <;> simp_all
    exact hnil false (htail ▸ hrest)
  | pass henter =>
    simp only [enter, head?_cons, Option.some_inj, if_neg hfirst] at henter
    split_ifs at henter <;> simp_all

lemma match_panics_iff (hname : name ≠ []) :
    (∃ path, (ParsePattern name domain).Match path = .error .indexOutOfRange) ↔ Hazard false (name.splitOn slash) := by
  constructor
  · rintro ⟨path, hpath⟩
    rw [Pattern.Match] at hpath
    split_ifs at hpath
    · exact hazard_of_matchParts hpath
    · exact hazard_of_matchParts hpath
  · intro h
    have hone : (name.splitOn slash).length ≠ 1 := by
      intro hone
      obtain ⟨first, hfirst⟩ := length_eq_one_iff.mp hone
      have hname' : first = name := by
        have hjoin : [slash].intercalate (name.splitOn slash) = name := intercalate_splitOn slash
        rw [hfirst] at hjoin
        simpa using hjoin
      rw [hfirst, hname'] at h
      exact Hazard.not_singleton hname h
    obtain ⟨path, hpath⟩ := h.exists_matchParts
    have hne : path ≠ [] := by
      rintro rfl
      simpa [matchParts] using hpath false
    have hlen : ¬ (domain ++ path).length ≤ domain.length := by
      have := length_pos_iff.mpr hne
      rw [length_append]
      omega
    refine ⟨domain ++ path, ?_⟩
    rw [Pattern.Match, ParsePattern, if_neg hlen, if_neg (not_not.mpr (prefix_append _ _)), if_neg hone, drop_left]
    exact hpath false

end Match

def emptyQuotes : Bytes := textBytes "\"\""

section Read

variable {text : Bytes} {domain : List Bytes} {allowMacro : Bool} {err : Panic}

lemma parseAttribute_ne_panic {attrName : Bytes} (h : attrName ≠ []) :
    parseAttribute attrName ≠ .error (.panic err) := by
  cases attrName with
  | nil => contradiction
  | cons c rest =>
    simp only [parseAttribute]
    split_ifs <;> simp

variable {attrs : List Bytes}

lemma mapM_parseAttribute_ne_panic (h : ∀ a ∈ attrs, a ≠ []) : attrs.mapM parseAttribute ≠ .error (.panic err) := by
  induction attrs with
  | nil => simp
  | cons a attrs ih =>
    rw [mapM_cons, ne_eq, bind_eq_error_iff, not_or]
    refine ⟨parseAttribute_ne_panic (h a mem_cons_self), ?_⟩
    rintro ⟨attr, -, hrest⟩
    rcases bind_eq_error_iff.mp hrest with hrest | ⟨l, -, hl⟩
    · exact ih (fun b hb => h b (mem_cons_of_mem _ hb)) hrest
    · cases hl

lemma checkMacro_ne_panic (name : Bytes) : checkMacro name allowMacro ≠ .error (.panic err) := by
  rw [checkMacro]
  split_ifs <;> simp

lemma takeName_error {name : Bytes} {e : LineError} (h : takeName name attrs = .error e) : name = [] ∧ attrs = [] := by
  cases name <;> cases attrs <;> simp_all [takeName]

lemma ne_nil_of_takeName {name unquoted name' : Bytes}
    (h : takeName name (Trim.fields unquoted) = .ok (name', attrs)) : name' ≠ [] ∧ ∀ a ∈ attrs, a ≠ [] := by
  have hfields := Trim.ne_nil_of_mem_fields unquoted
  unfold takeName at h
  split_ifs at h with hname
  · cases hcons : Trim.fields unquoted with
    | nil =>
      rw [hcons] at h
      cases h
    | cons first rest =>
      rw [hcons] at h hfields
      cases h
      exact forall_mem_cons.mp hfields
  · cases h
    exact ⟨fun hnil => hname (length_eq_zero_iff.mpr hnil), hfields⟩

lemma quoted_eq_nil {str rest : Bytes} (h : quoted str = some ([], rest)) : str = quote :: rest := by
  fun_cases quoted str <;> simp_all [quoted]

lemma unquote_eq_nil {unquoted : Bytes} (h : unquote (Trim.trimSpace text) = .ok ([], unquoted))
    (hfields : Trim.fields unquoted = []) : Trim.trimSpace text = emptyQuotes := by
  have hpre := Trim.not_isPrefix_trimSpace text
  have hsuf := Trim.not_isSuffix_trimSpace text
  cases htext : Trim.trimSpace text with
  | nil =>
    rw [htext] at h
    cases h
  | cons c rest =>
    rw [htext] at h hpre hsuf
    have hself : unquoted ≠ c :: rest := by
      rintro rfl
      exact Trim.fields_cons_ne_nil hpre hfields
    simp only [unquote, Except.ok.injEq] at h
    split_ifs at h with hc
    · exact absurd (Prod.mk.inj h).2.symm hself
    · cases hquoted : quoted rest with
      | none =>
        rw [hquoted] at h
        exact absurd (Prod.mk.inj h).2.symm hself
      | some q =>
        rw [hquoted, Option.getD_some] at h
        subst h
        obtain rfl := quoted_eq_nil hquoted
        rcases Trim.fieldsFrom_eq_nil 0 unquoted hfields with hnil | ⟨t, ht, hend⟩
        · rw [drop_zero] at hnil
          rw [hnil, not_not.mp hc]
          rfl
        · exact absurd (hend.trans ((suffix_cons _ _).trans (suffix_cons _ _))) (hsuf t ht)

lemma parse_panics_iff :
    ParseAttributesLine text domain allowMacro = .error (.panic err) ↔ Trim.trimSpace text = emptyQuotes := by
  constructor
  · intro h
    rw [ParseAttributesLine] at h
    split_ifs at h with hblank
    obtain ⟨-, hlen⟩ := not_or.mp hblank
    rcases bind_eq_error_iff.mp h with h | ⟨⟨name, unquoted⟩, hname, h⟩
    · cases htext : Trim.trimSpace text with
      | nil => exact absurd (by rw [htext]; rfl) hlen
      | cons c rest =>
        rw [htext] at h
        cases h
    rcases bind_eq_error_iff.mp h with h | ⟨⟨name', attrs⟩, hname', h⟩
    · obtain ⟨rfl, hfields⟩ := takeName_error h
      refine unquote_eq_nil ?_ hfields
      cases hunquote : unquote (Trim.trimSpace text) with
      | error e =>
        rw [hunquote] at hname
        cases hname
      | ok q =>
        rw [hunquote] at hname
        cases hname
        rfl
    rcases bind_eq_error_iff.mp h with h | ⟨⟨isMacro, name⟩, -, h⟩
    · exact absurd h (checkMacro_ne_panic _)
    rcases bind_eq_error_iff.mp h with h | ⟨attributes, -, h⟩
    · exact absurd h (mapM_parseAttribute_ne_panic (ne_nil_of_takeName hname').2)
    · cases h
  · intro h
    cases err
    have hblank : ¬ (emptyQuotes.head? = some hash ∨ emptyQuotes.length = 0) := by decide +kernel
    have hunquote : unquote emptyQuotes = .ok ([], []) := by decide +kernel
    rw [ParseAttributesLine, h, if_neg hblank, hunquote]
    rfl

lemma parse_ok {m : MatchAttribute Pattern} {p : Pattern} (h : ParseAttributesLine text domain allowMacro = .ok m)
    (hp : m.pattern = some p) : m.name ≠ [] ∧ p = ParsePattern m.name domain := by
  rw [ParseAttributesLine] at h
  split_ifs at h with hblank
  · cases h
    cases hp
  obtain ⟨⟨name, unquoted⟩, -, h⟩ := bind_eq_ok_iff.mp h
  obtain ⟨⟨name', attrs⟩, hname', h⟩ := bind_eq_ok_iff.mp h
  obtain ⟨⟨isMacro, name''⟩, hmacro, h⟩ := bind_eq_ok_iff.mp h
  obtain ⟨attributes, -, h⟩ := bind_eq_ok_iff.mp h
  cases h
  cases isMacro with
  | true => cases hp
  | false =>
    cases hp
    have hsame : name'' = name' := by
      simp only [checkMacro] at hmacro
      split_ifs at hmacro <;> cases hmacro
      rfl
    exact ⟨hsame ▸ (ne_nil_of_takeName hname').1, rfl⟩

inductive Reached (domain : List Bytes) (allowMacro : Bool) : List Bytes → Bytes → Prop
  | here {text : Bytes} {lines : List Bytes} : Reached domain allowMacro (text :: lines) text
  | later {text next : Bytes} {lines : List Bytes} {m : MatchAttribute Pattern}
      (hok : ParseAttributesLine next domain allowMacro = .ok m) (h : Reached domain allowMacro lines text) :
      Reached domain allowMacro (next :: lines) text

variable {lines : List Bytes}

lemma exists_reached_cons {next : Bytes} {P : Bytes → Prop} :
    (∃ text, Reached domain allowMacro (next :: lines) text ∧ P text) ↔ P next ∨
      (∃ m, ParseAttributesLine next domain allowMacro = .ok m) ∧ ∃ text, Reached domain allowMacro lines text ∧ P text := by
  constructor
  · rintro ⟨text, _ | ⟨hok, h⟩, hP⟩
    · exact .inl hP
    · exact .inr ⟨⟨_, hok⟩, text, h, hP⟩
  · rintro (hP | ⟨⟨m, hok⟩, text, h, hP⟩)
    · exact ⟨next, .here, hP⟩
    · exact ⟨text, .later hok h, hP⟩

variable {attributes : List (MatchAttribute Pattern)}

lemma readLines_error : readLines domain allowMacro lines attributes = .error err ↔
      ∃ text, Reached domain allowMacro lines text ∧ Trim.trimSpace text = emptyQuotes := by
  induction lines generalizing attributes with
  | nil =>
    refine ⟨nofun, ?_⟩
    rintro ⟨_, ⟨⟩, -⟩
  | cons next lines ih =>
    rw [readLines, exists_reached_cons, ← @parse_panics_iff next domain allowMacro err]
    cases hparse : ParseAttributesLine next domain allowMacro with
    | error e =>
      cases e with
      | panic p => simp
      | macroNotAllowed | invalidAttributeName => simp
    | ok m => simpa using ih

lemma mem_readLines {before attributes : List (MatchAttribute Pattern)} {e : Option LineError}
    (h : readLines domain allowMacro lines before = .ok (attributes, e)) (m : MatchAttribute Pattern) :
    m ∈ attributes ↔ m ∈ before ∨
      ∃ text, Reached domain allowMacro lines text ∧ ParseAttributesLine text domain allowMacro = .ok m ∧ m.name ≠ [] := by
  induction lines generalizing before with
  | nil =>
    cases h
    refine ⟨.inl, ?_⟩
    rintro (h | ⟨_, ⟨⟩, -⟩)
    exact h
  | cons next lines ih =>
    rw [readLines] at h
    rw [exists_reached_cons]
    cases hparse : ParseAttributesLine next domain allowMacro with
    | error err =>
      rw [hparse] at h
      cases err with
      | panic p => cases h
      | macroNotAllowed | invalidAttributeName =>
        cases h
        simp
    | ok m' =>
      rw [hparse] at h
      have hnext : m ∈ (if m'.name.length = 0 then before else before ++ [m']) ↔
          m ∈ before ∨ m' = m ∧ m.name ≠ [] := by
        by_cases hname : m'.name.length = 0
        · have hnil := length_eq_zero_iff.mp hname
          grind
        · have hnil : m'.name ≠ [] := fun hnil => hname (by rw [hnil]; rfl)
          grind
      rw [ih h, hnext]
      simp [or_assoc]

lemma ReadAttributes_ok {content : Bytes} {e : Option ReadError}
    (h : ReadAttributes content domain allowMacro = .ok (attributes, e)) :
    ∃ e', readLines domain allowMacro (DotGit.scanLines content).1 [] = .ok (attributes, e') := by
  obtain ⟨⟨attributes', e'⟩, hlines, h⟩ := bind_eq_ok_iff.mp h
  cases h
  exact ⟨e', hlines⟩

/-- Neither reading a file nor matching a path against its patterns panics. -/
def Safe (content : Bytes) (domain : List Bytes) (allowMacro : Bool) (path : List Bytes) : Prop :=
  ∃ attributes err, ReadAttributes content domain allowMacro = .ok (attributes, err) ∧
    ∀ m ∈ attributes, ∀ p, m.pattern = some p → ∃ b, p.Match path = .ok b

/-- A file is safe for all paths exactly if no line that is read is two quotes, and no path leads to the last
slash of a pattern. -/
theorem safe_iff (content : Bytes) (domain : List Bytes) (allowMacro : Bool) :
    (∀ path, Safe content domain allowMacro path) ↔
      ∀ text, Reached domain allowMacro (DotGit.scanLines content).1 text → Trim.trimSpace text ≠ emptyQuotes ∧
        ∀ m, ParseAttributesLine text domain allowMacro = .ok m → m.pattern.isSome →
          ¬ Hazard false (m.name.splitOn slash) := by
  constructor
  · intro hsafe text hreached
    refine ⟨fun htext => ?_, fun m hok hsome hhazard => ?_⟩
    · obtain ⟨attributes, err, hread, -⟩ := hsafe []
      obtain ⟨e, hlines⟩ := ReadAttributes_ok hread
      exact nomatch hlines.symm.trans (readLines_error.mpr ⟨text, hreached, htext⟩ : _ = .error .indexOutOfRange)
    · obtain ⟨p, hp⟩ := Option.isSome_iff_exists.mp hsome
      obtain ⟨hname, rfl⟩ := parse_ok hok hp
      obtain ⟨path, hpath⟩ := (match_panics_iff hname).mpr hhazard
      obtain ⟨attributes, err, hread, hmatch⟩ := hsafe path
      obtain ⟨e, hlines⟩ := ReadAttributes_ok hread
      have hm : m ∈ attributes := (mem_readLines hlines m).mpr (.inr ⟨text, hreached, hok, hname⟩)
      obtain ⟨b, hb⟩ := hmatch m hm _ hp
      exact nomatch hb.symm.trans hpath
  · intro h path
    cases hlines : readLines domain allowMacro (DotGit.scanLines content).1 [] with
    | error err =>
      obtain ⟨text, hreached, htext⟩ := readLines_error.mp hlines
      exact absurd htext (h text hreached).1
    | ok r =>
      obtain ⟨attributes, e⟩ := r
      refine ⟨attributes, _, by rw [ReadAttributes, hlines]; rfl, fun m hm p hp => ?_⟩
      obtain hm | ⟨text, hreached, hok, hname⟩ := (mem_readLines hlines m).mp hm
      · exact absurd hm not_mem_nil
      cases hmatch : p.Match path with
      | ok b => exact ⟨b, rfl⟩
      | error err =>
        obtain ⟨-, rfl⟩ := parse_ok hok hp
        have hhazard := (match_panics_iff hname).mp ⟨path, hmatch⟩
        exact absurd hhazard ((h text hreached).2 m hok (by rw [hp]; rfl))

theorem not_safe_slash : ¬ Safe emptyQuotes [] false [textBytes "f"] ∧
      ¬ Safe (textBytes "a/ text") [] false [textBytes "a", textBytes "f"] := by
  have hread : ReadAttributes (textBytes "a/ text") [] false =
      .ok ([⟨textBytes "a/", some ⟨[], [textBytes "a", []]⟩, [⟨textBytes "text", .set, []⟩]⟩], none) := by
    decide +kernel
  refine ⟨?_, ?_⟩
  · rintro ⟨attributes, err, h, -⟩
    have hpanic : ReadAttributes emptyQuotes [] false = .error .indexOutOfRange := by decide +kernel
    exact nomatch h.symm.trans hpanic
  · rintro ⟨attributes, err, h, hmatch⟩
    cases Except.ok.inj (h.symm.trans hread)
    obtain ⟨b, hb⟩ := hmatch _ mem_cons_self _ rfl
    have hpanic : Pattern.Match ⟨[], [textBytes "a", []]⟩ [textBytes "a", textBytes "f"] =
        .error .indexOutOfRange := by decide +kernel
    exact nomatch hb.symm.trans hpanic

end Read

end GoGit.GitAttributes
