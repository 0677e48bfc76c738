import GoGit.Object

namespace GoGit.GitAttributes

open List

inductive AttributeState
  | unknown
  | set
  | unspecified
  | unset
  | setValue
  deriving DecidableEq

structure Attribute where
  name : Bytes
  state : AttributeState
  value : Bytes := []
  deriving DecidableEq

def Attribute.IsSet (a : Attribute) : Bool := a.state = .set

structure MatchAttribute (π : Type) where
  name : Bytes
  pattern : Option π
  attributes : List Attribute
  deriving DecidableEq

abbrev Results := List Attribute

def Results.put (results : Results) (a : Attribute) : Results := a :: results.filter (·.name ≠ a.name)

def Results.lookup (results : Results) (n : Bytes) : Option Attribute := results.find? (·.name = n)

section Matcher

variable {π : Type} (stack : List (MatchAttribute π))

def macroAttributes (n : Bytes) : List Attribute :=
  match stack.reverse.find? (fun m => m.pattern.isNone ∧ m.name = n) with
  | none => []
  | some m => m.attributes

def expandMacro (n : Bytes) (results : Results) : Results := (macroAttributes stack n).foldl Results.put results

def addAttribute (results : Results) (attr : Attribute) : Results :=
  Results.put (if attr.IsSet then expandMacro stack attr.name results else results) attr

variable (matches? : π → List Bytes → Bool) (path attributes : List Bytes)

def matchLoop : List (MatchAttribute π) → Results → Bool → Results × Bool
  | [], results, matched => (results, matched)
  | m :: rules, results, matched =>
    if attributes.length > 0 ∧ attributes.length = results.length then (results, matched)
    else
      match m.pattern with
      | none => matchLoop rules results matched
      | some pattern =>
        if matches? pattern path then matchLoop rules (m.attributes.foldl (addAttribute stack) results) true
        else matchLoop rules results matched

def Match : Results × Bool := matchLoop stack matches? path attributes stack.reverse [] false

end Matcher

section Spec

variable {π : Type} (stack : List (MatchAttribute π)) (matches? : π → List Bytes → Bool) (path : List Bytes)

/-- An attribute behind all that it stands for. The macros a macro sets are expanded, too, a macro inside of itself is
not; there are no more macros inside of each other than there are rules. -/
def expansion : ℕ → List Bytes → Attribute → List Attribute
  | 0, _, a => [a]
  | fuel + 1, inside, a =>
    (if a.IsSet ∧ a.name ∉ inside then (macroAttributes stack a.name).flatMap (expansion fuel (a.name :: inside))
      else []) ++ [a]

/-- The attributes of a rule with its macros expanded in their places. -/
def expand (m : MatchAttribute π) : List Attribute := m.attributes.flatMap (expansion stack stack.length [])

def matching (rules : List (MatchAttribute π)) : List (MatchAttribute π) :=
  rules.filter fun m => m.pattern.any (matches? · path)

def setBy (attributes : MatchAttribute π → List Attribute) (n : Bytes) (m : MatchAttribute π) : Option Attribute :=
  (attributes m).reverse.find? (·.name = n)

/-- The value set by the rule of the highest priority. -/
def winning (n : Bytes) : Option Attribute :=
  ((matching matches? path stack).filterMap (setBy (expand stack) n)).getLast?

/-- The attributes that are found have their winning values, and those that are asked for are found. -/
def Correct (attributes : List Bytes) (results : Results) : Prop :=
  (∀ n a, results.lookup n = some a → winning stack matches? path n = some a) ∧
    ∀ n, (attributes = [] ∨ n ∈ attributes) → winning stack matches? path n ≠ none → results.lookup n ≠ none

/-- What is written for a rule: its attributes, and those of the macros among them. -/
def written (m : MatchAttribute π) : List Attribute :=
  m.attributes.flatMap fun a => (if a.IsSet then macroAttributes stack a.name else []) ++ [a]

def distinct (rules : List (MatchAttribute π)) : ℕ :=
  (((matching matches? path rules).flatMap (written stack)).map Attribute.name).toFinset.card

/-- The rules that are looked at are the shortest end of the list for which as many attributes are written as are asked
for, or all of it. -/
structure LookedAt (attributes : List Bytes) (looked : List (MatchAttribute π)) : Prop where
  suffix : looked <:+ stack
  shortest : attributes ≠ [] → ∀ later, later <:+ looked → later ≠ looked →
    distinct stack matches? path later ≠ attributes.length
  enough : looked = stack ∨ attributes ≠ [] ∧ distinct stack matches? path looked = attributes.length

/-- What the first of some rules that match writes for an attribute. -/
def firstWritten (rules : List (MatchAttribute π)) (n : Bytes) : Option Attribute :=
  ((matching matches? path rules).filterMap (setBy (written stack) n)).head?

end Spec

section Put

variable {results : Results} {l : List Attribute} {n : Bytes}

lemma lookup_put (a : Attribute) : (results.put a).lookup n = if a.name = n then some a else results.lookup n := by
  rw [Results.put, Results.lookup, find?_cons]
  by_cases h : a.name = n
  · simp [h]
  · simp only [h, decide_false, if_false, Results.lookup, find?_filter]
    refine find?_congr fun b _ => ?_
    by_cases hb : b.name = n
    · simp [hb, Ne.symm h]
    · simp [hb]

structure Wrote (l : List Attribute) (results : Results) : Prop where
  lookup : ∀ n, results.lookup n = l.reverse.find? (·.name = n)
  nodup : (results.map Attribute.name).Nodup
  mem : ∀ n, n ∈ results.map Attribute.name ↔ n ∈ l.map Attribute.name

lemma Wrote.nil : Wrote [] [] := ⟨fun _ => rfl, nodup_nil, fun _ => Iff.rfl⟩

lemma Wrote.put (h : Wrote l results) (a : Attribute) : Wrote (l ++ [a]) (results.put a) where
  lookup n := by
    rw [lookup_put, h.lookup, reverse_append, reverse_singleton, singleton_append, find?_cons]
    by_cases hn : a.name = n
    · simp [hn]
    · simp [hn]
  nodup := by
    rw [Results.put, map_cons, nodup_cons]
    refine ⟨by simp, ?_⟩
    exact h.nodup.sublist (filter_sublist.map _)
  mem n := by
    rw [Results.put, map_cons, mem_cons, map_append, mem_append, ← h.mem n, map_singleton, mem_singleton]
    by_cases hn : n = a.name
    · simp [hn]
    · have hfilter : n ∈ (results.filter (·.name ≠ a.name)).map Attribute.name ↔ n ∈ results.map Attribute.name := by
        simp only [mem_map, mem_filter, decide_eq_true_eq]
        constructor
        · rintro ⟨b, ⟨hb, -⟩, rfl⟩
          exact ⟨b, hb, rfl⟩
        · rintro ⟨b, hb, rfl⟩
          exact ⟨b, ⟨hb, hn⟩, rfl⟩
      rw [hfilter, or_comm]

lemma Wrote.foldl (h : Wrote l results) (added : List Attribute) :
    Wrote (l ++ added) (added.foldl Results.put results) := by
  induction added generalizing l results with
  | nil => simpa using h
  | cons a added ih => simpa using ih (h.put a)

lemma Wrote.length (h : Wrote l results) : results.length = (l.map Attribute.name).toFinset.card := by
  have hsame : (l.map Attribute.name).toFinset = (results.map Attribute.name).toFinset := by
    ext n
    rw [mem_toFinset, mem_toFinset, h.mem]
  rw [hsame, toFinset_card_of_nodup h.nodup, length_map]

end Put

section Loop

variable {π : Type} {stack rules later looked looked' : List (MatchAttribute π)} {matches? : π → List Bytes → Bool}
  {path attributes : List Bytes} {results : Results} {matched : Bool}

lemma foldl_addAttribute (m : MatchAttribute π) (results : Results) :
    m.attributes.foldl (addAttribute stack) results = (written stack m).foldl Results.put results := by
  rw [written]
  induction m.attributes generalizing results with
  | nil => rfl
  | cons a attrs ih =>
    rw [foldl_cons, ih, flatMap_cons, foldl_append, foldl_append, addAttribute]
    cases a.IsSet <;> rfl

/-- The writes for some rules, the last rule first. -/
def writes (stack : List (MatchAttribute π)) (matches? : π → List Bytes → Bool) (path : List Bytes)
    (rules : List (MatchAttribute π)) : List Attribute :=
  (matching matches? path rules).reverse.flatMap (written stack)

lemma Wrote.distinct (h : Wrote (writes stack matches? path later) results) :
    results.length = distinct stack matches? path later := by
  rw [h.length, GitAttributes.distinct]
  congr 1
  ext n
  simp [writes]

lemma matchLoop_wrote (hstack : rules.reverse ++ later = stack)
    (hshort : attributes ≠ [] → ∀ end', end' <:+ later → end' ≠ later →
      distinct stack matches? path end' ≠ attributes.length)
    (h : Wrote (writes stack matches? path later) results) : ∃ looked, LookedAt stack matches? path attributes looked ∧
      Wrote (writes stack matches? path looked) (matchLoop stack matches? path attributes rules results matched).1 := by
  induction rules generalizing later results matched with
  | nil => exact ⟨later, ⟨⟨_, hstack⟩, hshort, .inl (by simpa using hstack)⟩, h⟩
  | cons m rules ih =>
    rw [matchLoop, h.distinct]
    split_ifs with hstop
    · exact ⟨later, ⟨⟨_, hstack⟩, hshort, .inr ⟨length_pos_iff.mp hstop.1, hstop.2.symm⟩⟩, h⟩
    · have hshort' : attributes ≠ [] → ∀ end', end' <:+ m :: later → end' ≠ m :: later →
          distinct stack matches? path end' ≠ attributes.length := by
        intro hne end' hend hproper
        have hend := (suffix_cons_iff.mp hend).resolve_left hproper
        by_cases heq : end' = later
        · exact heq ▸ fun hdistinct => hstop ⟨length_pos_iff.mpr hne, hdistinct.symm⟩
        · exact hshort hne end' hend heq
      have hstack' : rules.reverse ++ m :: later = stack := by simpa using hstack
      -- what a rule that does not match adds
      have hskip (hm : m.pattern.any (matches? · path) = false) : Wrote (writes stack matches? path (m :: later)) results := by
        simpa [writes, matching, hm] using h
      cases hpattern : m.pattern with
      | none => exact ih hstack' hshort' (hskip (by rw [hpattern]; rfl))
      | some pattern =>
        by_cases hmatch : matches? pattern path = true
        · simp only [hmatch, if_true]
          refine ih hstack' hshort' ?_
          rw [foldl_addAttribute]
          simpa [writes, matching, hpattern, hmatch] using h.foldl (written stack m)
        · simp only [hmatch]
          exact ih hstack' hshort' (hskip (by rw [hpattern]; simpa using hmatch))

lemma LookedAt.length_le (h : LookedAt stack matches? path attributes looked)
    (h' : LookedAt stack matches? path attributes looked') : looked.length ≤ looked'.length := by
  by_contra hlt
  push Not at hlt
  have hend := suffix_of_suffix_length_le h'.suffix h.suffix hlt.le
  have hne : looked' ≠ looked := fun heq => hlt.ne (heq ▸ rfl)
  rcases h'.enough with hall | ⟨hasked, hdistinct⟩
  · exact absurd (hall ▸ h.suffix).length_le hlt.not_ge
  · exact h.shortest hasked looked' hend hne hdistinct

lemma LookedAt.unique (h : LookedAt stack matches? path attributes looked)
    (h' : LookedAt stack matches? path attributes looked') : looked = looked' :=
  (suffix_of_suffix_length_le h.suffix h'.suffix (h.length_le h')).eq_of_length
    (le_antisymm (h.length_le h') (h'.length_le h))

lemma find_flatMap_reverse (sets : MatchAttribute π → List Attribute) (n : Bytes) (rules : List (MatchAttribute π)) :
    (rules.flatMap sets).reverse.find? (·.name = n) = (rules.filterMap (setBy sets n)).getLast? := by
  induction rules using List.reverseRecOn with
  | nil => rfl
  | append_singleton rules m ih =>
    rw [flatMap_append, flatMap_singleton, reverse_append, find?_append, filterMap_append, ih, ← setBy]
    cases hset : setBy sets n m with
    | none => simp [hset]
    | some a => simp [hset]

lemma lookup_match (stack : List (MatchAttribute π)) (matches? : π → List Bytes → Bool) (path attributes : List Bytes) :
    ∃ looked, LookedAt stack matches? path attributes looked ∧
      ∀ n, (Match stack matches? path attributes).1.lookup n = firstWritten stack matches? path looked n := by
  obtain ⟨looked, hlooked, hwrote⟩ := @matchLoop_wrote π stack stack.reverse [] matches? path attributes [] false
    (by simp) (fun _ end' hend hne => absurd (suffix_nil.mp hend) hne) .nil
  refine ⟨looked, hlooked, fun n => ?_⟩
  rw [Match, hwrote.lookup, writes, find_flatMap_reverse, filterMap_reverse, getLast?_reverse, firstWritten]

/-- The matcher finds the values of the highest priority exactly if the first rule that is looked at and writes an
attribute writes its winning value, and what is asked for and has one is written: a rule of lower priority is looked at
later and is written over the others, and a macro that a macro sets is not expanded. -/
theorem match_correct_iff (stack : List (MatchAttribute π)) (matches? : π → List Bytes → Bool)
    (path attributes : List Bytes) : Correct stack matches? path attributes (Match stack matches? path attributes).1 ↔
      ∀ looked, LookedAt stack matches? path attributes looked → ∀ n,
        (∀ a, firstWritten stack matches? path looked n = some a → winning stack matches? path n = some a) ∧
        ((attributes = [] ∨ n ∈ attributes) → winning stack matches? path n ≠ none →
          firstWritten stack matches? path looked n ≠ none) := by
  obtain ⟨looked, hlooked, hlookup⟩ := lookup_match stack matches? path attributes
  simp only [Correct, hlookup]
  constructor
  · rintro ⟨hvalues, hfound⟩ looked' hlooked' n
    rw [hlooked'.unique hlooked]
    exact ⟨hvalues n, hfound n⟩
  · intro h
    exact ⟨fun n => (h looked hlooked n).1, fun n => (h looked hlooked n).2⟩

def rule (attributes : List Attribute) : MatchAttribute Unit := ⟨textBytes "*", some (), attributes⟩

def macroOf (n : String) (attributes : List Attribute) : MatchAttribute Unit := ⟨textBytes n, none, attributes⟩

def set (n : String) : Attribute := ⟨textBytes n, .set, []⟩

def unset (n : String) : Attribute := ⟨textBytes n, .unset, []⟩

def nested : List (MatchAttribute Unit) := [macroOf "b" [unset "text"], macroOf "a" [set "b"], rule [set "a"]]

theorem match_not_correct :
    ¬ Correct [rule [set "text"], rule [unset "text"]] (fun _ _ => true) [textBytes "f"] []
      (Match [rule [set "text"], rule [unset "text"]] (fun _ _ => true) [textBytes "f"] []).1 ∧
    ¬ Correct [rule [set "a"], rule [set "b", set "c"]] (fun _ _ => true) [textBytes "f"] [textBytes "a", textBytes "b"]
      (Match [rule [set "a"], rule [set "b", set "c"]] (fun _ _ => true) [textBytes "f"]
        [textBytes "a", textBytes "b"]).1 ∧
    ¬ Correct nested (fun _ _ => true) [textBytes "f"] [textBytes "text"]
      (Match nested (fun _ _ => true) [textBytes "f"] [textBytes "text"]).1 := by
  refine ⟨fun h => ?_, fun h => ?_, fun h => ?_⟩
  · exact absurd (h.1 (textBytes "text") (set "text") (by decide +kernel)) (by decide +kernel)
  · exact absurd (h.2 (textBytes "a") (.inr mem_cons_self) (by decide +kernel)) (by decide +kernel)
  · exact absurd (h.2 (textBytes "text") (.inr mem_cons_self) (by decide +kernel)) (by decide +kernel)

end Loop

end GoGit.GitAttributes
