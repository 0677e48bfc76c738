import Mathlib

namespace PathPattern

open List

variable {σ α : Type*} {ok : σ → α → Bool} {segs : List (Option σ)} {path pre post : List α} {s : σ} {c : α}
  {traverse : Bool}

inductive Matches (ok : σ → α → Bool) : List (Option σ) → List α → Prop
  | nil : Matches ok [] []
  | name {s : σ} {segs : List (Option σ)} {c : α} {path : List α} (h : ok s c = true) (hrest : Matches ok segs path) :
      Matches ok (some s :: segs) (c :: path)
  | inside (c : α) (path : List α) : Matches ok [none] (c :: path)
  | zero {segs : List (Option σ)} {path : List α} (hne : segs ≠ []) (hrest : Matches ok segs path) :
      Matches ok (none :: segs) path
  | more {segs : List (Option σ)} {path : List α} (hne : segs ≠ []) (c : α) (hrest : Matches ok (none :: segs) path) :
      Matches ok (none :: segs) (c :: path)

lemma Matches.skip (hne : segs ≠ []) (h : Matches ok (none :: segs) path) (skipped : List α) :
    Matches ok (none :: segs) (skipped ++ path) := by
  induction skipped with
  | nil => exact h
  | cons c skipped ih => exact .more hne c ih

lemma matches_some (h : Matches ok (some s :: segs) path) :
    ∃ c rest, path = c :: rest ∧ ok s c = true ∧ Matches ok segs rest := by
  cases h with
  | name hok hrest => exact ⟨_, _, rfl, hok, hrest⟩

lemma matches_none (hne : segs ≠ []) (h : Matches ok (none :: segs) path) :
    ∃ skipped rest, path = skipped ++ rest ∧ Matches ok segs rest := by
  induction path with
  | nil =>
    cases h with
    | zero _ hrest => exact ⟨[], [], rfl, hrest⟩
  | cons c path ih =>
    cases h with
    | inside => exact absurd rfl hne
    | zero _ hrest => exact ⟨[], _, rfl, hrest⟩
    | more _ _ hrest =>
      obtain ⟨skipped, rest, rfl, hmatch⟩ := ih hrest
      exact ⟨c :: skipped, rest, rfl, hmatch⟩

lemma matches_inside (h : Matches ok [none] path) : path ≠ [] := by
  cases h with
  | inside => simp
  | zero hne => exact absurd rfl hne
  | more => simp

lemma matches_nil (h : Matches ok segs []) : segs = [] := by
  induction segs with
  | nil => rfl
  | cons seg segs ih =>
    cases h with
    | zero hne hrest => exact absurd (ih hrest) hne

lemma Matches.append_left (h : Matches ok (none :: segs) path) (skipped : List α) :
    Matches ok (none :: segs) (skipped ++ path) := by
  by_cases hne : segs = []
  · subst hne
    obtain ⟨c, rest, hpath⟩ := exists_cons_of_ne_nil (matches_inside h)
    cases skipped with
    | nil => exact h
    | cons d skipped => exact .inside d _
  · exact h.skip hne skipped

/-- Goes on from the first component that matches the name behind directories, and gives what is left of the path.
The second argument says whether directories come first. -/
def first (ok : σ → α → Bool) : List (Option σ) → Bool → List α → Option (List α)
  | [], _, path => some path
  | [none], _, path => some path
  | none :: seg :: segs, _, path => first ok (seg :: segs) true path
  | some _ :: _, false, [] => none
  | some s :: segs, false, c :: path => if ok s c then first ok segs false path else none
  | some s :: segs, true, path =>
    match path.dropWhile fun c => !ok s c with
    | [] => none
    | _ :: rest => first ok segs false rest

variable {rest : List α}

lemma ok_of_dropWhile (h : path.dropWhile (fun c => !ok s c) = c :: rest) : ok s c = true := by
  have hhead := head?_dropWhile_not (fun c => !ok s c) path
  simpa [h] using hhead

def under (traverse : Bool) (segs : List (Option σ)) : List (Option σ) := if traverse then none :: segs else segs

def Open (segs : List (Option σ)) : Prop := segs.getLast? = some none

lemma open_cons {seg : Option σ} (hne : segs ≠ []) : Open (seg :: segs) ↔ Open segs := by
  obtain ⟨seg', segs, rfl⟩ := exists_cons_of_ne_nil hne
  rw [Open, Open, getLast?_cons_cons]

lemma open_some : Open (some s :: segs) ↔ Open segs := by
  by_cases hne : segs = []
  · simp [Open, hne]
  · exact open_cons hne

lemma first_sound (ht : traverse = true → segs ≠ []) (h : first ok segs traverse path = some rest) :
    ∃ pre, path = pre ++ rest ∧ (¬ Open segs → Matches ok (under traverse segs) pre) ∧
      (Open segs → ∀ r, r ≠ [] → Matches ok (under traverse segs) (pre ++ r)) := by
  fun_induction first ok segs traverse path with
  | case1 traverse path =>
    cases h
    cases traverse with
    | true => exact absurd rfl (ht rfl)
    | false => exact ⟨[], rfl, fun _ => .nil, fun hopen => by simp [Open] at hopen⟩
  | case2 traverse path =>
    cases h
    refine ⟨[], rfl, fun hnot => absurd rfl hnot, fun _ r hr => ?_⟩
    obtain ⟨c, r, rfl⟩ := exists_cons_of_ne_nil hr
    cases traverse with
    | true => exact .zero (by simp) (.inside c r)
    | false => exact .inside c r
  | case3 seg segs traverse path ih =>
    obtain ⟨pre, hpath, hclosed, hopen⟩ := ih (by simp) h
    rw [open_cons (by simp)]
    have hunder : ∀ p, Matches ok (none :: seg :: segs) p → Matches ok (under traverse (none :: seg :: segs)) p := by
      intro p hp
      cases traverse with
      | true => exact .zero (by simp) hp
      | false => exact hp
    exact ⟨pre, hpath, fun hnot => hunder _ (hclosed hnot), fun ho r hr => hunder _ (hopen ho r hr)⟩
  | case4 | case6 | case7 => cases h
  | case5 s segs c path hok ih =>
    obtain ⟨pre, hpath, hclosed, hopen⟩ := ih (by simp) h
    rw [open_some]
    exact ⟨c :: pre, by rw [hpath, cons_append], fun hnot => .name hok (hclosed hnot),
      fun ho r hr => .name hok (hopen ho r hr)⟩
  | case8 s segs path c rest' hdrop ih =>
    obtain ⟨pre, hpath, hclosed, hopen⟩ := ih (by simp) h
    have hok := ok_of_dropWhile hdrop
    have hsplit : path = path.takeWhile (fun c => !ok s c) ++ c :: rest' := by
      rw [← hdrop, takeWhile_append_dropWhile]
    have hunder : ∀ p, Matches ok segs p →
        Matches ok (none :: some s :: segs) (path.takeWhile (fun c => !ok s c) ++ c :: p) := fun p hp =>
      Matches.skip (by simp) (.zero (by simp) (.name hok hp)) _
    rw [open_some]
    refine ⟨path.takeWhile (fun c => !ok s c) ++ c :: pre, ?_, fun hnot => hunder _ (hclosed hnot), fun ho r hr => ?_⟩
    · rw [append_assoc, cons_append, ← hpath, ← hsplit]
    · rw [append_assoc, cons_append]
      exact hunder _ (hopen ho r hr)

lemma first_of_all_none (h : segs.all Option.isNone = true) : first ok segs traverse path = some path := by
  fun_induction first ok segs traverse path with
  | case1 => rfl
  | case2 => rfl
  | case3 seg segs traverse path ih =>
    rw [all_cons, Bool.and_eq_true] at h
    exact ih h.2
  | case4 | case5 | case6 | case7 | case8 => simp at h

lemma first_nil (h : segs.all Option.isNone = false) : first ok segs traverse [] = none := by
  induction segs generalizing traverse with
  | nil => simp at h
  | cons seg segs ih =>
    cases seg with
    | none =>
      cases segs with
      | nil => simp at h
      | cons seg' segs => exact ih (by simpa using h)
    | some s => cases traverse <;> simp [first]

def lastName (segs : List (Option σ)) : Option σ := segs.reduceOption.getLast?

lemma lastName_some_of_all_none (h : segs.all Option.isNone = true) : lastName (some s :: segs) = some s := by
  have hnil : segs.reduceOption = [] := by
    rw [List.reduceOption, filterMap_eq_nil_iff]
    intro seg hseg
    exact Option.isNone_iff_eq_none.mp (all_eq_true.mp h seg hseg)
  rw [lastName, reduceOption_cons_of_some, hnil]
  rfl

lemma lastName_some {u : σ} (h : lastName segs = some u) : lastName (some s :: segs) = some u := by
  rw [lastName] at h ⊢
  rw [reduceOption_cons_of_some, getLast?_cons, h]
  rfl

lemma first_eq_nil (hne : path ≠ []) (h : first ok segs traverse path = some []) :
    ∃ u c, lastName segs = some u ∧ path.getLast? = some c ∧ ok u c = true := by
  have hname : ∀ {s : σ} {segs : List (Option σ)} {c : α} {rest : List α}, ok s c = true →
      first ok segs false rest = some [] →
      (rest ≠ [] → ∃ u d, lastName segs = some u ∧ rest.getLast? = some d ∧ ok u d = true) →
      ∃ u d, lastName (some s :: segs) = some u ∧ (c :: rest).getLast? = some d ∧ ok u d = true := by
    intro s segs c rest hok hfirst ih
    by_cases hrest : rest = []
    · subst hrest
      have hall : segs.all Option.isNone = true := by
        cases hall : segs.all Option.isNone with
        | true => rfl
        | false =>
          rw [first_nil hall] at hfirst
          cases hfirst
      exact ⟨s, c, lastName_some_of_all_none hall, rfl, hok⟩
    · obtain ⟨u, d, hu, hd, hmatch⟩ := ih hrest
      refine ⟨u, d, lastName_some hu, ?_, hmatch⟩
      rw [getLast?_cons, hd]
      rfl
  fun_induction first ok segs traverse path with
  | case1 | case2 => cases h; exact absurd rfl hne
  | case3 seg segs traverse path ih => exact ih hne h
  | case4 | case6 | case7 => cases h
  | case5 s segs c path hok ih => exact hname hok h fun hrest => ih hrest h
  | case8 s segs path c rest' hdrop ih =>
    have hok := ok_of_dropWhile hdrop
    obtain ⟨u, d, hu, hd, hmatch⟩ := hname hok h fun hrest => ih hrest h
    refine ⟨u, d, hu, ?_, hmatch⟩
    obtain ⟨front, hfront⟩ := hdrop ▸ dropWhile_suffix (fun c => !ok s c) (l := path)
    rw [← hfront, getLast?_append, hd]
    rfl

/-- A name behind directories and before a further name is that of one component at most. -/
def Single (ok : σ → α → Bool) (segs : List (Option σ)) (path : List α) : Prop :=
  ∀ s u, [none, some s, some u] <:+: segs → path.countP (ok s) ≤ 1

lemma Single.mono {segs' : List (Option σ)} {path' : List α} (h : Single ok segs path) (hsegs : segs' <:+: segs)
    (hpath : path' <:+ path) : Single ok segs' path' := fun s u hpart =>
  (hpath.sublist.countP_le).trans (h s u (hpart.trans hsegs))

lemma first_complete (ht : traverse = true → segs ≠ [])
    (hsingle : Single ok (under traverse segs) (pre ++ post)) (h : Matches ok (under traverse segs) pre) :
    ∃ rest, first ok segs traverse (pre ++ post) = some rest ∧ post <:+ rest ∧ (Open segs → post ≠ rest) := by
  induction segs generalizing traverse pre with
  | nil =>
    cases traverse with
    | true => exact absurd rfl (ht rfl)
    | false =>
      cases h
      exact ⟨post, by simp [first], suffix_rfl, fun ho => by simp [Open] at ho⟩
  | cons seg segs ih =>
    cases seg with
    | none =>
      cases segs with
      | nil =>
        have hne : pre ≠ [] := by
          cases traverse with
          | true =>
            obtain ⟨skipped, rest, rfl, hrest⟩ := matches_none (by simp) h
            simp [matches_inside hrest]
          | false => exact matches_inside h
        exact ⟨pre ++ post, by simp [first], suffix_append _ _, fun _ heq => hne (self_eq_append_left.mp heq)⟩
      | cons seg' segs =>
        have hmatch : Matches ok (none :: seg' :: segs) pre := by
          cases traverse with
          | true =>
            obtain ⟨skipped, rest, rfl, hrest⟩ := matches_none (by simp) h
            exact hrest.skip (by simp) skipped
          | false => exact h
        rw [first, open_cons (by simp)]
        refine ih (by simp) (hsingle.mono ?_ suffix_rfl) hmatch
        cases traverse with
        | true => exact infix_cons infix_rfl
        | false => exact infix_rfl
    | some s =>
      rw [open_some]
      cases traverse with
      | false =>
        obtain ⟨c, rest, rfl, hok, hmatch⟩ := matches_some h
        rw [cons_append, first, if_pos hok]
        exact ih (by simp) (hsingle.mono (infix_cons infix_rfl) (suffix_cons _ _)) hmatch
      | true =>
        obtain ⟨skipped, rest, rfl, hrest⟩ := matches_none (by simp) h
        obtain ⟨c, rest, rfl, hok, hmatch⟩ := matches_some hrest
        rw [append_assoc, cons_append] at hsingle ⊢
        have hsub : segs <:+: none :: some s :: segs := infix_cons (infix_cons infix_rfl)
        rw [first, dropWhile_append]
        cases hdrop : skipped.dropWhile (fun c => !ok s c) with
        | nil =>
          simp only [isEmpty_nil, if_true, dropWhile_cons, hok, Bool.not_true, Bool.false_eq_true, if_false]
          refine ih (by simp) (hsingle.mono hsub ?_) hmatch
          exact (suffix_cons _ _).trans (suffix_append _ _)
        | cons d mid =>
          -- an earlier component has the name too, so that directories come next
          simp only [isEmpty_cons, Bool.false_eq_true, if_false, cons_append]
          have hd := ok_of_dropWhile hdrop
          have hsuffix : d :: mid <:+ skipped := hdrop ▸ dropWhile_suffix _
          have hmid : mid ++ c :: (rest ++ post) <:+ skipped ++ c :: (rest ++ post) := by
            obtain ⟨front, hfront⟩ := (suffix_cons d mid).trans hsuffix
            exact ⟨front, by rw [← hfront, append_assoc]⟩
          cases segs with
          | nil =>
            cases hmatch
            refine ⟨_, rfl, ?_, fun ho => by simp [Open] at ho⟩
            exact (suffix_cons c post).trans (suffix_append _ _)
          | cons seg segs =>
            cases seg with
            | none =>
              have hbelow : Matches ok (none :: segs) (mid ++ c :: rest) := by
                have := hmatch.append_left (mid ++ [c])
                rwa [append_assoc, singleton_append] at this
              have hnext := @ih (mid ++ c :: rest) false (by simp)
              rw [append_assoc, cons_append] at hnext
              exact hnext (hsingle.mono hsub hmid) hbelow
            | some u =>
              have hcount := hsingle s u ⟨[], segs, rfl⟩
              rw [countP_append, countP_cons_of_pos hok] at hcount
              have hpos : 0 < skipped.countP (ok s) :=
                countP_pos_iff.mpr ⟨d, hsuffix.mem mem_cons_self, hd⟩
              omega

end PathPattern
