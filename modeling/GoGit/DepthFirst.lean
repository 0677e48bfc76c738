import GoGit.Search

/-! The vertices of a graph in the order in which a depth-first search meets them. An edge may be marked: what is met
along it is not searched. -/
namespace DepthFirst

open List

section Marked

variable {V : Type*} [DecidableEq V] (next : V → List (V × Bool))

/-- What is met from a vertex on, the latest first, each with the mark of the edge it is met along. The
first argument bounds the depth. -/
def meet : ℕ → List (V × Bool) → V × Bool → List (V × Bool)
  | 0, met, _ => met
  | n + 1, met, m =>
    if m.1 ∈ met.map Prod.fst then met
    else if m.2 then m :: met
    else (next m.1).foldl (meet n) (m :: met)

structure Meets (met met' : List (V × Bool)) (ms : List (V × Bool)) : Prop where
  suffix : met <:+ met'
  found : ∀ m ∈ ms, m.1 ∈ met'.map Prod.fst
  closed : ∀ x ∈ met', x ∉ met → x.2 = false → ∀ e ∈ next x.1, e.1 ∈ met'.map Prod.fst
  source : ∀ x ∈ met', x ∉ met → x ∈ ms ∨ ∃ y ∈ met', y.2 = false ∧ x ∈ next y.1

variable {next} {met met' met'' ms : List (V × Bool)} {m : V × Bool} {vs : List V} {n : ℕ}

omit [DecidableEq V] in
lemma Meets.nil : Meets next met met [] :=
  ⟨suffix_rfl, nofun, fun _ hx hnew => absurd hx hnew, fun _ hx hnew => absurd hx hnew⟩

lemma Meets.cons (h : Meets next met met' [m]) (h' : Meets next met' met'' ms) : Meets next met met'' (m :: ms) where
  suffix := h.suffix.trans h'.suffix
  found := by
    intro k hk
    rcases mem_cons.mp hk with rfl | hk
    · exact (h'.suffix.map Prod.fst).subset (h.found k mem_cons_self)
    · exact h'.found k hk
  closed := by
    intro x hx hnew hmark e he
    by_cases hmem : x ∈ met'
    · exact (h'.suffix.map Prod.fst).subset (h.closed x hmem hnew hmark e he)
    · exact h'.closed x hx hmem hmark e he
  source := by
    intro x hx hnew
    by_cases hmem : x ∈ met'
    · rcases h.source x hmem hnew with hx | ⟨y, hy, hmark, hnext⟩
      · exact .inl (mem_cons.mpr (.inl (mem_singleton.mp hx)))
      · exact .inr ⟨y, h'.suffix.subset hy, hmark, hnext⟩
    · rcases h'.source x hx hmem with hx | hy
      · exact .inl (mem_cons_of_mem _ hx)
      · exact .inr hy

lemma Meets.search (h : Meets next (m :: met) met' (next m.1)) (hmark : m.2 = false) : Meets next met met' [m] where
  suffix := (suffix_cons m met).trans h.suffix
  found := by
    intro k hk
    rw [mem_singleton.mp hk]
    exact mem_map_of_mem (h.suffix.subset mem_cons_self)
  closed := by
    intro x hx hnew hx' e he
    by_cases hxm : x = m
    · exact h.found e (hxm ▸ he)
    · exact h.closed x hx (by simp [hxm, hnew]) hx' e he
  source := by
    intro x hx hnew
    by_cases hxm : x = m
    · exact .inl (mem_singleton.mpr hxm)
    · rcases h.source x hx (by simp [hxm, hnew]) with hbelow | hy
      · exact .inr ⟨m, h.suffix.subset mem_cons_self, hmark, hbelow⟩
      · exact .inr hy

def unmet (vs : List V) (met : List (V × Bool)) : ℕ := Search.weight (fun _ => 1) vs (met.map Prod.fst)

lemma unmet_le (h : met <:+ met') : unmet vs met' ≤ unmet vs met :=
  Search.weight_anti fun _ hb => (h.map Prod.fst).subset hb

lemma unmet_cons_lt (hv : m.1 ∈ vs) (hnew : m.1 ∉ met.map Prod.fst) : unmet vs (m :: met) < unmet vs met :=
  Search.weight_cons_add_le (f := fun _ => 1) hv hnew

lemma unmet_nil_le : unmet vs [] ≤ vs.length := by
  simp [unmet, Search.weight]

lemma Meets.foldl (h : ∀ met, unmet vs met < n → ∀ m, Meets next met (meet next n met m) [m])
    (hlt : unmet vs met < n) (es : List (V × Bool)) : Meets next met (es.foldl (meet next n) met) es := by
  induction es generalizing met with
  | nil => exact .nil
  | cons e es ih =>
    have hhead := h met hlt e
    exact hhead.cons (ih (lt_of_le_of_lt (unmet_le hhead.suffix) hlt))

lemma meets_meet (hvs : ∀ v, next v ≠ [] → v ∈ vs) (h : unmet vs met < n) (m : V × Bool) :
    Meets next met (meet next n met m) [m] := by
  induction n generalizing met m with
  | zero => exact absurd h (Nat.not_lt_zero _)
  | succ n ih =>
    rw [meet]
    split_ifs with hmem hmark
    · exact ⟨suffix_rfl, fun k hk => by rwa [mem_singleton.mp hk], fun _ hx hnew => absurd hx hnew,
        fun _ hx hnew => absurd hx hnew⟩
    · have honly : ∀ x ∈ m :: met, x ∉ met → x = m := fun x hx hnew => (mem_cons.mp hx).resolve_right hnew
      refine ⟨suffix_cons m met, fun k hk => by simp [mem_singleton.mp hk], ?_, ?_⟩
      · intro x hx hnew hx'
        rw [honly x hx hnew, hmark] at hx'
        cases hx'
      · exact fun x hx hnew => .inl (mem_singleton.mpr (honly x hx hnew))
    · refine Meets.search ?_ (by simpa using hmark)
      cases hnext : next m.1 with
      | nil => exact .nil
      | cons e es =>
        rw [← hnext]
        refine Meets.foldl (fun met hlt m => ih hlt m) ?_ _
        have hlt : unmet vs (m :: met) < unmet vs met := unmet_cons_lt (hvs m.1 (by simp [hnext])) hmem
        omega

lemma meets_foldl (hvs : ∀ v, next v ≠ [] → v ∈ vs) (hlt : unmet vs met < n) (es : List (V × Bool)) :
    Meets next met (es.foldl (meet next n) met) es :=
  .foldl (fun _ h m => meets_meet hvs h m) hlt es

end Marked

section Preorder

/-! A search that goes through what is pending from the front and puts what a vertex leads to before the rest. Some
vertices cannot be read, and the search ends in an error when it comes to one. -/

open Relation

variable {V : Type*} {next : V → List V} {miss : V → Prop} {seen pending skipped rest : List V}
  {root goal c : V}

variable (next) in
/-- The first vertex leads to the second one. -/
abbrev Leads : V → V → Prop := ReflTransGen fun a b => b ∈ next a

variable (next) in
/-- What a vertex leads to and has not been seen. -/
abbrev unseen [DecidableEq V] (c : V) (seen : List V) : List V := (next c).filter (· ∉ c :: seen)

lemma not_mem_of_mem_unseen [DecidableEq V] {q : V} (hq : q ∈ unseen next c seen) : q ∉ c :: seen := by
  simpa using (mem_filter.mp hq).2

variable (next miss) in
/-- Everything that the vertex leads to can be read. -/
def Whole (v : V) : Prop := ∀ x, Leads next v x → ¬ miss x

variable (next miss) in
/-- An edge such that whatever comes before it is whole. -/
def Clear (a b : V) : Prop := ∃ first rest, next a = first ++ b :: rest ∧ ∀ x ∈ first, Whole next miss x

lemma whole_iff {v : V} : Whole next miss v ↔ ¬ miss v ∧ ∀ x ∈ next v, Whole next miss x := by
  refine ⟨fun h => ⟨h v .refl, fun x hx y hy => h y (.head hx hy)⟩, fun ⟨hv, hnext⟩ y hy => ?_⟩
  rcases hy.cases_head with rfl | ⟨x, hx, hxy⟩
  · exact hv
  · exact hnext x hx y hxy

/-- The first vertex that is not skipped comes before any other one that is not. -/
lemma first_of_split {first rest' : List V} {v : V} (h : skipped ++ c :: rest = first ++ v :: rest') (hv : v ∉ skipped) :
    (first = skipped ∧ v = c) ∨ ∃ more, first = skipped ++ c :: more ∧ rest = more ++ v :: rest' := by
  rcases append_eq_append_iff.mp h with ⟨more, rfl, hmore⟩ | ⟨more, rfl, hmore⟩
  · rcases more with _ | ⟨d, more⟩
    · exact .inl ⟨by simp, (cons.inj hmore).1.symm⟩
    · obtain ⟨rfl, rfl⟩ := cons.inj hmore
      exact .inr ⟨more, rfl, rfl⟩
  · rcases more with _ | ⟨d, more⟩
    · exact .inl ⟨by simp, (cons.inj hmore).1⟩
    · obtain ⟨rfl, -⟩ := cons.inj hmore
      exact absurd (by simp) hv

/-- A path either avoids a vertex, or ends there, or goes on from there and avoids it. -/
lemma avoids_or {r : V → V → Prop} {a b : V} (h : ReflTransGen r a b) (c : V) :
    (a ≠ c ∧ ReflTransGen (fun a b => r a b ∧ b ≠ c) a b) ∨ b = c ∨
      ∃ p, r c p ∧ p ≠ c ∧ ReflTransGen (fun a b => r a b ∧ b ≠ c) p b := by
  induction h using ReflTransGen.head_induction_on with
  | refl =>
    by_cases hb : b = c
    · exact .inr (.inl hb)
    · exact .inl ⟨hb, .refl⟩
  | @head a a' hstep _ ih =>
    rcases ih with ⟨ha', hpath⟩ | hrest
    · by_cases ha : a = c
      · exact .inr (.inr ⟨a', ha ▸ hstep, ha', hpath⟩)
      · exact .inl ⟨ha, hpath.head ⟨hstep, ha'⟩⟩
    · exact .inr hrest

variable (next miss) in
/-- Behind vertices that are whole there is one from which clear edges lead to the goal, past nothing that was seen. -/
def Awaits (goal : V) (seen pending : List V) : Prop :=
  ∃ first v rest, pending = first ++ v :: rest ∧ (∀ x ∈ first, Whole next miss x) ∧ v ∉ seen ∧
    ReflTransGen (fun a b => Clear next miss a b ∧ b ∉ seen) v goal

lemma Awaits.step [DecidableEq V] (h : Awaits next miss goal seen (skipped ++ c :: rest))
    (hskipped : ∀ x ∈ skipped, x ∈ seen) : c = goal ∨ Awaits next miss goal (c :: seen) (unseen next c seen ++ rest) := by
  obtain ⟨first, v, rest', hsplit, hfirst, hv, hpath⟩ := h
  have hmono : ∀ a b, (Clear next miss a b ∧ b ∉ seen) ∧ b ≠ c → Clear next miss a b ∧ b ∉ c :: seen :=
    fun a b hab => ⟨hab.1.1, by simp [hab.1.2, hab.2]⟩
  -- the goal is reached from `c`, over one of its clear edges
  have hfrom : ∀ p, Clear next miss c p ∧ p ∉ seen → p ≠ c →
      ReflTransGen (fun a b => (Clear next miss a b ∧ b ∉ seen) ∧ b ≠ c) p goal →
      Awaits next miss goal (c :: seen) (unseen next c seen ++ rest) := by
    rintro p ⟨⟨before, after, hnext, hbefore⟩, hp⟩ hne hgoal
    refine ⟨before.filter (· ∉ c :: seen), p, after.filter (· ∉ c :: seen) ++ rest, ?_,
      fun x hx => hbefore x (mem_filter.mp hx).1, by simp [hp, hne], ReflTransGen.mono hmono _ _ hgoal⟩
    simp [unseen, hnext, hp, hne]
  rcases avoids_or hpath c with ⟨hvc, havoid⟩ | hgoal | ⟨p, hp, hne, hpath⟩
  · rcases first_of_split hsplit fun hin => hv (hskipped v hin) with ⟨-, rfl⟩ | ⟨more, rfl, rfl⟩
    · exact absurd rfl hvc
    · have hc : Whole next miss c := hfirst c (by simp)
      refine .inr ⟨unseen next c seen ++ more, v, rest', by simp, ?_, by simp [hv, hvc],
        ReflTransGen.mono hmono _ _ havoid⟩
      refine forall_mem_append.mpr ⟨fun x hx => (whole_iff.mp hc).2 x (mem_filter.mp hx).1, fun x hx => ?_⟩
      exact hfirst x (by simp [hx])
  · exact .inl hgoal.symm
  · exact .inr (hfrom p hp hne hpath)

lemma Awaits.not_miss (h : Awaits next miss goal seen (skipped ++ c :: rest)) (hskipped : ∀ x ∈ skipped, x ∈ seen)
    (hleaf : ∀ x, miss x → next x = []) (hgoal : ¬ miss goal) : ¬ miss c := by
  obtain ⟨first, v, rest', hsplit, hfirst, hv, hpath⟩ := h
  rcases first_of_split hsplit fun hin => hv (hskipped v hin) with ⟨-, rfl⟩ | ⟨more, rfl, rfl⟩
  · rcases hpath.cases_head with rfl | ⟨p, ⟨⟨before, after, hnext, -⟩, -⟩, -⟩
    · exact hgoal
    · exact fun hmiss => by simp [hleaf v hmiss] at hnext
  · exact hfirst c (by simp) c .refl

variable (next miss) in
/-- What is pending behind whole vertices is reached over clear edges; and a vertex that was seen and is not whole leads
to the first one that is pending and not whole. -/
structure Traced (root : V) (seen pending : List V) : Prop where
  path : ∀ first x rest, pending = first ++ x :: rest → (∀ z ∈ first, z ∈ seen ∨ Whole next miss z) →
    ReflTransGen (Clear next miss) root x
  lost : ∀ y ∈ seen, ¬ Whole next miss y → ∃ first x rest, pending = first ++ x :: rest ∧ x ∉ seen ∧
    ¬ Whole next miss x ∧ (∀ z ∈ first, z ∈ seen ∨ Whole next miss z) ∧ Leads next y x

lemma Traced.start (hseen : ∀ y ∈ seen, Whole next miss y) : Traced next miss root seen [root] where
  path := by
    intro first x rest hsplit _
    rcases first with _ | ⟨y, first⟩
    · exact (cons.inj hsplit).1 ▸ .refl
    · simp at hsplit
  lost := fun y hy hnot => absurd (hseen y hy) hnot

section

variable (h : Traced next miss root seen (skipped ++ c :: rest)) (hskipped : ∀ x ∈ skipped, x ∈ seen) (hc : c ∉ seen)

include h hskipped

lemma Traced.path_front : ReflTransGen (Clear next miss) root c :=
  h.path skipped c rest rfl fun z hz => .inl (hskipped z hz)

include hc

/-- A vertex that was seen and is not whole leads to the one at the front, unless that one is whole. -/
lemma Traced.lost_front {y : V} (hy : y ∈ seen) (hnot : ¬ Whole next miss y) (hw : ¬ Whole next miss c) :
    Leads next y c := by
  obtain ⟨first, x, rest', hsplit, hx, -, hfirst, hpath⟩ := h.lost y hy hnot
  rcases first_of_split hsplit fun hin => hx (hskipped x hin) with ⟨-, rfl⟩ | ⟨more, rfl, -⟩
  · exact hpath
  · exact absurd (hfirst c (by simp)) (not_or.mpr ⟨hc, hw⟩)

variable (hcycle : ¬ TransGen (fun a b => b ∈ next a) c c)

include hcycle

lemma Traced.whole_of_seen {q : V} (hq : q ∈ next c) (hseen : q ∈ c :: seen) : Whole next miss q := by
  rcases mem_cons.mp hseen with rfl | hseen
  · exact absurd (.single hq) hcycle
  · by_contra hnot
    by_cases hw : Whole next miss c
    · exact hnot ((whole_iff.mp hw).2 q hq)
    · exact hcycle (.head' hq (h.lost_front hskipped hc hseen hnot hw))

variable [DecidableEq V] (hread : ¬ miss c)

include hread

lemma Traced.whole_front (hall : ∀ q ∈ unseen next c seen, Whole next miss q) : Whole next miss c := by
  refine whole_iff.mpr ⟨hread, fun q hq => ?_⟩
  by_cases hseen : q ∈ c :: seen
  · exact h.whole_of_seen hskipped hc hcycle hq hseen
  · exact hall q (mem_filter.mpr ⟨hq, by simpa using hseen⟩)

lemma Traced.path_step {first rest' : List V} {x : V} (hsplit : unseen next c seen ++ rest = first ++ x :: rest')
    (hfirst : ∀ z ∈ first, z ∈ c :: seen ∨ Whole next miss z) : ReflTransGen (Clear next miss) root x := by
  -- `x` was pending before, or it is one of the vertices that `c` leads to
  have hbefore : ∀ more, first = unseen next c seen ++ more → rest = more ++ x :: rest' →
      ReflTransGen (Clear next miss) root x := by
    rintro more rfl rfl
    have hw : Whole next miss c := h.whole_front hskipped hc hcycle hread fun q hq =>
      (hfirst q (mem_append_left _ hq)).resolve_left (not_mem_of_mem_unseen hq)
    refine h.path (skipped ++ c :: more) x rest' (by simp) (forall_mem_append.mpr ⟨fun z hz => .inl (hskipped z hz), ?_⟩)
    refine forall_mem_cons.mpr ⟨.inr hw, fun z hz => ?_⟩
    rcases hfirst z (mem_append_right _ hz) with hz | hz
    · exact (mem_cons.mp hz).elim (fun heq => .inr (heq ▸ hw)) .inl
    · exact .inr hz
  rcases append_eq_append_iff.mp hsplit with ⟨more, rfl, hmore⟩ | ⟨more, hfilter, hmore⟩
  · exact hbefore more rfl hmore
  · rcases more with _ | ⟨d, more⟩
    · exact hbefore [] (by simpa using hfilter.symm) (by simpa using hmore.symm)
    · obtain ⟨rfl, -⟩ := cons.inj hmore
      obtain ⟨before, after, hnext, hb, ha⟩ := filter_eq_append_iff.mp hfilter
      obtain ⟨between, after', rfl, hbetween, -, -⟩ := filter_eq_cons_iff.mp ha
      refine (h.path_front hskipped).tail ⟨before ++ between, after', by simp [hnext], fun z hz => ?_⟩
      have hz' : z ∈ next c := by
        rw [hnext]
        exact (mem_append.mp hz).elim (mem_append_left _) fun hz => mem_append_right _ (mem_append_left _ hz)
      by_cases hseen : z ∈ c :: seen
      · exact h.whole_of_seen hskipped hc hcycle hz' hseen
      · rcases mem_append.mp hz with hz | hz
        · exact (hfirst z (hb ▸ mem_filter.mpr ⟨hz, by simpa using hseen⟩)).resolve_left hseen
        · exact absurd (by simpa using hseen) (hbetween z hz)

lemma Traced.step : Traced next miss root (c :: seen) (unseen next c seen ++ rest) where
  path _ _ _ := h.path_step hskipped hc hcycle hread
  lost y hy hnot := by
    by_cases hw : Whole next miss c
    · have hseen : y ∈ seen := (mem_cons.mp hy).resolve_left fun heq => hnot (heq ▸ hw)
      obtain ⟨first, x, rest', hsplit, hx, hxw, hfirst, hpath⟩ := h.lost y hseen hnot
      rcases first_of_split hsplit fun hin => hx (hskipped x hin) with ⟨-, rfl⟩ | ⟨more, rfl, rfl⟩
      · exact absurd hw hxw
      · refine ⟨unseen next c seen ++ more, x, rest', by simp, ?_, hxw, ?_, hpath⟩
        · exact fun hin => (mem_cons.mp hin).elim (fun heq => hxw (heq ▸ hw)) hx
        · refine forall_mem_append.mpr ⟨fun z hz => .inr ((whole_iff.mp hw).2 z (mem_filter.mp hz).1), fun z hz => ?_⟩
          exact (hfirst z (by simp [hz])).imp_left (mem_cons_of_mem c)
    · classical
      have hbad : (unseen next c seen).find? (fun q => ¬ Whole next miss q) ≠ none := fun hnone =>
        hw (h.whole_front hskipped hc hcycle hread fun q hq => by simpa using find?_eq_none.mp hnone q hq)
      obtain ⟨q, hq⟩ := Option.ne_none_iff_exists'.mp hbad
      obtain ⟨hqw, first, rest', hsplit, hfirst⟩ := find?_eq_some_iff_append.mp hq
      have hmem : q ∈ unseen next c seen := mem_of_find?_eq_some hq
      refine ⟨first, q, rest' ++ rest, by rw [hsplit, append_assoc, cons_append], not_mem_of_mem_unseen hmem,
        by simpa using hqw, fun z hz => .inr (by simpa using hfirst z hz), ?_⟩
      have hstep : Leads next c q := .single (mem_filter.mp hmem).1
      rcases mem_cons.mp hy with rfl | hy
      · exact hstep
      · exact (h.lost_front hskipped hc hy hnot hw).trans hstep

end

end Preorder

end DepthFirst
