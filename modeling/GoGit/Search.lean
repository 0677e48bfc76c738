import Mathlib

/-! A search of a graph keeps the vertices it has found and a frontier it still has to look at. What makes the result
complete is that no edge leaves the found vertices except into the frontier; what makes the search end is that the
vertices not yet found get fewer. -/
namespace Search

open List

section Closed

variable {V : Type*} {r : V → V → Prop} {P Q S : Set V} {a b : V}

/-- Every edge from `S` stays in it or leads to the frontier `P`. -/
def ClosedUpTo (r : V → V → Prop) (P S : Set V) : Prop := ∀ a ∈ S, ∀ b, r a b → b ∈ S ∨ b ∈ P

lemma ClosedUpTo.mono (h : ClosedUpTo r P S) (hPQ : ∀ b ∈ P, b ∈ S ∨ b ∈ Q) : ClosedUpTo r Q S := by
  intro a ha b hab
  rcases h a ha b hab with hb | hb
  · exact .inl hb
  · exact hPQ b hb

lemma ClosedUpTo.insert (h : ClosedUpTo r P S) (hP : ∀ b ∈ P, b = a ∨ b ∈ S ∨ b ∈ Q)
    (ha : ∀ b, r a b → b = a ∨ b ∈ S ∨ b ∈ Q) : ClosedUpTo r Q (insert a S) := by
  intro c hc b hcb
  have hb : b = a ∨ b ∈ S ∨ b ∈ Q := by
    rcases hc with rfl | hc
    · exact ha b hcb
    · rcases h c hc b hcb with hb | hb
      · exact .inr (.inl hb)
      · exact hP b hb
  rw [Set.mem_insert_iff, or_assoc]
  exact hb

lemma ClosedUpTo.reach (h : ClosedUpTo r ∅ S) (ha : a ∈ S) (hab : Relation.ReflTransGen r a b) : b ∈ S := by
  induction hab with
  | refl => exact ha
  | tail _ hbc ih => exact (h _ ih _ hbc).resolve_right (Set.notMem_empty _)

lemma ClosedUpTo.exit {L : Set V} (h : ClosedUpTo (fun a b => r a b ∧ a ∉ L) ∅ S) (ha : a ∈ S)
    (hab : Relation.ReflTransGen r a b) : b ∈ S ∨ ∃ u ∈ S, u ∈ L ∧ Relation.ReflTransGen r u b := by
  induction hab with
  | refl => exact .inl ha
  | @tail b c _ hbc ih =>
    rcases ih with hb | ⟨u, hu, hL, hub⟩
    · by_cases hL : b ∈ L
      · exact .inr ⟨b, hb, hL, .single hbc⟩
      · exact .inl ((h b hb c ⟨hbc, hL⟩).resolve_right (Set.notMem_empty _))
    · exact .inr ⟨u, hu, hL, hub.tail hbc⟩

end Closed

section Explore

variable {V : Type*} {r : V → V → Prop} {ignore found pending pending' : List V} {next : Set V} {root v : V}

/-- A search that has found some vertices, the last one first, and passes over those to ignore. -/
structure Explores (r : V → V → Prop) (ignore : List V) (root : V) (found pending : List V) : Prop where
  nodup : found.Nodup
  fresh : ∀ v ∈ found, v ∉ ignore
  traced : ∀ v earlier, v :: earlier <:+ found → v = root ∨ ∃ a ∈ earlier, r a v
  queued : ∀ v ∈ pending, v = root ∨ ∃ a ∈ found, r a v
  closed : ClosedUpTo r {v | v ∈ pending} {v | v ∈ found ++ ignore}
  root : root ∈ found ++ ignore ∨ root ∈ pending

/-- The vertex is taken from the pending ones; what it leads to is pending afterwards. -/
structure Takes (next : Set V) (seen pending : List V) (v : V) (pending' : List V) : Prop where
  mem : v ∈ pending
  fresh : v ∉ seen
  kept : ∀ b ∈ pending, b = v ∨ b ∈ seen ∨ b ∈ pending'
  subset : ∀ b ∈ pending', b ∈ pending ∨ b ∈ next
  next : ∀ b ∈ next, b = v ∨ b ∈ seen ∨ b ∈ pending'

lemma Explores.start (hsink : ∀ a ∈ ignore, ∀ b, ¬ r a b) : Explores r ignore root [] [root] where
  nodup := nodup_nil
  fresh := by simp
  traced := by simp
  queued := by simp
  closed := fun a ha b hab => absurd hab (hsink a ha b)
  root := .inr (.head _)

section

variable (h : Explores r ignore root found pending)

include h

lemma Explores.step (ht : Takes next (found ++ ignore) pending v pending')
    (hnext : ∀ b, r v b ↔ b ∈ next) : Explores r ignore root (v :: found) pending' where
  nodup := nodup_cons.mpr ⟨fun hv => ht.fresh (mem_append_left _ hv), h.nodup⟩
  fresh := forall_mem_cons.mpr ⟨fun hv => ht.fresh (mem_append_right _ hv), h.fresh⟩
  traced := by
    intro a earlier ha
    rcases suffix_cons_iff.mp ha with heq | ha
    · cases heq
      exact h.queued v ht.mem
    · exact h.traced a earlier ha
  queued := by
    intro b hb
    rcases ht.subset b hb with hb | hb
    · exact (h.queued b hb).imp id fun ⟨a, ha, hab⟩ => ⟨a, .tail _ ha, hab⟩
    · exact .inr ⟨v, .head _, (hnext b).mpr hb⟩
  closed := by
    have hinsert : {b | b ∈ v :: found ++ ignore} = insert v {b | b ∈ found ++ ignore} := by
      ext b
      exact mem_cons
    rw [hinsert]
    exact h.closed.insert ht.kept fun b hb => ht.next b ((hnext b).mp hb)
  root := by
    rw [cons_append, mem_cons, or_assoc]
    rcases h.root with hroot | hroot
    · exact .inr (.inl hroot)
    · exact ht.kept root hroot

lemma Explores.reached : ∀ v ∈ found, Relation.ReflTransGen r root v := by
  have htraced := h.traced
  clear h
  induction found with
  | nil => simp
  | cons v found ih =>
    have hfound := ih fun a earlier ha => htraced a earlier (ha.trans (suffix_cons _ _))
    refine forall_mem_cons.mpr ⟨?_, hfound⟩
    rcases htraced v found suffix_rfl with rfl | ⟨a, ha, hav⟩
    · exact .refl
    · exact (hfound a ha).tail hav

lemma Explores.reached_pending (hv : v ∈ pending) : Relation.ReflTransGen r root v := by
  rcases h.queued v hv with rfl | ⟨a, ha, hav⟩
  · exact .refl
  · exact (h.reached a ha).tail hav

lemma Explores.mem_iff (hdone : ∀ b ∈ pending, b ∈ found ++ ignore) :
    v ∈ found ↔ v ∉ ignore ∧ Relation.ReflTransGen r root v := by
  have hclosed : ClosedUpTo r ∅ {b | b ∈ found ++ ignore} := h.closed.mono fun b hb => .inl (hdone b hb)
  refine ⟨fun hv => ⟨h.fresh v hv, h.reached v hv⟩, fun ⟨hv, hr⟩ => ?_⟩
  exact (mem_append.mp (hclosed.reach (h.root.elim id (hdone root)) hr)).resolve_right hv

end

end Explore

section Order

variable {V : Type*} {r : V → V → Prop} {p : V → Prop} {a : V}

lemma exists_maximal (hanti : ∀ a b, Relation.ReflTransGen r a b → Relation.ReflTransGen r b a → a = b)
    (hfin : {a | p a}.Finite) (ha : p a) : ∃ m, p m ∧ Relation.ReflTransGen r m a ∧
      ∀ d, p d → Relation.ReflTransGen r d m → d = m := by
  let above : Set V := {m | p m ∧ Relation.ReflTransGen r m a}
  have habove : above.Finite := hfin.subset fun m hm => hm.1
  let proper : above → above → Prop := fun x y => Relation.ReflTransGen r x.1 y.1 ∧ x ≠ y
  have : Finite above := habove
  have : IsTrans above proper := by
    refine ⟨fun x y z hxy hyz => ⟨hxy.1.trans hyz.1, ?_⟩⟩
    rintro rfl
    exact hxy.2 (Subtype.ext (hanti _ _ hxy.1 hyz.1))
  have : Std.Irrefl proper := ⟨fun x hx => hx.2 rfl⟩
  have hwf : WellFounded proper := Finite.wellFounded_of_trans_of_irrefl proper
  obtain ⟨m, -, hmin⟩ := hwf.has_min Set.univ ⟨⟨a, ha, .refl⟩, Set.mem_univ _⟩
  refine ⟨m.1, m.2.1, m.2.2, fun d hd hdm => ?_⟩
  by_contra hne
  exact hmin ⟨d, hd, hdm.trans m.2.2⟩ (Set.mem_univ _) ⟨hdm, fun heq => hne (congrArg Subtype.val heq)⟩

end Order

section Queue

variable {α : Type*} {p : α → Bool} {l rest : List α} {x : α}

lemma dropWhile_eq_cons (h : l.dropWhile p = x :: rest) :
    p x = false ∧ x ∈ l ∧ (∀ y ∈ rest, y ∈ l) ∧ rest.length < l.length ∧ ∀ y ∈ l, p y = true ∨ y = x ∨ y ∈ rest := by
  induction l with
  | nil => simp at h
  | cons y l ih =>
    by_cases hy : p y = true
    · rw [dropWhile_cons_of_pos hy] at h
      obtain ⟨hx, hmem, hrest, hlen, hall⟩ := ih h
      refine ⟨hx, .tail _ hmem, fun z hz => .tail _ (hrest z hz), Nat.lt_succ_of_lt hlen, ?_⟩
      exact forall_mem_cons.mpr ⟨.inl hy, hall⟩
    · rw [dropWhile_cons_of_neg hy] at h
      cases h
      exact ⟨by simpa using hy, .head _, fun z hz => .tail _ hz, Nat.lt_succ_self _,
        fun z hz => .inr (mem_cons.mp hz)⟩

end Queue

section Weight

variable {V : Type*} [DecidableEq V] {f : V → ℕ} {names seen : List V} {a : V}

def weight (f : V → ℕ) (names seen : List V) : ℕ :=
  (names.map fun b => if b ∈ seen then 0 else f b).sum

lemma weight_anti {seen' : List V} (h : ∀ b ∈ seen, b ∈ seen') : weight f names seen' ≤ weight f names seen := by
  refine sum_le_sum fun b _ => ?_
  by_cases hb : b ∈ seen
  · simp [hb, h b hb]
  · rw [if_neg hb]
    split_ifs <;> omega

lemma weight_cons_add_le (ha : a ∈ names) (hs : a ∉ seen) : weight f names (a :: seen) + f a ≤ weight f names seen := by
  induction names with
  | nil => simp at ha
  | cons b names ih =>
    by_cases hba : b = a
    · subst hba
      have hle : weight f names (b :: seen) ≤ weight f names seen :=
        weight_anti fun c hc => mem_cons_of_mem b hc
      simp only [weight, map_cons, sum_cons, mem_cons_self, if_true, hs, if_false] at hle ⊢
      omega
    · have hrest := ih ((mem_cons.mp ha).resolve_left (Ne.symm hba))
      have hhead : (if b ∈ a :: seen then 0 else f b) = if b ∈ seen then 0 else f b := by
        simp [hba]
      simp only [weight, map_cons, sum_cons] at hrest ⊢
      rw [hhead]
      omega

end Weight

end Search

section

variable {σ : Type*} (step : σ → σ → Prop) (goal : σ → Prop)

/-- Every run comes to the goal: it can go on as long as it has not been there, and not without end. -/
inductive Inevitable : σ → Prop
  | now {s : σ} (h : goal s) : Inevitable s
  | later {s : σ} (next : ∃ t, step s t) (h : ∀ t, step s t → Inevitable t) : Inevitable s

/-- Every run from the first state comes by the second one: there is a single step from each state between them. -/
def Forced : σ → σ → Prop := Relation.ReflTransGen fun s t => ∀ u, step s u ↔ u = t

variable {step goal} {P : σ → Prop} {s t : σ}

lemma Inevitable.not_of_invariant (h : Inevitable step goal s) (hstep : ∀ s t, P s → step s t → P t)
    (hgoal : ∀ s, P s → ¬ goal s) : ¬ P s := by
  induction h with
  | now h => exact fun hP => hgoal _ hP h
  | later next _ ih =>
    intro hP
    obtain ⟨t, ht⟩ := next
    exact ih t ht (hstep _ t hP ht)

lemma Inevitable.of_reflTransGen (h : Inevitable step goal s) (hstable : ∀ s t, goal s → step s t → goal t)
    (hst : Relation.ReflTransGen step s t) : Inevitable step goal t := by
  induction hst with
  | refl => exact h
  | tail _ hlast ih =>
    cases ih with
    | now hgoal => exact .now (hstable _ _ hgoal hlast)
    | later _ hall => exact hall _ hlast

lemma Inevitable.of_measure (m : σ → ℕ) (hkeep : ∀ s t, P s → step s t → P t)
    (hless : ∀ s t, P s → step s t → m t < m s) (hgo : ∀ s, P s → goal s ∨ ∃ t, step s t) (hs : P s) :
    Inevitable step goal s := by
  induction hn : m s using Nat.strongRecOn generalizing s with
  | ind n ih =>
    rcases hgo s hs with hgoal | hnext
    · exact .now hgoal
    · exact .later hnext fun t ht => ih (m t) (hn ▸ hless s t hs ht) (hkeep s t hs ht) rfl

lemma Forced.single (h : ∀ u, step s u ↔ u = t) : Forced step s t := Relation.ReflTransGen.single h

lemma Forced.reflTransGen (h : Forced step s t) : Relation.ReflTransGen step s t :=
  Relation.ReflTransGen.mono (fun _ t hst => (hst t).mpr rfl) _ _ h

lemma Forced.inevitable (h : Forced step s t) (ht : Inevitable step goal t) : Inevitable step goal s := by
  induction h using Relation.ReflTransGen.head_induction_on with
  | refl => exact ht
  | head hstep _ ih => exact .later ⟨_, (hstep _).mpr rfl⟩ fun u hu => (hstep u).mp hu ▸ ih

end
