import GoGit.ReferenceStorage

/-! Each session reads the references that it advertises, and later goes through its commands: it looks whether a
reference exists, and then sets or removes it. Sessions on one repository take turns at each operation of the storage.
-/
namespace GoGit.ReceivePack

open List Function

inductive Action
  | create
  | update
  | delete
  | invalid
  deriving DecidableEq

structure Command where
  name : ReferenceName
  old : ObjectID
  new : ObjectID
  deriving DecidableEq

def Command.action (c : Command) : Action :=
  if c.old = .zeroHash ∧ c.new = .zeroHash then .invalid
  else if c.old = .zeroHash then .create
  else if c.new = .zeroHash then .delete
  else .update

inductive UpdateError
  | updateReference
  deriving DecidableEq

section Sessions

variable {σ : Type}

structure Session (σ : Type) where
  advertised : Option σ := none
  commands : List Command
  /-- The command whose reference has been looked at. -/
  pending : Option Command := none
  cmdStatus : List (ReferenceName × Option UpdateError) := []

variable (S : ReferenceStorer σ)

def apply (s : σ) (c : Command) : σ :=
  if c.action = .delete then S.removeReference s c.name else S.setReference s ⟨c.name, .hash c.new⟩

/-- Whether the command goes on after it has been seen whether its reference exists. -/
def Command.goesOn (c : Command) (found : Bool) : Bool :=
  match c.action with
  | .create => !found
  | .update | .delete => found
  | .invalid => false

/-- The next operation of a session: the storage and the session after it, and the command that has been
applied. -/
def Session.step (s : σ) (t : Session σ) : σ × Session σ × Option Command :=
  match t.advertised with
  | none => (s, { t with advertised := some s }, none)
  | some _ =>
    match t.pending with
    | some c =>
      (apply S s c, { t with pending := none, cmdStatus := t.cmdStatus ++ [(c.name, none)] }, some c)
    | none =>
      match t.commands with
      | [] => (s, t, none)
      | c :: commands =>
        if c.goesOn (S.reference s c.name).isSome then (s, { t with commands, pending := some c }, none)
        else if c.action = .invalid then (s, { t with commands }, none)
        else (s, { t with
          commands, cmdStatus := t.cmdStatus ++ [(c.name, some .updateReference)] }, none)

end Sessions

section Runs

variable {σ ι : Type} [DecidableEq ι] (S : ReferenceStorer σ)

structure State (σ ι : Type) where
  store : σ
  sessions : ι → Session σ
  log : List Command := []

def start (s : σ) (commands : ι → List Command) : State σ ι where
  store := s
  sessions i := { commands := commands i }

def State.turn (r : State σ ι) (i : ι) : State σ ι :=
  let (s, t, applied) := (r.sessions i).step S r.store
  { store := s, sessions := update r.sessions i t, log := r.log ++ applied.toList }

def State.run (r : State σ ι) (schedule : List ι) : State σ ι := schedule.foldl (State.turn S) r

/-- The reference is what the command takes it for. -/
def Permits (s : σ) (c : Command) : Prop :=
  match c.action with
  | .create => S.reference s c.name = none
  | .update | .delete => (S.reference s c.name).map Reference.target = some (.hash c.old)
  | .invalid => False

/-- Each command is applied to what it takes its reference for. -/
def Replays : σ → List Command → Prop
  | _, [] => True
  | s, c :: log => Permits S s c ∧ Replays (apply S s c) log

/-- A command that is applied after another one to the same reference has seen it. -/
def NoLostUpdate (log : List Command) : Prop :=
  ∀ before between after first second, log = before ++ first :: (between ++ second :: after) →
    first.name = second.name → (∀ c ∈ between, c.name ≠ first.name) → second.old = first.new

end Runs

variable {commands : List Command} {log : List Command}

section Views

variable {σ : Type} {S : ReferenceStorer σ} {s : σ} {c : Command}

abbrev View := ReferenceName → Option Reference

def View.apply (v : View) (c : Command) : View :=
  update v c.name (if c.action = .delete then none else some ⟨c.name, .hash c.new⟩)

lemma reference_apply (s : σ) (c : Command) : S.reference (apply S s c) = View.apply (S.reference s) c := by
  funext n
  rw [ReceivePack.apply, View.apply, update_apply]
  split_ifs with hdelete hname hname
  · rw [S.reference_remove, if_pos hname]
  · rw [S.reference_remove, if_neg hname]
  · rw [S.reference_set, if_pos hname]
  · rw [S.reference_set, if_neg hname]

/-- Commands that a session can apply to what it reads, one after the other: what an update or a deletion
finds is what it takes it for. -/
def Chained : View → List Command → Prop
  | _, [] => True
  | v, c :: commands =>
    (c.action ≠ .create → c.goesOn (v c.name).isSome → (v c.name).map Reference.target = some (.hash c.old)) ∧
      Chained (if c.goesOn (v c.name).isSome then v.apply c else v) commands

instance decidableChained : ∀ v commands, Decidable (Chained v commands)
  | _, [] => .isTrue trivial
  | v, c :: commands =>
    have := decidableChained (if c.goesOn (v c.name).isSome then v.apply c else v) commands
    inferInstanceAs (Decidable (_ ∧ _))

lemma Chained.congr {v w : View} (h : Chained v commands)
    (heq : ∀ c ∈ commands, v c.name = w c.name) : Chained w commands := by
  induction commands generalizing v w with
  | nil => trivial
  | cons c commands ih =>
    obtain ⟨hfirst, hrest⟩ := h
    have hc := heq c mem_cons_self
    rw [hc] at hfirst hrest
    refine ⟨hfirst, ih hrest fun d hd => ?_⟩
    have hd := heq d (mem_cons_of_mem _ hd)
    split_ifs
    · rw [View.apply, View.apply, update_apply, update_apply, hd]
    · exact hd

lemma permits_of_goesOn (hgo : c.goesOn (S.reference s c.name).isSome)
    (h : c.action ≠ .create → (S.reference s c.name).map Reference.target = some (.hash c.old)) : Permits S s c := by
  rw [Permits]
  unfold Command.goesOn at hgo
  cases hact : c.action with
  | create => simpa [hact] using hgo
  | update => exact h (by simp [hact])
  | delete => exact h (by simp [hact])
  | invalid => simp [hact] at hgo

lemma permits_congr {s' : σ} (h : Permits S s c) (heq : S.reference s c.name = S.reference s' c.name) :
    Permits S s' c := by
  unfold Permits at h ⊢
  rwa [← heq]

lemma Replays.append (h : Replays S s log) (hc : Permits S (log.foldl (apply S) s) c) : Replays S s (log ++ [c]) := by
  induction log generalizing s with
  | nil => exact ⟨hc, trivial⟩
  | cons d log ih => exact ⟨h.1, ih h.2 hc⟩

end Views

section Safety

variable {σ ι : Type} [DecidableEq ι] {S : ReferenceStorer σ} {s s' : σ}

structure Ready (S : ReferenceStorer σ) (s : σ) (own : ReferenceName → Prop) (t : Session σ) : Prop where
  own : ∀ c ∈ t.pending.toList ++ t.commands, own c.name
  pending : ∀ c ∈ t.pending, Permits S s c
  commands : Chained (t.pending.elim (S.reference s) (View.apply (S.reference s))) t.commands

variable {own : ReferenceName → Prop} {t : Session σ}

lemma Ready.congr (h : Ready S s own t) (heq : ∀ n, own n → S.reference s n = S.reference s' n) : Ready S s' own t := by
  obtain ⟨hown, hpending, hcommands⟩ := h
  refine ⟨hown, fun c hc => permits_congr (hpending c hc) (heq _ (hown c ?_)), hcommands.congr fun d hd => ?_⟩
  · rw [Option.mem_def.mp hc]
    exact mem_cons_self
  · have hd := heq _ (hown d (mem_append_right _ hd))
    cases t.pending with
    | none => exact hd
    | some c =>
      simp only [Option.elim_some, View.apply, update_apply, hd]

lemma Session.step_cases (S : ReferenceStorer σ) (s : σ) (t : Session σ) :
    (∃ t' : Session σ, t.step S s = (s, t', none) ∧ t'.pending = t.pending ∧ t'.commands = t.commands) ∨
    (∃ (t' : Session σ) (c : Command), t.step S s = (apply S s c, t', some c) ∧ t.pending = some c ∧
      t'.pending = none ∧ t'.commands = t.commands) ∨
    ∃ (t' : Session σ) (c : Command), t.step S s = (s, t', none) ∧ t.pending = none ∧ t.commands = c :: t'.commands ∧
      t'.pending = if c.goesOn (S.reference s c.name).isSome then some c else none := by
  obtain ⟨advertised, commands, pending, status⟩ := t
  match advertised, pending, commands with
  | none, _, _ => exact .inl ⟨_, rfl, rfl, rfl⟩
  | some _, some c, _ => exact .inr (.inl ⟨_, c, rfl, rfl, rfl, rfl⟩)
  | some _, none, [] => exact .inl ⟨_, rfl, rfl, rfl⟩
  | some _, none, c :: commands =>
    refine .inr (.inr ?_)
    simp only [Session.step]
    split_ifs with hgo
    · exact ⟨_, c, rfl, trivial, rfl, (if_pos hgo).symm⟩
    · exact ⟨_, c, rfl, trivial, rfl, (if_neg hgo).symm⟩
    · exact ⟨_, c, rfl, trivial, rfl, (if_neg hgo).symm⟩

lemma Ready.step (h : Ready S s own t) : Ready S (t.step S s).1 own (t.step S s).2.1 ∧
    ((t.step S s).2.2 = none ∧ (t.step S s).1 = s ∨
      ∃ c, (t.step S s).2.2 = some c ∧ (t.step S s).1 = apply S s c ∧ Permits S s c ∧ own c.name) := by
  obtain ⟨hown, hpending, hcommands⟩ := h
  obtain ⟨t', hstep, hp, hc⟩ | ⟨t', c, hstep, hp, hp', hc⟩ | ⟨t', c, hstep, hp, hc, hp'⟩ :=
    t.step_cases S s
  · rw [hstep]
    exact ⟨⟨by rwa [hp, hc], by rwa [hp], by rwa [hp, hc]⟩, .inl ⟨rfl, rfl⟩⟩
  · rw [hp] at hown hpending hcommands
    rw [hstep]
    refine ⟨⟨?_, ?_, ?_⟩, .inr ⟨c, rfl, rfl, hpending c rfl, hown c mem_cons_self⟩⟩
    · rw [hp', hc]
      exact fun d hd => hown d (mem_cons_of_mem _ hd)
    · rw [hp']
      exact fun d hd => nomatch hd
    · rw [hp', hc, Option.elim_none, reference_apply]
      exact hcommands
  · rw [hp, hc] at hown hcommands
    obtain ⟨hfirst, hrest⟩ := hcommands
    rw [Option.elim_none] at hfirst hrest
    rw [hstep]
    refine ⟨?_, .inl ⟨rfl, rfl⟩⟩
    by_cases hgo : c.goesOn (S.reference s c.name).isSome
    · rw [if_pos hgo] at hrest hp'
      refine ⟨?_, ?_, ?_⟩
      · rw [hp']
        exact hown
      · rw [hp']
        rintro d ⟨⟩
        exact permits_of_goesOn hgo fun hne => hfirst hne hgo
      · rw [hp']
        exact hrest
    · rw [if_neg hgo] at hrest hp'
      refine ⟨?_, ?_, ?_⟩
      · rw [hp']
        exact fun d hd => hown d (mem_cons_of_mem _ hd)
      · rw [hp']
        exact fun d hd => nomatch hd
      · rw [hp']
        exact hrest

structure Inv (S : ReferenceStorer σ) (s : σ) (own : ι → ReferenceName → Prop) (r : State σ ι) : Prop where
  replays : Replays S s r.log
  store : r.store = r.log.foldl (apply S) s
  ready : ∀ i, Ready S r.store (own i) (r.sessions i)

variable {r : State σ ι}

lemma Inv.turn {own : ι → ReferenceName → Prop} (hdisjoint : ∀ i j n, i ≠ j → own i n → ¬ own j n)
    (h : Inv S s own r) (i : ι) : Inv S s own (r.turn S i) := by
  obtain ⟨hready, happlied⟩ := (h.ready i).step
  have hother : ∀ j, j ≠ i → ∀ n, own j n →
      S.reference r.store n = S.reference ((r.sessions i).step S r.store).1 n := by
    intro j hji n hn
    rcases happlied with ⟨-, hsame⟩ | ⟨c, -, hstore, -, hown⟩
    · rw [hsame]
    · have hne : n ≠ c.name := fun heq => hdisjoint j i n hji hn (heq ▸ hown)
      rw [hstore, reference_apply, View.apply, update_of_ne hne]
  refine ⟨?_, ?_, fun j => ?_⟩
  · rcases happlied with ⟨hnone, -⟩ | ⟨c, hsome, -, hpermits, -⟩
    · simpa [State.turn, hnone] using h.replays
    · simp only [State.turn, hsome, Option.toList_some]
      exact h.replays.append (h.store ▸ hpermits)
  · rcases happlied with ⟨hnone, hsame⟩ | ⟨c, hsome, hstore, -, -⟩
    · simp [State.turn, hnone, hsame, ← h.store]
    · simp [State.turn, hsome, hstore, ← h.store]
  · by_cases hji : j = i
    · subst hji
      simpa [State.turn] using hready
    · simp only [State.turn, update_of_ne hji]
      exact (h.ready j).congr (hother j hji)

lemma Inv.run {own : ι → ReferenceName → Prop} (hdisjoint : ∀ i j n, i ≠ j → own i n → ¬ own j n)
    (h : Inv S s own r) (schedule : List ι) : Inv S s own (r.run S schedule) := by
  induction schedule generalizing r with
  | nil => exact h
  | cons i schedule ih => exact ih (h.turn hdisjoint i)

/-- No two sessions have commands for the same reference, and the commands of each session fit what is
stored before and each other. -/
structure Compatible (S : ReferenceStorer σ) (s : σ) (commands : ι → List Command) : Prop where
  disjoint : ∀ i j, i ≠ j → ∀ c ∈ commands i, ∀ d ∈ commands j, c.name ≠ d.name
  chained : ∀ i, Chained (S.reference s) (commands i)

lemma Compatible.inv {commands : ι → List Command} (h : Compatible S s commands) (schedule : List ι) :
    Inv S s (fun i n => ∃ c ∈ commands i, c.name = n) ((start s commands).run S schedule) := by
  have hready (i : ι) : Ready S s (fun n => ∃ c ∈ commands i, c.name = n) { commands := commands i } :=
    ⟨fun c hc => ⟨c, hc, rfl⟩, fun _ hc => (nomatch hc), h.chained i⟩
  have hstart : Inv S s (fun i n => ∃ c ∈ commands i, c.name = n) (start s commands) :=
    ⟨trivial, rfl, hready⟩
  refine hstart.run ?_ schedule
  rintro i j n hij ⟨c, hc, rfl⟩ ⟨d, hd, hdc⟩
  exact h.disjoint i j hij c hc d hd hdc.symm

end Safety

section LostUpdate

variable {σ ι : Type} [DecidableEq ι] {S : ReferenceStorer σ} {s : σ}

lemma Replays.of_append {before log : List Command} (h : Replays S s (before ++ log)) :
    Replays S (before.foldl (apply S) s) log := by
  induction before generalizing s with
  | nil => exact h
  | cons c before ih => exact ih h.2

lemma reference_foldl_apply {n : ReferenceName} (h : ∀ c ∈ commands, c.name ≠ n) :
    S.reference (commands.foldl (apply S) s) n = S.reference s n := by
  induction commands generalizing s with
  | nil => rfl
  | cons c commands ih =>
    rw [foldl_cons, ih fun d hd => h d (mem_cons_of_mem _ hd), reference_apply, View.apply,
      update_of_ne (h c mem_cons_self).symm]

lemma Command.old_eq_of_create {c : Command} (h : c.action = .create) : c.old = .zeroHash := by
  unfold Command.action at h
  split_ifs at h with hboth hold
  exact hold

lemma Command.new_eq_of_delete {c : Command} (h : c.action = .delete) : c.new = .zeroHash := by
  unfold Command.action at h
  split_ifs at h with hboth hold hnew
  exact hnew

lemma old_eq_of_permits {s' : σ} {first second : Command} (hstored : S.reference s' second.name =
      if first.action = .delete then none else some ⟨second.name, .hash first.new⟩)
    (h : Permits S s' second) : second.old = first.new := by
  unfold Permits at h
  rw [hstored] at h
  cases hact : second.action with
  | create =>
    rw [hact] at h
    have hdelete : first.action = .delete := by
      by_contra hne
      rw [if_neg hne] at h
      exact nomatch h
    rw [second.old_eq_of_create hact, first.new_eq_of_delete hdelete]
  | update | delete =>
    rw [hact] at h
    by_cases hdelete : first.action = .delete
    · rw [if_pos hdelete] at h
      exact nomatch h
    · rw [if_neg hdelete] at h
      exact (ReferenceTarget.hash.inj (Option.some.inj h)).symm
  | invalid =>
    rw [hact] at h
    exact h.elim

lemma Replays.noLostUpdate (h : Replays S s log) : NoLostUpdate log := by
  rintro before between after first second rfl hname hbetween
  obtain ⟨-, hlater⟩ := h.of_append
  obtain ⟨hsecond, -⟩ := hlater.of_append
  refine old_eq_of_permits ?_ hsecond
  rw [← hname, reference_foldl_apply hbetween, reference_apply, View.apply, update_self]

/-- Sessions that do not share references and know what is stored lose no update, however they take
turns. -/
theorem run_of_compatible {commands : ι → List Command} (h : Compatible S s commands) (schedule : List ι) :
    ((start s commands).run S schedule).store = ((start s commands).run S schedule).log.foldl (apply S) s ∧
      Replays S s ((start s commands).run S schedule).log ∧ NoLostUpdate ((start s commands).run S schedule).log :=
  have hinv := h.inv schedule
  ⟨hinv.store, hinv.replays, hinv.replays.noLostUpdate⟩

def command (name old new : String) : Command :=
  ⟨branch name, .fromHex (textBytes old), .fromHex (textBytes new)⟩

/-- One session moves a branch, the other one makes a branch and moves it. -/
def apart (i : Bool) : List Command :=
  if i then [command "a" "11" "22"] else [command "b" "" "33", command "b" "33" "44"]

theorem run_of_compatible_apart : ((start (oneBranch (branchAt "a" "11")) apart).run Memory.storer
        [true, false, true, false, true, false, false, false]).log =
      [command "a" "11" "22", command "b" "" "33", command "b" "33" "44"] ∧
    NoLostUpdate ((start (oneBranch (branchAt "a" "11")) apart).run Memory.storer
        [true, false, true, false, true, false, false, false]).log := by
  have happart : Compatible Memory.storer (oneBranch (branchAt "a" "11")) apart :=
    ⟨by decide +kernel, by decide +kernel⟩
  exact ⟨by decide +kernel, (run_of_compatible happart _).2.2⟩

def shared (i : Bool) : List Command :=
  if i then [command "a" "11" "22"] else [command "a" "11" "33"]

theorem run_lost_update : ((start (oneBranch (branchAt "a" "11")) shared).run Memory.storer
        [true, false, true, false, true, false]).log = [command "a" "11" "22", command "a" "11" "33"] ∧
    ¬ Replays Memory.storer (oneBranch (branchAt "a" "11"))
      ((start (oneBranch (branchAt "a" "11")) shared).run Memory.storer [true, false, true, false, true, false]).log ∧
    ¬ NoLostUpdate ((start (oneBranch (branchAt "a" "11")) shared).run Memory.storer
        [true, false, true, false, true, false]).log := by
  have hlog : ((start (oneBranch (branchAt "a" "11")) shared).run Memory.storer
      [true, false, true, false, true, false]).log =
        [command "a" "11" "22", command "a" "11" "33"] := by
    decide +kernel
  have hlost : ¬ NoLostUpdate [command "a" "11" "22", command "a" "11" "33"] := fun h =>
    absurd (h [] [] [] _ _ rfl rfl fun c hc => nomatch hc) (by decide +kernel)
  rw [hlog]
  exact ⟨rfl, fun h => hlost h.noLostUpdate, hlost⟩

end LostUpdate

end GoGit.ReceivePack
