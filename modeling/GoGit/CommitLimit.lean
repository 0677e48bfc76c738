import GoGit.ObjectStore

/-! `commitLimitIter`: the commits of another iterator that lie in an interval of time, up to a tail. -/
namespace GoGit.CommitLimit

structure LogLimitOptions where
  Since : Option Time := none
  Until : Option Time := none
  TailHash : ObjectID := .zeroHash

variable (o : LogLimitOptions)

/-- The next commit, with `stop` beside it if it is the tail, and what is left of the source. -/
def next : List Commit → Option ((Commit × Option ObjectError) × List Commit)
  | [] => none
  | c :: source =>
    if o.Since.any c.committer.when.before then next source
    else if o.Until.any c.committer.when.after then next source
    else if o.TailHash = c.hash then some ((c, some .stop), source)
    else some ((c, none), source)

def forEach {τ : Type} (cb : Commit → τ → τ × Option ObjectError) : ℕ → List Commit → τ → τ × Option ObjectError
  | 0, _, t => (t, some .endless)
  | fuel + 1, source, t =>
    match next o source with
    | none => (t, none)
    | some ((c, nextErr), source) =>
      let (t, err) := cb c t
      if err = some .stop ∨ nextErr = some .stop then (t, none)
      else if err ≠ none then (t, err)
      else forEach cb fuel source t

/-- What a callback gets that takes all commits. -/
def yields (source : List Commit) : List Commit × Option ObjectError :=
  forEach o (fun c taken => (taken ++ [c], none)) (source.length + 1) source []

def covers (c : Commit) : Bool := !(o.Since.any c.committer.when.before || o.Until.any c.committer.when.after)

def upToTail (source : List Commit) : List Commit :=
  source.takeWhile (·.hash ≠ o.TailHash) ++ (source.dropWhile (·.hash ≠ o.TailHash)).take 1

/-- The tail lies in the interval, or no commit after it does. -/
def TailLast (source : List Commit) : Prop :=
  ∀ tail rest, source.dropWhile (·.hash ≠ o.TailHash) = tail :: rest → covers o tail ∨ ∀ c ∈ rest, covers o c = false

def taken : List Commit → List Commit
  | [] => []
  | c :: source => if covers o c then if c.hash = o.TailHash then [c] else c :: taken source else taken source

variable {o} {source : List Commit}

lemma next_cons (c : Commit) : next o (c :: source) =
    if covers o c then some ((c, if c.hash = o.TailHash then some .stop else none), source) else next o source := by
  rw [next, covers]
  by_cases htail : c.hash = o.TailHash
  · split_ifs <;> simp_all
  · rw [if_neg (Ne.symm htail)]
    split_ifs <;> simp_all

lemma forEach_eq {fuel : ℕ} (acc : List Commit) (hfuel : source.length < fuel) :
    forEach o (fun c taken => (taken ++ [c], none)) fuel source acc = (acc ++ taken o source, none) := by
  obtain ⟨fuel, rfl⟩ : ∃ n, fuel = n + 1 := ⟨fuel - 1, by omega⟩
  induction source generalizing fuel acc with
  | nil => simp [forEach, next, taken]
  | cons c source ih =>
    rw [List.length_cons] at hfuel
    rw [forEach, next_cons, taken]
    by_cases hcovers : covers o c = true
    · by_cases htail : c.hash = o.TailHash
      · simp [hcovers, htail]
      · obtain ⟨n, rfl⟩ : ∃ n, fuel = n + 1 := ⟨fuel - 1, by omega⟩
        simpa [hcovers, htail] using ih (acc ++ [c]) n (by omega)
    · have hrest := ih acc fuel (by omega)
      rw [forEach] at hrest
      simpa [hcovers] using hrest

lemma taken_eq_nil_iff : taken o source = [] ↔ ∀ c ∈ source, covers o c = false := by
  induction source with
  | nil => simp [taken]
  | cons c source ih =>
    rw [taken]
    split_ifs with hcovers htail
    · simp [hcovers]
    · simp [hcovers]
    · simp [hcovers, ih]

/-- A tail outside of the interval is passed over, and the iteration goes on behind it. -/
theorem yields_upToTail_iff (source : List Commit) :
    yields o source = ((upToTail o source).filter (covers o), none) ↔ TailLast o source := by
  rw [yields, forEach_eq [] (Nat.lt_succ_self _), Prod.mk.injEq, List.nil_append, and_iff_left rfl]
  induction source with
  | nil => simp [taken, upToTail, TailLast]
  | cons c source ih =>
    rw [taken]
    by_cases htail : c.hash = o.TailHash
    · have hnil := @taken_eq_nil_iff o source
      by_cases hcovers : covers o c = true
      · simp [upToTail, TailLast, htail, hcovers]
      · simp [upToTail, TailLast, htail, hcovers, hnil]
    · have hup : upToTail o (c :: source) = c :: upToTail o source := by simp [upToTail, htail]
      have hlast : TailLast o (c :: source) ↔ TailLast o source := by simp [TailLast, htail]
      rw [hup, hlast, ← ih, List.filter_cons]
      split_ifs <;> simp_all

def committed (name : UInt8) (sec : ℤ) : Commit := { hash := .short name, committer := { when := .unix sec 0 } }

/-- The tail is older than the interval, the commit behind it is not. -/
theorem yields_not_upToTail :
    let o : LogLimitOptions := { Since := some (.unix 10 0), TailHash := .short 2 }
    let source := [committed 3 30, committed 2 5, committed 1 20]
    yields o source ≠ ((upToTail o source).filter (covers o), none) := by decide +kernel

end GoGit.CommitLimit
