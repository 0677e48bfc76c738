import GoGit.TriePending

/-! Whole runs of one iterator. A call of `Step` goes to the next path in the order of
the keys, where a directory stands before what it holds; a call of `Next` leaves out
what the current path holds. -/

namespace GoGit.Merkletrie

open PathOrder List

def startPaths (root : Option Node) (base : List Node) : List Path :=
  (root.toList.flatMap Frame.new).map fun n => ⟨base, n⟩

structure DistinctSiblings (root : Option Node) (base : List Node) : Prop where
  start : ∀ n ∈ root, (n.children.map Node.name).Nodup
  below : ∀ r, Pending (startPaths root base) r → (r.last.children.map Node.name).Nodup

/-- A call may go to `r`: it comes after the current path, and for `Next` it is not under it. -/
def Reaches (among : Path → Prop) (current : Option Path) (wantDescend : Bool) (r : Path) : Prop :=
  among r ∧ ∀ p ∈ current, p.key < r.key ∧ (wantDescend = false → ¬ Below p r)

def InOrder (among : Path → Prop) : Option Path → List Bool → List (Except Fault Path) → Prop
  | _, [], [] => True
  | current, wantDescend :: calls, .ok r :: answers =>
    Reaches among current wantDescend r ∧
      (∀ s, Reaches among current wantDescend s → s = r ∨ r.key < s.key) ∧
      InOrder among (some r) calls answers
  | current, wantDescend :: _, .error e :: answers =>
    (∀ s, ¬ Reaches among current wantDescend s) ∧ e = .eof ∧ ∀ a ∈ answers, a = .error .eof
  | _, _, _ => False

/-- The answers to a list of calls, `true` for `Step` and `false` for `Next`. -/
def Iter.run (iter : Iter) : List Bool → List (Except Fault Path)
  | [] => []
  | wantDescend :: calls => (iter.advance wantDescend).1 :: run (iter.advance wantDescend).2 calls

/-- With the paths still to come goes every path that has no smaller key. -/
structure Remaining (among : Path → Prop) (ps : List Path) : Prop where
  ordered : Ordered ps
  mem : ∀ r, Pending ps r → among r
  above : ∀ q r, Pending ps q → among r → q.key ≤ r.key → Pending ps r

section Run

variable {among : Path → Prop} {iter i : Iter} {p : Path} {ps : List Path} {wantDescend : Bool}

lemma startPaths_ordered {root : Option Node} {base : List Node} (h : DistinctSiblings root base) :
    Ordered (startPaths root base) := by
  refine ⟨?_, h.below⟩
  cases root with
  | none => exact .nil
  | some n =>
    simpa [startPaths] using frame_paths_sorted base (h.start n rfl)

def restAfter (wantDescend : Bool) (p : Path) (ps : List Path) : List Path :=
  if wantDescend then childPaths p ++ ps else ps

lemma Iter.Holds.advance (h : iter.Holds (p :: ps)) (hs : iter.hasStarted = true) (wantDescend : Bool) :
    ∃ i, iter.advance wantDescend = (Iter.firstPath (restAfter wantDescend p ps), i) ∧
      i.hasStarted = true ∧ i.Holds (restAfter wantDescend p ps) := by
  cases wantDescend with
  | false => exact h.next hs
  | true => exact h.step hs

lemma Remaining.step (h : Remaining among (p :: ps)) (wantDescend : Bool) :
    Remaining among (restAfter wantDescend p ps) := by
  cases wantDescend with
  | true =>
    refine ⟨h.ordered.expand, fun r hr => h.mem r (pending_of_expand hr), ?_⟩
    intro q r hq hr hle
    rcases pending_expand.mp (h.above q r (pending_of_expand hq) hr hle) with rfl | hpending
    · exact absurd hle (not_le.mpr (h.ordered.lt_of_expand hq))
    · exact hpending
  | false =>
    refine ⟨h.ordered.tail, fun r hr => h.mem r (pending_cons.mpr (.inr hr)), ?_⟩
    intro q r hq hr hle
    rcases pending_cons.mp (h.above q r (pending_cons.mpr (.inr hq)) hr hle) with hbelow | hpending
    · exact absurd hle (not_le.mpr (h.ordered.prefix_lt hbelow.key_isPrefix hq).1)
    · exact hpending

lemma Remaining.reaches_iff (h : Remaining among (p :: ps)) {r : Path} :
    Reaches among (some p) wantDescend r ↔ Pending (restAfter wantDescend p ps) r := by
  have hp : Pending (p :: ps) p := pending_cons.mpr (.inl .refl)
  constructor
  · rintro ⟨hr, hafter⟩
    obtain ⟨hlt, hnot⟩ := hafter p rfl
    have hpending := h.above p r hp hr hlt.le
    cases wantDescend with
    | false => exact (pending_cons.mp hpending).resolve_left (hnot rfl)
    | true => exact (pending_expand.mp hpending).resolve_left fun heq => hlt.ne (by rw [heq])
  · intro hr
    refine ⟨(h.step wantDescend).mem r hr, ?_⟩
    rintro _ ⟨⟩
    cases wantDescend with
    | true => exact ⟨h.ordered.lt_of_expand hr, by simp⟩
    | false =>
      refine ⟨(h.ordered.prefix_lt prefix_rfl hr).1, fun _ hbelow => ?_⟩
      exact (h.ordered.prefix_lt hbelow.key_isPrefix hr).1.false

lemma Remaining.least (h : Remaining among (p :: ps)) {r : Path} (hr : Pending (p :: ps) r) :
    r = p ∨ p.key < r.key := (pending_expand.mp hr).imp_right h.ordered.lt_of_expand

lemma Iter.current_of_advance {e : Fault} (h : iter.advance wantDescend = (.error e, i)) : i.current = .error e := by
  unfold Iter.advance at h
  split at h
  · next hcurrent =>
    cases h
    exact hcurrent
  · split_ifs at h
    · cases h
    · obtain ⟨hcurrent, rfl⟩ := Prod.mk.inj h
      exact hcurrent

lemma Iter.run_of_current {e : Fault} (h : iter.current = .error e) (calls : List Bool) :
    ∀ a ∈ iter.run calls, a = .error e := by
  induction calls with
  | nil => simp [run]
  | cons wantDescend calls ih =>
    have hadv : iter.advance wantDescend = (.error e, iter) := by simp [Iter.advance, h]
    simpa [run, hadv] using ih

/-- One call and the calls after it, with `qs` the paths that the call may go to. -/
lemma inOrder_cons {current : Option Path} {calls : List Bool} {qs : List Path}
    (hadv : iter.advance wantDescend = (Iter.firstPath qs, i)) (hrem : Remaining among qs)
    (hreaches : ∀ r, Reaches among current wantDescend r ↔ Pending qs r)
    (hrest : ∀ q qs', qs = q :: qs' → InOrder among (some q) calls (i.run calls)) :
    InOrder among current (wantDescend :: calls) (iter.run (wantDescend :: calls)) := by
  rw [Iter.run, hadv]
  cases qs with
  | nil =>
    refine ⟨fun s hs => pending_nil ((hreaches s).mp hs), rfl, ?_⟩
    exact Iter.run_of_current (Iter.current_of_advance hadv) calls
  | cons q qs' =>
    refine ⟨(hreaches q).mpr (pending_cons.mpr (.inl .refl)), ?_, hrest q qs' rfl⟩
    exact fun s hs => hrem.least ((hreaches s).mp hs)

lemma run_inOrder (calls : List Bool) (hholds : iter.Holds (p :: ps)) (hs : iter.hasStarted = true)
    (hrem : Remaining among (p :: ps)) : InOrder among (some p) calls (iter.run calls) := by
  induction calls generalizing iter p ps with
  | nil => trivial
  | cons wantDescend calls ih =>
    obtain ⟨i, hadv, hs', hholds'⟩ := hholds.advance hs wantDescend
    refine inOrder_cons hadv (hrem.step wantDescend) (fun r => hrem.reaches_iff) ?_
    intro q qs' hq
    rw [hq] at hholds'
    exact ih hholds' hs' (hq ▸ hrem.step wantDescend)

end Run

def oneDirectory : Node := .dir [] [] [.file [98] [] false, .dir [97] [] [.file [99] [] false] false] false

end GoGit.Merkletrie
