import GoGit.DepthFirst
import GoGit.ObjectStore
import GoGit.Object

/-! Packing all objects of a repository starts with a walk from its references. It takes the entries of trees for
blobs by their modes; whatever else it meets it reads, and a blob is not among what it expects. -/
namespace GoGit

open List

inductive WalkError
  | getting (h : ObjectID) (cause : ObjectError)
  | unknownObject (h : ObjectID) (type : ObjectType)
  | endless
  deriving DecidableEq

def plainMode (mode : UInt32) : Bool := mode ||| 0o755 = FileMode.executable

section Walk

variable (s : Store)

def Store.getObject (h : ObjectID) : Except ObjectError Object := s.encodedObject .any h >>= Store.decodeObject

def addSeen (seen : List ObjectID) (h : ObjectID) : List ObjectID := if h ∈ seen then seen else h :: seen

/-- The walk from an object, with the objects seen before; the first argument bounds its depth. -/
def walkObjectTree : ℕ → List ObjectID → ObjectID → Except WalkError (List ObjectID)
  | 0, _, _ => .error .endless
  | n + 1, seen, h =>
    if h ∈ seen then .ok seen
    else
      match s.getObject h with
      | .error e => .error (.getting h e)
      | .ok (.commit c) => do
        let seen ← walkObjectTree n (addSeen seen h) c.treeHash
        c.parentHashes.foldlM (walkObjectTree n) seen
      | .ok (.tree entries) =>
        entries.foldlM (fun seen e =>
          if plainMode e.mode then .ok (addSeen seen e.hash) else walkObjectTree n seen e.hash) (addSeen seen h)
      | .ok (.tag target) => walkObjectTree n (addSeen seen h) target
      | .ok o => .error (.unknownObject h o.type)

/-- No path from an object is longer than there are objects. -/
def walkDepth : ℕ := s.names.length + 1

def walkAllRefs (refs : List Reference) : Except WalkError (List ObjectID) :=
  refs.foldlM (fun seen ref =>
    match ref.target with
    | .hash h => walkObjectTree s (walkDepth s) seen h
    | .symbolic _ => .ok seen) []

/-- What an object mentions, and whether as a plain file. The commits of submodules are among it. -/
def mentions (h : ObjectID) : List (ObjectID × Bool) :=
  match s.object h with
  | some (.commit c) => (c.treeHash :: c.parentHashes).map (·, false)
  | some (.tree entries) => entries.map fun e => (e.hash, plainMode e.mode)
  | some (.tag target) => [(target, false)]
  | _ => []

def hashes (refs : List Reference) : List ObjectID :=
  refs.filterMap fun ref =>
    match ref.target with
    | .hash h => some h
    | .symbolic _ => none

/-- The objects in depth-first order from the references, each with whether it is met as a plain file. -/
def firstMet (refs : List Reference) : List (ObjectID × Bool) :=
  ((hashes refs).map (·, false)).foldl (DepthFirst.meet (mentions s) (walkDepth s)) []

/-- The walk succeeds and sees what can be reached from the references. -/
def SeesReachable (refs : List Reference) : Prop :=
  ∃ seen, walkAllRefs s refs = .ok seen ∧ ∀ h, h ∈ seen ↔ ∃ r ∈ hashes refs, s.Reach r h

end Walk

section Order

variable {s : Store} {refs : List Reference} {n : ℕ} {seen : List ObjectID} {met : List (ObjectID × Bool)} {h : ObjectID}

def Walkable (s : Store) (h : ObjectID) : Prop :=
  (∃ c, s.object h = some (.commit c)) ∨ (∃ entries, s.object h = some (.tree entries)) ∨
    ∃ target, s.object h = some (.tag target)

def visit (s : Store) (n : ℕ) (seen : List ObjectID) (m : ObjectID × Bool) : Except WalkError (List ObjectID) :=
  if m.2 then .ok (addSeen seen m.1) else walkObjectTree s n seen m.1

lemma getObject_of_object {o : Object} (ho : s.object h = some o) (hcorrupt : ∀ t, o ≠ .corrupt t) :
    s.getObject h = .ok o := by
  have hencoded : s.encodedObject .any h = .ok o := Store.encodedObject_eq_ok_iff.mpr ⟨ho, .inl rfl⟩
  rw [Store.getObject, hencoded]
  cases o with
  | corrupt t => exact absurd rfl (hcorrupt t)
  | commit | tree | blob | tag => rfl

lemma walkObjectTree_of_walkable (hnew : h ∉ seen) (hwalk : Walkable s h) :
    walkObjectTree s (n + 1) seen h = (mentions s h).foldlM (visit s n) (h :: seen) := by
  have hadd : addSeen seen h = h :: seen := if_neg hnew
  have hplain : ∀ (l : List ObjectID) (seen : List ObjectID),
      l.foldlM (walkObjectTree s n) seen = (l.map (·, false)).foldlM (visit s n) seen := by
    intro l seen
    rw [foldlM_map]
    rfl
  rw [walkObjectTree, if_neg hnew, mentions, hadd]
  rcases hwalk with ⟨c, ho⟩ | ⟨entries, ho⟩ | ⟨target, ho⟩
  · rw [getObject_of_object ho nofun, ho]
    exact hplain (c.treeHash :: c.parentHashes) (h :: seen)
  · rw [getObject_of_object ho nofun, ho, foldlM_map]
    rfl
  · rw [getObject_of_object ho nofun, ho]
    simp [foldlM_cons, visit]

lemma object_of_getObject {o : Object} (hget : s.getObject h = .ok o) : s.object h = some o := by
  obtain ⟨o', ho', hdecode⟩ := bind_eq_ok_iff.mp hget
  have hobject := (Store.encodedObject_eq_ok_iff.mp ho').1
  cases o' with
  | corrupt t =>
    rw [Store.decodeObject] at hdecode
    split_ifs at hdecode
  | commit | tree | blob | tag =>
    cases hdecode
    exact hobject

lemma walkObjectTree_of_not_walkable (hnew : h ∉ seen) (hwalk : ¬ Walkable s h) :
    ∃ e, walkObjectTree s (n + 1) seen h = .error e := by
  rw [walkObjectTree, if_neg hnew]
  cases hget : s.getObject h with
  | error e => exact ⟨_, rfl⟩
  | ok o =>
    have ho := object_of_getObject hget
    cases o with
    | blob | corrupt => exact ⟨_, rfl⟩
    | commit c => exact absurd (.inl ⟨c, ho⟩) hwalk
    | tree entries => exact absurd (.inr (.inl ⟨entries, ho⟩)) hwalk
    | tag target => exact absurd (.inr (.inr ⟨target, ho⟩)) hwalk

structure Walked (s : Store) (met met' : List (ObjectID × Bool)) (r : Except WalkError (List ObjectID)) : Prop where
  ok_iff : (∃ seen, r = .ok seen) ↔ ∀ x ∈ met', x ∉ met → x.2 = false → Walkable s x.1
  seen : ∀ seen, r = .ok seen → seen = met'.map Prod.fst

lemma mem_names_of_mentions (h : ObjectID) (hmentions : mentions s h ≠ []) : h ∈ s.names := by
  refine s.mem_names h fun hnone => hmentions ?_
  rw [mentions, hnone]

variable {r : Except WalkError (List ObjectID)}

lemma Walked.bind {met₁ met₂ : List (ObjectID × Bool)}
    {f : List ObjectID → Except WalkError (List ObjectID)} (h : Walked s met met₁ r)
    (h' : Walked s met₁ met₂ (f (met₁.map Prod.fst))) (hsuffix : met <:+ met₁) (hsuffix' : met₁ <:+ met₂) :
    Walked s met met₂ (r >>= f) := by
  cases r with
  | error e =>
    refine ⟨⟨nofun, fun hall => ?_⟩, nofun⟩
    obtain ⟨seen, hseen⟩ := h.ok_iff.mpr fun _ hx => hall _ (hsuffix'.subset hx)
    cases hseen
  | ok seen =>
    cases h.seen seen rfl
    have hfirst := h.ok_iff.mp ⟨_, rfl⟩
    refine ⟨h'.ok_iff.trans ⟨fun hall x hx hnew hmark => ?_, fun hall x hx hnew => ?_⟩, h'.seen⟩
    · by_cases hmem : x ∈ met₁
      · exact hfirst x hmem hnew hmark
      · exact hall x hx hmem hmark
    · exact hall x hx fun hmem => hnew (hsuffix.subset hmem)

lemma Walked.refl : Walked s met met (.ok (met.map Prod.fst)) :=
  ⟨⟨fun _ _ hx hnew => absurd hx hnew, fun _ => ⟨_, rfl⟩⟩, fun _ h => (Except.ok.inj h).symm⟩

lemma Walked.search {met' : List (ObjectID × Bool)} (hwalk : Walkable s h)
    (hw : Walked s ((h, false) :: met) met' r) : Walked s met met' r := by
  refine ⟨hw.ok_iff.trans ⟨fun hall x hx hnew hmark => ?_, fun hall x hx hnew => ?_⟩, hw.seen⟩
  · by_cases hxh : x = (h, false)
    · rwa [hxh]
    · exact hall x hx (by simp [hxh, hnew]) hmark
  · exact hall x hx fun hmem => hnew (mem_cons_of_mem _ hmem)

lemma mentions_of_not_walkable (hwalk : ¬ Walkable s h) : mentions s h = [] := by
  rw [mentions]
  cases ho : s.object h with
  | none => rfl
  | some o =>
    cases o with
    | blob | corrupt => rfl
    | commit c => exact absurd (.inl ⟨c, ho⟩) hwalk
    | tree entries => exact absurd (.inr (.inl ⟨entries, ho⟩)) hwalk
    | tag target => exact absurd (.inr (.inr ⟨target, ho⟩)) hwalk

lemma Walked.foldl (h : ∀ met, DepthFirst.unmet s.names met < n → ∀ m,
      Walked s met (DepthFirst.meet (mentions s) n met m) (visit s n (met.map Prod.fst) m))
    (hlt : DepthFirst.unmet s.names met < n) (ms : List (ObjectID × Bool)) :
    Walked s met (ms.foldl (DepthFirst.meet (mentions s) n) met) (ms.foldlM (visit s n) (met.map Prod.fst)) := by
  induction ms generalizing met with
  | nil => exact .refl
  | cons m ms ih =>
    have hmeets := DepthFirst.meets_meet mem_names_of_mentions hlt m
    have hlt' := lt_of_le_of_lt (DepthFirst.unmet_le hmeets.suffix) hlt
    rw [foldlM_cons, foldl_cons]
    exact (h met hlt m).bind (ih hlt') hmeets.suffix (DepthFirst.meets_foldl mem_names_of_mentions hlt' ms).suffix

lemma walked_visit (hlt : DepthFirst.unmet s.names met < n) (m : ObjectID × Bool) :
    Walked s met (DepthFirst.meet (mentions s) n met m) (visit s n (met.map Prod.fst) m) := by
  induction n generalizing met m with
  | zero => exact absurd hlt (Nat.not_lt_zero _)
  | succ n ih =>
    obtain ⟨h, plain⟩ := m
    rw [DepthFirst.meet, visit]
    by_cases hmem : h ∈ met.map Prod.fst
    · have hadd : addSeen (met.map Prod.fst) h = met.map Prod.fst := if_pos hmem
      have hwalk : walkObjectTree s (n + 1) (met.map Prod.fst) h = .ok (met.map Prod.fst) := by
        rw [walkObjectTree, if_pos hmem]
      rw [if_pos hmem, hadd, hwalk, ite_self]
      exact .refl
    rw [if_neg hmem]
    cases plain with
    | true =>
      have hadd : addSeen (met.map Prod.fst) h = ((h, true) :: met).map Prod.fst := if_neg hmem
      rw [if_pos rfl, if_pos rfl, hadd]
      refine ⟨⟨fun _ x hx hnew hmark => ?_, fun _ => ⟨_, rfl⟩⟩, fun _ h => (Except.ok.inj h).symm⟩
      rw [(mem_cons.mp hx).resolve_right hnew] at hmark
      cases hmark
    | false =>
      rw [if_neg Bool.false_ne_true, if_neg Bool.false_ne_true]
      by_cases hwalk : Walkable s h
      · rw [walkObjectTree_of_walkable hmem hwalk]
        refine Walked.search hwalk ?_
        cases hmentions : mentions s h with
        | nil => exact .refl
        | cons k ks =>
          rw [← hmentions]
          refine Walked.foldl (fun met hlt m => ih hlt m) ?_ _
          have hunmet : DepthFirst.unmet s.names ((h, false) :: met) < DepthFirst.unmet s.names met :=
            DepthFirst.unmet_cons_lt (mem_names_of_mentions h (by simp [hmentions])) hmem
          omega
      · obtain ⟨e, he⟩ := @walkObjectTree_of_not_walkable s n _ h hmem hwalk
        rw [he, mentions_of_not_walkable hwalk, foldl_nil]
        have hnew : (h, false) ∉ met := fun hm => hmem (mem_map_of_mem hm)
        exact ⟨⟨by simp, fun hall => absurd (hall _ mem_cons_self hnew rfl) hwalk⟩, by simp⟩

lemma walked_walkAllRefs (s : Store) (refs : List Reference) : Walked s [] (firstMet s refs) (walkAllRefs s refs) := by
  have hlt : DepthFirst.unmet s.names [] < walkDepth s := Nat.lt_succ_of_le DepthFirst.unmet_nil_le
  have hrefs : ∀ seen, refs.foldlM (fun seen ref =>
      match ref.target with
      | .hash h => walkObjectTree s (walkDepth s) seen h
      | .symbolic _ => .ok seen) seen = ((hashes refs).map (·, false)).foldlM (visit s (walkDepth s)) seen := by
    induction refs with
    | nil => exact fun _ => rfl
    | cons ref refs ih =>
      intro seen
      rw [foldlM_cons, hashes, filterMap_cons]
      cases ref.target with
      | hash h =>
        rw [map_cons, foldlM_cons]
        exact bind_congr fun seen => ih seen
      | symbolic name => exact ih seen
  rw [walkAllRefs, hrefs]
  exact Walked.foldl (fun met h m => walked_visit h m) hlt _

end Order

section Reach

variable {s : Store} {refs : List Reference} {h k : ObjectID}

lemma mem_mentions_of_refers (hrefers : s.Refers h k) : ∃ plain, (k, plain) ∈ mentions s h := by
  obtain ⟨o, ho, hk⟩ := hrefers
  rw [mentions, ho]
  cases o with
  | commit c => exact ⟨false, mem_map_of_mem hk⟩
  | tree entries =>
    obtain ⟨e, he, -, rfl⟩ := Object.mem_refs_tree.mp hk
    exact ⟨plainMode e.mode, mem_map_of_mem he⟩
  | tag target => exact ⟨false, by simpa [Object.refs] using hk⟩
  | blob | corrupt => exact absurd hk not_mem_nil

lemma object_of_plain (hsound : s.Sound h) (hplain : (k, true) ∈ mentions s h) : s.object k = some .blob := by
  obtain ⟨o, ho, htyped⟩ := hsound
  rw [mentions, ho] at hplain
  cases o with
  | tree entries =>
    obtain ⟨e, he, heq⟩ := mem_map.mp hplain
    obtain ⟨rfl, hmode⟩ := Prod.mk.inj heq
    have hdir : e.mode ≠ FileMode.dir := fun hdir => absurd (hdir ▸ hmode) (by decide)
    have hsub : e.mode ≠ FileMode.submodule := fun hsub => absurd (hsub ▸ hmode) (by decide)
    exact htyped.2 e he hdir hsub
  | commit | blob | tag | corrupt => simp at hplain

lemma walkable_of_sound (hsound : s.Sound h) (hblob : s.object h ≠ some .blob) : Walkable s h := by
  obtain ⟨o, ho, htyped⟩ := hsound
  cases o with
  | commit c => exact .inl ⟨c, ho⟩
  | tree entries => exact .inr (.inl ⟨entries, ho⟩)
  | tag target => exact .inr (.inr ⟨target, ho⟩)
  | blob => exact absurd ho hblob
  | corrupt t => exact htyped.elim

lemma not_walkable_blob (hblob : s.object h = some .blob) : ¬ Walkable s h := by
  simp [Walkable, hblob]

lemma not_refers_blob (hblob : s.object h = some .blob) : ¬ s.Refers h k := by
  rintro ⟨o, ho, hk⟩
  cases ho.symm.trans hblob
  exact absurd hk not_mem_nil

lemma mentions_of_firstMet (hx : (h, true) ∈ firstMet s refs) : ∃ y ∈ firstMet s refs, (h, true) ∈ mentions s y.1 := by
  have hlt : DepthFirst.unmet s.names [] < walkDepth s := Nat.lt_succ_of_le DepthFirst.unmet_nil_le
  have hmeets := DepthFirst.meets_foldl (@mem_names_of_mentions s) hlt ((hashes refs).map (·, false))
  rcases hmeets.source _ hx not_mem_nil with hstart | ⟨y, hy, -, hmentions⟩
  · simp at hstart
  · exact ⟨y, hy, hmentions⟩

lemma mem_firstMet_of_reach {r : ObjectID} (hplain : ∀ x ∈ firstMet s refs, x.2 = true → ∀ k, ¬ s.Refers x.1 k)
    (hr : r ∈ hashes refs) (hreach : s.Reach r h) : h ∈ (firstMet s refs).map Prod.fst := by
  have hlt : DepthFirst.unmet s.names [] < walkDepth s := Nat.lt_succ_of_le DepthFirst.unmet_nil_le
  have hmeets := DepthFirst.meets_foldl (@mem_names_of_mentions s) hlt ((hashes refs).map (·, false))
  have hclosed : Search.ClosedUpTo s.Refers ∅ {k | k ∈ (firstMet s refs).map Prod.fst} := by
    intro a ha b hab
    obtain ⟨x, hx, rfl⟩ := mem_map.mp ha
    cases hmark : x.2 with
    | true => exact absurd hab (hplain x hx hmark b)
    | false =>
      obtain ⟨plain, hmentions⟩ := mem_mentions_of_refers hab
      exact .inl (hmeets.closed x hx not_mem_nil hmark _ hmentions)
  exact hclosed.reach (hmeets.found _ (mem_map_of_mem hr)) hreach

/-- The walk sees the objects that can be reached exactly if all that it meets can be reached and every blob
is met first as a plain file. -/
theorem walkAllRefs_seesReachable_iff (hsound : ∀ r ∈ hashes refs, ∀ h, s.Reach r h → s.Sound h) :
    SeesReachable s refs ↔ ∀ x ∈ firstMet s refs,
      (∃ r ∈ hashes refs, s.Reach r x.1) ∧ (s.object x.1 = some .blob → x.2 = true) := by
  have hwalked := walked_walkAllRefs s refs
  constructor
  · rintro ⟨seen, hok, hseen⟩ x hx
    cases hwalked.seen seen hok
    refine ⟨(hseen x.1).mp (mem_map_of_mem hx), fun hblob => ?_⟩
    by_contra hmark
    have hwalk := hwalked.ok_iff.mp ⟨_, hok⟩ x hx not_mem_nil (by simpa using hmark)
    exact not_walkable_blob hblob hwalk
  · intro hall
    have hsounds : ∀ x ∈ firstMet s refs, s.Sound x.1 := by
      intro x hx
      obtain ⟨r, hr, hreach⟩ := (hall x hx).1
      exact hsound r hr x.1 hreach
    obtain ⟨seen, hok⟩ := hwalked.ok_iff.mpr fun x hx _ hmark =>
      walkable_of_sound (hsounds x hx) fun hblob => by simp [(hall x hx).2 hblob] at hmark
    have hplain : ∀ x ∈ firstMet s refs, x.2 = true → ∀ k, ¬ s.Refers x.1 k := by
      rintro ⟨h, plain⟩ hx rfl k
      obtain ⟨y, hy, hmentions⟩ := mentions_of_firstMet hx
      exact not_refers_blob (object_of_plain (hsounds y hy) hmentions)
    cases hwalked.seen seen hok
    refine ⟨_, hok, fun h => ⟨fun hh => ?_, ?_⟩⟩
    · obtain ⟨x, hx, rfl⟩ := mem_map.mp hh
      exact (hall x hx).1
    · rintro ⟨r, hr, hreach⟩
      exact mem_firstMet_of_reach hplain hr hreach

end Reach

/-- A commit, its tree with one entry, a blob, and a tag of the blob. -/
def oneEntry (mode : UInt32) (h : ObjectID) : Store :=
  .ofList [(.short 1, .commit { treeHash := .short 2 }), (.short 2, .tree [⟨textBytes "a", mode, h⟩]),
    (.short 3, .blob), (.short 4, .tag (.short 3))]

def toCommit : List Reference := [⟨textBytes "refs/heads/master", .hash (.short 1)⟩]

def toTag : List Reference := [⟨textBytes "refs/tags/blob", .hash (.short 4)⟩]

lemma sound_of_closed {s : Store} {refs : List Reference} (hs : s.Closed) (hrefs : ∀ r ∈ hashes refs, r ∈ s.names) :
    ∀ r ∈ hashes refs, ∀ k, s.Reach r k → s.Sound k :=
  fun r hr _ hreach => hs.sound (hs.mem_of_reach (hrefs r hr) hreach)

theorem walkAllRefs_seesReachable_regular : SeesReachable (oneEntry FileMode.regular (.short 3)) toCommit := by
  refine (walkAllRefs_seesReachable_iff (sound_of_closed (by decide +kernel) (by decide +kernel))).mpr ?_
  have hmet : firstMet (oneEntry FileMode.regular (.short 3)) toCommit =
      [(.short 3, true), (.short 2, false), (.short 1, false)] := by decide +kernel
  have htree : (oneEntry FileMode.regular (.short 3)).Reach (.short 1) (.short 2) :=
    .single ⟨_, rfl, mem_cons_self⟩
  have hfile : (oneEntry FileMode.regular (.short 3)).Reach (.short 1) (.short 3) :=
    htree.tail ⟨_, rfl, by decide +kernel⟩
  have hroot : ObjectID.short 1 ∈ hashes toCommit := mem_cons_self
  rw [hmet]
  rintro x (_ | ⟨_, _ | ⟨_, _ | ⟨_, ⟨⟩⟩⟩⟩)
  · exact ⟨⟨_, hroot, hfile⟩, fun _ => rfl⟩
  · exact ⟨⟨_, hroot, htree⟩, nofun⟩
  · exact ⟨⟨_, hroot, .refl⟩, nofun⟩

def Stops (s : Store) (refs : List Reference) : Prop :=
  (∀ r ∈ hashes refs, ∀ k, s.Reach r k → s.Sound k) ∧ ¬ SeesReachable s refs

theorem walkAllRefs_stops : Stops (oneEntry FileMode.symlink (.short 3)) toCommit ∧
    Stops (oneEntry FileMode.deprecated (.short 3)) toCommit ∧
    Stops (oneEntry FileMode.submodule (.short 9)) toCommit ∧ Stops (oneEntry FileMode.regular (.short 3)) toTag := by
  have hfails : ∀ {s : Store} {refs : List Reference} {e : WalkError}, walkAllRefs s refs = .error e →
      ¬ SeesReachable s refs := by
    rintro s refs e herr ⟨seen, hok, -⟩
    exact nomatch hok.symm.trans herr
  refine ⟨⟨sound_of_closed ?_ ?_, hfails (e := .unknownObject (.short 3) .blob) ?_⟩,
    ⟨sound_of_closed ?_ ?_, hfails (e := .unknownObject (.short 3) .blob) ?_⟩,
    ⟨sound_of_closed ?_ ?_, hfails (e := .getting (.short 9) .objectNotFound) ?_⟩,
    ⟨sound_of_closed ?_ ?_, hfails (e := .unknownObject (.short 3) .blob) ?_⟩⟩
  all_goals decide +kernel

end GoGit
