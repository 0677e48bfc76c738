import GoGit.ObjectStorage

namespace GoGit.ObjectStorage

open List

section Tables

variable {fails : Read → Bool} {d : Disk} {s : State} {h : ObjectID}

def readPacks (fails : Read → Bool) (d : Disk) : List Pack :=
  if fails .packDir then [] else d.packs.takeWhile fun p => !fails (.idx p.name)

def readObjects (fails : Read → Bool) (d : Disk) : List ObjectID :=
  if fails .objectsDir then [] else (d.fanout.takeWhile fun hashes => !fails (.fanoutDir hashes)).flatten

lemma loadIdxFiles_snd (packs index : List Pack) :
    (loadIdxFiles fails packs index).2 = index ++ packs.takeWhile fun p => !fails (.idx p.name) := by
  induction packs generalizing index with
  | nil => simp [loadIdxFiles]
  | cons p packs ih =>
    rw [loadIdxFiles]
    by_cases hp : fails (.idx p.name) = true
    · simp [hp]
    · simp [hp, ih]

lemma listObjects_snd (dirs : List (List ObjectID)) (objects : List ObjectID) : (listObjects fails dirs objects).2 =
      objects ++ (dirs.takeWhile fun hashes => !fails (.fanoutDir hashes)).flatten := by
  induction dirs generalizing objects with
  | nil => simp [listObjects]
  | cons hashes dirs ih =>
    rw [listObjects]
    by_cases hp : fails (.fanoutDir hashes) = true
    · simp [hp]
    · simp [hp, ih]

lemma requireIndex_snd (hindex : s.index = none) :
    (requireIndex fails d s).2 = { s with index := some (readPacks fails d) } := by
  rw [requireIndex, hindex, readPacks]
  split_ifs
  · rfl
  · simp [loadIdxFiles_snd]

lemma genObjectList_snd (hobjects : s.objects = none) :
    (genObjectList fails d s).2 = { s with objects := some (readObjects fails d) } := by
  rw [genObjectList, hobjects, readObjects]
  split_ifs
  · rfl
  · simp [listObjects_snd]

lemma mem_packs_of_mem_readPacks {p : Pack} (hp : p ∈ readPacks fails d) : p ∈ d.packs := by
  rw [readPacks] at hp
  split_ifs at hp
  · exact absurd hp not_mem_nil
  · exact (takeWhile_sublist _).mem hp

/-- No later lookup, on a filesystem that works, says of an object of the repository that it is not found. -/
def FindsStored (d : Disk) (s : State) : Prop :=
  ∀ env : Env, env.Works → ∀ s', Reached d s s' → ∀ h, d.Stored h →
    (HasEncodedObject env d s' h).1 ≠ some .objectNotFound ∧
    (EncodedObject env d s' h).1 ≠ .error .objectNotFound ∧
    (EncodedObjectSize env d s' h).1 ≠ .error .objectNotFound

lemma findsStored_iff (hbacked : ∀ h, s.Backed d h) : FindsStored d s ↔
    ∀ h, d.Stored h → s.Lists d h ∧ (h ∈ d.loose ∨ Packed (s.index.getD d.packs) h) := by
  constructor
  · intro hfinds h hstored
    by_contra hnot
    have hworks : ({ content := fun _ => ⟨.blob, []⟩ } : Env).Works := ⟨fun _ => rfl, fun _ => .refl _⟩
    obtain ⟨_, -, hhas⟩ := HasEncodedObject_alike hworks (Reached.start.alike hbacked) h
    exact (hfinds _ hworks s .start h hstored).1 (by rw [hhas, if_neg hnot])
  · intro hlists env henv s' hs' h hstored
    have halike := hs'.alike hbacked
    have hfound := hlists h hstored
    have hread : s.Finds d h := hfound.2.imp (⟨hfound.1, ·⟩) id
    obtain ⟨_, -, hhas⟩ := HasEncodedObject_alike henv halike h
    obtain ⟨_, -, hobject⟩ := EncodedObject_alike henv halike (hbacked h)
    obtain ⟨_, -, hsize⟩ := EncodedObjectSize_alike henv halike (hbacked h)
    simp [hhas, hobject, hsize, hfound, hread]

end Tables

/-- A load of a table that fails leaves what it has read, and later lookups take that for the table: the objects of the
repository are found exactly if they are among what has been read, or need not be looked up in that table. -/
theorem findsStored_after_load_iff (fails : Read → Bool) (d : Disk) (exclusive : Bool) {s : State}
    (hs : Reached d { exclusive := exclusive } s) :
    (s.index = none → (FindsStored d (requireIndex fails d s).2 ↔
      ∀ h, Packed d.packs h → h ∈ d.loose ∨ (exclusive = false ∧ Packed (readPacks fails d) h))) ∧
    (s.objects = none → exclusive = true → (FindsStored d (genObjectList fails d s).2 ↔
      ∀ h, d.Stored h → h ∈ readObjects fails d)) := by
  have halike := hs.alike fun _ => State.backed_fresh
  constructor
  · intro hindex
    rw [requireIndex_snd hindex, findsStored_iff]
    · refine forall_congr' fun h => ?_
      simp only [State.Lists, halike.objects, halike.exclusive, Option.getD_none, Option.getD_some, Disk.Stored]
      by_cases hloose : h ∈ d.loose
      · simp [hloose]
      · cases exclusive <;> simp [hloose]
    · exact fun h p hp _ => mem_map_of_mem (mem_packs_of_mem_readPacks hp)
  · rintro hobjects rfl
    rw [genObjectList_snd hobjects, findsStored_iff]
    · refine forall_congr' fun h => ?_
      simp only [State.Lists, halike.index, halike.exclusive, Option.getD_none, Option.getD_some, Disk.Stored]
      tauto
    · intro h p hp _
      rw [halike.index] at hp
      exact mem_map_of_mem hp

theorem findsStored_after_load_loose :
    (requireIndex (fun | .packDir => true | _ => false) ⟨[[.short 1]], [onePack], []⟩ {}).1 = some .io ∧
    FindsStored ⟨[[.short 1]], [onePack], []⟩
      (requireIndex (fun | .packDir => true | _ => false) ⟨[[.short 1]], [onePack], []⟩ {}).2 := by
  refine ⟨rfl, ((findsStored_after_load_iff _ _ false .start).1 rfl).mpr ?_⟩
  rintro h ⟨p, hp, hh⟩
  obtain rfl := mem_singleton.mp hp
  exact .inl hh

theorem not_findsStored_after_load :
    ((requireIndex (fun | .packDir => true | _ => false) packedOnly {}).1 = some .io ∧
      (EncodedObject emptyBlobs packedOnly (requireIndex (fun | .packDir => true | _ => false) packedOnly {}).2
        (.short 1)).1 = .error .objectNotFound) ∧
    ((genObjectList (fun | .objectsDir => true | _ => false) looseOnly { exclusive := true }).1 = some .io ∧
      (EncodedObject emptyBlobs looseOnly (genObjectList (fun | .objectsDir => true | _ => false) looseOnly
        { exclusive := true }).2 (.short 1)).1 = .error .objectNotFound) := by
  decide +kernel

inductive Parsed
  | failed
  | empty
  | parsed (p : Pack)

inductive CloseStep
  | closeReader
  | closeWriter
  | remove
  | createIdx
  | encodeIdx
  | closeIdx
  | rename

namespace PackWriter

/-- `PackfileWriter` of the storage loads the index first. -/
def openWriter (fails : Read → Bool) (d : Disk) (s : State) : Option Fault × State := requireIndex fails d s

def notify (s : State) (p : Pack) : State :=
  { s with index := some ((s.index.getD []).filter (·.name ≠ p.name) ++ [p]) }

/-- The deferred function of `Close`. The index is finished when a pack has been parsed. -/
def announced (s : State) : Parsed → State
  | .parsed p => notify s p
  | _ => s

variable (fails : CloseStep → Bool)

def clean : Option Fault := if fails .remove then some .io else none

/-- `save` writes the index and then moves the pack to its place. -/
def save (d : Disk) (p : Pack) : Option Fault × Disk :=
  if fails .createIdx then (some .io, d)
  else if fails .encodeIdx then (some .io, d)
  else if fails .closeIdx then (some .io, d)
  else if fails .rename then (some .io, d)
  else (none, { d with packs := d.packs.filter (·.name ≠ p.name) ++ [p] })

/-- The body of `Close`. That nothing was written is not an error. -/
def closeFiles (d : Disk) (r : Parsed) : Option Fault × Disk :=
  match r with
  | .failed => (some .io, d)
  | _ =>
    if fails .closeReader then (some .io, d)
    else if fails .closeWriter then (some .io, d)
    else
      match r with
      | .parsed p => save fails d p
      | _ => (clean fails, d)

/-- `Close`, whose deferred function runs at every return. -/
def Close (d : Disk) (s : State) (r : Parsed) : Option Fault × Disk × State :=
  let (err, d) := closeFiles fails d r
  (err, d, announced s r)

variable {fails} {d : Disk} {s : State} {r : Parsed}

lemma closeFiles_error (herr : (closeFiles fails d r).1 ≠ none) : (closeFiles fails d r).2 = d := by
  have hsave : ∀ p, (save fails d p).1 ≠ none → (save fails d p).2 = d := by
    intro p hp
    rw [save] at hp ⊢
    split_ifs at hp ⊢ <;> first | rfl | exact absurd rfl hp
  cases r with
  | failed => rfl
  | empty =>
    simp only [closeFiles]
    split_ifs <;> rfl
  | parsed p =>
    simp only [closeFiles] at herr ⊢
    split_ifs at herr ⊢
    · rfl
    · rfl
    · exact hsave p herr

lemma Close_error {d' : Disk} {s' : State} {e : Fault} (hclose : Close fails d s r = (some e, d', s')) :
    d' = d ∧ s' = announced s r := by
  have herr := @closeFiles_error fails d r
  rw [Close] at hclose
  rcases hfiles : closeFiles fails d r with ⟨err, d''⟩
  rw [hfiles] at hclose herr
  obtain ⟨rfl, rfl, rfl⟩ : err = some e ∧ d'' = d' ∧ announced s r = s' := by simpa using hclose
  exact ⟨herr (by simp), rfl⟩

end PackWriter

section Answers

variable {env : Env} {d : Disk} {s s' : State} {h : ObjectID}

lemma answers_congr (henv : env.Works) (hexclusive : s'.exclusive = s.exclusive)
    (hobjects : s'.objects.getD d.loose = s.objects.getD d.loose)
    (hpacked : Packed (s'.index.getD d.packs) h ↔ Packed (s.index.getD d.packs) h) (hs : s.Backed d h)
    (hs' : s'.Backed d h) : (HasEncodedObject env d s' h).1 = (HasEncodedObject env d s h).1 ∧
    (EncodedObject env d s' h).1 = (EncodedObject env d s h).1 := by
  have hlists : s'.Lists d h ↔ s.Lists d h := by rw [State.Lists, hexclusive, hobjects, State.Lists]
  have hfinds : s'.Finds d h ↔ s.Finds d h := by rw [State.Finds, hlists, hpacked, State.Finds]
  have hrefl : ∀ s : State, s.Alike d s := fun _ => ⟨rfl, rfl, rfl⟩
  obtain ⟨_, -, hhas⟩ := HasEncodedObject_alike henv (hrefl s) h
  obtain ⟨_, -, hhas'⟩ := HasEncodedObject_alike henv (hrefl s') h
  obtain ⟨_, -, hobject⟩ := EncodedObject_alike henv (hrefl s) hs
  obtain ⟨_, -, hobject'⟩ := EncodedObject_alike henv (hrefl s') hs'
  simp only [hhas, hhas', hobject, hobject', hlists, hpacked, hfinds, and_self]

/-- What earlier queries have left in the caches changes no answer. -/
theorem answers_of_reached {exclusive : Bool} (henv : env.Works) (hs : Reached d { exclusive := exclusive } s)
    (h : ObjectID) : (HasEncodedObject env d s h).1 = (HasEncodedObject env d { exclusive := exclusive } h).1 ∧
      (EncodedObject env d s h).1 = (EncodedObject env d { exclusive := exclusive } h).1 ∧
      (EncodedObjectSize env d s h).1 = (EncodedObjectSize env d { exclusive := exclusive } h).1 := by
  have hb : ∀ h, State.Backed { exclusive := exclusive } d h := fun _ => State.backed_fresh
  have halike := hs.alike hb
  obtain ⟨_, -, hsize⟩ := EncodedObjectSize_alike henv halike (hb h)
  obtain ⟨_, -, hsize'⟩ := EncodedObjectSize_alike henv ⟨rfl, rfl, rfl⟩ (hb h)
  obtain ⟨hhas, hobject⟩ := answers_congr henv halike.exclusive halike.objects (by rw [halike.index]) (hb h)
    fun p hp => hb h p (halike.index ▸ hp)
  exact ⟨hhas, hobject, by rw [hsize, hsize']⟩

/-- The list of the loose objects is loaded by the first call, the indexes by the second one. -/
theorem answers_of_reached_loaded :
    let d : Disk := ⟨[[.short 1]], [⟨.short 9, [.short 2]⟩], []⟩
    let s := (EncodedObject emptyBlobs d (HasEncodedObject emptyBlobs d { exclusive := true } (.short 1)).2 (.short 2)).2
    s.objects = some [.short 1] ∧ s.index = some d.packs ∧
      (HasEncodedObject emptyBlobs d s (.short 1)).1 = none ∧
      (EncodedObject emptyBlobs d s (.short 2)).1 = .ok ⟨.blob, []⟩ ∧
      (EncodedObjectSize emptyBlobs d s (.short 3)).1 = .error .objectNotFound := by
  intro d s
  have hreached : Reached d { exclusive := true } s :=
    .query (.query .start emptyBlobs_works .has (.short 1)) emptyBlobs_works .object (.short 2)
  exact ⟨by decide +kernel, by decide +kernel,
    (answers_of_reached emptyBlobs_works hreached _).1.trans (by decide +kernel),
    (answers_of_reached emptyBlobs_works hreached _).2.1.trans (by decide +kernel),
    (answers_of_reached emptyBlobs_works hreached _).2.2.trans (by decide +kernel)⟩

def firstOf (content : ObjectID → Object) (name : ObjectID) : Env where
  content := content
  order := fun l => l.filter (·.name = name) ++ l.filter (¬ ·.name = name)

lemma firstOf_works (content : ObjectID → Object) (name : ObjectID) : (firstOf content name).Works := by
  refine ⟨fun _ => rfl, fun l => ?_⟩
  have hperm := filter_append_perm (fun p : Pack => decide (p.name = name)) l
  simpa [firstOf] using hperm

end Answers

section Closing

variable {d : Disk} {s : State} {p : Pack} {h : ObjectID}

lemma packed_notify (hindex : s.index = some d.packs) (hname : ∀ q ∈ d.packs, q.name = p.name → q = p)
    (hp : p.hashes = [] ∨ p.name ∈ d.packs.map Pack.name) :
    Packed ((PackWriter.notify s p).index.getD d.packs) h ↔ Packed d.packs h := by
  have hon : p.hashes ≠ [] → p ∈ d.packs := by
    intro hne
    obtain ⟨q, hq, hqn⟩ := mem_map.mp (hp.resolve_left hne)
    rwa [← hname q hq hqn]
  simp only [PackWriter.notify, hindex, Option.getD_some, Packed, mem_append, mem_filter, mem_singleton]
  constructor
  · rintro ⟨q, ⟨hq, -⟩ | rfl, hh⟩
    · exact ⟨q, hq, hh⟩
    · exact ⟨q, hon (ne_nil_of_mem hh), hh⟩
  · rintro ⟨q, hq, hh⟩
    by_cases hqn : q.name = p.name
    · obtain rfl := hname q hq hqn
      exact ⟨q, .inr rfl, hh⟩
    · exact ⟨q, .inl ⟨hq, by simpa using hqn⟩, hh⟩

lemma backed_notify (hindex : s.index = some d.packs) (hp : p.hashes = [] ∨ p.name ∈ d.packs.map Pack.name) :
    (PackWriter.notify s p).Backed d h := by
  intro q hq hh
  simp only [PackWriter.notify, hindex, Option.getD_some, mem_append, mem_filter, mem_singleton] at hq
  rcases hq with ⟨hq, -⟩ | rfl
  · exact mem_map_of_mem hq
  · exact hp.resolve_left (ne_nil_of_mem hh)

lemma EncodedObject_notify (content : ObjectID → Object) (hh : h ∈ p.hashes) (hp : p.name ∉ d.packs.map Pack.name) :
    (EncodedObject (firstOf content p.name) d (PackWriter.notify s p) h).1 = .error .packfileNotFound := by
  have hfind : findObjectInPackfile (firstOf content p.name) (PackWriter.notify s p) h = some p := by
    simp [findObjectInPackfile, firstOf, PackWriter.notify, filter_filter, hh]
  have hget : (getObject (firstOf content p.name) d (PackWriter.notify s p) h) =
      (.error .packfileNotFound, PackWriter.notify s p) := by
    have hrequire : requireIndex (firstOf content p.name).fails d (PackWriter.notify s p) =
      (none, PackWriter.notify s p) := rfl
    have hopen : openPack (firstOf content p.name) d p h = .error .packfileNotFound := if_neg hp
    have hpackfile : getFromPackfile (firstOf content p.name) d (PackWriter.notify s p) h =
        (.error .packfileNotFound, PackWriter.notify s p) := by
      simp only [getFromPackfile, hrequire, hfind, hopen]
    have hloaded : (PackWriter.notify s p).index.isSome = true := rfl
    rw [getObject, if_pos hloaded, hpackfile]
  rw [EncodedObject_eq, hget]

end Closing

/-- A `PackWriter` is opened on a storage and its `Close` fails. Every lookup answers as before exactly if no pack was
parsed, or one without objects, or one that is on disk: otherwise the index of a pack that is not there has been
announced. A pack is named after its content. -/
theorem Close_error_unchanged_iff (fails : CloseStep → Bool) (d : Disk) (exclusive : Bool) (r : Parsed) {env₀ : Env}
    {s s' : State} {d' : Disk} {e : Fault} (henv₀ : env₀.Works) (hs : Reached d { exclusive := exclusive } s)
    (hname : ∀ q ∈ d.packs, ∀ p, r = .parsed p → q.name = p.name → q = p)
    (hclose : PackWriter.Close fails d (PackWriter.openWriter env₀.fails d s).2 r = (some e, d', s')) :
    (∀ env : Env, env.Works → ∀ h, (HasEncodedObject env d' s' h).1 = (HasEncodedObject env d s h).1 ∧
      (EncodedObject env d' s' h).1 = (EncodedObject env d s h).1) ↔
    ∀ p, r = .parsed p → p.hashes = [] ∨ p.name ∈ d.packs.map Pack.name := by
  have halike := hs.alike fun _ => State.backed_fresh
  have hbacked : ∀ h, s.Backed d h := by
    intro h p hp _
    rw [halike.index] at hp
    exact mem_map_of_mem hp
  have hopen : (PackWriter.openWriter env₀.fails d s).2 = { s with index := some d.packs } := by
    rw [PackWriter.openWriter, requireIndex_works henv₀, halike.index]
    rfl
  rw [hopen] at hclose
  obtain ⟨rfl, rfl⟩ := PackWriter.Close_error hclose
  constructor
  · rintro hsame p rfl
    rw [or_iff_not_imp_right]
    intro hname
    by_contra hne
    obtain ⟨h, hh⟩ := exists_mem_of_ne_nil _ hne
    have hread := (hsame (firstOf (fun _ => ⟨.blob, []⟩) p.name) (firstOf_works _ _) h).2
    obtain ⟨_, -, hobject⟩ := EncodedObject_alike (firstOf_works (fun _ => ⟨.blob, []⟩) p.name) halike
      (@State.backed_fresh _ h exclusive)
    rw [PackWriter.announced, EncodedObject_notify _ hh hname, hobject] at hread
    dsimp only at hread
    split_ifs at hread
    generalize encodedAlternate _ _ _ = first at hread
    cases first <;> simp at hread
  · intro hp env henv h
    cases r with
    | parsed p =>
      refine answers_congr henv rfl rfl ?_ (hbacked h) (backed_notify rfl (hp p rfl))
      rw [halike.index]
      exact packed_notify rfl (fun q hq => hname q hq p rfl) (hp p rfl)
    | failed | empty =>
      refine answers_congr henv rfl rfl ?_ (hbacked h) ?_
      · rw [halike.index]
        rfl
      · exact fun q hq _ => mem_map_of_mem hq

def renameFails : CloseStep → Bool
  | .rename => true
  | _ => false

theorem Close_error_unchanged_again :
    (PackWriter.Close renameFails packedOnly (PackWriter.openWriter emptyBlobs.fails packedOnly {}).2
      (.parsed onePack)).1 = some .io ∧
    ∀ env : Env, env.Works → ∀ h,
      (HasEncodedObject env packedOnly ⟨false, some [onePack], none⟩ h).1 = (HasEncodedObject env packedOnly {} h).1 ∧
      (EncodedObject env packedOnly ⟨false, some [onePack], none⟩ h).1 = (EncodedObject env packedOnly {} h).1 := by
  refine ⟨rfl, (Close_error_unchanged_iff renameFails _ false (.parsed onePack) emptyBlobs_works .start ?_ rfl).mpr ?_⟩
  · rintro q hq p ⟨⟩ -
    exact mem_singleton.mp hq
  · rintro p ⟨⟩
    exact .inr (by decide)

theorem Close_error_changed :
    (PackWriter.Close renameFails ⟨[], [], []⟩ ⟨false, some [], none⟩ (.parsed onePack)).1 = some .io ∧
    (HasEncodedObject emptyBlobs ⟨[], [], []⟩ ⟨false, some [], none⟩ (.short 1)).1 = some .objectNotFound ∧
    (HasEncodedObject emptyBlobs ⟨[], [], []⟩
      (PackWriter.Close renameFails ⟨[], [], []⟩ ⟨false, some [], none⟩ (.parsed onePack)).2.2 (.short 1)).1 = none ∧
    (EncodedObject emptyBlobs ⟨[], [], []⟩
      (PackWriter.Close renameFails ⟨[], [], []⟩ ⟨false, some [], none⟩ (.parsed onePack)).2.2 (.short 1)).1 =
        .error .packfileNotFound := by
  decide +kernel

end GoGit.ObjectStorage
