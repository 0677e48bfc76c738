import GoGit.Object

/-! `ObjectStorage`: objects in files of their own, in packs, and in the repositories that are its alternates. The
indexes of the packs are loaded when they are first needed; with `ExclusiveAccess` so is the list of the loose
objects. A file holds the object that its name stands for. -/
namespace GoGit.ObjectStorage

structure Object where
  type : ObjectType
  content : Bytes
  deriving DecidableEq

def Object.size (o : Object) : ℕ := o.content.length

structure Pack where
  name : ObjectID
  hashes : List ObjectID
  deriving DecidableEq

/-- The files of a repository: directories of loose objects, packs, and the repositories of its alternates. -/
structure Disk where
  fanout : List (List ObjectID)
  packs : List Pack
  alternates : List Disk := []

namespace Disk

def loose (d : Disk) : List ObjectID := d.fanout.flatten

end Disk

inductive Read
  | packDir
  | idx (name : ObjectID)
  | objectsDir
  | fanoutDir (hashes : List ObjectID)

inductive Fault
  | io
  | notExist
  | objectNotFound
  | packfileNotFound
  deriving DecidableEq

structure State where
  exclusive : Bool := false
  index : Option (List Pack) := none
  objects : Option (List ObjectID) := none

section Tables

variable (fails : Read → Bool) (d : Disk) (s : State)

/-- The loop of `requireIndex`, with the indexes that are loaded so far. -/
def loadIdxFiles : List Pack → List Pack → Option Fault × List Pack
  | [], index => (none, index)
  | p :: packs, index => if fails (.idx p.name) then (some .io, index) else loadIdxFiles packs (index ++ [p])

/-- `requireIndex`. The table is there before anything is read. -/
def requireIndex : Option Fault × State :=
  match s.index with
  | some _ => (none, s)
  | none =>
    if fails .packDir then (some .io, { s with index := some [] })
    else
      let (err, index) := loadIdxFiles fails d.packs []
      (err, { s with index := some index })

/-- The loop of `forEachObjectHash` over the directories, with the objects that are listed so far. -/
def listObjects : List (List ObjectID) → List ObjectID → Option Fault × List ObjectID
  | [], objects => (none, objects)
  | hashes :: dirs, objects =>
    if fails (.fanoutDir hashes) then (some .io, objects) else listObjects dirs (objects ++ hashes)

/-- `genObjectList`, which also makes its table first. -/
def genObjectList : Option Fault × State :=
  match s.objects with
  | some _ => (none, s)
  | none =>
    if fails .objectsDir then (some .io, { s with objects := some [] })
    else
      let (err, objects) := listObjects fails d.fanout []
      (err, { s with objects := some objects })

end Tables

/-- How an object is looked up: reads that fail, the order in which the map of the indexes is gone through, and what is
in the cache. -/
structure Env where
  content : ObjectID → Object
  fails : Read → Bool := fun _ => false
  order : List Pack → List Pack := id
  cached : ObjectID → Bool := fun _ => false

section Lookups

variable (env : Env)

def dirObject (d : Disk) (s : State) (h : ObjectID) : Option Fault × State :=
  let exists? : Option Fault := if h ∈ d.loose then none else some .notExist
  if s.exclusive then
    match genObjectList env.fails d s with
    | (some e, s) => (some e, s)
    | (none, s) => if h ∈ s.objects.getD [] then (exists?, s) else (some .objectNotFound, s)
  else (exists?, s)

def findObjectInPackfile (s : State) (h : ObjectID) : Option Pack :=
  (env.order (s.index.getD [])).find? (h ∈ ·.hashes)

def HasEncodedObject (d : Disk) (s : State) (h : ObjectID) : Option Fault × State :=
  match dirObject env d s h with
  | (none, s) => (none, s)
  | (some .notExist, s) =>
    match requireIndex env.fails d s with
    | (some e, s) => (some e, s)
    | (none, s) => if (findObjectInPackfile env s h).isNone then (some .objectNotFound, s) else (none, s)
  | (some e, s) => (some e, s)

/-- `getFromUnpacked`, which takes the object from the cache or reads it. -/
def getFromUnpacked (d : Disk) (s : State) (h : ObjectID) : Except Fault Object × State :=
  match dirObject env d s h with
  | (none, s) => (.ok (env.content h), s)
  | (some .notExist, s) => (.error .objectNotFound, s)
  | (some e, s) => (.error e, s)

def openPack (d : Disk) (p : Pack) (h : ObjectID) : Except Fault Object :=
  if p.name ∈ d.packs.map Pack.name then .ok (env.content h) else .error .packfileNotFound

def getFromPackfile (d : Disk) (s : State) (h : ObjectID) : Except Fault Object × State :=
  match requireIndex env.fails d s with
  | (some e, s) => (.error e, s)
  | (none, s) =>
    match findObjectInPackfile env s h with
    | none => (.error .objectNotFound, s)
    | some p => (openPack env d p h, s)

/-- The object of this repository. The packs come first if their indexes are loaded. -/
def getObject (d : Disk) (s : State) (h : ObjectID) : Except Fault Object × State :=
  if s.index.isSome then
    match getFromPackfile env d s h with
    | (.error .objectNotFound, s) => getFromUnpacked env d s h
    | r => r
  else
    match getFromUnpacked env d s h with
    | (.error .objectNotFound, s) => getFromPackfile env d s h
    | r => r

mutual

/-- `EncodedObject` of any type. An alternate is opened as a new storage. -/
def EncodedObject : Disk → State → ObjectID → Except Fault Object × State
  | ⟨fanout, packs, alternates⟩, s, h =>
    match getObject env ⟨fanout, packs, alternates⟩ s h with
    | (.error .objectNotFound, s) =>
      match encodedAlternate alternates h with
      | some o => (.ok o, s)
      | none => (.error .objectNotFound, s)
    | r => r

def encodedAlternate : List Disk → ObjectID → Option Object
  | [], _ => none
  | d :: alternates, h =>
    match EncodedObject d {} h with
    | (.ok o, _) => some o
    | (.error _, _) => encodedAlternate alternates h

end

def encodedObjectSizeFromUnpacked (d : Disk) (s : State) (h : ObjectID) : Except Fault ℕ × State :=
  match dirObject env d s h with
  | (none, s) => (.ok (env.content h).size, s)
  | (some .notExist, s) => (.error .objectNotFound, s)
  | (some e, s) => (.error e, s)

def encodedObjectSizeFromPackfile (d : Disk) (s : State) (h : ObjectID) : Except Fault ℕ × State :=
  match requireIndex env.fails d s with
  | (some e, s) => (.error e, s)
  | (none, s) =>
    match findObjectInPackfile env s h with
    | none => (.error .objectNotFound, s)
    | some p =>
      if env.cached h then (.ok (env.content h).size, s) else ((openPack env d p h).map Object.size, s)

def EncodedObjectSize (d : Disk) (s : State) (h : ObjectID) : Except Fault ℕ × State :=
  match encodedObjectSizeFromUnpacked env d s h with
  | (.error .objectNotFound, s) => encodedObjectSizeFromPackfile env d s h
  | r => r

end Lookups

structure Env.Works (env : Env) : Prop where
  fails : ∀ r, env.fails r = false
  order : ∀ l, (env.order l).Perm l

def Packed (packs : List Pack) (h : ObjectID) : Prop := ∃ p ∈ packs, h ∈ p.hashes

instance (packs : List Pack) (h : ObjectID) : Decidable (Packed packs h) :=
  inferInstanceAs (Decidable (∃ p ∈ packs, h ∈ p.hashes))

def Disk.Stored (d : Disk) (h : ObjectID) : Prop := h ∈ d.loose ∨ Packed d.packs h

instance (d : Disk) (h : ObjectID) : Decidable (d.Stored h) := inferInstanceAs (Decidable (_ ∨ _))

/-- The repository has the object, or an alternate, or one of its alternates. -/
inductive Disk.Reaches (h : ObjectID) : Disk → Prop
  | here {d : Disk} (hd : d.Stored h) : Reaches h d
  | alternate {d a : Disk} (ha : a ∈ d.alternates) (hr : Reaches h a) : Reaches h d

section Working

variable {env : Env} {d : Disk} {s : State} {h : ObjectID}

lemma requireIndex_works (henv : env.Works) :
    requireIndex env.fails d s = (none, { s with index := some (s.index.getD d.packs) }) := by
  have hload : ∀ packs index, loadIdxFiles env.fails packs index = (none, index ++ packs) := by
    intro packs
    induction packs with
    | nil => simp [loadIdxFiles]
    | cons p packs ih => simp [loadIdxFiles, henv.fails, ih]
  obtain ⟨exclusive, index, objects⟩ := s
  cases index with
  | none => simp [requireIndex, henv.fails, hload]
  | some index => rfl

lemma genObjectList_works (henv : env.Works) :
    genObjectList env.fails d s = (none, { s with objects := some (s.objects.getD d.loose) }) := by
  have hlist : ∀ dirs objects, listObjects env.fails dirs objects = (none, objects ++ dirs.flatten) := by
    intro dirs
    induction dirs with
    | nil => simp [listObjects]
    | cons hashes dirs ih => simp [listObjects, henv.fails, ih]
  obtain ⟨exclusive, index, objects⟩ := s
  cases objects with
  | none => simp [genObjectList, henv.fails, hlist, Disk.loose]
  | some objects => rfl

/-- The object is listed, or the list is not looked at. -/
def State.Lists (s : State) (d : Disk) (h : ObjectID) : Prop := s.exclusive = true → h ∈ s.objects.getD d.loose

instance : Decidable (s.Lists d h) := inferInstanceAs (Decidable (_ → _))

def State.Backed (s : State) (d : Disk) (h : ObjectID) : Prop :=
  ∀ p ∈ s.index.getD d.packs, h ∈ p.hashes → p.name ∈ d.packs.map Pack.name

def State.Finds (s : State) (d : Disk) (h : ObjectID) : Prop :=
  (s.Lists d h ∧ h ∈ d.loose) ∨ Packed (s.index.getD d.packs) h

instance : Decidable (s.Finds d h) := inferInstanceAs (Decidable (_ ∨ _))

structure State.Alike (d : Disk) (s s' : State) : Prop where
  exclusive : s.exclusive = s'.exclusive
  index : s.index.getD d.packs = s'.index.getD d.packs
  objects : s.objects.getD d.loose = s'.objects.getD d.loose

lemma findObjectInPackfile_cases (henv : env.Works) {index : List Pack} (hindex : s.index = some index) (h : ObjectID) :
    (findObjectInPackfile env s h = none ∧ ¬ Packed index h) ∨
      ∃ p ∈ index, findObjectInPackfile env s h = some p ∧ h ∈ p.hashes ∧ Packed index h := by
  have hmem : ∀ p, p ∈ env.order index ↔ p ∈ index := fun p => (henv.order index).mem_iff
  rw [findObjectInPackfile, hindex, Option.getD_some]
  cases hp : (env.order index).find? (h ∈ ·.hashes) with
  | none => exact .inl ⟨rfl, by simpa [Packed, hmem] using hp⟩
  | some p =>
    have hindex := (hmem p).mp (List.mem_of_find?_eq_some hp)
    have hh : h ∈ p.hashes := by simpa using List.find?_some hp
    exact .inr ⟨p, hindex, rfl, hh, p, hindex, hh⟩

lemma EncodedObject_eq : EncodedObject env d s h = match getObject env d s h with
    | (.error .objectNotFound, s) =>
      ((encodedAlternate env d.alternates h).elim (.error .objectNotFound) .ok, s)
    | r => r := by
  obtain ⟨fanout, packs, alternates⟩ := d
  rw [EncodedObject]
  rcases getObject env ⟨fanout, packs, alternates⟩ s h with ⟨e | o, s'⟩
  · cases e <;> try rfl
    cases encodedAlternate env alternates h <;> rfl
  · rfl

lemma encodedObjectSizeFromUnpacked_eq :
    encodedObjectSizeFromUnpacked env d s h = (getFromUnpacked env d s h).map (Except.map Object.size) id := by
  rw [encodedObjectSizeFromUnpacked, getFromUnpacked]
  rcases dirObject env d s h with ⟨_ | e, s'⟩
  · rfl
  · cases e <;> rfl

/-! Every lookup on a filesystem that works answers by what a state knows, and leaves a state that knows the same. -/

section

variable {b : State} (henv : env.Works) (hs : s.Alike d b)

include henv hs

lemma requireIndex_alike : ∃ s', requireIndex env.fails d s = (none, s') ∧ s'.Alike d b ∧
    s'.index = some (b.index.getD d.packs) :=
  ⟨_, requireIndex_works henv, ⟨hs.exclusive, hs.index, hs.objects⟩, by rw [hs.index]⟩

lemma dirObject_alike (h : ObjectID) : ∃ s', s'.Alike d b ∧ dirObject env d s h =
    (if ¬ b.Lists d h then some .objectNotFound else if h ∈ d.loose then none else some .notExist, s') := by
  rw [dirObject, genObjectList_works henv]
  by_cases hexclusive : b.exclusive = true
  · refine ⟨{ s with objects := some (b.objects.getD d.loose) }, ⟨hs.exclusive, hs.index, rfl⟩, ?_⟩
    by_cases hmem : h ∈ b.objects.getD d.loose <;> simp [State.Lists, hs.exclusive, hs.objects, hexclusive, hmem]
  · exact ⟨s, hs, by simp [State.Lists, hs.exclusive, hexclusive]⟩

lemma HasEncodedObject_alike (h : ObjectID) : ∃ s', s'.Alike d b ∧ HasEncodedObject env d s h =
    (if b.Lists d h ∧ (h ∈ d.loose ∨ Packed (b.index.getD d.packs) h) then none else some .objectNotFound, s') := by
  obtain ⟨s₁, hs₁, hdir⟩ := dirObject_alike henv hs h
  obtain ⟨s₂, hrequire, hs₂, hindex⟩ := requireIndex_alike henv hs₁
  rw [HasEncodedObject, hdir]
  by_cases hlists : b.Lists d h
  · by_cases hloose : h ∈ d.loose
    · exact ⟨s₁, hs₁, by simp [hlists, hloose]⟩
    · refine ⟨s₂, hs₂, ?_⟩
      rcases findObjectInPackfile_cases henv hindex h with ⟨hp, hnot⟩ | ⟨p, -, hp, -, hpacked⟩
      · simp [hlists, hloose, hrequire, hp, hnot]
      · simp [hlists, hloose, hrequire, hp, hpacked]
  · exact ⟨s₁, hs₁, by simp [hlists]⟩

lemma getFromUnpacked_alike (h : ObjectID) : ∃ s', s'.Alike d b ∧ getFromUnpacked env d s h =
    (if b.Lists d h ∧ h ∈ d.loose then .ok (env.content h) else .error .objectNotFound, s') := by
  obtain ⟨s', hs', hdir⟩ := dirObject_alike henv hs h
  refine ⟨s', hs', ?_⟩
  rw [getFromUnpacked, hdir]
  by_cases hlists : b.Lists d h <;> by_cases hloose : h ∈ d.loose <;> simp [hlists, hloose]

variable (hb : b.Backed d h)

include hb

lemma getFromPackfile_alike : ∃ s', s'.Alike d b ∧ getFromPackfile env d s h =
    (if Packed (b.index.getD d.packs) h then .ok (env.content h) else .error .objectNotFound, s') := by
  obtain ⟨s', hrequire, hs', hindex⟩ := requireIndex_alike henv hs
  refine ⟨s', hs', ?_⟩
  rw [getFromPackfile, hrequire]
  rcases findObjectInPackfile_cases henv hindex h with ⟨hp, hnot⟩ | ⟨p, hmem, hp, hh, hpacked⟩
  · simp only [hp, if_neg hnot]
  · simp only [hp, openPack, if_pos (hb p hmem hh), if_pos hpacked]

lemma getObject_alike : ∃ s', s'.Alike d b ∧ getObject env d s h =
    (if b.Finds d h then .ok (env.content h) else .error .objectNotFound, s') := by
  by_cases hindex : s.index.isSome = true
  · rw [getObject, if_pos hindex]
    obtain ⟨s₁, hs₁, hpack⟩ := getFromPackfile_alike henv hs hb
    obtain ⟨s₂, hs₂, hunpacked⟩ := getFromUnpacked_alike henv hs₁ h
    by_cases hpacked : Packed (b.index.getD d.packs) h
    · exact ⟨s₁, hs₁, by simp [hpack, hpacked, State.Finds]⟩
    · exact ⟨s₂, hs₂, by simp [hpack, hpacked, hunpacked, State.Finds]⟩
  · rw [getObject, if_neg hindex]
    obtain ⟨s₁, hs₁, hunpacked⟩ := getFromUnpacked_alike henv hs h
    obtain ⟨s₂, hs₂, hpack⟩ := getFromPackfile_alike henv hs₁ hb
    by_cases hloose : b.Lists d h ∧ h ∈ d.loose
    · exact ⟨s₁, hs₁, by simp [hunpacked, hloose, State.Finds]⟩
    · exact ⟨s₂, hs₂, by simp [hunpacked, hloose, hpack, State.Finds]⟩

lemma EncodedObject_alike : ∃ s', s'.Alike d b ∧ EncodedObject env d s h =
    (if b.Finds d h then .ok (env.content h) else
      (encodedAlternate env d.alternates h).elim (.error .objectNotFound) .ok, s') := by
  obtain ⟨s', hs', hget⟩ := getObject_alike henv hs hb
  refine ⟨s', hs', ?_⟩
  rw [EncodedObject_eq, hget]
  split_ifs <;> rfl

lemma EncodedObjectSize_alike : ∃ s', s'.Alike d b ∧ EncodedObjectSize env d s h =
    (if b.Finds d h then .ok (env.content h).size else .error .objectNotFound, s') := by
  obtain ⟨s₁, hs₁, hunpacked⟩ := getFromUnpacked_alike henv hs h
  obtain ⟨s₂, hrequire, hs₂, hindex⟩ := requireIndex_alike henv hs₁
  rw [EncodedObjectSize, encodedObjectSizeFromUnpacked_eq, hunpacked]
  by_cases hloose : b.Lists d h ∧ h ∈ d.loose
  · exact ⟨s₁, hs₁, by simp [hloose, State.Finds, Except.map]⟩
  · refine ⟨s₂, hs₂, ?_⟩
    simp only [if_neg hloose, Prod.map, Except.map, id, encodedObjectSizeFromPackfile, hrequire]
    rcases findObjectInPackfile_cases henv hindex h with ⟨hp, hnot⟩ | ⟨p, hmem, hp, hh, hpacked⟩
    · simp [hp, State.Finds, hloose, hnot]
    · have hopen : openPack env d p h = .ok (env.content h) := if_pos (hb p hmem hh)
      simp [hp, State.Finds, hopen, hpacked]

end

inductive Query
  | has
  | object
  | size

def Query.state (env : Env) (d : Disk) (s : State) (h : ObjectID) : Query → State
  | .has => (HasEncodedObject env d s h).2
  | .object => (EncodedObject env d s h).2
  | .size => (EncodedObjectSize env d s h).2

inductive Reached (d : Disk) (s : State) : State → Prop
  | start : Reached d s s
  | query {env : Env} {s' : State} (hs : Reached d s s') (henv : env.Works) (q : Query) (h : ObjectID) :
      Reached d s (q.state env d s' h)

lemma Reached.alike {s' : State} (hb : ∀ h, s.Backed d h) (hs : Reached d s s') : s'.Alike d s := by
  induction hs with
  | start => exact ⟨rfl, rfl, rfl⟩
  | @query env s' hs henv q h ih =>
    cases q with
    | has =>
      obtain ⟨s'', hs'', heq⟩ := HasEncodedObject_alike henv ih h
      rwa [Query.state, heq]
    | object =>
      obtain ⟨s'', hs'', heq⟩ := EncodedObject_alike henv ih (hb h)
      rwa [Query.state, heq]
    | size =>
      obtain ⟨s'', hs'', heq⟩ := EncodedObjectSize_alike henv ih (hb h)
      rwa [Query.state, heq]

section Fresh

variable {exclusive : Bool}

lemma State.backed_fresh : ({ exclusive := exclusive } : State).Backed d h := fun _ hp _ => List.mem_map_of_mem hp

lemma State.finds_fresh : ({ exclusive := exclusive } : State).Finds d h ↔ d.Stored h := by
  simp only [Finds, Lists, Disk.Stored, Option.getD_none]
  tauto

lemma Disk.reaches_iff : d.Reaches h ↔ d.Stored h ∨ ∃ a ∈ d.alternates, a.Reaches h := by
  constructor
  · rintro (hd | ⟨ha, hr⟩)
    · exact .inl hd
    · exact .inr ⟨_, ha, hr⟩
  · rintro (hd | ⟨a, ha, hr⟩)
    · exact .here hd
    · exact .alternate ha hr

mutual

lemma EncodedObject_ok_iff (henv : env.Works) (h : ObjectID) : ∀ (d : Disk) (s : State) (exclusive : Bool),
    s.Alike d { exclusive := exclusive } → ∀ o : Object,
    (EncodedObject env d s h).1 = .ok o ↔ o = env.content h ∧ d.Reaches h
  | ⟨fanout, packs, alternates⟩, s, exclusive, hs, o => by
    obtain ⟨s', -, heq⟩ := EncodedObject_alike henv hs (@State.backed_fresh _ h _)
    rw [Disk.reaches_iff]
    simp only [heq, State.finds_fresh]
    split_ifs with hstored
    · simp [hstored, eq_comm]
    · simp only [hstored, false_or]
      rw [← encodedAlternate_eq_some_iff henv h alternates o]
      cases encodedAlternate env alternates h <;> simp

lemma encodedAlternate_eq_some_iff (henv : env.Works) (h : ObjectID) : ∀ (alternates : List Disk) (o : Object),
    encodedAlternate env alternates h = some o ↔ o = env.content h ∧ ∃ a ∈ alternates, a.Reaches h
  | [], o => by simp [encodedAlternate]
  | d :: alternates, o => by
    have hd := EncodedObject_ok_iff henv h d {} false ⟨rfl, rfl, rfl⟩
    have hrest := encodedAlternate_eq_some_iff henv h alternates o
    rw [encodedAlternate]
    rcases hr : EncodedObject env d {} h with ⟨e | o', s'⟩
    · have hnot : ¬ d.Reaches h := fun hreach => by simpa [hr] using (hd _).mpr ⟨rfl, hreach⟩
      simp [hrest, hnot]
    · obtain ⟨rfl, hreach⟩ := (hd o').mp (by rw [hr])
      simp only [Option.some.injEq, List.mem_cons]
      exact ⟨fun ho => ⟨ho.symm, d, .inl rfl, hreach⟩, fun ho => ho.1.symm⟩

end

end Fresh

end Working

/-- A lookup asks whether an object is there, reads it and asks for its size, in any states that the storage gets to. The
answers agree exactly if the object is loose, or in a pack that is looked at, or nowhere: the first and the last do not
look into alternates, and with `ExclusiveAccess` the first does not look into packs. -/
theorem HasEncodedObject_agrees_iff (d : Disk) (exclusive : Bool) (h : ObjectID) {env₁ env₂ env₃ : Env}
    {s₁ s₂ s₃ : State} (henv₁ : env₁.Works) (henv₂ : env₂.Works) (henv₃ : env₃.Works)
    (hcontent : env₃.content = env₂.content) (hs₁ : Reached d { exclusive := exclusive } s₁)
    (hs₂ : Reached d { exclusive := exclusive } s₂) (hs₃ : Reached d { exclusive := exclusive } s₃) :
    (((HasEncodedObject env₁ d s₁ h).1 = none ↔ ∃ o, (EncodedObject env₂ d s₂ h).1 = .ok o) ∧
      ∀ o, (EncodedObject env₂ d s₂ h).1 = .ok o → (EncodedObjectSize env₃ d s₃ h).1 = .ok o.size) ↔
    h ∈ d.loose ∨ (exclusive = false ∧ Packed d.packs h) ∨
      (¬ Packed d.packs h ∧ ∀ a ∈ d.alternates, ¬ a.Reaches h) := by
  have hread : ∀ o, (EncodedObject env₂ d s₂ h).1 = .ok o ↔ o = env₂.content h ∧ d.Reaches h :=
    EncodedObject_ok_iff henv₂ h d s₂ exclusive (hs₂.alike fun _ => State.backed_fresh)
  obtain ⟨_, -, hhas⟩ := HasEncodedObject_alike henv₁ (hs₁.alike fun _ => State.backed_fresh) h
  obtain ⟨_, -, hsize⟩ := EncodedObjectSize_alike henv₃ (hs₃.alike fun _ => State.backed_fresh)
    (@State.backed_fresh _ h _)
  simp only [hread, hhas, hsize, hcontent, exists_eq_left, State.finds_fresh, State.Lists, Option.getD_none,
    @Disk.reaches_iff d h, Disk.Stored]
  by_cases hloose : h ∈ d.loose
  · simp +contextual [hloose]
  · by_cases hpacked : Packed d.packs h
    · cases exclusive <;> simp +contextual [hloose, hpacked]
    · simp +contextual [hloose, hpacked]

/-- An environment in which every read works and every object is the empty blob. -/
def emptyBlobs : Env where
  content := fun _ => ⟨.blob, []⟩

lemma emptyBlobs_works : emptyBlobs.Works := ⟨fun _ => rfl, fun _ => .refl _⟩

def onePack : Pack := ⟨.short 9, [.short 1]⟩

def packedOnly : Disk := ⟨[], [onePack], []⟩

def looseOnly : Disk := ⟨[[.short 1]], [], []⟩

theorem HasEncodedObject_agrees_packed :
    ((HasEncodedObject emptyBlobs packedOnly {} (.short 1)).1 = none ↔
      ∃ o, (EncodedObject emptyBlobs packedOnly ⟨false, some [onePack], none⟩ (.short 1)).1 = .ok o) ∧
    ∀ o, (EncodedObject emptyBlobs packedOnly ⟨false, some [onePack], none⟩ (.short 1)).1 = .ok o →
      (EncodedObjectSize emptyBlobs packedOnly {} (.short 1)).1 = .ok o.size :=
  (HasEncodedObject_agrees_iff _ false _ emptyBlobs_works emptyBlobs_works emptyBlobs_works rfl .start
    (.query .start emptyBlobs_works .has (.short 1)) .start).mpr (.inr (.inl ⟨rfl, by decide⟩))

theorem HasEncodedObject_not_agrees :
    ((HasEncodedObject emptyBlobs ⟨[], [], [looseOnly]⟩ {} (.short 1)).1 = some .objectNotFound ∧
      (EncodedObject emptyBlobs ⟨[], [], [looseOnly]⟩ {} (.short 1)).1 = .ok ⟨.blob, []⟩ ∧
      (EncodedObjectSize emptyBlobs ⟨[], [], [looseOnly]⟩ {} (.short 1)).1 = .error .objectNotFound) ∧
    ((HasEncodedObject emptyBlobs packedOnly { exclusive := true } (.short 1)).1 = some .objectNotFound ∧
      (EncodedObject emptyBlobs packedOnly { exclusive := true } (.short 1)).1 = .ok ⟨.blob, []⟩) := by
  decide +kernel

end GoGit.ObjectStorage
