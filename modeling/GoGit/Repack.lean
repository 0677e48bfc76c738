import GoGit.ObjectWalker

/-! The objects that can be reached go to a new pack, then their loose copies are deleted, and then the old packs. The
pack gets its index and its name when its writer is closed, which is put off to the end of the function that also
deletes the loose objects. One storage operation may fail; a failed operation has no effect. The storage keeps the
indexes of its packs: that of a new pack is added when its writer is closed, whether or not the pack gets its name, and
that of a pack that is deleted stays. -/
namespace GoGit.Repack

open List

lemma lookup_ne_none_iff {l : List (ObjectID × Object)} {h : ObjectID} : l.lookup h ≠ none ↔ h ∈ l.map Prod.fst := by
  rw [ne_eq, lookup_eq_none_iff, mem_map]
  simp only [bne_iff_ne, ne_eq, not_forall, not_not, exists_prop]
  exact exists_congr fun p => and_congr_right fun _ => eq_comm

structure Pack where
  name : ObjectID
  objects : List (ObjectID × Object)
  modTime : Time := .zero

def Pack.names (p : Pack) : List ObjectID := p.objects.map Prod.fst

/-- The files of a storage, the indexes that it has loaded, and the packs whose index files are cut off. -/
structure Storage where
  loose : List (ObjectID × Object)
  packs : List Pack
  index : List Pack := packs
  cut : List ObjectID := []

namespace Storage

def packed (d : Storage) : List (ObjectID × Object) := d.packs.flatMap Pack.objects

/-- The object of a name, as long as the indexes are those of the packs. -/
def object (d : Storage) (h : ObjectID) : Option Object := (d.loose.lookup h).or (d.packed.lookup h)

lemma object_ne_none_iff {d : Storage} {h : ObjectID} :
    d.object h ≠ none ↔ h ∈ d.loose.map Prod.fst ∨ ∃ p ∈ d.packs, h ∈ p.names := by
  rw [object, ne_eq, Option.or_eq_none_iff, not_and_or, ← ne_eq, ← ne_eq, lookup_ne_none_iff, lookup_ne_none_iff,
    packed, map_flatMap, mem_flatMap]
  rfl

def store (d : Storage) : Store where
  object := d.object
  names := d.loose.map Prod.fst ++ d.packs.flatMap Pack.names
  mem_names h hh := by
    rw [mem_append, mem_flatMap]
    exact object_ne_none_iff.mp hh

/-- `EncodedObject` with the indexes in the order in which their map is gone through: the first pack that should have
the object is opened. -/
def EncodedObject (d : Storage) (order : List Pack) (h : ObjectID) : Option Object :=
  match order.find? (h ∈ ·.names) with
  | some p => d.packs.findSome? fun q => if q.name = p.name then q.objects.lookup h else none
  | none => d.loose.lookup h

/-- The object is read whatever the order of the indexes. -/
def Reads (d : Storage) (h : ObjectID) : Prop := ∀ order, order.Perm d.index → d.EncodedObject order h ≠ none

/-- The first read of a storage that is opened later: if an index cannot be loaded, no pack is looked at. -/
def reopened (d : Storage) : Storage := { d with index := if d.packs.any (·.name ∈ d.cut) then [] else d.packs }

def removeLoose (d : Storage) (h : ObjectID) : Storage := { d with loose := d.loose.filter (·.1 ≠ h) }

def removePack (d : Storage) (name : ObjectID) : Storage := { d with packs := d.packs.filter (·.name ≠ name) }

def setCut (d : Storage) (name : ObjectID) (cut : Bool) : Storage :=
  { d with cut := (if cut then [name] else []) ++ d.cut.filter (· ≠ name) }

def install (d : Storage) (p : Pack) : Storage := { d with packs := p :: (d.removePack p.name).packs }

/-- The hook of the writer, which is called when it is closed. -/
def notify (d : Storage) (p : Pack) : Storage := { d with index := p :: d.index.filter (·.name ≠ p.name) }

end Storage

inductive Op
  | objectPacks
  | walk
  | packfileWriter
  | config
  | encode
  | listLoose
  | deleteLoose (h : ObjectID)
  | buildIndex
  | closeReader
  | closeWriter
  | createIdx
  | encodeIdx
  | closeIdx
  | rename
  | stat (pack : ObjectID)
  | deletePack (pack : ObjectID)
  | deleteIdx (pack : ObjectID)
  deriving DecidableEq

inductive RepackError
  | failed (op : Op)
  | walk (e : WalkError)
  | missingObject
  deriving DecidableEq

section Repack

variable (fault : Option Op)

def PackWriter.Close (d : Storage) (new : Pack) : Except RepackError Unit × Storage :=
  if fault = some .buildIndex then (.error (.failed .buildIndex), d)
  -- the pack has been read to its end now, so that its index is added in any case
  else if fault = some .closeReader then (.error (.failed .closeReader), d.notify new)
  else if fault = some .closeWriter then (.error (.failed .closeWriter), d.notify new)
  else if fault = some .createIdx then (.error (.failed .createIdx), d.notify new)
  -- an index of that name is cut off now
  else if fault = some .encodeIdx then (.error (.failed .encodeIdx), (d.setCut new.name true).notify new)
  else if fault = some .closeIdx then (.error (.failed .closeIdx), (d.setCut new.name false).notify new)
  else if fault = some .rename then (.error (.failed .rename), (d.setCut new.name false).notify new)
  else (.ok (), ((d.setCut new.name false).install new).notify new)

def deleteSeen (seen : List ObjectID) : List ObjectID → Storage → Except RepackError Unit × Storage
  | [], d => (.ok (), d)
  | h :: hs, d =>
    if h ∈ seen then
      if fault = some (.deleteLoose h) then (.error (.failed (.deleteLoose h)), d)
      else deleteSeen seen hs (d.removeLoose h)
    else deleteSeen seen hs d

def newPack (d : Storage) (name : ObjectID) (seen : List ObjectID) : Pack where
  name := name
  objects := seen.filterMap fun h => (d.object h).map (h, ·)

/-- Deletes the loose objects, and then closes the writer in any case. -/
def deleteAndClose (d : Storage) (checksum : ObjectID) (seen : List ObjectID) : Except RepackError Unit × Storage :=
  let (err, after) :=
    if fault = some .listLoose then (.error (.failed .listLoose), d)
    else deleteSeen fault seen (d.loose.map Prod.fst) d
  let (closeErr, after) := PackWriter.Close fault after (newPack d checksum seen)
  match err with
  | .error e => (.error e, after)
  | .ok () => (closeErr, after)

/-- The pack is complete, but has no name, when the loose objects are deleted. -/
def createNewObjectPack (d : Storage) (refs : List Reference) (checksum : ObjectID) : Except RepackError Unit × Storage :=
  if fault = some .walk then (.error (.failed .walk), d)
  else
    match walkAllRefs d.store refs with
    | .error e => (.error (.walk e), d)
    | .ok seen =>
      if fault = some .packfileWriter then (.error (.failed .packfileWriter), d)
      -- nothing has been written or the pack is not complete: it gets no name
      else if fault = some .config then (.error (.failed .config), d)
      else if fault = some .encode then (.error (.failed .encode), d)
      else if ¬ seen.all fun h => (d.object h).isSome then (.error .missingObject, d)
      else deleteAndClose fault d checksum seen

def DeleteOldObjectPackAndIndex (older : Time) (d : Storage) (p : Pack) : Except RepackError Unit × Storage :=
  if ¬ older.isZero ∧ fault = some (.stat p.name) then (.error (.failed (.stat p.name)), d)
  else if ¬ older.isZero ∧ ¬ p.modTime.before older then (.ok (), d)
  else if fault = some (.deletePack p.name) then (.error (.failed (.deletePack p.name)), d)
  else if fault = some (.deleteIdx p.name) then (.error (.failed (.deleteIdx p.name)), d.removePack p.name)
  else (.ok (), d.removePack p.name)

def deleteOld (older : Time) (checksum : ObjectID) : List Pack → Storage → Except RepackError Unit × Storage
  | [], d => (.ok (), d)
  | p :: ps, d =>
    if p.name = checksum then deleteOld older checksum ps d
    else
      match DeleteOldObjectPackAndIndex fault older d p with
      | (.error e, d) => (.error e, d)
      | (.ok (), d) => deleteOld older checksum ps d

def RepackObjects (d : Storage) (refs : List Reference) (older : Time) (checksum : ObjectID) :
    Except RepackError Unit × Storage :=
  if fault = some .objectPacks then (.error (.failed .objectPacks), d)
  else
    match createNewObjectPack fault d refs checksum with
    | (.error e, after) => (.error e, after)
    | (.ok (), after) => deleteOld fault older checksum d.packs after

end Repack

section Readable

variable {fault : Option Op} {d d' : Storage} {seen hs : List ObjectID} {h checksum name : ObjectID} {older : Time}
  {new : Pack}

/-- A pack of that name is on disk and has the object. -/
def Storage.Holds (d : Storage) (name h : ObjectID) : Prop := ∃ q ∈ d.packs, q.name = name ∧ h ∈ q.names

/-- The storage reads the object, and so does one that is opened later. -/
def Storage.Readable (d : Storage) (h : ObjectID) : Prop := d.Reads h ∧ d.reopened.Reads h

lemma Storage.reads_iff : d.Reads h ↔ (∀ p ∈ d.index, h ∈ p.names → d.Holds p.name h) ∧
    ((∃ p ∈ d.index, h ∈ p.names) ∨ h ∈ d.loose.map Prod.fst) := by
  have hopen : ∀ p : Pack, (d.packs.findSome? fun q => if q.name = p.name then q.objects.lookup h else none) ≠ none ↔
      d.Holds p.name h := by
    intro p
    simp only [ne_eq, findSome?_eq_none_iff, not_forall, exists_prop, ite_eq_right_iff, Holds, ← lookup_ne_none_iff,
      Pack.names]
  constructor
  · intro hreads
    refine ⟨fun p hp hh => ?_, ?_⟩
    · obtain ⟨before, after, hsplit⟩ := append_of_mem hp
      have hfirst := hreads (p :: (before ++ after)) (hsplit ▸ perm_middle.symm)
      rw [EncodedObject, find?_cons_of_pos (by simpa using hh)] at hfirst
      exact (hopen p).mp hfirst
    · have hsame := hreads d.index (.refl _)
      rw [EncodedObject] at hsame
      cases hfind : d.index.find? (h ∈ ·.names) with
      | some p => exact .inl ⟨p, mem_of_find?_eq_some hfind, by simpa using find?_some hfind⟩
      | none =>
        rw [hfind] at hsame
        exact .inr (lookup_ne_none_iff.mp hsame)
  · rintro ⟨hholds, hfound⟩ order horder
    rw [EncodedObject]
    cases hfind : order.find? (h ∈ ·.names) with
    | some p =>
      exact (hopen p).mpr (hholds p (horder.mem_iff.mp (mem_of_find?_eq_some hfind)) (by simpa using find?_some hfind))
    | none =>
      refine lookup_ne_none_iff.mpr (hfound.resolve_left ?_)
      rintro ⟨p, hp, hh⟩
      exact absurd hh (by simpa using find?_eq_none.mp hfind p (horder.mem_iff.mpr hp))

lemma Storage.reads_reopened_iff : d.reopened.Reads h ↔
    ((∀ p ∈ d.packs, p.name ∉ d.cut) ∧ ∃ p ∈ d.packs, h ∈ p.names) ∨ h ∈ d.loose.map Prod.fst := by
  rw [reads_iff, reopened]
  split_ifs with hcut
  · simp only [any_eq_true, decide_eq_true_eq] at hcut
    obtain ⟨p, hp, hmem⟩ := hcut
    simpa using fun hall => absurd hmem (hall p hp)
  · have hall : ∀ p ∈ d.packs, p.name ∉ d.cut := by simpa using hcut
    rw [and_iff_right fun p hp hh => ⟨p, hp, rfl, hh⟩, and_iff_right hall]

/-- The indexes are those of the packs, which can be loaded and have names of their own. -/
structure Storage.Loaded (d : Storage) : Prop where
  index : d.index = d.packs
  cut : d.cut = []
  nodup : (d.packs.map Pack.name).Nodup

lemma Storage.Loaded.readable (hd : d.Loaded) (hh : d.object h ≠ none) : d.Readable h := by
  rw [Readable, reads_iff, reads_reopened_iff, hd.index, hd.cut]
  have hfound := (object_ne_none_iff.mp hh).symm
  exact ⟨⟨fun p hp hh => ⟨p, hp, rfl, hh⟩, hfound⟩, hfound.imp_left fun hp => ⟨by simp, hp⟩⟩

lemma mem_names_newPack (hh : h ∈ seen) (hobject : d.object h ≠ none) : h ∈ (newPack d checksum seen).names := by
  obtain ⟨o, ho⟩ := Option.ne_none_iff_exists'.mp hobject
  exact mem_map.mpr ⟨(h, o), mem_filterMap.mpr ⟨h, hh, by rw [ho]; rfl⟩, rfl⟩

/-- The operations after which the new pack is not there. -/
def closing : List Op := [.buildIndex, .closeReader, .closeWriter, .createIdx, .encodeIdx, .closeIdx, .rename]

lemma ne_of_closing (hfault : ∃ op ∈ closing, fault = some op) {op : Op} (hop : op ∉ closing) : fault ≠ some op := by
  obtain ⟨op', hop', rfl⟩ := hfault
  exact fun heq => hop (Option.some.inj heq ▸ hop')

/-- What is left if closing the writer of a pack fails. -/
def Storage.unclosed (d : Storage) (fault : Option Op) (new : Pack) : Storage :=
  { d with
    index := if fault = some .buildIndex then d.index else (d.notify new).index
    cut := if fault = some .encodeIdx then [new.name] else [] }

lemma Close_fails (hfault : ∃ op ∈ closing, fault = some op) (hcut : d.cut = []) (new : Pack) :
    ∃ e, PackWriter.Close fault d new = (.error e, d.unclosed fault new) := by
  obtain ⟨op, hop, rfl⟩ := hfault
  obtain ⟨loose, packs, index, cut⟩ := d
  obtain rfl : cut = [] := hcut
  simp only [closing, mem_cons, not_mem_nil, or_false] at hop
  rcases hop with rfl | rfl | rfl | rfl | rfl | rfl | rfl <;> exact ⟨_, rfl⟩

lemma Close_ok (hfault : ¬ ∃ op ∈ closing, fault = some op) :
    PackWriter.Close fault d new = (.ok (), ((d.setCut new.name false).install new).notify new) := by
  have hne : ∀ op ∈ closing, fault ≠ some op := fun op hop heq => hfault ⟨op, hop, heq⟩
  simp only [closing, mem_cons, not_mem_nil, or_false, forall_eq_or_imp, forall_eq] at hne
  obtain ⟨h1, h2, h3, h4, h5, h6, h7⟩ := hne
  rw [PackWriter.Close, if_neg h1, if_neg h2, if_neg h3, if_neg h4, if_neg h5, if_neg h6, if_neg h7]

/-- Only loose objects are deleted. -/
lemma deleteSeen_frame (fault : Option Op) (seen hs : List ObjectID) (d : Storage) :
    ∃ loose, (deleteSeen fault seen hs d).2 = { d with loose } := by
  induction hs generalizing d with
  | nil => exact ⟨d.loose, rfl⟩
  | cons h hs ih =>
    rw [deleteSeen]
    split_ifs
    · exact ⟨d.loose, rfl⟩
    · exact ih (d.removeLoose h)
    · exact ih d

lemma deleteSeen_ok (hfault : ∀ h, fault ≠ some (.deleteLoose h)) (d : Storage) : deleteSeen fault seen hs d =
    (.ok (), { d with loose := d.loose.filter fun p => p.1 ∉ seen ∨ p.1 ∉ hs }) := by
  induction hs generalizing d with
  | nil => simp [deleteSeen]
  | cons k hs ih =>
    rw [deleteSeen, if_neg (hfault k), ih, ih, Storage.removeLoose]
    split_ifs with hk
    · rw [filter_filter]
      refine Prod.ext rfl (congrArg (Storage.mk · d.packs d.index d.cut) (filter_congr fun p _ => ?_))
      by_cases hp : p.1 = k <;> simp [hp, hk]
    · refine Prod.ext rfl (congrArg (Storage.mk · d.packs d.index d.cut) (filter_congr fun p _ => ?_))
      by_cases hp : p.1 = k <;> simp [hp, hk]

/-- The new pack is there with its index, besides packs and indexes of before. -/
structure Packed (d : Storage) (new : Pack) (after : Storage) : Prop where
  cut : after.cut = []
  pack : new ∈ after.packs
  old : ∀ q ∈ after.packs, q = new ∨ q ∈ d.packs
  index : after.index = new :: d.packs.filter (·.name ≠ new.name)

lemma Packed.removePack (hpacked : Packed d new d') (hname : name ≠ new.name) : Packed d new (d'.removePack name) where
  cut := hpacked.cut
  pack := mem_filter.mpr ⟨hpacked.pack, by simpa using hname.symm⟩
  old q hq := hpacked.old q (mem_filter.mp hq).1
  index := hpacked.index

lemma packed_install (hd : d.Loaded) (loose : List (ObjectID × Object)) :
    Packed d new (((Storage.setCut { d with loose } new.name false).install new).notify new) where
  cut := by simp [Storage.notify, Storage.install, Storage.setCut, hd.cut]
  pack := mem_cons_self
  old q hq := (mem_cons.mp hq).imp_right fun hq => (mem_filter.mp hq).1
  index := by rw [Storage.notify, Storage.install, Storage.setCut, hd.index]

lemma Packed.deleteOld (fault : Option Op) (older : Time) (hpacked : Packed d new d') (ps : List Pack) :
    Packed d new (deleteOld fault older new.name ps d').2 := by
  induction ps generalizing d' with
  | nil => exact hpacked
  | cons p ps ih =>
    rw [Repack.deleteOld]
    by_cases hname : p.name = new.name
    · rw [if_pos hname]
      exact ih hpacked
    · rw [if_neg hname]
      have hnext : Packed d new (DeleteOldObjectPackAndIndex fault older d' p).2 := by
        rw [DeleteOldObjectPackAndIndex]
        split_ifs
        · exact hpacked
        · exact hpacked
        · exact hpacked
        · exact hpacked.removePack hname
        · exact hpacked.removePack hname
      rcases hdelete : DeleteOldObjectPackAndIndex fault older d' p with ⟨_ | _, after⟩
      · rw [hdelete] at hnext
        exact hnext
      · rw [hdelete] at hnext
        exact ih hnext

/-- What the new pack has is read unless a pack that had it, too, was deleted. -/
lemma Packed.readable_iff (hd : d.Loaded) (hpacked : Packed d new d') (hh : h ∈ new.names) :
    d'.Readable h ↔ ∀ p ∈ d.packs, p.name ∉ d'.packs.map Pack.name → h ∉ p.names := by
  rw [Storage.Readable, Storage.reads_iff, Storage.reads_reopened_iff, hpacked.cut, hpacked.index]
  constructor
  · rintro ⟨⟨hholds, -⟩, -⟩ p hp hgone hmem
    have hother : p.name ≠ new.name := fun heq => hgone (heq ▸ mem_map_of_mem hpacked.pack)
    obtain ⟨q, hq, hname, -⟩ := hholds p (mem_cons_of_mem _ (mem_filter.mpr ⟨hp, by simpa using hother⟩)) hmem
    exact hgone (hname ▸ mem_map_of_mem hq)
  · intro hgone
    refine ⟨⟨fun p hp hmem => ?_, .inl ⟨new, mem_cons_self, hh⟩⟩, .inl ⟨by simp, new, hpacked.pack, hh⟩⟩
    rcases mem_cons.mp hp with rfl | hp
    · exact ⟨p, hpacked.pack, rfl, hh⟩
    · obtain ⟨hp, hother⟩ := mem_filter.mp hp
      have hname : p.name ∈ d'.packs.map Pack.name := by
        by_contra hnot
        exact hgone p hp hnot hmem
      obtain ⟨q, hq, hname⟩ := mem_map.mp hname
      rcases hpacked.old q hq with rfl | hq'
      · simp [hname] at hother
      · obtain rfl := inj_on_of_nodup_map hd.nodup hq' hp hname
        exact ⟨q, hq, rfl, hmem⟩

end Readable

section Keeps

def Reached (d : Storage) (refs : List Reference) (h : ObjectID) : Prop := ∃ r ∈ hashes refs, d.store.Reach r h

/-- If packing fails, what could be reached from a reference and read can be read. -/
def Keeps (fault : Option Op) (d : Storage) (refs : List Reference) (older : Time) (checksum : ObjectID) : Prop :=
  ∀ e after, RepackObjects fault d refs older checksum = (.error e, after) →
    ∀ h, Reached d refs h → d.object h ≠ none → after.Readable h

def FilesAreBlobs (s : Store) : Prop :=
  ∀ h entries, s.object h = some (.tree entries) → ∀ e ∈ entries, plainMode e.mode = true →
    ∀ o, s.object e.hash = some o → o = .blob

/-- The walk ends and all that it sees is there. -/
def Packable (d : Storage) (refs : List Reference) : Prop :=
  ∃ seen, walkAllRefs d.store refs = .ok seen ∧ ∀ h ∈ seen, d.object h ≠ none

/-- The object is read after closing the writer has failed. If the pack was not read to its end, any old pack does;
otherwise it is looked for in a pack of the new name, which must be an old one and still have its index. -/
def Saved (fault : Option Op) (d : Storage) (checksum h : ObjectID) : Prop :=
  if fault = some .buildIndex then ∃ p ∈ d.packs, h ∈ p.names else fault ≠ some .encodeIdx ∧ d.Holds checksum h

variable {fault : Option Op} {d : Storage} {refs : List Reference} {seen : List ObjectID} {h checksum : ObjectID}
  {older : Time}

lemma mem_seen_of_reach {s : Store} (hfiles : FilesAreBlobs s) (hwalk : walkAllRefs s refs = .ok seen) {r : ObjectID}
    (hr : r ∈ hashes refs) (hreach : s.Reach r h) : h ∈ seen := by
  rw [(walked_walkAllRefs s refs).seen seen hwalk]
  refine mem_firstMet_of_reach ?_ hr hreach
  rintro ⟨h, plain⟩ hx rfl k ⟨o, ho, hk⟩
  obtain ⟨y, -, hmentions⟩ := mentions_of_firstMet hx
  have hblob : o = .blob := by
    cases htree : s.object y.1 with
    | none => simp [mentions, htree] at hmentions
    | some o' =>
      rw [mentions, htree] at hmentions
      cases o' with
      | tree entries =>
        obtain ⟨e, he, heq⟩ := mem_map.mp hmentions
        obtain ⟨rfl, hmode⟩ := Prod.mk.inj heq
        exact hfiles y.1 entries htree e he hmode o ho
      | commit | blob | tag | corrupt => simp at hmentions
  subst hblob
  exact absurd hk not_mem_nil

def opening : List Op := [.walk, .packfileWriter, .config, .encode]

lemma createNewObjectPack_cases (fault : Option Op) (d : Storage) (refs : List Reference) (checksum : ObjectID) :
    (((∃ op ∈ opening, fault = some op) ∨ ¬ Packable d refs) ∧
      ∃ e, createNewObjectPack fault d refs checksum = (.error e, d)) ∨
    ∃ seen, walkAllRefs d.store refs = .ok seen ∧ (∀ h ∈ seen, d.object h ≠ none) ∧
      createNewObjectPack fault d refs checksum = deleteAndClose fault d checksum seen := by
  rcases hcreate : createNewObjectPack fault d refs checksum with ⟨r, after⟩
  cases hwalk : walkAllRefs d.store refs with
  | error e =>
    simp only [createNewObjectPack, hwalk] at hcreate
    refine .inl ⟨.inr fun ⟨_, hok, _⟩ => (nomatch hok.symm.trans hwalk), ?_⟩
    split_ifs at hcreate <;> exact ⟨_, hcreate.symm⟩
  | ok seen =>
    simp only [createNewObjectPack, hwalk] at hcreate
    split_ifs at hcreate with h1 h2 h3 h4 h5
    · exact .inl ⟨.inl ⟨_, by decide, h1⟩, _, hcreate.symm⟩
    · exact .inl ⟨.inl ⟨_, by decide, h2⟩, _, hcreate.symm⟩
    · exact .inl ⟨.inl ⟨_, by decide, h3⟩, _, hcreate.symm⟩
    · exact .inl ⟨.inl ⟨_, by decide, h4⟩, _, hcreate.symm⟩
    · exact .inr ⟨seen, rfl, fun h hh => Option.isSome_iff_ne_none.mp (all_eq_true.mp h5 h hh), hcreate.symm⟩
    · refine .inl ⟨.inr ?_, _, hcreate.symm⟩
      rintro ⟨seen', hok, hpresent⟩
      cases hok.symm.trans hwalk
      exact h5 (all_eq_true.mpr fun h hh => Option.isSome_iff_ne_none.mpr (hpresent h hh))

lemma packed_deleteAndClose (hfault : ¬ ∃ op ∈ closing, fault = some op) (hd : d.Loaded) :
    Packed d (newPack d checksum seen) (deleteAndClose fault d checksum seen).2 := by
  rcases hdelete : (if fault = some .listLoose then (.error (.failed .listLoose), d)
    else deleteSeen fault seen (d.loose.map Prod.fst) d : Except RepackError Unit × Storage) with ⟨err, after⟩
  obtain ⟨loose, rfl⟩ : ∃ loose, after = { d with loose } := by
    have hframe := deleteSeen_frame fault seen (d.loose.map Prod.fst) d
    split_ifs at hdelete
    · cases hdelete
      exact ⟨d.loose, rfl⟩
    · rwa [hdelete] at hframe
  rw [deleteAndClose, hdelete]
  simp only [Close_ok hfault]
  cases err with
  | error e => exact packed_install hd loose
  | ok u => exact packed_install hd loose

lemma deleteAndClose_fails (hfault : ∃ op ∈ closing, fault = some op) (hd : d.Loaded) :
    ∃ e after, deleteAndClose fault d checksum seen = (.error e, after) ∧
      after.packs.map Pack.name = d.packs.map Pack.name ∧ ∀ h ∈ seen, d.object h ≠ none →
        (after.Readable h ↔ Saved fault d checksum h) := by
  let rest := d.loose.filter fun p => p.1 ∉ seen ∨ p.1 ∉ d.loose.map Prod.fst
  obtain ⟨e, hclose⟩ := @Close_fails fault { d with loose := rest } hfault hd.cut (newPack d checksum seen)
  refine ⟨e, Storage.unclosed { d with loose := rest } fault (newPack d checksum seen), ?_, rfl, fun h hh hobject => ?_⟩
  · rw [deleteAndClose, if_neg (ne_of_closing hfault (by decide)),
      deleteSeen_ok fun h => ne_of_closing hfault (by simp [closing])]
    simp only [rest] at hclose ⊢
    simp only [hclose]
  have hnot : h ∉ rest.map Prod.fst := by
    rw [mem_map]
    rintro ⟨p, hp, rfl⟩
    obtain ⟨hp, hkept⟩ := mem_filter.mp hp
    exact (of_decide_eq_true hkept).elim (absurd hh) (absurd (mem_map_of_mem hp))
  rw [Storage.Readable, Storage.reads_iff, Storage.reads_reopened_iff, Storage.unclosed, or_iff_left hnot,
    or_iff_left hnot, Saved]
  by_cases hbuild : fault = some .buildIndex
  · simp only [hbuild, if_true, hd.index]
    exact ⟨fun hread => hread.1.2, fun hread => ⟨⟨fun p hp hmem => ⟨p, hp, rfl, hmem⟩, hread⟩, by simp, hread⟩⟩
  · simp only [if_neg hbuild, Storage.notify]
    constructor
    · rintro ⟨⟨hread, -⟩, hcut, -⟩
      obtain ⟨q, hq, hname, hmem⟩ := hread _ mem_cons_self (mem_names_newPack hh hobject)
      refine ⟨fun hencode => hcut q hq ?_, q, hq, hname, hmem⟩
      rw [if_pos hencode]
      exact mem_singleton.mpr hname
    · rintro ⟨hencode, q, hq, hname, hmem⟩
      refine ⟨⟨forall_mem_cons.mpr ⟨fun _ => ⟨q, hq, hname, hmem⟩, fun p hp hmem => ?_⟩, _, mem_cons_self,
        mem_names_newPack hh hobject⟩, by simp [hencode], q, hq, hmem⟩
      rw [hd.index] at hp
      exact ⟨p, (mem_filter.mp hp).1, rfl, hmem⟩

/-- Once the new pack has its name, what was met is read unless a pack that had it was deleted. -/
lemma readable_of_packed {e : RepackError} {after : Storage} (hfault : ¬ ∃ op ∈ closing, fault = some op)
    (hd : d.Loaded) (hseen : ∀ h ∈ seen, d.object h ≠ none)
    (hcreate : createNewObjectPack fault d refs checksum = deleteAndClose fault d checksum seen)
    (hrepack : RepackObjects fault d refs older checksum = (.error e, after)) (hh : h ∈ seen) :
    after.Readable h ↔ ∀ p ∈ d.packs, p.name ∉ after.packs.map Pack.name → h ∉ p.names := by
  have hpacked := @packed_deleteAndClose fault d seen checksum hfault hd
  have hnew := @mem_names_newPack d seen h checksum hh (hseen h hh)
  rw [RepackObjects, hcreate] at hrepack
  split_ifs at hrepack
  · cases hrepack
    exact iff_of_true (hd.readable (hseen h hh)) fun p hp hgone => absurd (mem_map_of_mem hp) hgone
  · rcases hdelete : deleteAndClose fault d checksum seen with ⟨_ | _, last⟩
    · rw [hdelete] at hrepack hpacked
      cases hrepack
      exact hpacked.readable_iff hd hnew
    · rw [hdelete] at hrepack hpacked
      have hlast := hpacked.deleteOld fault older d.packs
      simp only at hrepack
      change Packed d _ (Repack.deleteOld fault older checksum d.packs last).2 at hlast
      rw [hrepack] at hlast
      exact hlast.readable_iff hd hnew

end Keeps

def twoObjects : List (ObjectID × Object) := [(.short 1, .commit { treeHash := .short 2 }), (.short 2, .tree [])]

def allLoose : Storage := { loose := twoObjects, packs := [] }

def onePack : Storage := { loose := [], packs := [⟨.short 7, twoObjects, .zero⟩] }

def twoPacks : Storage := { loose := [], packs := [⟨.short 7, twoObjects, .zero⟩, ⟨.short 8, [], .zero⟩] }

lemma filesAreBlobs_of_closed {s : Store} (hs : s.Closed) : FilesAreBlobs s := by
  intro h entries htree e he hmode o ho
  have hsound := hs.sound (s.mem_names h (by simp [htree]))
  have hblob := object_of_plain (k := e.hash) hsound (by rw [mentions, htree]; exact mem_map.mpr ⟨e, he, by rw [hmode]⟩)
  exact Option.some.inj (ho.symm.trans hblob)

end GoGit.Repack
