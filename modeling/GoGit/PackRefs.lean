import GoGit.DotGitRead

/-! What is read of the references after they have been packed. A line of the file of packed references is split at
its blanks, so a symbolic reference does not fit in one. -/
namespace GoGit.DotGit

open List

open SlashPath (Component)

section Lines

variable {r : Reference} {line : Bytes}

lemma not_mem_string {c : UInt8} (h : ¬ Hex.IsDigit c) (id : ObjectID) : c ∉ id.string :=
  fun hin => h (Hex.isDigit_of_mem_encode hin)

lemma processLine_hash (id : ObjectID) {name : ReferenceName} (h : 0x20 ∉ name) :
    processLine (id.string ++ [0x20] ++ name) = .ok (some ⟨name, .hash (.fromHex id.string)⟩) := by
  have hblank : (0x20 : UInt8) ∉ id.string := not_mem_string (by decide) id
  have hsplit : (id.string ++ [0x20] ++ name).splitOn 0x20 = [id.string, name] := by
    have hjoin : id.string ++ [0x20] ++ name = [0x20].intercalate [id.string, name] := by
      simp [List.intercalate]
    rw [hjoin, splitOn_intercalate _ (by simp [hblank, h]) (by simp)]
  have hnotref : ¬ symrefPrefix <+: id.string :=
    fun hpre => hblank (hpre.subset (by decide : (0x20 : UInt8) ∈ symrefPrefix))
  -- the first character is a digit
  have hfirst : ∀ {c}, ¬ Hex.IsDigit c → ∀ tail, id.string ++ [0x20] ++ name = c :: tail → False := by
    intro c hc tail heq
    have hne : id.string ≠ [] := by
      refine ne_nil_of_length_pos ?_
      rw [ObjectID.string, Hex.length_encode, id.length_bytes_eq]
      cases id.format <;> decide
    obtain ⟨c', rest, hcons⟩ := exists_cons_of_ne_nil hne
    rw [hcons] at heq
    obtain rfl := (List.cons.inj heq).1
    exact not_mem_string hc id (by simp [hcons])
  rw [processLine]
  · rw [hsplit]
    simp only [Reference.newReferenceFromStrings, hnotref, if_false]
  · simp
  · exact hfirst (by decide)
  · exact hfirst (by decide)

lemma processLine_some (h : processLine line = .ok (some r)) :
    (∃ id, r.target = .hash id) ∧ 0x20 ∉ r.name ∧ r.name ⊆ line := by
  unfold processLine at h
  split at h
  · simp at h
  · simp at h
  · simp at h
  · split at h
    · rename_i target name hsplit
      have hparts := @Lines.not_mem_of_mem_splitOn UInt8 0x20 _ line
      rw [hsplit] at hparts
      have hjoin : [0x20].intercalate (line.splitOn 0x20) = line := intercalate_splitOn _
      rw [hsplit] at hjoin
      have hnotref : ¬ symrefPrefix <+: target := fun hpre =>
        hparts target (by simp) (hpre.subset (by decide : (0x20 : UInt8) ∈ symrefPrefix))
      simp only [Reference.newReferenceFromStrings, hnotref, if_false, Except.ok.injEq, Option.some.injEq] at h
      subst h
      refine ⟨⟨_, rfl⟩, hparts name (by simp), ?_⟩
      rw [← hjoin]
      simp [List.intercalate]
    · simp at h

lemma mem_processLines {lines : List Bytes} {l : List Reference} (h : processLines lines = .ok l) :
    ∀ r ∈ l, ∃ line ∈ lines, processLine line = .ok (some r) := by
  induction lines generalizing l with
  | nil =>
    cases h
    simp
  | cons line lines ih =>
    obtain ⟨ref, refs, hline, hlines, rfl⟩ := processLines_cons_ok h
    intro r hr
    rcases mem_append.mp hr with hr | hr
    · rw [Option.mem_toList] at hr
      exact ⟨line, mem_cons_self, hline.trans (congrArg Except.ok hr)⟩
    · obtain ⟨line', hmem, heq⟩ := ih hlines r hr
      exact ⟨line', mem_cons_of_mem _ hmem, heq⟩

end Lines

variable {path : List Component}

section Files

variable {d d' : DotGit}

variable {name : Component} {content : Bytes}

lemma write_ok (h : d.write name content = .ok d') :
    d.root.dirAt [name] = none ∧ d'.root = d.root.put name content := by
  rw [write] at h
  split_ifs at h with hdir
  cases h
  exact ⟨hdir, rfl⟩

lemma fileAt_write (h : d.write name content = .ok d') (q : List Component) :
    d'.root.fileAt q = if q = [name] then some content else d.root.fileAt q := by
  rw [(write_ok h).2]
  exact FileTree.fileAt_put (write_ok h).1 content q

lemma dirAt_write {name first : Component} (h : d.write name content = .ok d')
    (hne : first ≠ name) (q : List Component) : d'.root.dirAt (first :: q) = d.root.dirAt (first :: q) := by
  rw [(write_ok h).2]
  exact FileTree.dirAt_put_of_ne hne content q

lemma remove_ok (h : d.remove path = .ok d') :
    (∀ e, d.root.dirAt path = some e → e = .empty) ∧ d'.root = d.root.remove path := by
  rw [remove] at h
  split at h
  · simp at h
  · rename_i sub hfile hdir
    split_ifs at h with hempty
    cases h
    exact ⟨fun e he => Option.some.inj (he.symm.trans hdir) ▸ hempty, rfl⟩
  · rename_i content hfile
    cases h
    refine ⟨fun e he => ?_, rfl⟩
    rw [FileTree.dirAt_eq_none_of_fileAt d.wf hfile] at he
    cases he

lemma fileAt_remove (h : d.remove path = .ok d') (q : List Component) :
    d'.root.fileAt q = if q = path then none else d.root.fileAt q := by
  rw [(remove_ok h).2]
  exact FileTree.fileAt_remove d.wf (remove_ok h).1 q

lemma fileAt_remove_notExist (h : d.remove path = .error .notExist) (q : List Component) :
    d.root.fileAt q = if q = path then none else d.root.fileAt q := by
  split_ifs with hq
  · rw [hq]
    rw [remove] at h
    split at h
    · assumption
    · split_ifs at h
      simp at h
    · simp at h
  · rfl

lemma dirAt_remove_eq_none_iff (h : d.remove path = .ok d')
    (hp : path ≠ [name]) : d'.root.dirAt [name] = none ↔ d.root.dirAt [name] = none := by
  rw [(remove_ok h).2]
  exact FileTree.dirAt_remove_eq_none_iff hp

lemma dirAt_remove {first first' : Component}
    (h : d.remove (first :: path) = .ok d') (hne : first' ≠ first) (q : List Component) :
    d'.root.dirAt (first' :: q) = d.root.dirAt (first' :: q) := by
  rw [(remove_ok h).2]
  exact FileTree.dirAt_remove_of_ne hne path q

lemma removeLoose_spec {r : Reference} {first : Component}
    (h : d.removeLoose r = .ok d') (hpath : SlashPath.path r.name = some (first :: path)) :
    (∀ q, d'.root.fileAt q = if q = first :: path then none else d.root.fileAt q) ∧
      ∀ first' q, first' ≠ first → d'.root.dirAt (first' :: q) = d.root.dirAt (first' :: q) := by
  rw [removeLoose, hpath] at h
  dsimp only at h
  cases hremove : d.remove (first :: path) with
  | ok e =>
    rw [hremove] at h
    cases h
    exact ⟨fileAt_remove hremove, fun first' q hne => dirAt_remove hremove hne q⟩
  | error e =>
    rw [hremove] at h
    cases e with
    | notExist =>
      cases h
      exact ⟨fileAt_remove_notExist hremove, fun _ _ _ => rfl⟩
    | _ => simp at h

lemma foldlM_removeLoose_spec {refs : List Reference}
    (hpath : ∀ r ∈ refs, ∃ path, SlashPath.path r.name = some (refsPath :: path))
    (h : refs.foldlM removeLoose d = .ok d') :
    (∀ r ∈ refs, ∀ q, SlashPath.path r.name = some q → d'.root.fileAt q = none) ∧
    (∀ q, (∀ r ∈ refs, SlashPath.path r.name ≠ some q) → d'.root.fileAt q = d.root.fileAt q) ∧
      ∀ first q, first ≠ refsPath → d'.root.dirAt (first :: q) = d.root.dirAt (first :: q) := by
  induction refs generalizing d with
  | nil =>
    cases h
    simp
  | cons r refs ih =>
    rw [foldlM_cons, bind_eq_ok_iff] at h
    obtain ⟨e, hfirst, hrest⟩ := h
    obtain ⟨path, hr⟩ := hpath r mem_cons_self
    obtain ⟨hfile, hdir⟩ := removeLoose_spec hfirst hr
    obtain ⟨hgone, hkept, hdirs⟩ := ih (fun r hr => hpath r (mem_cons_of_mem _ hr)) hrest
    refine ⟨fun s hs q hq => ?_, fun q hq => ?_, fun first q hne => (hdirs first q hne).trans (hdir first q hne)⟩
    · by_cases hlater : ∃ t ∈ refs, SlashPath.path t.name = some q
      · obtain ⟨t, ht, htq⟩ := hlater
        exact hgone t ht q htq
      · push Not at hlater
        rcases mem_cons.mp hs with rfl | hs
        · rw [hkept q hlater, hfile, if_pos (Option.some.inj (hq.symm.trans hr))]
        · exact absurd hq (hlater s hs)
    · rw [hkept q fun r hr => hq r (mem_cons_of_mem _ hr), hfile, if_neg]
      exact fun heq => hq r mem_cons_self (heq ▸ hr)

end Files

section Packing

variable {d d' : DotGit} {l : List Reference}

structure Listed (d : DotGit) (packed : List Reference) : Prop where
  noFile : d.root.fileAt [refsPath] = none
  loose : ∀ f ∈ d.looseFiles, f.2 ≠ []
  packed : Packed d packed

def listing (d : DotGit) (packed : List Reference) : List Reference :=
  (d.looseFiles.map (looseRef [refsPath]) ++ packed).foldl addRef []

/-- The references that are gathered from the directory of references and the packed ones. -/
def gathered (d : DotGit) : Except DotGitError (List Reference) := do
  let refs ← d.addRefsFromRefDir
  d.findPackedRefs refsRecvFunc refs

lemma gathered_ok_iff : d.gathered = .ok l ↔ ∃ packed, Listed d packed ∧ l = d.listing packed := by
  rw [gathered, bind_eq_ok_iff]
  constructor
  · rintro ⟨loose, hloose, hrefs⟩
    obtain ⟨hfile, hne, rfl⟩ := addRefsFromRefDir_ok_iff.mp hloose
    obtain ⟨packed, hpacked, rfl⟩ := findPackedRefs_ok_iff.mp hrefs
    exact ⟨packed, ⟨hfile, hne, hpacked⟩, by rw [listing, foldl_append]⟩
  · rintro ⟨packed, hl, rfl⟩
    refine ⟨_, addRefsFromRefDir_ok_iff.mpr ⟨hl.noFile, hl.loose, rfl⟩,
      findPackedRefs_ok_iff.mpr ⟨packed, hl.packed, ?_⟩⟩
    rw [listing, foldl_append]

lemma Refs_ok_iff : d.Refs = .ok l ↔ ∃ head packed, d.addRefFromHEAD = .ok head ∧ Listed d packed ∧
    l = head ++ d.listing packed := by
  have hrefs : d.Refs = d.addRefFromHEAD >>= fun head => d.gathered >>= fun refs => pure (head ++ refs) := by
    simp [Refs, gathered]
  simp only [hrefs, bind_eq_ok_iff, gathered_ok_iff, pure_ok, Except.ok.injEq]
  constructor
  · rintro ⟨head, hhead, _, ⟨packed, hl, rfl⟩, rfl⟩
    exact ⟨head, packed, hhead, hl, rfl⟩
  · rintro ⟨head, packed, hhead, hl, rfl⟩
    exact ⟨head, hhead, _, ⟨packed, hl, rfl⟩, rfl⟩

variable {packed : List Reference}

lemma Packed.Ref (h : Packed d packed) (p : List Component) : d.Ref (SlashPath.text p) = match d.root.fileAt p with
      | some (c :: content) =>
        .ok (.newReferenceFromStrings (SlashPath.text p) (Trim.trimSpace (c :: content)))
      | _ => (named (SlashPath.text p) packed).elim (.error .referenceNotFound) .ok := by
  rw [DotGit.Ref, readReferenceFile, SlashPath.path_text]
  dsimp only
  rw [h.packedRef]
  cases d.root.fileAt p with
  | none => rfl
  | some content => cases content <;> rfl

lemma openPackedRefs_ok_some {text : Bytes} :
    d.openPackedRefs = .ok (some text) ↔ d.root.fileAt [packedRefsPath] = some text := by
  rw [openPackedRefs]
  cases d.root.fileAt [packedRefsPath] with
  | some text' => simp
  | none => split_ifs <;> simp

lemma openAndLockPackedRefs_spec {text : Bytes} (hp : Packed d packed)
    (h : d.openAndLockPackedRefs = .ok (d', text)) :
    d'.root.fileAt [packedRefsPath] = some text ∧ processLines (scanLines text).1 = .ok packed ∧
      (scanLines text).2 = false ∧ (∀ q, q ≠ [packedRefsPath] → d'.root.fileAt q = d.root.fileAt q) ∧
      ∀ first q, first ≠ packedRefsPath → d'.root.dirAt (first :: q) = d.root.dirAt (first :: q) := by
  rw [openAndLockPackedRefs] at h
  cases hfile : d.root.fileAt [packedRefsPath] with
  | some text' =>
    rw [hfile] at h
    simp only [Except.ok.injEq, Prod.mk.injEq] at h
    obtain ⟨rfl, rfl⟩ := h
    have hopen := openPackedRefs_ok_some.mpr hfile
    cases hp with
    | absent habsent => simp [habsent] at hopen
    | lines hlines hprocess hlong =>
      rw [hlines] at hopen
      obtain rfl := Option.some.inj (Except.ok.inj hopen)
      exact ⟨hfile, hprocess, hlong, fun _ _ => rfl, fun _ _ _ => rfl⟩
  | none =>
    rw [hfile] at h
    obtain ⟨e, hwrite, heq⟩ := map_eq_ok_iff.mp h
    cases heq
    have hfiles := fileAt_write hwrite
    refine ⟨by rw [hfiles, if_pos rfl], ?_, rfl, fun q hq => by rw [hfiles, if_neg hq],
      fun first q hne => dirAt_write hwrite hne q⟩
    cases hp with
    | absent _ => rfl
    | lines hlines _ _ => simp [openPackedRefs_ok_some.mp hlines] at hfile

lemma path_looseRef (f : List Component × Bytes) :
    SlashPath.path (looseRef [refsPath] f).name = some (refsPath :: f.1) := by
  rw [name_looseRef, SlashPath.path_text]
  rfl

lemma mem_loose_path {files : List (List Component × Bytes)} :
    (∃ r ∈ (files.map (looseRef [refsPath])).foldl addRef [], SlashPath.path r.name = some path) ↔
      ∃ f ∈ files, path = refsPath :: f.1 := by
  constructor
  · rintro ⟨r, hr, hpath⟩
    have hmem := (foldl_addRef_sublist [] _).subset hr
    obtain ⟨f, hf, rfl⟩ := mem_map.mp hmem
    exact ⟨f, hf, Option.some.inj (hpath.symm.trans (path_looseRef f))⟩
  · rintro ⟨f, hf, rfl⟩
    have hsome : (named (looseRef [refsPath] f).name
        ((files.map (looseRef [refsPath])).foldl addRef [])).isSome := by
      rw [named_foldl_addRef, nil_append, named, find?_isSome]
      exact ⟨_, mem_map_of_mem hf, by simp⟩
    obtain ⟨r, hr⟩ := Option.isSome_iff_exists.mp hsome
    have hrname : r.name = (looseRef [refsPath] f).name := by simpa using find?_some hr
    exact ⟨r, mem_of_find?_eq_some hr, by rw [hrname, path_looseRef]⟩

structure PacksTo (d : DotGit) (packed : List Reference) (d' : DotGit) : Prop where
  noLoose : d'.looseFiles = []
  head : d'.addRefFromHEAD = d.addRefFromHEAD
  gone : ∀ f ∈ d.looseFiles, d'.root.fileAt (refsPath :: f.1) = none
  kept : ∀ q, q ≠ [packedRefsPath] → (∀ f ∈ d.looseFiles, q ≠ refsPath :: f.1) →
    d'.root.fileAt q = d.root.fileAt q
  text : d.looseFiles ≠ [] → d'.openPackedRefs =
    .ok (some (Lines.join 0x0a ((d.listing packed).map Reference.string)))
  packed : d.looseFiles = [] → Packed d' packed

lemma looseFiles_eq_nil (h : ∀ p, p ≠ [] → d.root.fileAt (refsPath :: p) = none) : d.looseFiles = [] := by
  rw [eq_nil_iff_forall_not_mem]
  rintro ⟨p, c⟩ hmem
  obtain ⟨hp, hfile⟩ := mem_looseFiles_iff.mp hmem
  rw [h p hp] at hfile
  simp at hfile

lemma addRefFromHEAD_congr (hfile : d'.root.fileAt [headName] = d.root.fileAt [headName])
    (hdir : d'.root.dirAt [headName] = d.root.dirAt [headName]) : d'.addRefFromHEAD = d.addRefFromHEAD := by
  have hpath : SlashPath.path headName.name = some [headName] := SlashPath.path_text [headName]
  rw [addRefFromHEAD, addRefFromHEAD, readReferenceFile, readReferenceFile, hpath]
  dsimp only
  rw [hfile, hdir]

lemma PackRefs_spec (hl : Listed d packed) (h : d.PackRefs = .ok d') : PacksTo d packed d' := by
  have hhead : [headName] ≠ [packedRefsPath] := by decide
  rw [PackRefs, bind_eq_ok_iff] at h
  obtain ⟨⟨d₁, text⟩, hopen, h⟩ := h
  obtain ⟨htext, hlines, hlong, hfiles, hdirs⟩ := openAndLockPackedRefs_spec hl.packed hopen
  have hloose₁ : d₁.looseFiles = d.looseFiles := by
    rw [looseFiles, looseFiles, hdirs _ _ (by decide)]
  obtain ⟨loose, hloose, h⟩ := bind_eq_ok_iff.mp h
  obtain ⟨-, -, rfl⟩ := addRefsFromRefDir_ok_iff.mp hloose
  rw [hloose₁] at h
  by_cases hnil : d.looseFiles = []
  · -- nothing to do
    rw [hnil] at h
    cases h
    refine ⟨hloose₁.trans hnil, addRefFromHEAD_congr (hfiles _ hhead) (hdirs _ _ (by decide)),
      by simp [hnil], fun q hq _ => hfiles q hq, fun hne => absurd hnil hne,
      fun _ => .lines (openPackedRefs_ok_some.mpr htext) hlines hlong⟩
  · have hne : (d.looseFiles.map (looseRef [refsPath])).foldl addRef [] ≠ [] := by
      intro hempty
      obtain ⟨f, files, hcons⟩ := exists_cons_of_ne_nil hnil
      obtain ⟨r, hr, -⟩ := mem_loose_path.mpr ⟨f, hcons ▸ mem_cons_self, rfl⟩
      rw [hempty] at hr
      simp at hr
    rw [if_neg hne, packInto, bind_eq_ok_iff] at h
    obtain ⟨refs, hrefs, h⟩ := h
    obtain ⟨found, hfound, -, rfl⟩ := findPackedRefsInFile_ok_iff.mp hrefs
    obtain rfl := Except.ok.inj (hlines.symm.trans hfound)
    obtain ⟨d₂, hwrite, hremove⟩ := bind_eq_ok_iff.mp h
    set loose := (d.looseFiles.map (looseRef [refsPath])).foldl addRef [] with hloosedef
    have htake : (packed.foldl addRef loose).take loose.length = loose :=
      (prefix_iff_eq_take.mp (isPrefix_foldl_addRef loose packed)).symm
    have hpaths : ∀ r ∈ loose, ∃ path, SlashPath.path r.name = some (refsPath :: path) := by
      intro r hr
      have hmem := (foldl_addRef_sublist [] _).subset hr
      obtain ⟨f, -, rfl⟩ := mem_map.mp hmem
      exact ⟨f.1, path_looseRef f⟩
    rw [htake] at hremove
    obtain ⟨hgone, hkept, hdirs₂⟩ := foldlM_removeLoose_spec hpaths hremove
    have hgone' : ∀ f ∈ d.looseFiles, d'.root.fileAt (refsPath :: f.1) = none := by
      intro f hf
      obtain ⟨r, hr, hpath⟩ := mem_loose_path.mpr ⟨f, hf, rfl⟩
      exact hgone r hr _ hpath
    have hkept' : ∀ q, (∀ f ∈ d.looseFiles, q ≠ refsPath :: f.1) → d'.root.fileAt q = d₂.root.fileAt q := by
      intro q hq
      refine hkept q fun r hr hpath => ?_
      obtain ⟨f, hf, heq⟩ := mem_loose_path.mp ⟨r, hr, hpath⟩
      exact hq f hf heq
    have hfiles₂ := fileAt_write hwrite
    have hpackedKept : d'.root.fileAt [packedRefsPath] =
        some (Lines.join 0x0a ((packed.foldl addRef loose).map Reference.string)) := by
      rw [hkept' _ (fun f _ heq => absurd (List.cons.inj heq).1 (by decide)), hfiles₂, if_pos rfl]
    have hkept'' : ∀ q, q ≠ [packedRefsPath] → (∀ f ∈ d.looseFiles, q ≠ refsPath :: f.1) →
        d'.root.fileAt q = d.root.fileAt q := by
      intro q hq hqf
      rw [hkept' q hqf, hfiles₂, if_neg hq, hfiles q hq]
    refine ⟨looseFiles_eq_nil fun p hp => ?_, addRefFromHEAD_congr ?_ ?_, hgone', hkept'', fun _ => ?_,
      fun h => absurd h hnil⟩
    · by_cases hin : ∃ f ∈ d.looseFiles, p = f.1
      · obtain ⟨f, hf, rfl⟩ := hin
        exact hgone' f hf
      · push Not at hin
        rw [hkept'' _ (by simp [hp]) fun f hf heq => hin f hf (List.cons.inj heq).2]
        cases hfile : d.root.fileAt (refsPath :: p) with
        | none => rfl
        | some c => exact absurd rfl (hin (p, c) (mem_looseFiles_iff.mpr ⟨hp, hfile⟩))
    · exact hkept'' _ hhead fun f _ heq => absurd (List.cons.inj heq).1 (by decide)
    · rw [hdirs₂ _ _ (by decide), dirAt_write hwrite (by decide), hdirs _ _ (by decide)]
    · rw [openPackedRefs_ok_some, hpackedKept, listing, foldl_append]

end Packing

section Preserved

variable {d d' : DotGit} {l packed : List Reference}
  {r : Reference}

@[mk_iff]
structure Packable (r : Reference) : Prop where
  target : ∃ id : ObjectID, r.target = .hash id ∧ id.Proper
  name : 0x20 ∉ r.name ∧ 0x0a ∉ r.name ∧ r.name.getLast? ≠ some 0x0d
  short : r.string.length < 65536

instance (t : ReferenceTarget) : Decidable (∃ id : ObjectID, t = .hash id ∧ id.Proper) :=
  match t with
  | .hash id => decidable_of_iff id.Proper (by simp)
  | .symbolic _ => .isFalse (by simp)

instance : DecidablePred Packable := fun r => decidable_of_iff' _ (packable_iff r)

lemma Packable.processLine (h : Packable r) : processLine r.string = .ok (some r) := by
  obtain ⟨name, target⟩ := r
  obtain ⟨id, rfl, hid⟩ := h.target
  have hline := processLine_hash id h.name.1
  rwa [hid.fromHex_string] at hline

lemma not_mem_string_of_name (h : ∃ id : ObjectID, r.target = .hash id) (hname : 0x0a ∉ r.name) : 0x0a ∉ r.string := by
  obtain ⟨name, target⟩ := r
  obtain ⟨id, rfl⟩ := h
  simp [Reference.string, hname, not_mem_string (c := 0x0a) (by decide) id]

lemma Packable.string (h : Packable r) : 0x0a ∉ r.string ∧ r.string.getLast? ≠ some 0x0d := by
  obtain ⟨id, htarget, -⟩ := h.target
  refine ⟨not_mem_string_of_name ⟨id, htarget⟩ h.name.2.1, ?_⟩
  have hstring : r.string = id.string ++ [0x20] ++ r.name := by rw [Reference.string, htarget]
  rw [hstring]
  by_cases hnil : r.name = []
  · simp [hnil]
  · rw [getLast?_append_of_ne_nil _ hnil]
    exact h.name.2.2

lemma read_written (h : ∀ r ∈ l, Packable r) :
    processLines (scanLines (Lines.join 0x0a (l.map Reference.string))).1 = .ok l ∧
      (scanLines (Lines.join 0x0a (l.map Reference.string))).2 = false := by
  have hscan : scanLines (Lines.join 0x0a (l.map Reference.string)) =
      (l.map Reference.string, false) := by
    refine Lines.scan_join fun line hline => ?_
    obtain ⟨r, hr, rfl⟩ := mem_map.mp hline
    exact ⟨(h r hr).string.1, (h r hr).string.2, (h r hr).short⟩
  rw [hscan]
  refine ⟨?_, rfl⟩
  clear hscan
  induction l with
  | nil => rfl
  | cons r l ih =>
    have ih := ih fun s hs => h s (mem_cons_of_mem _ hs)
    simp only [map_cons, processLines, (h r mem_cons_self).processLine, ih]
    rfl

lemma named_loose {f : List Component × Bytes} (hf : f ∈ d.looseFiles) :
    named (SlashPath.text (refsPath :: f.1)) (d.looseFiles.map (looseRef [refsPath])) =
      some (looseRef [refsPath] f) := by
  have hname := name_looseRef [refsPath] f
  rw [singleton_append] at hname
  rw [← hname]
  refine named_of_unique (mem_map_of_mem hf) fun r hr heq => ?_
  obtain ⟨g, hg, rfl⟩ := mem_map.mp hr
  rw [name_looseRef, name_looseRef] at heq
  have hpath : g.1 = f.1 := (List.cons.inj (SlashPath.text_inj heq)).2
  have hcontent : g.2 = f.2 := by
    have hfile := (mem_looseFiles_iff.mp hf).2
    rw [← hpath, (mem_looseFiles_iff.mp hg).2] at hfile
    exact Option.some.inj hfile
  rw [Prod.ext hpath hcontent]

lemma named_loose_eq_none {p : List Component} (h : ∀ f ∈ d.looseFiles, p ≠ refsPath :: f.1) :
    named (SlashPath.text p) (d.looseFiles.map (looseRef [refsPath])) = none := by
  rw [named, find?_eq_none]
  intro r hr
  obtain ⟨f, hf, rfl⟩ := mem_map.mp hr
  rw [name_looseRef]
  simpa using fun heq => h f hf (SlashPath.text_inj heq).symm

/-- The names that stand for themselves: paths other than that of the packed references. -/
def IsName (n : ReferenceName) : Prop := ∃ p, p ≠ [packedRefsPath] ∧ n = SlashPath.text p

/-- Reading a name and listing all references give the same as before. -/
def Preserved (d d' : DotGit) : Prop := (∀ n, IsName n → d'.Ref n = d.Ref n) ∧ d'.Refs = d.Refs

lemma Refs_of_listed (h : Listed d packed) : d.Refs = d.addRefFromHEAD.map (· ++ d.listing packed) := by
  cases hhead : d.addRefFromHEAD with
  | error e => simp [Refs, hhead, Except.map]
  | ok head => exact Refs_ok_iff.mpr ⟨head, packed, hhead, h, rfl⟩

lemma PacksTo.noFile (hl : Listed d packed) (h : PacksTo d packed d') : d'.root.fileAt [refsPath] = none := by
  rw [h.kept _ (by decide) fun f hf heq => (mem_looseFiles_iff.mp hf).1 (List.cons.inj heq).2.symm]
  exact hl.noFile

lemma PacksTo.preserved (hl : Listed d packed) (h : PacksTo d packed d')
    (hp : d.looseFiles = [] ∨ ∀ r ∈ d.listing packed, Packable r) : Preserved d d' := by
  by_cases hnil : d.looseFiles = []
  · have hl' : Listed d' packed := ⟨h.noFile hl, by simp [h.noLoose], h.packed hnil⟩
    refine ⟨?_, ?_⟩
    · rintro _ ⟨p, hne, rfl⟩
      rw [hl.packed.Ref, hl'.packed.Ref, h.kept p hne (by simp [hnil])]
    · rw [Refs_of_listed hl, Refs_of_listed hl', h.head, listing, listing, h.noLoose, hnil]
  · have hall := hp.resolve_left hnil
    obtain ⟨hread, hlong⟩ := read_written hall
    have hl' : Listed d' (d.listing packed) :=
      ⟨h.noFile hl, by simp [h.noLoose], .lines (h.text hnil) hread hlong⟩
    refine ⟨?_, ?_⟩
    · rintro _ ⟨p, hne, rfl⟩
      rw [hl.packed.Ref, hl'.packed.Ref, listing, named_foldl_addRef, nil_append, named_append]
      by_cases hin : ∃ f ∈ d.looseFiles, p = refsPath :: f.1
      · -- a loose reference, which is packed first
        obtain ⟨f, hf, rfl⟩ := hin
        rw [h.gone f hf, named_loose hf, (mem_looseFiles_iff.mp hf).2]
        obtain ⟨c, content, hcontent⟩ := exists_cons_of_ne_nil (hl.loose f hf)
        rw [hcontent]
        simp [looseRef, hcontent]
      · push Not at hin
        rw [h.kept p hne hin, named_loose_eq_none hin, Option.none_or]
    · have hnodup : ((d.listing packed).map Reference.name).Nodup := nodup_foldl_addRef (by simp) _
      have hlisting : d'.listing (d.listing packed) = d.listing packed := by
        rw [listing, h.noLoose]
        exact foldl_addRef_of_nodup hnodup
      rw [Refs_of_listed hl, Refs_of_listed hl', h.head, hlisting]

lemma processLine_written {id : ObjectID} (ht : r.target = .hash id) (hn : 0x20 ∉ r.name) :
    processLine (Lines.dropEnd 0x0d r.string) = .ok (some ⟨Lines.dropEnd 0x0d r.name, .hash (.fromHex id.string)⟩) := by
  have hstring : r.string = id.string ++ [0x20] ++ r.name := by rw [Reference.string, ht]
  have hdrop : Lines.dropEnd 0x0d r.string = id.string ++ [0x20] ++ Lines.dropEnd 0x0d r.name := by
    rw [hstring]
    by_cases hnil : r.name = []
    · simp [hnil, Lines.dropEnd]
    · rw [Lines.dropEnd, Lines.dropEnd, getLast?_append_of_ne_nil _ hnil]
      split_ifs
      · rw [dropLast_append_of_ne_nil hnil]
      · rfl
  rw [hdrop]
  exact processLine_hash id fun hin => hn ((Lines.dropEnd_isPrefix _ _).subset hin)

lemma processLines_written (h : ∀ r ∈ l, (∃ id, r.target = .hash id) ∧ 0x20 ∉ r.name) :
    processLines (l.map fun r => Lines.dropEnd 0x0d r.string) =
      .ok (l.map fun r => ⟨Lines.dropEnd 0x0d r.name, .hash (.fromHex r.hash.string)⟩) := by
  induction l with
  | nil => rfl
  | cons r l ih =>
    obtain ⟨⟨id, ht⟩, hn⟩ := h r mem_cons_self
    have ih := ih fun s hs => h s (mem_cons_of_mem _ hs)
    have hash : r.hash = id := by rw [Reference.hash, ht]
    simp only [map_cons, processLines, processLine_written ht hn, ih, hash]
    rfl

lemma packable_of_read {found : List Reference}
    (hlines : processLines (scanLines (Lines.join 0x0a (l.map Reference.string))).1 = .ok found)
    (hlong : (scanLines (Lines.join 0x0a (l.map Reference.string))).2 = false)
    (heq : found.foldl addRef [] = l) : ∀ r ∈ l, Packable r := by
  -- what is read has an object as its target, and neither blanks nor line feeds in its name
  have hread : ∀ r ∈ l, (∃ id, r.target = .hash id) ∧ 0x20 ∉ r.name ∧ 0x0a ∉ r.name := by
    intro r hr
    rw [← heq] at hr
    have hmem : r ∈ found := by simpa using (foldl_addRef_sublist [] found).subset hr
    obtain ⟨line, hline, hprocess⟩ := mem_processLines hlines r hmem
    obtain ⟨htarget, hblank, hsub⟩ := processLine_some hprocess
    exact ⟨htarget, hblank, fun hin => Lines.not_mem_scan _ line hline (hsub hin)⟩
  have hraw : Lines.raw 0x0a (Lines.join 0x0a (l.map Reference.string)) = l.map Reference.string := by
    refine Lines.raw_join fun line hline => ?_
    obtain ⟨r, hr, rfl⟩ := mem_map.mp hline
    exact not_mem_string_of_name (hread r hr).1 (hread r hr).2.2
  have hshort := Lines.short_of_scan hlong
  have hscan := @Lines.scan_of_short UInt8 0x0a _ _ 0x0d _ hshort
  rw [hraw] at hshort hscan
  -- so each line is read as a reference, and none of them is left out
  have hfound : found = l.map fun r => ⟨Lines.dropEnd 0x0d r.name, .hash (.fromHex r.hash.string)⟩ := by
    rw [scanLines, hscan, map_map] at hlines
    exact Except.ok.inj (hlines.symm.trans (processLines_written fun r hr =>
      ⟨(hread r hr).1, (hread r hr).2.1⟩))
  have hsame : found = l := by
    have hsub := foldl_addRef_sublist [] found
    rw [heq, nil_append] at hsub
    exact (hsub.eq_of_length (by rw [hfound, length_map])).symm
  intro r hr
  obtain ⟨⟨id, ht⟩, hblank, hfeed⟩ := hread r hr
  have hr' : (⟨Lines.dropEnd 0x0d r.name, .hash (.fromHex r.hash.string)⟩ : Reference) = r := by
    rw [hsame] at hfound
    exact map_inj_left.mp (hfound.symm.trans (map_id l).symm) r hr
  have hash : r.hash = id := by rw [Reference.hash, ht]
  have hid : ObjectID.fromHex id.string = id := by
    have htarget := congrArg Reference.target hr'
    rw [ht, hash] at htarget
    exact ReferenceTarget.hash.inj htarget
  exact ⟨⟨id, ht, id.fromHex_string_iff.mp hid⟩,
    ⟨hblank, hfeed, Lines.dropEnd_eq_self_iff.mp (congrArg Reference.name hr')⟩,
    hshort _ (mem_map_of_mem hr)⟩

/-- No reference is loose, or all references fit in a line of the file. -/
def AllPackable (d : DotGit) : Prop :=
  d.looseFiles = [] ∨ ∀ refs, d.gathered = .ok refs → ∀ r ∈ refs, Packable r

/-- Packing keeps what is read of the references if all of them can be packed, and only then. -/
theorem PackRefs_preserved_iff (hread : ∃ l, d.Refs = .ok l) (h : d.PackRefs = .ok d') :
    Preserved d d' ↔ AllPackable d := by
  obtain ⟨l, hrefs⟩ := hread
  obtain ⟨head, packed, hhead, hl, rfl⟩ := Refs_ok_iff.mp hrefs
  have hto := PackRefs_spec hl h
  constructor
  · rintro ⟨-, hsame⟩
    by_cases hnil : d.looseFiles = []
    · exact .inl hnil
    · right
      intro refs hgathered
      obtain ⟨packed₁, hl₁, rfl⟩ := gathered_ok_iff.mp hgathered
      have hto₁ := PackRefs_spec hl₁ h
      rw [hrefs] at hsame
      obtain ⟨head', packed', hhead', hl', heq⟩ := Refs_ok_iff.mp hsame
      rw [Refs_of_listed hl₁, hhead] at hrefs
      have hheads : head' = head := Except.ok.inj (hhead'.symm.trans (hto.head.trans hhead))
      have hlisting : d'.listing packed' = d.listing packed₁ := by
        rw [hheads, ← Except.ok.inj hrefs] at heq
        exact (append_cancel_left heq).symm
      rw [listing, hto.noLoose, map_nil, nil_append] at hlisting
      cases hl'.packed with
      | absent habsent => simp [hto₁.text hnil] at habsent
      | lines htext hlines hlong =>
        rw [hto₁.text hnil] at htext
        obtain rfl := Option.some.inj (Except.ok.inj htext)
        exact packable_of_read hlines hlong hlisting
  · intro hall
    exact hto.preserved hl (hall.imp_right fun hp => hp _ (gathered_ok_iff.mpr ⟨packed, hl, rfl⟩))

def entryName (s : String) : Component := (SlashPath.component? (textBytes s)).getD headName

/-- A branch with the digits of an object, a packed tag that is peeled, a packed branch that the loose one
hides, and another reference with the content. -/
def sampleRoot (content : String) : FileTree Component Bytes :=
  .file headName (textBytes "ref: refs/heads/a\n") <|
  .file packedRefsPath (textBytes ("# pack-refs with: peeled fully-peeled sorted \n" ++
    "2222222222222222222222222222222222222222 refs/heads/a\n" ++
    "3333333333333333333333333333333333333333 refs/tags/v1\n" ++
    "^4444444444444444444444444444444444444444\n")) <|
  .dir refsPath
    (.dir (entryName "heads")
      (.file (entryName "a") (textBytes "1111111111111111111111111111111111111111\n") .empty) <|
    .dir (entryName "remotes") (.file (entryName "HEAD") (textBytes content) .empty) .empty)
    .empty

def sampleDir (content : String) : DotGit where
  root := sampleRoot content
  wf := by
    have hwf : (sampleRoot "").Wf := by decide +kernel
    exact hwf

theorem PackRefs_preserved_sample : ∃ d', (sampleDir "5555555555555555555555555555555555555555\n").PackRefs = .ok d' ∧
      Preserved (sampleDir "5555555555555555555555555555555555555555\n") d' := by
  set d := sampleDir "5555555555555555555555555555555555555555\n" with hd
  have hall : ∀ refs ∈ d.gathered.toOption, ∀ r ∈ refs, Packable r := by decide +kernel
  obtain ⟨l, hrefs, -⟩ : ∃ l, d.Refs = .ok l ∧ True := exists_ok (by decide +kernel)
  obtain ⟨d', hpack, -⟩ : ∃ d', d.PackRefs = .ok d' ∧ True := exists_ok (by decide +kernel)
  refine ⟨d', hpack, (PackRefs_preserved_iff ⟨l, hrefs⟩ hpack).mpr (.inr fun refs hg => ?_)⟩
  exact hall refs (by rw [hg]; rfl)

theorem not_preserved_symbolic : (sampleDir "ref: refs/heads/a\n").Refs.toOption.isSome ∧
    ∃ d', (sampleDir "ref: refs/heads/a\n").PackRefs = .ok d' ∧ ¬ Preserved (sampleDir "ref: refs/heads/a\n") d' := by
  set d := sampleDir "ref: refs/heads/a\n" with hd
  have hsome : d.Refs.toOption.isSome := by decide +kernel
  obtain ⟨d', hpack, hlost⟩ : ∃ d', d.PackRefs = .ok d' ∧ d'.Refs.toOption.isSome = false :=
    exists_ok (by decide +kernel)
  refine ⟨hsome, d', hpack, fun hp => ?_⟩
  rw [hp.2, hsome] at hlost
  cases hlost

end Preserved

end GoGit.DotGit
