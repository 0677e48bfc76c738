import GoGit.ReferenceStorage

/-! What is written goes to a temporal storage until it is committed. The transactional storage embeds the base
storage, so that a method it does not have itself is one of the base. -/
namespace GoGit.Transactional

open List Function

structure ReferenceLister (σ : Type) extends ReferenceStorer σ where
  iterReferences : σ → List Reference
  name_of_reference : ∀ {s n r}, reference s n = some r → r.name = n
  nodup_iter : ∀ s, ((iterReferences s).map Reference.name).Nodup
  mem_iter : ∀ s r, r ∈ iterReferences s ↔ reference s r.name = some r

variable {n : ReferenceName}

section References

variable {β τ : Type} (B : ReferenceLister β) (T : ReferenceLister τ)

variable (s : ReferenceStorage β τ)

/-- `IterReferences`: those of the base and then the temporal ones. -/
def IterReferences : List Reference :=
  B.iterReferences s.base ++ T.iterReferences s.temporal

inductive ReferenceOp
  | set (r : Reference)
  | remove (n : ReferenceName)
  | reference (n : ReferenceName)
  | iter

def ReferenceOp.written : ReferenceOp → Option ReferenceName
  | set r => some r.name
  | remove n => some n
  | _ => none

def referenceStep : ReferenceOp → ReferenceStorage β τ
  | .set r => (storer B.toReferenceStorer T.toReferenceStorer).setReference s r
  | .remove n => (storer B.toReferenceStorer T.toReferenceStorer).removeReference s n
  | _ => s

def referenceRun (ops : List ReferenceOp) : ReferenceStorage β τ :=
  ops.foldl (referenceStep B T) s

/-- Each name is listed once, with the reference that is looked up for it. -/
def Faithful : Prop :=
  ((IterReferences B T s).map Reference.name).Nodup ∧
    ∀ r, r ∈ IterReferences B T s ↔
      (storer B.toReferenceStorer T.toReferenceStorer).reference s r.name = some r

structure Apart (s : ReferenceStorage β τ) : Prop where
  staged : ∀ n, T.reference s.temporal n ≠ none → B.reference s.base n = none ∧ n ∉ s.deleted
  deleted : ∀ n ∈ s.deleted, B.reference s.base n = none

variable {B T} {s : ReferenceStorage β τ}

lemma mem_names_iff {σ : Type} (S : ReferenceLister σ) {s : σ} :
    n ∈ (S.iterReferences s).map Reference.name ↔ S.reference s n ≠ none := by
  rw [mem_map]
  constructor
  · rintro ⟨r, hr, rfl⟩
    rw [(S.mem_iter s r).mp hr]
    simp
  · intro h
    obtain ⟨r, hr⟩ := Option.ne_none_iff_exists'.mp h
    have hname := S.name_of_reference hr
    exact ⟨r, (S.mem_iter s r).mpr (hname ▸ hr), hname⟩

lemma Apart.faithful (h : Apart B T s) : Faithful B T s := by
  constructor
  · rw [IterReferences, map_append, nodup_append]
    refine ⟨B.nodup_iter _, T.nodup_iter _, fun n hn m hm heq => ?_⟩
    subst heq
    exact (mem_names_iff B).mp hn (h.staged n ((mem_names_iff T).mp hm)).1
  · intro r
    rw [IterReferences, mem_append, B.mem_iter, T.mem_iter]
    change _ ↔ (if r.name ∈ s.deleted then none else lookup _ _ s r.name) = some r
    cases hT : T.reference s.temporal r.name with
    | none =>
      split_ifs with hdeleted
      · simp [h.deleted _ hdeleted]
      · simp [lookup, hT]
    | some r' =>
      obtain ⟨hB, hdeleted⟩ := h.staged r.name (by simp [hT])
      simp [lookup, hT, hB, hdeleted]

lemma referenceStep_base (op : ReferenceOp) : (referenceStep B T s op).base = s.base := by cases op <;> rfl

lemma referenceRun_base (ops : List ReferenceOp) : (referenceRun B T s ops).base = s.base := by
  induction ops generalizing s with
  | nil => rfl
  | cons op ops ih => exact ih.trans (referenceStep_base op)

lemma Apart.step (h : Apart B T s) {op : ReferenceOp} (hop : ∀ n ∈ op.written, B.reference s.base n = none) :
    Apart B T (referenceStep B T s op) := by
  cases op with
  | set r =>
    have hbase := hop r.name rfl
    refine ⟨fun n hn => ?_, fun n hn => h.deleted n (mem_of_mem_filter hn)⟩
    by_cases hname : n = r.name
    · subst hname
      exact ⟨hbase, by simp [referenceStep, storer]⟩
    · have hstaged : T.reference s.temporal n ≠ none := by
        simpa [referenceStep, storer, T.reference_set, hname] using hn
      obtain ⟨hB, hdeleted⟩ := h.staged n hstaged
      exact ⟨hB, fun hmem => hdeleted (mem_of_mem_filter hmem)⟩
  | remove m =>
    have hbase := hop m rfl
    constructor
    · intro n hn
      by_cases hname : n = m
      · simp [referenceStep, storer, T.reference_remove, hname] at hn
      · have hstaged : T.reference s.temporal n ≠ none := by
          simpa [referenceStep, storer, T.reference_remove, hname] using hn
        obtain ⟨hB, hdeleted⟩ := h.staged n hstaged
        exact ⟨hB, by simp [referenceStep, storer, hname, hdeleted]⟩
    · exact forall_mem_cons.mpr ⟨hbase, h.deleted⟩
  | reference n => exact h
  | iter => exact h

lemma Apart.run (h : Apart B T s) {ops : List ReferenceOp}
    (hops : ∀ op ∈ ops, ∀ n ∈ op.written, B.reference s.base n = none) : Apart B T (referenceRun B T s ops) := by
  induction ops generalizing s with
  | nil => exact h
  | cons op ops ih =>
    refine ih (h.step (hops op mem_cons_self)) fun op' hop' n hn => ?_
    rw [referenceStep_base]
    exact hops op' (mem_cons_of_mem _ hop') n hn

lemma not_faithful_step {op : ReferenceOp} {n : ReferenceName} (hn : n ∈ op.written) (hbase : B.reference s.base n ≠ none) :
    ¬ Faithful B T (referenceStep B T s op) := by
  rintro ⟨hnodup, hmem⟩
  cases op with
  | set r =>
    cases hn
    rw [IterReferences, map_append, nodup_append] at hnodup
    refine hnodup.2.2 r.name ((mem_names_iff B).mpr hbase) r.name ((mem_names_iff T).mpr ?_) rfl
    simp [referenceStep, storer, T.reference_set]
  | remove m =>
    cases hn
    obtain ⟨r, hr⟩ := Option.ne_none_iff_exists'.mp hbase
    have hname := B.name_of_reference hr
    have hlisted : r ∈ IterReferences B T (referenceStep B T s (.remove n)) :=
      mem_append_left _ ((B.mem_iter _ r).mpr (by rw [hname]; exact hr))
    have hlookup := (hmem r).mp hlisted
    rw [hname] at hlookup
    change ((storer _ _).reference ((storer _ _).removeReference s n) n) = some r at hlookup
    rw [(storer _ _).reference_remove, if_pos rfl] at hlookup
    cases hlookup
  | reference => cases hn
  | iter => cases hn

end References

/-- In every state of a run the list of references is faithful exactly if nothing is set or removed that the base
has. -/
theorem IterReferences_faithful_iff {β τ : Type} (B : ReferenceLister β) (T : ReferenceLister τ) (base : β)
    (temporal : τ) (ops : List ReferenceOp) :
    (∀ pre, pre <+: ops → Faithful B T (referenceRun B T ⟨base, temporal, []⟩ pre)) ↔
      (∀ n, T.reference temporal n ≠ none → B.reference base n = none) ∧
        ∀ op ∈ ops, ∀ n ∈ op.written, B.reference base n = none := by
  constructor
  · intro h
    constructor
    · intro n hn
      by_contra hbase
      have hnodup := (h [] (List.nil_prefix)).1
      rw [IterReferences, map_append, nodup_append] at hnodup
      exact hnodup.2.2 n ((mem_names_iff B).mpr hbase) n ((mem_names_iff T).mpr hn) rfl
    · intro op hop n hn
      by_contra hbase
      obtain ⟨pre, post, rfl⟩ := append_of_mem hop
      have hpre := h (pre ++ [op]) ⟨post, by simp⟩
      rw [referenceRun, foldl_append] at hpre
      refine not_faithful_step hn ?_ hpre
      change B.reference (referenceRun B T _ pre).base n ≠ none
      rw [referenceRun_base]
      exact hbase
  · rintro ⟨htemporal, hops⟩ pre hpre
    refine (Apart.run ?_ fun op hop => hops op (hpre.subset hop)).faithful
    exact ⟨fun n hn => ⟨htemporal n hn, by simp⟩, by simp⟩

def References : Type := {l : List Reference // (l.map Reference.name).Nodup}

namespace References

variable (l : References)

def without (n : ReferenceName) : References :=
  ⟨l.1.filter (·.name ≠ n), l.2.sublist (filter_sublist.map _)⟩

lemma name_ne_of_mem_without {l : References} : ∀ r ∈ (l.without n).1, r.name ≠ n := by
  intro r hr
  simpa using of_mem_filter hr

def put (r : Reference) : References :=
  ⟨r :: (l.without r.name).1, by
    refine nodup_cons.mpr ⟨fun hmem => ?_, (l.without r.name).2⟩
    obtain ⟨r', hr', hname⟩ := mem_map.mp hmem
    exact name_ne_of_mem_without r' hr' hname⟩

def get (n : ReferenceName) : Option Reference := l.1.find? (·.name = n)

lemma get_without (m n : ReferenceName) : (l.without m).get n = if n = m then none else l.get n := by
  rw [get, without, find?_filter]
  split_ifs with h
  · rw [find?_eq_none]
    intro r _
    simp [h]
  · refine congrArg (List.find? · l.1) (funext fun r => ?_)
    by_cases hr : r.name = n
    · simp [hr, h]
    · simp [hr]

lemma get_put (r : Reference) (n : ReferenceName) : (l.put r).get n = if n = r.name then some r else l.get n := by
  have hwithout := get_without l r.name n
  rw [get, put, find?_cons]
  by_cases h : n = r.name
  · simp [h]
  · rw [if_neg h] at hwithout ⊢
    rw [show decide (r.name = n) = false by simpa using Ne.symm h]
    exact hwithout

lemma mem_iff_get (r : Reference) : r ∈ l.1 ↔ l.get r.name = some r := by
  constructor
  · intro h
    rw [get, find?_eq_some_iff_append]
    obtain ⟨pre, post, hl⟩ := append_of_mem h
    refine ⟨by simp, pre, post, hl, fun r' hr' => ?_⟩
    have hnodup := l.2
    rw [hl, map_append, nodup_append] at hnodup
    have hne := hnodup.2.2 r'.name (mem_map_of_mem hr') r.name (by simp)
    simpa using hne
  · exact mem_of_find?_eq_some

def lister : ReferenceLister References where
  reference := get
  setReference := put
  removeReference := without
  reference_set := get_put
  reference_remove := get_without
  iterReferences l := l.1
  name_of_reference h := by simpa using find?_some h
  nodup_iter l := l.2
  mem_iter := mem_iff_get

end References

def oneReference : References := ⟨[branchAt "a" "11"], by simp⟩

def noReferences : References := ⟨[], nodup_nil⟩

theorem IterReferences_not_faithful : IterReferences References.lister References.lister
        (referenceRun References.lister References.lister ⟨oneReference, noReferences, []⟩ [.set (branchAt "a" "22")]) =
      [branchAt "a" "11", branchAt "a" "22"] ∧ IterReferences References.lister References.lister
        (referenceRun References.lister References.lister ⟨oneReference, noReferences, []⟩ [.remove (branch "a")]) =
      [branchAt "a" "11"] ∧ ¬ Faithful References.lister References.lister
      (referenceRun References.lister References.lister ⟨oneReference, noReferences, []⟩ [.set (branchAt "a" "22")]) ∧
    ¬ Faithful References.lister References.lister
      (referenceRun References.lister References.lister ⟨oneReference, noReferences, []⟩ [.remove (branch "a")]) := by
  have hbase : References.lister.reference oneReference (branch "a") ≠ none := by decide +kernel
  refine ⟨rfl, rfl, fun h => ?_, fun h => ?_⟩
  · exact @not_faithful_step _ _ _ _ _ (.set (branchAt "a" "22")) _ rfl hbase h
  · exact @not_faithful_step _ _ _ _ _ (.remove (branch "a")) _ rfl hbase h

abbrev RawObject := ObjectType × Bytes

structure Contents (ι κ : Type) where
  references : ReferenceName → Option Reference
  objects : ObjectID → Option RawObject
  index : ι
  config : κ
  shallow : List ObjectID

/-- A change in place of something that a storage has handed out. References cannot be changed. -/
inductive Edit (ι κ : Type)
  | index (f : ι → ι)
  | config (f : κ → κ)
  | object (h : ObjectID) (f : RawObject → RawObject)
  | shallow (f : List ObjectID → List ObjectID)

def Edit.apply {ι κ : Type} (c : Contents ι κ) : Edit ι κ → Contents ι κ
  | .index f => { c with index := f c.index }
  | .config f => { c with config := f c.config }
  | .object h f => { c with objects := update c.objects h ((c.objects h).map f) }
  | .shallow f => { c with shallow := f c.shallow }

structure Storer (σ ι κ : Type) where
  contents : σ → Contents ι κ
  hash : RawObject → ObjectID
  setReference : σ → Reference → σ
  removeReference : σ → ReferenceName → σ
  setEncodedObject : σ → RawObject → Option σ
  rawObjectWriter : σ → RawObject → σ
  packfileWriter : Option (σ → Bytes → σ)
  addAlternate : σ → Bytes → Option σ
  setIndex : σ → ι → Option σ
  setConfig : σ → κ → Option σ
  setShallow : σ → List ObjectID → Option σ
  module : σ → Bytes → σ
  /-- Whether what is handed out is the storage's own, as in memory, or a copy. -/
  shares : Edit ι κ → Bool
  edit : σ → Edit ι κ → σ
  contents_edit : ∀ s e, contents (edit s e) = if shares e then e.apply (contents s) else contents s
  /-- A writer stores what was written to it when it is closed. -/
  contents_raw : ∀ s o, contents (rawObjectWriter s o) =
    { contents s with objects := update (contents s).objects (hash o) (some o) }
  /-- A module that is not there is made, which is no part of the storage itself. -/
  contents_module : ∀ s name, contents (module s name) = contents s

structure Storage (β τ : Type) where
  base : β
  temporal : τ
  deleted : List ReferenceName := []
  indexSet : Bool := false
  configSet : Bool := false

inductive Call (ι κ : Type)
  | setReference (r : Reference)
  | checkAndSetReference (r : Reference) (old : Option Reference)
  | reference (n : ReferenceName)
  | iterReferences
  | countLooseRefs
  | packRefs
  | removeReference (n : ReferenceName)
  | rawObjectWriter (o : RawObject)
  | newEncodedObject
  | setEncodedObject (o : RawObject)
  | encodedObject (t : ObjectType) (h : ObjectID)
  | hasEncodedObject (h : ObjectID)
  | encodedObjectSize (h : ObjectID)
  | iterEncodedObjects (t : ObjectType)
  | addAlternate (remote : Bytes)
  | setIndex (idx : ι)
  | index
  | setShallow (commits : List ObjectID)
  | shallow
  | setConfig (cfg : κ)
  | config
  | module (name : Bytes)
  | packfileWriter (pack : Bytes)
  /-- The caller changes what the base has handed out, which `Config`, `Index` and the others do until something is
  set. -/
  | editBase (e : Edit ι κ)
  | editTemporal (e : Edit ι κ)

section Storage

variable {β τ ι κ : Type} (B : Storer β ι κ) (T : Storer τ ι κ)

namespace Storage

variable (s : Storage β τ)

def setReference (r : Reference) : Storage β τ :=
  { s with deleted := s.deleted.filter (· ≠ r.name), temporal := T.setReference s.temporal r }

/-- The reference of the old name, which is looked up in the temporal storage and then in the base. -/
def checkAndSetReference (r : Reference) : Option Reference → Storage β τ
  | none => s.setReference T r
  | some old =>
    match ((T.contents s.temporal).references old.name).or ((B.contents s.base).references old.name) with
    | none => s
    | some tmp => if tmp.hash ≠ old.hash then s else s.setReference T r

/-- The state after a call. `RawObjectWriter` and `NewEncodedObject` are those of the base. -/
def call : Call ι κ → Storage β τ
  | .setReference r => s.setReference T r
  | .checkAndSetReference r old => s.checkAndSetReference B T r old
  | .removeReference n => { s with deleted := n :: s.deleted, temporal := T.removeReference s.temporal n }
  | .rawObjectWriter o => { s with base := B.rawObjectWriter s.base o }
  | .setEncodedObject o => { s with temporal := (T.setEncodedObject s.temporal o).getD s.temporal }
  | .addAlternate remote => { s with temporal := (T.addAlternate s.temporal remote).getD s.temporal }
  | .setIndex idx =>
    match T.setIndex s.temporal idx with
    | none => s
    | some temporal => { s with temporal, indexSet := true }
  | .setShallow commits => { s with temporal := (T.setShallow s.temporal commits).getD s.temporal }
  | .setConfig cfg =>
    match T.setConfig s.temporal cfg with
    | none => s
    | some temporal => { s with temporal, configSet := true }
  | .module name => { s with base := B.module s.base name, temporal := T.module s.temporal name }
  | .packfileWriter pack =>
    match T.packfileWriter with
    | none => s
    | some write => { s with temporal := write s.temporal pack }
  | .editBase e => { s with base := B.edit s.base e }
  | .editTemporal e => { s with temporal := T.edit s.temporal e }
  | .reference _ | .iterReferences | .countLooseRefs | .packRefs | .newEncodedObject | .encodedObject .. |
    .hasEncodedObject _ | .encodedObjectSize _ | .iterEncodedObjects _ | .index | .shallow | .config => s

def run (calls : List (Call ι κ)) : Storage β τ := calls.foldl (call B T) s

end Storage

inductive Op (ι κ : Type)
  | call (c : Call ι κ)
  | updateObjectStorage (pack : Bytes)

/-- The calls of an operation. `UpdateObjectStorage` gives a pack to the writer of the temporal storage, and without
one its objects are written one by one; `unpack` is what the parser finds in a pack. -/
def Op.calls (unpack : Bytes → List RawObject) : Op ι κ → List (Call ι κ)
  | .call c => [c]
  | .updateObjectStorage pack =>
    match T.packfileWriter with
    | some _ => [.packfileWriter pack]
    | none => (unpack pack).map .rawObjectWriter

/-- What a call does to the contents of the base. -/
def Call.effect (c : Contents ι κ) : Call ι κ → Contents ι κ
  | .rawObjectWriter o => { c with objects := update c.objects (B.hash o) (some o) }
  | .editBase e => if B.shares e then e.apply c else c
  | _ => c

/-- An object that is written is there already, and a change in place changes nothing. -/
def Call.Keeps (c : Contents ι κ) : Call ι κ → Prop
  | .rawObjectWriter o => c.objects (B.hash o) = some o
  | .editBase e => B.shares e = true → e.apply c = c
  | _ => True

variable {B T} {s : Storage β τ}

lemma effect_eq_iff (c : Contents ι κ) (call : Call ι κ) : call.effect B c = c ↔ call.Keeps B c := by
  cases call with
  | rawObjectWriter o =>
    rw [Call.effect, Call.Keeps]
    constructor
    · intro h
      simpa using (congrFun (congrArg Contents.objects h) (B.hash o)).symm
    · intro h
      have hsame : update c.objects (B.hash o) (some o) = c.objects := by rw [update_eq_self_iff, h]
      simp only [hsame]
  | editBase e =>
    rw [Call.effect, Call.Keeps]
    split_ifs with hshares <;> simp [hshares]
  | _ => exact iff_of_true rfl trivial

lemma contents_call (c : Call ι κ) : B.contents (s.call B T c).base = c.effect B (B.contents s.base) := by
  cases c with
  | rawObjectWriter o => exact B.contents_raw s.base o
  | module name => exact B.contents_module s.base name
  | editBase e => exact B.contents_edit s.base e
  | checkAndSetReference r old =>
    cases old with
    | none => rfl
    | some old =>
      simp only [Storage.call, Storage.checkAndSetReference, Call.effect]
      split
      · rfl
      · split_ifs <;> rfl
  | setIndex idx =>
    simp only [Storage.call, Call.effect]
    split <;> rfl
  | setConfig cfg =>
    simp only [Storage.call, Call.effect]
    split <;> rfl
  | packfileWriter pack =>
    simp only [Storage.call, Call.effect]
    split <;> rfl
  | _ => rfl

lemma contents_run {calls : List (Call ι κ)} (h : ∀ c ∈ calls, c.Keeps B (B.contents s.base)) :
    B.contents (s.run B T calls).base = B.contents s.base := by
  induction calls generalizing s with
  | nil => rfl
  | cons c calls ih =>
    have hcall : B.contents (s.call B T c).base = B.contents s.base := by
      rw [contents_call, effect_eq_iff]
      exact h c mem_cons_self
    rw [Storage.run, foldl_cons, ← Storage.run, ih, hcall]
    intro c' hc'
    rw [hcall]
    exact h c' (mem_cons_of_mem _ hc')

end Storage

/-- A storage in memory, which has no writer of packs, refuses nothing and hands out what is its own. Of the
configuration there are the names of the remotes. -/
def memoryStorer (hash : RawObject → ObjectID) : Storer (Contents Unit (List Bytes)) Unit (List Bytes) where
  contents s := s
  hash := hash
  setReference s r := { s with references := update s.references r.name (some r) }
  removeReference s n := { s with references := update s.references n none }
  setEncodedObject s o := some { s with objects := update s.objects (hash o) (some o) }
  rawObjectWriter s o := { s with objects := update s.objects (hash o) (some o) }
  packfileWriter := none
  addAlternate _ _ := none
  setIndex s idx := some { s with index := idx }
  setConfig s cfg := some { s with config := cfg }
  setShallow s commits := some { s with shallow := commits }
  module s _ := s
  shares _ := true
  edit s e := e.apply s
  contents_edit _ _ := rfl
  contents_raw _ _ := rfl
  contents_module _ _ := rfl

def emptyStorage : Contents Unit (List Bytes) := ⟨fun _ => none, fun _ => none, (), [], []⟩

def aBlob : RawObject := (.blob, textBytes "a")

def oneHash (_ : RawObject) : ObjectID := .short 1

def memory : Storer (Contents Unit (List Bytes)) Unit (List Bytes) := memoryStorer oneHash

def newStorage : Storage (Contents Unit (List Bytes)) (Contents Unit (List Bytes)) :=
  ⟨emptyStorage, emptyStorage, [], false, false⟩

end GoGit.Transactional
