import GoGit.Object
import GoGit.Search

/-! What an object names is what can be reached from it. The commit a submodule entry names belongs to another
repository and is not among it. -/
namespace GoGit

open List

structure Signature where
  name : Bytes := []
  email : Bytes := []
  when : Time := .zero
  zone : ℤ := 0
  deriving DecidableEq

structure ExtraHeader where
  key : Bytes
  value : Bytes
  deriving DecidableEq

structure Commit where
  hash : ObjectID := .zeroHash
  author : Signature := {}
  committer : Signature := {}
  mergeTag : Bytes := []
  pgpSignature : Bytes := []
  message : Bytes := []
  treeHash : ObjectID := .zeroHash
  parentHashes : List ObjectID := []
  encoding : Bytes := []
  extraHeaders : List ExtraHeader := []
  deriving DecidableEq

namespace FileMode

def dir : UInt32 := 0o040000

def regular : UInt32 := 0o100644

def deprecated : UInt32 := 0o100664

def executable : UInt32 := 0o100755

def symlink : UInt32 := 0o120000

def submodule : UInt32 := 0o160000

lemma dir_ne_submodule : dir ≠ submodule := by decide

end FileMode

structure TreeEntry where
  name : Bytes
  mode : UInt32
  hash : ObjectID
  deriving DecidableEq

structure Tree where
  hash : ObjectID
  entries : List TreeEntry
  deriving DecidableEq

inductive ObjectError
  | objectNotFound
  | invalidType
  | unsupportedObject
  | malformed
  | maxTreeDepth
  | eof
  | endless
  | stop
  | isReachable
  | indexOutOfRange
  | wrap (context : String) (cause : ObjectError)
  deriving DecidableEq

/-- `errors.Is`: the sentinel at the bottom of the wrapping chain. -/
def ObjectError.root : ObjectError → ObjectError
  | wrap _ cause => cause.root
  | e => e

inductive Object
  | commit (c : Commit)
  | tree (entries : List TreeEntry)
  | blob
  | tag (target : ObjectID)
  | corrupt (type : ObjectType)
  deriving DecidableEq

variable {entries : List TreeEntry}

namespace Object

def type : Object → ObjectType
  | commit _ => .commit
  | tree _ => .tree
  | blob => .blob
  | tag _ => .tag
  | corrupt t => t

def refs : Object → List ObjectID
  | commit c => c.treeHash :: c.parentHashes
  | tree entries => (entries.filter (·.mode ≠ FileMode.submodule)).map (·.hash)
  | tag target => [target]
  | _ => []

def dirs : Object → List ObjectID
  | tree entries => (entries.filter (·.mode = FileMode.dir)).map (·.hash)
  | _ => []

lemma mem_dirs {h : ObjectID} : h ∈ (tree entries).dirs ↔ ∃ e ∈ entries, e.mode = FileMode.dir ∧ e.hash = h := by
  simp [dirs, and_assoc]

lemma mem_refs_tree {h : ObjectID} :
    h ∈ (tree entries).refs ↔ ∃ e ∈ entries, e.mode ≠ FileMode.submodule ∧ e.hash = h := by
  simp [refs, and_assoc]

end Object

structure Store where
  object : ObjectID → Option Object
  names : List ObjectID
  mem_names : ∀ h, object h ≠ none → h ∈ names

namespace Store

variable (s : Store) {h k : ObjectID}
  {c : Commit} {o : Object}

def ofList (objects : List (ObjectID × Object)) : Store where
  object h := objects.lookup h
  names := objects.map Prod.fst
  mem_names := by
    intro h hh
    obtain ⟨o, ho⟩ := Option.ne_none_iff_exists'.mp hh
    obtain ⟨l₁, l₂, rfl, -⟩ := lookup_eq_some_iff.mp ho
    simp

lemma mem_of_ofList {objects : List (ObjectID × Object)}
    (ho : (ofList objects).object h = some o) : (h, o) ∈ objects := by
  obtain ⟨l₁, l₂, rfl, -⟩ := lookup_eq_some_iff.mp ho
  simp

/-- An object of another type than the one asked for is not found. -/
def encodedObject (t : ObjectType) (h : ObjectID) : Except ObjectError Object :=
  match s.object h with
  | none => .error .objectNotFound
  | some o => if t = .any ∨ o.type = t then .ok o else .error .objectNotFound

/-- The commit takes the name of the object it was decoded from. -/
def decodeCommit (h : ObjectID) : Object → Except ObjectError Commit
  | .commit c => .ok { c with hash := h }
  | .corrupt .commit => .error .malformed
  | _ => .error .unsupportedObject

def decodeTree (h : ObjectID) : Object → Except ObjectError Tree
  | .tree entries => .ok ⟨h, entries⟩
  | .corrupt .tree => .error .malformed
  | _ => .error .unsupportedObject

def getCommit (h : ObjectID) : Except ObjectError Commit :=
  s.encodedObject .commit h >>= decodeCommit h

def getTree (h : ObjectID) : Except ObjectError Tree := s.encodedObject .tree h >>= decodeTree h

/-- `DecodeObject`: a commit under its name, a tree under its name, or what else there is. -/
def decodeObject (o : Object) : Except ObjectError Object :=
  match o with
  | .corrupt t =>
    if t = .commit ∨ t = .tree ∨ t = .blob ∨ t = .tag then .error .malformed
    else .error .invalidType
  | o => .ok o

lemma getCommit_of_object (hc : s.object h = some (.commit c)) : s.getCommit h = .ok { c with hash := h } := by
  simp [getCommit, encodedObject, hc, Object.type, decodeCommit]

lemma getTree_of_object (ht : s.object h = some (.tree entries)) : s.getTree h = .ok ⟨h, entries⟩ := by
  simp [getTree, encodedObject, ht, Object.type, decodeTree]

def Refers (h k : ObjectID) : Prop := ∃ o, s.object h = some o ∧ k ∈ o.refs

abbrev Reach : ObjectID → ObjectID → Prop := Relation.ReflTransGen s.Refers

def IsCommit (h : ObjectID) : Prop := ∃ c, s.object h = some (.commit c)

def IsTree (h : ObjectID) : Prop := ∃ entries, s.object h = some (.tree entries)

lemma getCommit_of_isCommit (hc : s.IsCommit h) : ∃ c, s.getCommit h = .ok c ∧ c.hash = h := by
  obtain ⟨c, hc⟩ := hc
  exact ⟨_, s.getCommit_of_object hc, rfl⟩

def WellTyped : Object → Prop
  | .commit c => s.IsTree c.treeHash ∧ ∀ p ∈ c.parentHashes, s.IsCommit p
  | .tree entries =>
    (∀ e ∈ entries, e.mode = FileMode.dir → s.IsTree e.hash) ∧
      ∀ e ∈ entries, e.mode ≠ FileMode.dir → e.mode ≠ FileMode.submodule →
        s.object e.hash = some .blob
  | .blob | .tag _ => True
  | .corrupt _ => False

def Sound (h : ObjectID) : Prop := ∃ o, s.object h = some o ∧ s.WellTyped o

instance : Decidable (s.IsCommit h) :=
  match ho : s.object h with
  | some (.commit c) => isTrue ⟨c, ho⟩
  | none | some (.tree _) | some .blob | some (.tag _) | some (.corrupt _) =>
    isFalse fun ⟨_, hc⟩ => by simp [ho] at hc

instance : Decidable (s.IsTree h) :=
  match ho : s.object h with
  | some (.tree entries) => isTrue ⟨entries, ho⟩
  | none | some (.commit _) | some .blob | some (.tag _) | some (.corrupt _) =>
    isFalse fun ⟨_, ht⟩ => by simp [ho] at ht

instance : DecidablePred s.WellTyped
  | .commit _ | .tree _ => inferInstanceAs (Decidable (_ ∧ _))
  | .blob | .tag _ => .isTrue trivial
  | .corrupt _ => .isFalse id

/-- Every object is of the right type, and so are those that it names, which are all there. -/
def Closed : Prop := ∀ h ∈ s.names, ∃ o ∈ s.object h, s.WellTyped o ∧ ∀ k ∈ o.refs, k ∈ s.names

instance : Decidable s.Closed := inferInstanceAs (Decidable (∀ h ∈ s.names, ∃ o ∈ s.object h, _))

variable {s}

lemma Closed.mem_of_reach (hs : s.Closed) (hh : h ∈ s.names) (hr : s.Reach h k) : k ∈ s.names := by
  induction hr with
  | refl => exact hh
  | tail _ hrefers ih =>
    obtain ⟨o, ho, hk⟩ := hrefers
    obtain ⟨o', ho', -, hrefs⟩ := hs _ ih
    cases ho.symm.trans ho'
    exact hrefs _ hk

lemma Closed.sound (hs : s.Closed) (hh : h ∈ s.names) : s.Sound h := by
  obtain ⟨o, ho, htyped, -⟩ := hs h hh
  exact ⟨o, ho, htyped⟩

lemma Sound.wellTyped (hs : s.Sound h) (ho : s.object h = some o) : s.WellTyped o := by
  obtain ⟨o', ho', htyped⟩ := hs
  cases ho.symm.trans ho'
  exact htyped

lemma encodedObject_eq_ok_iff {t : ObjectType} :
    s.encodedObject t h = .ok o ↔ s.object h = some o ∧ (t = .any ∨ o.type = t) := by
  unfold encodedObject
  cases hobject : s.object h with
  | none => simp
  | some o' =>
    by_cases ht : t = .any ∨ o'.type = t
    · simp only [if_pos ht, Except.ok.injEq, Option.some.injEq]
      exact ⟨fun heq => ⟨heq, heq ▸ ht⟩, fun heq => heq.1⟩
    · simp only [if_neg ht, reduceCtorEq, Option.some.injEq, false_iff]
      rintro ⟨rfl, h⟩
      exact ht h

lemma object_of_getCommit (hc : s.getCommit h = .ok c) :
    ∃ c₀, s.object h = some (.commit c₀) ∧ c = { c₀ with hash := h } := by
  obtain ⟨o, ho, hdecode⟩ := bind_eq_ok_iff.mp hc
  have hobject := (encodedObject_eq_ok_iff.mp ho).1
  cases o with
  | commit c₀ => exact ⟨c₀, hobject, (Except.ok.inj hdecode).symm⟩
  | tree | blob | tag => cases hdecode
  | corrupt t => cases t <;> cases hdecode

lemma Sound.of_getCommit (hs : s.Sound h) (hc : s.getCommit h = .ok c) :
    (∀ k, s.Refers h k ↔ k = c.treeHash ∨ k ∈ c.parentHashes) ∧ s.IsTree c.treeHash ∧
      ∀ p ∈ c.parentHashes, s.IsCommit p := by
  obtain ⟨c₀, ho, rfl⟩ := object_of_getCommit hc
  have hnames := hs.wellTyped ho
  refine ⟨fun k => ?_, hnames⟩
  simp [Refers, ho, Object.refs]

variable (s)

def Parent (h p : ObjectID) : Prop := ∃ c, s.object h = some (.commit c) ∧ p ∈ c.parentHashes

abbrev Ancestor : ObjectID → ObjectID → Prop := Relation.ReflTransGen s.Parent

def Acyclic : Prop := ∀ a b, s.Ancestor a b → s.Ancestor b a → a = b

lemma parent_iff {p : ObjectID} (hc : s.getCommit h = .ok c) : s.Parent h p ↔ p ∈ c.parentHashes := by
  obtain ⟨c₀, ho, rfl⟩ := object_of_getCommit hc
  simp [Parent, ho]

lemma acyclic_of_rank (rank : ObjectID → ℕ) (hrank : ∀ a p, s.Parent a p → rank p < rank a) : s.Acyclic := by
  have hle : ∀ a b, s.Ancestor a b → a = b ∨ rank b < rank a := by
    intro a b hab
    induction hab with
    | refl => exact .inl rfl
    | tail _ hp ih =>
      have hlt := hrank _ _ hp
      rcases ih with rfl | ih
      · exact .inr hlt
      · exact .inr (hlt.trans ih)
  intro a b hab hba
  rcases hle a b hab with h | h
  · exact h
  · rcases hle b a hba with h' | h'
    · exact h'.symm
    · omega

lemma history_of_closed {names : List ObjectID} (hcommit : ∀ h ∈ names, s.IsCommit h)
    (hparent : ∀ h ∈ names, ∀ p, s.Parent h p → p ∈ names) {a b : ObjectID} (ha : a ∈ names)
    (hab : s.Ancestor a b) : s.IsCommit b := by
  have hmem : b ∈ names := by
    induction hab with
    | refl => exact ha
    | tail _ hp ih => exact hparent _ ih _ hp
  exact hcommit b hmem

def ofCommits (commits : List Commit) : Store := ofList (commits.map fun c => (c.hash, .commit c))

lemma parent_ofCommits {commits : List Commit} {p : ObjectID} (hp : (ofCommits commits).Parent h p) :
    ∃ c ∈ commits, c.hash = h ∧ p ∈ c.parentHashes := by
  obtain ⟨c, hc, hp⟩ := hp
  obtain ⟨c', hc', heq⟩ := mem_map.mp (mem_of_ofList hc)
  cases heq
  exact ⟨c, hc', rfl, hp⟩

def unseen (seen : List ObjectID) : ℕ := Search.weight (fun _ => 1) s.names seen

lemma unseen_cons_lt {seen : List ObjectID} (ho : s.object h ≠ none) (hs : h ∉ seen) :
    s.unseen (h :: seen) < s.unseen seen :=
  Search.weight_cons_add_le (f := fun _ => 1) (s.mem_names h ho) hs

lemma unseen_le (seen : List ObjectID) : s.unseen seen ≤ s.unseen [] :=
  Search.weight_anti fun _ hb => absurd hb not_mem_nil

inductive Nested (root : ObjectID) : ℕ → ObjectID → Prop
  | root : Nested root 0 root
  | child {n : ℕ} {t : ObjectID} {entries : List TreeEntry} {e : TreeEntry}
      (parent : Nested root n t) (object : s.object t = some (.tree entries)) (mem : e ∈ entries)
      (dir : e.mode = FileMode.dir) : Nested root (n + 1) e.hash

end Store

end GoGit
