import GoGit.DeltaDiff
import GoGit.PackParser

/-! An object to pack is written whole or as a delta of another one. Objects to pack refer to each other by pointer; a
pointer is a position in the list of objects. -/
namespace GoGit.Pack

instance : Monad Outcome where
  pure := .ok
  bind x f :=
    match x with
    | .ok a => f a
    | .fail e => .fail e
    | .panic => .panic

instance : LawfulMonad Outcome := LawfulMonad.mk' _
  (fun x => by cases x <;> rfl) (fun _ _ => rfl) (fun x _ _ => by cases x <;> rfl)

@[simp] lemma Outcome.pure_eq {α : Type} (a : α) : (pure a : Outcome α) = .ok a := rfl

@[simp] lemma Outcome.ok_bind {α β : Type} (a : α) (f : α → Outcome β) : (Outcome.ok a >>= f) = f a :=
  rfl

lemma Outcome.bind_eq_ok {α β : Type} {x : Outcome α} {f : α → Outcome β} {b : β}
    (h : (x >>= f) = .ok b) : ∃ a, x = .ok a ∧ f a = .ok b := by
  cases x with
  | ok a => exact ⟨a, rfl, h⟩
  | fail e => cases h
  | panic => cases h

lemma Outcome.foldlM_inv {σ α : Type} {P : σ → Prop} {f : σ → α → Outcome σ}
    (hstep : ∀ s x s', P s → f s x = .ok s' → P s') {l : List α} {s s' : σ} (hs : P s)
    (h : l.foldlM f s = .ok s') : P s' := by
  induction l generalizing s with
  | nil =>
    simp only [List.foldlM_nil, Outcome.pure_eq, Outcome.ok.injEq] at h
    exact h ▸ hs
  | cons x l ih =>
    obtain ⟨t, ht, h⟩ := Outcome.bind_eq_ok h
    exact ih (hstep s x t hs ht) h

structure DeltaObject where
  baseHash : ObjectID
  actualHash : ObjectID
  actualSize : ℤ
  deriving DecidableEq

structure EncodedObject where
  type : ObjectType
  content : Bytes
  hash : ObjectID
  delta : Option DeltaObject := none
  deriving DecidableEq

def EncodedObject.size (o : EncodedObject) : ℤ := int64 o.content.length

structure ObjectStorer (sha1 : Bytes → Bytes) where
  encodedObject : ObjectID → Option EncodedObject
  delta_eq : ∀ h o, encodedObject h = some o → o.delta = none
  type_mem : ∀ h o, encodedObject h = some o → o.type ∈ [ObjectType.commit, .tree, .blob, .tag]
  hash_eq : ∀ h o, encodedObject h = some o → o.hash = h
  name_eq : ∀ h o, encodedObject h = some o → ComputeHash sha1 o.type o.content = h
  length_lt : ∀ h o, encodedObject h = some o → o.content.length < 2 ^ 63

structure ObjectToPack where
  object : EncodedObject
  base : Option ℕ := none
  original : Option EncodedObject
  depth : ℤ := 0
  offset : ℕ := 0
  resolvedOriginal : Bool := false
  originalType : ObjectType := .invalid
  originalSize : ℤ := 0
  originalHash : ObjectID := .zeroHash

namespace ObjectToPack

variable (o : ObjectToPack)

def isDelta : Bool := o.base.isSome

def backToOriginal : ObjectToPack :=
  match o.isDelta, o.original with
  | true, some original => { o with object := original, base := none, depth := 0 }
  | _, _ => o

def isWritten : Bool := 1 < o.offset

def markWantWrite : ObjectToPack := { o with offset := 1 }

def wantWrite : Bool := o.offset = 1

def saveOriginalMetadata : ObjectToPack :=
  match o.original with
  | none => o
  | some original =>
    { o with
      originalSize := original.size, originalType := original.type, originalHash := original.hash
      resolvedOriginal := true }

def setOriginal (obj : EncodedObject) : ObjectToPack :=
  saveOriginalMetadata { o with original := some obj }

/-- `Type`, with the answer of the base where the object has no other. -/
def typeVia (baseType : ℕ → Option ObjectType) : Option ObjectType :=
  match o.original with
  | some original => some original.type
  | none =>
    if o.resolvedOriginal then some o.originalType
    else match o.base with
      | some b => baseType b
      | none => some o.object.type

def type (objects : List ObjectToPack) : ℕ → ObjectToPack → Option ObjectType
  | 0, o => o.typeVia fun _ => none
  | fuel + 1, o => o.typeVia fun b => (objects[b]?).bind (type objects fuel)

def hash : Outcome ObjectID :=
  match o.original with
  | some original => .ok original.hash
  | none =>
    if o.resolvedOriginal then .ok o.originalHash
    else o.object.delta.elim .panic fun d => .ok d.actualHash

def size : Outcome ℤ :=
  match o.original with
  | some original => .ok original.size
  | none =>
    if o.resolvedOriginal then .ok o.originalSize
    else o.object.delta.elim .panic fun d => .ok d.actualSize

end ObjectToPack

def sliceAt {α : Type} (xs : List α) (i : ℤ) : Outcome α :=
  if i < 0 then .panic
  else match xs[i.toNat]? with
    | none => .panic
    | some x => .ok x

lemma sliceAt_natCast {α : Type} {xs : List α} {i : ℕ} {x : α} (h : xs[i]? = some x) : sliceAt xs (i : ℤ) = .ok x := by
  simp [sliceAt, h]

section Restore

variable {sha1 : Bytes → Bytes} (store : ObjectStorer sha1)

def restoreOriginal (otp : ObjectToPack) : Outcome ObjectToPack :=
  if otp.original.isSome ∨ otp.object.type.isDelta = false then .ok otp
  else do
    match store.encodedObject (← otp.hash) with
    | none => .fail .objectNotFound
    | some obj => return otp.setOriginal obj

end Restore

end GoGit.Pack
