import GoGit.ByteStream

namespace GoGit

abbrev Bytes := List UInt8

instance Bytes.lawfulBEq : LawfulBEq Bytes := inferInstance

inductive PackError
  | invalidDelta
  | deltaCmd
  | emptyPackfile
  | badSignature
  | malformedPackfile
  | unsupportedVersion
  | seekNotSupported
  | referenceDeltaNotFound
  | objectNotFound
  | eof
  | unexpectedEOF
  | zlib
  | other (reason : String)
  | wrap (context : String) (cause : PackError)
  | detail (cause : PackError) (text : String)
  deriving DecidableEq, Repr

namespace PackError

def text : PackError → String
  | invalidDelta => "invalid delta"
  | deltaCmd => "wrong delta command"
  | emptyPackfile => "empty packfile"
  | badSignature => "malformed pack file signature"
  | malformedPackfile => "malformed pack file"
  | unsupportedVersion => "unsupported packfile version"
  | seekNotSupported => "not seek support"
  | referenceDeltaNotFound => "reference delta not found"
  | objectNotFound => "object not found"
  | eof => "EOF"
  | unexpectedEOF => "unexpected EOF"
  | zlib => "zlib: invalid header"
  | other reason => reason
  | wrap context cause => context ++ ": " ++ cause.text
  | detail cause text => cause.text ++ ": " ++ text

end PackError

section Except

variable {ε α β : Type} {x : Except ε α} (f : α → Except ε β)

@[simp] lemma ok_bind (a : α) : (Except.ok a >>= f) = f a := rfl

@[simp] lemma error_bind (e : ε) : (Except.error e >>= f) = .error e := rfl

@[simp] lemma pure_ok (a : α) : (pure a : Except ε α) = .ok a := rfl

@[simp] lemma bind_ok : (x >>= Except.ok) = x := by cases x <;> rfl

variable {f}

lemma bind_eq_ok_iff {b : β} : (x >>= f) = .ok b ↔ ∃ a, x = .ok a ∧ f a = .ok b := by
  cases x with
  | error e => simp
  | ok a => simp

lemma bind_eq_error_iff {e : ε} : (x >>= f) = .error e ↔ x = .error e ∨ ∃ a, x = .ok a ∧ f a = .error e := by
  cases x with
  | error e => simp
  | ok a => simp

lemma map_eq_ok_iff {g : α → β} {b : β} : x.map g = .ok b ↔ ∃ a, x = .ok a ∧ g a = b := by
  cases x <;> simp [Except.map]

lemma map_eq_error_iff {g : α → β} {e : ε} : x.map g = .error e ↔ x = .error e := by cases x <;> simp [Except.map]

lemma exists_ok {P : α → Prop} [DecidablePred P] (h : x.toOption.any P) : ∃ a, x = .ok a ∧ P a := by
  cases x with
  | error e => cases h
  | ok a => exact ⟨a, rfl, by simpa [Except.toOption] using h⟩

end Except

lemma mapM_ok {α β ε : Type} {f : α → Except ε β} {g : α → β} {l : List α}
    (h : ∀ a ∈ l, f a = .ok (g a)) : l.mapM f = .ok (l.map g) := by
  induction l with
  | nil => rfl
  | cons a l ih =>
    rw [List.mapM_cons, h a List.mem_cons_self, ih fun b hb => h b (List.mem_cons_of_mem _ hb)]
    rfl

end GoGit

namespace GoGit

open ByteStream

inductive IoError
  | eof
  | unexpectedEOF
  deriving DecidableEq, Repr

namespace Stream

/-- `io.ReadFull` of `n` bytes, with the bytes behind them. -/
def readFull (s : Bytes) (n : ℕ) : Except IoError (Bytes × Bytes) :=
  match split n s with
  | some r => .ok r
  | none => .error (if s = [] then .eof else .unexpectedEOF)

def readUint16 (s : Bytes) : Except IoError (UInt16 × Bytes) :=
  (readFull s 2).map fun r => (UInt16.ofNat (value r.1), r.2)

def readUint32 (s : Bytes) : Except IoError (UInt32 × Bytes) :=
  (readFull s 4).map fun r => (UInt32.ofNat (value r.1), r.2)

/-- `ReadUntil`: the bytes before the delimiter and those behind it. -/
def readUntil (delim : UInt8) : Bytes → Except IoError (Bytes × Bytes)
  | [] => .error .eof
  | b :: s => if b = delim then .ok ([], s) else (readUntil delim s).map fun r => (b :: r.1, r.2)

@[simp] lemma readFull_append {b : Bytes} {n : ℕ} (h : b.length = n) (rest : Bytes) :
    readFull (b ++ rest) n = .ok (b, rest) := by
  rw [readFull, split_append h]

@[simp] lemma readUint16_digits (x : UInt16) (rest : Bytes) :
    readUint16 (digits 2 x.toNat ++ rest) = .ok (x, rest) := by
  simp [readUint16, Except.map]

@[simp] lemma readUint32_digits (x : UInt32) (rest : Bytes) :
    readUint32 (digits 4 x.toNat ++ rest) = .ok (x, rest) := by
  simp [readUint32, Except.map]

lemma readUntil_append {delim : UInt8} {b : Bytes} (h : delim ∉ b) (rest : Bytes) :
    readUntil delim (b ++ delim :: rest) = .ok (b, rest) := by
  induction b with
  | nil => simp [readUntil]
  | cons x b ih =>
    rw [List.mem_cons, not_or] at h
    rw [List.cons_append, readUntil, if_neg (Ne.symm h.1), ih h.2]
    rfl

end Stream

end GoGit
