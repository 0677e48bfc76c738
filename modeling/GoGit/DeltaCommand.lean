import GoGit.DeltaFormat

namespace GoGit.Delta

open List

inductive Command
  | copy (offset size : ℕ)
  | insert (data : Bytes)
  deriving DecidableEq, Repr

inductive Fault
  | noCommand
  | zeroCommand
  | shortCopy
  | shortInsert (size : ℕ) (present : Bytes)
  deriving DecidableEq, Repr

/-- Operands of a copy command, whatever error a missing byte is reported with. -/
def readCopy (cmd : UInt8) (delta : Bytes) : Option (Command × Bytes) := do
  let (offset, delta) ← (decodeOffset cmd delta).toOption
  let (sz, delta) ← (decodeSize cmd delta).toOption
  return (.copy offset sz, delta)

def readCommand : Bytes → Except Fault (Command × Bytes)
  | [] => .error .noCommand
  | cmd :: delta =>
    if isCopyFromSrc cmd then
      match readCopy cmd delta with
      | none => .error .shortCopy
      | some p => .ok p
    else if isCopyFromDelta cmd then
      if delta.length < cmd.toNat then .error (.shortInsert cmd.toNat delta)
      else .ok (.insert (delta.take cmd.toNat), delta.drop cmd.toNat)
    else .error .zeroCommand

variable {c : Command} {targetSz : ℕ} {src : Bytes}

namespace Command

def size : Command → ℕ
  | copy _ sz => sz
  | insert data => data.length

/-- A copy lies inside the source, and no command is larger than the whole target. -/
def InRange (srcSz targetSz : ℕ) : Command → Prop
  | copy offset sz => sz ≤ targetSz ∧ offset + sz ≤ srcSz
  | insert data => data.length ≤ targetSz

instance (srcSz targetSz : ℕ) : DecidablePred (InRange srcSz targetSz)
  | copy offset sz => inferInstanceAs (Decidable (sz ≤ targetSz ∧ offset + sz ≤ srcSz))
  | insert data => inferInstanceAs (Decidable (data.length ≤ targetSz))

def output (src : Bytes) : Command → Bytes
  | copy offset sz => (src.drop offset).take sz
  | insert data => data

lemma output_length (h : c.InRange src.length targetSz) : (c.output src).length = c.size := by
  cases c with
  | copy offset sz =>
    simp only [InRange] at h
    simp only [output, size, length_take, length_drop]
    omega
  | insert data => rfl

end Command

inductive Reads : Bytes → List Command → Bytes → Prop
  | nil (delta) : Reads delta [] delta
  | cons {delta tail rest : Bytes} {c : Command} {cs : List Command}
      (head : readCommand delta = .ok (c, tail)) (more : Reads tail cs rest) :
      Reads delta (c :: cs) rest

def outputs (src : Bytes) (cs : List Command) : Bytes := cs.flatMap (Command.output src)

def sizesSum (cs : List Command) : ℕ := (cs.map Command.size).sum

lemma outputs_length {cs : List Command} (h : ∀ c ∈ cs, c.InRange src.length targetSz) :
    (outputs src cs).length = sizesSum cs := by
  induction cs with
  | nil => rfl
  | cons c cs ih =>
    have hc := Command.output_length (h c (by simp))
    have ht := ih fun d hd => h d (by simp [hd])
    simp only [outputs, sizesSum] at ht
    simp [outputs, sizesSum, hc, ht]

lemma Reads.prefix_or {delta : Bytes} {cs ds : List Command} {r s : Bytes}
    (h : Reads delta cs r) (g : Reads delta ds s) : cs <+: ds ∨ ds <+: cs := by
  induction h generalizing ds s with
  | nil => exact .inl nil_prefix
  | cons head _ ih =>
    cases g with
    | nil => exact .inr nil_prefix
    | cons head' more' =>
      rw [head] at head'
      simp only [Except.ok.injEq, Prod.mk.injEq] at head'
      obtain ⟨rfl, rfl⟩ := head'
      rcases ih more' with hp | hp
      · exact .inl ((prefix_cons_inj _).mpr hp)
      · exact .inr ((prefix_cons_inj _).mpr hp)

variable {delta rest : Bytes}

lemma defaultSize_bounds {n : ℕ} (h : n < 2 ^ 24) : 0 < defaultSize n ∧ defaultSize n < 2 ^ 24 := by
  unfold defaultSize maxCopySize
  split <;> omega

lemma invalid_eq {offset sz : ℕ} (ho : offset < 2 ^ 32) (hs : sz < 2 ^ 24) (srcSz targetSz : ℕ) :
    (invalidSize sz targetSz || invalidOffsetSize offset sz srcSz) =
      !decide ((Command.copy offset sz).InRange srcSz targetSz) := by
  have hsum : uint (offset + sz) = offset + sz := uint_of_lt (by omega)
  have hvalid : (invalidSize sz targetSz || invalidOffsetSize offset sz srcSz) = false ↔
      (Command.copy offset sz).InRange srcSz targetSz := by
    simp only [invalidSize, invalidOffsetSize, sumOverflows, hsum, Bool.or_eq_false_iff, decide_eq_false_iff_not,
      Command.InRange]
    omega
  simp only [← hvalid]
  cases invalidSize sz targetSz || invalidOffsetSize offset sz srcSz <;> rfl

/-- The operands are those of `readCopy`, whatever error a missing byte is reported with. -/
lemma readCopy_cases (cmd : UInt8) (delta : Bytes) :
    (∃ offset mid sz rest, readCopy cmd delta = some (.copy offset sz, rest) ∧
      (∀ e, decodeOperand e cmd offsets 0 delta = .ok (offset, mid)) ∧
      (∀ e, (decodeOperand e cmd sizes 0 mid).map (fun p => (defaultSize p.1, p.2)) = .ok (sz, rest)) ∧
      offset < 2 ^ 32 ∧ (0 < sz ∧ sz < 2 ^ 24) ∧ rest.length ≤ delta.length) ∨
    readCopy cmd delta = none ∧ ∀ e, decodeOperand e cmd offsets 0 delta = .error e ∨
      ∃ offset mid, decodeOperand e cmd offsets 0 delta = .ok (offset, mid) ∧
        decodeOperand e cmd sizes 0 mid = .error e := by
  have hsame := fun e table delta => decodeOperand_missing e .invalidDelta cmd table 0 delta
  rw [readCopy, decodeOffset]
  cases ho : decodeOperand .invalidDelta cmd offsets 0 delta with
  | error f => exact .inr ⟨rfl, fun e => .inl (by rw [hsame, ho]; rfl)⟩
  | ok p =>
    obtain ⟨offset, mid⟩ := p
    have hoffset : ∀ e, decodeOperand e cmd offsets 0 delta = .ok (offset, mid) := fun e => by rw [hsame, ho]; rfl
    cases hs : decodeOperand .invalidDelta cmd sizes 0 mid with
    | error f =>
      refine .inr ⟨?_, fun e => .inr ⟨offset, mid, hoffset e, by rw [hsame, hs]; rfl⟩⟩
      simp [decodeSize, hs, Except.toOption, Except.map]
    | ok q =>
      have hlt : q.1 < 2 ^ 24 := decodeOperand_lt hs (by norm_num) (by decide)
      refine .inl ⟨offset, mid, defaultSize q.1, q.2, ?_, hoffset, fun e => by rw [hsame, hs]; rfl,
        decodeOperand_lt ho (by norm_num) (by decide), defaultSize_bounds hlt,
        (decodeOperand_length hs).trans (decodeOperand_length ho)⟩
      simp [decodeSize, hs, Except.toOption, Except.map]

lemma readCommand_bounds (h : readCommand delta = .ok (c, rest)) :
    0 < c.size ∧ c.size < 2 ^ 24 ∧ rest.length < delta.length := by
  cases delta with
  | nil => simp [readCommand] at h
  | cons cmd delta =>
    simp only [readCommand] at h
    split_ifs at h with hcopy hins hlen
    · rcases readCopy_cases cmd delta with ⟨offset, mid, sz, tail, hread, -, -, -, hsz, hlen⟩ | ⟨hread, -⟩
      · simp only [hread, Except.ok.injEq, Prod.mk.injEq] at h
        obtain ⟨rfl, rfl⟩ := h
        exact ⟨hsz.1, hsz.2, Nat.lt_succ_of_le hlen⟩
      · simp [hread] at h
    · simp only [Except.ok.injEq, Prod.mk.injEq] at h
      obtain ⟨rfl, rfl⟩ := h
      have hpos : 0 < cmd.toNat := by
        simp only [isCopyFromDelta, decide_eq_true_eq] at hins
        have hne : cmd.toNat ≠ 0 := fun he => hins.2 (UInt8.toNat_inj.mp (by simpa using he))
        omega
      have hlt := cmd.toNat_lt
      simp only [Command.size, length_take, length_drop, length_cons]
      omega

end GoGit.Delta
