import GoGit.ObjectToPack

namespace GoGit.Pack

open List

open Delta (deltaEncodeSizeLoop)

def uint32Bytes (n : ℕ) : Bytes :=
  [n / 2 ^ 24, n / 2 ^ 16, n / 2 ^ 8, n].map UInt8.ofNat

lemma bigEndian_uint32Bytes {n : ℕ} (hn : n < 2 ^ 32) : bigEndian (uint32Bytes n) = n := by
  simp only [uint32Bytes, map_cons, map_nil, bigEndian, foldl_cons, foldl_nil, UInt8.toNat_ofNat']
  omega

/-- `head`; the number of entries is cut to 32 bits. -/
def head (numEntries : ℕ) : Bytes :=
  [0x50, 0x41, 0x43, 0x4b] ++ uint32Bytes 2 ++ uint32Bytes numEntries

/-- `entryHead`: type and the low four bits of the size, then seven bits a byte, in the same
loop as the sizes of a delta. Sizes are not negative. -/
def entryHead (typeNum : ObjectType) (size : ℕ) : Bytes :=
  deltaEncodeSizeLoop [] ((typeNum.toInt.toNat <<< 4) ||| (size &&& 0x0f)) (size >>> 4)

/-- The loop of `WriteVariableWidthInt`, behind the last byte. -/
def variableWidthBytes (buf : Bytes) (n : ℕ) : Bytes :=
  if n = 0 then buf
  else variableWidthBytes (UInt8.ofNat (0x80 ||| ((n - 1) &&& 0x7f)) :: buf) ((n - 1) >>> 7)
termination_by n
decreasing_by
  rw [Nat.shiftRight_eq_div_pow]
  omega

def WriteVariableWidthInt (n : ℕ) : Bytes := variableWidthBytes [UInt8.ofNat (n &&& 0x7f)] (n >>> 7)

structure Encoder where
  written : Bytes
  objects : List ObjectToPack

section

variable {sha1 : Bytes → Bytes} (store : ObjectStorer sha1) (deflate : Bytes → Bytes)
  (useRefDeltas : Bool)

/-- `writeDeltaHeader`, with the base reference behind type and size. -/
def writeDeltaHeader (o base : ObjectToPack) : Outcome Bytes :=
  if useRefDeltas then do
    return entryHead .refDelta o.object.size.toNat ++ (← base.hash).bytes
  else
    let relativeOffset := (o.offset : ℤ) - base.offset
    if relativeOffset ≤ 0 then
      .fail (.other ("bad offset for OFS_DELTA entry: " ++ toString relativeOffset))
    else .ok (entryHead .ofsDelta o.object.size.toNat ++ WriteVariableWidthInt relativeOffset.toNat)

def entryHeader (objects : List ObjectToPack) (o : ObjectToPack) : Outcome Bytes :=
  match o.base with
  | some b => do writeDeltaHeader useRefDeltas o (← sliceAt objects b)
  | none =>
    match o.type objects objects.length with
    | none => .panic
    | some t => do return entryHead t (← o.size).toNat

/-- A second visit on the way to a base means a cycle: the object is written whole. The error
of `restoreOriginal` is dropped. -/
def breakCycle (o : ObjectToPack) : Outcome ObjectToPack :=
  if o.wantWrite then
    match restoreOriginal store o with
    | .ok o => .ok o.backToOriginal
    | .fail _ => .ok o.backToOriginal
    | .panic => .panic
  else .ok o

/-- The second half of `entry`: the object itself, unless a cycle has written it already. -/
def writeEntry (k : ℕ) (e : Encoder) : Outcome Encoder := do
  let o ← sliceAt e.objects k
  if o.isWritten then return e
  let o := { o with offset := e.written.length }
  let objects := e.objects.set k o
  let header ← entryHeader useRefDeltas objects o
  return ⟨e.written ++ header ++ deflate o.object.content, objects⟩

/-- `entry` for the object at position `k`; the depth of the recursion is bounded by `fuel`. -/
def entry : ℕ → ℕ → Encoder → Outcome Encoder
  | 0, _, _ => .panic
  | fuel + 1, k, e => do
    let o ← breakCycle store (← sliceAt e.objects k)
    let objects := e.objects.set k o
    if o.isWritten then return { e with objects := objects }
    let e := { e with objects := objects.set k o.markWantWrite }
    match o.base with
    | none => writeEntry deflate useRefDeltas k e
    | some b =>
      if (← sliceAt e.objects b).isWritten then writeEntry deflate useRefDeltas k e
      else do writeEntry deflate useRefDeltas k (← entry fuel b e)

structure Encoded where
  pack : Bytes
  checksum : ObjectID
  objects : List ObjectToPack

def encode (objects : List ObjectToPack) : Outcome Encoded := do
  let e ← (List.range objects.length).foldlM
    (fun e k => entry store deflate useRefDeltas (objects.length + 1) k e)
    ⟨head objects.length, objects⟩
  let checksum := hasherSum sha1 e.written
  return ⟨e.written ++ checksum.bytes, checksum, e.objects⟩

end

lemma deltaEncodeSizeLoop_ne_nil (ret : Bytes) (c size : ℕ) : deltaEncodeSizeLoop ret c size ≠ [] := by
  induction size using Nat.strongRecOn generalizing ret c with
  | ind size ih =>
    rw [deltaEncodeSizeLoop]
    split_ifs with hz
    · simp
    · refine ih _ ?_ _ _
      rw [Nat.shiftRight_eq_div_pow]
      omega

lemma set_of_getElem? {α : Type} {xs : List α} {i : ℕ} {x : α} (h : xs[i]? = some x) : xs.set i x = xs := by
  obtain ⟨hi, rfl⟩ := List.getElem?_eq_some_iff.mp h
  exact set_getElem_self hi

section Prefix

variable {sha1 : Bytes → Bytes} {store : ObjectStorer sha1} {deflate : Bytes → Bytes}
  {useRefDeltas : Bool}

variable {e e' : Encoder}

lemma writeEntry_isPrefix {k : ℕ} (h : writeEntry deflate useRefDeltas k e = .ok e') : e.written <+: e'.written := by
  obtain ⟨o, _, h⟩ := Outcome.bind_eq_ok h
  split_ifs at h
  · simp only [Outcome.pure_eq, Outcome.ok.injEq] at h
    exact h ▸ prefix_rfl
  · obtain ⟨header, _, h⟩ := Outcome.bind_eq_ok h
    simp only [Outcome.pure_eq, Outcome.ok.injEq] at h
    rw [← h, append_assoc]
    exact prefix_append _ _

lemma entry_isPrefix {fuel k : ℕ}
    (h : entry store deflate useRefDeltas fuel k e = .ok e') : e.written <+: e'.written := by
  induction fuel generalizing k e e' with
  | zero => cases h
  | succ fuel ih =>
    obtain ⟨o, _, h⟩ := Outcome.bind_eq_ok h
    obtain ⟨o', _, h⟩ := Outcome.bind_eq_ok h
    split_ifs at h
    · simp only [Outcome.pure_eq, Outcome.ok.injEq] at h
      exact h ▸ prefix_rfl
    · cases hb : o'.base with
      | none =>
        simp only [hb] at h
        have := writeEntry_isPrefix h
        exact this
      | some b =>
        simp only [hb] at h
        obtain ⟨base, _, h⟩ := Outcome.bind_eq_ok h
        split_ifs at h
        · have := writeEntry_isPrefix h
          exact this
        · obtain ⟨e₁, he₁, h⟩ := Outcome.bind_eq_ok h
          have := (ih he₁).trans (writeEntry_isPrefix h)
          exact this

lemma encode_head {os : List ObjectToPack} {r : Encoded}
    (h : encode store deflate useRefDeltas os = .ok r) : head os.length <+: r.pack := by
  obtain ⟨e, hfold, h⟩ := Outcome.bind_eq_ok h
  simp only [Outcome.pure_eq, Outcome.ok.injEq] at h
  have hrun : head os.length <+: e.written :=
    Outcome.foldlM_inv (P := fun e : Encoder => head os.length <+: e.written)
      (fun _ _ _ hpre hentry => hpre.trans (entry_isPrefix hentry)) prefix_rfl hfold
  rw [← h]
  exact hrun.trans (prefix_append _ _)

end Prefix

end GoGit.Pack
