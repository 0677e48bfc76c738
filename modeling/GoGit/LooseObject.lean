import GoGit.CommitPayload

/-! The object goes to a temporary file, which the writer gives its name when it is closed. The writer is closed on
every way out of the function. A file is given by its content before compression. -/
namespace GoGit.Loose

open List Function

inductive Panic
  | nilPointer
  deriving DecidableEq

inductive StoreError
  | invalidType
  | negativeSize
  | overflow
  | openReader
  | read
  | close
  deriving DecidableEq

structure Reader where
  chunks : List Bytes
  fails : Bool := false
  closeFails : Bool := false

def Reader.content (r : Reader) : Bytes := r.chunks.flatten

structure EncodedObject where
  type : ObjectType
  size : ℤ
  size_lt : size < 2 ^ 63
  hash : ObjectID
  reader : Option Reader

abbrev Store := Bytes → Option Bytes

structure Writer where
  zlib : Bytes := []
  hasher : Option Bytes := none
  pending : ℤ := 0

namespace Writer

def WriteHeader (w : Writer) (t : ObjectType) (size : ℤ) : Except StoreError Writer :=
  if ¬ t.valid then .error .invalidType
  else if size < 0 then .error .negativeSize
  else .ok ⟨w.zlib ++ (t.bytes ++ [32] ++ formatInt size ++ [0]), some (hasherReset t size), size⟩

def Write (w : Writer) (p : Bytes) : Writer × Option StoreError :=
  let overwrite : Bool := p.length > w.pending
  let p := if overwrite then p.take w.pending.toNat else p
  (⟨w.zlib ++ p, w.hasher.map (· ++ p), w.pending - p.length⟩, if overwrite then some .overflow else none)

variable (sha1 : Bytes → Bytes)

def Hash (w : Writer) : Except Panic ObjectID :=
  match w.hasher with
  | none => .error .nilPointer
  | some written => .ok (hasherSum sha1 written)

def save (w : Writer) (store : Store) : Except Panic Store := do
  let h ← w.Hash sha1
  .ok (update store h.string (some w.zlib))

end Writer

def copy (w : Writer) : List Bytes → Bool → Writer × Option StoreError
  | [], fails => (w, if fails then some .read else none)
  | p :: chunks, fails =>
    match w.Write p with
    | (w, some e) => (w, some e)
    | (w, none) => copy w chunks fails

section Set

variable (sha1 : Bytes → Bytes)

/-- Once there is a writer, its file is renamed on every way out. -/
def SetEncodedObject (store : Store) (o : EncodedObject) : Except Panic (Except StoreError ObjectID × Store) :=
  if o.type.isDelta then .ok (.error .invalidType, store)
  else
    match o.reader with
    | none => do .ok (.error .openReader, ← Writer.save sha1 {} store)
    | some r =>
      match Writer.WriteHeader {} o.type o.size with
      | .error e => do .ok (.error e, ← Writer.save sha1 {} store)
      | .ok w => do
        let (w, err) := copy w r.chunks r.fails
        let store ← w.save sha1 store
        match err <|> if r.closeFails then some .close else none with
        | some e => .ok (.error e, store)
        | none => .ok (.ok o.hash, store)

end Set

def ParseObjectType (value : Bytes) : Option ObjectType :=
  [.commit, .tree, .blob, .tag, .ofsDelta, .refDelta].find? fun t : ObjectType => t.bytes = value

def readObject (file : Bytes) : Option (ObjectType × ℤ × Bytes) := do
  let (type, file) ← (Stream.readUntil 0x20 file).toOption
  let t ← ParseObjectType type
  let (digits, content) ← (Stream.readUntil 0 file).toOption
  let size ← (IndexFormat.parseInt 10 digits).toOption
  some (t, size, content)

def Reader.Complete (r : Reader) (size : ℤ) : Prop :=
  r.content.length ≤ size ∧ r.fails = false ∧ r.closeFails = false

def written (o : EncodedObject) (r : Reader) : Bytes :=
  hasherReset o.type o.size ++ r.content.take o.size.toNat

/-- The file is a whole object of the type and size that are declared, with what the reader yields. -/
def Holds (o : EncodedObject) (r : Reader) (file : Option Bytes) : Prop :=
  r.content.length = o.size ∧ file.bind readObject = some (o.type, o.size, r.content)

section Atomic

variable (sha1 : Bytes → Bytes)

/-- No panic, and the whole object under the name that is returned or an error and nothing changed. -/
def Atomic (store : Store) (o : EncodedObject) : Prop :=
  ∃ result after, SetEncodedObject sha1 store o = .ok (result, after) ∧
    match result with
    | .ok h => ∃ r, o.reader = some r ∧ Holds o r (after h.string)
    | .error _ => after = store

/-- The reader opens, the header is accepted, and either the copy is complete and its name is the one the
object gives, or what is left in the file has been stored before. -/
def Storable (store : Store) (o : EncodedObject) : Prop :=
  ∃ r, o.reader = some r ∧ o.type.valid ∧ 0 ≤ o.size ∧
    let name := (hasherSum sha1 (written o r)).string
    (r.Complete o.size → r.content.length = o.size ∧
      (o.hash.string = name ∧ o.type ≠ .reserved ∨ o.hash.string ≠ name ∧ Holds o r (store o.hash.string))) ∧
    (¬ r.Complete o.size → store name = some (written o r))

end Atomic

variable {w : Writer} {p : Bytes}

lemma Write_of_le (h : p.length ≤ w.pending) :
    w.Write p = (⟨w.zlib ++ p, w.hasher.map (· ++ p), w.pending - p.length⟩, none) := by
  simp [Writer.Write, not_lt.mpr h]

lemma Write_of_lt (h : w.pending < p.length) :
    (w.Write p).1.zlib = w.zlib ++ p.take w.pending.toNat ∧
      (w.Write p).1.hasher = w.hasher.map (· ++ p.take w.pending.toNat) ∧ (w.Write p).2 = some .overflow := by
  simp [Writer.Write, h]

lemma copy_spec (chunks : List Bytes) (fails : Bool) (w : Writer) (hpending : 0 ≤ w.pending) :
    (copy w chunks fails).1.zlib = w.zlib ++ chunks.flatten.take w.pending.toNat ∧
      (copy w chunks fails).1.hasher = w.hasher.map (· ++ chunks.flatten.take w.pending.toNat) ∧
      ((copy w chunks fails).2 = none ↔ chunks.flatten.length ≤ w.pending ∧ fails = false) := by
  induction chunks generalizing w with
  | nil => cases fails <;> simp [copy, hpending]
  | cons p chunks ih =>
    rw [copy]
    by_cases hp : (p.length : ℤ) ≤ w.pending
    · rw [Write_of_le hp]
      have htake : (p :: chunks).flatten.take w.pending.toNat =
          p ++ chunks.flatten.take (w.pending - p.length).toNat := by
        rw [flatten_cons, take_append, take_of_length_le (by omega)]
        congr 2
        omega
      obtain ⟨hzlib, hhasher, hnone⟩ := ih ⟨w.zlib ++ p, w.hasher.map (· ++ p), w.pending - p.length⟩ (by simpa using hp)
      refine ⟨?_, ?_, ?_⟩
      · rw [hzlib, htake, append_assoc]
      · rw [hhasher, htake, Option.map_map]
        simp [comp_def]
      · rw [hnone, flatten_cons, length_append]
        push_cast
        constructor <;> rintro ⟨h, rfl⟩ <;> exact ⟨by omega, rfl⟩
    · obtain ⟨hzlib, hhasher, herr⟩ := Write_of_lt (not_le.mp hp)
      have htake : (p :: chunks).flatten.take w.pending.toNat = p.take w.pending.toNat := by
        rw [flatten_cons, take_append_of_le_length (by omega)]
      rcases hwrite : w.Write p with ⟨w', e⟩
      rw [hwrite] at hzlib hhasher herr
      simp only at hzlib hhasher herr
      subst herr
      rw [htake]
      refine ⟨hzlib, hhasher, ⟨nofun, ?_⟩⟩
      rintro ⟨hlen, -⟩
      rw [flatten_cons, length_append] at hlen
      omega

section Outcome

variable {sha1 : Bytes → Bytes} {store : Store} {o : EncodedObject} {r : Reader}

lemma SetEncodedObject_delta (h : o.type.isDelta = true) :
    SetEncodedObject sha1 store o = .ok (.error .invalidType, store) := by
  rw [SetEncodedObject, if_pos h]

lemma SetEncodedObject_panics (hdelta : ¬ o.type.isDelta = true)
    (h : o.reader = none ∨ ¬ (o.type.valid = true ∧ 0 ≤ o.size)) :
    SetEncodedObject sha1 store o = .error .nilPointer := by
  rw [SetEncodedObject, if_neg hdelta]
  cases hreader : o.reader with
  | none => rfl
  | some r =>
    rw [hreader] at h
    have hheader : ∃ e, Writer.WriteHeader {} o.type o.size = .error e := by
      rw [Writer.WriteHeader]
      by_cases hvalid : o.type.valid = true
      · rw [if_neg (not_not.mpr hvalid), if_pos (by simpa [hvalid] using h)]
        exact ⟨_, rfl⟩
      · rw [if_pos hvalid]
        exact ⟨_, rfl⟩
    obtain ⟨e, he⟩ := hheader
    simp only [he]
    rfl

lemma SetEncodedObject_stores (hdelta : ¬ o.type.isDelta = true) (hreader : o.reader = some r)
    (hvalid : o.type.valid = true) (hsize : 0 ≤ o.size) : ∃ result, SetEncodedObject sha1 store o =
        .ok (result, update store (hasherSum sha1 (written o r)).string (some (written o r))) ∧
      (r.Complete o.size → result = .ok o.hash) ∧ (¬ r.Complete o.size → ∃ e, result = .error e) := by
  have hheader : Writer.WriteHeader {} o.type o.size =
      .ok ⟨hasherReset o.type o.size, some (hasherReset o.type o.size), o.size⟩ := by
    rw [Writer.WriteHeader, if_neg (not_not.mpr hvalid), if_neg (not_lt.mpr hsize)]
    rfl
  obtain ⟨hzlib, hhasher, hnone⟩ := copy_spec r.chunks r.fails
    ⟨hasherReset o.type o.size, some (hasherReset o.type o.size), o.size⟩ hsize
  rcases hcopy : copy ⟨hasherReset o.type o.size, some (hasherReset o.type o.size), o.size⟩ r.chunks r.fails with ⟨w, err⟩
  rw [hcopy] at hzlib hhasher hnone
  have hsave : w.save sha1 store =
      .ok (update store (hasherSum sha1 (written o r)).string (some (written o r))) := by
    rw [Writer.save, Writer.Hash, hhasher, hzlib]
    rfl
  have hcomplete : r.Complete o.size ↔ err = none ∧ r.closeFails = false := by
    rw [hnone, Reader.Complete, Reader.content, and_assoc]
  rw [SetEncodedObject, if_neg hdelta, hreader]
  simp only [hheader, hcopy, hsave, hcomplete]
  cases err with
  | some e => exact ⟨.error e, rfl, nofun, fun _ => ⟨e, rfl⟩⟩
  | none =>
    cases hclose : r.closeFails with
    | true => exact ⟨.error .close, rfl, nofun, fun _ => ⟨.close, rfl⟩⟩
    | false => exact ⟨.ok o.hash, rfl, fun _ => rfl, fun h => absurd ⟨rfl, rfl⟩ h⟩

lemma readObject_header {t : ObjectType} {size : ℤ} (hdelta : ¬ t.isDelta = true) (hvalid : t.valid = true)
    (hsize : 0 ≤ size) (hlt : size < 2 ^ 63) (content : Bytes) :
    readObject (hasherReset t size ++ content) = if t = .reserved then none else some (t, size, content) := by
  obtain ⟨n, rfl⟩ := Int.eq_ofNat_of_zero_le hsize
  have hspace : 0x20 ∉ t.bytes := by
    cases t <;> decide +kernel
  have hzero : (0 : UInt8) ∉ formatInt n := by
    intro h
    simpa using (Commit.Ident.digit_of_mem_formatInt h).1
  have htype : Stream.readUntil 0x20 (hasherReset t n ++ content) = .ok (t.bytes, formatInt n ++ 0 :: content) := by
    rw [hasherReset, append_assoc, append_assoc, append_assoc]
    exact Stream.readUntil_append hspace _
  have hparse : ∀ t : ObjectType, t.valid = true → ¬ t.isDelta = true →
      ParseObjectType t.bytes = if t = .reserved then none else some t := by
    intro t hvalid hdelta
    cases t with
    | commit | tree | blob | tag | reserved => decide +kernel
    | invalid | any => cases hvalid
    | ofsDelta | refDelta => exact absurd rfl hdelta
  have hnumber : IndexFormat.parseInt 10 (formatInt n) = .ok (n : ℤ) := by
    rw [Commit.Ident.parseInt_formatInt, if_pos (by exact_mod_cast hlt)]
  rw [readObject, htype]
  simp only [Except.toOption, Option.bind_eq_bind, Option.bind_some, hparse t hvalid hdelta]
  split_ifs with hreserved
  · rfl
  · simp only [Option.bind_some, Stream.readUntil_append hzero, hnumber]

section

variable (hdelta : ¬ o.type.isDelta = true)

include hdelta

lemma holds_update_iff (hvalid : o.type.valid = true) (hsize : 0 ≤ o.size) (hcomplete : r.Complete o.size) :
    Holds o r (update store (hasherSum sha1 (written o r)).string (some (written o r)) o.hash.string) ↔
      r.content.length = o.size ∧ (o.hash.string = (hasherSum sha1 (written o r)).string ∧ o.type ≠ .reserved ∨
          o.hash.string ≠ (hasherSum sha1 (written o r)).string ∧ Holds o r (store o.hash.string)) := by
  have hwritten : written o r = hasherReset o.type o.size ++ r.content := by
    have := hcomplete.1
    rw [written, take_of_length_le (by omega)]
  by_cases hname : o.hash.string = (hasherSum sha1 (written o r)).string
  · rw [hname, update_self, Holds, Option.bind_some, hwritten, readObject_header hdelta hvalid hsize o.size_lt]
    simp
  · rw [update_of_ne hname, Holds]
    simp only [hname, false_and, false_or, ne_eq, not_false_eq_true, true_and]
    exact ⟨fun h => ⟨h.1, h⟩, And.right⟩

lemma not_atomic_of_panic (h : o.reader = none ∨ ¬ (o.type.valid = true ∧ 0 ≤ o.size)) : ¬ Atomic sha1 store o := by
  rintro ⟨result, after, hset, -⟩
  exact nomatch hset.symm.trans (SetEncodedObject_panics hdelta h)

lemma atomic_of_complete (hreader : o.reader = some r)
    (hvalid : o.type.valid = true) (hsize : 0 ≤ o.size) (hcomplete : r.Complete o.size) :
    Atomic sha1 store o ↔ r.content.length = o.size ∧
      (o.hash.string = (hasherSum sha1 (written o r)).string ∧ o.type ≠ .reserved ∨
        o.hash.string ≠ (hasherSum sha1 (written o r)).string ∧ Holds o r (store o.hash.string)) := by
  obtain ⟨result, hset, hok, -⟩ := @SetEncodedObject_stores sha1 store o r hdelta hreader hvalid hsize
  rw [← holds_update_iff hdelta hvalid hsize hcomplete]
  constructor
  · rintro ⟨result', after, h, hholds⟩
    cases h.symm.trans hset
    rw [hok hcomplete] at hholds
    obtain ⟨r', hr', hholds⟩ := hholds
    cases hr'.symm.trans hreader
    exact hholds
  · intro hholds
    refine ⟨result, _, hset, ?_⟩
    rw [hok hcomplete]
    exact ⟨r, hreader, hholds⟩

lemma atomic_of_incomplete (hreader : o.reader = some r)
    (hvalid : o.type.valid = true) (hsize : 0 ≤ o.size) (hcomplete : ¬ r.Complete o.size) :
    Atomic sha1 store o ↔ store (hasherSum sha1 (written o r)).string = some (written o r) := by
  obtain ⟨result, hset, -, herr⟩ := @SetEncodedObject_stores sha1 store o r hdelta hreader hvalid hsize
  obtain ⟨e, he⟩ := herr hcomplete
  have hupdate : update store (hasherSum sha1 (written o r)).string (some (written o r)) = store ↔
      store (hasherSum sha1 (written o r)).string = some (written o r) :=
    update_eq_self_iff.trans eq_comm
  rw [← hupdate]
  constructor
  · rintro ⟨result', after, h, hsame⟩
    cases h.symm.trans hset
    rw [he] at hsame
    exact hsame
  · intro hsame
    refine ⟨result, _, hset, ?_⟩
    rw [he]
    exact hsame

end

/-- An object is stored as a whole or not at all exactly if it is a delta or nothing goes wrong before its
file gets a name. -/
theorem SetEncodedObject_atomic_iff (sha1 : Bytes → Bytes) (store : Store) (o : EncodedObject) :
    Atomic sha1 store o ↔ o.type.isDelta = true ∨ Storable sha1 store o := by
  by_cases hdelta : o.type.isDelta = true
  · exact iff_of_true ⟨_, _, SetEncodedObject_delta hdelta, rfl⟩ (.inl hdelta)
  rw [or_iff_right hdelta]
  by_cases hearly : o.reader = none ∨ ¬ (o.type.valid = true ∧ 0 ≤ o.size)
  · refine iff_of_false (not_atomic_of_panic hdelta hearly) ?_
    rintro ⟨r, hreader, hvalid, hsize, -⟩
    rcases hearly with hnone | hheader
    · exact nomatch hreader.symm.trans hnone
    · exact hheader ⟨hvalid, hsize⟩
  obtain ⟨hreader, hheader⟩ := not_or.mp hearly
  obtain ⟨hvalid, hsize⟩ := not_not.mp hheader
  obtain ⟨r, hr⟩ := Option.ne_none_iff_exists'.mp hreader
  simp only [Storable, hr, Option.some_inj, exists_eq_left', hvalid, hsize, true_and]
  by_cases hcomplete : r.Complete o.size
  · rw [atomic_of_complete hdelta hr hvalid hsize hcomplete, and_iff_left (fun h => absurd hcomplete h),
      forall_prop_of_true hcomplete]
  · rw [atomic_of_incomplete hdelta hr hvalid hsize hcomplete, and_iff_right (fun h => absurd h hcomplete),
      forall_prop_of_true hcomplete]

def declared (chunks : List Bytes) (fails : Bool) : EncodedObject where
  type := .blob
  size := 3
  size_lt := by norm_num
  hash := .zeroHash
  reader := some ⟨chunks, fails, false⟩

theorem SetEncodedObject_not_atomic :
    ¬ Atomic id (fun _ => none) { declared [] false with reader := none } ∧
    ¬ Atomic id (fun _ => none) { declared [[1, 2, 3]] false with type := .any } ∧
    ¬ Atomic id (fun _ => none) (declared [[1]] true) ∧
    ¬ Atomic id (fun _ => none) (declared [[1, 2, 3, 4]] false) ∧
    ¬ Atomic id (fun _ => none) (declared [[1, 2]] false) := by
  refine ⟨not_atomic_of_panic (by decide) (.inl rfl), not_atomic_of_panic (by decide) (.inr (by decide)), ?_, ?_, ?_⟩
  · rw [atomic_of_incomplete (by decide) rfl rfl (by decide) (fun h => absurd h.2.1 (by decide))]
    exact nofun
  · rw [atomic_of_incomplete (by decide) rfl rfl (by decide) (fun h => absurd h.1 (by decide))]
    exact nofun
  · rw [atomic_of_complete (by decide) rfl rfl (by decide) ⟨by decide, rfl, rfl⟩]
    exact fun h => absurd h.1 (by decide)

end Outcome

end GoGit.Loose
