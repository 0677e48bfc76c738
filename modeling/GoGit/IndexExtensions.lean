import GoGit.IndexDecode

/-! The records of the `TREE` and `REUC` extensions, as the format has them, and what the decoders make of them. -/
namespace GoGit.IndexFormat

open ByteStream List Function

lemma readHash_append {h : ObjectID} (hsha : h.IsSHA1) (rest : Bytes) : readHash (h.bytes ++ rest) = .ok (h, rest) := by
  rw [readHash, Stream.readFull_append (ObjectID.length_bytes hsha.1)]
  exact congrArg (fun h => Except.ok (h, rest)) hsha.write_bytes

variable {delim : UInt8} {b : Bytes}

lemma lift_readUntil (h : delim ∉ b) (rest : Bytes) :
    lift (Stream.readUntil delim (b ++ delim :: rest)) = .ok (b, rest) := by
  rw [Stream.readUntil_append h]
  rfl

lemma lift_readUntil_end (h : delim ∉ b) : lift (Stream.readUntil delim b) = .error (.io .eof) := by
  have hend : Stream.readUntil delim b = .error .eof := by
    induction b with
    | nil => rfl
    | cons x b ih =>
      rw [mem_cons, not_or] at h
      rw [Stream.readUntil, if_neg (Ne.symm h.1), ih h.2]
      rfl
  rw [hend]
  rfl

lemma length_le_flatMap {α : Type} {f : α → Bytes} (h : ∀ a, f a ≠ []) (l : List α) :
    l.length ≤ (l.flatMap f).length := by
  induction l with
  | nil => simp
  | cons a l ih =>
    have := length_pos_of_ne_nil (h a)
    rw [flatMap_cons, length_append, length_cons]
    omega

/-- A record of the `TREE` extension: `count` and `trees` are texts of numbers. -/
structure TreeRecord where
  path : Bytes
  count : Bytes
  entries : ℤ
  trees : Bytes
  subtrees : ℤ
  hash : ObjectID
  path_plain : 0 ∉ path
  count_plain : 0x20 ∉ count
  trees_plain : 0x0a ∉ trees ∧ 0 ∉ trees
  parse_count : parseInt 10 count = .ok entries
  parse_trees : parseInt 10 trees = .ok subtrees
  hash_sha1 : hash.IsSHA1

namespace TreeRecord

/-- An invalidated record has no hash. -/
def text (r : TreeRecord) : Bytes :=
  r.path ++ 0 :: (r.count ++ 0x20 :: (r.trees ++ 0x0a :: if r.entries = -1 then [] else r.hash.bytes))

def entry (r : TreeRecord) : Option TreeEntry :=
  if r.entries = -1 then none else some ⟨r.path, r.entries, r.subtrees, r.hash⟩

variable {p : Bytes} {rs : List TreeRecord}

lemma readTreeEntry_text (hp : 0 ∉ p) (r : TreeRecord) (s : Bytes) : readTreeEntry (p ++ (r.text ++ s)) =
    .ok (if r.entries = -1 then (none, r.trees ++ 0x0a :: s)
      else (some ⟨p ++ r.path, r.entries, r.subtrees, r.hash⟩, s)) := by
  have hpath : 0 ∉ p ++ r.path := by simp [hp, r.path_plain]
  simp only [text, append_assoc, cons_append]
  rw [← append_assoc, readTreeEntry]
  simp only [lift_readUntil hpath, lift_readUntil r.count_plain, r.parse_count, ok_bind]
  split_ifs with hvalid
  · simp
  · simp only [lift_readUntil r.trees_plain.1, r.parse_trees, readHash_append r.hash_sha1, ok_bind, pure_ok]

/-- What is decoded: the rest of an invalidated record is taken for the beginning of the next path. -/
def decoded : Bytes → List TreeRecord → List TreeEntry
  | _, [] => []
  | p, r :: rs =>
    if r.entries = -1 then decoded (r.trees ++ [0x0a]) rs
    else ⟨p ++ r.path, r.entries, r.subtrees, r.hash⟩ :: decoded [] rs

lemma readRecords_text (hp : 0 ∉ p) {fuel : ℕ} (hfuel : rs.length < fuel) :
    readRecords readTreeEntry fuel (p ++ rs.flatMap text) = .ok (decoded p rs) := by
  induction rs generalizing p fuel with
  | nil =>
    obtain ⟨fuel, rfl⟩ := Nat.exists_eq_add_one_of_ne_zero (Nat.ne_zero_of_lt hfuel)
    simp [readRecords, readTreeEntry, lift_readUntil_end hp, decoded]
  | cons r rs ih =>
    obtain ⟨fuel, rfl⟩ := Nat.exists_eq_add_one_of_ne_zero (Nat.ne_zero_of_lt hfuel)
    simp only [length_cons, Nat.add_lt_add_iff_right] at hfuel
    rw [readRecords, flatMap_cons, readTreeEntry_text hp, decoded]
    split_ifs
    · have hrest := ih (p := r.trees ++ [0x0a]) (by simp [r.trees_plain.2]) hfuel
      simp_all [Except.map]
    · have hrest := ih (p := []) (by simp) hfuel
      simp_all [Except.map]

lemma decoded_eq_iff : decoded p rs = rs.filterMap entry ↔
    (p = [] ∨ ∀ r ∈ rs.head?, r.entries = -1) ∧ rs.IsChain fun r r' => r.entries = -1 → r'.entries = -1 := by
  induction rs generalizing p with
  | nil => simp [decoded]
  | cons r rs ih =>
    rw [decoded, isChain_cons]
    by_cases hr : r.entries = -1
    · simp [hr, entry, ih]
    · simp [hr, entry, ih]

end TreeRecord

def decodeTree (data : Bytes) : Except Fault (List TreeEntry) := readRecords readTreeEntry (data.length + 1) data

/-- The valid records are decoded as they are exactly if none follows an invalidated one: the subtree count
of that one is never read. -/
theorem decodeTree_iff (rs : List TreeRecord) :
    decodeTree (rs.flatMap TreeRecord.text) = .ok (rs.filterMap TreeRecord.entry) ↔
      rs.IsChain fun r r' => r.entries = -1 → r'.entries = -1 := by
  have hfuel := length_le_flatMap (f := TreeRecord.text) (by simp [TreeRecord.text]) rs
  have hread := TreeRecord.readRecords_text (p := []) (by simp) (Nat.lt_succ_of_le hfuel)
  rw [nil_append] at hread
  rw [decodeTree, hread, Except.ok.injEq, TreeRecord.decoded_eq_iff]
  simp

def root : TreeRecord :=
  ⟨[], textBytes "-1", -1, textBytes "1", 1, .zeroHash, by decide, by decide, by decide, rfl, rfl, ⟨rfl, rfl⟩⟩

def directory : TreeRecord :=
  ⟨textBytes "a", textBytes "2", 2, textBytes "0", 0, ObjectID.zeroHash.write [1], by decide, by decide, by decide, rfl, rfl,
    ⟨rfl, rfl⟩⟩

theorem decodeTree_invalidated : decodeTree ([root, directory].flatMap TreeRecord.text) ≠
    .ok ([root, directory].filterMap TreeRecord.entry) := by
  decide +kernel

/-- A record of the `REUC` extension: the texts of the modes of the three stages, and hashes for those that
have one. -/
structure UndoRecord where
  path : Bytes
  mode : ℕ → Bytes
  value : ℕ → ℤ
  hash : ℕ → ObjectID
  path_plain : 0 ∉ path
  mode_plain : ∀ stage, 0 ∉ mode stage
  parse_mode : ∀ stage, parseInt 8 (mode stage) = .ok (value stage)
  hash_sha1 : ∀ stage, (hash stage).IsSHA1

/-- The `k`-th stage gets the `k`-th hash. -/
def assign : List ℕ → List ObjectID → ℕ → Option ObjectID
  | stage :: stages, h :: hs => update (assign stages hs) stage (some h)
  | _, _ => fun _ => none

variable {hs : List ObjectID} {stages : List ℕ}

lemma readStageHashes_append (hlen : stages.length = hs.length) (hsha : ∀ h ∈ hs, h.IsSHA1) (s : Bytes) :
    readStageHashes stages (hs.flatMap ObjectID.bytes ++ s) = .ok (assign stages hs, s) := by
  induction stages generalizing hs with
  | nil =>
    obtain rfl := length_eq_zero_iff.mp hlen.symm
    rfl
  | cons stage stages ih =>
    cases hs with
    | nil => simp at hlen
    | cons h hs =>
      rw [forall_mem_cons] at hsha
      rw [flatMap_cons, append_assoc, readStageHashes, readHash_append hsha.1]
      simp [ih (by simpa using hlen) hsha.2, assign]

lemma assign_of_not_mem {stage : ℕ} (h : stage ∉ stages) : assign stages hs stage = none := by
  fun_induction assign stages hs with
  | case1 s stages g hs ih =>
    rw [mem_cons, not_or] at h
    rw [update_of_ne h.1, ih h.2]
  | case2 => rfl

lemma assign_eq_iff {stages : List ℕ} (hnodup : stages.Nodup) {hash : ℕ → ObjectID} {hs : List ObjectID}
    (hlen : stages.length = hs.length) :
    assign stages hs = (fun i => if i ∈ stages then some (hash i) else none) ↔ hs = stages.map hash := by
  induction stages generalizing hs with
  | nil =>
    obtain rfl := length_eq_zero_iff.mp hlen.symm
    simp [assign]
  | cons stage stages ih =>
    obtain ⟨hstage, hnodup⟩ := nodup_cons.mp hnodup
    cases hs with
    | nil => simp at hlen
    | cons h hs =>
      rw [map_cons, List.cons.injEq, ← ih hnodup (by simpa using hlen : stages.length = hs.length)]
      constructor
      · intro heq
        refine ⟨by simpa [assign] using congrFun heq stage, funext fun i => ?_⟩
        by_cases hi : i = stage
        · subst hi
          simp [assign_of_not_mem hstage, hstage]
        · simpa [assign, hi] using congrFun heq i
      · rintro ⟨rfl, heq⟩
        funext i
        by_cases hi : i = stage <;> simp [assign, hi, heq]

namespace UndoRecord

variable {order : List ℕ → List ℕ}

def present (r : UndoRecord) : List ℕ := [1, 2, 3].filter (r.value · ≠ 0)

def text (r : UndoRecord) : Bytes :=
  r.path ++ 0 :: ([1, 2, 3].flatMap (fun stage => r.mode stage ++ [0]) ++ r.present.flatMap fun stage => (r.hash stage).bytes)

def entry (r : UndoRecord) : ResolveUndoEntry :=
  ⟨r.path, fun stage => if stage ∈ r.present then some (r.hash stage) else none⟩

lemma readStages_mode (r : UndoRecord) (stages : List ℕ) (s : Bytes) :
    readStages stages (stages.flatMap (fun stage => r.mode stage ++ [0]) ++ s) =
      .ok (stages.filter (r.value · ≠ 0), s) := by
  induction stages with
  | nil => rfl
  | cons stage stages ih =>
    simp only [flatMap_cons, append_assoc, readStages]
    simp [lift_readUntil (r.mode_plain stage), r.parse_mode, ih, filter_cons]

/-- What is read of a record if the map is iterated in the given order. -/
def read (order : List ℕ → List ℕ) (r : UndoRecord) : ResolveUndoEntry :=
  ⟨r.path, assign (order r.present) (r.present.map r.hash)⟩

section

variable (horder : ∀ l, (order l).Perm l)

include horder

lemma readResolveUndoEntry_text (r : UndoRecord) (s : Bytes) :
    readResolveUndoEntry order (r.text ++ s) = .ok (some (r.read order), s) := by
  have hlen : (order r.present).length = (r.present.map r.hash).length := by
    rw [(horder _).length_eq, length_map]
  have hhashes := readStageHashes_append hlen (by simp [r.hash_sha1]) s
  rw [flatMap_map] at hhashes
  simp only [text, append_assoc, cons_append, readResolveUndoEntry, lift_readUntil r.path_plain, ok_bind,
    r.readStages_mode]
  rw [← present, hhashes]
  rfl

lemma readRecords_text {rs : List UndoRecord} {fuel : ℕ} (hfuel : rs.length < fuel) :
    readRecords (readResolveUndoEntry order) fuel (rs.flatMap text) = .ok (rs.map (read order)) := by
  induction rs generalizing fuel with
  | nil =>
    obtain ⟨fuel, rfl⟩ := Nat.exists_eq_add_one_of_ne_zero (Nat.ne_zero_of_lt hfuel)
    rfl
  | cons r rs ih =>
    obtain ⟨fuel, rfl⟩ := Nat.exists_eq_add_one_of_ne_zero (Nat.ne_zero_of_lt hfuel)
    rw [flatMap_cons, readRecords, readResolveUndoEntry_text horder]
    simp [ih (Nat.lt_of_succ_lt_succ hfuel), Except.map]

lemma read_eq_iff (r : UndoRecord) : r.read order = r.entry ↔ (order r.present).map r.hash = r.present.map r.hash := by
  have hperm := horder r.present
  have hnodup : r.present.Nodup := Nodup.filter _ (by decide)
  have hassign := @assign_eq_iff _ (hperm.nodup_iff.mpr hnodup) r.hash (r.present.map r.hash)
    (by rw [hperm.length_eq, length_map])
  simp only [hperm.mem_iff] at hassign
  rw [eq_comm (a := (order r.present).map r.hash), ← hassign]
  simp [read, entry]

end

lemma read_eq_entry_iff (r : UndoRecord) :
    (∀ order : List ℕ → List ℕ, (∀ l, (order l).Perm l) → r.read order = r.entry) ↔
      ∀ i ∈ r.present, ∀ j ∈ r.present, r.hash i = r.hash j := by
  constructor
  · intro h i hi j hj
    have hrotate := (read_eq_iff (fun l => rotate_perm l 1) r).mp (h _ fun l => rotate_perm l 1)
    have : Nonempty ObjectID := ⟨.zeroHash⟩
    rw [map_rotate, rotate_one_eq_self_iff_eq_replicate] at hrotate
    obtain ⟨hash, heq⟩ := hrotate
    have hsame : ∀ i ∈ r.present, r.hash i = hash := fun i hi =>
      eq_of_mem_replicate (heq ▸ mem_map_of_mem hi)
    rw [hsame i hi, hsame j hj]
  · intro h order horder
    have hperm := horder r.present
    refine (read_eq_iff horder r).mpr (ext_getElem (by simp [hperm.length_eq]) fun k h₁ h₂ => ?_)
    rw [getElem_map, getElem_map]
    exact h _ (hperm.mem_iff.mp (getElem_mem _)) _ (getElem_mem _)

end UndoRecord

def decodeResolveUndo (order : List ℕ → List ℕ) (data : Bytes) : Except Fault (List ResolveUndoEntry) :=
  readRecords (readResolveUndoEntry order) (data.length + 1) data

/-- The stages of a record get their own hashes in every order of iteration exactly if its hashes are all
the same. -/
theorem decodeResolveUndo_iff (rs : List UndoRecord) :
    (∀ order : List ℕ → List ℕ, (∀ l, (order l).Perm l) →
      decodeResolveUndo order (rs.flatMap UndoRecord.text) = .ok (rs.map UndoRecord.entry)) ↔
      ∀ r ∈ rs, ∀ i ∈ r.present, ∀ j ∈ r.present, r.hash i = r.hash j := by
  have hfuel := length_le_flatMap (f := UndoRecord.text) (by simp [UndoRecord.text]) rs
  have hdecode : ∀ order : List ℕ → List ℕ, (∀ l, (order l).Perm l) →
      decodeResolveUndo order (rs.flatMap UndoRecord.text) = .ok (rs.map (UndoRecord.read order)) :=
    fun order horder => UndoRecord.readRecords_text horder (Nat.lt_succ_of_le hfuel)
  constructor
  · intro h r hr
    refine r.read_eq_entry_iff.mp fun order horder => ?_
    have heq := (hdecode order horder).symm.trans (h order horder)
    exact map_inj_left.mp (Except.ok.inj heq) r hr
  · intro h order horder
    rw [hdecode order horder]
    exact congrArg _ (map_congr_left fun r hr => r.read_eq_entry_iff.mpr (h r hr) order horder)

def undo : UndoRecord where
  path := textBytes "a"
  mode := fun stage => textBytes (if stage = 1 then "0" else "100644")
  value := fun stage => if stage = 1 then 0 else 0o100644
  hash := fun stage => ObjectID.zeroHash.write [UInt8.ofNat stage]
  path_plain := by decide
  mode_plain := by intro stage; split_ifs <;> decide
  parse_mode := by intro stage; split_ifs <;> rfl
  hash_sha1 := fun stage => ⟨rfl, rfl⟩

theorem decodeResolveUndo_reversed : ¬ ∀ order : List ℕ → List ℕ, (∀ l, (order l).Perm l) →
    decodeResolveUndo order ([undo].flatMap UndoRecord.text) = .ok ([undo].map UndoRecord.entry) := by
  intro h
  have hsecond := congrArg (Except.map (List.map (ResolveUndoEntry.stages · 2))) (h reverse reverse_perm)
  exact absurd hsecond (by decide +kernel)

end GoGit.IndexFormat
