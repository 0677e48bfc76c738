import GoGit.ObjectStorage
import GoGit.ObjectStore
import GoGit.PathOrder
import GoGit.SortedTable

namespace GoGit.PrefixSearch

open PathOrder List

open ObjectStorage (Disk Pack Packed)

def incBytes : Bytes → Bytes × Bool
  | [] => ([], true)
  | b :: rest =>
    match incBytes rest with
    | (out, true) => ((b + 1) :: out, b + 1 = 0)
    | (out, false) => (b :: out, false)

/-- `sort.Search` for the first name that is not less. -/
def searchFrom (list : List ObjectID) (q : Bytes) : ℕ :=
  SortedTable.bisect (fun i => list[i]?.any fun h => q ≤ h.bytes) list.length 0 list.length

def limit (list : List ObjectID) (q : Bytes) : ℕ :=
  match incBytes q with
  | (_, true) => list.length
  | (lim, false) => searchFrom list lim

def sortedList (d : Disk) : List ObjectID := d.loose.insertionSort fun a b => a.bytes ≤ b.bytes

structure Cache where
  exclusive : Bool := false
  list : List ObjectID := []

def ObjectsWithPrefix (d : Disk) (c : Cache) (q : Bytes) : List ObjectID :=
  if q = [] then (if c.exclusive then c.list else d.loose)
  else if 20 < q.length then []
  else if c.exclusive then (c.list.take (limit c.list q)).drop (searchFrom c.list q)
  else d.loose.filter fun h => q.isPrefixOf h.bytes

/-- The names of an index that come after a name and start with the same byte. -/
def above (p : Pack) (h : ObjectID) : List ObjectID :=
  (p.hashes.filter fun k => k.bytes.head? = h.bytes.head? ∧ h.bytes < k.bytes).insertionSort fun a b => a.bytes ≤ b.bytes

/-- The name in an entry of `Entries`: it is written from the place of the name in the table of its first byte on, so
that the bytes of the next name come in behind it. -/
def entryHash (p : Pack) (h : ObjectID) : ObjectID :=
  ObjectID.zeroHash.write (h.bytes ++ (above p h).flatMap ObjectID.bytes)

def Entries (p : Pack) : List ObjectID :=
  (p.hashes.insertionSort fun a b => a.bytes ≤ b.bytes).map (entryHash p)

/-- The objects that the indexes add, in the order in which their map is gone through. -/
def packedWithPrefix (order : List Pack) (hashes : List ObjectID) (q : Bytes) : List ObjectID :=
  order.flatMap fun p => (Entries p).filter fun h => q.isPrefixOf h.bytes && h ∉ hashes

def HashesWithPrefix (d : Disk) (order : List Pack) (c : Cache) (q : Bytes) : List ObjectID :=
  ObjectsWithPrefix d c q ++ packedWithPrefix order (ObjectsWithPrefix d c q) q

/-- The list after `HashesWithPrefix`: a part of it was appended to in place. -/
def listAfter (d : Disk) (order : List Pack) (c : Cache) (q : Bytes) : List ObjectID :=
  if q = [] ∨ 20 < q.length then c.list
  else
    let found := packedWithPrefix order (ObjectsWithPrefix d c q) q
    c.list.take (limit c.list q) ++ found.take (c.list.length - limit c.list q) ++
      c.list.drop (limit c.list q + found.length)

/-- `expandPartialHash` of a storage without a search of its own. -/
def expandSlow (d : Disk) (q : Bytes) : List ObjectID :=
  (d.loose ++ d.packs.flatMap Pack.hashes).eraseDups.filter fun h => q.isPrefixOf h.bytes

/-- A digit that is left over is compared with the text of the candidates. -/
def resolveHashPrefix (d : Disk) (order : List Pack) (c : Cache) (p : Bytes) : List ObjectID :=
  if p = [] then []
  else if p.length = 40 then (Hex.decode p).elim [] fun _ => [ObjectID.fromHex p]
  else
    match Hex.decode (p.take (p.length / 2 * 2)) with
    | none => []
    | some q =>
      let candidates := HashesWithPrefix d order c q
      if p.length % 2 = 0 then candidates else candidates.filter fun h => p.isPrefixOf h.string

def lower (c : UInt8) : UInt8 := if 65 ≤ c ∧ c ≤ 70 then c + 32 else c

lemma digit_value (c : UInt8) : ∀ x, Hex.value c = some x → Hex.digit x = lower c ∧ x < 16 := by
  have hall : ∀ n : Fin 256, (Hex.value (UInt8.ofFin n)).all
      fun x => Hex.digit x = lower (UInt8.ofFin n) ∧ x < 16 := by decide +kernel
  intro x hx
  have hc := hall c.toFin
  rw [UInt8.ofFin_toFin, hx] at hc
  simpa using hc

lemma pair_div {x y : UInt8} (hx : x < 16) (hy : y < 16) : (x * 16 + y) / 16 = x ∧ (x * 16 + y) % 16 = y := by
  have hall : ∀ x y : Fin 16, (UInt8.ofNat x * 16 + UInt8.ofNat y) / 16 = UInt8.ofNat x ∧
      (UInt8.ofNat x * 16 + UInt8.ofNat y) % 16 = UInt8.ofNat y := by decide +kernel
  simpa using hall ⟨x.toNat, UInt8.lt_iff_toNat_lt.mp hx⟩ ⟨y.toNat, UInt8.lt_iff_toNat_lt.mp hy⟩

lemma encode_decode : ∀ {p q : Bytes}, Hex.decode p = some q → Hex.encode q = p.map lower
  | [], q, h => by
    cases h
    rfl
  | [_], q, h => by cases h
  | a :: b :: rest, q, h => by
    rw [Hex.decode] at h
    cases ha : Hex.value a with
    | none => simp [ha] at h
    | some x =>
      cases hb : Hex.value b with
      | none => simp [ha, hb] at h
      | some y =>
        cases hl : Hex.decode rest with
        | none => simp [ha, hb, hl] at h
        | some l =>
          obtain rfl : (x * 16 + y) :: l = q := by simpa [ha, hb, hl] using h
          obtain ⟨hdx, hx⟩ := digit_value a x ha
          obtain ⟨hdy, hy⟩ := digit_value b y hb
          change Hex.digit ((x * 16 + y) / 16) :: Hex.digit ((x * 16 + y) % 16) :: Hex.encode l = _
          rw [(pair_div hx hy).1, (pair_div hx hy).2, hdx, hdy, encode_decode hl]
          rfl

lemma decode_isSome : ∀ {p : Bytes}, (∀ c ∈ p, (Hex.value c).isSome) → p.length % 2 = 0 → ∃ q, Hex.decode p = some q
  | [], _, _ => ⟨[], rfl⟩
  | [_], _, h => by simp at h
  | a :: b :: rest, hhex, h => by
    obtain ⟨x, hx⟩ := Option.isSome_iff_exists.mp (hhex a (by simp))
    obtain ⟨y, hy⟩ := Option.isSome_iff_exists.mp (hhex b (by simp))
    have hrest : rest.length % 2 = 0 := by
      simp only [length_cons] at h
      omega
    obtain ⟨q, hq⟩ := decode_isSome (fun c hc => hhex c (by simp [hc])) hrest
    exact ⟨(x * 16 + y) :: q, by simp only [Hex.decode, hx, hy, hq]⟩

lemma take_encode (b : Bytes) (k : ℕ) : (Hex.encode b).take (2 * k) = Hex.encode (b.take k) := by
  induction k generalizing b with
  | zero => rfl
  | succ k ih =>
    cases b with
    | nil => rfl
    | cons x b =>
      change (Hex.digit (x / 16) :: Hex.digit (x % 16) :: (Hex.encode b)).take (2 * k + 2) = _
      rw [take_succ_cons, take_succ_cons, ih]
      rfl

lemma encode_isPrefix_iff (q b : Bytes) : Hex.encode q <+: Hex.encode b ↔ q <+: b := by
  rw [prefix_iff_eq_take, prefix_iff_eq_take, Hex.length_encode, take_encode]
  refine ⟨fun h => ?_, fun h => congrArg _ h⟩
  have hdecode := congrArg Hex.decode h
  rwa [Hex.decode_encode, Hex.decode_encode, Option.some.injEq] at hdecode

lemma succ_le_iff {x : UInt8} (hx : x + 1 ≠ 0) (c : UInt8) : x + 1 ≤ c ↔ x < c := by
  have hmax : x.toNat ≠ 255 := fun h => hx (UInt8.toNat_inj.mp (by simp [UInt8.toNat_add, h]))
  have hlt := x.toNat_lt
  rw [UInt8.le_iff_toNat_le, UInt8.lt_iff_toNat_lt, UInt8.toNat_add]
  change (x.toNat + 1) % 256 ≤ _ ↔ _
  omega

lemma not_lt_of_succ_eq_zero {x : UInt8} (hx : x + 1 = 0) (c : UInt8) : ¬ x < c := by
  have hmax := congrArg UInt8.toNat hx
  rw [UInt8.toNat_add] at hmax
  change (x.toNat + 1) % 256 = 0 at hmax
  have hc := c.toNat_lt
  have hlt := x.toNat_lt
  rw [UInt8.lt_iff_toNat_lt]
  omega

lemma cons_le_cons_iff {x c : UInt8} {q b : Bytes} : x :: q ≤ c :: b ↔ x < c ∨ x = c ∧ q ≤ b := by
  rw [← not_lt, cons_lt_cons_iff, ← not_lt]
  rcases lt_trichotomy x c with h | rfl | h
  · simp [h, h.not_gt, h.ne']
  · simp
  · simp [h, h.not_gt, h.ne']

lemma incBytes_spec (q b : Bytes) (hlen : q.length ≤ b.length) :
    ((incBytes q).2 = true → (q ≤ b ↔ q <+: b) ∧ (incBytes q).1 ≤ b) ∧
    ((incBytes q).2 = false → (q ≤ b ∧ ¬ (incBytes q).1 ≤ b ↔ q <+: b) ∧ ((incBytes q).1 ≤ b → q ≤ b)) := by
  induction q generalizing b with
  | nil => simp [incBytes, PathOrder.le_of_isPrefix (List.nil_prefix (l := b))]
  | cons x q ih =>
    obtain ⟨c, b, rfl⟩ : ∃ c b', b = c :: b' := exists_cons_of_length_pos (by simp at hlen; omega)
    obtain ⟨htrue, hfalse⟩ := ih b (by simpa using hlen)
    rw [incBytes]
    rcases hq : incBytes q with ⟨out, overflow⟩
    rw [hq] at htrue hfalse
    cases overflow with
    | true =>
      obtain ⟨hle, hout⟩ := htrue rfl
      have hcarry : (x + 1) :: out ≤ c :: b ↔ x + 1 ≤ c := by
        rw [cons_le_cons_iff, @le_iff_lt_or_eq _ _ (x + 1)]
        simp only [show out ≤ b from hout, and_true]
      simp only [hcarry, decide_eq_true_eq, decide_eq_false_iff_not, cons_le_cons_iff, cons_prefix_cons, hle]
      constructor
      · intro hx
        rw [hx]
        exact ⟨or_iff_right (not_lt_of_succ_eq_zero hx c), UInt8.zero_le⟩
      · intro hx
        rw [succ_le_iff hx]
        by_cases hlt : x < c
        · simp [hlt, hlt.ne]
        · simp [hlt]
    | false =>
      obtain ⟨hle, hout⟩ := hfalse rfl
      simp only [Bool.false_eq_true, false_implies, true_implies, true_and, cons_le_cons_iff, cons_prefix_cons, ← hle]
      by_cases hlt : x < c
      · simp [hlt, hlt.ne]
      · simp only [hlt, false_or]
        exact ⟨⟨fun h => ⟨h.1.1, h.1.2, fun ho => h.2 ⟨h.1.1, ho⟩⟩, fun h => ⟨⟨h.1, h.2.1⟩, fun ho => h.2.2 ho.2⟩⟩,
          fun h => ⟨h.1, hout h.2⟩⟩

section Found

variable {d : Disk} {order : List Pack} {c : Cache} {q : Bytes} {h : ObjectID}

/-- No object is twice in the directories of loose objects or in a pack, and the names are those of SHA-1. -/
structure Unique (d : Disk) : Prop where
  loose : d.loose.Nodup
  packs : ∀ p ∈ d.packs, p.hashes.Nodup
  sha1 : ∀ h, d.Stored h → h.IsSHA1

lemma Unique.pack {r : Pack} (hd : Unique d) (hr : r ∈ d.packs) : ∀ k ∈ r.hashes, k.IsSHA1 :=
  fun k hk => hd.sha1 k (.inr ⟨r, hr, hk⟩)

def Cache.Intact (c : Cache) (d : Disk) : Prop := c.exclusive = true → c.list = sortedList d

lemma upward_le (q : Bytes) : SortedTable.Upward (fun h : ObjectID => decide (q ≤ h.bytes)) (sortedList d) := by
  have hsorted := @pairwise_insertionSort ObjectID (fun a b => a.bytes ≤ b.bytes) _
    ⟨fun a b => le_total _ _⟩ ⟨fun a b c => le_trans⟩ d.loose
  refine hsorted.imp fun hab hqa => ?_
  simp only [decide_eq_true_eq] at hqa ⊢
  exact le_trans hqa hab

lemma slice_eq (hq : q.length < 20) :
    ((sortedList d).take (limit (sortedList d) q)).drop (searchFrom (sortedList d) q) =
      (sortedList d).filter fun h => q.isPrefixOf h.bytes := by
  have hspec := fun h : ObjectID => incBytes_spec q h.bytes (by
    rw [h.length_bytes_eq]
    cases h.format <;> simp only [ObjectFormat.size] <;> omega)
  rcases hinc : incBytes q with ⟨lim, overflow⟩
  rw [hinc] at hspec
  have hfirst : searchFrom (sortedList d) q = _ := (upward_le q).bisect_eq
  cases overflow with
  | true =>
    have hlimit : limit (sortedList d) q = (sortedList d).length := by rw [limit, hinc]
    rw [hlimit, hfirst, take_length, (upward_le q).drop_eq]
    refine filter_congr fun h _ => ?_
    rw [Bool.eq_iff_iff]
    simpa using ((hspec h).1 rfl).1
  | false =>
    have hlimit : limit (sortedList d) q = ((sortedList d).filter fun h => !decide (lim ≤ h.bytes)).length := by
      rw [limit, hinc]
      exact (upward_le lim).bisect_eq
    rw [hlimit, hfirst, (upward_le q).slice_eq (upward_le lim)]
    · refine filter_congr fun h _ => ?_
      rw [Bool.eq_iff_iff]
      simpa using ((hspec h).2 rfl).1
    · intro h _
      simpa using ((hspec h).2 rfl).2

lemma perm_objectsWithPrefix (hc : c.Intact d) (hq : q.length < 20) :
    (ObjectsWithPrefix d c q).Perm (d.loose.filter fun h => q.isPrefixOf h.bytes) := by
  have hperm : (sortedList d).Perm d.loose := List.perm_insertionSort _ _
  rw [ObjectsWithPrefix]
  split_ifs with hnil hexclusive hlong hexclusive
  · rw [hc hexclusive, hnil]
    simpa using hperm
  · rw [hnil]
    simp
  · omega
  · rw [hc hexclusive, slice_eq hq]
    exact hperm.filter _
  · exact .refl _

/-- Nothing but zeros gets behind the name in the entries of the pack. -/
def alone (p : Pack) (h : ObjectID) : Bool := (above p h).head?.all fun k => k.bytes.take 12 = replicate 12 0

section Pack

variable {r : Pack} (hr : ∀ k ∈ r.hashes, k.IsSHA1)

lemma bytes_entryHash (hh : h.IsSHA1) : (entryHash r h).bytes = h.bytes := by
  have hlen := ObjectID.length_bytes hh.1
  change (((h.bytes ++ _).take 32) ++ _).take 20 = _
  rw [take_append_of_le_length (by simp [hlen]), take_take, take_append_of_le_length (by simp [hlen]),
    take_of_length_le (by simp [hlen])]

lemma hash_eq_append (hh : h.IsSHA1) : h.hash = h.bytes ++ replicate 12 0 := by
  rw [← ObjectID.hash_write_bytes hh.1, hh.write_bytes]

lemma eq_of_bytes {h k : ObjectID} (hh : h.IsSHA1) (hk : k.IsSHA1) (heq : h.bytes = k.bytes) : h = k := by
  rw [← hh.write_bytes, heq, hk.write_bytes]

lemma mem_Entries {e : ObjectID} : e ∈ Entries r ↔ ∃ k ∈ r.hashes, entryHash r k = e := by
  simp [Entries]

include hr

lemma entryHash_eq_iff (hh : h.IsSHA1) : entryHash r h = h ↔ alone r h = true := by
  rw [entryHash, alone]
  rcases habove : above r h with _ | ⟨k, rest⟩
  · simp [hh.write_bytes]
  · have hk : k ∈ r.hashes := by
      have hmem : k ∈ above r h := habove ▸ mem_cons_self
      exact (mem_filter.mp ((mem_insertionSort _).mp hmem)).1
    have hlen := ObjectID.length_bytes hh.1
    have hlen' := ObjectID.length_bytes (hr k hk).1
    have hhash : (ObjectID.zeroHash.write (h.bytes ++ (k :: rest).flatMap ObjectID.bytes)).hash =
        h.bytes ++ k.bytes.take 12 := by
      change (h.bytes ++ (k.bytes ++ _)).take 32 ++ (replicate 32 0).drop _ = _
      rw [take_append, take_of_length_le (by omega), hlen, take_append_of_le_length (by omega), drop_of_length_le,
        append_nil]
      simp [hlen, hlen']
      omega
    rw [head?_cons, Option.all_some, decide_eq_true_eq]
    constructor
    · intro heq
      rw [heq, hash_eq_append hh] at hhash
      exact (append_cancel_left hhash).symm
    · intro hzero
      refine ObjectID.eq_of_hash ?_ hh.1.symm
      rw [hhash, hzero, hash_eq_append hh]

lemma mem_Entries_iff (hh : h.IsSHA1) : h ∈ Entries r ↔ h ∈ r.hashes ∧ alone r h = true := by
  rw [← entryHash_eq_iff hr hh, mem_Entries]
  constructor
  · rintro ⟨k, hk, heq⟩
    obtain rfl : k = h := eq_of_bytes (hr k hk) hh (by rw [← heq, bytes_entryHash (hr k hk)])
    exact ⟨hk, heq⟩
  · rintro ⟨hmem, heq⟩
    exact ⟨h, hmem, heq⟩

lemma nodup_Entries (hnodup : r.hashes.Nodup) : (Entries r).Nodup := by
  refine Nodup.map_on (fun a ha b hb heq => ?_) ((perm_insertionSort _ _).nodup_iff.mpr hnodup)
  have ha := hr a ((mem_insertionSort _).mp ha)
  have hb := hr b ((mem_insertionSort _).mp hb)
  exact eq_of_bytes ha hb (by rw [← bytes_entryHash (r := r) ha, heq, bytes_entryHash hb])

end Pack

lemma count_packedWithPrefix (horder : ∀ p ∈ order, (Entries p).Nodup) (hashes : List ObjectID) :
    (packedWithPrefix order hashes q).count h =
      if q <+: h.bytes ∧ h ∉ hashes then order.countP (h ∈ Entries ·) else 0 := by
  induction order with
  | nil => simp [packedWithPrefix]
  | cons p order ih =>
    have hp := ((horder p (by simp)).filter fun h => q.isPrefixOf h.bytes && h ∉ hashes).count (a := h)
    rw [packedWithPrefix] at ih
    rw [packedWithPrefix, flatMap_cons, count_append, hp, ih fun r hr => horder r (by simp [hr])]
    by_cases hfound : q <+: h.bytes ∧ h ∉ hashes
    · by_cases hmem : h ∈ Entries p
      · simp [hfound, hmem, add_comm]
      · simp [hfound, hmem]
    · rw [if_neg hfound, if_neg hfound, add_zero, if_neg]
      intro hmem
      exact hfound (by simpa using of_mem_filter hmem)

lemma count_HashesWithPrefix (hd : Unique d) (hc : c.Intact d) (horder : order.Perm d.packs) (hq : q.length < 20) :
    (HashesWithPrefix d order c q).count h =
      if q <+: h.bytes then (if h ∈ d.loose then 1 else d.packs.countP (h ∈ Entries ·)) else 0 := by
  have hperm := perm_objectsWithPrefix hc hq
  have hentries : ∀ r ∈ order, (Entries r).Nodup := fun r hr =>
    have hr := horder.mem_iff.mp hr
    nodup_Entries (hd.pack hr) (hd.packs r hr)
  rw [HashesWithPrefix, count_append, count_packedWithPrefix hentries, hperm.count_eq, (hd.loose.filter _).count]
  simp only [hperm.mem_iff, horder.countP_eq]
  by_cases hpre : q <+: h.bytes
  · by_cases hloose : h ∈ d.loose
    · simp [hpre, hloose]
    · simp [hpre, hloose]
  · simp [hpre]

/-- The digits of the name start with these, whatever the case of their letters. -/
def Matches (p : Bytes) (h : ObjectID) : Prop := p.map lower <+: h.string

instance (p : Bytes) (h : ObjectID) : Decidable (Matches p h) := inferInstanceAs (Decidable (_ <+: _))

lemma matches_take_iff {p : Bytes} (hdecode : Hex.decode p = some q) : q <+: h.bytes ↔ Matches p h := by
  rw [Matches, ← encode_decode hdecode, ObjectID.string, encode_isPrefix_iff]

lemma isPrefix_string_iff {p : Bytes} : p <+: h.string ↔ Matches p h ∧ p.map lower = p := by
  have hall : ∀ n : Fin 256, Hex.IsDigit (UInt8.ofFin n) → lower (UInt8.ofFin n) = UInt8.ofFin n := by decide +kernel
  constructor
  · intro hp
    have hlower : p.map lower = p := by
      have hsame : ∀ c ∈ p, lower c = id c := fun c hc => hall c.toFin (Hex.isDigit_of_mem_encode (hp.subset hc))
      rw [map_congr_left hsame, map_id]
    exact ⟨by rwa [Matches, hlower], hlower⟩
  · rintro ⟨hp, hlower⟩
    rwa [Matches, hlower] at hp

lemma count_resolveHashPrefix (hd : Unique d) (hc : c.Intact d) (horder : order.Perm d.packs) {p : Bytes}
    (hhex : ∀ b ∈ p, (Hex.value b).isSome) (hlen : p.length < 40) : (resolveHashPrefix d order c p).count h =
      if Matches p h ∧ p ≠ [] ∧ (p.length % 2 = 1 → p.map lower = p) then
        (if h ∈ d.loose then 1 else d.packs.countP (h ∈ Entries ·)) else 0 := by
  rw [resolveHashPrefix]
  by_cases hnil : p = []
  · simp [hnil]
  have htake : (p.take (p.length / 2 * 2)).length = p.length / 2 * 2 := by
    rw [length_take]
    omega
  obtain ⟨q, hdecode⟩ := decode_isSome (fun b hb => hhex b (mem_of_mem_take hb))
    (show (p.take (p.length / 2 * 2)).length % 2 = 0 by omega)
  have hq : q.length < 20 := by
    have hlength := congrArg List.length (encode_decode hdecode)
    rw [Hex.length_encode, length_map] at hlength
    omega
  have hcount := @count_HashesWithPrefix d order c q h hd hc horder hq
  simp only [if_neg hnil, if_neg (show p.length ≠ 40 by omega), hdecode]
  rcases Nat.mod_two_eq_zero_or_one p.length with heven | hodd
  · rw [take_of_length_le (by omega)] at hdecode
    rw [if_pos heven, hcount]
    simp [matches_take_iff hdecode, hnil, heven]
  · rw [if_neg (by omega)]
    by_cases hp : p <+: h.string
    · obtain ⟨hm, hlower⟩ := isPrefix_string_iff.mp hp
      have hpre : q <+: h.bytes := by
        rw [matches_take_iff hdecode, Matches, map_take]
        exact (List.take_prefix _ _).trans hm
      have hall : Matches p h ∧ p ≠ [] ∧ (p.length % 2 = 1 → p.map lower = p) := ⟨hm, hnil, fun _ => hlower⟩
      rw [count_filter (by simpa using hp), hcount, if_pos hpre, if_pos hall]
    · rw [count_eq_zero.mpr, if_neg]
      · rintro ⟨hm, -, hlower⟩
        exact hp (isPrefix_string_iff.mpr ⟨hm, hlower hodd⟩)
      · intro hmem
        exact hp (by simpa using of_mem_filter hmem)

/-- What the search can give out. -/
def Listed (d : Disk) (h : ObjectID) : Prop := h ∈ d.loose ∨ ∃ r ∈ d.packs, h ∈ Entries r

lemma listed_iff (P : Prop) [Decidable P] :
    0 < (if P then (if h ∈ d.loose then 1 else d.packs.countP (h ∈ Entries ·)) else 0) ↔ P ∧ Listed d h := by
  rw [Listed]
  split_ifs with hP hloose
  · simp [hP, hloose]
  · simp [hP, hloose, countP_pos_iff]
  · simp [hP]

lemma Listed.exists_stored (hd : Unique d) (hh : Listed d h) : ∃ k, d.Stored k ∧ k.bytes = h.bytes := by
  rcases hh with hloose | ⟨r, hr, hentry⟩
  · exact ⟨h, .inl hloose, rfl⟩
  · obtain ⟨k, hk, rfl⟩ := mem_Entries.mp hentry
    exact ⟨k, .inr ⟨r, hr, hk⟩, (bytes_entryHash (hd.pack hr k hk)).symm⟩

lemma exists_listed (hd : Unique d) (hh : d.Stored h) : ∃ e, Listed d e ∧ e.bytes = h.bytes := by
  rcases hh with hloose | ⟨r, hr, hmem⟩
  · exact ⟨h, .inl hloose, rfl⟩
  · exact ⟨entryHash r h, .inr ⟨r, hr, mem_Entries.mpr ⟨h, hmem, rfl⟩⟩, bytes_entryHash (hd.pack hr h hmem)⟩

lemma matches_congr {p : Bytes} {k : ObjectID} (heq : k.bytes = h.bytes) : Matches p k ↔ Matches p h := by
  rw [Matches, Matches, ObjectID.string, ObjectID.string, heq]

lemma countP_Entries (hd : Unique d) (hh : h.IsSHA1) (halone : ∀ r ∈ d.packs, h ∈ r.hashes → alone r h = true) :
    d.packs.countP (h ∈ Entries ·) = d.packs.countP (h ∈ ·.hashes) := by
  refine countP_congr fun r hr => ?_
  rw [decide_eq_true_eq, decide_eq_true_eq, mem_Entries_iff (hd.pack hr) hh]
  exact and_iff_left_of_imp (halone r hr)

lemma fast_iff_slow (hd : Unique d) (hc : c.Intact d) (horder : order.Perm d.packs) {q : Bytes} (hq : q.length < 20)
    (name : Bytes) : name ∈ (HashesWithPrefix d order c q).map ObjectID.bytes ↔
      name ∈ (expandSlow d q).map ObjectID.bytes := by
  have hfast : ∀ h, h ∈ HashesWithPrefix d order c q ↔ q <+: h.bytes ∧ Listed d h := by
    intro h
    rw [← count_pos_iff, count_HashesWithPrefix hd hc horder hq, listed_iff]
  have hgeneric : ∀ h, h ∈ expandSlow d q ↔ q <+: h.bytes ∧ d.Stored h := by
    intro h
    simp [expandSlow, Disk.Stored, Packed, and_comm]
  simp only [mem_map, hfast, hgeneric]
  constructor
  · rintro ⟨h, ⟨hpre, hlisted⟩, rfl⟩
    obtain ⟨k, hstored, heq⟩ := hlisted.exists_stored hd
    exact ⟨k, ⟨heq ▸ hpre, hstored⟩, heq⟩
  · rintro ⟨h, ⟨hpre, hstored⟩, rfl⟩
    obtain ⟨k, hlisted, heq⟩ := exists_listed hd hstored
    exact ⟨k, ⟨heq ▸ hpre, hlisted⟩, heq⟩

end Found

def twoPacked : Pack := ⟨.short 9, [.short 0xab, .short 0xcd]⟩

def looseAndPacked : Disk := ⟨[[.short 0xab]], [twoPacked], []⟩

lemma unique_looseAndPacked : Unique looseAndPacked where
  loose := by decide
  packs := by decide
  sha1 := by
    have hnames : ∀ h ∈ looseAndPacked.loose ++ twoPacked.hashes, h.format = .sha1 ∧ h.hash.drop 20 = replicate 12 0 := by
      decide
    rintro h (hh | ⟨r, hr, hh⟩)
    · exact hnames h (mem_append_left _ hh)
    · exact hnames h (mem_append_right _ (mem_singleton.mp hr ▸ hh))

/-- The name of two bytes and then zeros. -/
def pair (a b : UInt8) : ObjectID := ⟨a :: b :: replicate 30 0, .sha1, by simp⟩

def nextTo : Pack := ⟨.short 9, [pair 0x11 1, pair 0x11 2]⟩

def onlyAb (name : UInt8) : Pack := ⟨.short name, [.short 0xab]⟩

def looseCd (packs : List Pack) : Disk := ⟨[[.short 0xcd]], packs, []⟩

end GoGit.PrefixSearch
