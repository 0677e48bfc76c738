import GoGit.IndexDecode
import GoGit.VariableWidth
import GoGit.IdxRoundtrip

namespace GoGit.IndexFormat

open ByteStream PathOrder List

lemma Entry.flags_eq (e : Entry) : e.flags = (e.stage % 4).toNat * 4096 + min e.name.length 4095 := by
  have hlen : (if e.name.length < nameMask then e.name.length else nameMask) =
      min e.name.length 4095 := by
    rw [nameMask]
    split_ifs <;> omega
  have hlt : min e.name.length 4095 < 2 ^ 12 := by omega
  rw [Entry.flags, hlen, ← Nat.shiftLeft_add_eq_or_of_lt hlt, Nat.shiftLeft_eq]

lemma Entry.flags_lt (e : Entry) : e.flags < 2 ^ 14 := by
  have hstage : (e.stage % 4).toNat < 4 := by omega
  rw [e.flags_eq]
  omega

def Entry.flagWord (e : Entry) : ℕ := if e.extended then e.flags ||| entryExtended else e.flags

section

variable (e : Entry)

lemma Entry.flagWord_eq : e.flagWord = (if e.extended then 2 ^ 14 else 0) + e.flags := by
  rw [Entry.flagWord]
  split_ifs with h
  · have hor := Nat.two_pow_add_eq_or_of_lt e.flags_lt 1
    rw [mul_one] at hor
    rw [Nat.or_comm]
    exact hor.symm
  · omega

lemma Entry.flagWord_lt : e.flagWord < 2 ^ 15 := by
  have := e.flags_lt
  rw [e.flagWord_eq]
  split_ifs <;> omega

lemma Entry.flagWord_extended : e.flagWord &&& entryExtended ≠ 0 ↔ e.extended = true := by
  have hlt := e.flags_lt
  have hbit : e.flagWord &&& 2 ^ 14 ≠ 0 ↔ 2 ^ 14 ≤ e.flagWord := and_two_pow_ne_zero_iff e.flagWord_lt
  have hmask : entryExtended = 2 ^ 14 := rfl
  rw [hmask, hbit, e.flagWord_eq]
  split_ifs with h
  · exact iff_of_true (by omega) h
  · exact iff_of_false (by omega) h

lemma Entry.flagWord_stage : (e.flagWord >>> 12) &&& 3 = (e.stage % 4).toNat := by
  have hstage : (e.stage % 4).toNat < 4 := by omega
  rw [show 3 = 2 ^ 2 - 1 by rfl, Nat.and_two_pow_sub_one_eq_mod, Nat.shiftRight_eq_div_pow, e.flagWord_eq, e.flags_eq]
  split_ifs <;> omega

lemma Entry.flagWord_name : e.flagWord &&& nameMask = min e.name.length 4095 := by
  rw [show nameMask = 2 ^ 12 - 1 by rfl, Nat.and_two_pow_sub_one_eq_mod, e.flagWord_eq, e.flags_eq]
  split_ifs <;> omega

lemma Entry.extendedFlags_lt : e.extendedFlags < 2 ^ 16 := by
  rw [Entry.extendedFlags]
  split_ifs <;> decide

lemma Entry.extendedFlags_intentToAdd : e.extendedFlags &&& intentToAddMask ≠ 0 ↔ e.intentToAdd = true := by
  rw [Entry.extendedFlags]
  cases e.intentToAdd <;> cases e.skipWorktree <;> decide

lemma Entry.extendedFlags_skipWorktree : e.extendedFlags &&& skipWorkTreeMask ≠ 0 ↔ e.skipWorktree = true := by
  rw [Entry.extendedFlags]
  cases e.intentToAdd <;> cases e.skipWorktree <;> decide

end

/-- The seconds are cut to a word, and the epoch is no time. -/
def storedTime (t : Time) : Time :=
  if t.isZero then .zero else decodeTime (UInt32.ofNat t.sec.toNat) (UInt32.ofNat t.nsec)

def TimeFits (t : Time) : Prop := t = .zero ∨ 0 ≤ t.sec ∧ t.sec < 2 ^ 32 ∧ ¬ (t.sec = 0 ∧ t.nsec = 0)

instance : DecidablePred TimeFits := fun _ => inferInstanceAs (Decidable (_ ∨ _))

variable {t : Time}

lemma decodeTime_timeToUint32 {w : UInt32 × UInt32} (h : timeToUint32 t = .ok w) :
    decodeTime w.1 w.2 = storedTime t := by
  rw [timeToUint32] at h
  rw [storedTime]
  split_ifs at h with hzero hneg
  · cases h
    rw [if_pos hzero, decodeTime, if_neg (by simp)]
  · cases h
    rw [if_neg hzero]

lemma TimeFits.timeToUint32 (h : TimeFits t) : ∃ w, timeToUint32 t = .ok w := by
  rw [IndexFormat.timeToUint32]
  rcases h with rfl | ⟨hpos, hlt, -⟩
  · exact ⟨_, if_pos (by simp [Time.isZero])⟩
  · have hnsec := t.nsec_lt
    have hwrap : Pack.wrapInt64 (t.sec * 10 ^ 9 + t.nsec) = t.sec * 10 ^ 9 + t.nsec := by
      rw [Pack.wrapInt64, Int.bmod_eq_of_le] <;> omega
    rw [hwrap]
    split_ifs with hzero hneg
    · exact ⟨_, rfl⟩
    · omega
    · exact ⟨_, rfl⟩

def storedHash (h : ObjectID) : ObjectID := ObjectID.zeroHash.write h.bytes

lemma readHash_bytes {h : ObjectID} (hsha : h.format = .sha1) (rest : Bytes) :
    readHash (h.bytes ++ rest) = .ok (storedHash h, rest) := by
  rw [readHash, Stream.readFull_append (ObjectID.length_bytes hsha)]
  rfl

lemma readUint16_ofNat {n : ℕ} (h : n < 2 ^ 16) (rest : Bytes) :
    Stream.readUint16 (digits 2 n ++ rest) = .ok (UInt16.ofNat n, rest) := by
  have hn : (UInt16.ofNat n).toNat = n := UInt16.toNat_ofNat_of_lt' h
  have hread := Stream.readUint16_digits (UInt16.ofNat n) rest
  rwa [hn] at hread

def Entry.stored (e : Entry) (name : Bytes) : Entry :=
  { e with
    hash := storedHash e.hash
    name := name
    createdAt := storedTime e.createdAt
    modifiedAt := storedTime e.modifiedAt
    stage := e.stage % 4 }

/-- The name that is read for an entry, where the decoder has `decoded` for the last one. -/
def nameBack (version : ℕ) (lastEntry decoded : Option Entry) (entry : Entry) : Except Fault Bytes :=
  if version = 4 then
    let (l, name) := cutName lastEntry entry
    match decoded with
    | none => .ok name
    | some last =>
      if (last.name.length : ℤ) < l then .error .panic
      else .ok (last.name.take (last.name.length - l.toNat) ++ name)
  else .ok entry.name

/-- A name the entry can be found by: no byte ends it early, and its length is an `int`. -/
def Entry.Named (e : Entry) : Prop := 0 ∉ e.name ∧ e.name.length < 2 ^ 63

instance : DecidablePred Entry.Named := fun _ => inferInstanceAs (Decidable (_ ∧ _))

def Entry.Aligned (version : ℕ) (e : Entry) : Prop :=
  e.hash.format = .sha1 ∧ (version ≠ 4 → e.name.length ≤ 4095)

def Entry.extendedWord (e : Entry) : Option ℕ := if e.extended then some e.extendedFlags else none

variable {version : ℕ} {e : Entry} {lastEntry decoded : Option Entry} {b rest : Bytes}

lemma readEntryName_short (hversion : version = 2 ∨ version = 3)
    (hshort : e.name.length ≤ 4095) (decoded : Option Entry) (rest : Bytes) :
    readEntryName version decoded e.flagWord (e.name ++ rest) = .ok (e.name, rest) := by
  have hlen : e.name.length = e.flagWord &&& nameMask := by
    rw [e.flagWord_name]
    omega
  rcases hversion with rfl | rfl <;>
    simp only [readEntryName, lift, Stream.readFull_append hlen, Except.mapError]

lemma cutName_bound (hlast : ∀ p ∈ lastEntry, p.Named)
    (he : e.Named) : (cutName lastEntry e).1 < 2 ^ 63 ∧ 0 ∉ (cutName lastEntry e).2 := by
  cases lastEntry with
  | none => exact ⟨by norm_num [cutName], he.1⟩
  | some p =>
    have hp := (hlast p rfl).2
    simp only [cutName]
    split_ifs
    · refine ⟨by push_cast; omega, ?_⟩
      intro hmem
      exact he.1 (mem_of_mem_drop hmem)
    · exact ⟨by simp only; omega, he.1⟩

lemma doReadEntryNameV4_back
    (hlast : ∀ p ∈ lastEntry, p.Named) (he : e.Named) (hb : encodeEntryNameV4 lastEntry e = .ok b)
    (decoded : Option Entry) (rest : Bytes) :
    doReadEntryNameV4 decoded (b ++ rest) = (nameBack 4 lastEntry decoded e).map (·, rest) := by
  obtain ⟨hl, hname⟩ := cutName_bound hlast he
  rw [nameBack, if_pos rfl]
  rw [encodeEntryNameV4] at hb
  generalize cutName lastEntry e = cut at hl hname hb
  obtain ⟨l, name⟩ := cut
  simp only at hl hname hb
  split_ifs at hb with hneg
  cases hb
  obtain ⟨n, rfl⟩ := Int.eq_ofNat_of_zero_le (not_lt.mp hneg)
  simp only [Int.toNat_natCast] at hl ⊢
  have hread : Pack.readVariableWidthInt ((Pack.WriteVariableWidthInt n ++ (name ++ [0])) ++ rest) 0 =
      .ok ((n : ℤ), 0 + (Pack.WriteVariableWidthInt n).length) :=
    Pack.read_WriteVariableWidthInt (by exact_mod_cast hl) (append_assoc _ _ _)
  have hdrop : ((Pack.WriteVariableWidthInt n ++ (name ++ [0])) ++ rest).drop
      (0 + (Pack.WriteVariableWidthInt n).length) = name ++ 0 :: rest := by
    rw [Nat.zero_add, append_assoc, drop_left, append_assoc]
    rfl
  have hnonneg : ¬ (n : ℤ) < 0 := by omega
  simp only [doReadEntryNameV4, hread, Except.mapError, ok_bind, hdrop, lift, Stream.readUntil_append hname, pure_ok,
    hnonneg, false_or, Int.toNat_natCast]
  cases decoded with
  | none => rfl
  | some p =>
    simp only
    split_ifs <;> rfl

lemma readEntryName_back (hversion : version = 2 ∨ version = 3 ∨ version = 4) (haligned : e.Aligned version)
    (hlast : ∀ p ∈ lastEntry, p.Named) (he : e.Named)
    (hshort : version ≠ 4 → b = e.name) (hcut : version = 4 → encodeEntryNameV4 lastEntry e = .ok b)
    (decoded : Option Entry) (rest : Bytes) : readEntryName version decoded e.flagWord (b ++ rest) =
      (nameBack version lastEntry decoded e).map (·, rest) := by
  by_cases h4 : version = 4
  · subst h4
    rw [readEntryName, doReadEntryNameV4_back hlast he (hcut rfl)]
  · rw [hshort h4, nameBack, if_neg h4, readEntryName_short (by omega) (haligned.2 h4)]
    rfl

lemma Entry.flagBytes_eq (e : Entry) :
    e.flagBytes = digits 2 e.flagWord ++ (if e.extended then digits 2 e.extendedFlags else []) := by
  rw [Entry.flagBytes, Entry.flagWord]
  split_ifs
  · rfl
  · rw [append_nil]

lemma encodeEntry_ok
    (hversion : version = 2 ∨ version = 3 ∨ version = 4) (hb : encodeEntry version lastEntry e = .ok b) :
    ∃ created modified name, timeToUint32 e.createdAt = .ok created ∧
      timeToUint32 e.modifiedAt = .ok modified ∧ (version ≠ 4 → name = e.name) ∧
      (version = 4 → encodeEntryNameV4 lastEntry e = .ok name) ∧
      b = digits 4 created.1.toNat ++ (digits 4 created.2.toNat ++ (digits 4 modified.1.toNat ++
        (digits 4 modified.2.toNat ++ (digits 4 e.dev.toNat ++ (digits 4 e.inode.toNat ++
        (digits 4 e.mode.toNat ++ (digits 4 e.uid.toNat ++ (digits 4 e.gid.toNat ++
        (digits 4 e.size.toNat ++ (e.hash.bytes ++ (digits 2 e.flagWord ++
        ((if e.extended then digits 2 e.extendedFlags else []) ++ name)))))))))))) := by
  cases hcreated : timeToUint32 e.createdAt with
  | error f => simp [encodeEntry, hcreated] at hb
  | ok created =>
    cases hmodified : timeToUint32 e.modifiedAt with
    | error f => simp [encodeEntry, hcreated, hmodified] at hb
    | ok modified =>
      simp only [encodeEntry, hcreated, hmodified, ok_bind, pure_ok, e.flagBytes_eq] at hb
      rcases hversion with rfl | rfl | rfl
      · cases hb
        exact ⟨created, modified, e.name, rfl, rfl, fun _ => rfl, by simp, by simp⟩
      · cases hb
        exact ⟨created, modified, e.name, rfl, rfl, fun _ => rfl, by simp, by simp⟩
      · cases hname : encodeEntryNameV4 lastEntry e with
        | error f => simp [hname] at hb
        | ok name =>
          simp only [hname] at hb
          cases hb
          exact ⟨created, modified, name, rfl, rfl, by simp, fun _ => rfl, by simp⟩

lemma readExtendedFlags_back (e : Entry) (rest : Bytes) :
    readExtendedFlags e.flagWord ((if e.extended then digits 2 e.extendedFlags else []) ++ rest) =
      .ok (e.extendedWord, rest) := by
  have hword : (UInt16.ofNat e.extendedFlags).toNat = e.extendedFlags :=
    UInt16.toNat_ofNat_of_lt' e.extendedFlags_lt
  rw [Entry.extendedWord, readExtendedFlags]
  by_cases h : e.extended = true
  · rw [if_pos (e.flagWord_extended.mpr h), if_pos h, if_pos h, readUint16_ofNat e.extendedFlags_lt]
    simp only [lift, Except.mapError, Except.map, hword]
  · rw [if_neg (mt e.flagWord_extended.mp h), if_neg h, if_neg h, nil_append]

lemma skipPadding_padEntry {version size : ℕ} (h : version ≠ 4 → size = e.length)
    (rest : Bytes) : skipPadding version size (padEntry version e.length ++ rest) = .ok rest := by
  rw [skipPadding, padEntry]
  by_cases h4 : version = 4
  · rw [if_pos h4, if_pos h4, nil_append]
  · have hlen : (List.replicate (8 - e.length % 8) (0 : UInt8)).length = 8 - size % 8 := by
      rw [length_replicate, h h4]
    have hroom : ¬ (List.replicate (8 - e.length % 8) (0 : UInt8) ++ rest).length < 8 - size % 8 := by
      rw [length_append]
      omega
    simp only [if_neg h4, if_neg hroom, drop_left' hlen]

lemma Entry.extendedWord_any (e : Entry) {mask : ℕ} {flag : Bool}
    (hbit : e.extendedFlags &&& mask ≠ 0 ↔ flag = true) (hflag : flag = true → e.extended = true) :
    (e.extendedWord.any fun x => x &&& mask ≠ 0) = flag := by
  rw [Entry.extendedWord]
  split_ifs with h
  · rw [Option.any_some, Bool.eq_iff_iff, decide_eq_true_eq]
    exact hbit
  · rw [Bool.eq_false_iff.mpr (mt hflag h)]
    rfl

lemma Entry.extendedWord_isSome (e : Entry) : e.extendedWord.isSome = e.extended := by
  rw [Entry.extendedWord]
  cases e.extended <;> rfl

lemma readEntry_encodeEntry (hversion : version = 2 ∨ version = 3 ∨ version = 4) (haligned : e.Aligned version)
    (hlast : ∀ p ∈ lastEntry, p.Named) (he : e.Named) (hb : encodeEntry version lastEntry e = .ok b)
    (decoded : Option Entry) (rest : Bytes) : readEntry version decoded (b ++ (padEntry version e.length ++ rest)) =
      (nameBack version lastEntry decoded e).map fun name => (e.stored name, rest) := by
  obtain ⟨created, modified, name, hcreated, hmodified, hshort, hcut, rfl⟩ := encodeEntry_ok hversion hb
  have hword : (UInt16.ofNat e.flagWord).toNat = e.flagWord :=
    UInt16.toNat_ofNat_of_lt' (by have := e.flagWord_lt; change _ < 2 ^ 16; omega)
  have hflags := fun rest => readUint16_ofNat (show e.flagWord < 2 ^ 16 by have := e.flagWord_lt; omega) rest
  have hname := readEntryName_back hversion haligned hlast he hshort hcut decoded (padEntry version e.length ++ rest)
  have hstage : (((e.flagWord >>> 12) &&& 3 : ℕ) : ℤ) = e.stage % 4 := by
    rw [e.flagWord_stage]
    omega
  simp only [readEntry, append_assoc, Stream.readUint32_digits, lift, Except.mapError, bind,
    Except.bind, readHash_bytes haligned.1, hflags, hword, readExtendedFlags_back, hname]
  cases hback : nameBack version lastEntry decoded e with
  | error f => rfl
  | ok n =>
    have hsize : version ≠ 4 →
        entryHeaderLength + (if e.extended = true then 2 else 0) + n.length = e.length := by
      intro h4
      rw [nameBack, if_neg h4] at hback
      rw [Entry.length, Except.ok.inj hback]
    simp only [Except.map, decodeTime_timeToUint32 hcreated, decodeTime_timeToUint32 hmodified, hstage,
      e.extendedWord_any e.extendedFlags_intentToAdd (by simp +contextual [Entry.extended]),
      e.extendedWord_any e.extendedFlags_skipWorktree (by simp +contextual [Entry.extended]),
      e.extendedWord_isSome, skipPadding_padEntry hsize,
      pure_ok, Entry.stored]

/-- The entries that are read for those written, and how reading them ends. -/
def readBack (version : ℕ) : Option Entry → Option Entry → List Entry → Except Fault (List Entry)
  | _, _, [] => .ok []
  | lastEntry, decoded, e :: es => do
    let name ← nameBack version lastEntry decoded e
    let rest ← readBack version (if version = 4 then some e else lastEntry) (some (e.stored name)) es
    return e.stored name :: rest

lemma encodeEntries_cons (h : encodeEntries version lastEntry (e :: es) = .ok b) :
    ∃ first others, encodeEntry version lastEntry e = .ok first ∧
      encodeEntries version (if version = 4 then some e else lastEntry) es = .ok others ∧
      b = first ++ (padEntry version e.length ++ others) := by
  obtain ⟨first, hfirst, h⟩ := bind_eq_ok_iff.mp h
  obtain ⟨others, hothers, h⟩ := bind_eq_ok_iff.mp h
  exact ⟨first, others, hfirst, hothers, (Except.ok.inj h).symm⟩

variable {l : List Entry}

lemma readBack_cons (h : readBack version lastEntry decoded (e :: es) = .ok l) :
    ∃ name rest, nameBack version lastEntry decoded e = .ok name ∧
      readBack version (if version = 4 then some e else lastEntry) (some (e.stored name)) es = .ok rest ∧
      l = e.stored name :: rest := by
  obtain ⟨name, hname, h⟩ := bind_eq_ok_iff.mp h
  obtain ⟨rest, hrest, h⟩ := bind_eq_ok_iff.mp h
  exact ⟨name, rest, hname, hrest, (Except.ok.inj h).symm⟩

lemma named_next (hlast : ∀ p ∈ lastEntry, p.Named) (he : e.Named) :
    ∀ p ∈ (if version = 4 then some e else lastEntry), p.Named := by
  split_ifs
  · rintro p ⟨⟩
    exact he
  · exact hlast

lemma readEntries_encodeEntries (hversion : version = 2 ∨ version = 3 ∨ version = 4)
    (haligned : ∀ e ∈ es, e.Aligned version) (hnamed : ∀ e ∈ es, e.Named) (hlast : ∀ p ∈ lastEntry, p.Named)
    (hb : encodeEntries version lastEntry es = .ok b) (decoded : Option Entry) (rest : Bytes) :
    readEntries version es.length decoded (b ++ rest) = (readBack version lastEntry decoded es).map (·, rest) := by
  induction es generalizing lastEntry decoded b with
  | nil =>
    cases hb
    rfl
  | cons e es ih =>
    obtain ⟨first, others, hfirst, hothers, rfl⟩ := encodeEntries_cons hb
    have he := hnamed e mem_cons_self
    have hread := readEntry_encodeEntry hversion (haligned e mem_cons_self) hlast he hfirst decoded (others ++ rest)
    rw [length_cons, readEntries, append_assoc, append_assoc, hread, readBack]
    cases hname : nameBack version lastEntry decoded e with
    | error f => rfl
    | ok name =>
      have htail := ih (fun e' h => haligned e' (mem_cons_of_mem _ h))
        (fun e' h => hnamed e' (mem_cons_of_mem _ h)) (named_next hlast he) hothers
        (some (e.stored name))
      simp only [Except.map, ok_bind, htail]
      cases readBack version (if version = 4 then some e else lastEntry) (some (e.stored name)) es <;> rfl

lemma readBack_stored
    (h : readBack version lastEntry decoded es = .ok l) : ∀ e ∈ l, ∃ e' ∈ es, ∃ name, e = Entry.stored e' name := by
  induction es generalizing lastEntry decoded l with
  | nil =>
    cases h
    simp
  | cons e es ih =>
    obtain ⟨name, rest, -, hrest, rfl⟩ := readBack_cons h
    intro e' he'
    rcases mem_cons.mp he' with rfl | he'
    · exact ⟨e, mem_cons_self, name, rfl⟩
    · obtain ⟨e'', hmem, name', rfl⟩ := ih hrest e' he'
      exact ⟨e'', mem_cons_of_mem _ hmem, name', rfl⟩

@[mk_iff]
structure Entry.Decodable (version : ℕ) (e : Entry) : Prop where
  format : e.hash.format = .sha1
  tail : e.hash.hash.drop 20 = List.replicate 12 0
  stage : 0 ≤ e.stage ∧ e.stage < 4
  createdAt : TimeFits e.createdAt
  modifiedAt : TimeFits e.modifiedAt
  name : version ≠ 4 → e.name.length ≤ 4095

instance {version : ℕ} : DecidablePred (Entry.Decodable version) := fun e =>
  decidable_of_iff' _ (Entry.decodable_iff version e)

lemma Entry.Decodable.aligned (h : e.Decodable version) : e.Aligned version :=
  ⟨h.format, h.name⟩

lemma storedTime_fits (t : Time) : TimeFits (storedTime t) := by
  have hsec := (UInt32.ofNat t.sec.toNat).toNat_lt
  have hnsec : (UInt32.ofNat t.nsec).toNat = t.nsec :=
    UInt32.toNat_ofNat_of_lt' (by have := t.nsec_lt; change _ < 2 ^ 32; omega)
  have hlt := t.nsec_lt
  rw [storedTime]
  split_ifs
  · exact .inl rfl
  · rw [decodeTime]
    split_ifs with hnot
    · refine .inr ⟨Int.natCast_nonneg _, ?_, ?_⟩
      · simp only [Time.unix, hnsec]
        omega
      · rintro ⟨hs, hn⟩
        simp only [Time.unix, hnsec] at hs hn
        rcases hnot with hnot | hnot <;> refine hnot (UInt32.toNat_inj.mp ?_)
        · change _ = 0
          omega
        · rw [hnsec]
          change _ = 0
          omega
    · exact .inl rfl

lemma TimeFits.stored (h : TimeFits t) : storedTime t = t := by
  rcases h with rfl | ⟨hpos, hlt, hepoch⟩
  · rfl
  · have hns := t.nsec_lt
    have hsec : (UInt32.ofNat t.sec.toNat).toNat = t.sec.toNat :=
      UInt32.toNat_ofNat_of_lt' (by change _ < 2 ^ 32; omega)
    have hnsec : (UInt32.ofNat t.nsec).toNat = t.nsec :=
      UInt32.toNat_ofNat_of_lt' (by change _ < 2 ^ 32; omega)
    have hzero : ¬ t.isZero = true := by
      intro hz
      have : t.sec = -62135596800 := congrArg Time.sec (of_decide_eq_true hz)
      omega
    have hsome : UInt32.ofNat t.sec.toNat ≠ 0 ∨ UInt32.ofNat t.nsec ≠ 0 := by
      by_contra hboth
      push Not at hboth
      have h1 := congrArg UInt32.toNat hboth.1
      have h2 := congrArg UInt32.toNat hboth.2
      rw [hsec] at h1
      rw [hnsec] at h2
      change _ = 0 at h1 h2
      exact hepoch ⟨by omega, h2⟩
    rw [storedTime, if_neg hzero, decodeTime, if_pos hsome]
    obtain ⟨sec, nsec, hbound⟩ := t
    simp only [Time.unix, Time.mk.injEq]
    rw [hsec, hnsec]
    dsimp only at hpos hns ⊢
    exact ⟨by omega, Nat.mod_eq_of_lt hns⟩

lemma Entry.Decodable.stored (h : e.Decodable version) : e.stored e.name = e := by
  have hstage : e.stage % 4 = e.stage := Int.emod_eq_of_lt h.stage.1 h.stage.2
  rw [Entry.stored, storedHash, ObjectID.IsSHA1.write_bytes ⟨h.format, h.tail⟩, h.createdAt.stored,
    h.modifiedAt.stored, hstage]

lemma Entry.stored_decodable {name : Bytes} (hsha : e.hash.format = .sha1)
    (hname : version ≠ 4 → name.length ≤ 4095) : (e.stored name).Decodable version where
  format := rfl
  tail := by
    change (storedHash e.hash).hash.drop 20 = _
    rw [storedHash, ObjectID.hash_write_bytes hsha, drop_left' (ObjectID.length_bytes hsha)]
  stage := by
    simp only [Entry.stored]
    omega
  createdAt := storedTime_fits e.createdAt
  modifiedAt := storedTime_fits e.modifiedAt
  name := hname

lemma lift_eq_ok {α : Type} {x : Except IoError α} {a : α} : lift x = .ok a ↔ x = .ok a := by
  cases x <;> simp [lift, Except.mapError]

lemma readFull_length {s b rest : Bytes} {n : ℕ} (h : Stream.readFull s n = .ok (b, rest)) : b.length = n := by
  rw [Stream.readFull, split] at h
  by_cases hn : n ≤ s.length
  · rw [if_pos hn] at h
    simp only [Except.ok.injEq, Prod.mk.injEq] at h
    rw [← h.1, length_take]
    omega
  · rw [if_neg hn] at h
    cases h

variable {s : Bytes}

lemma readHash_format {h : ObjectID} (hread : readHash s = .ok (h, rest)) : h.format = .sha1 := by
  rw [readHash] at hread
  split at hread
  · cases hread
    rfl
  · cases hread

lemma readEntryName_length {version flags : ℕ} {s name rest : Bytes}
    (h : readEntryName version decoded flags s = .ok (name, rest)) (h4 : version ≠ 4) : name.length ≤ 4095 := by
  rw [readEntryName.eq_def] at h
  split at h
  · have hlen := readFull_length (lift_eq_ok.mp h)
    rw [hlen]
    exact Nat.and_le_right
  · have hlen := readFull_length (lift_eq_ok.mp h)
    rw [hlen]
    exact Nat.and_le_right
  · exact absurd rfl h4
  · cases h

lemma readEntry_aligned (h : readEntry version decoded s = .ok (e, rest)) : e.Aligned version := by
  -- the ten words, the name of the object, the flags, the name, and the padding
  iterate 10 obtain ⟨_, -, h⟩ := bind_eq_ok_iff.mp h
  obtain ⟨⟨hash, _⟩, hhash, h⟩ := bind_eq_ok_iff.mp h
  obtain ⟨_, -, h⟩ := bind_eq_ok_iff.mp h
  obtain ⟨_, -, h⟩ := bind_eq_ok_iff.mp h
  obtain ⟨⟨name, _⟩, hname, h⟩ := bind_eq_ok_iff.mp h
  obtain ⟨_, -, h⟩ := bind_eq_ok_iff.mp h
  cases h
  exact ⟨readHash_format hhash, readEntryName_length hname⟩

lemma readEntries_aligned {version n : ℕ}
    (h : readEntries version n decoded s = .ok (es, rest)) : es.length = n ∧ ∀ e ∈ es, e.Aligned version := by
  induction n generalizing decoded s es with
  | zero =>
    cases h
    simp
  | succ n ih =>
    obtain ⟨⟨e, s'⟩, he, h⟩ := bind_eq_ok_iff.mp h
    obtain ⟨⟨es', _⟩, hes, h⟩ := bind_eq_ok_iff.mp h
    cases h
    obtain ⟨hlen, haligned⟩ := ih hes
    refine ⟨by rw [length_cons, hlen], ?_⟩
    exact forall_mem_cons.mpr ⟨readEntry_aligned he, haligned⟩

section

variable {sha1 : Bytes → Bytes} {order : List ℕ → List ℕ}

lemma Decode_aligned {data : Bytes} {idx : Index} {x : Extensions} (h : Decode order sha1 data = .ok (idx, x)) :
    idx.entries.length < 2 ^ 32 ∧ ∀ e ∈ idx.entries, e.Aligned idx.version.toNat := by
  obtain ⟨⟨version, _⟩, -, h⟩ := bind_eq_ok_iff.mp h
  obtain ⟨⟨count, _⟩, -, h⟩ := bind_eq_ok_iff.mp h
  obtain ⟨⟨es, _⟩, hes, h⟩ := bind_eq_ok_iff.mp h
  obtain ⟨_, -, h⟩ := bind_eq_ok_iff.mp h
  cases h
  obtain ⟨hlen, haligned⟩ := readEntries_aligned hes
  exact ⟨hlen ▸ count.toNat_lt, haligned⟩

lemma readExtensions_checksum (hsha1 : ∀ b, (sha1 b).length = 20) (written : Bytes) (fuel : ℕ) :
    readExtensions order sha1 (written ++ sha1 written) (fuel + 1) {} (sha1 written) = .ok {} := by
  have hlen := hsha1 written
  have htake : (written ++ sha1 written).take ((written ++ sha1 written).length - (sha1 written).length) =
      written := by
    rw [length_append, Nat.add_sub_cancel, take_left]
  have hread : readHash (sha1 written) = .ok (ObjectID.zeroHash.write (sha1 written), []) := by
    have hfull := Stream.readFull_append hlen []
    rw [append_nil] at hfull
    rw [readHash, hfull]
  have hbytes : (ObjectID.zeroHash.write (sha1 written)).bytes = sha1 written := by
    have h32 : (sha1 written).take 32 = sha1 written := take_of_length_le (by omega)
    change ((sha1 written).take 32 ++ (List.replicate 32 0).drop (sha1 written).length).take 20 = _
    rw [h32, take_left' hlen]
  rw [readExtensions, htake]
  simp only [hlen, hread, hbytes, ok_bind, pure_ok]
  simp

lemma Decode_written (hsha1 : ∀ b, (sha1 b).length = 20) {version : UInt32}
    (hversion : version.toNat = 2 ∨ version.toNat = 3 ∨ version.toNat = 4)
    (hcount : es.length < 2 ^ 32) (haligned : ∀ e ∈ es, e.Aligned version.toNat)
    (hnamed : ∀ e ∈ es, e.Named) {body written : Bytes} (hbody : encodeEntries version.toNat none es = .ok body)
    (hwritten : written = indexSignature ++ (digits 4 version.toNat ++ (digits 4 es.length ++ body))) :
    Decode order sha1 (written ++ sha1 written) =
      (readBack version.toNat none none es).map fun l => (⟨version, l⟩, {}) := by
  have hlen : (UInt32.ofNat es.length).toNat = es.length := UInt32.toNat_ofNat_of_lt' hcount
  have hcountRead := fun rest => Stream.readUint32_digits (UInt32.ofNat es.length) rest
  rw [hlen] at hcountRead
  have hsplit : written ++ sha1 written = indexSignature ++ (digits 4 version.toNat ++
      (digits 4 es.length ++ (body ++ sha1 written))) := by
    rw [hwritten]
    simp only [append_assoc]
  have hheader : validateHeader (written ++ sha1 written) =
      .ok (version, digits 4 es.length ++ (body ++ sha1 written)) := by
    have hlow : 1 < version.toNat := by omega
    have hhigh : version.toNat ≤ 4 := by omega
    rw [hsplit, validateHeader]
    simp [lift, Except.mapError, hlow, hhigh, Stream.readFull_append (show indexSignature.length = 4 by rfl)]
  have hentries := readEntries_encodeEntries hversion haligned hnamed (by simp) hbody none (sha1 written)
  have hend : readExtensions order sha1 (written ++ sha1 written) ((written ++ sha1 written).length + 1)
      {} (sha1 written) = .ok {} := readExtensions_checksum hsha1 written _
  simp only [Decode, hheader, bind, Except.bind, lift, hcountRead, Except.mapError, hlen, hentries]
  cases readBack version.toNat none none es with
  | error f => rfl
  | ok l =>
    simp only [Except.map, hend]
    rfl

end

/-- The name up to the last slash, as the encoder cleans it. -/
def Entry.dir (e : Entry) : Bytes := pathDir e.name ++ [slash]

/-- The part of the last name the encoder leaves out is a part of that name. -/
def Follows (last e : Entry) : Prop := last.dir <+: e.name → last.dir <+: last.name

instance : DecidableRel Follows := fun _ _ => inferInstanceAs (Decidable (_ → _))

lemma cutName_some (last e : Entry) : cutName (some last) e = if last.dir <+: e.name then
      ((last.name.length : ℤ) - last.dir.length, e.name.drop last.dir.length) else (last.name.length, e.name) := by
  rw [cutName]
  by_cases h : last.dir <+: e.name
  · rw [if_pos h]
    exact if_pos (List.isPrefixOf_iff_prefix.mpr h)
  · rw [if_neg h]
    exact if_neg (mt isPrefixOf_iff_prefix.mp h)

lemma Follows.cutName_nonneg {last e : Entry} (h : Follows last e) : 0 ≤ (cutName (some last) e).1 := by
  rw [cutName_some]
  split_ifs with hdir
  · have := (h hdir).length_le
    simp only
    omega
  · exact Int.natCast_nonneg _

lemma Follows.nameBack {last e : Entry} (h : Follows last e) : nameBack 4 (some last) (some last) e = .ok e.name := by
  rw [IndexFormat.nameBack, if_pos rfl, cutName_some]
  split_ifs with hdir
  · have hle := (h hdir).length_le
    have hkeep : last.name.length - ((last.name.length : ℤ) - last.dir.length).toNat = last.dir.length := by
      omega
    have htake : last.name.take last.dir.length = last.dir := (prefix_iff_eq_take.mp (h hdir)).symm
    have hname : last.dir ++ e.name.drop last.dir.length = e.name := by
      conv_rhs => rw [← take_append_drop last.dir.length e.name, ← prefix_iff_eq_take.mp hdir]
    simp only
    rw [if_neg (by omega), hkeep, htake, hname]
  · simp

lemma append_lt_append {a d u t : Bytes} (hlen : a.length = d.length) (hne : a ≠ d)
    (h : ¬ d ++ t < a ++ u) : a ++ t < d ++ t := by
  induction a generalizing d with
  | nil => exact absurd (length_eq_zero_iff.mp hlen.symm).symm hne
  | cons x a ih =>
    cases d with
    | nil => simp at hlen
    | cons y d =>
      simp only [cons_append, cons_lt_cons_iff, not_or, not_and] at h ⊢
      rcases lt_trichotomy x y with hxy | rfl | hxy
      · exact .inl hxy
      · refine .inr ⟨rfl, ih (by simpa using hlen) ?_ (h.2 rfl)⟩
        rintro rfl
        exact hne rfl
      · exact absurd hxy h.1

lemma nameBack_lt {last e : Entry} {name : Bytes} (hnot : ¬ Follows last e)
    (hsorted : ¬ e.name < last.name) (hcut : 0 ≤ (cutName (some last) e).1)
    (hname : nameBack 4 (some last) (some last) e = .ok name) : name < e.name := by
  simp only [Follows, Classical.not_imp] at hnot
  obtain ⟨hdir, hlast⟩ := hnot
  rw [cutName_some, if_pos hdir] at hcut
  rw [nameBack, if_pos rfl, cutName_some, if_pos hdir] at hname
  simp only at hcut hname
  have hkeep : last.name.length - ((last.name.length : ℤ) - last.dir.length).toNat = last.dir.length := by
    omega
  rw [if_neg (by omega), hkeep] at hname
  have hsplit : e.name = last.dir ++ e.name.drop last.dir.length := by
    conv_lhs => rw [← take_append_drop last.dir.length e.name, ← prefix_iff_eq_take.mp hdir]
  have hne : last.name.take last.dir.length ≠ last.dir := by
    intro heq
    exact hlast (prefix_iff_eq_take.mpr heq.symm)
  have hlen : (last.name.take last.dir.length).length = last.dir.length := by
    rw [length_take]
    omega
  have hbefore : ¬ last.dir ++ e.name.drop last.dir.length <
      last.name.take last.dir.length ++ last.name.drop last.dir.length := by
    rw [← hsplit, take_append_drop]
    exact hsorted
  have hlt := append_lt_append hlen hne hbefore
  rw [← hsplit] at hlt
  rwa [← Except.ok.inj hname]

lemma Entry.Decodable.encodeEntry (hversion : version = 2 ∨ version = 3 ∨ version = 4) (h : e.Decodable version)
    (hfollows : version = 4 → ∀ p ∈ lastEntry, Follows p e) : ∃ b, encodeEntry version lastEntry e = .ok b := by
  obtain ⟨created, hcreated⟩ := h.createdAt.timeToUint32
  obtain ⟨modified, hmodified⟩ := h.modifiedAt.timeToUint32
  simp only [IndexFormat.encodeEntry, hcreated, hmodified, ok_bind, pure_ok]
  rcases hversion with rfl | rfl | rfl
  · exact ⟨_, rfl⟩
  · exact ⟨_, rfl⟩
  · have hcut : 0 ≤ (cutName lastEntry e).1 := by
      cases lastEntry with
      | none => exact le_rfl
      | some p => exact (hfollows rfl p rfl).cutName_nonneg
    simp only [encodeEntryNameV4, if_neg (not_lt.mpr hcut)]
    exact ⟨_, rfl⟩

/-- The entry before the first one, where there is one, and the others follow each other. -/
def Chained (version : ℕ) (lastEntry : Option Entry) (es : List Entry) : Prop :=
  version = 4 → (lastEntry.toList ++ es).IsChain Follows

lemma Chained.tail
    (h : Chained version lastEntry (e :: es)) : Chained version (if version = 4 then some e else lastEntry) es := by
  intro h4
  rw [if_pos h4]
  exact (h h4).right_of_append

lemma Chained.head (h : Chained version lastEntry (e :: es)) (h4 : version = 4) : ∀ p ∈ lastEntry, Follows p e := by
  rintro p ⟨⟩
  exact (isChain_cons_cons.mp (h h4)).1

lemma nameBack_of_follows
    (hdecoded : version = 4 → decoded = lastEntry) (hfollows : version = 4 → ∀ p ∈ lastEntry, Follows p e) :
    nameBack version lastEntry decoded e = .ok e.name := by
  by_cases h4 : version = 4
  · rw [hdecoded h4]
    subst h4
    cases lastEntry with
    | none => rfl
    | some p => exact (hfollows rfl p rfl).nameBack
  · rw [nameBack, if_neg h4]

lemma encodeEntries_readBack (hversion : version = 2 ∨ version = 3 ∨ version = 4)
    (hdecodable : ∀ e ∈ es, e.Decodable version)
    (hdecoded : version = 4 → decoded = lastEntry) (hchain : Chained version lastEntry es) :
    (∃ b, encodeEntries version lastEntry es = .ok b) ∧ readBack version lastEntry decoded es = .ok es := by
  induction es generalizing lastEntry decoded with
  | nil => exact ⟨⟨_, rfl⟩, rfl⟩
  | cons e es ih =>
    have he := hdecodable e mem_cons_self
    obtain ⟨first, hfirst⟩ := he.encodeEntry hversion hchain.head
    have hname := nameBack_of_follows hdecoded hchain.head
    have hnext : version = 4 → some (e.stored e.name) = if version = 4 then some e else lastEntry := by
      intro h4
      rw [if_pos h4, he.stored]
    obtain ⟨⟨others, hothers⟩, hback⟩ :=
      ih (fun e' h => hdecodable e' (mem_cons_of_mem _ h)) hnext hchain.tail
    rw [he.stored] at hback
    refine ⟨⟨first ++ (padEntry version e.length ++ others), ?_⟩, ?_⟩
    · simp only [encodeEntries, hfirst, hothers, ok_bind, pure_ok]
    · simp only [readBack, hname, ok_bind, pure_ok, he.stored, hback]

lemma encodeEntry_cutName (hb : encodeEntry 4 lastEntry e = .ok b) : 0 ≤ (cutName lastEntry e).1 := by
  obtain ⟨_, _, name, -, -, -, hname, -⟩ := encodeEntry_ok (.inr (.inr rfl)) hb
  have hname := hname rfl
  rw [encodeEntryNameV4] at hname
  by_contra hneg
  simp only [if_pos (not_le.mp hneg)] at hname
  cases hname

lemma chain_of_readBack (hdecodable : ∀ e ∈ es, e.Decodable 4)
    (hsorted : (lastEntry.toList ++ es).Pairwise fun p e => ¬ e.name < p.name)
    (hb : encodeEntries 4 lastEntry es = .ok b) (hback : readBack 4 lastEntry lastEntry es = .ok l)
    (hperm : l.Perm es) : (lastEntry.toList ++ es).IsChain Follows := by
  induction es generalizing lastEntry b l with
  | nil => cases lastEntry <;> simp
  | cons e es ih =>
    obtain ⟨first, others, hfirst, hothers, -⟩ := encodeEntries_cons hb
    obtain ⟨name, rest, hname, hrest, rfl⟩ := readBack_cons hback
    have hleast : ∀ e' ∈ e :: es, ¬ e'.name < e.name := by
      exact forall_mem_cons.mpr ⟨lt_irrefl _, fun e' he' => rel_of_pairwise_cons (pairwise_append.mp hsorted).2.1 he'⟩
    have hfollows : ∀ p ∈ lastEntry, Follows p e := by
      rintro p ⟨⟩
      by_contra hnot
      have hpe : ¬ e.name < p.name := rel_of_pairwise_cons hsorted mem_cons_self
      have hlt := nameBack_lt hnot hpe (encodeEntry_cutName hfirst) hname
      exact hleast _ (hperm.mem_iff.mp mem_cons_self) hlt
    have hsame : name = e.name := by
      rw [nameBack_of_follows (fun _ => rfl) (fun _ => hfollows)] at hname
      exact (Except.ok.inj hname).symm
    have hstored : e.stored name = e := by
      rw [hsame, (hdecodable e mem_cons_self).stored]
    rw [hstored] at hrest hperm
    have hrestSorted : ((some e).toList ++ es).Pairwise fun p e => ¬ e.name < p.name :=
      (pairwise_append.mp hsorted).2.1
    have htail := ih (fun e' h => hdecodable e' (mem_cons_of_mem _ h)) hrestSorted hothers hrest hperm.cons_inv
    cases lastEntry with
    | none => exact htail
    | some p => exact isChain_cons_cons.mpr ⟨hfollows p rfl, htail⟩

section

variable (sort : (Entry → Entry → Bool) → List Entry → List Entry) (sha1 : Bytes → Bytes)
  (order : List ℕ → List ℕ)

def byName (es : List Entry) : List Entry := sort (fun a b => a.name < b.name) es

/-- The index is written, and what is written is read as the same version and entries. -/
def RoundTrips (idx : Index) : Prop :=
  ∃ data idx' x, Encode sort sha1 idx = .ok data ∧ Decode order sha1 data = .ok (idx', x) ∧
    idx'.version = idx.version ∧ idx'.entries.Perm idx.entries

variable {sort sha1 order}

lemma Encode_eq (idx : Index) (hversion : idx.version.toNat ≤ 4) :
    Encode sort sha1 idx = (encodeEntries idx.version.toNat none (byName sort idx.entries)).map fun body =>
      let written := indexSignature ++ (digits 4 idx.version.toNat ++ (digits 4 idx.entries.length ++ body))
      written ++ sha1 written := by
  rw [Encode, if_neg (not_lt.mpr hversion)]
  simp only [byName, pure_ok]
  cases encodeEntries idx.version.toNat none (sort (fun a b => a.name < b.name) idx.entries) <;> rfl

lemma byName_perm (hsort : Idx.Sorts sort) (es : List Entry) : (byName sort es).Perm es :=
  (hsort _ es).1

lemma byName_sorted (hsort : Idx.Sorts sort) (es : List Entry) :
    (byName sort es).Pairwise fun p e => ¬ e.name < p.name := by
  have hless : ∀ a b : Entry, decide (a.name < b.name) = true ↔ a.name < b.name := by simp
  exact (hsort.key Entry.name hless es).imp fun h => not_lt.mpr h

/-- An index comes back exactly if its entries can be counted, every field has a place in the file,
and in version 4 the entries follow each other. -/
theorem Decode_Encode_iff (hsort : Idx.Sorts sort) (hsha1 : ∀ b, (sha1 b).length = 20) (idx : Index)
    (hversion : idx.version.toNat = 2 ∨ idx.version.toNat = 3 ∨ idx.version.toNat = 4)
    (hnamed : ∀ e ∈ idx.entries, e.Named) : RoundTrips sort sha1 order idx ↔
      idx.entries.length < 2 ^ 32 ∧ (∀ e ∈ idx.entries, e.Decodable idx.version.toNat) ∧
        (idx.version.toNat = 4 → (byName sort idx.entries).IsChain Follows) := by
  have hperm := byName_perm hsort idx.entries
  have hencode := @Encode_eq sort sha1 idx (by omega)
  have hnamed' : ∀ e ∈ byName sort idx.entries, e.Named := fun e he => hnamed e (hperm.mem_iff.mp he)
  constructor
  · rintro ⟨data, idx', x, hdata, hdecode, hsame, hback⟩
    obtain ⟨hcount, haligned⟩ := Decode_aligned hdecode
    rw [hback.length_eq] at hcount
    rw [hsame] at haligned
    have haligned' : ∀ e ∈ byName sort idx.entries, e.Aligned idx.version.toNat := fun e he =>
      haligned e (hback.mem_iff.mpr (hperm.mem_iff.mp he))
    cases hbody : encodeEntries idx.version.toNat none (byName sort idx.entries) with
    | error f =>
      rw [hencode, hbody] at hdata
      cases hdata
    | ok body =>
      rw [hencode, hbody] at hdata
      cases hdata
      rw [← hperm.length_eq] at hcount hdecode
      rw [Decode_written hsha1 hversion hcount haligned' hnamed' hbody rfl] at hdecode
      cases hread : readBack idx.version.toNat none none (byName sort idx.entries) with
      | error f =>
        rw [hread] at hdecode
        cases hdecode
      | ok l =>
        rw [hread] at hdecode
        cases hdecode
        have hdecodable : ∀ e ∈ idx.entries, e.Decodable idx.version.toNat := by
          intro e he
          have hmem := hback.mem_iff.mpr he
          obtain ⟨e', he', name, rfl⟩ := readBack_stored hread e hmem
          exact Entry.stored_decodable (haligned' e' he').1 (haligned _ hmem).2
        refine ⟨by rwa [hperm.length_eq] at hcount, hdecodable, ?_⟩
        intro h4
        rw [h4] at hbody hread hdecodable
        exact @chain_of_readBack none _ _ _ (fun e he => hdecodable e (hperm.mem_iff.mp he))
          (byName_sorted hsort idx.entries) hbody hread (hback.trans hperm.symm)
  · rintro ⟨hcount, hdecodable, hchain⟩
    have hdecodable' : ∀ e ∈ byName sort idx.entries, e.Decodable idx.version.toNat := fun e he =>
      hdecodable e (hperm.mem_iff.mp he)
    obtain ⟨⟨body, hbody⟩, hread⟩ :=
      @encodeEntries_readBack _ none none _ hversion hdecodable' (fun _ => rfl) hchain
    rw [← hperm.length_eq] at hcount
    have hdecode := @Decode_written sha1 order _ hsha1 _ hversion hcount
      (fun e he => (hdecodable' e he).aligned) hnamed' _ _ hbody rfl
    rw [hread, hperm.length_eq] at hdecode
    refine ⟨_, _, _, by rw [hencode, hbody]; rfl, hdecode, rfl, hperm⟩

end

/-- Three files, two of them in one directory, with stages, times and extended flags. -/
def threeFiles : Index where
  version := 4
  entries := [
    { name := [0x73, 0x72, 0x63, 0x2f, 0x62, 0x2e, 0x67, 0x6f], hash := Idx.nameOf 0x22, stage := 2
      mode := 0o100644, size := 7, createdAt := ⟨1700000000, 5, by norm_num⟩
      modifiedAt := ⟨1700000001, 6, by norm_num⟩ },
    { name := [0x73, 0x72, 0x63, 0x2f, 0x61, 0x2e, 0x67, 0x6f], hash := Idx.nameOf 0x11
      skipWorktree := true },
    { name := [0x74, 0x6f, 0x70], intentToAdd := true }]

def threeFilesSha1 (_ : Bytes) : Bytes :=
  [82, 194, 30, 5, 132, 163, 164, 187, 68, 50, 133, 123, 11, 59, 175, 45, 130, 90, 21, 190]

theorem Decode_Encode_threeFiles : RoundTrips Idx.sortBy threeFilesSha1 id threeFiles := by
  exact (Decode_Encode_iff Idx.sorts_sortBy (fun _ => rfl) threeFiles (by decide) (by decide)).mpr
    ⟨by decide, by decide, fun _ => by decide +kernel⟩

/-- An index as a caller may build it: distinct entries under relative names, times that can be
stored, and extended flags only where the version has them. -/
@[mk_iff]
structure Index.Admissible (idx : Index) : Prop where
  version : 2 ≤ idx.version.toNat ∧ idx.version.toNat ≤ 4
  distinct : (idx.entries.map fun e => (e.name, e.stage)).Nodup
  name : ∀ e ∈ idx.entries, e.name ≠ [] ∧ e.name.head? ≠ some slash ∧ 0 ∉ e.name
  times : ∀ e ∈ idx.entries, TimeFits e.createdAt ∧ TimeFits e.modifiedAt
  extended : ∀ e ∈ idx.entries, e.extended = true → 3 ≤ idx.version.toNat

instance : DecidablePred Index.Admissible := fun idx => decidable_of_iff' _ (Index.admissible_iff idx)

def longName : Index where
  version := 2
  entries := [{ name := List.replicate 4096 0x61 }]

def longNameSha1 (_ : Bytes) : Bytes :=
  [240, 240, 78, 2, 134, 13, 150, 26, 178, 192, 62, 7, 178, 151, 159, 205, 105, 86, 69, 6]

theorem Decode_Encode_longName : longName.Admissible ∧ ¬ RoundTrips Idx.sortBy longNameSha1 id longName := by
  refine ⟨by decide +kernel, ?_⟩
  rintro ⟨data, idx', x, -, hdecode, hsame, hperm⟩
  have hmem := hperm.mem_iff.mpr mem_cons_self
  have hshort := ((Decode_aligned hdecode).2 _ hmem).2
  rw [hsame] at hshort
  have hlen : (List.replicate 4096 (0x61 : UInt8)).length ≤ 4095 := hshort (by decide)
  rw [length_replicate] at hlen
  omega

/-- The order of the format: by name, and for one name by stage. -/
def Entry.Before (a b : Entry) : Prop := a.name < b.name ∨ a.name = b.name ∧ a.stage ≤ b.stage

instance : DecidableRel Entry.Before := fun a b =>
  inferInstanceAs (Decidable (a.name < b.name ∨ a.name = b.name ∧ a.stage ≤ b.stage))

lemma stages_of_before {es : List Entry} (h : (byName Idx.sortBy es).Pairwise Entry.Before) :
    es.Pairwise fun a b => a.name = b.name → a.stage ≤ b.stage := by
  rw [pairwise_iff_forall_sublist] at h ⊢
  intro a b hab hname
  have hle : (!decide (b.name < a.name)) = true := by simp [hname]
  obtain hlt | ⟨-, hstage⟩ := h (pair_sublist_insertionSort hle hab)
  · exact absurd hlt (by simp [hname])
  · exact hstage

/-- Entries of one name are written in the order of their stages, whatever `sort.Sort` does with them,
exactly if they all have one stage: the comparison does not look at it. -/
theorem byName_before_iff (idx : Index) : (∀ sort, Idx.Sorts sort → (byName sort idx.entries).Pairwise Entry.Before) ↔
      ∀ a ∈ idx.entries, ∀ b ∈ idx.entries, a.name = b.name → a.stage = b.stage := by
  constructor
  · intro h
    have hleft := stages_of_before (h Idx.sortBy Idx.sorts_sortBy)
    have hreverse : Idx.Sorts (α := Entry) fun less l => Idx.sortBy less l.reverse := fun less l =>
      ⟨(Idx.sorts_sortBy less _).1.trans (reverse_perm l), (Idx.sorts_sortBy less _).2⟩
    have hright := pairwise_reverse.mp (stages_of_before (h _ hreverse))
    have hle := Pairwise.forall_of_forall_of_flip (fun _ _ _ => le_rfl) hleft hright
    exact fun a ha b hb hname => le_antisymm (hle ha hb hname) (hle hb ha hname.symm)
  · intro h sort hsort
    have hperm := byName_perm hsort idx.entries
    refine (byName_sorted hsort idx.entries).imp_of_mem fun {a b} ha hb hab => ?_
    rcases (not_lt.mp hab).lt_or_eq with hlt | heq
    · exact .inl hlt
    · exact .inr ⟨heq, (h a (hperm.mem_iff.mp ha) b (hperm.mem_iff.mp hb) heq).le⟩

/-- One path with its versions of both sides of a merge, the second one first. -/
def conflict : Index := { entries := [{ name := [0x61], stage := 3 }, { name := [0x61], stage := 2 }] }

theorem byName_conflict : Idx.Sorts (α := Entry) Idx.sortBy ∧
    ¬ (byName Idx.sortBy conflict.entries).Pairwise Entry.Before :=
  ⟨Idx.sorts_sortBy, by decide +kernel⟩

end GoGit.IndexFormat
