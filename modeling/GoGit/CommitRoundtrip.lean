import GoGit.CommitRender

namespace GoGit

open List

section Characters

def Visible (b : UInt8) : Prop := 0x21 ≤ b ∧ b < 0x80

instance : DecidablePred Visible := fun b => inferInstanceAs (Decidable (0x21 ≤ b ∧ b < 0x80))

lemma Visible.ne_feed {b : UInt8} (h : Visible b) : b ≠ 0x0a := by
  rintro rfl
  exact absurd h.1 (by decide)

lemma trimEnd_of_visible {l : Bytes} {b : UInt8} (h : Visible b) : Trim.trimEnd (l ++ [b]) = l ++ [b] := by
  rw [Trim.trimEnd_eq_self_iff]
  have hlast : ∀ t ∈ Trim.spaces, ¬ Visible (t.getLastD 0) := by decide
  rintro t ht ⟨a, hab⟩
  obtain ⟨u, x, rfl⟩ := (eq_nil_or_concat' t).resolve_left (Trim.spaces_ne_nil t ht)
  rw [← append_assoc] at hab
  obtain rfl : x = b := by simpa using congrArg List.getLast? hab
  exact hlast _ ht (by simpa using h)

lemma visible_digit (c : Char) (h : c.isDigit = true) : Visible (UInt8.ofNat c.toNat) := by
  have hc : 48 ≤ c.toNat ∧ c.toNat ≤ 57 := by
    simpa [Char.isDigit, UInt32.le_iff_toNat_le] using h
  obtain ⟨hlo, hhi⟩ := hc
  interval_cases c.toNat <;> decide

lemma formatInt_natCast (n : ℕ) : formatInt n = (Nat.toDigits 10 n).map fun c => UInt8.ofNat c.toNat := rfl

lemma visible_formatInt (n : ℕ) : ∀ b ∈ formatInt n, Visible b := by
  intro b hb
  rw [formatInt_natCast] at hb
  obtain ⟨c, hc, rfl⟩ := mem_map.mp hb
  exact visible_digit c (Nat.isDigit_of_mem_toDigits (by omega) le_rfl hc)

lemma formatInt_ne_nil (n : ℕ) : formatInt n ≠ [] := by
  rw [formatInt_natCast, ne_eq, map_eq_nil_iff]
  exact Nat.toDigits_ne_nil

lemma visible_hex (l : Bytes) : ∀ b ∈ Hex.encode l, Visible b := by
  intro b hb
  rcases Hex.isDigit_of_mem_encode hb with ⟨hlo, hhi⟩ | ⟨hlo, hhi⟩
  · exact ⟨UInt8.le_trans (by decide) hlo, UInt8.lt_of_le_of_lt hhi (by decide)⟩
  · exact ⟨UInt8.le_trans (by decide) hlo, UInt8.lt_of_le_of_lt hhi (by decide)⟩

end Characters

namespace Signature

lemma visible_twoDigits (n : ℕ) : ∀ b ∈ twoDigits n, Visible b := by
  intro b hb
  rcases mem_append.mp hb with hb | hb
  · rw [(mem_replicate.mp hb).2]
    exact ⟨by decide, by decide⟩
  · exact visible_formatInt n b hb

lemma encodeTimeAndTimeZone_spec (s : Signature) : 0x0a ∉ s.encodeTimeAndTimeZone ∧
    ∃ l b, s.encodeTimeAndTimeZone = l ++ [b] ∧ Visible b := by
  obtain ⟨n, hn⟩ : ∃ n : ℕ, (if s.when.sec < 0 then 0 else s.when.sec) = n := by
    refine Int.eq_ofNat_of_zero_le ?_
    split_ifs <;> omega
  have hfeed : ∀ l : Bytes, (∀ b ∈ l, Visible b) → 0x0a ∉ l :=
    fun l hl hin => (hl _ hin).ne_feed rfl
  set minutes := s.zone.tdiv 60
  have hzone : s.encodeTimeAndTimeZone = formatInt n ++ [0x20] ++ (if minutes < 0 then 0x2d else 0x2b) ::
      (twoDigits (minutes.natAbs / 60) ++ twoDigits (minutes.natAbs % 60)) := by
    rw [encodeTimeAndTimeZone, hn]
    rfl
  have hsign : (0x0a : UInt8) ≠ if minutes < 0 then 0x2d else 0x2b := by split_ifs <;> decide
  constructor
  · rw [hzone]
    simp [hfeed _ (visible_formatInt n), hfeed _ (visible_twoDigits _), hsign]
  · have hne : twoDigits (minutes.natAbs % 60) ≠ [] :=
      append_ne_nil_of_right_ne_nil _ (formatInt_ne_nil _)
    refine ⟨formatInt n ++ [0x20] ++ (if minutes < 0 then 0x2d else 0x2b) ::
      (twoDigits (minutes.natAbs / 60) ++ (twoDigits (minutes.natAbs % 60)).dropLast),
      (twoDigits (minutes.natAbs % 60)).getLast hne, ?_, ?_⟩
    · rw [hzone]
      simp [dropLast_append_getLast]
    · exact visible_twoDigits _ _ (getLast_mem hne)

lemma trimEnd_encode (s : Signature) : Trim.trimEnd s.encode = s.encode := by
  obtain ⟨-, l, b, hl, hb⟩ := s.encodeTimeAndTimeZone_spec
  rw [encode, hl, ← append_assoc]
  exact trimEnd_of_visible hb

def OneLine (s : Signature) : Prop := 0x0a ∉ s.name ∧ 0x0a ∉ s.email

variable {s : Signature}

lemma OneLine.encode (h : s.OneLine) : 0x0a ∉ s.encode := by
  have := s.encodeTimeAndTimeZone_spec.1
  simp [Signature.encode, h.1, h.2, this]

lemma OneLine.decode (h : s.OneLine) {b : Bytes} (hb : 0x0a ∉ b) : (s.decode b).OneLine := by
  have htime : ∀ (s : Signature) (b : Bytes), s.OneLine → (s.decodeTimeAndTimeZone b).OneLine := by
    intro s b hs
    have hzone : ∀ (s : Signature) (b : Bytes), s.OneLine → (s.decodeTimeZone b).OneLine := by
      intro s b hs
      unfold decodeTimeZone
      split <;> exact hs
    unfold decodeTimeAndTimeZone
    dsimp only
    split
    · exact hs
    · split_ifs
      · exact hs
      · exact hzone _ _ hs
  unfold Signature.decode
  split
  · rename_i opened closed _ _
    have hline : ({ s with
        name := trimByte 0x20 (b.take opened),
        email := (b.take closed).drop (opened + 1) } : Signature).OneLine := by
      refine ⟨fun hin => hb ?_, fun hin => hb ?_⟩
      · exact take_subset _ _ ((dropWhile_suffix _).subset ((List.rdropWhile_prefix _ _).subset hin))
      · exact take_subset _ _ (drop_subset _ _ hin)
    dsimp only
    split_ifs
    · exact h
    · exact htime _ _ hline
    · exact hline
  · exact h

end Signature

namespace Commit

section OneLine

def OneLine (c : Commit) : Prop := c.author.OneLine ∧ c.committer.OneLine

instance : DecidablePred OneLine := fun _ => inferInstanceAs (Decidable ((_ ∧ _) ∧ _ ∧ _))

lemma splitBlank_subset (line : Bytes) : (splitBlank line).2.getD [] ⊆ line := by
  intro b hb
  have happend := takeWhile_append_dropWhile (p := (· ≠ (0x20 : UInt8))) (l := line)
  rw [splitBlank, span_eq_takeWhile_dropWhile] at hb
  cases hdrop : line.dropWhile (· ≠ 0x20) with
  | nil =>
    rw [hdrop] at hb
    simp at hb
  | cons x rest =>
    rw [hdrop] at hb happend
    rw [← happend]
    exact mem_append_right _ (mem_cons_of_mem _ hb)

namespace Decoder

variable {d : Decoder} {line : Bytes}

lemma header_oneLine (h : d.commit.OneLine) (original : Bytes) (hline : 0x0a ∉ line) :
    (d.header original line).commit.OneLine := by
  have hdata : 0x0a ∉ (splitBlank line).2.getD [] := fun hin => hline (splitBlank_subset line hin)
  unfold header
  dsimp only
  split_ifs
  · exact h
  · exact h
  · exact ⟨h.1.decode hdata, h.2⟩
  · exact ⟨h.1, h.2.decode hdata⟩
  · exact h
  · exact h
  · exact h
  · split <;> exact h

def IsLine (line : Bytes) : Prop := 0x0a ∉ line ∨ ∃ l, line = l ++ [0x0a] ∧ 0x0a ∉ l

lemma IsLine.trimSpace (h : IsLine line) : 0x0a ∉ Trim.trimSpace line := by
  rcases h with h | ⟨l, rfl, h⟩
  · exact fun hin => h (Trim.trimSpace_subset _ hin)
  · rw [Trim.trimSpace_snoc (.inl rfl)]
    exact fun hin => h (Trim.trimSpace_subset _ hin)

lemma step_oneLine (h : d.commit.OneLine) (hline : IsLine line) : (d.step line).1.commit.OneLine := by
  have hfresh : ∀ d : Decoder, d.commit.OneLine → (d.fresh line).1.commit.OneLine := by
    intro d hd
    unfold fresh
    dsimp only
    split_ifs
    · exact hd
    · exact hd
    · exact header_oneLine hd _ hline.trimSpace
  unfold step
  dsimp only
  split_ifs
  · exact h
  · exact h
  · split
    · exact hfresh _ h
    · exact h
  · split
    · exact hfresh _ h
    · exact hfresh _ h

lemma finish_oneLine (h : d.commit.OneLine) (hline : IsLine line) (n : ℕ) : (d.finish n line).commit.OneLine := by
  induction n generalizing d line with
  | zero => exact h
  | succ n ih =>
    have hstep := step_oneLine h hline
    rw [finish]
    split
    · rename_i d' hd'
      rw [hd'] at hstep
      exact ih hstep (.inl (by simp))
    · rename_i d' hd'
      rwa [hd'] at hstep

end Decoder

lemma decode_oneLine {id : ObjectID} {text : Bytes} {c : Commit} (h : decode .commit id text = .ok c) : c.OneLine := by
  obtain ⟨hlines, hrest⟩ := @Lines.split_spec UInt8 0x0a _ text
  have hfold : ∀ (lines : List Bytes) (d : Decoder), d.commit.OneLine →
      (∀ line ∈ lines, Decoder.IsLine line) →
      (lines.foldl (fun d line => (d.step line).1) d).commit.OneLine := by
    intro lines
    induction lines with
    | nil => exact fun d hd _ => hd
    | cons line lines ih =>
      intro d hd hall
      exact ih _ (Decoder.step_oneLine hd (hall line mem_cons_self))
        fun l hl => hall l (mem_cons_of_mem _ hl)
  rw [decode, if_neg (by simp)] at h
  cases h
  set start : Decoder := { commit := { hash := id, encoding := defaultUtf8CommitMessageEncoding } }
  have hstart : start.commit.OneLine := ⟨⟨by simp [start], by simp [start]⟩, by simp [start], by simp [start]⟩
  have hend := Decoder.finish_oneLine (hfold _ start hstart fun line hline => .inr (hlines line hline)) (.inl hrest) 3
  exact ⟨hend.1, hend.2⟩

end OneLine

section Decoded

lemma string_spec (h : ObjectID) : 0x0a ∉ h.string ∧ Trim.trimEnd h.string = h.string := by
  have hvisible := visible_hex h.bytes
  refine ⟨fun hin => (hvisible _ hin).ne_feed rfl, ?_⟩
  rcases eq_nil_or_concat' h.string with hnil | ⟨l, b, hl⟩
  · rw [hnil]
    rfl
  · rw [hl]
    exact trimEnd_of_visible (hvisible b (by rw [← ObjectID.string, hl]; simp))

lemma textLines_no_feed (text : Bytes) : ∀ line ∈ textLines text, 0x0a ∉ line :=
  Lines.not_mem_of_mem_splitOn _

lemma join_textLines (text : Bytes) :
    Lines.join 0x0a (textLines text) = if text.getLast? = some 0x0a then text else text ++ [0x0a] := by
  rw [Lines.join_eq_intercalate (textLines_ne_nil text), textLines, intercalate_splitOn]
  split_ifs with hlast
  · exact dropLast_append_getLast? _ hlast
  · rfl

/-- The first line has no white space at its end, and the others no blank in front. -/
def PlainLines (lines : List Bytes) : Prop :=
  (∀ t ∈ Trim.spaces, ¬ t <:+ lines.headD []) ∧ ∀ line ∈ lines.tail, line.head? ≠ some 0x20

instance : DecidablePred PlainLines := fun _ => inferInstanceAs (Decidable (_ ∧ _))

lemma unfolded_eq_iff {h : Header} (hne : h.lines ≠ []) (hfeed : ∀ line ∈ h.lines, 0x0a ∉ line) :
    h.unfolded = Lines.join 0x0a h.lines ↔ PlainLines h.lines := by
  obtain ⟨key, lines⟩ := h
  obtain ⟨first, rest, rfl⟩ := exists_cons_of_ne_nil hne
  have hunfolded : Header.unfolded ⟨key, first :: rest⟩ =
      Lines.join 0x0a (Trim.trimEnd first :: rest.map (·.dropWhile (· = 0x20))) := by
    simp [Header.unfolded, Header.data]
  have hblank : ∀ line : Bytes, line.dropWhile (· = 0x20) = line ↔ line.head? ≠ some 0x20 := by
    intro line
    rw [dropWhile_eq_self_iff]
    cases line <;> simp
  have hfeed' : ∀ line ∈ Trim.trimEnd first :: rest.map (·.dropWhile (· = 0x20)), 0x0a ∉ line := by
    intro line hline
    rcases mem_cons.mp hline with rfl | hline
    · exact fun hin => hfeed first mem_cons_self ((Trim.trimEnd_isPrefix first).subset hin)
    · obtain ⟨l, hl, rfl⟩ := mem_map.mp hline
      exact fun hin => hfeed l (mem_cons_of_mem _ hl) ((dropWhile_suffix _).subset hin)
  rw [hunfolded]
  constructor
  · intro heq
    obtain ⟨hfirst, hrest⟩ := List.cons.inj (Lines.join_inj hfeed' hfeed heq)
    refine ⟨Trim.trimEnd_eq_self_iff.mp hfirst, fun line hline => (hblank line).mp ?_⟩
    exact map_inj_left.mp (hrest.trans (map_id rest).symm) line hline
  · rintro ⟨hfirst, hrest⟩
    have hmap : rest.map (·.dropWhile (· = 0x20)) = rest :=
      (map_congr_left fun line hline => (hblank line).mpr (hrest line hline)).trans (map_id rest)
    have hself : Trim.trimEnd first = first := Trim.trimEnd_eq_self_iff.mpr hfirst
    rw [hmap, hself]

variable {c : Commit}

lemma foldl_fixedHeaders (c : Commit) (tree : Bytes) (parents : List Bytes) (author committer : Bytes) :
    (fixedHeaders tree parents author committer).foldl apply c = { c with
      treeHash := .fromHex (Trim.trimEnd tree)
      parentHashes := c.parentHashes ++ parents.map fun p => .fromHex (Trim.trimEnd p)
      author := c.author.decode (Trim.trimEnd author)
      committer := c.committer.decode (Trim.trimEnd committer) } := by
  have hparents : ∀ (parents : List Bytes) (c : Commit),
      (parents.map (fun p => (⟨headerparent, [p]⟩ : Header))).foldl apply c =
        { c with parentHashes := c.parentHashes ++ parents.map fun p => .fromHex (Trim.trimEnd p) } := by
    intro parents
    induction parents with
    | nil => simp
    | cons p parents ih =>
      intro c
      have hfirst : apply c ⟨headerparent, [p]⟩ =
          { c with parentHashes := c.parentHashes ++ [.fromHex (Trim.trimEnd p)] } := rfl
      rw [map_cons, foldl_cons, hfirst, ih]
      simp
  rw [fixedHeaders, foldl_cons, foldl_append, hparents]
  rfl

def reserved : List Bytes := [headertree, headerparent, headerauthor, headercommitter, headermergetag,
  headerencoding, headerpgp]

variable {e : ExtraHeader}

lemma apply_ofExtra (c : Commit) (hkey : e.key ∉ reserved) (hvalue : e.value.getLast? ≠ some 0x0a) :
    apply c (ofExtra e) = { c with extraHeaders := c.extraHeaders ++ [e] } := by
  have hback : (ofExtra e).value = e.value := by
    by_cases hnil : e.value = []
    · simp [ofExtra, Header.value, hnil]
    · rw [Header.value, ofExtra]
      simp only [hnil, if_false]
      rw [join_textLines, if_neg hvalue, rdropWhile_concat_pos _ _ _ (by simp)]
      rw [rdropWhile_eq_self_iff]
      intro hne hlast
      exact hvalue (by rw [getLast?_eq_some_getLast hne, of_decide_eq_true hlast])
  simp only [reserved, mem_cons, not_mem_nil, or_false, not_or] at hkey
  obtain ⟨h1, h2, h3, h4, h5, h6, h7⟩ := hkey
  have hkeyeq : (ofExtra e).key = e.key := rfl
  simp only [apply, hkeyeq, h1, h2, h3, h4, h5, h6, h7, if_false, hback]

lemma foldl_ofExtra (c : Commit) {extra : List ExtraHeader}
    (h : ∀ e ∈ extra, e.key ∉ reserved ∧ e.value.getLast? ≠ some 0x0a) :
    (extra.map ofExtra).foldl apply c = { c with extraHeaders := c.extraHeaders ++ extra } := by
  induction extra generalizing c with
  | nil => simp
  | cons e extra ih =>
    have he := h e mem_cons_self
    rw [map_cons, foldl_cons, apply_ofExtra c he.1 he.2, ih _ fun e he => h e (mem_cons_of_mem _ he)]
    simp

/-- What is read back of a text that was written over several lines. -/
def refolded (text : Bytes) : Bytes :=
  if text = [] then [] else Header.unfolded ⟨[], textLines text⟩

lemma foldl_mergeTag (c : Commit) (text : Bytes) :
    (if text ≠ [] then [foldedHeader headermergetag text] else []).foldl apply c =
      { c with mergeTag := c.mergeTag ++ refolded text } := by
  by_cases h : text = []
  · simp [h, refolded]
  · simp only [h, ne_eq, not_false_eq_true, if_true, foldl_cons, foldl_nil, refolded, if_false]
    rfl

lemma foldl_pgpSignature (c : Commit) (text : Bytes) :
    (if text ≠ [] ∧ (true : Bool) then [foldedHeader headerpgp text] else []).foldl apply c =
      { c with pgpSignature := c.pgpSignature ++ refolded text } := by
  by_cases h : text = []
  · simp [h, refolded]
  · simp only [h, ne_eq, not_false_eq_true, and_self, if_true, foldl_cons, foldl_nil, refolded, if_false]
    rfl

lemma foldl_encoding (c : Commit) {encoding : Bytes} (h : Trim.Word encoding)
    (hdefault : c.encoding = defaultUtf8CommitMessageEncoding) :
    (if encoding ≠ [] ∧ encoding ≠ defaultUtf8CommitMessageEncoding then
      [(⟨headerencoding, [encoding]⟩ : Header)] else []).foldl apply c = { c with encoding } := by
  by_cases hutf8 : encoding = defaultUtf8CommitMessageEncoding
  · simp [hutf8, ← hdefault]
  · have happly : apply c ⟨headerencoding, [encoding]⟩ = { c with encoding := Trim.trimEnd encoding } := rfl
    simp only [h.1, hutf8, ne_eq, not_false_eq_true, and_self, if_true, foldl_cons, foldl_nil,
      happly, Trim.trimEnd_word h]

def Survives (s : Signature) : Prop := ({} : Signature).decode s.encode = s

instance : DecidablePred Survives := fun _ => inferInstanceAs (Decidable (_ = _))

/-- The commits that are written as one can expect to read them: the signatures survive by themselves,
the encoding is a word, the merge tag and the signature are texts of whole lines, and the extra headers
have words of their own as keys. -/
@[mk_iff]
structure Storable (c : Commit) : Prop where
  author : Survives c.author
  committer : Survives c.committer
  encoding : Trim.Word c.encoding
  mergeTag : c.mergeTag = [] ∨ c.mergeTag.getLast? = some 0x0a
  pgpSignature : c.pgpSignature = [] ∨ c.pgpSignature.getLast? = some 0x0a
  keys : ∀ e ∈ c.extraHeaders, Trim.Word e.key ∧ e.key ∉ reserved
  distinct : (c.extraHeaders.map ExtraHeader.key).Nodup
  values : ∀ e ∈ c.extraHeaders, e.value.getLast? ≠ some 0x0a

instance : DecidablePred Storable := fun c => decidable_of_iff' _ (storable_iff c)

lemma wf_single {key line : Bytes} (hkey : Trim.Word key) (hline : 0x0a ∉ line) :
    (⟨key, [line]⟩ : Header).Wf := ⟨hkey, by simpa using hline, by simp⟩

lemma wf_foldedHeader {key : Bytes} (hkey : Trim.Word key) (hsingle : key ∉ Header.singles)
    (text : Bytes) : (foldedHeader key text).Wf :=
  ⟨hkey, textLines_no_feed text, fun h => absurd h hsingle⟩

lemma wf_ofExtra (hkey : Trim.Word e.key) (hreserved : e.key ∉ reserved) : (ofExtra e).Wf := by
  refine ⟨hkey, fun line hline => ?_, fun h => absurd ?_ hreserved⟩
  · unfold ofExtra at hline
    by_cases hnil : e.value = []
    · simp [hnil] at hline
    · simp only [hnil, if_false] at hline
      exact textLines_no_feed _ line hline
  · have hsub : Header.singles ⊆ reserved := by decide
    exact hsub h

lemma wf_fixedHeaders {tree : ObjectID} {parents : List ObjectID} {author committer : Bytes} (hauthor : 0x0a ∉ author)
    (hcommitter : 0x0a ∉ committer) :
    ∀ h ∈ fixedHeaders tree.string (parents.map ObjectID.string) author committer, h.Wf := by
  intro h hh
  simp only [fixedHeaders, mem_cons, mem_append, mem_map, not_mem_nil, or_false] at hh
  rcases hh with rfl | ⟨_, ⟨p, -, rfl⟩, rfl⟩ | rfl | rfl
  · exact wf_single (by decide) (string_spec _).1
  · exact wf_single (by decide) (string_spec p).1
  · exact wf_single (by decide) hauthor
  · exact wf_single (by decide) hcommitter

lemma Storable.wf_headers (hs : Storable c) (hone : c.OneLine) : ∀ h ∈ c.headers true, h.Wf := by
  intro h hh
  rcases mem_append.mp hh with hh | hh
  · exact wf_fixedHeaders hone.1.encode hone.2.encode h hh
  · simp only [furtherHeaders, mem_append, mem_map] at hh
    rcases hh with ((hh | hh) | ⟨e, he, rfl⟩) | hh
    · split_ifs at hh
      · obtain rfl := mem_singleton.mp hh
        exact wf_foldedHeader (by decide) (by decide) _
      · simp at hh
    · split_ifs at hh
      · obtain rfl := mem_singleton.mp hh
        exact wf_single (by decide) (blank_not_mem hs.encoding).2
      · simp at hh
    · exact wf_ofExtra (hs.keys e he).1 (hs.keys e he).2
    · split_ifs at hh
      · obtain rfl := mem_singleton.mp hh
        exact wf_foldedHeader (by decide) (by decide) _
      · simp at hh

lemma Storable.decode_encode (hs : Storable c) (hone : c.OneLine) (id : ObjectID) :
    decode .commit id (c.encode true) = .ok { c with
      hash := id
      treeHash := .fromHex c.treeHash.string
      parentHashes := c.parentHashes.map fun p => .fromHex p.string
      mergeTag := refolded c.mergeTag
      pgpSignature := refolded c.pgpSignature } := by
  have hparents : (c.parentHashes.map ObjectID.string).map
      (fun p => ObjectID.fromHex (Trim.trimEnd p)) = c.parentHashes.map fun p => .fromHex p.string := by
    rw [map_map]
    exact map_congr_left fun p _ => by simp [(string_spec p).2]
  have hextra : ∀ e ∈ c.extraHeaders, e.key ∉ reserved ∧ e.value.getLast? ≠ some 0x0a :=
    fun e he => ⟨(hs.keys e he).2, hs.values e he⟩
  rw [encode_eq_render, decode_render (hs.wf_headers hone), headers, foldl_append,
    foldl_fixedHeaders, furtherHeaders, foldl_append, foldl_append, foldl_append,
    foldl_mergeTag, foldl_encoding _ hs.encoding rfl, foldl_ofExtra _ hextra, foldl_pgpSignature,
    hparents, (string_spec _).2, Signature.trimEnd_encode, Signature.trimEnd_encode]
  have hauthor := hs.author
  have hcommitter := hs.committer
  unfold Survives at hauthor hcommitter
  simp [hauthor, hcommitter]

@[mk_iff]
structure Plain (c : Commit) : Prop where
  treeHash : c.treeHash.Proper
  parentHashes : ∀ p ∈ c.parentHashes, p.Proper
  oneLine : c.OneLine
  mergeTag : PlainLines (textLines c.mergeTag)
  pgpSignature : PlainLines (textLines c.pgpSignature)

instance : DecidablePred Plain := fun c => decidable_of_iff' _ (plain_iff c)

lemma refolded_eq_iff {text : Bytes} (h : text = [] ∨ text.getLast? = some 0x0a) :
    refolded text = text ↔ PlainLines (textLines text) := by
  by_cases hnil : text = []
  · subst hnil
    simp only [refolded, if_true, true_iff]
    refine ⟨?_, by simp [textLines]⟩
    decide
  · have hlast := h.resolve_left hnil
    have hjoin := join_textLines text
    rw [if_pos hlast] at hjoin
    have hiff := @unfolded_eq_iff ⟨[], textLines text⟩ (textLines_ne_nil text) (textLines_no_feed text)
    rw [hjoin] at hiff
    rw [refolded, if_neg hnil]
    exact hiff

/-- The commit is read from the object that holds what is written of it. -/
def ReadBack (c : Commit) (id : ObjectID) : Prop :=
  decode .commit id (c.encode true) = .ok { c with hash := id }

instance (c : Commit) (id : ObjectID) : Decidable (c.ReadBack id) :=
  inferInstanceAs (Decidable (_ = _))

/-- A commit is read back from what is written of it if it is plain, and only then. -/
theorem readBack_iff {c : Commit} (hs : Storable c) (id : ObjectID) : c.ReadBack id ↔ Plain c := by
  unfold ReadBack
  constructor
  · intro hback
    have hdecoded := decode_oneLine hback
    have hone : c.OneLine := ⟨hdecoded.1, hdecoded.2⟩
    rw [hs.decode_encode hone] at hback
    simp only [Except.ok.injEq, Commit.mk.injEq, true_and, and_true] at hback
    obtain ⟨hmerge, hpgp, htree, hparents⟩ := hback
    refine ⟨(ObjectID.fromHex_string_iff _).mp htree, fun p hp => (ObjectID.fromHex_string_iff _).mp ?_, hone,
      (refolded_eq_iff hs.mergeTag).mp hmerge, (refolded_eq_iff hs.pgpSignature).mp hpgp⟩
    exact map_inj_left.mp (hparents.trans (map_id _).symm) p hp
  · intro hp
    have hparents : c.parentHashes.map (fun p => ObjectID.fromHex p.string) = c.parentHashes :=
      (map_congr_left fun p hmem => (hp.parentHashes p hmem).fromHex_string).trans (map_id _)
    rw [hs.decode_encode hp.oneLine, hp.treeHash.fromHex_string, hparents,
      (refolded_eq_iff hs.mergeTag).mpr hp.mergeTag, (refolded_eq_iff hs.pgpSignature).mpr hp.pgpSignature]

def someone (name : String) : Signature :=
  { name := textBytes name, email := textBytes "a@b", when := .unix 1700000000 0, zone := 3600 }

def sample (name mergeTag pgpSignature : String) : Commit where
  author := someone name
  committer := someone "C"
  mergeTag := textBytes mergeTag
  pgpSignature := textBytes pgpSignature
  message := textBytes "Subject\n\n body\n"
  treeHash := .short 1
  parentHashes := [.short 2, .short 3]
  encoding := textBytes "latin1"
  extraHeaders := [⟨textBytes "HG:extra", textBytes "one\n  two\n\nthree"⟩, ⟨textBytes "empty", []⟩]

theorem readBack_sample : (sample "A" "object 1\n\ntext\n" "BEGIN\n\nEND\n").ReadBack .zeroHash := by
  exact (readBack_iff (by decide +kernel) .zeroHash).mpr (by decide +kernel)

theorem not_readBack_indented : (Storable (sample "A" "object 1\n  text\n" "BEGIN\n") ∧
      ¬ (sample "A" "object 1\n  text\n" "BEGIN\n").ReadBack .zeroHash) ∧
    (Storable (sample "A" "object 1\n" "BEGIN \nEND\n") ∧
      ¬ (sample "A" "object 1\n" "BEGIN \nEND\n").ReadBack .zeroHash) ∧
    Storable (sample "A\nB" "object 1\n" "BEGIN\n") ∧ ¬ (sample "A\nB" "object 1\n" "BEGIN\n").ReadBack .zeroHash := by
  decide +kernel

end Decoded

end Commit

end GoGit
