import GoGit.CommitCodec

namespace GoGit.Commit

open List

structure Header where
  key : Bytes
  lines : List Bytes
  deriving DecidableEq

namespace Header

def text (h : Header) : List Bytes :=
  match h.lines with
  | [] => [h.key]
  | line :: lines => (h.key ++ 0x20 :: line) :: lines.map (0x20 :: ·)

/-- The keys of the headers that the decoder takes from one line. -/
def singles : List Bytes := [headertree, headerparent, headerauthor, headercommitter, headerencoding]

@[mk_iff]
structure Wf (h : Header) : Prop where
  key : Trim.Word h.key
  lines : ∀ line ∈ h.lines, 0x0a ∉ line
  single : h.key ∈ singles → h.lines.length ≤ 1

instance : DecidablePred Wf := fun h => decidable_of_iff' _ (wf_iff h)

def data (h : Header) : Bytes := Trim.trimEnd (h.lines.headD [])

/-- What the decoder makes of the lines of a merge tag or a signature. -/
def unfolded (h : Header) : Bytes :=
  h.data ++ 0x0a :: Lines.join 0x0a (h.lines.tail.map (·.dropWhile (· = 0x20)))

/-- What the decoder makes of the lines of an extra header. -/
def value (h : Header) : Bytes := (Lines.join 0x0a h.lines).rdropWhile (· = 0x0a)

end Header

def apply (c : Commit) (h : Header) : Commit :=
  if h.key = headertree then { c with treeHash := .fromHex h.data }
  else if h.key = headerparent then { c with parentHashes := c.parentHashes ++ [.fromHex h.data] }
  else if h.key = headerauthor then { c with author := c.author.decode h.data }
  else if h.key = headercommitter then { c with committer := c.committer.decode h.data }
  else if h.key = headermergetag then { c with mergeTag := c.mergeTag ++ h.unfolded }
  else if h.key = headerencoding then { c with encoding := h.data }
  else if h.key = headerpgp then { c with pgpSignature := c.pgpSignature ++ h.unfolded }
  else { c with extraHeaders := c.extraHeaders ++ [⟨h.key, h.value⟩] }

def render (headers : List Header) (message : Bytes) : Bytes :=
  Lines.join 0x0a (headers.flatMap Header.text) ++ 0x0a :: message

variable {h : Header}

section Decode

namespace Decoder

def settle (d : Decoder) : Decoder :=
  match d.extraheader with
  | none => { d with mergetag := false, pgpsig := false }
  | some h => { d with
      mergetag := false
      pgpsig := false
      commit := { d.commit with
        extraHeaders := d.commit.extraHeaders ++ [{ h with value := h.value.rdropWhile (· = 0x0a) }] }
      extraheader := none }

variable {d : Decoder} {line : Bytes}

def Settled (d : Decoder) : Prop := d.mergetag = false ∧ d.pgpsig = false ∧ d.extraheader = none

lemma settled_settle (d : Decoder) : d.settle.Settled := by
  unfold settle
  split <;> rename_i h
  · exact ⟨rfl, rfl, h⟩
  · exact ⟨rfl, rfl, rfl⟩

lemma Settled.settle (h : d.Settled) : d.settle = d := by
  obtain ⟨hm, hp, he⟩ := h
  cases d
  simp_all [Decoder.settle]

lemma step_of_not_blank (h : line.head? ≠ some 0x20) : d.step line = d.settle.fresh line := by
  unfold step settle
  cases d.extraheader <;> simp [h]

lemma Settled.step (h : d.Settled) (line : Bytes) : d.step line = d.fresh line := by
  obtain ⟨hm, hp, he⟩ := h
  cases d
  simp_all [Decoder.step]

lemma foldl_message (h : d.Settled) (hm : d.message = true) (lines : List Bytes) :
    lines.foldl (fun d line => (d.step line).1) d = { d with msgbuf := d.msgbuf ++ lines.flatten } := by
  induction lines generalizing d with
  | nil => simp
  | cons line lines ih =>
    have hstep : (d.step line).1 = { d with msgbuf := d.msgbuf ++ line } := by
      rw [h.step, fresh, if_pos hm]
    rw [foldl_cons, hstep, @ih { d with msgbuf := d.msgbuf ++ line } h hm]
    simp

lemma message_spec (h : d.Settled) (hm : d.message = true) (message : Bytes) :
    ((Lines.split 0x0a message).1.foldl (fun d line => (d.step line).1) d).finish 3
      (Lines.split 0x0a message).2 = { d with msgbuf := d.msgbuf ++ message } := by
  have hstep : ∀ (d : Decoder) (line : Bytes), d.Settled → d.message = true →
      d.step line = ({ d with msgbuf := d.msgbuf ++ line }, false) := by
    intro d line hd hm
    rw [hd.step, fresh, if_pos hm]
  set lines := (Lines.split 0x0a message).1 with hlines
  have hlast := hstep { d with msgbuf := d.msgbuf ++ lines.flatten } (Lines.split 0x0a message).2 h hm
  rw [foldl_message h hm, finish, hlast]
  simp only [append_assoc, hlines, Lines.flatten_split]

def continuedLines (lines : List Bytes) : List Bytes := lines.map fun line => 0x20 :: line ++ [0x0a]

lemma dropWhile_continued (line : Bytes) :
    (0x20 :: line ++ [0x0a]).dropWhile (· = 0x20) = line.dropWhile (· = 0x20) ++ [0x0a] := by
  rw [cons_append, dropWhile_cons_of_pos (by simp), dropWhile_append]
  split_ifs with hnil
  · simp [List.isEmpty_iff.mp hnil]
  · rfl

def addMergeTag (d : Decoder) (text : Bytes) : Decoder :=
  { d with commit := { d.commit with mergeTag := d.commit.mergeTag ++ text } }

def addSignature (d : Decoder) (text : Bytes) : Decoder :=
  { d with commit := { d.commit with pgpSignature := d.commit.pgpSignature ++ text } }

lemma foldl_continued {add : Decoder → Bytes → Decoder} {inside : Decoder → Prop}
    (hnil : ∀ d, add d [] = d) (hadd : ∀ d a b, add (add d a) b = add d (a ++ b))
    (hkeep : ∀ d a, inside d → inside (add d a)) (hstep : ∀ d line, inside d →
      (d.step (0x20 :: line ++ [0x0a])).1 = add d ((0x20 :: line ++ [0x0a]).dropWhile (· = 0x20)))
    (hd : inside d) (lines : List Bytes) : (continuedLines lines).foldl (fun d line => (d.step line).1) d =
      add d (Lines.join 0x0a (lines.map (·.dropWhile (· = 0x20)))) := by
  induction lines generalizing d with
  | nil => exact (hnil d).symm
  | cons line lines ih =>
    rw [continuedLines, map_cons, foldl_cons, hstep d line hd, ← continuedLines, ih (hkeep _ _ hd), hadd,
      dropWhile_continued, map_cons, Lines.join_cons, append_assoc]
    rfl

lemma foldl_mergetag (hm : d.mergetag = true) (lines : List Bytes) :
    (continuedLines lines).foldl (fun d line => (d.step line).1) d =
      d.addMergeTag (Lines.join 0x0a (lines.map (·.dropWhile (· = 0x20)))) :=
  @foldl_continued d addMergeTag (·.mergetag = true) (by simp [addMergeTag]) (by simp [addMergeTag])
    (fun _ _ => id) (fun d line hm => by rw [step, if_pos ⟨hm, rfl⟩, addMergeTag]) hm lines

lemma foldl_pgpsig (hm : d.mergetag = false) (hp : d.pgpsig = true) (lines : List Bytes) :
    (continuedLines lines).foldl (fun d line => (d.step line).1) d =
      d.addSignature (Lines.join 0x0a (lines.map (·.dropWhile (· = 0x20)))) :=
  @foldl_continued d addSignature (fun d => d.mergetag = false ∧ d.pgpsig = true) (by simp [addSignature])
    (by simp [addSignature]) (fun _ _ => id) (fun d line ⟨hm, hp⟩ => by
      rw [step, if_neg (by simp [hm]), if_pos ⟨hp, rfl⟩, ← hm, addSignature]) ⟨hm, hp⟩ lines

lemma foldl_extraheader (hm : d.mergetag = false) (hp : d.pgpsig = false) {h : ExtraHeader}
    (he : d.extraheader = some h) (lines : List Bytes) :
    (continuedLines lines).foldl (fun d line => (d.step line).1) d =
      { d with extraheader := some ⟨h.key, h.value ++ Lines.join 0x0a lines⟩ } := by
  induction lines generalizing d h with
  | nil => simp [continuedLines, ← he]
  | cons line lines ih =>
    have hstep : (d.step (0x20 :: line ++ [0x0a])).1 =
        { d with extraheader := some ⟨h.key, h.value ++ (line ++ [0x0a])⟩ } := by
      cases d
      simp_all [step]
    have hrest := @ih { d with extraheader := some ⟨h.key, h.value ++ (line ++ [0x0a])⟩ } hm hp _ rfl
    rw [continuedLines, map_cons, foldl_cons, hstep, ← continuedLines, hrest]
    simp

end Decoder

variable {key : Bytes}

lemma blank_not_mem (h : Trim.Word key) : 0x20 ∉ key ∧ 0x0a ∉ key := by
  have hmem : ∀ x, [x] ∈ Trim.spaces → x ∉ key := by
    intro x hx hin
    obtain ⟨a, b, hab⟩ := append_of_mem hin
    exact h.2 [x] hx ⟨a, b, by simp [hab]⟩
  exact ⟨hmem 0x20 (by decide), hmem 0x0a (by decide)⟩

lemma splitBlank_append (h : 0x20 ∉ key) (rest : Bytes) : splitBlank (key ++ 0x20 :: rest) = (key, some rest) := by
  have hall : ∀ x ∈ key, (decide (x ≠ 0x20)) = true := by
    intro x hx
    simpa using fun hx' : x = 0x20 => h (hx' ▸ hx)
  rw [splitBlank, span_eq_takeWhile_dropWhile, takeWhile_append_of_pos hall, dropWhile_append_of_pos hall]
  simp

lemma splitBlank_self (h : 0x20 ∉ key) : splitBlank key = (key, none) := by
  have hall : ∀ x ∈ key, (decide (x ≠ 0x20)) = true := by
    intro x hx
    simpa using fun hx' : x = 0x20 => h (hx' ▸ hx)
  rw [splitBlank, span_eq_takeWhile_dropWhile, takeWhile_eq_self_iff.mpr hall, dropWhile_eq_nil_iff.mpr hall]

lemma rdropWhile_word (h : Trim.Word key) : key.rdropWhile (· = 0x0a) = key := by
  rw [rdropWhile_eq_self_iff]
  intro hne hlast
  exact (blank_not_mem h).2 (of_decide_eq_true hlast ▸ getLast_mem hne)

lemma Header.Wf.first_line (hw : h.Wf) :
    ∃ original, h.text.map (· ++ [0x0a]) = original :: Decoder.continuedLines h.lines.tail ∧
      original.head? ≠ some 0x20 ∧ Trim.trimSpace original ≠ [] ∧ (splitBlank (Trim.trimSpace original)).1 = h.key ∧
      (splitBlank (Trim.trimSpace original)).2.getD [] = h.data ∧ parseExtraHeader original =
        if h.lines = [] then (⟨h.key, []⟩, false) else (⟨h.key, h.lines.headD [] ++ [0x0a]⟩, true) := by
  obtain ⟨key, lines⟩ := h
  obtain ⟨hword, -, -⟩ := hw
  obtain ⟨hblank, hfeed⟩ := blank_not_mem hword
  have hhead : ∀ rest, (key ++ rest).head? ≠ some 0x20 := by
    intro rest hhead
    rw [head?_append_of_ne_nil _ hword.1] at hhead
    exact hblank (mem_of_mem_head? hhead)
  cases lines with
  | nil =>
    refine ⟨key ++ [0x0a], rfl, hhead _, ?_, ?_, ?_, ?_⟩
    · rw [Trim.trimSpace_word hword]
      exact hword.1
    · rw [Trim.trimSpace_word hword, splitBlank_self hblank]
    · rw [Trim.trimSpace_word hword, splitBlank_self hblank]
      rfl
    · have hline : 0x20 ∉ key ++ [0x0a] := by simp [hblank]
      rw [parseExtraHeader, splitBlank_self hline]
      simp [rdropWhile_word hword]
  | cons line lines =>
    refine ⟨key ++ 0x20 :: line ++ [0x0a], by simp [text, Decoder.continuedLines], ?_, ?_, ?_, ?_, ?_⟩
    · rw [append_assoc]
      exact hhead _
    all_goals
      have htrim := Trim.trimSpace_word_append hword line
    · rw [htrim]
      split_ifs <;> simp [hword.1]
    · rw [htrim]
      split_ifs <;> simp [splitBlank_self hblank, splitBlank_append hblank]
    · rw [htrim]
      split_ifs with hnil
      · simp [splitBlank_self hblank, data, hnil]
      · simp [splitBlank_append hblank, data]
    · have happ : key ++ 0x20 :: line ++ [0x0a] = key ++ 0x20 :: (line ++ [0x0a]) := by simp
      rw [happ, parseExtraHeader, splitBlank_append hblank]
      simp [rdropWhile_word hword]

namespace Decoder

variable {d : Decoder} {h : Header}

@[simp] lemma message_settle (d : Decoder) : d.settle.message = d.message := by
  unfold settle
  split <;> rfl

lemma Settled.withCommit (hs : d.Settled) (c : Commit) : ({ d with commit := c } : Decoder).Settled := hs

lemma settle_mergetag (hs : d.Settled) (c : Commit) :
    ({ d with commit := c, mergetag := true } : Decoder).settle = { d with commit := c } := by
  obtain ⟨hm, hp, he⟩ := hs
  cases d
  simp_all [settle]

lemma settle_pgpsig (hs : d.Settled) (c : Commit) :
    ({ d with commit := c, pgpsig := true } : Decoder).settle = { d with commit := c } := by
  obtain ⟨hm, hp, he⟩ := hs
  cases d
  simp_all [settle]

lemma settle_extraheader (hs : d.Settled) (e : ExtraHeader) :
    ({ d with extraheader := some e } : Decoder).settle = { d with
      commit := { d.commit with
        extraHeaders := d.commit.extraHeaders ++ [⟨e.key, e.value.rdropWhile (· = 0x0a)⟩] } } := by
  obtain ⟨hm, hp, he⟩ := hs
  cases d
  simp_all [settle]

lemma foldl_header (hw : h.Wf) (hmsg : d.message = false) :
    ((h.text.map (· ++ [0x0a])).foldl (fun d line => (d.step line).1) d).settle =
      { d.settle with commit := apply d.settle.commit h } := by
  obtain ⟨original, htext, hhead, hne, hword, hdata, hparse⟩ := hw.first_line
  have hs := settled_settle d
  have hsmsg : d.settle.message = false := by rw [message_settle, hmsg]
  have hfirst : (d.step original).1 = d.settle.header original (Trim.trimSpace original) := by
    rw [step_of_not_blank hhead, fresh, hsmsg]
    simp [hne]
  rw [htext, foldl_cons, hfirst]
  generalize d.settle = s at hs
  have hsingle : h.key ∈ Header.singles → continuedLines h.lines.tail = [] := by
    intro hkey
    have := hw.single hkey
    have htail : h.lines.tail = [] := length_eq_zero_iff.mp (by simp; omega)
    rw [htail]
    rfl
  rw [header, hword, hdata, apply]
  split_ifs with htree hparent hauthor hcommitter hmerge hencoding hpgp
  · rw [hsingle (by simp [htree, Header.singles])]
    exact (hs.withCommit _).settle
  · rw [hsingle (by simp [hparent, Header.singles])]
    exact (hs.withCommit _).settle
  · rw [hsingle (by simp [hauthor, Header.singles])]
    exact (hs.withCommit _).settle
  · rw [hsingle (by simp [hcommitter, Header.singles])]
    exact (hs.withCommit _).settle
  · rw [foldl_mergetag rfl]
    simp only [addMergeTag]
    rw [settle_mergetag hs]
    simp [Header.unfolded]
  · rw [hsingle (by simp [hencoding, Header.singles])]
    exact (hs.withCommit _).settle
  · have hfold : ∀ c, _ := fun c => @foldl_pgpsig { s with commit := c, pgpsig := true } hs.1 rfl
    rw [hfold]
    simp only [addSignature]
    rw [settle_pgpsig hs]
    simp [Header.unfolded]
  · rw [hparse]
    split_ifs with hlines
    · rw [hlines]
      simp only [tail_nil, continuedLines, map_nil, foldl_nil]
      rw [(hs.withCommit _).settle]
      simp [Header.value, hlines]
    · obtain ⟨line, lines, hcons⟩ := exists_cons_of_ne_nil hlines
      have hfold : ∀ e, _ := fun e => @foldl_extraheader { s with extraheader := some e } hs.1 hs.2.1 e rfl
      simp only [hfold]
      rw [settle_extraheader hs]
      simp [Header.value, hcons]

lemma foldl_headers {hs : List Header} (hw : ∀ h ∈ hs, h.Wf) (hmsg : d.message = false) :
    (((hs.flatMap Header.text).map (· ++ [0x0a])).foldl (fun d line => (d.step line).1) d).settle =
      { d.settle with commit := hs.foldl apply d.settle.commit } := by
  induction hs generalizing d with
  | nil => rfl
  | cons h hs ih =>
    have hfirst := foldl_header (hw h mem_cons_self) hmsg
    rw [flatMap_cons, map_append, foldl_append]
    set d₁ := (h.text.map (· ++ [0x0a])).foldl (fun d line => (d.step line).1) d
    have hmsg₁ : d₁.message = false := by
      rw [← message_settle, hfirst]
      simpa using hmsg
    rw [ih (fun h hh => hw h (mem_cons_of_mem _ hh)) hmsg₁, hfirst]
    rfl

end Decoder

lemma Header.Wf.text_no_feed (hw : h.Wf) : ∀ line ∈ h.text, 0x0a ∉ line := by
  obtain ⟨key, lines⟩ := h
  obtain ⟨hword, hlines, -⟩ := hw
  have hfeed := (blank_not_mem hword).2
  cases lines with
  | nil => simpa [text] using hfeed
  | cons line lines =>
    intro l hl
    simp only [text, mem_cons, mem_map] at hl
    rcases hl with rfl | ⟨l, hl, rfl⟩
    · have := hlines line mem_cons_self
      simp [hfeed, this]
    · have := hlines l (mem_cons_of_mem _ hl)
      simp [this]

lemma decode_render {hs : List Header} (hw : ∀ h ∈ hs, h.Wf) (id : ObjectID) (message : Bytes) :
    decode .commit id (render hs message) = .ok { hs.foldl apply
      { hash := id, encoding := defaultUtf8CommitMessageEncoding } with message } := by
  have hfeed : ∀ line ∈ hs.flatMap Header.text, 0x0a ∉ line := by
    intro line hline
    obtain ⟨h, hh, hline⟩ := mem_flatMap.mp hline
    exact (hw h hh).text_no_feed line hline
  set start : Decoder := { commit := { hash := id, encoding := defaultUtf8CommitMessageEncoding } }
    with hstart
  have hsettle := @Decoder.foldl_headers start hs hw rfl
  set d₁ := ((hs.flatMap Header.text).map (· ++ [0x0a])).foldl (fun d line => (d.step line).1) start
    with hd₁
  have hs₁ := Decoder.settled_settle d₁
  have hmsg₁ : d₁.settle.message = false := by rw [hsettle]; rfl
  have hblank : (d₁.step [0x0a]).1 = { d₁.settle with message := true } := by
    rw [Decoder.step_of_not_blank (by simp), Decoder.fresh, hmsg₁]
    rfl
  have hsplit : Lines.split 0x0a (render hs message) =
      ((hs.flatMap Header.text).map (· ++ [0x0a]) ++ [0x0a] :: (Lines.split 0x0a message).1,
        (Lines.split 0x0a message).2) := by
    have hline := Lines.split_line (show (0x0a : UInt8) ∉ [] by simp) message
    rw [nil_append, nil_append] at hline
    rw [render, Lines.split_join hfeed, hline]
  have hrun : (((hs.flatMap Header.text).map (· ++ [0x0a]) ++
      [0x0a] :: (Lines.split 0x0a message).1).foldl (fun d line => (d.step line).1) start).finish 3
        (Lines.split 0x0a message).2 =
      { d₁.settle with message := true, msgbuf := d₁.settle.msgbuf ++ message } := by
    rw [foldl_append, foldl_cons, ← hd₁, hblank]
    exact @Decoder.message_spec { d₁.settle with message := true } hs₁ rfl message
  rw [decode, if_neg (by simp), hsplit]
  simp only [← hstart, hrun, hsettle]
  rfl

end Decode

section Encode

namespace Header

def bytes (h : Header) : Bytes :=
  h.key ++ if h.lines = [] then [] else 0x20 :: [0x0a, 0x20].intercalate h.lines

lemma intercalate_append (line : Bytes) (lines : List Bytes) : [0x0a, 0x20].intercalate (line :: lines) ++ [0x0a] =
      line ++ 0x0a :: Lines.join 0x0a (lines.map (0x20 :: ·)) := by
  induction lines generalizing line with
  | nil => simp [List.intercalate]
  | cons next lines ih =>
    have hcons : [0x0a, 0x20].intercalate (line :: next :: lines) =
        line ++ [0x0a, 0x20] ++ [0x0a, 0x20].intercalate (next :: lines) := by
      simp [List.intercalate]
    rw [hcons, append_assoc, ih next]
    simp

lemma join_text (h : Header) : Lines.join 0x0a h.text = h.bytes ++ [0x0a] := by
  obtain ⟨key, lines⟩ := h
  cases lines with
  | nil => simp [text, bytes]
  | cons line lines =>
    have happend := intercalate_append line lines
    simp only [text, bytes, Lines.join_cons, append_assoc, cons_append, reduceCtorEq, if_false, ← happend]

lemma join_flatMap_text (hs : List Header) :
    Lines.join 0x0a (hs.flatMap text) = hs.flatMap (fun h => h.bytes ++ [0x0a]) := by
  induction hs with
  | nil => rfl
  | cons h hs ih => rw [flatMap_cons, Lines.join_append, join_text, ih, flatMap_cons]

lemma flatMap_feed (hs : List Header) : hs.flatMap (fun h => 0x0a :: h.bytes) ++ [0x0a] =
      0x0a :: hs.flatMap (fun h => h.bytes ++ [0x0a]) := by
  induction hs with
  | nil => rfl
  | cons h hs ih => simp [ih]

end Header

lemma textLines_ne_nil (text : Bytes) : textLines text ≠ [] := splitOnP_ne_nil _ _

def foldedHeader (key text : Bytes) : Header := ⟨key, textLines text⟩

lemma bytes_foldedHeader (key text : Bytes) : (foldedHeader key text).bytes = key ++ [0x20] ++ continued text := by
  simp [foldedHeader, Header.bytes, textLines_ne_nil, continued]

def ofExtra (e : ExtraHeader) : Header := ⟨e.key, if e.value = [] then [] else textLines e.value⟩

lemma bytes_ofExtra (e : ExtraHeader) : (ofExtra e).bytes = e.format := by
  by_cases h : e.value = []
  · simp [ofExtra, Header.bytes, ExtraHeader.format, h]
  · simp [ofExtra, Header.bytes, ExtraHeader.format, h, textLines_ne_nil, continued, length_pos_iff.mpr h]

def fixedHeaders (tree : Bytes) (parents : List Bytes) (author committer : Bytes) : List Header :=
  ⟨headertree, [tree]⟩ :: (parents.map (⟨headerparent, [·]⟩) ++
    [⟨headerauthor, [author]⟩, ⟨headercommitter, [committer]⟩])

def furtherHeaders (c : Commit) (includeSig : Bool) : List Header :=
  (if c.mergeTag ≠ [] then [foldedHeader headermergetag c.mergeTag] else []) ++
  (if c.encoding ≠ [] ∧ c.encoding ≠ defaultUtf8CommitMessageEncoding then
    [⟨headerencoding, [c.encoding]⟩] else []) ++
  c.extraHeaders.map ofExtra ++
  (if c.pgpSignature ≠ [] ∧ includeSig then [foldedHeader headerpgp c.pgpSignature] else [])

def headers (c : Commit) (includeSig : Bool) : List Header :=
  fixedHeaders c.treeHash.string (c.parentHashes.map ObjectID.string) c.author.encode
    c.committer.encode ++ c.furtherHeaders includeSig

lemma flatMap_optional {p : Prop} [Decidable p] {text : Bytes} (ht : 0x0a :: h.bytes = text) :
    (if p then [h] else []).flatMap (fun h => 0x0a :: h.bytes) = if p then text else [] := by
  split_ifs <;> simp [← ht]

lemma encode_eq_render (c : Commit) (includeSig : Bool) :
    c.encode includeSig = render (c.headers includeSig) c.message := by
  have hfolded (key text : Bytes) : 0x0a :: (foldedHeader key text).bytes =
      [0x0a] ++ key ++ [0x20] ++ continued text := by simp [bytes_foldedHeader]
  have hencoding : 0x0a :: Header.bytes ⟨headerencoding, [c.encoding]⟩ =
      [0x0a] ++ headerencoding ++ [0x20] ++ c.encoding := by simp [Header.bytes, List.intercalate]
  have hextra : (c.extraHeaders.map ofExtra).flatMap (fun h => 0x0a :: h.bytes) =
      c.extraHeaders.flatMap (fun h => [0x0a] ++ h.format) := by
    simp [flatMap_map, bytes_ofExtra]
  set fixed := headertree ++ [0x20] ++ c.treeHash.string ++ [0x0a] ++
    c.parentHashes.flatMap (fun p => headerparent ++ [0x20] ++ p.string ++ [0x0a]) ++
    headerauthor ++ [0x20] ++ c.author.encode ++ [0x0a] ++
    headercommitter ++ [0x20] ++ c.committer.encode with hfixed
  have hjoin : Lines.join 0x0a ((fixedHeaders c.treeHash.string
      (c.parentHashes.map ObjectID.string) c.author.encode c.committer.encode).flatMap Header.text) =
      fixed ++ [0x0a] := by
    rw [Header.join_flatMap_text, hfixed]
    simp [fixedHeaders, Header.bytes, List.intercalate, flatMap_map]
  calc c.encode includeSig
      = fixed ++ ((c.furtherHeaders includeSig).flatMap (fun h => 0x0a :: h.bytes) ++ [0x0a]) ++
          0x0a :: c.message := by
        rw [encode, hfixed, furtherHeaders, flatMap_append, flatMap_append, flatMap_append,
          flatMap_optional (hfolded _ _), flatMap_optional hencoding, hextra, flatMap_optional (hfolded _ _)]
        simp only [append_assoc, cons_append, nil_append]
    _ = fixed ++ 0x0a :: (c.furtherHeaders includeSig).flatMap (fun h => h.bytes ++ [0x0a]) ++
          0x0a :: c.message := by rw [Header.flatMap_feed]
    _ = render (c.headers includeSig) c.message := by
        rw [render, headers, flatMap_append, Lines.join_append, hjoin, Header.join_flatMap_text]
        simp

end Encode

end GoGit.Commit
