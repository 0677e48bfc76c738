import GoGit.PackRefs

/-! The file of packed references is written again without the lines of the reference. A line that peels a tag stays
where it is, also when it stands behind a line that does not stay. -/
namespace GoGit.DotGit

open List

open SlashPath (Component)

section Peeled

/-- A line with what the tag in the line before it peels to. -/
def isPeeled (line : Bytes) : Bool := line.head? = some 0x5e

/-- Each peeled line with the line that it directly follows. -/
def attachedFrom : Option Bytes → List Bytes → List (Option Bytes × Bytes)
  | _, [] => []
  | before, line :: lines =>
    if isPeeled line then (before, line) :: attachedFrom (some line) lines
    else attachedFrom (some line) lines

def attached (lines : List Bytes) : List (Option Bytes × Bytes) := attachedFrom none lines

variable {lines : List Bytes} {before before' : Option Bytes} {keep : Bytes → Bool}

lemma length_attachedFrom (before : Option Bytes) (lines : List Bytes) :
    (attachedFrom before lines).length = (lines.filter isPeeled).length := by
  induction lines generalizing before with
  | nil => rfl
  | cons line lines ih =>
    rw [attachedFrom, filter_cons]
    split_ifs <;> simp [ih]

lemma mem_of_mem_attachedFrom {x p : Bytes} (h : (some x, p) ∈ attachedFrom before lines) :
    before = some x ∨ x ∈ lines := by
  induction lines generalizing before with
  | nil => simp [attachedFrom] at h
  | cons line lines ih =>
    rw [attachedFrom] at h
    split_ifs at h with hpeeled
    · rcases mem_cons.mp h with h | h
      · exact .inl (Prod.mk.inj h).1.symm
      · rcases ih h with h | h
        · exact .inr (by simp [Option.some.inj h])
        · exact .inr (mem_cons_of_mem _ h)
    · rcases ih h with h | h
      · exact .inr (by simp [Option.some.inj h])
      · exact .inr (mem_cons_of_mem _ h)

lemma attachedFrom_filter (hpeeled : ∀ line, isPeeled line → keep line)
    (hkeep : ∀ x p, (some x, p) ∈ attachedFrom before lines → keep x)
    (hbefore : before' = before ∨ ∀ line ∈ lines.head?, isPeeled line = false) :
    attachedFrom before' (lines.filter keep) = attachedFrom before lines := by
  induction lines generalizing before before' with
  | nil => rfl
  | cons line lines ih =>
    rw [attachedFrom] at hkeep
    by_cases hline : isPeeled line
    · rw [if_pos hline] at hkeep
      have hsame : before' = before := hbefore.resolve_right fun h => by
        simp [h line (by simp)] at hline
      rw [filter_cons_of_pos (hpeeled line hline), attachedFrom, attachedFrom, if_pos hline,
        if_pos hline, hsame, ih (fun x p hmem => hkeep x p (mem_cons_of_mem _ hmem)) (.inl rfl)]
    · rw [if_neg hline] at hkeep
      rw [attachedFrom, if_neg hline]
      by_cases hk : keep line
      · rw [filter_cons_of_pos hk, attachedFrom, if_neg hline, ih hkeep (.inl rfl)]
      · rw [filter_cons_of_neg hk]
        refine ih hkeep (.inr fun next hnext => ?_)
        cases lines with
        | nil => simp at hnext
        | cons first lines =>
          obtain rfl : first = next := by simpa using hnext
          by_contra hpeeled'
          refine hk (hkeep line first ?_)
          rw [attachedFrom, if_pos (by simpa using hpeeled')]
          exact mem_cons_self

lemma attached_filter_sublist_iff (hpeeled : ∀ line, isPeeled line → keep line) :
    (attached (lines.filter keep)).Sublist (attached lines) ↔ ∀ x p, (some x, p) ∈ attached lines → keep x := by
  constructor
  · intro hsub x p hmem
    have hlen : (attached lines).length = (attached (lines.filter keep)).length := by
      rw [attached, attached, length_attachedFrom, length_attachedFrom, filter_filter]
      congr 1
      refine filter_congr fun line _ => ?_
      cases hp : isPeeled line with
      | false => rfl
      | true => simp [hpeeled line hp]
    rw [← hsub.eq_of_length hlen.symm] at hmem
    have := (mem_of_mem_attachedFrom hmem).resolve_left (by simp)
    exact (mem_filter.mp this).2
  · intro hkeep
    have heq : attached (lines.filter keep) = attached lines :=
      attachedFrom_filter hpeeled hkeep (.inl rfl)
    rw [heq]

end Peeled

section Lines

variable {n : ReferenceName} {lines kept : List Bytes} {l : List Reference} {found : Bool}

def namesRef (n : ReferenceName) (line : Bytes) : Bool :=
  match processLine line with
  | .ok (some r) => r.name = n
  | _ => false

lemma namesRef_of_ok {line : Bytes} {ref : Option Reference} (h : processLine line = .ok ref) :
    namesRef n line = true ↔ ref.map Reference.name = some n := by
  rw [namesRef, h]
  cases ref <;> simp

lemma namesRef_of_isPeeled {line : Bytes} (h : isPeeled line) : namesRef n line = false := by
  obtain ⟨rest, rfl⟩ : ∃ rest, line = 0x5e :: rest := by
    cases line with
    | nil => simp [isPeeled] at h
    | cons c rest => exact ⟨rest, by simpa [isPeeled] using h⟩
  rfl

lemma linesWithoutRef_ok (h : linesWithoutRef n lines = .ok (kept, found)) :
    kept = lines.filter (fun line => !namesRef n line) ∧ (found = false → kept = lines) ∧
      ∃ l, processLines lines = .ok l ∧ processLines kept = .ok (l.filter (·.name ≠ n)) := by
  induction lines generalizing kept found with
  | nil =>
    obtain ⟨rfl, rfl⟩ := Prod.mk.inj (Except.ok.inj h)
    exact ⟨rfl, fun _ => rfl, [], rfl, rfl⟩
  | cons line lines ih =>
    rw [linesWithoutRef, bind_eq_ok_iff] at h
    obtain ⟨ref, hline, h⟩ := h
    obtain ⟨⟨kept', found'⟩, hlines, h⟩ := bind_eq_ok_iff.mp h
    obtain ⟨hkept, hfound, l, hl, hfiltered⟩ := ih hlines
    dsimp only at h
    have hall : processLines (line :: lines) = .ok (ref.toList ++ l) := by
      simp only [processLines, hline, hl]
      rfl
    by_cases hname : ref.map Reference.name = some n
    · rw [if_pos hname] at h
      obtain ⟨rfl, rfl⟩ := Prod.mk.inj (Except.ok.inj h)
      obtain ⟨r, rfl, hr⟩ := Option.map_eq_some_iff.mp hname
      refine ⟨?_, by simp, _, hall, ?_⟩
      · rw [filter_cons_of_neg (by simpa using (namesRef_of_ok hline).mpr hname), hkept]
      · rw [hfiltered]
        simp [hr]
    · rw [if_neg hname] at h
      obtain ⟨rfl, rfl⟩ := Prod.mk.inj (Except.ok.inj h)
      refine ⟨?_, fun hnone => by rw [hfound hnone], _, hall, ?_⟩
      · have hkeep : namesRef n line = false := by
          rw [Bool.eq_false_iff, ne_eq, namesRef_of_ok hline]
          exact hname
        rw [filter_cons_of_pos (by simp [hkeep]), hkept]
      · simp only [processLines, hline, hfiltered]
        cases ref with
        | none => rfl
        | some r =>
          have hr : r.name ≠ n := fun heq => hname (by simp [heq])
          simp only [Option.toList_some, singleton_append, filter_cons]
          simp [hr]

end Lines

section Removed

variable {d d' : DotGit} {n : ReferenceName} {l : List Reference}

def packedLines (d : DotGit) : List Bytes :=
  ((d.root.fileAt [packedRefsPath]).map fun text => (scanLines text).1).getD []

lemma rewritePackedRefsWithoutRef_spec (hcr : ∀ line ∈ d.packedLines, line.getLast? ≠ some 0x0d)
    (h : d.rewritePackedRefsWithoutRef n = .ok d') :
    (∀ q, q ≠ [packedRefsPath] → d'.root.fileAt q = d.root.fileAt q) ∧
      d'.packedLines = d.packedLines.filter (fun line => !namesRef n line) ∧
      ∃ l, Packed d l ∧ Packed d' (l.filter (·.name ≠ n)) := by
  rw [rewritePackedRefsWithoutRef, bind_eq_ok_iff] at h
  obtain ⟨text, hopen, h⟩ := h
  cases text with
  | none =>
    cases h
    have hnone : d.root.fileAt [packedRefsPath] = none := by
      cases hfile : d.root.fileAt [packedRefsPath] with
      | none => rfl
      | some text => simp [openPackedRefs_ok_some.mpr hfile] at hopen
    exact ⟨fun _ _ => rfl, by simp [packedLines, hnone], [], .absent hopen, .absent hopen⟩
  | some text =>
    have hfile := openPackedRefs_ok_some.mp hopen
    have hlines : d.packedLines = (scanLines text).1 := by simp [packedLines, hfile]
    obtain ⟨⟨kept, found⟩, hwithout, h⟩ := bind_eq_ok_iff.mp h
    obtain ⟨hkept, hsame, l, hl, hfiltered⟩ := linesWithoutRef_ok hwithout
    cases hlong : (scanLines text).2 with
    | true => simp [hlong] at h
    | false =>
      simp only [hlong, Bool.false_eq_true, if_false] at h
      have hpacked : Packed d l := .lines hopen hl hlong
      cases found with
      | false =>
        cases h
        have heq := hsame rfl
        rw [heq] at hfiltered hkept
        rw [hl] at hfiltered
        refine ⟨fun _ _ => rfl, by rw [hlines, ← hkept], l, hpacked, ?_⟩
        rwa [← Except.ok.inj hfiltered]
      | true =>
        simp only [if_true] at h
        have hfiles := fileAt_write h
        -- the lines that stay are read again as they were
        have hscan : scanLines (Lines.join 0x0a kept) = (kept, false) := by
          refine Lines.scan_join fun line hline => ?_
          have hmem : line ∈ (scanLines text).1 := by
            rw [hkept] at hline
            exact (mem_filter.mp hline).1
          exact ⟨Lines.not_mem_scan _ line hmem, hcr line (hlines ▸ hmem), Lines.length_scan _ line hmem⟩
        have hfile' : d'.root.fileAt [packedRefsPath] = some (Lines.join 0x0a kept) := by
          rw [hfiles, if_pos rfl]
        refine ⟨fun q hq => by rw [hfiles, if_neg hq], ?_, l, hpacked,
          .lines (openPackedRefs_ok_some.mpr hfile') (by rw [hscan]; exact hfiltered) (by rw [hscan])⟩
        rw [packedLines, hfile', hlines, ← hkept]
        simp [hscan]

lemma RemoveRef_ok {p : List Component} (h : d.RemoveRef (SlashPath.text p) = .ok d') :
    ∃ e : DotGit, (∀ q, e.root.fileAt q = if q = p then none else d.root.fileAt q) ∧
      (p ≠ [packedRefsPath] → (e.root.dirAt [packedRefsPath] = none ↔ d.root.dirAt [packedRefsPath] = none)) ∧
      e.rewritePackedRefsWithoutRef (SlashPath.text p) = .ok d' := by
  rw [RemoveRef, SlashPath.path_text] at h
  dsimp only at h
  cases hremove : d.remove p with
  | ok e =>
    rw [hremove] at h
    exact ⟨e, fileAt_remove hremove, dirAt_remove_eq_none_iff hremove, h⟩
  | error e =>
    rw [hremove] at h
    cases e with
    | notExist => exact ⟨d, fileAt_remove_notExist hremove, fun _ => Iff.rfl, h⟩
    | _ => simp at h

/-- The reference of the name is gone, every other one is read as before, and the peeled lines follow the
lines that they followed. -/
def RemovesOnly (d : DotGit) (n : ReferenceName) (d' : DotGit) : Prop :=
  d'.Ref n = .error .referenceNotFound ∧ (∀ m, IsName m → m ≠ n → d'.Ref m = d.Ref m) ∧
    (attached d'.packedLines).Sublist (attached d.packedLines)

/-- Only the reference is removed if no peeled line follows a line of its name, and only then. -/
theorem RemoveRef_removesOnly_iff (hcr : ∀ line ∈ d.packedLines, line.getLast? ≠ some 0x0d)
    (hn : IsName n) (h : d.RemoveRef n = .ok d') : RemovesOnly d n d' ↔
      ∀ line peeled, (some line, peeled) ∈ attached d.packedLines → namesRef n line = false := by
  obtain ⟨p, hp, rfl⟩ := hn
  obtain ⟨e, hfiles, hdir, hrewrite⟩ := RemoveRef_ok h
  have hpackedFile : e.root.fileAt [packedRefsPath] = d.root.fileAt [packedRefsPath] := by
    rw [hfiles, if_neg (Ne.symm hp)]
  have hlines : e.packedLines = d.packedLines := by rw [packedLines, packedLines, hpackedFile]
  have hopen : e.openPackedRefs = d.openPackedRefs := by
    rw [openPackedRefs, openPackedRefs, hpackedFile]
    simp only [hdir hp]
  obtain ⟨hkept, hfiltered, l, hl, hl'⟩ := rewritePackedRefsWithoutRef_spec (hlines ▸ hcr) hrewrite
  have hld : Packed d l := by
    cases hl with
    | absent habsent => exact .absent (hopen ▸ habsent)
    | lines htext hprocess hlong => exact .lines (hopen ▸ htext) hprocess hlong
  have hgone : d'.Ref (SlashPath.text p) = .error .referenceNotFound := by
    have hnone : named (SlashPath.text p) (l.filter (·.name ≠ SlashPath.text p)) = none := by
      rw [named, find?_eq_none]
      intro r hr
      simpa using (mem_filter.mp hr).2
    rw [hl'.Ref, hkept p hp, hfiles, if_pos rfl, hnone]
    rfl
  have hsame : ∀ m, IsName m → m ≠ SlashPath.text p → d'.Ref m = d.Ref m := by
    rintro _ ⟨q, hq, rfl⟩ hne
    have hnamed : named (SlashPath.text q) (l.filter (·.name ≠ SlashPath.text p)) =
        named (SlashPath.text q) l := by
      rw [named, named, find?_filter]
      congr 1
      funext r
      by_cases hr : r.name = SlashPath.text q
      · simp [hr, hne]
      · simp [hr]
    have hqp : q ≠ p := fun heq => hne (by rw [heq])
    rw [hl'.Ref, hld.Ref, hkept q hq, hfiles, if_neg hqp, hnamed]
  rw [RemovesOnly, hfiltered, hlines, attached_filter_sublist_iff
    (fun line hpeeled => by simp [namesRef_of_isPeeled hpeeled])]
  simp only [hgone, true_and, Bool.not_eq_true']
  exact ⟨fun h => h.2, fun h => ⟨hsame, h⟩⟩

instance (n : ReferenceName) (lines : List Bytes) :
    Decidable (∀ line peeled, (some line, peeled) ∈ attached lines → namesRef n line = false) :=
  decidable_of_iff (∀ p ∈ attached lines, ∀ line ∈ p.1, namesRef n line = false)
    ⟨fun h line peeled hmem => h _ hmem line rfl, fun h p hp line hline => h line p.2 (by
      rw [← Option.mem_def.mp hline]
      exact hp)⟩

theorem RemoveRef_removesOnly_sample : ∃ d', (sampleDir "x").RemoveRef (textBytes "refs/heads/a") = .ok d' ∧
      RemovesOnly (sampleDir "x") (textBytes "refs/heads/a") d' := by
  have hname : IsName (textBytes "refs/heads/a") :=
    ⟨[refsPath, entryName "heads", entryName "a"], by decide, by decide +kernel⟩
  obtain ⟨d', hremove, -⟩ : ∃ d', (sampleDir "x").RemoveRef (textBytes "refs/heads/a") = .ok d' ∧ True :=
    exists_ok (by decide +kernel)
  exact ⟨d', hremove, (RemoveRef_removesOnly_iff (by decide +kernel) hname hremove).mpr (by decide +kernel)⟩

theorem not_removesOnly_peeled : (∀ line ∈ (sampleDir "x").packedLines, line.getLast? ≠ some 0x0d) ∧
    ∃ d', (sampleDir "x").RemoveRef (textBytes "refs/tags/v1") = .ok d' ∧
      ¬ RemovesOnly (sampleDir "x") (textBytes "refs/tags/v1") d' := by
  refine ⟨by decide +kernel, ?_⟩
  obtain ⟨d', hremove, hattached⟩ : ∃ d', (sampleDir "x").RemoveRef (textBytes "refs/tags/v1") = .ok d' ∧
      attached d'.packedLines = [(some (textBytes "2222222222222222222222222222222222222222 refs/heads/a"),
        textBytes "^4444444444444444444444444444444444444444")] := exists_ok (by decide +kernel)
  refine ⟨d', hremove, fun h => ?_⟩
  have hsub := h.2.2
  rw [hattached] at hsub
  revert hsub
  decide +kernel

end Removed

end GoGit.DotGit
