import GoGit.Lines
import GoGit.Object

/-! The writer goes from one line feed to the next and keeps for the next call whether the data ended with a carriage
return. What it keeps is looked at wherever a line feed comes first in what is left, not only at the start of the
data. -/
namespace GoGit.Convert

open List

def cr : UInt8 := 0x0d

def lf : UInt8 := 0x0a

structure LfToCRLFWriter where
  w : Bytes := []
  hadCR : Bool := false

namespace LfToCRLFWriter

def writeLine (hadCR : Bool) (window : Bytes) : Bytes :=
  let idx := window.length - 1
  if (idx = 0 ∧ hadCR) ∨ (idx > 0 ∧ window[idx - 1]? = some cr) then window
  else window.take idx ++ [cr, lf]

def Write (conv : LfToCRLFWriter) (data : Bytes) : LfToCRLFWriter :=
  if data.length = 0 then conv
  else
    let (lines, rest) := Lines.split lf data
    { w := conv.w ++ lines.flatMap (writeLine conv.hadCR) ++ rest
      hadCR := data.getLast? = some cr }

def output (chunks : List Bytes) : Bytes := (chunks.foldl Write {}).w

end LfToCRLFWriter

/-- A text with each line feed that is not after a carriage return replaced by both. -/
def crlf (afterCR : Bool) : Bytes → Bytes
  | [] => []
  | a :: b => if a = lf ∧ !afterCR then cr :: lf :: crlf false b else a :: crlf (a = cr) b

def converted (hadCR afterCR : Bool) : Bytes → Bytes
  | [] => []
  | a :: b =>
    if a = lf then (if afterCR then [lf] else [cr, lf]) ++ converted hadCR hadCR b
    else a :: converted hadCR (a = cr) b

variable {a : UInt8}

section Converted

variable {hadCR afterCR : Bool} {line data : Bytes}
  {wasCR : Bool}

/-- Whether a line feed after some data is after a carriage return. -/
def endsCR (afterCR : Bool) (data : Bytes) : Bool := if data = [] then afterCR else data.getLast? = some cr

lemma endsCR_cons (a : UInt8) (b : Bytes) : endsCR afterCR (a :: b) = endsCR (a = cr) b := by
  cases b with
  | nil => simp [endsCR]
  | cons c b => simp [endsCR]

lemma converted_append (h : lf ∉ line) (data : Bytes) :
    converted hadCR afterCR (line ++ data) = line ++ converted hadCR (endsCR afterCR line) data := by
  induction line generalizing afterCR with
  | nil => rfl
  | cons a line ih =>
    obtain ⟨hne, hline⟩ := not_or.mp (mt mem_cons.mpr h)
    rw [cons_append, converted, if_neg (Ne.symm hne), ih hline, endsCR_cons, cons_append]

lemma writeLine_eq (h : lf ∉ line) : LfToCRLFWriter.writeLine hadCR (line ++ [lf]) =
      line ++ if endsCR hadCR line then [lf] else [cr, lf] := by
  have hidx : (line ++ [lf]).length - 1 = line.length := by simp
  rw [LfToCRLFWriter.writeLine]
  simp only [hidx, take_left]
  by_cases hnil : line = []
  · subst hnil
    cases hadCR <;> simp [endsCR]
  · have hpos : 0 < line.length := length_pos_iff.mpr hnil
    have hlast : (line ++ [lf])[line.length - 1]? = line.getLast? := by
      rw [getElem?_append_left (by omega), getLast?_eq_getElem?]
    simp only [hlast, endsCR, hnil, if_false, decide_eq_true_eq]
    by_cases hcr : line.getLast? = some cr
    · simp [hcr, hpos]
    · have hne : line.length ≠ 0 := by omega
      simp [hcr, hne]

lemma flatMap_writeLine {lines : List Bytes} {rest : Bytes}
    (hlines : ∀ window ∈ lines, ∃ line, window = line ++ [lf] ∧ lf ∉ line) (hrest : lf ∉ rest) :
    lines.flatMap (LfToCRLFWriter.writeLine hadCR) ++ rest = converted hadCR hadCR (lines.flatten ++ rest) := by
  induction lines with
  | nil =>
    have hconv := @converted_append hadCR hadCR rest hrest []
    rw [append_nil, converted, append_nil] at hconv
    exact hconv.symm
  | cons window lines ih =>
    obtain ⟨line, rfl, hline⟩ := hlines window mem_cons_self
    rw [flatMap_cons, append_assoc, ih fun w hw => hlines w (mem_cons_of_mem _ hw),
      writeLine_eq hline, flatten_cons, append_assoc, append_assoc, append_assoc,
      converted_append hline, singleton_append, converted, if_pos rfl]

lemma written_eq (data : Bytes) :
    (Lines.split lf data).1.flatMap (LfToCRLFWriter.writeLine hadCR) ++ (Lines.split lf data).2 =
      converted hadCR hadCR data := by
  obtain ⟨hlines, hrest⟩ := @Lines.split_spec UInt8 lf _ data
  rw [flatMap_writeLine hlines hrest, Lines.flatten_split]

def Blank (data : Bytes) : Prop := [lf, lf] <:+: data

lemma blank_cons : Blank (a :: data) ↔ (a = lf ∧ data.head? = some lf) ∨ Blank data := by
  rw [Blank, infix_cons_iff, ← Blank]
  refine or_congr_left ?_
  cases data with
  | nil => simp
  | cons c data => simp [eq_comm]

lemma converted_lf (data : Bytes) :
    converted hadCR afterCR (lf :: data) = (if afterCR then [lf] else [cr, lf]) ++ converted hadCR hadCR data := by
  rw [converted, if_pos rfl]

lemma crlf_lf (data : Bytes) : crlf afterCR (lf :: data) = (if afterCR then [lf] else [cr, lf]) ++ crlf false data := by
  cases afterCR <;> rfl

lemma converted_of_ne (h : a ≠ lf) (data : Bytes) :
    converted hadCR afterCR (a :: data) = a :: converted hadCR (a = cr) data := by
  rw [converted, if_neg h]

lemma crlf_of_ne (h : a ≠ lf) (data : Bytes) : crlf afterCR (a :: data) = a :: crlf (a = cr) data := by
  rw [crlf, if_neg fun ha => h ha.1]

lemma length_converted_le (h : wasCR → afterCR) (data : Bytes) :
    (converted hadCR afterCR data).length ≤ (crlf wasCR data).length := by
  induction data generalizing afterCR wasCR with
  | nil => exact le_rfl
  | cons a data ih =>
    by_cases ha : a = lf
    · subst ha
      have hnext := @ih hadCR false (fun h => nomatch h)
      rw [converted_lf, crlf_lf, length_append, length_append]
      cases wasCR with
      | true => simpa [h rfl] using hnext
      | false => cases afterCR <;> simp <;> omega
    · rw [converted_of_ne ha, crlf_of_ne ha]
      exact Nat.succ_le_succ (ih id)

lemma length_converted_lt (h : wasCR → afterCR) (hblank : Blank data) :
    (converted true afterCR data).length < (crlf wasCR data).length := by
  induction data generalizing afterCR wasCR with
  | nil => simp [Blank] at hblank
  | cons a data ih =>
    by_cases ha : a = lf
    · subst ha
      have hle : (if afterCR then [lf] else [cr, lf]).length ≤ (if wasCR then [lf] else [cr, lf]).length := by
        cases wasCR with
        | true => simp [h rfl]
        | false => cases afterCR <;> simp
      have hlt : (converted true true data).length < (crlf false data).length := by
        rcases blank_cons.mp hblank with ⟨-, hhead⟩ | hblank
        · cases data with
          | nil => exact nomatch hhead
          | cons c data =>
            cases hhead
            have hnext := @length_converted_le true true false (fun h => nomatch h) data
            rw [converted_lf, crlf_lf]
            simp only [if_true, Bool.false_eq_true, if_false, length_append, length_cons, length_nil]
            omega
        · exact ih (fun h => nomatch h) hblank
      rw [converted_lf, crlf_lf, length_append, length_append]
      omega
    · rw [converted_of_ne ha, crlf_of_ne ha]
      exact Nat.succ_lt_succ (ih id ((blank_cons.mp hblank).resolve_left fun hb => ha hb.1))

lemma converted_eq_crlf (hblank : hadCR → ¬ Blank data)
    (h : afterCR = wasCR ∨ (hadCR ∧ data.head? ≠ some lf)) : converted hadCR afterCR data = crlf wasCR data := by
  induction data generalizing afterCR wasCR with
  | nil => rfl
  | cons a data ih =>
    have hdata : hadCR → ¬ Blank data := fun hcr hb => hblank hcr (blank_cons.mpr (.inr hb))
    by_cases ha : a = lf
    · subst ha
      obtain rfl : afterCR = wasCR := h.resolve_right fun hhead => hhead.2 rfl
      rw [converted_lf, crlf_lf, ih hdata]
      cases hadCR with
      | false => exact .inl rfl
      | true => exact .inr ⟨rfl, fun hhead => hblank rfl (blank_cons.mpr (.inl ⟨rfl, hhead⟩))⟩
    · rw [converted_of_ne ha, crlf_of_ne ha, ih hdata (.inl rfl)]

lemma converted_eq_crlf_iff : converted hadCR hadCR data = crlf hadCR data ↔ (hadCR → ¬ Blank data) := by
  refine ⟨fun heq hcr hblank => ?_, fun h => converted_eq_crlf h (.inl rfl)⟩
  subst hcr
  exact (length_converted_lt id hblank).ne (congrArg List.length heq)

lemma crlf_append (a b : Bytes) : crlf afterCR (a ++ b) = crlf afterCR a ++ crlf (endsCR afterCR a) b := by
  induction a generalizing afterCR with
  | nil => rfl
  | cons c a ih =>
    rw [cons_append, endsCR_cons]
    by_cases hc : c = lf
    · subst hc
      rw [crlf_lf, crlf_lf, ih, append_assoc]
      rfl
    · rw [crlf_of_ne hc, crlf_of_ne hc, ih, cons_append]

end Converted

section Calls

def written (hadCR : Bool) : List Bytes → Bytes
  | [] => []
  | data :: chunks => converted hadCR hadCR data ++ written (endsCR hadCR data) chunks

lemma foldl_write (conv : LfToCRLFWriter) (chunks : List Bytes) :
    (chunks.foldl LfToCRLFWriter.Write conv).w = conv.w ++ written conv.hadCR chunks := by
  induction chunks generalizing conv with
  | nil => simp [written]
  | cons data chunks ih =>
    rw [foldl_cons, ih, written]
    by_cases hnil : data = []
    · subst hnil
      rfl
    · have hlen : data.length ≠ 0 := fun h => hnil (length_eq_zero_iff.mp h)
      rw [LfToCRLFWriter.Write, if_neg hlen, append_assoc, append_assoc,
        ← append_assoc _ (Lines.split lf data).2, written_eq, endsCR, if_neg hnil]

lemma length_written_le (hadCR : Bool) (chunks : List Bytes) :
    (written hadCR chunks).length ≤ (crlf hadCR chunks.flatten).length := by
  induction chunks generalizing hadCR with
  | nil => exact le_rfl
  | cons data chunks ih =>
    rw [written, flatten_cons, crlf_append, length_append, length_append]
    exact Nat.add_le_add (length_converted_le id data) (ih _)

/-- No call after one whose data ends with a carriage return has a blank line. -/
def Separated (chunks : List Bytes) : Prop :=
  (chunks.filter (· ≠ [])).IsChain fun c d => c.getLast? = some cr → ¬ Blank d

lemma written_eq_iff (last : Bytes) (chunks : List Bytes) :
    written (last.getLast? = some cr) chunks = crlf (last.getLast? = some cr) chunks.flatten ↔
      (last :: chunks.filter (· ≠ [])).IsChain fun c d => c.getLast? = some cr → ¬ Blank d := by
  induction chunks generalizing last with
  | nil => simp [written, crlf]
  | cons data chunks ih =>
    rw [written, flatten_cons, crlf_append]
    by_cases hnil : data = []
    · subst hnil
      exact ih last
    · have hends : ∀ b, endsCR b data = (decide (data.getLast? = some cr)) := fun b => if_neg hnil
      have hsame := @converted_eq_crlf_iff (last.getLast? = some cr) data
      rw [decide_eq_true_eq] at hsame
      rw [hends, filter_cons_of_pos (by simpa using hnil), isChain_cons_cons, ← ih data, ← hsame]
      refine ⟨fun heq => ?_, fun ⟨hfirst, hrest⟩ => by rw [hfirst, hrest]⟩
      -- neither part is longer than it should be, so neither is shorter
      have hfirst := @length_converted_le (last.getLast? = some cr) (last.getLast? = some cr) _ id data
      have hrest := length_written_le (data.getLast? = some cr) chunks
      have hlen := congrArg List.length heq
      rw [length_append, length_append] at hlen
      exact append_inj heq (by omega)

/-- The writer converts the whole text, however it is cut, if no call with a blank line comes after one that
ends with a carriage return, and only then. -/
theorem output_eq_crlf_iff (chunks : List Bytes) :
    LfToCRLFWriter.output chunks = crlf false chunks.flatten ↔ Separated chunks := by
  have hstart := written_eq_iff [] chunks
  rw [LfToCRLFWriter.output, foldl_write, nil_append]
  refine hstart.trans ?_
  rw [Separated]
  cases chunks.filter (· ≠ []) with
  | nil => simp
  | cons c chunks => simp

theorem output_ne_crlf : LfToCRLFWriter.output [[cr], [lf, lf]] = [cr, lf, lf] ∧
      LfToCRLFWriter.output [[cr], [lf, lf]] ≠ crlf false [[cr], [lf, lf]].flatten ∧
      LfToCRLFWriter.output [[cr, lf, lf]] = crlf false [[cr, lf, lf]].flatten := by
  decide +kernel

end Calls

def indexCRLF : Bytes → Option ℕ
  | a :: b :: rest => if a = cr ∧ b = lf then some 0 else (indexCRLF (b :: rest)).map (· + 1)
  | _ => none

structure CrlfToLFWriter where
  w : Bytes := []

namespace CrlfToLFWriter

/-- The loop on a window, with as many turns as bytes: the bytes it counts, what it writes, and the window it leaves. -/
def loop : ℕ → Bytes → ℕ × Bytes × Bytes
  | 0, window => (0, [], window)
  | turns + 1, window =>
    match indexCRLF window with
    | none => (0, [], window)
    | some idx =>
      let (n, out, rest) := loop turns (window.drop (idx + 2))
      (idx + 2 + n, window.take idx ++ [lf] ++ out, rest)

def Write (conv : CrlfToLFWriter) (data : Bytes) : ℕ × CrlfToLFWriter :=
  if data.length = 0 then (0, conv)
  else
    let (n, out, rest) := loop data.length data
    if data.getLast? = some cr then
      -- a carriage return at the end is taken for the first half of a pair
      (n + rest.dropLast.length + 1, ⟨conv.w ++ out ++ rest.dropLast⟩)
    else (n + rest.length, ⟨conv.w ++ out ++ rest⟩)

def output (chunks : List Bytes) : Bytes := (chunks.foldl (fun conv data => (Write conv data).2) {}).w

end CrlfToLFWriter

/-- A text with each pair of a carriage return and a line feed replaced by the line feed. -/
def unix : Bytes → Bytes
  | a :: b :: rest => if a = cr ∧ b = lf then lf :: unix rest else a :: unix (b :: rest)
  | rest => rest

section Unix

lemma unix_cons {b : Bytes} (h : ¬ (a = cr ∧ b.head? = some lf)) : unix (a :: b) = a :: unix b := by
  cases b with
  | nil => rfl
  | cons c b =>
    have hpair : ¬ (a = cr ∧ c = lf) := by simpa using h
    rw [unix, if_neg hpair]

lemma unix_append {a b : Bytes} (h : ¬ (a.getLast? = some cr ∧ b.head? = some lf)) :
    unix (a ++ b) = unix a ++ unix b := by
  induction a using unix.induct with
  | case1 x y rest hx ih =>
    obtain ⟨rfl, rfl⟩ := hx
    have hrest : ¬ (rest.getLast? = some cr ∧ b.head? = some lf) := by
      cases rest with
      | nil => simp [lf, cr]
      | cons c rest => simpa using h
    simp [unix, ih hrest]
  | case2 x y rest hx ih =>
    have hcons : unix (x :: y :: rest) = x :: unix (y :: rest) := by rw [unix, if_neg hx]
    rw [hcons, cons_append, unix_cons (by simpa using hx), ih (by simpa using h), cons_append]
  | case3 rest hrest =>
    rcases rest with _ | ⟨x, _ | ⟨y, rest⟩⟩
    · rfl
    · exact unix_cons (by simpa using h)
    · exact absurd rfl (hrest x y rest)

variable {window : Bytes}

lemma indexCRLF_none (h : indexCRLF window = none) : unix window = window := by
  induction window using unix.induct with
  | case1 x y rest hx => simp [indexCRLF, hx] at h
  | case2 x y rest hx ih =>
    rw [unix, if_neg hx, ih (by simpa [indexCRLF, hx] using h)]
  | case3 rest hrest => rw [unix]; exact hrest

lemma indexCRLF_some {idx : ℕ} (h : indexCRLF window = some idx) :
    window = window.take idx ++ cr :: lf :: window.drop (idx + 2) ∧
      unix window = window.take idx ++ lf :: unix (window.drop (idx + 2)) := by
  induction window using unix.induct generalizing idx with
  | case1 x y rest hx =>
    obtain ⟨rfl, rfl⟩ := hx
    obtain rfl : 0 = idx := by simpa [indexCRLF] using h
    simp [unix]
  | case2 x y rest hx ih =>
    simp only [indexCRLF, hx, if_false, Option.map_eq_some_iff] at h
    obtain ⟨idx, h, rfl⟩ := h
    obtain ⟨hwindow, hunix⟩ := ih h
    rw [unix, if_neg hx, hunix]
    exact ⟨congrArg (x :: ·) hwindow, rfl⟩
  | case3 rest hrest =>
    rw [indexCRLF] at h
    · cases h
    · exact hrest

lemma loop_spec {turns n : ℕ} {window out rest : Bytes} (hturns : window.length ≤ turns)
    (h : CrlfToLFWriter.loop turns window = (n, out, rest)) : n + rest.length = window.length ∧
      out ++ rest = unix window ∧ (window.getLast? = some cr → rest.getLast? = some cr) := by
  induction turns generalizing n window out rest with
  | zero =>
    obtain rfl := length_eq_zero_iff.mp (Nat.le_zero.mp hturns)
    cases h
    simp [unix]
  | succ turns ih =>
    rw [CrlfToLFWriter.loop] at h
    split at h
    · rename_i hidx
      cases h
      simp [indexCRLF_none hidx]
    · rename_i idx hidx
      obtain ⟨hwindow, hunix⟩ := indexCRLF_some hidx
      have hlen := congrArg List.length hwindow
      simp only [length_append, length_cons] at hlen
      rcases hloop : CrlfToLFWriter.loop turns (window.drop (idx + 2)) with ⟨n', out', rest'⟩
      rw [hloop] at h
      cases h
      obtain ⟨hcount, hout, hlast⟩ := ih (by omega) hloop
      have htake : (window.take idx).length = idx := by
        rw [length_take, length_drop] at hlen
        rw [length_take]
        omega
      refine ⟨by omega, by rw [hunix, ← hout]; simp, fun hcr => hlast ?_⟩
      rw [hwindow] at hcr
      cases hdrop : window.drop (idx + 2) with
      | nil => simp [hdrop, lf, cr] at hcr
      | cons c rest => simpa [hdrop] using hcr

lemma Write_eq (conv : CrlfToLFWriter) (data : Bytes) : conv.Write data =
    (data.length, ⟨conv.w ++ unix (if data.getLast? = some cr then data.dropLast else data)⟩) := by
  by_cases hnil : data = []
  · simp [hnil, CrlfToLFWriter.Write, unix]
  · rcases hloop : CrlfToLFWriter.loop data.length data with ⟨n, out, rest⟩
    obtain ⟨hcount, hout, hlast⟩ := loop_spec le_rfl hloop
    rw [CrlfToLFWriter.Write, if_neg (by simpa using hnil), hloop]
    split_ifs with hcr
    · obtain ⟨init, hrest⟩ : ∃ init, rest = init ++ [cr] := getLast?_eq_some_iff.mp (hlast hcr)
      obtain ⟨text, hdata⟩ : ∃ text, data = text ++ [cr] := getLast?_eq_some_iff.mp hcr
      have htext : unix data = unix text ++ [cr] := by
        rw [hdata]
        exact unix_append (by simp [lf, cr])
      rw [htext, hrest, ← append_assoc] at hout
      rw [hdata, dropLast_concat, ← append_cancel_right hout, ← hdata, ← hcount, hrest]
      simp [Nat.add_assoc]
    · dsimp only
      rw [← hout, ← hcount, append_assoc]

/-- However the text is cut, pairs become line feeds if there is no carriage return but in pairs. -/
theorem output_eq_unix (chunks : List Bytes) (h : ∀ a b, chunks.flatten = a ++ cr :: b → b.head? = some lf) :
    CrlfToLFWriter.output chunks = unix chunks.flatten ∧
      ∀ (conv : CrlfToLFWriter), ∀ data ∈ chunks, (conv.Write data).1 = data.length := by
  refine ⟨?_, fun conv data _ => by rw [Write_eq]⟩
  have hfold : ∀ conv : CrlfToLFWriter,
      (chunks.foldl (fun conv data => (conv.Write data).2) conv).w = conv.w ++ unix chunks.flatten := by
    induction chunks with
    | nil => simp [unix]
    | cons data chunks ih =>
      intro conv
      have hrest := ih fun a b hab => h (data ++ a) b (by rw [flatten_cons, hab, append_assoc])
      rw [foldl_cons, hrest, Write_eq, flatten_cons, append_assoc]
      congr 1
      split_ifs with hcr
      · -- the other half of the pair comes first in the calls that follow
        obtain ⟨text, rfl⟩ := getLast?_eq_some_iff.mp hcr
        have hhead := h text chunks.flatten (by simp)
        obtain ⟨rest, hflat⟩ : ∃ rest, chunks.flatten = lf :: rest := by
          cases hflat : chunks.flatten with
          | nil => simp [hflat] at hhead
          | cons c rest => exact ⟨rest, by simpa [hflat] using hhead⟩
        rw [dropLast_concat, hflat, append_assoc, unix_append (by simp [lf, cr]), unix_cons (by simp [lf, cr])]
        simp [unix]
      · rw [unix_append fun hpair => hcr hpair.1]
  exact hfold {}

theorem output_eq_unix_split : CrlfToLFWriter.output [[cr], [lf]] = [lf] := by
  refine (output_eq_unix [[cr], [lf]] fun a b hab => ?_).1.trans (by decide)
  rcases a with _ | ⟨x, _ | ⟨y, a⟩⟩
  · simp [← (List.cons.inj hab).2]
  · exact absurd (List.cons.inj (List.cons.inj hab).2).1 (by decide)
  · simp at hab

end Unix

end GoGit.Convert
