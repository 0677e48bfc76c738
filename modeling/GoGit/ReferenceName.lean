import GoGit.Lines
import GoGit.Object

/-! `Validate` looks at the parts of a name one by one, also for the rule about the whole name that it is not `@`. -/
namespace GoGit.ReferenceName

open List

def HEAD : ReferenceName := textBytes "HEAD"

inductive NameError
  | invalidReferenceName
  deriving DecidableEq

def IsBranch (r : ReferenceName) : Bool := textBytes "refs/heads/" <+: r

def IsTag (r : ReferenceName) : Bool := textBytes "refs/tags/" <+: r

def ctrlSeqs (b : UInt8) : Bool := b ≤ 0o37 || b = 0o177

def badPart (part : Bytes) : Bool :=
  [0x2e] <+: part || [0x2e, 0x2e] <:+: part || part.any ctrlSeqs || part.any (· ∈ textBytes "~^:?*[ \t\n") ||
    textBytes "@\x7b" <:+: part || part = [0x40] || [0x5c] <:+: part || textBytes ".lock" <:+ part

def refuses (r : ReferenceName) (part : Bytes) (i : ℕ) : Bool :=
  part.length = 0 || badPart part || ((IsBranch r || IsTag r) && [0x2d] <+: part && i = 2)

def Validate (r : ReferenceName) : Option NameError :=
  if r.length = 0 then some .invalidReferenceName
  else if r = HEAD then none
  else if [0x2e] <:+ r then some .invalidReferenceName
  else
    let parts := r.splitOn 0x2f
    if parts.length < 2 then some .invalidReferenceName
    else if parts.zipIdx.any fun (part, i) => refuses r part i then some .invalidReferenceName
    else none

/-- The ten rules of the documentation, in their order. -/
structure Rules (s : Bytes) : Prop where
  component : ∀ c ∈ s.splitOn 0x2f, ¬ [0x2e] <+: c ∧ ¬ textBytes ".lock" <:+ c
  slash : 0x2f ∈ s
  dots : ¬ [0x2e, 0x2e] <:+: s
  control : ∀ b ∈ s, ¬ ctrlSeqs b ∧ b ∉ textBytes " ~^:"
  pattern : ∀ b ∈ s, b ∉ textBytes "?*["
  slashes : ¬ [0x2f] <+: s ∧ ¬ [0x2f] <:+ s ∧ ¬ [0x2f, 0x2f] <:+: s
  dot : ¬ [0x2e] <:+ s
  brace : ¬ textBytes "@\x7b" <:+: s
  single : s ≠ [0x40]
  backslash : 0x5c ∉ s

section Validate

variable {s part : Bytes}

lemma badPart_eq_false_iff : badPart part = false ↔
    (¬ [0x2e] <+: part ∧ ¬ textBytes ".lock" <:+ part) ∧ ¬ [0x2e, 0x2e] <:+: part ∧
      (∀ b ∈ part, (¬ ctrlSeqs b ∧ b ∉ textBytes " ~^:") ∧ b ∉ textBytes "?*[") ∧
      ¬ textBytes "@\x7b" <:+: part ∧ 0x5c ∉ part ∧ part ≠ [0x40] := by
  have hbyte : ∀ b : UInt8, ctrlSeqs b = false → (b ∉ textBytes "~^:?*[ \t\n" ↔
      b ∉ textBytes " ~^:" ∧ b ∉ textBytes "?*[") := by
    intro b hb
    have htab : b ≠ 0x09 := fun h => absurd hb (by rw [h]; decide)
    have hfeed : b ≠ 0x0a := fun h => absurd hb (by rw [h]; decide)
    have hall : textBytes "~^:?*[ \t\n" = [0x7e, 0x5e, 0x3a, 0x3f, 0x2a, 0x5b, 0x20, 0x09, 0x0a] := by decide
    have hsome : textBytes " ~^:" = [0x20, 0x7e, 0x5e, 0x3a] := by decide
    have hmore : textBytes "?*[" = [0x3f, 0x2a, 0x5b] := by decide
    simp only [hall, hsome, hmore, mem_cons, not_mem_nil, htab, hfeed]
    tauto
  simp only [badPart, Bool.or_eq_false_iff, decide_eq_false_iff_not, any_eq_false, singleton_infix_iff,
    decide_eq_true_eq, Bool.not_eq_true]
  constructor
  · rintro ⟨⟨⟨⟨⟨⟨⟨hdot, hdots⟩, hctrl⟩, hany⟩, hbrace⟩, hat⟩, hslash⟩, hlock⟩
    have hbytes := fun b hb => (hbyte b (hctrl b hb)).mp (hany b hb)
    exact ⟨⟨hdot, hlock⟩, hdots, fun b hb => ⟨⟨hctrl b hb, (hbytes b hb).1⟩, (hbytes b hb).2⟩, hbrace, hslash, hat⟩
  · rintro ⟨⟨hdot, hlock⟩, hdots, hbytes, hbrace, hslash, hat⟩
    have hany := fun b hb => (hbyte b (hbytes b hb).1.1).mpr ⟨(hbytes b hb).1.2, (hbytes b hb).2⟩
    exact ⟨⟨⟨⟨⟨⟨⟨hdot, hdots⟩, fun b hb => (hbytes b hb).1.1⟩, hany⟩, hbrace⟩, hat⟩, hslash⟩, hlock⟩

lemma two_le_length_splitOn_iff : 2 ≤ (s.splitOn 0x2f).length ↔ 0x2f ∈ s := by
  by_cases h : 0x2f ∈ s
  · obtain ⟨first, rest, rfl, hfirst⟩ := eq_append_cons_of_mem h
    have hrest : 0 < (rest.splitOn 0x2f).length := length_pos_iff.mpr (splitOn_ne_nil _ _)
    simp [Lines.splitOn_cut hfirst]
    omega
  · simp [Lines.splitOn_word h, h]

section Names

variable (hhead : s ≠ HEAD) (hdash : IsBranch s ∨ IsTag s → ∀ c, (s.splitOn 0x2f)[2]? = some c → ¬ [0x2d] <+: c)

include hdash in
lemma any_refuses_iff : (s.splitOn 0x2f).zipIdx.any (fun (part, i) => refuses s part i) = false ↔
    ∀ part ∈ s.splitOn 0x2f, part ≠ [] ∧ badPart part = false := by
  rw [any_eq_false]
  constructor
  · intro h part hpart
    obtain ⟨i, hi⟩ := mem_iff_getElem?.mp hpart
    have hgood := h (part, i) (mk_mem_zipIdx_iff_getElem?.mpr hi)
    simp only [refuses, Bool.or_eq_true, decide_eq_true_eq, not_or, length_eq_zero_iff, Bool.not_eq_true] at hgood
    exact hgood.1
  · rintro h ⟨part, i⟩ hpart
    rw [mk_mem_zipIdx_iff_getElem?] at hpart
    obtain ⟨hne, hgood⟩ := h part (mem_of_getElem? hpart)
    simp only [refuses, length_eq_zero_iff, hne, hgood, decide_false, Bool.or_self, Bool.false_or,
      Bool.and_eq_true, Bool.or_eq_true, decide_eq_true_eq]
    rintro ⟨⟨hkind, hpre⟩, rfl⟩
    exact hdash hkind part hpart hpre

include hhead hdash

lemma Validate_eq_none_iff : Validate s = none ↔ ¬ [0x2e] <:+ s ∧ 0x2f ∈ s ∧
    ∀ part ∈ s.splitOn 0x2f, part ≠ [] ∧ badPart part = false := by
  rw [← any_refuses_iff hdash, ← two_le_length_splitOn_iff, Validate, if_neg hhead]
  dsimp only
  split_ifs with hnil hdot hlen hany
  · simp [length_eq_zero_iff.mp hnil]
  · simp [hdot]
  · simp [show ¬ 2 ≤ (s.splitOn 0x2f).length from not_le.mpr hlen]
  · simp [hany]
  · simpa [hdot, hany] using not_lt.mp hlen

lemma Validate_eq_none_iff_rules : Validate s = none ↔ Rules s ∧ [0x40] ∉ s.splitOn 0x2f := by
  have hsub : ∀ {sub : Bytes}, (0x2f : UInt8) ∉ sub → (sub <:+: s ↔ ∃ part ∈ s.splitOn 0x2f, sub <:+: part) :=
    fun hno => Lines.infix_iff_splitOn hno s
  have hbyte : ∀ b : UInt8, b ≠ 0x2f → (b ∈ s ↔ ∃ part ∈ s.splitOn 0x2f, b ∈ part) := by
    intro b hb
    simpa only [singleton_infix_iff] using @hsub [b] (by simpa using Ne.symm hb)
  have hslashes := @Lines.nil_mem_splitOn_iff UInt8 0x2f _ s
  simp only [Validate_eq_none_iff hhead hdash, badPart_eq_false_iff]
  constructor
  · rintro ⟨hdot, hslash, hall⟩
    have hbytes : ∀ b ∈ s, (¬ ctrlSeqs b ∧ b ∉ textBytes " ~^:") ∧ b ∉ textBytes "?*[" := by
      intro b hb
      by_cases hb2f : b = 0x2f
      · rw [hb2f]
        decide
      · obtain ⟨part, hpart, hin⟩ := (hbyte b hb2f).mp hb
        exact (hall part hpart).2.2.2.1 b hin
    have hnone : [] ∉ s.splitOn 0x2f := fun hin => (hall [] hin).1 rfl
    rw [hslashes, not_or, not_or, not_or] at hnone
    refine ⟨⟨fun c hc => (hall c hc).2.1, hslash, fun h => ?_, fun b hb => (hbytes b hb).1,
      fun b hb => (hbytes b hb).2, hnone.2, hdot, fun h => ?_, fun h => ?_, fun h => ?_⟩, fun h => (hall _ h).2.2.2.2.2.2 rfl⟩
    · obtain ⟨part, hpart, hin⟩ := (hsub (by decide)).mp h
      exact (hall part hpart).2.2.1 hin
    · obtain ⟨part, hpart, hin⟩ := (hsub (by decide)).mp h
      exact (hall part hpart).2.2.2.2.1 hin
    · rw [h] at hslash
      exact absurd hslash (by decide)
    · obtain ⟨part, hpart, hin⟩ := (hbyte 0x5c (by decide)).mp h
      exact (hall part hpart).2.2.2.2.2.1 hin
  · rintro ⟨hrules, hat⟩
    refine ⟨hrules.dot, hrules.slash, fun part hpart => ⟨?_, hrules.component part hpart, fun h => ?_, fun b hb => ?_,
      fun h => ?_, fun h => ?_, fun h => ?_⟩⟩
    · rintro rfl
      have hnil := hslashes.mp hpart
      have hne : s ≠ [] := ne_nil_of_mem hrules.slash
      simp [hne, hrules.slashes] at hnil
    · exact hrules.dots ((hsub (by decide)).mpr ⟨part, hpart, h⟩)
    · have hne : b ≠ 0x2f := fun h => Lines.not_mem_of_mem_splitOn s part hpart (h ▸ hb)
      have hin := (hbyte b hne).mpr ⟨part, hpart, hb⟩
      exact ⟨hrules.control b hin, hrules.pattern b hin⟩
    · exact hrules.brace ((hsub (by decide)).mpr ⟨part, hpart, h⟩)
    · exact hrules.backslash ((hbyte _ (by decide)).mpr ⟨part, hpart, h⟩)
    · exact hat (h ▸ hpart)

end Names

end Validate

/-- A name is accepted exactly if it follows the rules, unless some part of it is `@`. -/
theorem Validate_iff_rules_iff (s : ReferenceName) (hhead : s ≠ HEAD)
    (hdash : IsBranch s ∨ IsTag s → ∀ c, (s.splitOn 0x2f)[2]? = some c → ¬ [0x2d] <+: c) :
    (Validate s = none ↔ Rules s) ↔ ([0x40] ∉ s.splitOn 0x2f ∨ ¬ Rules s) := by
  rw [Validate_eq_none_iff_rules hhead hdash]
  tauto

theorem Validate_iff_rules_main : Validate (textBytes "refs/heads/main") = none ↔ Rules (textBytes "refs/heads/main") :=
  (Validate_iff_rules_iff _ (by decide +kernel) fun _ c hc => by
    obtain rfl : textBytes "main" = c := Option.some.inj hc
    decide +kernel).mpr (.inl (by decide +kernel))

theorem Validate_not_iff_rules : Validate (textBytes "refs/heads/@") ≠ none ∧ Rules (textBytes "refs/heads/@") := by
  refine ⟨by decide +kernel, ?_⟩
  constructor <;> decide +kernel

end GoGit.ReferenceName
