import GoGit.Object

/-! The rules `url.<base>.insteadOf` for the URLs of a remote. The rules are a map, which is ranged over in any order. -/
namespace GoGit.Config

open List

structure URL where
  name : Bytes
  insteadOfs : List Bytes

def matchStep (remoteURL : Bytes) (best : Option URL × ℕ) (p : URL × Bytes) : Option URL × ℕ :=
  if p.2 <+: remoteURL ∧ (best.1.isNone ∨ best.2 < p.2.length) then (some p.1, p.2.length) else best

/-- The rules with each of their prefixes, as the loops of `findLongestInsteadOfMatch` go through them. -/
def prefixes (urls : List URL) : List (URL × Bytes) := urls.flatMap fun u => u.insteadOfs.map (u, ·)

def findLongestInsteadOfMatch (remoteURL : Bytes) (urls : List URL) : Option URL :=
  ((prefixes urls).foldl (matchStep remoteURL) (none, 0)).1

def URL.applyInsteadOf (u : URL) (url : Bytes) : Bytes :=
  match u.insteadOfs.find? fun j => j <+: url with
  | some j => u.name ++ url.drop j.length
  | none => url

structure RemoteConfig where
  urls : List Bytes
  originalURLs : List Bytes := []
  insteadOfRulesApplied : Bool := false

def rewritten (urlRules : List URL) (url : Bytes) : Bytes :=
  match findLongestInsteadOfMatch url urlRules with
  | some u => u.applyInsteadOf url
  | none => url

def RemoteConfig.applyURLRules (c : RemoteConfig) (urlRules : List URL) : RemoteConfig :=
  let applied := c.insteadOfRulesApplied || c.urls.any fun url => (findLongestInsteadOfMatch url urlRules).isSome
  { urls := c.urls.map (rewritten urlRules)
    originalURLs := if applied then c.urls else c.originalURLs
    insteadOfRulesApplied := applied }

section Rules

variable (rules : List URL) (url : Bytes)

/-- The rule `u` has the longest of all prefixes that match. -/
def Longest (u : URL) (j : Bytes) : Prop :=
  (u, j) ∈ prefixes rules ∧ j <+: url ∧ ∀ p ∈ prefixes rules, p.2 <+: url → p.2.length ≤ j.length

def Rewrites (result : Bytes) : Prop :=
  (∀ p ∈ prefixes rules, ¬ p.2 <+: url) ∧ result = url ∨
    ∃ u j, Longest rules url u j ∧ result = u.name ++ url.drop j.length

/-- The first prefix `i` that matches in a rule with the longest prefix `j` is `j`, or some rule with the longest prefix
has the base that gives the same. -/
def FirstLongest : Prop :=
  ∀ u j, Longest rules url u j → ∃ i, u.insteadOfs.find? (fun i => i <+: url) = some i ∧
    ∃ u', Longest rules url u' j ∧ u'.name = u.name ++ j.drop i.length

variable {rules url} {u u' : URL} {j j' : Bytes}

lemma foldl_matchStep (l : List (URL × Bytes)) (best : Option URL × ℕ) :
    (l.foldl (matchStep url) best = best ∧ ∀ p ∈ l, p.2 <+: url → ¬ best.1.isNone ∧ p.2.length ≤ best.2) ∨
      ∃ u j, (u, j) ∈ l ∧ j <+: url ∧ l.foldl (matchStep url) best = (some u, j.length) ∧
        (best.1.isNone ∨ best.2 < j.length) ∧ ∀ p ∈ l, p.2 <+: url → p.2.length ≤ j.length := by
  induction l generalizing best with
  | nil => simp
  | cons p l ih =>
    rw [foldl_cons, matchStep]
    split_ifs with hp
    · refine .inr ?_
      obtain ⟨heq, hle⟩ | ⟨u, j, hmem, hj, heq, hlonger, hle⟩ := ih (some p.1, p.2.length)
      · exact ⟨p.1, p.2, mem_cons_self, hp.1, heq, hp.2, forall_mem_cons.mpr ⟨fun _ => le_rfl, fun q hq hm => (hle q hq hm).2⟩⟩
      · have hlt : p.2.length < j.length := by simpa using hlonger
        exact ⟨u, j, mem_cons_of_mem _ hmem, hj, heq, hp.2.imp_right fun h => h.trans hlt,
          forall_mem_cons.mpr ⟨fun _ => hlt.le, hle⟩⟩
    · have hp' : p.2 <+: url → ¬ best.1.isNone ∧ p.2.length ≤ best.2 := fun hm => by simpa [hm] using hp
      obtain ⟨heq, hle⟩ | ⟨u, j, hmem, hj, heq, hlonger, hle⟩ := ih best
      · exact .inl ⟨heq, forall_mem_cons.mpr ⟨hp', hle⟩⟩
      · refine .inr ⟨u, j, mem_cons_of_mem _ hmem, hj, heq, hlonger, forall_mem_cons.mpr ⟨fun hm => ?_, hle⟩⟩
        exact (hp' hm).2.trans (hlonger.resolve_left (hp' hm).1).le

lemma findLongestInsteadOfMatch_cases (url : Bytes) (rules : List URL) :
    (findLongestInsteadOfMatch url rules = none ∧ ∀ p ∈ prefixes rules, ¬ p.2 <+: url) ∨
      ∃ u j, findLongestInsteadOfMatch url rules = some u ∧ Longest rules url u j := by
  rw [findLongestInsteadOfMatch]
  obtain ⟨heq, hnone⟩ | ⟨u, j, hmem, hj, heq, -, hle⟩ := @foldl_matchStep url (prefixes rules) (none, 0)
  · exact .inl ⟨by rw [heq], fun p hp hm => (hnone p hp hm).1 rfl⟩
  · exact .inr ⟨u, j, by rw [heq], hmem, hj, hle⟩

lemma mem_prefixes : (u, j) ∈ prefixes rules ↔ u ∈ rules ∧ j ∈ u.insteadOfs := by simp [prefixes]

variable {order : List URL}

lemma mem_prefixes_perm (h : order ~ rules) (p : URL × Bytes) :
    p ∈ prefixes order ↔ p ∈ prefixes rules := (h.flatMap_right _).mem_iff

section

variable (h : Longest rules url u j)

include h

/-- A rule with the longest prefix is found in an order in which it comes first. -/
lemma Longest.found : ∃ order, order ~ rules ∧ findLongestInsteadOfMatch url order = some u := by
  obtain ⟨hmem, hmatch, hle⟩ := h
  obtain ⟨hu, hj⟩ := mem_prefixes.mp hmem
  replace hj : (u, j) ∈ u.insteadOfs.map (u, ·) := mem_map_of_mem hj
  obtain ⟨a, b, rfl⟩ := append_of_mem hu
  have hperm : u :: (a ++ b) ~ a ++ u :: b := perm_middle.symm
  have hall := fun p hp => hle p ((mem_prefixes_perm hperm p).mp hp)
  rw [prefixes, flatMap_cons, ← prefixes] at hall
  refine ⟨u :: (a ++ b), hperm, ?_⟩
  rw [findLongestInsteadOfMatch, prefixes, flatMap_cons, foldl_append, ← prefixes]
  obtain ⟨-, hnone⟩ | ⟨u', i, hi, -, heq, -, hmax⟩ := @foldl_matchStep url (u.insteadOfs.map (u, ·)) (none, 0)
  · exact absurd rfl (hnone _ hj hmatch).1
  obtain ⟨_, -, hpair⟩ := mem_map.mp hi
  cases hpair
  rw [heq]
  obtain ⟨heq', -⟩ | ⟨u', j', hmem', hj', -, hlonger, -⟩ := @foldl_matchStep url (prefixes (a ++ b)) (some u, i.length)
  · rw [heq']
  · have hlt : i.length < j'.length := by simpa using hlonger
    exact absurd ((hall _ (mem_append_right _ hmem') hj').trans (hmax _ hj hmatch)) (not_le.mpr hlt)

lemma Longest.unique (h' : Longest rules url u' j') : j' = j := by
  have hlen : j'.length = j.length := le_antisymm (h.2.2 _ h'.1 h'.2.1) (h'.2.2 _ h.1 h.2.1)
  exact (prefix_of_prefix_length_le h'.2.1 h.2.1 hlen.le).eq_of_length hlen

lemma Longest.rewrites_iff :
    Rewrites rules url (u.applyInsteadOf url) ↔ ∃ i, u.insteadOfs.find? (fun i => i <+: url) = some i ∧
      ∃ u', Longest rules url u' j ∧ u'.name = u.name ++ j.drop i.length := by
  obtain ⟨hu, hj⟩ := mem_prefixes.mp h.1
  obtain ⟨i, hfind⟩ : ∃ i, u.insteadOfs.find? (fun i => i <+: url) = some i :=
    Option.isSome_iff_exists.mp (find?_isSome.mpr ⟨j, hj, decide_eq_true h.2.1⟩)
  have hi : i <+: url := by simpa using find?_some hfind
  have hle := h.2.2 (u, i) (mem_prefixes.mpr ⟨hu, mem_of_find?_eq_some hfind⟩) hi
  obtain ⟨k, rfl⟩ := prefix_of_prefix_length_le hi h.2.1 hle
  obtain ⟨t, rfl⟩ := id h.2.1
  have hresult : u.applyInsteadOf (i ++ k ++ t) = u.name ++ k ++ t := by
    simp only [URL.applyInsteadOf, hfind]
    rw [append_assoc i, drop_left, append_assoc]
  simp only [hfind, Option.some.injEq, exists_eq_left', drop_left]
  rw [Rewrites, hresult]
  constructor
  · rintro (⟨hnone, -⟩ | ⟨u', j', h', heq⟩)
    · exact absurd h.2.1 (hnone _ h.1)
    · obtain rfl := h.unique h'
      rw [drop_left] at heq
      exact ⟨u', h', (append_cancel_right heq).symm⟩
  · rintro ⟨u', h', hname⟩
    exact .inr ⟨u', _, h', by rw [drop_left, hname]⟩

end

lemma rewritten_cases (h : order ~ rules) (url : Bytes) :
    (rewritten order url = url ∧ ∀ p ∈ prefixes rules, ¬ p.2 <+: url) ∨
      ∃ u j, rewritten order url = u.applyInsteadOf url ∧ Longest rules url u j := by
  obtain ⟨hfind, hnone⟩ | ⟨u, j, hfind, hmem, hj, hle⟩ := findLongestInsteadOfMatch_cases url order
  · exact .inl ⟨by rw [rewritten, hfind], fun p hp => hnone p ((mem_prefixes_perm h p).mpr hp)⟩
  · exact .inr ⟨u, j, by rw [rewritten, hfind], (mem_prefixes_perm h _).mp hmem, hj,
      fun p hp => hle p ((mem_prefixes_perm h p).mpr hp)⟩

/-- For every order of the rules the longest prefix is replaced exactly then, and with one rule that has it the order
makes no difference. -/
theorem applyURLRules_iff (rules : List URL) (c : RemoteConfig) :
    (∀ order, order ~ rules → Forall₂ (Rewrites rules) c.urls (c.applyURLRules order).urls) ∧
      (∀ url ∈ c.urls, (∀ u j u' j', Longest rules url u j → Longest rules url u' j' → u = u') →
        ∀ order order', order ~ rules → order' ~ rules → rewritten order url = rewritten order' url) ↔
      ∀ url ∈ c.urls, FirstLongest rules url := by
  simp only [RemoteConfig.applyURLRules, forall₂_map_right_iff, forall₂_same]
  constructor
  · rintro ⟨hall, -⟩ url hurl u j h
    obtain ⟨order, hperm, hfound⟩ := h.found
    have hrewrites := hall order hperm url hurl
    rw [rewritten, hfound] at hrewrites
    exact h.rewrites_iff.mp hrewrites
  · intro hfirst
    refine ⟨fun order hperm url hurl => ?_, fun url hurl hone order order' hperm hperm' => ?_⟩
    · obtain ⟨heq, hnone⟩ | ⟨u, j, heq, h⟩ := rewritten_cases hperm url
      · exact .inl ⟨hnone, heq⟩
      · rw [heq]
        exact h.rewrites_iff.mpr (hfirst url hurl u j h)
    · obtain ⟨heq, hnone⟩ | ⟨u, j, heq, h⟩ := rewritten_cases hperm url <;>
        obtain ⟨heq', hnone'⟩ | ⟨u', j', heq', h'⟩ := rewritten_cases hperm' url
      · rw [heq, heq']
      · exact absurd h'.2.1 (hnone _ h'.1)
      · exact absurd h.2.1 (hnone' _ h.1)
      · rw [heq, heq', hone u j u' j' h h']

/-- The base `x` instead of `a` and instead of `ab`. -/
def shorterFirst : URL := ⟨textBytes "x", [textBytes "a", textBytes "ab"]⟩

theorem applyURLRules_shorterFirst : ¬ Forall₂ (Rewrites [shorterFirst]) [textBytes "abc"]
    (RemoteConfig.applyURLRules ⟨[textBytes "abc"], [], false⟩ [shorterFirst]).urls := by
  have hurls : (RemoteConfig.applyURLRules ⟨[textBytes "abc"], [], false⟩ [shorterFirst]).urls = [textBytes "xbc"] := by
    decide +kernel
  rw [hurls, forall₂_cons]
  rintro ⟨⟨hnone, -⟩ | ⟨u, j, ⟨hmem, -, hle⟩, heq⟩, -⟩
  · exact hnone (shorterFirst, textBytes "a") (mem_prefixes.mpr (by simp [shorterFirst])) (by decide)
  · obtain ⟨hu, hj⟩ := mem_prefixes.mp hmem
    obtain rfl := mem_singleton.mp hu
    rcases mem_pair.mp hj with rfl | rfl
    · have hlong := hle (shorterFirst, textBytes "ab") (mem_prefixes.mpr (by simp [shorterFirst])) (by decide)
      exact absurd hlong (by decide)
    · exact absurd heq (by decide)

end Rules

end GoGit.Config
