/-
  Panthera.Configd.Patterns — the keys that a pattern matches
  (`match_component_regex_cstr`, `string_matches_store_pattern`).

  A pattern is a word of literal characters and of tokens `[^/]+`. As a regular expression the
  token stands for one or more characters other than the slash, and its language is the product
  of those of its items. The matcher takes the longest component for a token and never comes
  back, so it decides that language only where no shorter choice could go on: where each token
  of the pattern stands at its end or before a slash.

  For such patterns the matcher decides the language (`match_component_iff_mem_language`).
-/

import Mathlib.Computability.Language
import Mathlib.Data.List.TakeWhile
import Panthera.Configd.Keys

namespace Panthera.Configd

/-! ## The language of a pattern -/

inductive Item where
  | component
  | literal (c : Char)
  deriving DecidableEq, Repr

def items : (pattern : List Char) → List Item
  | '[' :: '^' :: '/' :: ']' :: '+' :: pattern => .component :: items pattern
  | c :: pattern => .literal c :: items pattern
  | [] => []

/-- The words without `sep` that are not empty. -/
def component {α : Type*} (sep : α) : Language α := {w | w ≠ [] ∧ sep ∉ w}

def Item.language : Item → Language Char
  | component => Configd.component '/'
  | literal c => {[c]}

def language (pattern : List Char) : Language Char := ((items pattern).map Item.language).prod

/-- Each token of the pattern stands at its end or before a slash. -/
def WholeComponents (pattern : List Char) : Prop :=
  ∀ before after, pattern = before ++ (regexToken ++ after) → after = [] ∨ after.head? = some '/'

variable {pattern text : List Char}

theorem WholeComponents.of_append (before : List Char) (h : WholeComponents (before ++ pattern)) :
    WholeComponents pattern := by
  intro before' after hp
  apply h (before ++ before') after
  rw [hp, List.append_assoc]

/-! ## One item -/

section Component

variable {α : Type*} [DecidableEq α] {sep : α} {L : Language α}

/-- A component before words that begin with the separator ends at the first separator: there is no other way to split. -/
theorem mem_component_mul (hL : ∀ w ∈ L, w = [] ∨ w.head? = some sep) (word : List α) :
    word ∈ component sep * L ↔ (word.head? ≠ none ∧ word.head? ≠ some sep) ∧ word.dropWhile (· ≠ sep) ∈ L := by
  rw [Language.mem_mul]
  constructor
  · rintro ⟨w, ⟨hw, hsep⟩, rest, hrest, rfl⟩
    obtain ⟨c, w, rfl⟩ := List.exists_cons_of_ne_nil hw
    have hdrop : ((c :: w) ++ rest).dropWhile (· ≠ sep) = rest := by
      rw [List.dropWhile_append_of_pos (by intro a ha; simpa using ne_of_mem_of_not_mem ha hsep)]
      rcases hL rest hrest with rfl | hhead
      · rfl
      · obtain ⟨rest, rfl⟩ := List.head?_eq_some_iff.mp hhead
        simp
    refine ⟨⟨by simp, ?_⟩, hdrop.symm ▸ hrest⟩
    simpa using (List.ne_of_not_mem_cons hsep).symm
  · rintro ⟨⟨hnone, hhead⟩, hrest⟩
    refine ⟨word.takeWhile (· ≠ sep), ⟨?_, ?_⟩, _, hrest, List.takeWhile_append_dropWhile⟩
    · cases word with
      | nil => simp at hnone
      | cons c word =>
        have hc : c ≠ sep := by simpa using hhead
        simp [hc]
    · intro hmem
      simpa using List.mem_takeWhile_imp hmem

omit [DecidableEq α] in
theorem mem_singleton_mul (c : α) (word : List α) : word ∈ ({[c]} : Language α) * L ↔ word.head? = some c ∧ word.tail ∈ L := by
  rw [Language.mem_mul]
  constructor
  · rintro ⟨_, rfl, rest, hrest, rfl⟩
    exact ⟨rfl, hrest⟩
  · rintro ⟨hhead, hrest⟩
    obtain ⟨rest, rfl⟩ := List.head?_eq_some_iff.mp hhead
    exact ⟨[c], rfl, rest, hrest, rfl⟩

end Component

@[simp] theorem mem_language_nil (key : List Char) : key ∈ language [] ↔ key = [] := Language.mem_one key

theorem language_literal {c : Char} (h : items (c :: pattern) = .literal c :: items pattern) :
    language (c :: pattern) = {[c]} * language pattern := by
  rw [language, h]
  rfl

/-- What follows a token: nothing, or words that begin with a slash. -/
theorem language_head (h : pattern = [] ∨ pattern.head? = some '/') :
    ∀ w ∈ language pattern, w = [] ∨ w.head? = some '/' := by
  intro w hw
  rcases h with rfl | hslash
  · exact .inl ((mem_language_nil w).mp hw)
  · obtain ⟨pattern, rfl⟩ := List.head?_eq_some_iff.mp hslash
    rw [language_literal rfl, mem_singleton_mul] at hw
    exact .inr hw.1

theorem mem_language_token (h : WholeComponents (regexToken ++ pattern)) (key : List Char) :
    key ∈ language (regexToken ++ pattern) ↔
      ¬ (key.head? = none ∨ key.head? = some '/') ∧ key.dropWhile (· ≠ '/') ∈ language pattern := by
  rw [not_or]
  exact mem_component_mul (language_head (h [] pattern rfl)) key

/-! ## The matcher -/

/-- The matcher decides the language of a pattern whose tokens stand for whole components. -/
theorem matchComponentRegexCstr_iff {key : List Char} (h : WholeComponents pattern) :
    matchComponentRegexCstr key pattern = true ↔ key ∈ language pattern := by
  fun_induction matchComponentRegexCstr key pattern with
  | case1 key pattern hkey =>
    -- nothing for the token: the key is at its end or at a slash
    have htoken := mem_language_token h key
    exact iff_of_false Bool.false_ne_true fun h => (htoken.mp h).1 hkey
  | case2 key pattern hkey ih =>
    have htoken := mem_language_token h key
    exact (ih (h.of_append regexToken)).trans ((and_iff_right hkey).symm.trans htoken.symm)
  | case3 key c pattern hliteral hkey =>
    rw [language_literal (items.eq_2 c pattern hliteral), mem_singleton_mul]
    exact iff_of_false Bool.false_ne_true fun h => hkey h.1
  | case4 key c pattern hliteral hkey ih =>
    rw [language_literal (items.eq_2 c pattern hliteral), mem_singleton_mul, ih (h.of_append [c])]
    exact (and_iff_right (not_not.mp hkey)).symm
  | case5 key => rw [mem_language_nil, List.isEmpty_iff]

/-- For every key and every pattern with each token at its end or before a slash, the matcher says whether the key is
    a word of the pattern's language. -/
theorem match_component_iff_mem_language (key pattern : List Char)
    (h : ∀ before after, pattern = before ++ (regexToken ++ after) → after = [] ∨ after.head? = some '/') :
    matchComponentRegexCstr key pattern = true ↔ key ∈ language pattern :=
  matchComponentRegexCstr_iff h

/-! ## The patterns of SystemConfiguration -/

/-- No token begins inside a text without `[`. -/
theorem WholeComponents.append (htext : '[' ∉ text) (h : WholeComponents pattern) :
    WholeComponents (text ++ pattern) := by
  intro before after hp
  rcases List.append_eq_append_iff.mp hp with ⟨rest, rfl, hrest⟩ | ⟨inside, rfl, hinside⟩
  · exact h rest after hrest
  · cases inside with
    | nil => exact h [] after hinside.symm
    | cons c inside =>
      obtain ⟨rfl, -⟩ := List.cons.inj hinside
      exact absurd (List.mem_append_right before List.mem_cons_self) htext

theorem WholeComponents.token (hafter : pattern = [] ∨ pattern.head? = some '/') (h : WholeComponents pattern) :
    WholeComponents (regexToken ++ pattern) := by
  intro before after hp
  cases before with
  | nil => exact List.append_cancel_left hp ▸ hafter
  | cons c before =>
    have hrest : ['^', '/', ']', '+'] ++ pattern = before ++ (regexToken ++ after) := (List.cons.inj hp).2
    have hplain : '[' ∉ ['^', '/', ']', '+'] := by decide
    exact h.append hplain before after hrest

theorem wholeComponents_of_plain (htext : '[' ∉ text) : WholeComponents text := by
  intro before after hp
  exact absurd (hp ▸ List.mem_append_right before List.mem_cons_self) htext

theorem mem_language_append (htext : '[' ∉ text) (pattern key : List Char) :
    key ∈ language (text ++ pattern) ↔ ∃ rest ∈ language pattern, key = text ++ rest := by
  induction text generalizing key with
  | nil => simp
  | cons c text ih =>
    obtain ⟨hc, htext⟩ := List.ne_and_not_mem_of_not_mem_cons htext
    have hitems : items (c :: (text ++ pattern)) = .literal c :: items (text ++ pattern) :=
      items.eq_2 c (text ++ pattern) fun _ hc' _ => hc hc'.symm
    rw [List.cons_append, language_literal hitems, mem_singleton_mul, ih htext]
    constructor
    · rintro ⟨hhead, rest, hrest, htail⟩
      obtain ⟨key, rfl⟩ := List.head?_eq_some_iff.mp hhead
      exact ⟨rest, hrest, congrArg (c :: ·) htail⟩
    · rintro ⟨rest, hrest, rfl⟩
      exact ⟨rfl, rest, hrest, rfl⟩

theorem mem_language_of_plain (htext : '[' ∉ text) (key : List Char) : key ∈ language text ↔ key = text := by
  have h := mem_language_append htext [] key
  simpa using h

section ServiceEntity

theorem not_mem_networkService : '[' ∉ networkService := by
  unfold networkService
  decide

variable {domain entity : CFString} (hdomain : '[' ∉ domain) (hentity : '[' ∉ entity)

include hentity in
theorem not_mem_slash_entity : '[' ∉ '/' :: entity := List.not_mem_cons_of_ne_of_not_mem (by decide) hentity

include hdomain hentity

theorem wholeComponents_serviceEntity : WholeComponents (networkServiceEntity domain regexToken entity) := by
  apply WholeComponents.append hdomain
  apply WholeComponents.append not_mem_networkService
  exact (wholeComponents_of_plain (not_mem_slash_entity hentity)).token (.inr rfl)

theorem mem_language_serviceEntity (key : List Char) :
    key ∈ language (networkServiceEntity domain regexToken entity) ↔
      ∃ service, service ≠ [] ∧ '/' ∉ service ∧ key = networkServiceEntity domain service entity := by
  rw [networkServiceEntity, mem_language_append hdomain]
  constructor
  · rintro ⟨key, hkey, rfl⟩
    obtain ⟨key, hcomponent, rfl⟩ := (mem_language_append not_mem_networkService _ key).mp hkey
    obtain ⟨service, ⟨hne, hslash⟩, rest, hrest, rfl⟩ := Language.mem_mul.mp hcomponent
    obtain rfl := (mem_language_of_plain (not_mem_slash_entity hentity) rest).mp hrest
    exact ⟨service, hne, hslash, rfl⟩
  · rintro ⟨service, hne, hslash, rfl⟩
    have hrest := (mem_language_of_plain (not_mem_slash_entity hentity) ('/' :: entity)).mpr rfl
    have hservice : service ++ '/' :: entity ∈ language (regexToken ++ '/' :: entity) :=
      Language.append_mem_mul ⟨hne, hslash⟩ hrest
    exact ⟨_, (mem_language_append not_mem_networkService _ _).mpr ⟨_, hservice, rfl⟩, rfl⟩

/-- The pattern of an entity of any service is matched by that entity's keys, one for each service name, and by no others. -/
theorem match_serviceEntity (key : List Char) :
    matchComponentRegexCstr key (networkServiceEntity domain regexToken entity) = true ↔
      ∃ service, service ≠ [] ∧ '/' ∉ service ∧ key = networkServiceEntity domain service entity := by
  rw [matchComponentRegexCstr_iff (wholeComponents_serviceEntity hdomain hentity)]
  exact mem_language_serviceEntity hdomain hentity key

end ServiceEntity

/-- `State:/Network/Service/[^/]+/IPv4` has the key of `en0` in its language. -/
theorem match_component_iff_mem_language_en0 :
    matchComponentRegexCstr (networkServiceEntity stateDomain ['e', 'n', '0'] entIPv4)
        (networkServiceEntity stateDomain regexToken entIPv4) = true ∧
      networkServiceEntity stateDomain ['e', 'n', '0'] entIPv4 ∈ language (networkServiceEntity stateDomain regexToken entIPv4) := by
  have hdomain : '[' ∉ stateDomain := by unfold stateDomain; decide
  have hentity : '[' ∉ entIPv4 := by unfold entIPv4; decide
  have hmatch : matchComponentRegexCstr (networkServiceEntity stateDomain ['e', 'n', '0'] entIPv4)
      (networkServiceEntity stateDomain regexToken entIPv4) = true := by
    rw [match_serviceEntity hdomain hentity]
    exact ⟨['e', 'n', '0'], by decide, by decide, rfl⟩
  exact ⟨hmatch, (match_component_iff_mem_language _ _ (wholeComponents_serviceEntity hdomain hentity)).mp hmatch⟩

end Panthera.Configd
