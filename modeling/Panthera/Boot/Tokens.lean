/-
  Panthera.Boot.Tokens — the words of `boot-args.txt` on the command line
  (`panthera_load_boot_command_line`, `panthera_command_line_has_token`).

  The file's words are its maximal runs of bytes above the space. The command line is the first 1023 bytes
  of the file's text with one space between two words, and the tokeniser finds the
  words of the line. So it finds a word that is not in the file exactly if the text is cut inside a word, and
  what is left of that word is none itself (`tokens_iff`). Nothing is lost of a text that fits.
-/

import Panthera.Lib.Words
import Panthera.Boot.CommandLine

namespace Panthera.Boot

open Lib.Words

/-- The bytes that are not part of a word. -/
def isBlank (b : UInt8) : Bool := b ≤ 0x20

/-- The text with one space between two words. -/
def squeezed (text : List UInt8) : List UInt8 := squeeze isBlank 0x20 true text

/-- The same without the space that may be at its end. -/
def normalised (text : List UInt8) : List UInt8 := (squeezed text).rdropWhile (· = 0x20)

/-- What the buffer has of the word that it ends in. -/
def cutWord (text : List UInt8) : List UInt8 := lastWord isBlank ((squeezed text).take 1023)

/-! ## The line -/

theorem isBlank_iff (b : UInt8) : isBlank b = true ↔ (if b < 0x20 then 0x20 else b) = 0x20 := by
  rw [isBlank, decide_eq_true_eq, UInt8.le_iff_toNat_le]
  split
  · rename_i hlt
    rw [UInt8.lt_iff_toNat_lt] at hlt
    exact iff_of_true (Nat.le_of_lt hlt) rfl
  · rename_i hge
    rw [UInt8.lt_iff_toNat_lt] at hge
    rw [← UInt8.toNat_inj]
    omega

/-- A step that has room. -/
theorem commandLineStep_eq {out : List UInt8} (h : out.length < 1023) (afterBlank : Bool) (b : UInt8) :
    commandLineStep (out, afterBlank) b =
      if isBlank b then if afterBlank then (out, true) else (out ++ [0x20], true) else (out ++ [b], false) := by
  rw [commandLineStep, if_neg (by simp only [commandLineSize]; omega)]
  cases hb : isBlank b with
  | true =>
    have hnext := (isBlank_iff b).mp hb
    cases afterBlank <;> simp [hnext]
  | false =>
    have hnext : ¬ (if b < 0x20 then 0x20 else b) = 0x20 := by
      rw [← isBlank_iff, hb]
      exact Bool.false_ne_true
    have hsame : (if b < 0x20 then 0x20 else b) = b := if_neg fun hlt => hnext (if_pos hlt)
    rw [hsame] at hnext ⊢
    simp [hnext]

theorem foldl_commandLineStep (text out : List UInt8) (afterBlank : Bool) (h : out.length ≤ 1023) :
    (text.foldl commandLineStep (out, afterBlank)).1 = out ++ (squeeze isBlank 0x20 afterBlank text).take (1023 - out.length) := by
  induction text generalizing out afterBlank with
  | nil => simp [squeeze]
  | cons b text ih =>
    rw [List.foldl_cons]
    rcases Nat.lt_or_eq_of_le h with hroom | hfull
    · have hlen : ∀ c : UInt8, (out ++ [c]).length ≤ 1023 := by simp; omega
      -- a byte that is kept takes one of the places that are left
      have hkept : ∀ (c : UInt8) (l : List UInt8), out ++ [c] ++ l.take (1023 - (out ++ [c]).length) = out ++ (c :: l).take (1023 - out.length) := by
        intro c l
        obtain ⟨n, hn⟩ : ∃ n, 1023 - out.length = n + 1 := ⟨1022 - out.length, by omega⟩
        have hnext : 1023 - (out ++ [c]).length = n := by simp; omega
        rw [hn, hnext, List.take_succ_cons, List.append_assoc]
        rfl
      rw [commandLineStep_eq hroom, squeeze]
      split
      · split
        · exact ih out true h
        · rw [ih _ true (hlen _), hkept]
      · rw [ih _ false (hlen _), hkept]
    · have hsame : commandLineStep (out, afterBlank) b = (out, afterBlank) := if_pos (by simp only [commandLineSize]; omega)
      rw [hsame, ih out afterBlank h, hfull, Nat.sub_self, List.take_zero, List.take_zero]

theorem commandLineOf_eq (text : List UInt8) :
    commandLineOf text =
      let line := ((squeezed text).take 1023).rdropWhile (· = 0x20)
      if line = [] then defaultBootArgs else line := by
  rw [commandLineOf, foldl_commandLineStep text [] true (Nat.zero_le _)]
  rfl

theorem rdropWhile_append_rtakeWhile (l : List UInt8) : l.rdropWhile (· = 0x20) ++ l.rtakeWhile (· = 0x20) = l := by
  rw [List.rdropWhile, List.rtakeWhile, ← List.reverse_append, List.takeWhile_append_dropWhile, List.reverse_reverse]

theorem isBlank_of_mem_rtakeWhile {l : List UInt8} : ∀ b ∈ l.rtakeWhile (· = 0x20), isBlank b = true := by
  intro b hb
  have hb : b = 0x20 := by simpa using List.mem_rtakeWhile_imp hb
  rw [hb]
  rfl

/-- Dropping the spaces at the end of a part of the text keeps its words. -/
theorem isWord_rdropWhile {l t : List UInt8} : IsWord isBlank (l.rdropWhile (· = 0x20)) t ↔ IsWord isBlank l t := by
  conv_rhs => rw [← rdropWhile_append_rtakeWhile l]
  exact (isWord_append_seps_right isBlank_of_mem_rtakeWhile).symm

variable {text token : List UInt8}

theorem isWord_squeezed {t : List UInt8} : IsWord isBlank (squeezed text) t ↔ IsWord isBlank text t := isWord_squeeze rfl

/-- A file with a word is not replaced by the arguments that are built in. -/
theorem commandLineOf_of_word (htext : ∃ b ∈ text, 0x20 < b) :
    commandLineOf text = ((squeezed text).take 1023).rdropWhile (· = 0x20) := by
  have hplain : ∃ b ∈ text, isBlank b = false := by
    obtain ⟨b, hb, hlt⟩ := htext
    exact ⟨b, hb, decide_eq_false (UInt8.not_le.mpr hlt)⟩
  obtain ⟨a, rest, hcons, ha⟩ : ∃ a rest, squeeze isBlank 0x20 true text = a :: rest ∧ isBlank a = false := squeeze_eq_cons hplain
  have hne : ((squeezed text).take 1023).rdropWhile (· = 0x20) ≠ [] := by
    intro hnil
    have hall := List.rdropWhile_eq_nil_iff.mp hnil a (by rw [squeezed, hcons]; exact List.mem_cons_self)
    obtain rfl : a = 0x20 := by simpa using hall
    cases ha
  rw [commandLineOf_eq]
  exact if_neg hne

/-! ## The tokeniser -/

theorem agreement_eq_length_iff (start token : List UInt8) : agreement start token = token.length ↔ token <+: start := by
  induction token generalizing start with
  | nil => cases start <;> simp [agreement]
  | cons b token ih =>
    cases start with
    | nil => simp [agreement]
    | cons a start =>
      rw [agreement, List.cons_prefix_cons]
      split
      · rename_i hab
        rw [List.length_cons, Nat.add_right_cancel_iff, ih, hab]
        exact (and_iff_right rfl).symm
      · rename_i hab
        exact iff_of_false (by simp) fun h => hab h.1.symm

/-- A word of the line is the token. -/
theorem agreement_iff (start token : List UInt8) :
    (agreement start token = token.length ∧ agreement start token = (start.takeWhile fun c => ¬ asciiIsSpace c).length) ↔
      token = start.takeWhile fun c => !asciiIsSpace c := by
  have hsame : (start.takeWhile fun c => ¬ asciiIsSpace c) = start.takeWhile fun c => !asciiIsSpace c := by
    congr
    funext c
    simp
  rw [hsame]
  constructor
  · rintro ⟨htoken, hword⟩
    have hle := (agreement_eq_length_iff start token).mp htoken
    rw [htoken] at hword
    exact (List.prefix_of_prefix_length_le hle (List.takeWhile_prefix _) (Nat.le_of_eq hword)).eq_of_length hword
  · rintro rfl
    have hle := (agreement_eq_length_iff start _).mpr (List.takeWhile_prefix fun c => !asciiIsSpace c)
    exact ⟨hle, hle⟩

theorem hasTokenFrom_iff (fuel : Nat) (line : List UInt8) (h : line.length < fuel) :
    hasTokenFrom token fuel line = true ↔ IsWord asciiIsSpace line token := by
  induction fuel generalizing line with
  | zero => cases h
  | succ fuel ih =>
    have hline : IsWord asciiIsSpace line token ↔ IsWord asciiIsSpace (line.dropWhile asciiIsSpace) token := by
      have hseps := isWord_append_seps_left (l := line.dropWhile asciiIsSpace) (t := token) (fun a ha => List.mem_takeWhile_imp (l := line) (p := asciiIsSpace) ha)
      rwa [List.takeWhile_append_dropWhile] at hseps
    rw [hline, hasTokenFrom]
    generalize hstart : line.dropWhile asciiIsSpace = start
    have hle : start.length ≤ line.length := hstart ▸ (List.dropWhile_suffix _).length_le
    dsimp only
    split
    · rename_i hnil
      rw [hnil]
      exact iff_of_false Bool.false_ne_true not_isWord_nil
    · rename_i hne
      have hword : start.takeWhile (fun c => !asciiIsSpace c) ≠ [] := by
        obtain ⟨c, rest, rfl⟩ := List.exists_cons_of_ne_nil hne
        have hc : asciiIsSpace c = false := by
          have hnot := List.head?_dropWhile_not asciiIsSpace line
          rw [hstart] at hnot
          exact hnot
        simp [hc]
      have hrest : (start.dropWhile fun c => !asciiIsSpace c).length < fuel := by
        have hsplit := congrArg List.length (List.takeWhile_append_dropWhile (p := fun c => !asciiIsSpace c) (l := start))
        have hpos := List.length_pos_iff.mpr hword
        rw [List.length_append] at hsplit
        omega
      rw [isWord_iff_takeWhile hword, ← agreement_iff, ← ih _ hrest]
      split
      · rename_i hfound
        exact iff_of_true rfl (.inl hfound)
      · rename_i hother
        have hsame : (start.dropWhile fun c => ¬ asciiIsSpace c) = start.dropWhile fun c => !asciiIsSpace c := by
          congr
          funext c
          simp
        rw [hsame]
        exact (or_iff_right hother).symm

/-- The tokeniser finds the words of a line that has no blanks but spaces. -/
theorem commandLineHasToken_iff {line : List UInt8} (hline : ∀ b ∈ line, isBlank b = true → b = 0x20) :
    commandLineHasToken line token = true ↔ IsWord isBlank line token := by
  have hsep : ∀ b ∈ line, asciiIsSpace b = isBlank b := by
    intro b hb
    cases hblank : isBlank b with
    | true =>
      rw [hline b hb hblank]
      rfl
    | false =>
      apply Bool.eq_false_iff.mpr
      intro hspace
      rcases of_decide_eq_true hspace with rfl | rfl | rfl | rfl <;> cases hblank
  rw [commandLineHasToken]
  split
  · rename_i hnil
    exact iff_of_false Bool.false_ne_true fun h => h.ne_nil hnil
  · rw [hasTokenFrom_iff _ line (Nat.lt_succ_self _)]
    exact ⟨fun h => h.congr hsep, fun h => h.congr fun b hb => (hsep b hb).symm⟩

/-! ## The file's words -/

theorem hasToken_commandLineOf_iff (htext : ∃ b ∈ text, 0x20 < b) :
    commandLineHasToken (commandLineOf text) token = true ↔ IsWord isBlank ((squeezed text).take 1023) token := by
  rw [commandLineOf_of_word htext, commandLineHasToken_iff, isWord_rdropWhile]
  intro b hb hblank
  have hmem := List.mem_of_mem_take ((List.rdropWhile_prefix _ _).mem hb)
  exact eq_blank_of_mem_squeeze hmem hblank

/-- Every word of the file is on the line if the text fits. -/
theorem hasToken_of_fits (htext : ∃ b ∈ text, 0x20 < b) (hfits : (normalised text).length ≤ 1023)
    (h : IsWord isBlank text token) : commandLineHasToken (commandLineOf text) token = true := by
  have htake : (squeezed text).take 1023 =
      normalised text ++ ((squeezed text).rtakeWhile (· = 0x20)).take (1023 - (normalised text).length) := by
    conv_lhs => rw [← rdropWhile_append_rtakeWhile (squeezed text)]
    rw [List.take_append, ← normalised, List.take_of_length_le hfits]
  rw [hasToken_commandLineOf_iff htext, htake, isWord_append_seps_right fun b hb => isBlank_of_mem_rtakeWhile b (List.mem_of_mem_take hb),
    normalised, isWord_rdropWhile, isWord_squeezed]
  exact h

/-- What the tokeniser finds on the command line are words of the file, exactly if the text is not cut inside a word, or what is
    left of that word is one too; and it finds all of them in a text that fits. -/
theorem tokens_iff (text : List UInt8) (htext : ∃ b ∈ text, 0x20 < b) :
    ((∀ token, token ≠ [] → (∀ b ∈ token, 0x20 < b) → commandLineHasToken (commandLineOf text) token = true → IsWord isBlank text token) ∧
        ((normalised text).length ≤ 1023 → ∀ token, IsWord isBlank text token → commandLineHasToken (commandLineOf text) token = true)) ↔
      cutWord text = [] ∨ IsWord isBlank text (cutWord text) := by
  rw [← isWord_squeezed, cutWord, ← isWord_take_iff]
  constructor
  · rintro ⟨hsound, -⟩ token hword
    have habove : ∀ b ∈ token, 0x20 < b := fun b hb => UInt8.not_le.mp (of_decide_eq_false (hword.plain b hb))
    exact isWord_squeezed.mpr (hsound token hword.ne_nil habove ((hasToken_commandLineOf_iff htext).mpr hword))
  · intro hcut
    refine ⟨fun token _ _ hfound => ?_, fun hfits token hword => hasToken_of_fits htext hfits hword⟩
    exact isWord_squeezed.mp (hcut token ((hasToken_commandLineOf_iff htext).mp hfound))

/-- The arguments `-v debug=1`. -/
def shortArgs : List UInt8 := [0x2d, 0x76, 0x20, 0x64, 0x65, 0x62, 0x75, 0x67, 0x3d, 0x31]

theorem tokens_iff_shortArgs :
    (∃ b ∈ shortArgs, 0x20 < b) ∧
      (∀ token, token ≠ [] → (∀ b ∈ token, 0x20 < b) → commandLineHasToken (commandLineOf shortArgs) token = true → IsWord isBlank shortArgs token) ∧
      ((normalised shortArgs).length ≤ 1023 → ∀ token, IsWord isBlank shortArgs token → commandLineHasToken (commandLineOf shortArgs) token = true) := by
  have habove : ∃ b ∈ shortArgs, 0x20 < b := ⟨0x2d, by decide, by decide⟩
  have hlast : IsWord isBlank shortArgs (cutWord shortArgs) :=
    ⟨by decide, by decide +kernel, [0x2d, 0x76, 0x20], [], by decide, by decide +kernel, by decide +kernel⟩
  exact ⟨habove, (tokens_iff shortArgs habove).mpr (.inr hlast)⟩

/-! ## A word that is cut -/

def longWord : List UInt8 := List.replicate 1018 0x61

/-- A long word, and one of five bytes of which the buffer has four. -/
def longArgs : List UInt8 := longWord ++ 0x20 :: [0x62, 0x63, 0x64, 0x65, 0x66]

theorem length_longWord : longWord.length = 1018 := List.length_replicate

theorem take_squeezed_longArgs : (squeezed longArgs).take 1023 = (longWord ++ [0x20]) ++ ([0x62, 0x63, 0x64, 0x65] ++ []) := by
  decide +kernel

/-- `bcde` is found, but the file has `bcdef`. -/
theorem a_cut_word_is_found :
    commandLineHasToken (commandLineOf longArgs) [0x62, 0x63, 0x64, 0x65] = true ∧ ¬ IsWord isBlank longArgs [0x62, 0x63, 0x64, 0x65] := by
  have habove : ∃ b ∈ longArgs, 0x20 < b := ⟨0x66, List.mem_append_right _ (by decide), by decide⟩
  constructor
  · rw [hasToken_commandLineOf_iff habove, take_squeezed_longArgs]
    refine ⟨by decide, by decide +kernel, _, [], rfl, fun b hb => ?_, fun b hb => (nomatch hb)⟩
    rw [List.getLast?_concat] at hb
    exact Option.some.inj hb ▸ rfl
  · have hne : longWord ≠ [] := List.ne_nil_of_length_eq_add_one length_longWord
    have hplain : ∀ b ∈ longWord, isBlank b = false := fun b hb => List.eq_of_mem_replicate hb ▸ rfl
    have hlast : IsWord isBlank ([0x62, 0x63, 0x64, 0x65, 0x66] ++ []) [0x62, 0x63, 0x64, 0x65] ↔ _ :=
      isWord_append (by decide) (by decide +kernel) fun b hb => (nomatch hb)
    rw [longArgs, isWord_append hne hplain (by decide +kernel), isWord_cons_sep rfl]
    rintro (hfirst | hsecond)
    · have hlen := congrArg List.length hfirst
      rw [length_longWord] at hlen
      cases hlen
    · rcases hlast.mp hsecond with hsame | hnone
      · cases hsame
      · exact not_isWord_nil hnone

end Panthera.Boot
