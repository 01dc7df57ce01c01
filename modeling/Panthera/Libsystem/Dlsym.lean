/-
  Panthera.Libsystem.Dlsym — the names that `dlsym` looks for
  (`sources/panthera_extra_stubs.c`: `panthera_symbol_name`,
  `panthera_find_symbol_in_macho`, `panthera_dlsym_default`, `dlsym`).

  The name is written to a buffer of 256 bytes, with an underscore before it unless it has
  one. The symbol of a C identifier is looked for exactly if the identifier does not start
  with an underscore and fits (`symbolName_eq_iff`); otherwise the answer is right by
  coincidence only (`dlsym_answers_iff`).
-/

import Panthera.Libsystem.Dlopen

namespace Panthera.Libsystem.Dlsym

open MachO Dyld Dlopen

def underscore : UInt8 := 0x5F

/-- What `strlcpy` leaves in the 256 bytes of `underscored`. -/
def symbolName (symbol : CStr) : CStr :=
  if symbol.head? = some underscore then symbol.take 255 else underscore :: symbol.take 254

/-- The symbol table, for an image with the segments that it is found by. -/
def mappedSymtab (commands : List LoadCommand) : Option SymTab :=
  if (findSegment commands segText).isSome ∧ (findSegment commands segLinkedit).isSome then
    commands.findSome? fun
      | .symtab st => some st
      | _ => none
  else none

/-- An external defined symbol of that name. -/
def named (tab : SymTab) (name : CStr) (sym : Nlist) : Bool :=
  sym.defined && sym.external && cstrAt tab.strtab sym.strx.toNat == name

/-- The address, 0 for none; the image has no commands if there is no Mach-O header. -/
def findSymbolInMacho (image : Option (List LoadCommand)) (slide : UInt64) (symbol : CStr) : UInt64 :=
  match image.bind mappedSymtab with
  | none => 0
  | some tab => ((tab.syms.find? (named tab (symbolName symbol))).map fun sym => sym.value + slide).getD 0

section Dlsym

-- what is mapped at an address, and where the function `getentropy` is
variable (mapped : UInt64 → Option (List LoadCommand)) (getentropy sentinel : UInt64)

def dlsymDefault (symbol : CStr) (st : St) : UInt64 :=
  if symbol = cstr "getentropy" then getentropy
  else
    let images := (st.bundles.map fun b => (b.header, b.slide)) ++ st.bridge.map fun img => (img.header, img.slide)
    ((images.map fun img => findSymbolInMacho (mapped img.1) img.2 symbol).find? (· != 0)).getD 0

def dlsym (handle : UInt64) (symbol : CStr) (st : St) : UInt64 :=
  if handle = 0 ∨ handle = rtldDefault ∨ handle = sentinel then dlsymDefault mapped getentropy symbol st
  else
    match st.bundles.find? fun b => b.header == handle with
    | some b => findSymbolInMacho (mapped b.header) b.slide symbol
    | none =>
      match st.bridge.find? fun img => img.header == handle with
      | some img => findSymbolInMacho (mapped img.header) img.slide symbol
      | none => findSymbolInMacho (mapped handle) 0 symbol

end Dlsym

/-- The slide of the image that a handle is the header of. -/
def slideOf (st : St) (handle : UInt64) : UInt64 :=
  (((st.bundles.find? fun b => b.header == handle).map Bundle.slide).or
    ((st.bridge.find? fun img => img.header == handle).map BridgeImage.slide)).getD 0

/-- The symbols of an image; one without a table has none. -/
def tableOf (image : Option (List LoadCommand)) : SymTab := (image.bind mappedSymtab).getD ⟨0, [], [], 0⟩

/-- A handle that is not one of the three for all images. -/
structure OneImage (sentinel handle : UInt64) : Prop where
  null : handle ≠ 0
  default : handle ≠ rtldDefault
  sentinel : handle ≠ sentinel

theorem dlsym_eq {mapped : UInt64 → Option (List LoadCommand)} {getentropy sentinel handle : UInt64}
    (h : OneImage sentinel handle) (symbol : CStr) (st : St) :
    dlsym mapped getentropy sentinel handle symbol st = findSymbolInMacho (mapped handle) (slideOf st handle) symbol := by
  rw [dlsym, if_neg (by simp [h.null, h.default, h.sentinel]), slideOf]
  cases hb : st.bundles.find? fun b => b.header == handle with
  | some b =>
    have hheader : b.header = handle := by simpa using List.find?_some hb
    simp [hheader]
  | none =>
    cases hi : st.bridge.find? fun img => img.header == handle with
    | some img =>
      have hheader : img.header = handle := by simpa using List.find?_some hi
      simp [hheader]
    | none => rfl

/-! ## What the answer should be -/

/-- The name of the symbol of a C identifier is looked for. -/
def Plain (symbol : CStr) : Prop := symbol.head? ≠ some underscore ∧ symbol.length ≤ 254

theorem symbolName_eq_iff {symbol : CStr} : symbolName symbol = underscore :: symbol ↔ Plain symbol := by
  unfold symbolName Plain
  split_ifs with hhead
  · refine iff_of_false (fun h => ?_) (by simp [hhead])
    have := congrArg List.length h
    simp only [List.length_take, List.length_cons] at this
    omega
  · rw [List.cons.injEq, List.take_eq_self_iff]
    simp [hhead]

section Answers

variable (tab : SymTab) (slide : UInt64) (symbol : CStr)

/-- A symbol of the identifier is at `a`. -/
def At (a : UInt64) : Prop := ∃ sym ∈ tab.syms, named tab (underscore :: symbol) sym ∧ sym.value + slide = a

/-- The answer is not `NULL` only if there is a symbol, and if there is one that is not at 0
    it is the address of such a one. -/
structure Answers (r : UInt64) : Prop where
  sound : r ≠ 0 → ∃ a, At tab slide symbol a
  complete : (∃ a ≠ 0, At tab slide symbol a) → r ≠ 0 ∧ At tab slide symbol r

/-- Where the first symbol of the identifier is. -/
def first (name : CStr) : Option UInt64 := (tab.syms.find? (named tab name)).map fun sym => sym.value + slide

/-- The first symbol of the identifier is at 0 only if all are. -/
def Unshadowed : Prop := first tab slide (underscore :: symbol) = some 0 → ∀ a, At tab slide symbol a → a = 0

/-- What the other name finds is what the identifier's own would. -/
def Coincides : Prop :=
  (∃ a ≠ 0, first tab slide (symbolName symbol) = some a ∧ At tab slide symbol a) ∨
    (∀ a, At tab slide symbol a → a = 0) ∧
      ((∃ a, At tab slide symbol a) ∨ ∀ a ∈ first tab slide (symbolName symbol), a = 0)

variable {tab slide symbol}

theorem at_of_first {a : UInt64} (h : first tab slide (underscore :: symbol) = some a) : At tab slide symbol a := by
  obtain ⟨sym, hfind, ha⟩ := Option.map_eq_some_iff.mp h
  exact ⟨sym, List.mem_of_find?_eq_some hfind, List.find?_some hfind, ha⟩

theorem not_at_of_first (h : first tab slide (underscore :: symbol) = none) (a : UInt64) : ¬ At tab slide symbol a := by
  rintro ⟨sym, hmem, hnamed, -⟩
  exact List.find?_eq_none.mp (Option.map_eq_none_iff.mp h) sym hmem hnamed

theorem answers_iff_coincides : Answers tab slide symbol ((first tab slide (symbolName symbol)).getD 0) ↔ Coincides tab slide symbol := by
  constructor
  · intro h
    by_cases hlive : ∃ a ≠ 0, At tab slide symbol a
    · obtain ⟨hne, hat⟩ := h.complete hlive
      cases hf : first tab slide (symbolName symbol) with
      | none => exact absurd (by rw [hf]; rfl) hne
      | some a =>
        rw [hf] at hne hat
        exact .inl ⟨a, hne, hf, hat⟩
    · refine .inr ⟨fun a ha => by_contra fun hne => hlive ⟨a, hne, ha⟩, ?_⟩
      by_cases hhas : ∃ a, At tab slide symbol a
      · exact .inl hhas
      · refine .inr fun a ha => by_contra fun hne => hhas (h.sound ?_)
        rw [Option.mem_def.mp ha]
        exact hne
  · rintro (⟨a, hne, hf, hat⟩ | ⟨hzero, hnone⟩)
    · rw [hf]
      exact ⟨fun _ => ⟨a, hat⟩, fun _ => ⟨hne, hat⟩⟩
    · refine ⟨fun hr => hnone.resolve_right fun hall => hr ?_, fun ⟨a, hne, hat⟩ => absurd (hzero a hat) hne⟩
      cases hf : first tab slide (symbolName symbol) with
      | none => rfl
      | some a => exact hall a hf

theorem coincides_iff_unshadowed (h : Plain symbol) : Coincides tab slide symbol ↔ Unshadowed tab slide symbol := by
  rw [Coincides, symbolName_eq_iff.mpr h, Unshadowed]
  cases hf : first tab slide (underscore :: symbol) with
  | none => simp [not_at_of_first hf]
  | some a =>
    have hat := at_of_first hf
    by_cases ha : a = 0
    · subst ha
      simp only [Option.some.injEq, forall_const]
      constructor
      · rintro (⟨b, hb, rfl, -⟩ | ⟨hzero, -⟩)
        · exact absurd rfl hb
        · exact hzero
      · exact fun hzero => .inr ⟨hzero, .inl ⟨0, hat⟩⟩
    · refine iff_of_true (.inl ⟨a, ha, rfl, hat⟩) fun h0 => absurd (Option.some.inj h0) ha

end Answers

/-- Every handle of an image and every name. -/
theorem dlsym_answers_iff (mapped : UInt64 → Option (List LoadCommand)) (getentropy : UInt64) {sentinel handle : UInt64}
    (h : OneImage sentinel handle) (symbol : CStr) (st : St) :
    Answers (tableOf (mapped handle)) (slideOf st handle) symbol (dlsym mapped getentropy sentinel handle symbol st) ↔
      Plain symbol ∧ Unshadowed (tableOf (mapped handle)) (slideOf st handle) symbol ∨
        ¬ Plain symbol ∧ Coincides (tableOf (mapped handle)) (slideOf st handle) symbol := by
  have hfound : dlsym mapped getentropy sentinel handle symbol st =
      (first (tableOf (mapped handle)) (slideOf st handle) (symbolName symbol)).getD 0 := by
    rw [dlsym_eq h, findSymbolInMacho, tableOf]
    cases (mapped handle).bind mappedSymtab <;> rfl
  rw [hfound, answers_iff_coincides]
  by_cases hp : Plain symbol
  · simp [hp, coincides_iff_unshadowed hp]
  · simp [hp]

/-! ## A bundle with one function -/

/-- `int x(void)`, whose symbol is `_x`. -/
def oneFunction : SymTab := ⟨0, [⟨1, 0x0F, 0, 0x40⟩], [0, 0x5F, 0x78, 0], 4⟩

def oneFunctionAt (header : UInt64) : Option (List LoadCommand) :=
  if header = 0x100000 then some [.segment ⟨segText, 0, 0x1000, 0, 0x1000, 5, []⟩,
    .segment ⟨segLinkedit, 0x1000, 0x1000, 0x1000, 20, 1, []⟩, .symtab oneFunction] else none

def oneBundle : St := ⟨[⟨0x100000, 0x100000, 0x2000, 1, cstr "/x.bundle", [], true⟩], [], none, []⟩

/-- `x` is found. -/
theorem dlsym_answers_x : dlsym oneFunctionAt 0 0x9000 0x100000 [0x78] oneBundle = 0x100040 ∧
    Answers oneFunction 0x100000 [0x78] (dlsym oneFunctionAt 0 0x9000 0x100000 [0x78] oneBundle) := by
  have hone : OneImage 0x9000 0x100000 := ⟨by decide, by decide, by decide⟩
  have htab : tableOf (oneFunctionAt 0x100000) = oneFunction := by decide
  have hslide : slideOf oneBundle 0x100000 = 0x100000 := by decide
  have hiff := dlsym_answers_iff oneFunctionAt 0 hone [0x78] oneBundle
  rw [htab, hslide] at hiff
  refine ⟨by decide, hiff.mpr (.inl ⟨⟨by decide, by decide⟩, fun hzero => ?_⟩)⟩
  exact absurd hzero (by decide)

/-- The bundle has no `_x`, of which the symbol would be `__x`, but `dlsym` finds `x`. -/
theorem an_underscore_is_not_added : dlsym oneFunctionAt 0 0x9000 0x100000 [0x5F, 0x78] oneBundle = 0x100040 ∧
    ¬ Answers oneFunction 0x100000 [0x5F, 0x78] (dlsym oneFunctionAt 0 0x9000 0x100000 [0x5F, 0x78] oneBundle) := by
  have hfound : dlsym oneFunctionAt 0 0x9000 0x100000 [0x5F, 0x78] oneBundle = 0x100040 := by decide
  refine ⟨hfound, fun h => ?_⟩
  obtain ⟨a, sym, hmem, hnamed, -⟩ := h.sound (by rw [hfound]; decide)
  obtain rfl := List.mem_singleton.mp hmem
  exact absurd hnamed (by decide)

end Panthera.Libsystem.Dlsym
