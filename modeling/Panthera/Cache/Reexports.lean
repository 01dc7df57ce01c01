/-
  Panthera.Cache.Reexports — does the builder's symbol search return, and does it find what
  is re-exported to it (`build_shared_cache_real.c`: `find_symbol_in_dylib`)?

  The recursion follows re-exports and keeps no marks, so it is the library's `seek` over
  them. A dylib that defines the name answers, and so does one without a symbol table, with
  0: its own re-exports are not looked at.

  `searchable_iff`: the search returns for every dylib and name, and finds what can be
  reached, exactly if no dylib with a symbol table re-exports itself, directly or through
  others, and what can be reached at all can be reached past dylibs that do not answer.
-/

import Mathlib
import Panthera.Lib.Search
import Panthera.Cache.Resolve

namespace Panthera.Cache

open MachO Lib.Search Relation

/-! ## The graph that is searched -/

/-- Dylib `j` with the symbol table that the search reads. -/
def tableOf (ds : List DylibInfo) (j : Nat) : Option (DylibInfo × SymTab) :=
  ds[j]?.bind fun d => (lastSymtab d.commands).bind fun st => if st.symoff = 0 then none else some (d, st)

/-- The first external definition of the name in the table of dylib `j`. -/
def ownDefinition (ds : List DylibInfo) (name : CStr) (j : Nat) : Option (DylibInfo × Nlist) :=
  (tableOf ds j).bind fun t => (t.2.syms.find? (definesName t.2 name)).map (t.1, ·)

/-- Where the search goes on from dylib `j`, unless it ends there. -/
def handsOn (ds : List DylibInfo) (name : CStr) (j : Nat) : Option (List Nat) :=
  if (tableOf ds j).isSome ∧ ownDefinition ds name j = none then some (reexported ds j) else none

def ownAnswer (ds : List DylibInfo) (name : CStr) (j : Nat) : UInt64 :=
  match ownDefinition ds name j with
  | some (d, sym) => relocate d sym.value
  | none => 0

variable {ds : List DylibInfo} {name : CStr} {j k : Nat}

theorem firstFound_eq_first (go : Nat → Option UInt64) (js : List Nat) : firstFound go js = first go js := by
  induction js with
  | nil => rfl
  | cons j js ih =>
    unfold firstFound first
    cases go j with
    | none => rfl
    | some a => by_cases ha : a = 0 <;> simp [ha, ih]

theorem findSymbolInDylib_eq_seek (ds : List DylibInfo) (name : CStr) (levels j : Nat) :
    findSymbolInDylib ds name levels j = seek (handsOn ds name) (ownAnswer ds name) levels j := by
  induction levels generalizing j with
  | zero => rfl
  | succ levels ih =>
    have hgo : findSymbolInDylib ds name levels = seek (handsOn ds name) (ownAnswer ds name) levels := funext ih
    unfold findSymbolInDylib seek
    cases hd : ds[j]? with
    | none => simp [handsOn, ownAnswer, ownDefinition, tableOf, hd]
    | some d =>
      cases hst : lastSymtab d.commands with
      | none => simp [handsOn, ownAnswer, ownDefinition, tableOf, hd, hst]
      | some st =>
        by_cases hoff : st.symoff = 0
        · simp [handsOn, ownAnswer, ownDefinition, tableOf, hd, hst, hoff]
        · have htable : tableOf ds j = some (d, st) := by simp [tableOf, hd, hst, hoff]
          cases hsym : st.syms.find? (definesName st name) with
          | none =>
            have hown : ownDefinition ds name j = none := by simp [ownDefinition, htable, hsym]
            simp only [hst, if_neg hoff, hsym, handsOn, htable, hown, Option.isSome_some, and_self, if_true, firstFound_eq_first, hgo]
          | some sym =>
            have hown : ownDefinition ds name j = some (d, sym) := by simp [ownDefinition, htable, hsym]
            simp [hst, hoff, hsym, handsOn, ownAnswer, hown]

theorem handsOn_eq_some {js : List Nat} (h : handsOn ds name j = some js) : (tableOf ds j).isSome ∧ js = reexported ds j := by
  unfold handsOn at h
  split at h
  · rename_i hc
    exact ⟨hc.1, (Option.some.inj h).symm⟩
  · cases h

theorem lt_of_tableOf (h : (tableOf ds j).isSome) : j < ds.length := by
  by_contra hge
  rw [tableOf, List.getElem?_eq_none (by omega)] at h
  cases h

theorem handsOn_finite (ds : List DylibInfo) (name : CStr) : {j | (handsOn ds name j).isSome}.Finite := by
  refine (Set.finite_lt_nat ds.length).subset fun j hj => ?_
  obtain ⟨js, hjs⟩ := Option.isSome_iff_exists.mp hj
  exact lt_of_tableOf (handsOn_eq_some hjs).1

/-! ## A name that no dylib has -/

theorem length_cstrAt_le (bytes : List UInt8) (off : Nat) : (cstrAt bytes off).length ≤ bytes.length := by
  have h1 : (cstrAt bytes off).length ≤ (bytes.drop off).length := (List.takeWhile_sublist _).length_le
  rw [List.length_drop] at h1
  omega

/-- Longer than every string table. -/
theorem exists_fresh_name (ds : List DylibInfo) : ∃ name : CStr, 0 ∉ name ∧ ∀ j, ownDefinition ds name j = none := by
  let size (d : DylibInfo) : Nat := ((lastSymtab d.commands).map fun st => st.strtab.length).getD 0
  refine ⟨List.replicate ((ds.map size).sum + 1) 0x61, ?_, fun j => ?_⟩
  · simp [List.mem_replicate]
  · unfold ownDefinition tableOf
    cases hd : ds[j]? with
    | none => rfl
    | some d =>
      cases hst : lastSymtab d.commands with
      | none => simp [hst]
      | some st =>
        have hle : st.strtab.length ≤ (ds.map size).sum := by
          have hmem : size d ∈ ds.map size := List.mem_map_of_mem (List.mem_of_getElem? hd)
          have hsize : size d = st.strtab.length := by simp [size, hst]
          rw [← hsize]
          exact List.le_sum_of_mem hmem
        have hnone : st.syms.find? (definesName st (List.replicate ((ds.map size).sum + 1) 0x61)) = none := by
          refine List.find?_eq_none.mpr fun sym _ hdef => ?_
          have heq : cstrAt st.strtab sym.strx.toNat = List.replicate ((ds.map size).sum + 1) 0x61 := by
            simp only [definesName, Bool.and_eq_true, beq_iff_eq] at hdef
            exact hdef.2
          have hlen := length_cstrAt_le st.strtab sym.strx.toNat
          rw [heq, List.length_replicate] at hlen
          omega
        by_cases hoff : st.symoff = 0 <;> simp [hst, hoff, hnone]

/-! ## Is the search total and complete? -/

/-- Dylib `k` has the name as an external symbol inside one of its segments. -/
def DefinesInSegment (ds : List DylibInfo) (name : CStr) (k : Nat) : Prop :=
  ∃ d st, tableOf ds k = some (d, st) ∧
    ∃ sym ∈ st.syms, definesName st name sym = true ∧ d.segs.any (·.contains sym.value) = true

/-- A dylib that re-exports reach from dylib `j` has the name. -/
def Reexported (ds : List DylibInfo) (name : CStr) (j : Nat) : Prop :=
  ∃ k, ReflTransGen (fun j k => k ∈ reexported ds j) j k ∧ DefinesInSegment ds name k

/-- The search returns for every dylib and every name, and it finds what is re-exported. -/
def Searchable (ds : List DylibInfo) : Prop :=
  ∀ name : CStr, 0 ∉ name → ∀ j < ds.length,
    ∃ levels a, findSymbolInDylib ds name levels j = some a ∧ (Reexported ds name j → a ≠ 0)

/-- No dylib with a symbol table re-exports itself, directly or through others that have one. -/
def Acyclic (ds : List DylibInfo) : Prop :=
  ∀ j, ¬ TransGen (fun j k => (tableOf ds j).isSome ∧ k ∈ reexported ds j) j j

/-- From dylib `j` on, past dylibs that have a symbol table but not the name, there is one with
    an address for it. -/
def Open (ds : List DylibInfo) (name : CStr) (j : Nat) : Prop :=
  ∃ k, ReflTransGen (Leads (handsOn ds name)) j k ∧ ownAnswer ds name k ≠ 0

theorem handsOn_of_ownAnswer (h : ownAnswer ds name k ≠ 0) : handsOn ds name k = none := by
  refine if_neg fun hc => h ?_
  rw [ownAnswer, hc.2]

theorem acyclic_of_total (h : ∀ name : CStr, 0 ∉ name → ∀ j < ds.length, ∃ levels a, findSymbolInDylib ds name levels j = some a) :
    Acyclic ds := by
  intro j hcycle
  obtain ⟨name, hname, hfresh⟩ := exists_fresh_name ds
  have hleads : TransGen (Leads (handsOn ds name)) j j := by
    exact hcycle.lift id fun i k hik => ⟨reexported ds i, if_pos ⟨hik.1, hfresh i⟩, hik.2⟩
  have hj : j < ds.length := by
    obtain ⟨k, hjk, -⟩ := TransGen.head'_iff.mp hcycle
    exact lt_of_tableOf hjk.1
  obtain ⟨levels, a, ha⟩ := h name hname j hj
  rw [findSymbolInDylib_eq_seek, seek_cycle (fun k _ => by rw [ownAnswer, hfresh k]) hleads] at ha
  cases ha

theorem total_of_acyclic (h : Acyclic ds) (name : CStr) (j : Nat) : ∃ levels a, findSymbolInDylib ds name levels j = some a := by
  have hleads : ∀ k, ¬ TransGen (Leads (handsOn ds name)) k k := by
    intro k hk
    refine h k (hk.lift id ?_)
    rintro i u ⟨js, hjs, hu⟩
    obtain ⟨htable, rfl⟩ := handsOn_eq_some hjs
    exact ⟨htable, hu⟩
  obtain ⟨levels, hsome⟩ : ∃ levels, (seek (handsOn ds name) (ownAnswer ds name) levels j).isSome :=
    seek_total (handsOn_finite ds name) hleads j
  obtain ⟨a, ha⟩ := Option.isSome_iff_exists.mp hsome
  exact ⟨levels, a, by rw [findSymbolInDylib_eq_seek, ha]⟩

/-- An address is found exactly if the search can come to one. -/
theorem found_iff_open {levels : Nat} {a : UInt64} (h : findSymbolInDylib ds name levels j = some a) : a ≠ 0 ↔ Open ds name j := by
  rw [findSymbolInDylib_eq_seek] at h
  constructor
  · intro hne
    obtain ⟨k, hk, -, rfl⟩ := seek_sound h hne
    exact ⟨k, hk, hne⟩
  · rintro ⟨k, hk, hne⟩ rfl
    exact hne (seek_zero h hk (handsOn_of_ownAnswer hne))

theorem searchable_iff (ds : List DylibInfo) :
    Searchable ds ↔ Acyclic ds ∧ ∀ name : CStr, 0 ∉ name → ∀ j < ds.length, Reexported ds name j → Open ds name j := by
  constructor
  · intro h
    constructor
    · apply acyclic_of_total
      intro name hname j hj
      obtain ⟨levels, a, ha, -⟩ := h name hname j hj
      exact ⟨levels, a, ha⟩
    · intro name hname j hj hreexported
      obtain ⟨levels, a, ha, hfound⟩ := h name hname j hj
      exact (found_iff_open ha).mp (hfound hreexported)
  · rintro ⟨hacyclic, hopen⟩ name hname j hj
    obtain ⟨levels, a, ha⟩ := total_of_acyclic hacyclic name j
    exact ⟨levels, a, ha, fun hreexported => (found_iff_open ha).mpr (hopen name hname j hj hreexported)⟩

/-! ## Two umbrellas -/

/-- A dylib of one page with a symbol table that has `_f`, and one re-export. -/
def umbrella (installName dep : CStr) : DylibInfo where
  installName := installName
  commands := [.segment ⟨cstr "__TEXT", 0, 0x1000, 0, 0x1000, 5, []⟩, .dylib .reexport dep,
    .symtab ⟨0x400, [⟨1, 0x0F, 0, 0x100⟩], [0, 0x5F, 0x66, 0], 4⟩]
  segs := [⟨cstr "__TEXT", 0, 0x1000, 0, 0x1000, 0, 0x7FFF20000000⟩]
  textSegIdx := 0
  linkSegIdx := none
  segs_le := by decide
  text_lt := by decide

def twoUmbrellas : List DylibInfo :=
  [umbrella (cstr "/usr/lib/libA.dylib") (cstr "/usr/lib/libB.dylib"), umbrella (cstr "/usr/lib/libB.dylib") (cstr "/usr/lib/libA.dylib")]

/-- What both have is found; for what neither has, each asks the other. -/
theorem umbrellas_never_return :
    findSymbolInDylib twoUmbrellas (cstr "_f") 1 0 = some 0x7FFF20000100 ∧
    (∀ levels, findSymbolInDylib twoUmbrellas (cstr "_g") levels 0 = none) ∧ ¬ Searchable twoUmbrellas := by
  have hedges : handsOn twoUmbrellas (cstr "_g") 0 = some [1] ∧ handsOn twoUmbrellas (cstr "_g") 1 = some [0] := by decide
  have hcycle : TransGen (Leads (handsOn twoUmbrellas (cstr "_g"))) 0 0 :=
    .head ⟨[1], hedges.1, List.mem_singleton.mpr rfl⟩ (.single ⟨[0], hedges.2, List.mem_singleton.mpr rfl⟩)
  have hnone : ∀ k, ownAnswer twoUmbrellas (cstr "_g") k = 0 := by
    intro k
    match k with
    | 0 => decide
    | 1 => decide
    | k + 2 => simp [ownAnswer, ownDefinition, tableOf, twoUmbrellas]
  have hnever : ∀ levels, findSymbolInDylib twoUmbrellas (cstr "_g") levels 0 = none := fun levels => by
    rw [findSymbolInDylib_eq_seek]
    exact seek_cycle (fun k _ => hnone k) hcycle levels
  refine ⟨by decide, hnever, fun h => ?_⟩
  obtain ⟨levels, a, ha, -⟩ := h (cstr "_g") (by decide) 0 (by decide)
  rw [hnever levels] at ha
  cases ha

end Panthera.Cache
