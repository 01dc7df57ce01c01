/-
  Panthera.Dyld.SymbolIndex — one image's symbols: the hash index shared by all images
  and the lookup in one image (`symbolIndexInsert`, `symbolIndexImage`,
  `symbolIndexLookup`, `findSymbolInImage`).

  The index is an open-addressed table (`Panthera.Lib.OpenTable`) keyed by image and
  name. An image is indexed when it is first looked up: each of its external
  definitions is entered, and a strong definition replaces a weak one of that name. An
  entry's hash is a function of its name, so comparing it adds nothing to comparing
  names. When the table is full the index stops filling and lookups fall back on
  scanning the symbol table.

  While there is room, a lookup finds the first strong definition, or else the first weak
  one (`findSymbolInImage_spec`).
-/

import Panthera.Lib.OpenTable
import Panthera.Dyld.Image

namespace Panthera.Dyld

open MachO Lib.OpenTable

/-! ## The index -/

def symbolIndexCapacity : Nat := 131071

structure Sym where
  addr : UInt64
  isWeak : Bool
  deriving DecidableEq, Repr

abbrev SymKey := Nat × CStr

/-- `indexed` is `sSymbolIndexedImages`, an array of as many pointers as the image table
    has places; an image is entered once. -/
structure SymbolIndex where
  slots : Table SymKey Sym
  used : Nat
  overflow : Bool
  indexed : List Nat
  once : indexed.Nodup
  inTable : ∀ i ∈ indexed, i < maxImages

def SymbolIndex.empty : SymbolIndex := ⟨Table.empty, 0, false, [], List.nodup_nil, by simp⟩

def symbolHashN (name : CStr) : UInt32 :=
  let h := name.foldl (fun h c => (h ^^^ c.toUInt32) * 16777619) 2166136261
  if h = 0 then 1 else h

def symbolHome (k : SymKey) : Nat := (symbolHashN k.2).toNat % symbolIndexCapacity

def symbolIndexInsert (ix : SymbolIndex) (img : Nat) (name : CStr) (s : Sym) : Bool × SymbolIndex :=
  if ix.overflow ∨ symbolIndexCapacity ≤ ix.used then (false, { ix with overflow := true })
  else
    match probe symbolIndexCapacity ix.slots (img, name) symbolIndexCapacity (symbolHome (img, name)) with
    | none => (false, { ix with overflow := true })
    | some slot =>
      match ix.slots slot with
      | none => (true, { ix with slots := set ix.slots slot (img, name) s, used := ix.used + 1 })
      | some (_, e) =>
        (true, if e.isWeak ∧ s.isWeak = false then { ix with slots := set ix.slots slot (img, name) s } else ix)

/-- `symbolNameLen` and what it measures: a name that ends inside the string table. -/
def boundedName (st : SymTab) (strx : UInt32) : Option CStr :=
  let bytes := (st.strtab.take st.strsize.toNat).drop strx.toNat
  if bytes.contains 0 ∧ cstrAt bytes 0 ≠ [] then some (cstrAt bytes 0) else none

/-- One symbol as the indexing loop takes it; `none` where it goes on. -/
def externalDef (st : SymTab) (slide : UInt64) (sym : Nlist) : Option (CStr × Sym) :=
  if sym.defined = false then none
  else if sym.external = false then none
  else if sym.strx = 0 ∨ st.strsize ≤ sym.strx then none
  else (boundedName st sym.strx).map fun name => (name, ⟨sym.value + slide, sym.weakDef⟩)

/-- The external definitions of an image, in symbol table order. -/
def externalDefs (img : LoadedImage) : List (CStr × Sym) :=
  match img.symtab with
  | none => []
  | some st => st.syms.filterMap (externalDef st img.slide)

/-- The loop of `symbolIndexImage`; an insertion that fails ends it. -/
def insertAll (img : Nat) : List (CStr × Sym) → SymbolIndex → SymbolIndex
  | [], ix => ix
  | d :: ds, ix =>
    match symbolIndexInsert ix img d.1 d.2 with
    | (true, ix) => insertAll img ds ix
    | (false, ix) => ix

def defsOf (imgs : List LoadedImage) (i : Nat) : List (CStr × Sym) := (imgs[i]?.map externalDefs).getD []

/-- Enters an image that is not entered yet, while the array has room. -/
def SymbolIndex.mark (ix : SymbolIndex) (i : Nat) : SymbolIndex :=
  if h : ix.indexed.length < maxImages ∧ i < maxImages ∧ i ∉ ix.indexed then
    { ix with
      indexed := ix.indexed ++ [i]
      once := List.nodup_append.mpr ⟨ix.once, List.nodup_singleton i, fun _ ha _ hb hab =>
        h.2.2 (List.mem_singleton.mp hb ▸ hab ▸ ha)⟩
      inTable := fun j hj => (List.mem_append.mp hj).elim (ix.inTable j) fun hj => List.mem_singleton.mp hj ▸ h.2.1 }
  else ix

def symbolIndexImage (imgs : List LoadedImage) (i : Nat) (ix : SymbolIndex) : SymbolIndex :=
  if i ∈ ix.indexed then ix
  else if ix.overflow then ix.mark i
  else insertAll i (defsOf imgs i) (ix.mark i)

/-- The probing loop of `symbolIndexLookup`. -/
def SymbolIndex.get (ix : SymbolIndex) (k : SymKey) : Option Sym := lookup symbolIndexCapacity symbolHome ix.slots k

def symbolIndexLookup (imgs : List LoadedImage) (i : Nat) (name : CStr) (ix : SymbolIndex) : Option Sym × SymbolIndex :=
  let ix := symbolIndexImage imgs i ix
  (ix.get (i, name), ix)

/-! ## The lookup in one image -/

/-- The scan's loop over the symbols; `weakAddr` is the first weak address that is not 0. -/
def scanFrom (st : SymTab) (slide : UInt64) (name : CStr) (includeLocals : Bool) : UInt64 → List Nlist → Sym
  | weakAddr, [] => ⟨weakAddr, weakAddr != 0⟩
  | weakAddr, sym :: syms =>
    if sym.defined ∧ (includeLocals ∨ sym.external) ∧ sym.strx ≠ 0 ∧ sym.strx < st.strsize ∧
        cstrAt st.strtab sym.strx.toNat = name then
      if sym.weakDef = false then ⟨sym.value + slide, false⟩
      else scanFrom st slide name includeLocals (if weakAddr = 0 then sym.value + slide else weakAddr) syms
    else scanFrom st slide name includeLocals weakAddr syms

def scanSymbols (img : LoadedImage) (name : CStr) (includeLocals : Bool) : Sym :=
  match img.symtab with
  | none => ⟨0, false⟩
  | some st => scanFrom st img.slide name includeLocals 0 st.syms

/-- `findSymbolInImage`: the address, 0 for none, and the weak flag as it leaves it. -/
def findSymbolInImage (imgs : List LoadedImage) (i : Nat) (name : CStr) (includeLocals : Bool) (ix : SymbolIndex) :
    Sym × SymbolIndex :=
  let scan := (imgs[i]?.map fun img => scanSymbols img name includeLocals).getD ⟨0, false⟩
  if includeLocals then (scan, ix)
  else
    match symbolIndexLookup imgs i name ix with
    | (some s, ix) => (s, ix)
    | (none, ix) => if ix.overflow then (scan, ix) else (⟨0, false⟩, ix)

/-- A name that ends inside the string table is the C string that starts there. -/
theorem cstrAt_of_boundedName {st : SymTab} {strx : UInt32} {n : CStr} (h : boundedName st strx = some n) :
    cstrAt st.strtab strx.toNat = n := by
  unfold boundedName at h
  dsimp only at h
  split at h
  · rename_i hz
    have hmem : (0 : UInt8) ∈ (st.strtab.take st.strsize.toNat).drop strx.toNat := by simpa using hz.1
    rw [← Option.some.inj h, cstrAt_take hmem]
  · cases h

/-! ## Entering an image -/

section Mark

variable (ix : SymbolIndex) (i : Nat)

@[simp] theorem mark_slots : (ix.mark i).slots = ix.slots := by
  unfold SymbolIndex.mark
  split <;> rfl

@[simp] theorem mark_used : (ix.mark i).used = ix.used := by
  unfold SymbolIndex.mark
  split <;> rfl

@[simp] theorem mark_overflow : (ix.mark i).overflow = ix.overflow := by
  unfold SymbolIndex.mark
  split <;> rfl

@[simp] theorem mark_get (k : SymKey) : (ix.mark i).get k = ix.get k := by
  rw [SymbolIndex.get, mark_slots, SymbolIndex.get]

end Mark

variable {ix : SymbolIndex} {i : Nat} {s e : Sym} {name : CStr} {defs : List (CStr × Sym)} {imgs : List LoadedImage}

/-- The array is as long as the image table, so it has room for an image not entered. -/
theorem mark_indexed (hi : i < maxImages) (hnew : i ∉ ix.indexed) : (ix.mark i).indexed = ix.indexed ++ [i] := by
  have hnodup : (i :: ix.indexed).Nodup := List.nodup_cons.mpr ⟨hnew, ix.once⟩
  have hsub : (i :: ix.indexed) ⊆ List.range maxImages := by
    intro j hj
    rcases List.mem_cons.mp hj with rfl | hj
    · exact List.mem_range.mpr hi
    · exact List.mem_range.mpr (ix.inTable j hj)
  have hle := (hnodup.subperm hsub).length_le
  rw [List.length_cons, List.length_range] at hle
  unfold SymbolIndex.mark
  rw [dif_pos ⟨by omega, hi, hnew⟩]

theorem symbolIndexInsert_indexed (ix : SymbolIndex) (i : Nat) (n : CStr) (s : Sym) :
    (symbolIndexInsert ix i n s).2.indexed = ix.indexed := by
  unfold symbolIndexInsert
  split
  · rfl
  · split
    · rfl
    · split
      · rfl
      · split <;> rfl

theorem insertAll_indexed (i : Nat) : ∀ (ds : List (CStr × Sym)) (ix : SymbolIndex),
    (insertAll i ds ix).indexed = ix.indexed := by
  intro ds
  induction ds with
  | nil => intro ix; rfl
  | cons d ds ih =>
    intro ix
    have hins := symbolIndexInsert_indexed ix i d.1 d.2
    unfold insertAll
    split
    · rename_i ix' heq
      rw [heq] at hins
      exact (ih ix').trans hins
    · rename_i ix' heq
      rw [heq] at hins
      exact hins

theorem mem_indexed_symbolIndexImage (imgs : List LoadedImage) (hi : i < maxImages) (ix : SymbolIndex) :
    i ∈ (symbolIndexImage imgs i ix).indexed := by
  unfold symbolIndexImage
  by_cases hin : i ∈ ix.indexed
  · rw [if_pos hin]
    exact hin
  · have hmark : i ∈ (ix.mark i).indexed := by rw [mark_indexed hi hin]; simp
    rw [if_neg hin]
    split
    · exact hmark
    · rwa [insertAll_indexed]

theorem findSymbolInImage_index (imgs : List LoadedImage) (i : Nat) (name : CStr) (ix : SymbolIndex) :
    (findSymbolInImage imgs i name false ix).2 = symbolIndexImage imgs i ix := by
  unfold findSymbolInImage symbolIndexLookup
  simp only [Bool.false_eq_true, if_false]
  rcases (symbolIndexImage imgs i ix).get (i, name) with _ | s
  · dsimp only
    split <;> rfl
  · rfl

/-- An image is indexed once: asked again, the lookup answers the same from the same index. -/
theorem findSymbolInImage_again (imgs : List LoadedImage) (hi : i < maxImages) (name : CStr) (ix : SymbolIndex) :
    findSymbolInImage imgs i name false (findSymbolInImage imgs i name false ix).2 =
      findSymbolInImage imgs i name false ix := by
  have hagain : symbolIndexImage imgs i (symbolIndexImage imgs i ix) = symbolIndexImage imgs i ix :=
    if_pos (mem_indexed_symbolIndexImage imgs hi ix)
  rw [findSymbolInImage_index]
  unfold findSymbolInImage symbolIndexLookup
  simp only [Bool.false_eq_true, if_false, hagain]

/-! ## What an image defines -/

def merge : Option Sym → Sym → Option Sym
  | none, s => some s
  | some e, s => if e.isWeak ∧ s.isWeak = false then some s else some e

/-- The definition of `name` among `defs`: the first strong one, or the first weak one;
    `r` is what came before. -/
def bestFrom (name : CStr) (r : Option Sym) (defs : List (CStr × Sym)) : Option Sym :=
  defs.foldl (fun r d => if d.1 = name then merge r d.2 else r) r

def best (defs : List (CStr × Sym)) (name : CStr) : Option Sym := bestFrom name none defs

theorem merge_mem {r : Option Sym} (h : merge r s = some e) : r = some e ∨ s = e := by
  cases r with
  | none => exact .inr (Option.some.inj h)
  | some x =>
    simp only [merge] at h
    split at h
    · exact .inr (Option.some.inj h)
    · exact .inl h

theorem merge_isSome (r : Option Sym) (s : Sym) : ∃ e, merge r s = some e := by
  cases r with
  | none => exact ⟨s, rfl⟩
  | some x =>
    simp only [merge]
    split
    · exact ⟨_, rfl⟩
    · exact ⟨_, rfl⟩

/-- A weak definition stands only while everything merged is weak. -/
theorem merge_weak {r : Option Sym} (h : merge r s = some e) (hw : e.isWeak = true) :
    s.isWeak = true ∧ ∀ x, r = some x → x.isWeak = true := by
  cases r with
  | none =>
    cases h
    exact ⟨hw, fun _ hx => by cases hx⟩
  | some x =>
    simp only [merge] at h
    split at h
    · rename_i hc
      cases h
      rw [hc.2] at hw
      cases hw
    · rename_i hc
      cases h
      refine ⟨?_, fun y hy => by cases hy; exact hw⟩
      by_contra hs
      exact hc ⟨hw, by simpa using hs⟩

theorem bestFrom_cons (name : CStr) (r : Option Sym) (d : CStr × Sym) (defs : List (CStr × Sym)) :
    bestFrom name r (d :: defs) = bestFrom name (if d.1 = name then merge r d.2 else r) defs := rfl

theorem bestFrom_none : ∀ {defs : List (CStr × Sym)} {r : Option Sym},
    bestFrom name r defs = none → r = none ∧ ∀ s, (name, s) ∉ defs := by
  intro defs
  induction defs with
  | nil => intro r h; exact ⟨h, by simp⟩
  | cons d defs ih =>
    intro r h
    rw [bestFrom_cons] at h
    obtain ⟨h1, h2⟩ := ih h
    by_cases hd : d.1 = name
    · obtain ⟨e, he⟩ := merge_isSome r d.2
      rw [if_pos hd, he] at h1
      cases h1
    · rw [if_neg hd] at h1
      refine ⟨h1, fun s hs => ?_⟩
      rcases List.mem_cons.mp hs with hs | hs
      · exact hd (congrArg Prod.fst hs).symm
      · exact h2 s hs

theorem bestFrom_mem : ∀ {defs : List (CStr × Sym)} {r : Option Sym} {e : Sym},
    bestFrom name r defs = some e → r = some e ∨ (name, e) ∈ defs := by
  intro defs
  induction defs with
  | nil => intro r e h; exact .inl h
  | cons d defs ih =>
    intro r e h
    rw [bestFrom_cons] at h
    rcases ih h with h | h
    · by_cases hd : d.1 = name
      · rw [if_pos hd] at h
        rcases merge_mem h with h | h
        · exact .inl h
        · exact .inr (List.mem_cons.mpr (.inl (Prod.ext hd.symm h.symm)))
      · rw [if_neg hd] at h
        exact .inl h
    · exact .inr (List.mem_cons_of_mem _ h)

theorem bestFrom_weak : ∀ {defs : List (CStr × Sym)} {r : Option Sym} {e : Sym},
    bestFrom name r defs = some e → e.isWeak = true →
      (∀ x, r = some x → x.isWeak = true) ∧ ∀ s, (name, s) ∈ defs → s.isWeak = true := by
  intro defs
  induction defs with
  | nil =>
    intro r e h hw
    refine ⟨fun x hx => ?_, by simp⟩
    rwa [Option.some.inj (hx.symm.trans h)]
  | cons d defs ih =>
    intro r e h hw
    rw [bestFrom_cons] at h
    obtain ⟨h1, h2⟩ := ih h hw
    by_cases hd : d.1 = name
    · rw [if_pos hd] at h1
      obtain ⟨m, hm⟩ := merge_isSome r d.2
      obtain ⟨h3, h4⟩ := merge_weak hm (h1 m hm)
      refine ⟨h4, fun s hs => ?_⟩
      rcases List.mem_cons.mp hs with hs | hs
      · rwa [← hs] at h3
      · exact h2 s hs
    · rw [if_neg hd] at h1
      refine ⟨h1, fun s hs => ?_⟩
      rcases List.mem_cons.mp hs with hs | hs
      · exact absurd (congrArg Prod.fst hs).symm hd
      · exact h2 s hs

theorem best_mem (h : best defs name = some e) : (name, e) ∈ defs :=
  (bestFrom_mem h).resolve_left (by simp)

/-- A strong definition stays, and so does a weak one that no strong one follows. -/
theorem bestFrom_keep : ∀ {defs : List (CStr × Sym)},
    (e.isWeak = false ∨ ∀ d ∈ defs, d.1 = name → d.2.isWeak = true) → bestFrom name (some e) defs = some e := by
  intro defs
  induction defs with
  | nil => intro _; rfl
  | cons d defs ih =>
    intro h
    have hstep : (if d.1 = name then merge (some e) d.2 else some e) = some e := by
      by_cases hd : d.1 = name
      · rw [if_pos hd, merge]
        refine if_neg fun hw => ?_
        rcases h with h | h
        · simp [h] at hw
        · simp [h d List.mem_cons_self hd] at hw
      · rw [if_neg hd]
    rw [bestFrom_cons, hstep]
    refine ih ?_
    rcases h with h | h
    · exact .inl h
    · exact .inr fun x hx => h x (List.mem_cons_of_mem _ hx)

theorem bestFrom_filter (name : CStr) : ∀ (defs : List (CStr × Sym)) (r : Option Sym),
    bestFrom name r defs = bestFrom name r (defs.filter (·.1 = name)) := by
  intro defs
  induction defs with
  | nil => intro r; rfl
  | cons d defs ih =>
    intro r
    by_cases hd : d.1 = name
    · rw [List.filter_cons_of_pos (by simpa using hd), bestFrom_cons, bestFrom_cons, ih]
    · rw [List.filter_cons_of_neg (by simpa using hd), bestFrom_cons, if_neg hd, ih]

theorem best_isSome (h : (name, s) ∈ defs) : ∃ e, best defs name = some e := by
  rcases hb : best defs name with _ | e
  · exact absurd h ((bestFrom_none hb).2 s)
  · exact ⟨e, rfl⟩

/-- A weak answer means that there was no strong definition. -/
theorem best_weak (h : best defs name = some e) (hw : e.isWeak = true) (hs : (name, s) ∈ defs) : s.isWeak = true :=
  (bestFrom_weak h hw).2 s hs

/-! ## The index holds what the images define -/

/-- The table itself is in order and has not overflowed. -/
structure TableOk (ix : SymbolIndex) : Prop where
  quiet : ix.overflow = false
  probed : Probed symbolIndexCapacity symbolHome ix.slots
  count : taken symbolIndexCapacity ix.slots = ix.used

structure IndexOk (imgs : List LoadedImage) (ix : SymbolIndex) : Prop extends TableOk ix where
  fits : ix.used ≤ (ix.indexed.map fun i => (defsOf imgs i).length).sum
  known : ∀ i ∈ ix.indexed, i < imgs.length
  exact : ∀ i n, ix.get (i, n) = if i ∈ ix.indexed then best (defsOf imgs i) n else none

/-- The table has a slot for every definition of every image. -/
structure Room (imgs : List LoadedImage) : Prop where
  images_le : imgs.length ≤ maxImages
  defs_le : ((List.range imgs.length).map fun i => (defsOf imgs i).length).sum ≤ symbolIndexCapacity

theorem symbolHome_lt (k : SymKey) : symbolHome k < symbolIndexCapacity := Nat.mod_lt _ (by decide)

theorem indexOk_empty (imgs : List LoadedImage) : IndexOk imgs SymbolIndex.empty where
  quiet := rfl
  probed := probed_empty
  count := by simp [taken, SymbolIndex.empty, Table.empty]
  fits := Nat.le_refl _
  known := by simp [SymbolIndex.empty]
  exact i n := by
    rw [if_neg (by simp [SymbolIndex.empty])]
    rcases h : SymbolIndex.empty.get (i, n) with _ | v
    · rfl
    · obtain ⟨s, hs⟩ := (lookup_eq_some probed_empty).mp h
      cases hs

/-- One insertion with room left: the entry of its key takes the definition in. -/
theorem symbolIndexInsert_spec (ok : TableOk ix) (hroom : ix.used < symbolIndexCapacity) (i : Nat)
    (n : CStr) (s : Sym) : ∃ ix', symbolIndexInsert ix i n s = (true, ix') ∧ TableOk ix' ∧
      ix'.used = (if (ix.get (i, n)).isSome then ix.used else ix.used + 1) ∧ ix'.indexed = ix.indexed ∧
      ix'.get (i, n) = merge (ix.get (i, n)) s ∧ ∀ k ≠ (i, n), ix'.get k = ix.get k := by
  obtain ⟨f, hf, hfree⟩ := exists_free (ok.count ▸ hroom)
  obtain ⟨slot, hslot⟩ := Option.isSome_iff_exists.mp (probe_isSome (k := (i, n)) (symbolHome_lt (i, n)) hf hfree)
  have hlt := probe_lt (by decide) (symbolHome_lt _) hslot
  unfold symbolIndexInsert
  rw [if_neg (by rw [ok.quiet]; simp; omega)]
  rcases hs : ix.slots slot with _ | ⟨k, e⟩ <;> simp only [hslot, hs]
  · -- a free slot: the key is new
    have hnew : ix.get (i, n) = none := by
      rw [SymbolIndex.get, lookup, hslot, Option.bind_some, hs]
      rfl
    refine ⟨_, rfl, ⟨ok.quiet, ok.probed.set hslot, ?_⟩, by simp [hnew], rfl, ?_, ?_⟩
    · show taken _ (set ix.slots slot (i, n) s) = ix.used + 1
      rw [taken_set hlt, hs, ok.count]
      rfl
    · rw [hnew]
      exact lookup_set_self hslot
    · exact fun k hk => lookup_set_other ok.probed hk hslot
  · have hkey : k = (i, n) := by
      rcases probe_slot hslot with h0 | ⟨v, hv⟩
      · rw [h0] at hs
        cases hs
      · rw [hv] at hs
        cases hs
        rfl
    subst hkey
    have hget : ix.get (i, n) = some e := by
      rw [SymbolIndex.get, lookup, hslot, Option.bind_some, hs]
      rfl
    refine ⟨_, rfl, ?_⟩
    by_cases hc : e.isWeak = true ∧ s.isWeak = false
    · rw [if_pos hc, hget, merge, if_pos hc]
      refine ⟨⟨ok.quiet, ok.probed.set hslot, ?_⟩, by simp, rfl, lookup_set_self hslot, ?_⟩
      · show taken _ (set ix.slots slot (i, n) s) = ix.used
        rw [taken_set hlt, hs, ok.count]
        rfl
      · exact fun k hk => lookup_set_other ok.probed hk hslot
    · rw [if_neg hc, hget, merge, if_neg hc]
      exact ⟨ok, by simp, rfl, rfl, fun _ _ => rfl⟩

theorem insertAll_spec (i : Nat) : ∀ (ds : List (CStr × Sym)) {ix : SymbolIndex}, TableOk ix →
    ix.used + ds.length ≤ symbolIndexCapacity → TableOk (insertAll i ds ix) ∧
      (insertAll i ds ix).used ≤ ix.used + ds.length ∧ (insertAll i ds ix).indexed = ix.indexed ∧
      (∀ n, (insertAll i ds ix).get (i, n) = bestFrom n (ix.get (i, n)) ds) ∧
      ∀ j n, j ≠ i → (insertAll i ds ix).get (j, n) = ix.get (j, n) := by
  intro ds
  induction ds with
  | nil =>
    intro ix ok _
    exact ⟨ok, Nat.le_refl _, rfl, fun _ => rfl, fun _ _ _ => rfl⟩
  | cons d ds ih =>
    intro ix ok hroom
    rw [List.length_cons] at hroom
    obtain ⟨ix', hins, ok', hused, hindexed, hget, hother⟩ := symbolIndexInsert_spec ok (by omega) i d.1 d.2
    have hle : ix'.used ≤ ix.used + 1 := by
      rw [hused]
      split <;> omega
    obtain ⟨h1, h2, h3, h4, h5⟩ := ih ok' (by omega)
    simp only [insertAll, hins]
    refine ⟨h1, by rw [List.length_cons]; omega, h3.trans hindexed, fun n => ?_, fun j n hj => ?_⟩
    · rw [h4, bestFrom_cons]
      by_cases hn : d.1 = n
      · rw [if_pos hn, ← hn, hget]
      · rw [if_neg hn, hother _ fun h => hn (congrArg Prod.snd h).symm]
    · rw [h5 j n hj, hother _ fun h => hj (congrArg Prod.fst h)]

variable (hr : Room imgs) (ok : IndexOk imgs ix) (hi : i < imgs.length)

include hr ok hi

/-- The definitions of an image not indexed yet still fit. -/
theorem Room.fits (hnew : i ∉ ix.indexed) : ix.used + (defsOf imgs i).length ≤ symbolIndexCapacity := by
  have hnodup : (i :: ix.indexed).Nodup := List.nodup_cons.mpr ⟨hnew, ix.once⟩
  have hsub : (i :: ix.indexed).toFinset ⊆ (List.range imgs.length).toFinset := by
    intro j hj
    rcases List.mem_cons.mp (List.mem_toFinset.mp hj) with rfl | hj
    · simpa using hi
    · simpa using ok.known j hj
  have hsum := Finset.sum_le_sum_of_subset (f := fun j => (defsOf imgs j).length) hsub
  rw [List.sum_toFinset _ hnodup, List.sum_toFinset _ List.nodup_range, List.map_cons, List.sum_cons] at hsum
  have := ok.fits
  have := hr.defs_le
  omega

theorem symbolIndexImage_ok : IndexOk imgs (symbolIndexImage imgs i ix) ∧ i ∈ (symbolIndexImage imgs i ix).indexed := by
  unfold symbolIndexImage
  by_cases hin : i ∈ ix.indexed
  · rw [if_pos hin]
    exact ⟨ok, hin⟩
  · rw [if_neg hin, if_neg (by simp [ok.quiet])]
    have hmark := mark_indexed (Nat.lt_of_lt_of_le hi hr.images_le) hin
    have ok' : TableOk (ix.mark i) := ⟨by simp [ok.quiet], by simp [ok.probed], by simp [ok.count]⟩
    have hroom : (ix.mark i).used + (defsOf imgs i).length ≤ symbolIndexCapacity := by
      rw [mark_used]
      exact hr.fits ok hi hin
    obtain ⟨h1, h2, h3, h4, h5⟩ := insertAll_spec i (defsOf imgs i) ok' hroom
    rw [mark_used] at h2
    rw [hmark] at h3
    refine ⟨⟨h1, ?_, ?_, ?_⟩, ?_⟩
    · rw [h3, List.map_append, List.sum_append]
      have hfits := ok.fits
      simp only [List.map_cons, List.map_nil, List.sum_cons, List.sum_nil]
      omega
    · intro j hj
      rw [h3] at hj
      rcases List.mem_append.mp hj with hj | hj
      · exact ok.known j hj
      · rwa [List.mem_singleton.mp hj]
    · intro j n
      rw [h3]
      have hbefore : (ix.mark i).get (j, n) = if j ∈ ix.indexed then best (defsOf imgs j) n else none := by
        rw [mark_get]
        exact ok.exact j n
      by_cases hj : j = i
      · subst hj
        rw [h4, hbefore, if_neg hin, if_pos (by simp)]
        rfl
      · rw [h5 j n hj, hbefore]
        simp [hj]
    · rw [h3]
      simp

/-- With room, a lookup without locals returns what the image defines. -/
theorem findSymbolInImage_spec (name : CStr) :
    (findSymbolInImage imgs i name false ix).1 = (best (defsOf imgs i) name).getD ⟨0, false⟩ ∧
      IndexOk imgs (findSymbolInImage imgs i name false ix).2 := by
  obtain ⟨ok', hin⟩ := symbolIndexImage_ok hr ok hi
  have hget := ok'.exact i name
  rw [if_pos hin] at hget
  unfold findSymbolInImage symbolIndexLookup
  simp only [Bool.false_eq_true, if_false, hget]
  rcases best (defsOf imgs i) name with _ | s
  · simp only [ok'.quiet, Bool.false_eq_true, if_false]
    exact ⟨rfl, ok'⟩
  · exact ⟨rfl, ok'⟩

end Panthera.Dyld
