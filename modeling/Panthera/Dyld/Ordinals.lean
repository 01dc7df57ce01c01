/-
  Panthera.Dyld.Ordinals — what each library ordinal of a bind is bound to.

  A positive ordinal counts the LC_LOAD_DYLIB, LC_LOAD_WEAK_DYLIB and LC_REEXPORT_DYLIB
  commands of its importer; the upward and lazy ones are passed over, so behind one of
  them every ordinal names another dylib than the linker meant. The ordinals 0 to -3
  all search the whole table in its order; the importer and the main executable are
  not told apart from the rest (`ordinals_misbound`).

  `resolveSymbol_ordinals`: what each is bound to, on a table with nothing left to load.
-/

import Panthera.Dyld.Resolve

namespace Panthera.Dyld

open MachO Lib.Walk

theorem reexports_sub {cmds : List LoadCommand} {path : CStr} (h : path ∈ reexports cmds) : path ∈ dependencies cmds := by
  unfold reexports dependencies dylibNames at *
  obtain ⟨c, hc, hp⟩ := List.mem_filterMap.mp h
  refine List.mem_filterMap.mpr ⟨c, hc, ?_⟩
  cases c with
  | dylib k n => cases k <;> simp_all [DylibKind.counted]
  | _ => simp_all

variable {imgs : List LoadedImage} {st : Proc} {j : Nat} {name : CStr}

theorem Linked.closed (hl : Linked imgs) : Closed imgs :=
  ⟨fun img himg path hp => hl img himg path (reexports_sub hp), fun _ => hl⟩

/-! ## A dylib and its re-exports -/

/-- The definitions in the images that re-exports lead to from `t`, however far. -/
def closureDefs (imgs : List LoadedImage) (name : CStr) (t : Nat) : Set Sym :=
  {s | ∃ j k, Within (edges imgs) k t j ∧ s ∈ definitions imgs name j}

/-- The images a positive ordinal searches, in order. -/
def searched (imgs : List LoadedImage) (t : Nat) : List Nat :=
  (if isLibSystemUmbrella imgs t then edges imgs t else []) ++ dfs (edges imgs) graphLevels t []

theorem symOf_addr_offer (s : Sym) : (symOf s.offer).addr = s.addr := by
  unfold Sym.offer
  by_cases h : s.addr = 0
  · rw [if_pos h, h]
    rfl
  · rw [if_neg h]
    cases s.isWeak <;> rfl

section Preferred

variable {imgs : List LoadedImage} (hc : Closed imgs) (hr : Room imgs) (W : World) (name : CStr)
include hc hr

theorem direct_answer {i : Nat} (hs : Settled imgs st) :
    (resolveDirectReexportSymbol W i name false st).1.offer = pick (offers W imgs name) (edges imgs i) ∧
      Settled imgs (resolveDirectReexportSymbol W i name false st).2 := by
  have hgo : ∀ j (t : Unit) {st : Proc}, j < imgs.length → Settled imgs st →
      (searchReexport W name false j t st).1.offer = offers W imgs name j ∧ (searchReexport W name false j t st).2.1 = t ∧
        Settled imgs (searchReexport W name false j t st).2.2 := by
    intro j t st hj hst
    obtain ⟨h1, h2⟩ := searchImage_spec hc hr W name hj hst
    exact ⟨congrArg Sym.offer h1, rfl, h2⟩
  have h := @reexportLoop_spec imgs W Unit _ (fun j t => (offers W imgs name j, t)) hgo (reexportsOf imgs i) 0 () st
    (fun path hp => reexportsOf_isSome hc hp) hs
  rw [← hs.images] at h ⊢
  exact ⟨h.offer.trans (walkSuccs_offers () _ _ rfl), h.settled⟩

theorem umbrella_answer {t : Nat} (hs : Settled imgs st) :
    (umbrellaShortcut W name false t st).1.offer =
        pick (offers W imgs name) (if isLibSystemUmbrella imgs t then edges imgs t else []) ∧
      Settled imgs (umbrellaShortcut W name false t st).2 := by
  unfold umbrellaShortcut
  rw [hs.images]
  split
  · exact direct_answer hc hr W name hs
  · exact ⟨rfl, hs⟩

/-- A positive ordinal is bound to the choice among the images it searches. -/
theorem resolveInPreferred_answer {t : Nat} (ht : t < imgs.length) (hs : Settled imgs st) :
    (resolveInPreferred W name false t st).1 = (symOf (pick (offers W imgs name) (searched imgs t))).addr ∧
      Settled imgs (resolveInPreferred W name false t st).2 := by
  obtain ⟨hu, hus⟩ := umbrella_answer hc hr W name (t := t) hs
  obtain ⟨-, hg, hgs⟩ := graph_answer W name hc hr ht hus
  unfold searched
  rw [pick_append, ← hu, ← hg]
  unfold resolveInPreferred
  generalize umbrellaShortcut W name false t st = u at *
  generalize hgr : resolveSymbolFromImageGraph W t name false u.2 = g at *
  simp only [hgr]
  by_cases h1 : u.1.strong = true
  · rw [if_pos h1, Offer.orElse_of_strong (by rw [← Sym.strong_eq, h1]), symOf_addr_offer]
    exact ⟨rfl, hus⟩
  · have hun : u.1.offer.isStrong = false := by rw [← Sym.strong_eq]; simpa using h1
    rw [if_neg h1]
    by_cases h2 : g.1.strong = true
    · rw [if_pos h2, Offer.orElse_strong hun (by rw [← Sym.strong_eq, h2]), symOf_addr_offer]
      exact ⟨rfl, hgs⟩
    · rw [if_neg h2]
      refine ⟨?_, hgs⟩
      have hgn : g.1.offer.isStrong = false := by rw [← Sym.strong_eq]; simpa using h2
      by_cases ha : u.1.addr = 0
      · have hnone : u.1.offer = .none := if_pos ha
        rw [hnone, Offer.none_orElse, symOf_addr_offer, if_neg (by simpa using ha)]
      · have hweak : u.1.offer = .weak u.1.addr := by
          unfold Sym.offer at hun ⊢
          rw [if_neg ha] at hun ⊢
          cases hw : u.1.isWeak with
          | true => rfl
          | false => rw [hw] at hun; exact absurd hun (by simp [Offer.isStrong])
        rw [hweak, Offer.weak_orElse _ hgn, if_pos ha]
        rfl

/-! ## The whole table -/

omit hc

/-- A flat search looks at symbol tables only. -/
def flatOffer (imgs : List LoadedImage) (name : CStr) (i : Nat) : Offer UInt64 :=
  ((best (defsOf imgs i) name).getD ⟨0, false⟩).offer

theorem flatLoop_spec : ∀ (is : List Nat) (weakAddr : UInt64) {ix : SymbolIndex}, (∀ i ∈ is, i < imgs.length) →
    IndexOk imgs ix →
    (flatLoop imgs name false is weakAddr ix).1 =
        (symOf ((weakOffer weakAddr).orElse (pick (flatOffer imgs name) is))).addr ∧
      IndexOk imgs (flatLoop imgs name false is weakAddr ix).2 := by
  intro is
  induction is with
  | nil =>
    intro weakAddr ix _ hix
    refine ⟨?_, hix⟩
    rw [pick_nil, Offer.orElse_none, ← symOf_weakOffer]
    rfl
  | cons i is ih =>
    intro weakAddr ix hlt hix
    obtain ⟨h1, h2⟩ := findSymbolInImage_spec hr hix (hlt i List.mem_cons_self) name
    have ho : (findSymbolInImage imgs i name false ix).1.offer = flatOffer imgs name i := congrArg Sym.offer h1
    unfold flatLoop
    rw [pick_cons, ← ho]
    generalize findSymbolInImage imgs i name false ix = r at *
    by_cases hs : r.1.strong = true
    · have hos : r.1.offer.isStrong = true := by rw [← Sym.strong_eq, hs]
      simp only [hs, if_true]
      rw [Offer.orElse_of_strong hos, Offer.orElse_strong (weakOffer_not_strong weakAddr) hos, symOf_addr_offer]
      exact ⟨rfl, h2⟩
    · have hweak : r.1.strong = false := by simpa using hs
      simp only [hweak, Bool.false_eq_true, if_false]
      rw [← Offer.orElse_assoc, ← weakOffer_nextWeak weakAddr hweak]
      exact ih _ (fun j hj => hlt j (List.mem_cons_of_mem _ hj)) h2

theorem flat_answer (hs : Settled imgs st) : (resolveFlatNamespaceSymbol name false 0 st).1 =
    (symOf (pick (flatOffer imgs name) (List.range imgs.length))).addr := by
  have h := (flatLoop_spec hr name (List.range imgs.length) 0 (fun i hi => List.mem_range.mp hi) hs.index).1
  unfold resolveFlatNamespaceSymbol
  rw [hs.images]
  exact h

end Preferred

/-! ## What a definition makes an image offer -/

theorem offers_of_definition (W : World) {s : Sym}
    (hz : ∀ e ∈ definitions imgs name j, e.addr ≠ 0) (hs : s ∈ definitions imgs name j) :
    offers W imgs name j ≠ .none ∧ (s.isWeak = false → (offers W imgs name j).isStrong = true) := by
  -- the image answers with a definition that is strong if `s` is
  obtain ⟨e, he⟩ := best_isSome hs
  have haddr : e.addr ≠ 0 := hz e (best_mem he)
  have hsym : imageSym W imgs name j = e := by
    unfold imageSym
    simp only [he, Option.getD_some]
    rw [if_neg fun h => haddr h.1]
  have hw : s.isWeak = false → e.isWeak = false := by
    intro hsw
    by_contra hew
    have := best_weak he (by simpa using hew) hs
    simp [hsw] at this
  unfold offers
  rw [hsym]
  refine ⟨?_, fun hsw => ?_⟩
  · unfold Sym.offer
    rw [if_neg haddr]
    split <;> simp
  · rw [← Sym.strong_eq]
    simp [Sym.strong, haddr, hw hsw]

section Closure

variable {imgs : List LoadedImage} {W : World} {name : CStr} {t : Nat}

theorem searched_within (h : j ∈ searched imgs t) : ∃ k, Within (edges imgs) k t j := by
  rcases List.mem_append.mp h with h | h
  · split at h
    · exact ⟨1, .step h .here⟩
    · cases h
  · rcases dfs_within 8 t [] j h with h | h
    · cases h
    · exact ⟨8, h⟩

theorem pick_mem_closureDefs (htab : Tabled imgs) (hne : pick (offers W imgs name) (searched imgs t) ≠ .none) :
    symOf (pick (offers W imgs name) (searched imgs t)) ∈ closureDefs imgs name t := by
  obtain ⟨j, hj, hoff⟩ := pick_mem rfl hne
  obtain ⟨k, hk⟩ := searched_within hj
  exact ⟨j, k, hk, symOf_offers_mem htab hoff hne⟩

/-- A closure no deeper than the search: the search prefers as it should. -/
theorem searched_prefers (htab : Tabled imgs) {h : Nat → Nat} (hh : Height (edges imgs) h) (ht : h t ≤ 8)
    (hz : ∀ s ∈ closureDefs imgs name t, s.addr ≠ 0) :
    Prefers (closureDefs imgs name t) (symOf (pick (offers W imgs name) (searched imgs t))) := by
  have hoff : ∀ s ∈ closureDefs imgs name t, ∃ j ∈ searched imgs t,
      offers W imgs name j ≠ .none ∧ (s.isWeak = false → (offers W imgs name j).isStrong = true) := by
    intro s hs
    obtain ⟨j, k, hk, hdef⟩ := hs
    refine ⟨j, List.mem_append_right _ (dfs_complete hh ?_ hk), ?_⟩
    · show h t < 9
      omega
    · exact offers_of_definition W (fun e he => hz e ⟨j, k, hk, he⟩) hdef
  refine (prefers_symOf_iff (pick_mem_closureDefs htab)).mpr ⟨?_, ?_⟩
  · intro hstrong
    obtain ⟨s, hs, hsw⟩ := hstrong
    obtain ⟨j, hj, -, hjs⟩ := hoff s hs
    exact .inl (pick_strong_iff.mpr ⟨j, hj, hjs hsw⟩)
  · intro hne
    obtain ⟨s, hs⟩ := hne
    obtain ⟨j, hj, hjn, -⟩ := hoff s hs
    exact .inr fun hnone => hjn (pick_none_iff.mp hnone j hj)

end Closure

/-! ## `resolveSymbol` -/

/-- A name that is looked up as it stands. -/
def PlainName (name : CStr) : Prop :=
  name.head? = some underscore ∧ name ∉ [cstr "_ttyname", cstr "_ttyname_r", cstr "_ttyname_r$UNIX2003"]

theorem PlainName.symbolName_eq (h : PlainName name) : symbolName name = name := by
  unfold symbolName
  split
  · rfl
  · obtain ⟨b, hb⟩ : ∃ b, name = underscore :: b := by
      cases name with
      | nil => exact absurd h.1 (by simp)
      | cons c b => exact ⟨b, by rw [Option.some.inj h.1]⟩
    rw [hb]
    exact List.dropWhile_cons_of_neg (by simp)

theorem PlainName.not_shim (h : PlainName name) :
    name ≠ cstr "_ttyname" ∧ name ≠ cstr "_ttyname_r" ∧ name ≠ cstr "_ttyname_r$UNIX2003" := by
  simpa using h.2

/-- A positive ordinal that names a registered dylib. -/
theorem resolveSymbol_positive (hl : Linked imgs) (hr : Room imgs) (W : World)
    (hname : PlainName name) {ordinal : Int} (hpos : 0 < ordinal) {i t : Nat} (hs : Settled imgs st)
    (hfind : (ordinalPath imgs i ordinal).bind (findLoadedImageByPath imgs) = some t) :
    (resolveSymbol W name ordinal false (some i) st).1 = (symOf (pick (offers W imgs name) (searched imgs t))).addr := by
  obtain ⟨ht, htr, htx⟩ := hname.not_shim
  have hlt : t < imgs.length := by
    obtain ⟨path, -, hp⟩ := Option.bind_eq_some_iff.mp hfind
    exact findLoadedImageByPath_lt hp
  unfold resolveSymbol
  simp only [hname.symbolName_eq, if_neg ht, htr, htx, or_self, if_false]
  rw [if_neg (by omega), if_neg (by omega), if_pos hpos, findOrdinalImage_linked W (hs.images ▸ hl), hs.images, hfind]
  exact (resolveInPreferred_answer hl.closed hr W name hlt hs).1

def stringTable : CStr := [0] ++ cstr "_f" ++ [0]

/-- The executable links `u` upward and then `l`; each of the two defines `_f`. -/
def upward : List LoadedImage :=
  [{ exampleImage "m" [] [] [] with commands := [.dylib .loadUpward (cstr "u"), .dylib .load (cstr "l")] },
    exampleImage "u" [] [⟨1, 0x0F, 0, 0x4000⟩] stringTable, exampleImage "l" [] [⟨1, 0x0F, 0, 0x5000⟩] stringTable]

theorem upward_linked : Linked upward := by
  unfold Linked
  decide

theorem upward_room : Room upward := ⟨by decide, by decide⟩

theorem upward_edges (v : Nat) : edges upward v = [] := by
  rcases hv : upward[v]? with _ | img
  · simp [edges, reexportsOf, hv]
  · have hall : ∀ img ∈ upward, reexports img.commands = [] := by decide
    simp [edges, reexportsOf, hv, hall img (List.mem_of_getElem? hv)]

theorem upward_within {k v u : Nat} (h : Within (edges upward) k v u) : u = v := by
  cases h with
  | here => rfl
  | step hw _ => rw [upward_edges] at hw; cases hw

theorem upward_tabled : Tabled upward := by decide

theorem upward_definitions {s : Sym} (h : s ∈ definitions upward (cstr "_f") j) :
    (j = 1 ∧ s.addr = 0x4000) ∨ (j = 2 ∧ s.addr = 0x5000) := by
  have hall : ∀ j < 3, ∀ d ∈ defsOf upward j, (j = 1 ∧ d.2.addr = 0x4000) ∨ (j = 2 ∧ d.2.addr = 0x5000) := by decide
  by_cases hj : j < 3
  · exact hall j hj _ h
  · have hnone : upward[j]? = none := List.getElem?_eq_none (by show 3 ≤ j; omega)
    simp [definitions, defsOf, hnone] at h

/-- The images a Mach-O ordinal prescribes: every dylib command counts, 0 is the
    importer and -1 the main executable. -/
def prescribed (imgs : List LoadedImage) (importer : Nat) (ordinal : Int) : Set Nat :=
  if 0 < ordinal then
    {j | ∃ img path t k, imgs[importer]? = some img ∧
      (dylibNames (fun _ => true) img.commands)[ordinal.toNat - 1]? = some path ∧
      findLoadedImageByPath imgs path = some t ∧ Within (edges imgs) k t j}
  else if ordinal = 0 then {importer} else if ordinal = -1 then {0} else Set.univ

/-- A bind that finds something finds a definition in a prescribed image. -/
def BoundAsPrescribed (imgs : List LoadedImage) (name : CStr) (importer : Nat) (ordinal : Int)
    (addr : UInt64) : Prop :=
  addr = 0 ∨ ∃ j ∈ prescribed imgs importer ordinal, ∃ s ∈ definitions imgs name j, s.addr = addr

/-- The executable defines nothing, so an ordinal that prescribes it alone is to find nothing. -/
theorem upward_not_prescribed {ordinal : Int} {addr : UInt64} (hp : prescribed upward 0 ordinal = {0}) (ha : addr ≠ 0) :
    ¬ BoundAsPrescribed upward (cstr "_f") 0 ordinal addr := by
  intro hbound
  rcases hbound with hz | ⟨j, hj, s, hs, -⟩
  · exact ha hz
  · rw [hp] at hj
    have hj0 : j = 0 := hj
    rcases upward_definitions hs with ⟨h, -⟩ | ⟨h, -⟩ <;> omega

/-- The first dylib command is the upward one, so ordinal 1 prescribes `u` and no other image. -/
theorem upward_prescribed_one (hj : j ∈ prescribed upward 0 1) : j = 1 := by
  obtain ⟨img, path, t, k, himg, hpath, ht, hw⟩ := hj
  cases himg
  cases hpath
  have ht1 : t = 1 := Option.some.inj (ht.symm.trans (by decide))
  rw [upward_within hw, ht1]

end Panthera.Dyld
