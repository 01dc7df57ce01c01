/-
  Panthera.Dyld.Start — a run of dyld (`panthera_dyld_start_impl`): the main executable
  and its dependencies are loaded, every image outside the split cache is fixed up, the
  runtime is seeded, the initializers run, and the program is entered.

  The loop over the images reads the table's length on every turn, for resolving a bind
  may register images. `none` is a run that ends before its next phase: dyld rejects the
  executable, or it faults in a fixup.

  Main results: `fixups_once`, `initializers_once`, `initializers_in_table_order`.
-/

import Panthera.Dyld.Fixups
import Panthera.Dyld.Initializers

namespace Panthera.Dyld

open MachO Lib.Bytes Lib.Run

/-! ## Loading -/

def Launch.slide (L : Launch) : UInt64 :=
  match findSegment L.commands segText with
  | some textSeg => L.header - textSeg.vmaddr
  | none => 0

/-- The first image of the table. Its symbol table is parsed before the cache is mapped. -/
def Launch.image (L : Launch) : LoadedImage :=
  .ofHeader .absent L.header L.slide (L.path.getD (cstr "/unknown")) L.commands

def registerMain (L : Launch) : Proc :=
  Proc.register { images := [], index := .empty, mem := L.mem, mmaps := 0, trace := [] } L.image

def loadMain (W : World) (L : Launch) : Option Proc :=
  if L.header = 0 ∨ L.magic ≠ mhMagic64 then none
  else some (loadAll (loadImage W maxImages) (dependencies L.commands) (registerMain L))

/-! ## The fixup loop -/

/-- A pass over image `i`, which logs itself when it is through. -/
def logged (pass : World → Nat → Proc → Option Proc) (e : Nat → Event) (W : World) (i : Nat) (st : Proc) : Option Proc :=
  (pass W i st).map (·.log (e i))

def fixupImage (W : World) (i : Nat) (st : Proc) : Option Proc := do
  if (st.images[i]?.map fun img => isImageFromCache W.cache img.header) = some true then some st
  else
    let st ← logged applyChainedFixups .chained W i st
    let st ← logged applyRebases .rebased W i st
    logged applyBinds .bound W i st

/-- The loop from image `i` on. The table has `maxImages` places, so as many turns are
    enough. -/
def fixupLoop (W : World) : Nat → Nat → Proc → Option Proc
  | 0, _, st => some st
  | n + 1, i, st => if i < st.images.length then (fixupImage W i st).bind (fixupLoop W n (i + 1)) else some st

def fixedUp (W : World) (L : Launch) : Option Proc := (loadMain W L).bind (fixupLoop W maxImages 0)

/-! ## Seeding the runtime -/

def seedEach (W : World) (L : Launch) (includeLocals : Bool) (names : List CStr) (st : Proc) : Proc :=
  names.foldl (fun st name => seedSymbols W L includeLocals [name] st) st

def publishDyldBridgeState (W : World) (L : Launch) (st : Proc) : Proc :=
  seedSymbols W L true [cstr "_panthera_dyld_bridge_state"] st

def initializeProgramVars (W : World) (L : Launch) (st : Proc) : Proc :=
  let st := seedEach W L false [cstr "_environ", cstr "_NXArgc", cstr "_NXArgv"] st
  match resolveSymbol W (cstr "__program_vars_init") (-1) true none st with
  | (addr, st) =>
    if addr ≠ 0 then { st with mem := L.seed [cstr "__program_vars_init"] [addr] st.mem }
    else seedEach W L true [cstr "_NXArgv_pointer", cstr "_NXArgc_pointer", cstr "_environ_pointer",
      cstr "___progname_pointer", cstr "__mh_execute_header_pointer"] st

/-- The first thread's record: zeroed, with its own address and that of its `errno` in
    its data slots. -/
def bootstrapThread (W : World) (st : Proc) : Bool × Proc :=
  let base := W.mmap st.mmaps
  let st := { st with mmaps := st.mmaps + 1 }
  if base = 0 ∨ isNeg base then (false, st)
  else (true, ({ st with mem := zeroBytes st.mem base 16384 }.store (base + 224).toNat base).store (base + 232).toNat (base + 172))

def pantheraSeedLibkernelState (W : World) (L : Launch) (st : Proc) : Proc :=
  let st := seedSymbols W L false [cstr "_task_self_trap", cstr "_mach_task_self_"] st
  -- the second of the two is looked up among local symbols as well
  let st := match resolveSymbol W (cstr "_mach_reply_port") (-1) false none st with
    | (trap, st) =>
      match resolveSymbol W (cstr "__task_reply_port") (-1) true none st with
      | (port, st) =>
        if trap ≠ 0 ∧ port ≠ 0 then
          { st with mem := L.seed [cstr "_mach_reply_port", cstr "__task_reply_port"] [trap, port] st.mem }
        else st
  let st := seedSymbols W L false [cstr "_task_self_trap", cstr "_task_get_special_port", cstr "_bootstrap_port"] st
  seedEach W L false [cstr "_vm_kernel_page_shift", cstr "_vm_kernel_page_size", cstr "_vm_kernel_page_mask",
    cstr "_vm_page_shift", cstr "_vm_page_size", cstr "_vm_page_mask"] st

def stackGuard : UInt64 := 0x00000afd4e9a1272

/-- The canary of one image that has its own. -/
def seedImageGuard (guardAddr : UInt64) (st : Proc) (i : Nat) : Proc :=
  match findSymbolInImage st.images i (cstr "___stack_chk_guard") false st.index with
  | (s, ix) =>
    let st := { st with index := ix }
    if s.addr ≠ 0 ∧ s.addr ≠ guardAddr then st.store s.addr.toNat stackGuard else st

def seedStackGuard (W : World) (st : Proc) : Proc :=
  match resolveSymbol W (cstr "___stack_chk_guard") (-1) false none st with
  | (guardAddr, st) =>
    let st := if guardAddr ≠ 0 then st.store guardAddr.toNat stackGuard else st
    (List.range st.images.length).foldl (seedImageGuard guardAddr) st

/-- From the end of the fixup loop to the first initializer. -/
def seedRuntime (W : World) (L : Launch) (st : Proc) : Proc :=
  let st := publishDyldBridgeState W L st
  let st := seedSymbols W L false [cstr "_mach_task_self_"] st
  let st := initializeProgramVars W L st
  match bootstrapThread W st with
  | (hasThread, st) =>
    let st := pantheraSeedLibkernelState W L st
    let st := if hasThread then seedSymbols W L true [cstr "__task_reply_port"] st else st
    let st := seedStackGuard W st
    seedSymbols W L false [cstr "___malloc_init"] st

/-! ## Entering the program -/

/-- `LC_MAIN` or `LC_UNIXTHREAD`, whichever comes first; 0 if there is neither. -/
def Launch.entryAddr (L : Launch) : UInt64 :=
  (L.commands.findSome? fun
    | .main entryoff =>
      match findSegment L.commands segText with
      | some textSeg => some (textSeg.vmaddr + L.slide + entryoff)
      | none => some (L.header + entryoff + L.slide)
    | .unixThread rip => some (if L.slide ≠ 0 then rip + L.slide else rip)
    | _ => none).getD 0

def enterProgram (W : World) (L : Launch) (st : Proc) : Proc :=
  if L.entryAddr = 0 then st
  else (seedSymbols W L false [cstr "__CurrentRuneLocale", cstr "__DefaultRuneLocale"] st).log (.entry L.entryAddr)

/-! ## The whole run -/

/-- The state in which the initializer phase begins. -/
def prepared (W : World) (L : Launch) : Option Proc := (fixedUp W L).map (seedRuntime W L)

/-- A run up to the call of the program's entry point. -/
def pantheraDyldStartImpl (W : World) (L : Launch) : Option Proc :=
  (prepared W L).map fun st => enterProgram W L (runInitializers W L st)

/-! ## The events of a run -/

def Event.isRegistration : Event → Bool
  | .registered _ => true
  | _ => false

def Event.isFixup : Event → Bool
  | .chained _ | .rebased _ | .bound _ => true
  | _ => false

def Event.isInit : Event → Bool
  | .libcInit | .init _ _ => true
  | _ => false

/-- The fixups image `i` is due: none in the split cache, each of the three else. -/
def fixupsOf (C : SharedCache) (images : List LoadedImage) (i : Nat) : List Event :=
  if (images[i]?.map fun img => isImageFromCache C img.header) = some true then []
  else [.chained i, .rebased i, .bound i]

/-- While images are loaded and fixed up: the table is in order and starts with the
    images of `st0`, the fixups made are `T`, and no initializer has run. -/
structure Fixing (st0 : Proc) (T : List Event) (st : Proc) : Prop where
  table : TableInv st
  grows : Grows st0 st
  fixups : st.trace.filter Event.isFixup = T
  quiet : ∀ e ∈ st.trace, e.isInit = false

variable (W : World) (L : Launch)

theorem stable_fixing (st0 : Proc) (T : List Event) : Stable W (Fixing st0 T) where
  keeps st st' hk h :=
    ⟨(stable_tableInv W).keeps st st' hk h.table, (stable_grows W st0).keeps st st' hk h.grows, hk.trace ▸ h.fixups,
      hk.trace ▸ h.quiet⟩
  register st img hf h := by
    refine ⟨(stable_tableInv W).register st img hf h.table, (stable_grows W st0).register st img hf h.grows, ?_, ?_⟩
    · show (st.trace ++ [Event.registered st.images.length]).filter Event.isFixup = T
      rw [List.filter_append, h.fixups]
      simp [Event.isFixup]
    · intro e he
      rcases List.mem_append.mp he with he | he
      · exact h.quiet e he
      · rw [List.mem_singleton.mp he]
        rfl

theorem Fixing.log {st0 st : Proc} {T : List Event} (h : Fixing st0 T st) {e : Event} (he : e.isFixup = true)
    (hq : e.isInit = false) : Fixing st0 (T ++ [e]) (st.log e) := by
  refine ⟨⟨h.table.distinct, h.table.length_le⟩, h.grows, ?_, ?_⟩
  · show (st.trace ++ [e]).filter Event.isFixup = T ++ [e]
    rw [List.filter_append, h.fixups, List.filter_cons_of_pos he, List.filter_nil]
  · intro x hx
    rcases List.mem_append.mp hx with hx | hx
    · exact h.quiet x hx
    · rwa [List.mem_singleton.mp hx]

/-! ## The fixup loop -/

/-- What a load keeps and the history does not touch, the loop keeps. -/
theorem fixupLoop_inv {W : World} {P : Proc → Prop} (hP : Fixable W P) (hlog : ∀ st e, P st → P (st.log e)) :
    ∀ (n i : Nat) {st : Proc}, P st → Sound P (fixupLoop W n i st) := by
  intro n
  induction n with
  | zero => intro i st h; exact .some h
  | succ n ih =>
    intro i st h
    unfold fixupLoop
    split
    · refine Sound.bind ?_ fun st h => ih (i + 1) h
      unfold fixupImage
      split
      · exact .some h
      · exact Sound.bind ((applyChainedFixups_inv hP i h).map fun st h => hlog st _ h) fun st h =>
          Sound.bind ((applyRebases_inv hP i h).map fun st h => hlog st _ h) fun st h =>
            (applyBinds_inv hP i h).map fun st h => hlog st _ h
    · exact .some h

theorem fixupImage_spec (i : Nat) {st0 st : Proc} {T : List Event} (h : Fixing st0 T st) :
    Sound (Fixing st0 (T ++ fixupsOf W.cache st.images i)) (fixupImage W i st) := by
  have hinv : ∀ T, Invariant W (Fixing st0 T) := fun T => (stable_fixing W st0 T).invariant
  unfold fixupImage fixupsOf
  by_cases hc : (st.images[i]?.map fun img => isImageFromCache W.cache img.header) = some true
  · rw [if_pos hc, if_pos hc, List.append_nil]
    exact .some h
  · rw [if_neg hc, if_neg hc]
    -- each of the three keeps the fixups made so far, and adds itself
    intro st' he
    obtain ⟨st1, h1, he⟩ := Option.bind_eq_some_iff.mp he
    obtain ⟨st2, h2, h3⟩ := Option.bind_eq_some_iff.mp he
    have k1 := (applyChainedFixups_inv (hinv _).fixable i h).map (fun _ h => h.log (e := .chained i) rfl rfl) st1 h1
    have k2 := (applyRebases_inv (hinv _).fixable i k1).map (fun _ h => h.log (e := .rebased i) rfl rfl) st2 h2
    have k3 := (applyBinds_inv (hinv _).fixable i k2).map (fun _ h => h.log (e := .bound i) rfl rfl) st' h3
    simpa using k3

/-- The loop has come to image `i`: the images before it, and no other, have been fixed up. -/
structure Reached (W : World) (i : Nat) (st : Proc) : Prop where
  table : TableInv st
  inTable : i ≤ st.images.length
  fixups : st.trace.filter Event.isFixup = (List.range i).flatMap (fixupsOf W.cache st.images)
  quiet : ∀ e ∈ st.trace, e.isInit = false

theorem fixupsOf_grows (C : SharedCache) {st st' : Proc} (h : Grows st st') {i : Nat} (hi : i < st.images.length) :
    fixupsOf C st'.images i = fixupsOf C st.images i := by
  have hget : st.images[i]? = some st.images[i] := List.getElem?_eq_getElem hi
  unfold fixupsOf
  rw [h.get hget, hget]

theorem reached_next {i : Nat} {st : Proc} (h : Reached W i st) (hi : i < st.images.length) :
    Sound (Reached W (i + 1)) (fixupImage W i st) := by
  intro st' he
  have hfix := fixupImage_spec W i ⟨h.table, Grows.refl st, h.fixups, h.quiet⟩ st' he
  refine ⟨hfix.table, Nat.le_trans hi hfix.grows.length_le, ?_, hfix.quiet⟩
  rw [hfix.fixups, List.range_succ, List.flatMap_append, List.flatMap_singleton, fixupsOf_grows W.cache hfix.grows hi]
  congr 1
  refine List.flatMap_congr fun j hj => ?_
  exact (fixupsOf_grows W.cache hfix.grows (Nat.lt_trans (List.mem_range.mp hj) hi)).symm

/-- The loop goes on until it has seen the whole table, however the table grows. -/
theorem fixupLoop_spec : ∀ (n i : Nat) {st : Proc}, maxImages ≤ n + i → Reached W i st →
    Sound (fun st' => Reached W st'.images.length st') (fixupLoop W n i st) := by
  intro n
  induction n with
  | zero =>
    intro i st hn h
    have hlen : i = st.images.length := by
      have := h.table.length_le
      have := h.inTable
      omega
    exact .some (hlen ▸ h)
  | succ n ih =>
    intro i st hn h
    unfold fixupLoop
    split
    · rename_i hi
      intro st' he
      obtain ⟨st1, h1, h2⟩ := Option.bind_eq_some_iff.mp he
      exact ih (i + 1) (by omega) (reached_next W h hi st1 h1) st' h2
    · rename_i hi
      have hlen : i = st.images.length := Nat.le_antisymm h.inTable (Nat.le_of_not_lt hi)
      exact .some (hlen ▸ h)

theorem registerMain_fixing : Fixing (registerMain L) [] (registerMain L) where
  table := ⟨List.pairwise_singleton _ _, show 1 ≤ maxImages by decide⟩
  grows := Grows.refl _
  fixups := rfl
  quiet e he := by
    rw [List.mem_singleton.mp he]
    rfl

theorem loadMain_fixing : Sound (Fixing (registerMain L) []) (loadMain W L) := by
  unfold loadMain
  split
  · exact .none
  · exact .some (loadAll_inv (stable_fixing W _ _).invariant.load _ (registerMain_fixing L))

theorem fixedUp_reached : Sound (fun st => Reached W st.images.length st) (fixedUp W L) := by
  intro st h
  obtain ⟨st1, h1, h2⟩ := Option.bind_eq_some_iff.mp h
  have hload := loadMain_fixing W L st1 h1
  exact fixupLoop_spec W maxImages 0 (Nat.le_refl _)
    ⟨hload.table, Nat.zero_le _, by rw [hload.fixups]; rfl, hload.quiet⟩ st h2

/-! ## After the loop -/

/-- The same table, and a history that goes on without a registration. -/
structure After (st st' : Proc) : Prop where
  images : st'.images = st.images
  events : ∃ rest, st'.trace = st.trace ++ rest ∧ ∀ e ∈ rest, e.isRegistration = false

theorem Keeps.after {st st' : Proc} (h : Keeps st st') : After st st' := ⟨h.images, [], by simp [h.trace], by simp⟩

theorem After.trans {a b c : Proc} (h1 : After a b) (h2 : After b c) : After a c := by
  obtain ⟨l1, hl1, hr1⟩ := h1.events
  obtain ⟨l2, hl2, hr2⟩ := h2.events
  refine ⟨h2.images.trans h1.images, l1 ++ l2, by rw [hl2, hl1, List.append_assoc], fun e he => ?_⟩
  exact (List.mem_append.mp he).elim (hr1 e) (hr2 e)

theorem After.log {st st' : Proc} (h : After st st') {e : Event} (he : e.isRegistration = false) :
    After st (st'.log e) :=
  h.trans ⟨rfl, [e], rfl, by simpa using he⟩

section Seeding

variable {W : World} {L : Launch} {st0 st : Proc} (h : Keeps st0 st)
include h

theorem Keeps.withMem (m : Mem) : Keeps st0 { st with mem := m } := ⟨h.images, h.trace⟩

theorem resolveSymbol_keeps (name : CStr) (includeLocals : Bool) :
    Keeps st0 (resolveSymbol W name (-1) includeLocals none st).2 := by
  obtain ⟨ix, hst, -⟩ := resolveSymbol_flat W name includeLocals st
  rw [hst]
  exact h.trans ⟨rfl, rfl⟩

theorem seedSymbols_keeps (includeLocals : Bool) (names : List CStr) : Keeps st0 (seedSymbols W L includeLocals names st) := by
  obtain ⟨m, ix, hst, -⟩ := seedSymbols_effect W L includeLocals names st
  rw [hst]
  exact h.trans ⟨rfl, rfl⟩

theorem seedEach_keeps (includeLocals : Bool) (names : List CStr) : Keeps st0 (seedEach W L includeLocals names st) :=
  foldl_inv (P := Keeps st0) (fun _ name h => seedSymbols_keeps h includeLocals [name]) names h

theorem initializeProgramVars_keeps : Keeps st0 (initializeProgramVars W L st) := by
  have hinit := resolveSymbol_keeps (W := W)
    (seedEach_keeps (W := W) (L := L) h false [cstr "_environ", cstr "_NXArgc", cstr "_NXArgv"])
    (cstr "__program_vars_init") true
  unfold initializeProgramVars
  dsimp only
  split
  · exact hinit.withMem _
  · exact seedEach_keeps hinit true _

theorem bootstrapThread_keeps : Keeps st0 (bootstrapThread W st).2 := by
  unfold bootstrapThread
  dsimp only
  split <;> exact ⟨h.images, h.trace⟩

theorem pantheraSeedLibkernelState_keeps : Keeps st0 (pantheraSeedLibkernelState W L st) := by
  have hport := resolveSymbol_keeps (W := W) (resolveSymbol_keeps (W := W)
    (seedSymbols_keeps (W := W) (L := L) h false [cstr "_task_self_trap", cstr "_mach_task_self_"])
    (cstr "_mach_reply_port") false) (cstr "__task_reply_port") true
  unfold pantheraSeedLibkernelState
  dsimp only
  refine seedEach_keeps (seedSymbols_keeps ?_ _ _) _ _
  split
  · exact hport.withMem _
  · exact hport

theorem seedStackGuard_keeps : Keeps st0 (seedStackGuard W st) := by
  have hguard := resolveSymbol_keeps (W := W) h (cstr "___stack_chk_guard") false
  unfold seedStackGuard
  dsimp only
  refine foldl_inv (P := Keeps st0) (fun st i h => ?_) _ ?_
  · unfold seedImageGuard
    dsimp only
    split <;> exact h.trans ⟨rfl, rfl⟩
  · split
    · exact hguard.withMem _
    · exact hguard

theorem seedRuntime_keeps : Keeps st0 (seedRuntime W L st) := by
  have hthread := pantheraSeedLibkernelState_keeps (W := W) (L := L) (bootstrapThread_keeps (W := W)
    (initializeProgramVars_keeps (W := W) (L := L) (seedSymbols_keeps (W := W) (L := L)
      (seedSymbols_keeps (W := W) (L := L) h true [cstr "_panthera_dyld_bridge_state"]) false [cstr "_mach_task_self_"])))
  unfold seedRuntime publishDyldBridgeState
  dsimp only
  refine seedSymbols_keeps (seedStackGuard_keeps ?_) _ _
  split
  · exact seedSymbols_keeps hthread true _
  · exact hthread

end Seeding

section Running

variable {W : World} {L : Launch} {st0 st : Proc} (h : After st0 st)
include h

theorem isLibSystemInitCtor_after (i : Nat) (a : UInt64) : After st0 (isLibSystemInitCtor i a st).2 := by
  unfold isLibSystemInitCtor
  split
  · exact h
  · exact h.trans (Keeps.after ⟨rfl, rfl⟩)

theorem runInit_after (i : Nat) (func : UInt64) : After st0 (runInit L i func st) :=
  (h.trans (Keeps.after ((Keeps.refl st).withMem (L.call func st.mem)))).log rfl

theorem runLibSystemCtor_after (i : Nat) (func : UInt64) : After st0 (runLibSystemCtor W L i func st) := by
  have hlookup : Keeps (st.log .libcInit) (pantheraRunLibcInit W L st) := by
    unfold pantheraRunLibcInit
    dsimp only
    rw [lookupAll_locals]
    exact foldl_inv (P := Keeps (st.log .libcInit)) (fun _ name h => seedSymbols_keeps h true [name]) _ (Keeps.refl _)
  exact runInit_after ((h.log rfl).trans hlookup.after) i func

theorem runInitializers_after : After st0 (runInitializers W L st) := by
  unfold runInitializers
  refine scanImages_inv (fun s acc h => ?_) _ (scanImages_inv (fun s acc h => ?_) _ h)
  · unfold initEntry
    split
    · exact h
    · rename_i func _
      have hctor := isLibSystemInitCtor_after h s.image func
      rcases hr : isLibSystemInitCtor s.image func acc.2 with ⟨_ | _, st1⟩ <;> rw [hr] at hctor
      · exact runInit_after hctor _ _
      · dsimp only
        split
        · exact hctor
        · exact runLibSystemCtor_after hctor _ _
  · unfold earlyEntry
    split
    · exact h
    · split
      · exact h
      · rename_i func _
        have hctor := isLibSystemInitCtor_after h s.image func
        rcases hr : isLibSystemInitCtor s.image func acc.2 with ⟨_ | _, st1⟩ <;> rw [hr] at hctor
        · exact hctor
        · exact runLibSystemCtor_after hctor _ _

theorem enterProgram_after : After st0 (enterProgram W L st) := by
  unfold enterProgram
  split
  · exact h
  · exact (h.trans (seedSymbols_keeps (Keeps.refl st) false _).after).log rfl

end Running

/-! ## A sample program -/

def sampleText (vmaddr : UInt64) : LoadCommand := .segment ⟨segText, vmaddr, 0x1000, 0, 0, 5, []⟩

def sampleData (vmaddr fileoff filesize : UInt64) (sects : List Section64) : LoadCommand :=
  .segment ⟨cstr "__DATA", vmaddr, 0x1000, fileoff, filesize, 3, sects⟩

def sampleLinkedit (vmaddr : UInt64) : LoadCommand := .segment ⟨segLinkedit, vmaddr, 0x1000, 0x800, 0, 1, []⟩

def initSection (addr size : UInt64) (type : UInt32) : Section64 := ⟨cstr "__mod_init_func", addr, size, type, 0⟩

def oneSymbol (name : CStr) (value : UInt64) : LoadCommand :=
  .symtab ⟨0, [⟨1, 0x0F, 0, value⟩], 0 :: name ++ [0], UInt32.ofNat (name.length + 2)⟩

def libA : CStr := cstr "/usr/lib/libA.dylib"
def libB : CStr := cstr "/usr/lib/libB.dylib"
def libC : CStr := cstr "/usr/lib/libC.dylib"
def libD : CStr := cstr "/usr/lib/libD.dylib"

/-- A small file with one initializer pointer, at offset 640. -/
def sampleFile (pointer : List UInt8) (commands : List LoadCommand) : File where
  fstatOk := true
  size := 1024
  readOk _ _ := true
  mapOk _ := true
  magic := mhMagic64
  sizeofcmds := 600
  commands := sampleText 0 :: sampleData 0x1000 640 8 [initSection 0x1000 8 0x09] :: sampleLinkedit 0x2000 :: commands
  contents := List.replicate 640 0 ++ pointer

/-- A split cache with `libB`, which links against `libC` in the cache and re-exports the
    file `libD`. -/
def sampleCache : SharedCache where
  valid := true
  splitRegion := true
  preResolved := true
  images := [⟨libB, 0x7FFF20000000, mhMagic64, [sampleText 0x7FFF20000000, .dylib .load libC, .dylib .reexport libD], []⟩,
    ⟨libC, 0x7FFF20010000, mhMagic64, [sampleText 0x7FFF20010000], []⟩]
  textAddr := 0x7FFF20000000
  textSize := 0x20000
  linkAddr := 0x7FFFC0000000
  linkFileOffset := 0x30000
  slide := 0
  base := 0
  fileSize := 0

def sampleWorld : World where
  cache := sampleCache
  openFile path :=
    if path = libA then some (sampleFile [0x10, 0, 2, 0, 0, 0, 0, 0] [.dylib .load libB])
    else if path = libSystemPath then some (sampleFile [0, 2, 4, 0, 0, 0, 0, 0] [oneSymbol (cstr "___libSystem_init") 0x200])
    else if path = libD then some (sampleFile [0, 0, 0, 0, 0, 0, 0, 0] [oneSymbol (cstr "_f") 0x300])
    else none
  mmap n := 0x10000 * (UInt64.ofNat n + 1)
  ttynameShim := 1
  ttynameRShim := 2

/-- An executable that binds `_f`, of `libD`, through `libB`. -/
def sampleLaunch : Launch where
  header := 0x100000000
  magic := mhMagic64
  path := some (cstr "/bin/tool")
  commands := [sampleText 0x100000000, sampleData 0x100001000 0 0 [initSection 0x100001000 4 0x16],
    sampleLinkedit 0x100002000, .dylib .load libA, .dylib .load libSystemPath, .dylib .load libB,
    .dyldInfo ⟨.empty, ⟨[0x13, 0x40, 0x5F, 0x66, 0, 0x71, 0x10, 0x90], 8, by decide⟩,
      .empty, 0, []⟩, .main 0x40]
  mem := writeLE 4 (fun _ => 0) 0x100001000 0x100
  seed _ _ m := m
  call _ m := m

/-! ## Fixups -/

/-- When the fixup loop ends, the images outside the split cache have been fixed up one
    after the other, each by its chained fixups, its rebases and its binds, whether dyld
    loaded them before the loop or while it ran; no initializer has run. From there to
    the call of the entry point the table stays as it is. -/
theorem fixups_once (W : World) (L : Launch) {st : Proc} (h : fixedUp W L = some st) :
    st.trace.filter Event.isFixup = (List.range st.images.length).flatMap (fixupsOf W.cache st.images) ∧
    (∀ e ∈ st.trace, e.isInit = false) ∧
    ∃ st', pantheraDyldStartImpl W L = some st' ∧ st'.images = st.images ∧
      ∃ rest, st'.trace = st.trace ++ rest ∧ ∀ e ∈ rest, e.isRegistration = false := by
  have hreached := fixedUp_reached W L st h
  have hafter : After st (enterProgram W L (runInitializers W L (seedRuntime W L st))) :=
    enterProgram_after (runInitializers_after (seedRuntime_keeps (Keeps.refl st)).after)
  refine ⟨hreached.fixups, hreached.quiet, _, ?_, hafter.images, hafter.events⟩
  rw [pantheraDyldStartImpl, prepared, h]
  rfl

theorem fixups_once_sample : ∃ st, fixedUp sampleWorld sampleLaunch = some st ∧
    st.trace.filter Event.isFixup = [.chained 0, .rebased 0, .bound 0, .chained 1, .rebased 1, .bound 1,
      .chained 3, .rebased 3, .bound 3, .chained 4, .rebased 4, .bound 4] ∧ ∀ e ∈ st.trace, e.isInit = false := by
  have hdue : (fixedUp sampleWorld sampleLaunch).map (fun st =>
      (List.range st.images.length).flatMap (fixupsOf sampleCache st.images)) =
      some [.chained 0, .rebased 0, .bound 0, .chained 1, .rebased 1, .bound 1,
        .chained 3, .rebased 3, .bound 3, .chained 4, .rebased 4, .bound 4] := by decide
  obtain ⟨st, hst, hdue⟩ := Option.map_eq_some_iff.mp hdue
  obtain ⟨hfix, hquiet, -⟩ := fixups_once sampleWorld sampleLaunch hst
  exact ⟨st, hst, hfix.trans hdue, hquiet⟩

/-! ## Initializers -/

theorem prepared_spec : Sound (fun st => TableInv st ∧ ∀ e ∈ st.trace, e.isInit = false) (prepared W L) := by
  intro st h
  obtain ⟨st1, h1, rfl⟩ := Option.map_eq_some_iff.mp h
  have hreached := fixedUp_reached W L st1 h1
  have hkeeps : Keeps st1 (seedRuntime W L st1) := seedRuntime_keeps (Keeps.refl st1)
  exact ⟨(stable_tableInv W).keeps _ _ hkeeps hreached.table, hkeeps.trace.symm ▸ hreached.quiet⟩

theorem enterProgram_trace (st : Proc) :
    ∃ tail, (enterProgram W L st).trace = st.trace ++ tail ∧ ∀ e ∈ tail, e.isInit = false := by
  unfold enterProgram
  split
  · exact ⟨[], by simp, by simp⟩
  · refine ⟨[.entry L.entryAddr], ?_, by simp [Event.isInit]⟩
    show (seedSymbols W L false _ st).trace ++ [Event.entry L.entryAddr] = _
    rw [(seedSymbols_keeps (Keeps.refl st) false _).trace]

theorem InTableOrder.append {st : Proc} {pre l post : List Event} (h : InTableOrder st l) (hquiet : ∀ e ∈ pre ++ post, e.isInit = false) :
    InTableOrder st (pre ++ l ++ post) := by
  have hbefore : ∀ {i j a b}, RunsBefore l (.init i a) (.init j b) → RunsBefore (pre ++ l ++ post) (.init i a) (.init j b) := by
    refine fun hl => RunsBefore.append_right (fun he => ?_) (RunsBefore.append (fun he => ?_) hl)
    · cases hquiet _ (List.mem_append_right _ he)
    · cases hquiet _ (List.mem_append_left _ he)
  have hmem : ∀ {e}, e ∈ l → e ∈ pre ++ l ++ post := fun he => List.mem_append_left _ (List.mem_append_right _ he)
  exact ⟨fun e he hnot => hmem (h.runs e he hnot), fun i j hij a b hb => hbefore (h.order i j hij a b hb),
    fun c hc => ⟨hmem (h.ctor c hc).1, fun j b hb => hbefore ((h.ctor c hc).2 j b hb)⟩⟩

theorem start_trace (W : World) (L : Launch) {st : Proc} (h : prepared W L = some st) (hL : L.Spares st.images)
    (hsmall : SmallSections st.images) : ∃ st' tail, pantheraDyldStartImpl W L = some st' ∧
      st'.trace = st.trace ++ initSchedule st ++ tail ∧ ∀ e ∈ st.trace ++ tail, e.isInit = false := by
  obtain ⟨ht, hquiet⟩ := prepared_spec W L st h
  obtain ⟨tail, htail, hq⟩ := enterProgram_trace W L (runInitializers W L st)
  refine ⟨_, tail, by rw [pantheraDyldStartImpl, h]; rfl, ?_, ?_⟩
  · rw [htail, runInitializers_trace W ht hL hsmall]
  · intro e he
    exact (List.mem_append.mp he).elim (hquiet e) (hq e)

/-- A run calls the constructor of libSystem, if an entry names it, with libc's
    initialization right before it, then every other entry of the images in table order,
    each once, and no other initializer. -/
theorem initializers_once (W : World) (L : Launch) {st : Proc} (h : prepared W L = some st) (hL : L.Spares st.images)
    (hsmall : SmallSections st.images) : ∃ st' tail, pantheraDyldStartImpl W L = some st' ∧
      st'.trace = st.trace ++ initSchedule st ++ tail ∧ ∀ e ∈ st.trace ++ tail, e.isInit = false :=
  start_trace W L h hL hsmall

theorem sample_prepared : ∃ st, prepared sampleWorld sampleLaunch = some st ∧ SmallSections st.images ∧
    initSchedule st = [.libcInit, .init 3 0x40200, .init 0 0x100000100, .init 1 0x20010] ∧
    ((initializers st.mem st.images).map fun e => (e, isCtor st e)) =
      [((0, 0x100000100), false), ((1, 0x20010), false), ((3, 0x40200), true)] := by
  have hst : (prepared sampleWorld sampleLaunch).map (fun st =>
      (decide (SmallSections st.images), initSchedule st, (initializers st.mem st.images).map fun e => (e, isCtor st e))) =
      some (true, [.libcInit, .init 3 0x40200, .init 0 0x100000100, .init 1 0x20010],
        [((0, 0x100000100), false), ((1, 0x20010), false), ((3, 0x40200), true)]) := by decide +kernel
  obtain ⟨st, hst, hfacts⟩ := Option.map_eq_some_iff.mp hst
  simp only [Prod.mk.injEq, decide_eq_true_eq] at hfacts
  exact ⟨st, hst, hfacts⟩

theorem sample_spares (images : List LoadedImage) : sampleLaunch.Spares images :=
  ⟨fun _ _ _ _ _ _ _ => rfl, fun _ _ _ _ _ _ => rfl⟩

theorem initializers_once_sample : ∃ (st st' : Proc) (tail : List Event), prepared sampleWorld sampleLaunch = some st ∧
    pantheraDyldStartImpl sampleWorld sampleLaunch = some st' ∧ st'.trace = st.trace ++
      [.libcInit, .init 3 0x40200, .init 0 0x100000100, .init 1 0x20010] ++ tail ∧
    ∀ e ∈ st.trace ++ tail, e.isInit = false := by
  obtain ⟨st, hst, hsmall, hsched, -⟩ := sample_prepared
  obtain ⟨st', tail, hst', htrace, hquiet⟩ :=
    initializers_once sampleWorld sampleLaunch hst (sample_spares _) hsmall
  rw [hsched] at htrace
  exact ⟨st, st', tail, hst, hst', htrace, hquiet⟩

/-- Every pointer that is not null in an initializer section is called, wherever the
    image's segments are. -/
def EveryPointerRuns (W : World) (L : Launch) : Prop :=
  ∀ st st', prepared W L = some st → pantheraDyldStartImpl W L = some st' →
    ∀ i img, st.images[i]? = some img → ∀ seg ∈ segmentsOf img.commands, ∀ sect ∈ seg.sections,
      initKind sect = some .pointers → ∀ f < sect.size.toNat / 8,
        read64 st.mem ((sect.addr + img.slide).toNat + 8 * f) ≠ 0 →
          .init i (read64 st.mem ((sect.addr + img.slide).toNat + 8 * f)) ∈ st'.trace

/-- An executable with one segment, which is not `__TEXT`, and an initializer in it. -/
def noTextLaunch : Launch where
  header := 0x100000000
  magic := mhMagic64
  path := some (cstr "/bin/tool")
  commands := [sampleData 0x100000000 0 0 [initSection 0x100000800 8 0x09], .main 0x40]
  mem := writeLE 8 (fun _ => 0) 0x100000800 0x100000100
  seed _ _ m := m
  call _ m := m

theorem initializer_without_text_lost : ¬ EveryPointerRuns bareWorld noTextLaunch := by
  intro h
  have hst : (prepared bareWorld noTextLaunch).map (fun st => (st.images, read64 st.mem 0x100000800)) =
      some ([noTextLaunch.image], 0x100000100) := by decide +kernel
  have hst' : (pantheraDyldStartImpl bareWorld noTextLaunch).map (·.trace) =
      some [.registered 0, .chained 0, .rebased 0, .bound 0, .entry 0x100000040] := by decide +kernel
  obtain ⟨st, hst, hfacts⟩ := Option.map_eq_some_iff.mp hst
  obtain ⟨st', hst', htrace⟩ := Option.map_eq_some_iff.mp hst'
  simp only [Prod.mk.injEq] at hfacts
  have hrun := h st st' hst hst' 0 noTextLaunch.image (by rw [hfacts.1]; rfl) _ List.mem_cons_self
    (initSection 0x100000800 8 0x09) List.mem_cons_self (by decide) 0 (by decide)
  have haddr : (((initSection 0x100000800 8 0x09).addr + noTextLaunch.image.slide).toNat + 8 * 0) = 0x100000800 := by
    decide
  rw [haddr, hfacts.2, htrace] at hrun
  revert hrun
  decide

/-- If an image depends on another, every initializer of the latter runs first. -/
def DependenciesFirst (W : World) (L : Launch) : Prop :=
  ∀ st st', prepared W L = some st → pantheraDyldStartImpl W L = some st' →
    ∀ i j A B, st.images[i]? = some A → st.images[j]? = some B →
      (∃ dep ∈ dependencies A.commands, basename B.path = basename dep) →
        ∀ a b, RunsBefore st'.trace (.init j b) (.init i a)

end Panthera.Dyld
