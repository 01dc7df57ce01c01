/-
  Panthera.Dyld.Initializers — the two passes of `panthera_dyld_start_impl` over the
  initializer sections of the registered images, with `isLibSystemInitCtor` and
  `panthera_run_libc_init`.

  Both passes visit every entry of every pointer and offset section in table order. The
  first runs libSystem's own constructor, after `panthera_run_libc_init`, and stops; the
  second runs every other entry and passes over that constructor if it has run. Code of
  the images is outside the model: running it is an event, and what it does to memory is
  a parameter (`Launch.call`, `Launch.seed`).

  Proved: where that code leaves the initializer sections alone, the two passes run every
  entry once (`runInitializers_trace`).
-/

import Mathlib
import Panthera.Lib.Run
import Panthera.Dyld.Resolve

namespace Panthera.Dyld

open MachO Lib.Bytes Lib.Run

/-- What the kernel starts dyld with, and what the code of the images does. -/
structure Launch where
  header : UInt64
  magic : UInt32
  /-- `argv[0]`, if there is one. -/
  path : Option CStr
  commands : List LoadCommand
  mem : Mem
  /-- Memory after dyld has used the symbols of these names, found at these addresses:
      the values it stores there and the functions it calls there. -/
  seed : List CStr → List UInt64 → Mem → Mem
  /-- Memory after the function at that address has run. -/
  call : UInt64 → Mem → Mem

def Proc.log (st : Proc) (e : Event) : Proc := { st with trace := st.trace ++ [e] }

/-! ## Lookups by name -/

/-- `resolveSymbol(name, -1, includeLocals)` for each name in turn. -/
def lookupAll (W : World) (includeLocals : Bool) : List CStr → Proc → List UInt64 × Proc
  | [], st => ([], st)
  | name :: names, st =>
    match resolveSymbol W name (-1) includeLocals none st with
    | (addr, st) =>
      match lookupAll W includeLocals names st with
      | (addrs, st) => (addr :: addrs, st)

/-- Uses the symbols of a list of lookups, where all of them are found. -/
def seedSymbols (W : World) (L : Launch) (includeLocals : Bool) (names : List CStr) (st : Proc) : Proc :=
  match lookupAll W includeLocals names st with
  | (addrs, st) => if 0 ∈ addrs then st else { st with mem := L.seed names addrs st.mem }

/-- The fork handlers, which go into a record of dyld's own. -/
def atforkSymbols : List CStr :=
  [cstr "__pthread_atfork_prepare", cstr "__pthread_atfork_parent", cstr "__pthread_atfork_child"]

/-- The symbols `panthera_run_libc_init` looks up and uses one by one. -/
def libcInitSymbols : List CStr :=
  [cstr "__program_vars_init", cstr "__libc_fork_init", cstr "___confstr_init", cstr "___atexit", cstr "__init_clock_port",
    cstr "___chk_init", cstr "___xlocale_init", cstr "___guard_setup", cstr "__subsystem_init", cstr "___stdio_init"]

def pantheraRunLibcInit (W : World) (L : Launch) (st : Proc) : Proc :=
  let st := (lookupAll W true atforkSymbols (st.log .libcInit)).2
  libcInitSymbols.foldl (fun st name => seedSymbols W L true [name] st) st

/-! ## Initializer sections -/

/-- `S_MOD_INIT_FUNC_POINTERS` and `S_INIT_FUNC_OFFSETS`. -/
inductive InitKind where
  | pointers
  | offsets
  deriving DecidableEq, Repr

def initKind (sect : Section64) : Option InitKind :=
  if sect.type = 0x09 then some .pointers else if sect.type = 0x16 then some .offsets else none

def InitKind.width : InitKind → Nat
  | .pointers => 8
  | .offsets => 4

/-- One entry of an initializer section of the image `image`, at the address `addr`. -/
structure InitSlot where
  image : Nat
  header : UInt64
  kind : InitKind
  addr : Nat
  deriving DecidableEq, Repr

/-- The function an entry stands for. A null pointer is none; an offset always is one. -/
def InitSlot.func (m : Mem) (s : InitSlot) : Option UInt64 :=
  match s.kind with
  | .pointers => if read64 m s.addr = 0 then none else some (read64 m s.addr)
  | .offsets => some (s.header + (read32 m s.addr).toUInt64)

section Scan

variable (entry : InitSlot → Bool × Proc → Bool × Proc)

/-- The loop over the entries of a section, whose number is an `int`. A section of an
    image without `__TEXT` is passed over. -/
def scanSection (img : LoadedImage) (i : Nat) (acc : Bool × Proc) (sect : Section64) : Bool × Proc :=
  match initKind sect, findSegment img.commands segText with
  | some kind, some textSeg =>
    let sectAddr := img.header + sect.addr - textSeg.vmaddr
    let count := Fixups.toInt (sect.size / UInt64.ofNat kind.width)
    (List.range count.toNat).foldl (fun acc f => entry ⟨i, img.header, kind, sectAddr.toNat + kind.width * f⟩ acc) acc
  | _, _ => acc

def scanImage (acc : Bool × Proc) (x : LoadedImage × Nat) : Bool × Proc :=
  (segmentsOf x.1.commands).foldl (fun acc seg => seg.sections.foldl (scanSection entry x.1 x.2) acc) acc

def scanImages (images : List LoadedImage) (acc : Bool × Proc) : Bool × Proc :=
  images.zipIdx.foldl (scanImage entry) acc

end Scan

/-! ## The two passes -/

def isLibSystemInitCtor (i : Nat) (ctorAddr : UInt64) (st : Proc) : Bool × Proc :=
  if isLibSystemUmbrella st.images i = false then (false, st)
  else
    match findSymbolInImage st.images i (cstr "___libSystem_init") false st.index with
    | (s, ix) => (s.addr != 0 && ctorAddr == s.addr, { st with index := ix })

def runInit (L : Launch) (i : Nat) (func : UInt64) (st : Proc) : Proc :=
  { st with mem := L.call func st.mem }.log (.init i func)

def runLibSystemCtor (W : World) (L : Launch) (i : Nat) (func : UInt64) (st : Proc) : Proc :=
  runInit L i func (pantheraRunLibcInit W L st)

/-- An entry in the early pass; the flag is `libSystemCtorDone`. -/
def earlyEntry (W : World) (L : Launch) (s : InitSlot) (acc : Bool × Proc) : Bool × Proc :=
  if acc.1 then acc
  else
    match s.func acc.2.mem with
    | none => acc
    | some func =>
      match isLibSystemInitCtor s.image func acc.2 with
      | (true, st) => (true, runLibSystemCtor W L s.image func st)
      | (false, st) => (false, st)

def initEntry (W : World) (L : Launch) (s : InitSlot) (acc : Bool × Proc) : Bool × Proc :=
  match s.func acc.2.mem with
  | none => acc
  | some func =>
    match isLibSystemInitCtor s.image func acc.2 with
    | (true, st) => if acc.1 then (true, st) else (true, runLibSystemCtor W L s.image func st)
    | (false, st) => (acc.1, runInit L s.image func st)

def runInitializers (W : World) (L : Launch) (st : Proc) : Proc :=
  let early := scanImages (earlyEntry W L) st.images (false, st)
  (scanImages (initEntry W L) early.2.images early).2

/-! ## Lookups that load nothing -/

variable (W : World) (entry : InitSlot → Bool × Proc → Bool × Proc) (images : List LoadedImage) (includeLocals : Bool) (st : Proc)

theorem flatLoop_locals (name : CStr) : ∀ (is : List Nat) (weakAddr : UInt64) (ix : SymbolIndex),
    (flatLoop images name true is weakAddr ix).2 = ix := by
  intro is
  induction is with
  | nil => intros; rfl
  | cons i is ih =>
    intro weakAddr ix
    have hix : (findSymbolInImage images i name true ix).2 = ix := rfl
    unfold flatLoop
    dsimp only
    split
    · exact hix
    · exact (ih _ _).trans hix

/-- dyld's own lookups are flat: they touch the symbol index and nothing else. -/
theorem resolveSymbol_flat (name : CStr) (includeLocals : Bool) (st : Proc) :
    ∃ ix, (resolveSymbol W name (-1) includeLocals none st).2 = { st with index := ix } ∧
      (includeLocals = true → ix = st.index) := by
  unfold resolveSymbol
  dsimp only
  split
  · exact ⟨st.index, rfl, fun _ => rfl⟩
  · split
    · exact ⟨st.index, rfl, fun _ => rfl⟩
    · rw [if_neg (by decide), if_neg (by decide)]
      refine ⟨_, rfl, fun h => ?_⟩
      rw [h]
      exact flatLoop_locals _ _ _ _ _

theorem lookupAll_flat : ∀ (names : List CStr) (st : Proc),
    ∃ ix, (lookupAll W includeLocals names st).2 = { st with index := ix } ∧ (includeLocals = true → ix = st.index) := by
  intro names
  induction names with
  | nil => intro st; exact ⟨st.index, rfl, fun _ => rfl⟩
  | cons name names ih =>
    intro st
    obtain ⟨ix, h1, h2⟩ := resolveSymbol_flat W name includeLocals st
    obtain ⟨ix', h1', h2'⟩ := ih (resolveSymbol W name (-1) includeLocals none st).2
    refine ⟨ix', ?_, fun h => ?_⟩
    · show (lookupAll W includeLocals names (resolveSymbol W name (-1) includeLocals none st).2).2 = _
      rw [h1', h1]
    · rw [h2' h, h1]
      exact h2 h

theorem lookupAll_locals (names : List CStr) (st : Proc) : (lookupAll W true names st).2 = st := by
  obtain ⟨ix, hst, hix⟩ := lookupAll_flat W true names st
  rw [hst, hix rfl]

/-- What using symbols may change: memory, by a seed, and the index, unless locals are
    included. -/
theorem seedSymbols_effect (L : Launch) (includeLocals : Bool) (names : List CStr) (st : Proc) :
    ∃ m ix, seedSymbols W L includeLocals names st = { st with mem := m, index := ix } ∧
      (m = st.mem ∨ ∃ addrs, m = L.seed names addrs st.mem) ∧ (includeLocals = true → ix = st.index) := by
  obtain ⟨ix, h1, h2⟩ := lookupAll_flat W includeLocals names st
  unfold seedSymbols
  dsimp only
  rw [h1]
  split
  · exact ⟨st.mem, ix, rfl, .inl rfl, h2⟩
  · exact ⟨_, ix, rfl, .inr ⟨_, rfl⟩, h2⟩

/-! ## The entries -/

def sectionSlots (img : LoadedImage) (i : Nat) (sect : Section64) : List InitSlot :=
  match initKind sect, findSegment img.commands segText with
  | some kind, some textSeg =>
    (List.range (sect.size.toNat / kind.width)).map fun f =>
      ⟨i, img.header, kind, (img.header + sect.addr - textSeg.vmaddr).toNat + kind.width * f⟩
  | _, _ => []

def imageSlots (x : LoadedImage × Nat) : List InitSlot :=
  (segmentsOf x.1.commands).flatMap fun seg => seg.sections.flatMap (sectionSlots x.1 x.2)

/-- The entries of all initializer sections, in table order. -/
def initSlots (images : List LoadedImage) : List InitSlot := images.zipIdx.flatMap imageSlots

/-- The initializer an entry names: its image and its function. -/
def InitSlot.initializer (m : Mem) (s : InitSlot) : Option (Nat × UInt64) := (s.func m).map fun func => (s.image, func)

/-- The initializers of the images, in table order. -/
def initializers (m : Mem) (images : List LoadedImage) : List (Nat × UInt64) :=
  (initSlots images).filterMap (InitSlot.initializer m)

/-- Every initializer section is shorter than 2^31 bytes. -/
def SmallSections (images : List LoadedImage) : Prop :=
  ∀ img ∈ images, ∀ seg ∈ segmentsOf img.commands, ∀ sect ∈ seg.sections, (initKind sect).isSome → sect.size < 2 ^ 31

instance (images : List LoadedImage) : Decidable (SmallSections images) :=
  inferInstanceAs (Decidable (∀ img ∈ images, ∀ seg ∈ segmentsOf img.commands, ∀ sect ∈ seg.sections, _ → _))

theorem toInt_count {size : UInt64} (h : size < 2 ^ 31) (kind : InitKind) :
    (Fixups.toInt (size / UInt64.ofNat kind.width)).toNat = size.toNat / kind.width := by
  have hs : size.toNat < 2 ^ 31 := h
  have hdiv : (size / UInt64.ofNat kind.width).toNat = size.toNat / kind.width := by
    rw [UInt64.toNat_div]
    cases kind <;> rfl
  have hle : size.toNat / kind.width ≤ size.toNat := Nat.div_le_self _ _
  unfold Fixups.toInt
  rw [hdiv, Int.bmod_def]
  split <;> omega

theorem scanSection_eq (img : LoadedImage) (i : Nat) (sect : Section64)
    (h : (initKind sect).isSome → sect.size < 2 ^ 31) (acc : Bool × Proc) :
    scanSection entry img i acc sect = (sectionSlots img i sect).foldl (fun acc s => entry s acc) acc := by
  unfold scanSection sectionSlots
  split
  · rename_i kind textSeg hkind _
    dsimp only
    rw [toInt_count (h (by rw [hkind]; rfl)), List.foldl_map]
  · rfl

/-- The nested loops are one loop over the entries. -/
theorem scanImages_eq {images : List LoadedImage} (h : SmallSections images) (acc : Bool × Proc) :
    scanImages entry images acc = (initSlots images).foldl (fun acc s => entry s acc) acc := by
  unfold scanImages initSlots
  rw [List.foldl_flatMap]
  refine List.foldl_ext _ _ _ fun acc x hx => ?_
  have himg : x.1 ∈ images := (List.mem_zipIdx' hx).2 ▸ List.getElem_mem _
  unfold scanImage imageSlots
  rw [List.foldl_flatMap]
  refine List.foldl_ext _ _ _ fun acc seg hseg => ?_
  rw [List.foldl_flatMap]
  exact List.foldl_ext _ _ _ fun acc sect hsect => scanSection_eq entry x.1 x.2 sect (h x.1 himg seg hseg sect hsect) acc

/-- What every entry keeps, a pass keeps. -/
theorem scanImages_inv {P : Proc → Prop} {entry : InitSlot → Bool × Proc → Bool × Proc}
    (hentry : ∀ s acc, P acc.2 → P (entry s acc).2) (images : List LoadedImage) {acc : Bool × Proc} (h : P acc.2) :
    P (scanImages entry images acc).2 := by
  refine foldl_inv (P := fun acc : Bool × Proc => P acc.2) (fun acc x h => ?_) _ h
  refine foldl_inv (P := fun acc : Bool × Proc => P acc.2) (fun acc seg h => ?_) _ h
  refine foldl_inv (P := fun acc : Bool × Proc => P acc.2) (fun acc sect h => ?_) _ h
  unfold scanSection
  split
  · exact foldl_inv (P := fun acc : Bool × Proc => P acc.2) (fun acc f h => hentry _ acc h) _ h
  · exact h

/-! ## What stays the same while initializers run -/

/-- Code outside dyld leaves the bytes of the initializer sections alone. -/
structure Launch.Spares (L : Launch) (images : List LoadedImage) : Prop where
  seed : ∀ names addrs m, ∀ s ∈ initSlots images, ∀ k < s.kind.width, L.seed names addrs m (s.addr + k) = m (s.addr + k)
  call : ∀ func m, ∀ s ∈ initSlots images, ∀ k < s.kind.width, L.call func m (s.addr + k) = m (s.addr + k)

variable {s : InitSlot} {st st' : Proc} {i : Nat}

theorem InitSlot.func_congr {m m' : Mem} (h : ∀ k < s.kind.width, m (s.addr + k) = m' (s.addr + k)) : s.func m = s.func m' := by
  unfold InitSlot.func
  rcases hk : s.kind with _ | _ <;> rw [hk] at h
  · dsimp only
    rw [read64_congr h]
  · dsimp only
    rw [read32_congr h]

/-- Whether the initializer is libSystem's constructor, as dyld would find it now. -/
def isCtor (st : Proc) (e : Nat × UInt64) : Bool := (isLibSystemInitCtor e.1 e.2 st).1

/-- The same images and entries, and the same constructor. -/
structure Kin (st st' : Proc) : Prop where
  images : st'.images = st.images
  ctor : ∀ e, isCtor st' e = isCtor st e
  func : ∀ s ∈ initSlots st.images, s.func st'.mem = s.func st.mem

theorem Kin.refl (st : Proc) : Kin st st := ⟨rfl, fun _ => rfl, fun _ _ => rfl⟩

theorem isCtor_congr (himgs : st'.images = st.images) (hix : st'.index = st.index) (e : Nat × UInt64) :
    isCtor st' e = isCtor st e := by
  unfold isCtor isLibSystemInitCtor
  rw [himgs, hix]
  split <;> rfl

theorem umbrella_unique (ht : TableInv st) {j : Nat} (hi : isLibSystemUmbrella st.images i = true)
    (hj : isLibSystemUmbrella st.images j = true) : i = j := by
  obtain ⟨a, ha, hpa⟩ := Option.map_eq_some_iff.mp (beq_iff_eq.mp hi)
  obtain ⟨b, hb, hpb⟩ := Option.map_eq_some_iff.mp (beq_iff_eq.mp hj)
  obtain ⟨hilt, rfl⟩ := List.getElem?_eq_some_iff.mp ha
  obtain ⟨hjlt, rfl⟩ := List.getElem?_eq_some_iff.mp hb
  have hsame : basename (st.images[i]).path = basename (st.images[j]).path := by rw [hpa, hpb]
  rcases Nat.lt_trichotomy i j with h | h | h
  · exact absurd hsame (List.pairwise_iff_getElem.mp ht.distinct i j hilt hjlt h)
  · exact h
  · exact absurd hsame.symm (List.pairwise_iff_getElem.mp ht.distinct j i hjlt hilt h)

theorem umbrella_lt (ht : TableInv st) (hi : isLibSystemUmbrella st.images i = true) : i < maxImages := by
  obtain ⟨a, ha, -⟩ := Option.map_eq_some_iff.mp (beq_iff_eq.mp hi)
  exact Nat.lt_of_lt_of_le (List.getElem?_eq_some_iff.mp ha).1 ht.length_le

/-- Asking whether an initializer is the constructor may index libSystem, which does not
    change any later answer. -/
theorem kin_isLibSystemInitCtor (ht : TableInv st) (i : Nat) (a : UInt64) :
    Kin st (isLibSystemInitCtor i a st).2 ∧ (isLibSystemInitCtor i a st).2.trace = st.trace := by
  by_cases hi : isLibSystemUmbrella st.images i = true
  · have hst : (isLibSystemInitCtor i a st).2 =
        { st with index := (findSymbolInImage st.images i (cstr "___libSystem_init") false st.index).2 } := by
      unfold isLibSystemInitCtor
      rw [if_neg (by rw [hi]; simp)]
    rw [hst]
    refine ⟨⟨rfl, fun e => ?_, fun _ _ => rfl⟩, rfl⟩
    unfold isCtor isLibSystemInitCtor
    by_cases he : isLibSystemUmbrella st.images e.1 = true
    · rw [if_neg (by rw [he]; simp), if_neg (by rw [he]; simp), umbrella_unique ht he hi]
      dsimp only
      rw [findSymbolInImage_again _ (umbrella_lt ht hi)]
    · rw [if_pos (by simpa using he), if_pos (by simpa using he)]
  · have hst : isLibSystemInitCtor i a st = (false, st) := if_pos (by simpa using hi)
    rw [hst]
    exact ⟨.refl st, rfl⟩

section Passes

variable {W : World} {L : Launch} {st : Proc} (ht : TableInv st) (hL : L.Spares st.images)

theorem Kin.tableInv (h : Kin st st') (ht : TableInv st) : TableInv st' :=
  ⟨h.images ▸ ht.distinct, h.images ▸ ht.length_le⟩

theorem Kin.trans {st'' : Proc} (h : Kin st st') (h' : Kin st' st'') : Kin st st'' where
  images := h'.images.trans h.images
  ctor e := (h'.ctor e).trans (h.ctor e)
  func s hs := (h'.func s (h.images.symm ▸ hs)).trans (h.func s hs)

theorem Kin.log (h : Kin st st') (e : Event) : Kin st (st'.log e) :=
  h.trans ⟨rfl, @isCtor_congr st' (st'.log e) rfl rfl, fun _ _ => rfl⟩

/-- Memory may change outside the entries. -/
theorem Kin.withMem (h : Kin st st') {m : Mem}
    (hm : ∀ s ∈ initSlots st.images, ∀ k < s.kind.width, m (s.addr + k) = st'.mem (s.addr + k)) :
    Kin st { st' with mem := m } :=
  h.trans ⟨rfl, @isCtor_congr st' { st' with mem := m } rfl rfl, fun s hs => InitSlot.func_congr (hm s (h.images ▸ hs))⟩

include hL

theorem kin_seedSymbols (names : List CStr) (h : Kin st st') :
    Kin st (seedSymbols W L true names st') ∧ (seedSymbols W L true names st').trace = st'.trace := by
  obtain ⟨m, ix, heq, hm, hix⟩ := seedSymbols_effect W L true names st'
  rw [heq, hix rfl]
  refine ⟨h.withMem fun s hs k hk => ?_, rfl⟩
  rcases hm with rfl | ⟨addrs, rfl⟩
  · rfl
  · exact hL.seed names addrs st'.mem s hs k hk

theorem kin_pantheraRunLibcInit (h : Kin st st') :
    Kin st (pantheraRunLibcInit W L st') ∧ (pantheraRunLibcInit W L st').trace = st'.trace ++ [.libcInit] := by
  unfold pantheraRunLibcInit
  dsimp only
  rw [lookupAll_locals]
  refine foldl_inv (P := fun st1 => Kin st st1 ∧ st1.trace = st'.trace ++ [.libcInit]) (fun st1 name h1 => ?_) _
    ⟨h.log .libcInit, rfl⟩
  obtain ⟨h2, ht2⟩ := kin_seedSymbols (W := W) hL [name] h1.1
  exact ⟨h2, ht2.trans h1.2⟩

theorem kin_runInit (i : Nat) (func : UInt64) (h : Kin st st') :
    Kin st (runInit L i func st') ∧ (runInit L i func st').trace = st'.trace ++ [.init i func] :=
  ⟨(h.withMem fun s hs k hk => hL.call func st'.mem s hs k hk).log _, rfl⟩

theorem kin_runLibSystemCtor (i : Nat) (func : UInt64) (h : Kin st st') :
    Kin st (runLibSystemCtor W L i func st') ∧
      (runLibSystemCtor W L i func st').trace = st'.trace ++ [.libcInit, .init i func] := by
  obtain ⟨h1, ht1⟩ := kin_pantheraRunLibcInit (W := W) hL h
  obtain ⟨h2, ht2⟩ := kin_runInit hL i func h1
  refine ⟨h2, ?_⟩
  unfold runLibSystemCtor
  rw [ht2, ht1]
  simp

/-! ## One entry -/

omit hL in
theorem earlyEntry_some {s : InitSlot} {st' : Proc} {func : UInt64} (hf : s.func st'.mem = some func) :
    earlyEntry W L s (false, st') = if (isLibSystemInitCtor s.image func st').1 then
      (true, runLibSystemCtor W L s.image func (isLibSystemInitCtor s.image func st').2)
    else (false, (isLibSystemInitCtor s.image func st').2) := by
  unfold earlyEntry
  rw [if_neg (by simp), hf]
  rcases hr : isLibSystemInitCtor s.image func st' with ⟨_ | _, st1⟩ <;> simp [hr]

omit hL in
theorem initEntry_some {s : InitSlot} {done : Bool} {st' : Proc} {func : UInt64} (hf : s.func st'.mem = some func) :
    initEntry W L s (done, st') = if (isLibSystemInitCtor s.image func st').1 then
      (true, if done then (isLibSystemInitCtor s.image func st').2
        else runLibSystemCtor W L s.image func (isLibSystemInitCtor s.image func st').2)
    else (done, runInit L s.image func (isLibSystemInitCtor s.image func st').2) := by
  unfold initEntry
  rw [hf]
  rcases hr : isLibSystemInitCtor s.image func st' with ⟨_ | _, st1⟩ <;> cases done <;> simp [hr]

include ht

/-- An entry of the early pass, before the constructor has run. -/
theorem earlyEntry_spec (hs : s ∈ initSlots st.images) (h : Kin st st') :
    Kin st (earlyEntry W L s (false, st')).2 ∧
    match (s.initializer st.mem).filter (isCtor st) with
    | none => (earlyEntry W L s (false, st')).1 = false ∧ (earlyEntry W L s (false, st')).2.trace = st'.trace
    | some e => (earlyEntry W L s (false, st')).1 = true ∧
        (earlyEntry W L s (false, st')).2.trace = st'.trace ++ [.libcInit, .init e.1 e.2] := by
  unfold InitSlot.initializer
  rcases hf : s.func st.mem with _ | func
  · have heq : earlyEntry W L s (false, st') = (false, st') := by
      unfold earlyEntry
      rw [if_neg (by simp), h.func s hs, hf]
    rw [heq]
    exact ⟨h, rfl, rfl⟩
  · obtain ⟨hk, htr⟩ := kin_isLibSystemInitCtor (h.tableInv ht) s.image func
    have hc : (isLibSystemInitCtor s.image func st').1 = isCtor st (s.image, func) := h.ctor (s.image, func)
    rw [earlyEntry_some ((h.func s hs).trans hf), hc, Option.map_some, Option.filter_some]
    by_cases hctor : isCtor st (s.image, func) = true
    · obtain ⟨hk2, ht2⟩ := kin_runLibSystemCtor (W := W) hL s.image func (h.trans hk)
      rw [if_pos hctor, if_pos hctor]
      exact ⟨hk2, rfl, by rw [ht2, htr]⟩
    · rw [if_neg hctor, if_neg hctor]
      exact ⟨h.trans hk, rfl, htr⟩

/-- An entry of the generic pass, if the constructor has run or is not this entry. -/
theorem initEntry_spec (hs : s ∈ initSlots st.images) {done : Bool} (h : Kin st st')
    (hdone : done = true ∨ ∀ e, s.initializer st.mem = some e → isCtor st e = false) :
    Kin st (initEntry W L s (done, st')).2 ∧ (initEntry W L s (done, st')).1 = done ∧
      (initEntry W L s (done, st')).2.trace = st'.trace ++
        ((s.initializer st.mem).toList.filter fun e => !isCtor st e).map fun e => .init e.1 e.2 := by
  unfold InitSlot.initializer at *
  rcases hf : s.func st.mem with _ | func
  · have heq : initEntry W L s (done, st') = (done, st') := by
      unfold initEntry
      rw [h.func s hs, hf]
    rw [heq]
    exact ⟨h, rfl, by simp⟩
  · obtain ⟨hk, htr⟩ := kin_isLibSystemInitCtor (h.tableInv ht) s.image func
    have hc : (isLibSystemInitCtor s.image func st').1 = isCtor st (s.image, func) := h.ctor (s.image, func)
    rw [hf] at hdone
    rw [initEntry_some ((h.func s hs).trans hf), hc, Option.map_some, Option.toList_some]
    by_cases hctor : isCtor st (s.image, func) = true
    · have hd : done = true := hdone.resolve_right fun hn => by
        rw [hn _ rfl] at hctor
        cases hctor
      rw [if_pos hctor, if_pos hd]
      exact ⟨h.trans hk, hd.symm, by simp [hctor, htr]⟩
    · obtain ⟨hk2, ht2⟩ := kin_runInit hL s.image func (h.trans hk)
      rw [if_neg hctor]
      exact ⟨hk2, rfl, by simp [ht2, htr, hctor]⟩

/-! ## The two passes over a list of entries -/

omit ht hL in
theorem earlyFold_done (st' : Proc) : ∀ (l : List InitSlot),
    l.foldl (fun acc s => earlyEntry W L s acc) (true, st') = (true, st') := by
  intro l
  induction l with
  | nil => rfl
  | cons s l ih =>
    rw [List.foldl_cons, show earlyEntry W L s (true, st') = (true, st') from if_pos rfl]
    exact ih

/-- The early pass runs the first entry that is the constructor, and nothing else. -/
theorem earlyFold_spec : ∀ (l : List InitSlot), l ⊆ initSlots st.images → ∀ {st' : Proc}, Kin st st' →
    Kin st (l.foldl (fun acc s => earlyEntry W L s acc) (false, st')).2 ∧
    match (l.filterMap (InitSlot.initializer st.mem)).find? (isCtor st) with
    | none => (l.foldl (fun acc s => earlyEntry W L s acc) (false, st')).1 = false ∧
        (l.foldl (fun acc s => earlyEntry W L s acc) (false, st')).2.trace = st'.trace
    | some e => (l.foldl (fun acc s => earlyEntry W L s acc) (false, st')).1 = true ∧
        (l.foldl (fun acc s => earlyEntry W L s acc) (false, st')).2.trace = st'.trace ++ [.libcInit, .init e.1 e.2] := by
  intro l
  induction l with
  | nil => intro _ st' h; exact ⟨h, rfl, rfl⟩
  | cons s l ih =>
    intro hl st' h
    obtain ⟨hs, hl⟩ := List.cons_subset.mp hl
    obtain ⟨hk, hstep⟩ := earlyEntry_spec (W := W) ht hL hs h
    have hfind : ((s :: l).filterMap (InitSlot.initializer st.mem)).find? (isCtor st) =
        ((s.initializer st.mem).filter (isCtor st)).or
          ((l.filterMap (InitSlot.initializer st.mem)).find? (isCtor st)) := by
      rw [List.filterMap_cons]
      rcases s.initializer st.mem with _ | e
      · rfl
      · rw [List.find?_cons, Option.filter_some]
        cases isCtor st e <;> rfl
    rw [List.foldl_cons, hfind]
    rcases hr : earlyEntry W L s (false, st') with ⟨done, st1⟩
    rw [hr] at hk hstep
    rcases hc : (s.initializer st.mem).filter (isCtor st) with _ | e <;> rw [hc] at hstep <;> obtain ⟨hd, htr⟩ := hstep
    · obtain ⟨hk2, hrest⟩ := ih hl hk
      dsimp only at hd htr
      rw [hd, ← htr]
      exact ⟨hk2, hrest⟩
    · dsimp only at hd htr
      rw [hd, earlyFold_done]
      exact ⟨hk, rfl, htr⟩

/-- The generic pass runs every entry that is not the constructor. -/
theorem initFold_spec : ∀ (l : List InitSlot), l ⊆ initSlots st.images → ∀ {done : Bool} {st' : Proc}, Kin st st' →
    (done = true ∨ ∀ e ∈ l.filterMap (InitSlot.initializer st.mem), isCtor st e = false) →
    (l.foldl (fun acc s => initEntry W L s acc) (done, st')).2.trace = st'.trace ++
      ((l.filterMap (InitSlot.initializer st.mem)).filter fun e => !isCtor st e).map fun e => .init e.1 e.2 := by
  intro l
  induction l with
  | nil => intro _ done st' _ _; simp
  | cons s l ih =>
    intro hl done st' h hdone
    obtain ⟨hs, hl⟩ := List.cons_subset.mp hl
    have hcons : (s :: l).filterMap (InitSlot.initializer st.mem) =
        (s.initializer st.mem).toList ++ l.filterMap (InitSlot.initializer st.mem) := by
      rw [List.filterMap_cons]
      rcases s.initializer st.mem with _ | e <;> rfl
    rw [hcons] at hdone ⊢
    obtain ⟨hk, hd, htr⟩ := initEntry_spec (W := W) ht hL hs h (hdone.imp_right fun hn e he => hn e (by simp [he]))
    rcases hr : initEntry W L s (done, st') with ⟨done1, st1⟩
    rw [hr] at hk hd htr
    dsimp only at hk hd htr
    rw [List.foldl_cons, hr, hd, ih hl hk (hdone.imp_right fun hn e he => hn e (List.mem_append_right _ he)), htr,
      List.filter_append, List.map_append, List.append_assoc]

end Passes

/-- What the two passes have to run: the constructor of libSystem, if an entry names it,
    with the initialization of libc right before it; then all others in table order. -/
def initSchedule (st : Proc) : List Event :=
  let all := initializers st.mem st.images
  (match all.find? (isCtor st) with
    | some e => [.libcInit, .init e.1 e.2]
    | none => []) ++ (all.filter fun e => !isCtor st e).map fun e => .init e.1 e.2

/-! ## The order of the schedule -/

theorem imageSlots_image {x : LoadedImage × Nat} (h : s ∈ imageSlots x) : s.image = x.2 := by
  obtain ⟨seg, -, h⟩ := List.mem_flatMap.mp h
  obtain ⟨sect, -, h⟩ := List.mem_flatMap.mp h
  unfold sectionSlots at h
  split at h
  · obtain ⟨f, -, rfl⟩ := List.mem_map.mp h
    rfl
  · cases h

theorem initSlots_sorted : (initSlots images).Pairwise fun s t => s.image ≤ t.image := by
  refine List.pairwise_flatMap.mpr ⟨fun x _ => ?_, ?_⟩
  · refine List.pairwise_of_forall_mem_list fun s hs t ht => ?_
    rw [imageSlots_image hs, imageSlots_image ht]
  · refine List.pairwise_iff_getElem.mpr fun i j hi hj hij s hs t ht => ?_
    rw [imageSlots_image hs, imageSlots_image ht, List.getElem_zipIdx, List.getElem_zipIdx]
    omega

theorem initializers_sorted (m : Mem) (images : List LoadedImage) :
    (initializers m images).Pairwise fun e f => e.1 ≤ f.1 := by
  refine (initSlots_sorted images).filterMap _ fun s t hst e he f hf => ?_
  obtain ⟨_, -, rfl⟩ := Option.map_eq_some_iff.mp he
  obtain ⟨_, -, rfl⟩ := Option.map_eq_some_iff.mp hf
  exact hst

/-- Wherever the two events stand in the history, the first stands before the second. -/
def RunsBefore (tr : List Event) (e e' : Event) : Prop := ∀ p q : Nat, tr[p]? = some e → tr[q]? = some e' → p < q

theorem RunsBefore.append {pre l : List Event} {e e' : Event} (hpre : e' ∉ pre) (h : RunsBefore l e e') :
    RunsBefore (pre ++ l) e e' := by
  intro p q hp hq
  by_cases hqlt : q < pre.length
  · rw [List.getElem?_append_left hqlt] at hq
    exact absurd (List.mem_of_getElem? hq) hpre
  · rw [List.getElem?_append_right (Nat.le_of_not_lt hqlt)] at hq
    by_cases hplt : p < pre.length
    · omega
    · rw [List.getElem?_append_right (Nat.le_of_not_lt hplt)] at hp
      have := h _ _ hp hq
      omega

theorem RunsBefore.append_right {l post : List Event} {e e' : Event} (hpost : e ∉ post) (h : RunsBefore l e e') :
    RunsBefore (l ++ post) e e' := by
  intro p q hp hq
  by_cases hplt : p < l.length
  · rw [List.getElem?_append_left hplt] at hp
    by_cases hqlt : q < l.length
    · rw [List.getElem?_append_left hqlt] at hq
      exact h _ _ hp hq
    · omega
  · rw [List.getElem?_append_right (Nat.le_of_not_lt hplt)] at hp
    exact absurd (List.mem_of_getElem? hp) hpost

theorem runsBefore_of_sorted {l : List (Nat × UInt64)} (hl : l.Pairwise fun e f => e.1 ≤ f.1) {j : Nat} (hij : i < j)
    (a b : UInt64) : RunsBefore (l.map fun e => .init e.1 e.2) (.init i a) (.init j b) := by
  intro p q hp hq
  rw [List.getElem?_map] at hp hq
  obtain ⟨e, he, hei⟩ := Option.map_eq_some_iff.mp hp
  obtain ⟨f, hf, hfj⟩ := Option.map_eq_some_iff.mp hq
  obtain ⟨hplt, rfl⟩ := List.getElem?_eq_some_iff.mp he
  obtain ⟨hqlt, rfl⟩ := List.getElem?_eq_some_iff.mp hf
  injection hei with hei _
  injection hfj with hfj _
  rcases Nat.lt_trichotomy p q with h | h | h
  · exact h
  · subst h
    omega
  · have := List.pairwise_iff_getElem.mp hl q p hqlt hplt h
    omega

/-- Every initializer runs, those of an image before those of the images behind it in the table; only
    the constructor of libSystem is moved to the front. -/
structure InTableOrder (st : Proc) (tr : List Event) : Prop where
  runs : ∀ e ∈ initializers st.mem st.images, isCtor st e = false → .init e.1 e.2 ∈ tr
  order : ∀ i j, i < j → ∀ a b, isCtor st (j, b) = false → RunsBefore tr (.init i a) (.init j b)
  ctor : ∀ c, (initializers st.mem st.images).find? (isCtor st) = some c →
    .init c.1 c.2 ∈ tr ∧ ∀ j b, isCtor st (j, b) = false → RunsBefore tr (.init c.1 c.2) (.init j b)

theorem initSchedule_ordered (st : Proc) : InTableOrder st (initSchedule st) where
  runs e he hnot := by
    refine List.mem_append_right _ (List.mem_map.mpr ⟨e, List.mem_filter.mpr ⟨he, ?_⟩, rfl⟩)
    rw [hnot]
    rfl
  order i j hij a b hb := by
    refine RunsBefore.append ?_ (runsBefore_of_sorted ((initializers_sorted _ _).filter _) hij a b)
    split
    · rename_i e he
      have hctor : isCtor st e = true := List.find?_some he
      simp only [List.mem_cons, reduceCtorEq, Event.init.injEq, List.not_mem_nil, or_false, false_or, not_and]
      intro hj hfunc
      rw [hj, hfunc, hctor] at hb
      cases hb
    · exact List.not_mem_nil
  ctor c hc := by
    have hctor : isCtor st c = true := List.find?_some hc
    rw [initSchedule]
    simp only [hc]
    refine ⟨by simp, fun j b hb => RunsBefore.append_right ?_ fun p q _ hq => ?_⟩
    · simp [hctor]
    · -- the two events before the others are not those of an initializer that is not moved
      have hmem := List.mem_of_getElem? hq
      simp only [List.mem_cons, reduceCtorEq, Event.init.injEq, List.not_mem_nil, or_false, false_or] at hmem
      rw [hmem.1, hmem.2, hctor] at hb
      cases hb

theorem runInitializers_trace {L : Launch} (ht : TableInv st) (hL : L.Spares st.images)
    (hsmall : SmallSections st.images) : (runInitializers W L st).trace = st.trace ++ initSchedule st := by
  obtain ⟨hk, hearly⟩ := earlyFold_spec (W := W) ht hL (initSlots st.images) (List.Subset.refl _) (Kin.refl st)
  unfold runInitializers initSchedule initializers
  dsimp only
  rw [scanImages_eq _ hsmall]
  rcases hr : (initSlots st.images).foldl (fun acc s => earlyEntry W L s acc) (false, st) with ⟨done, st1⟩
  rw [hr] at hk hearly
  have himgs : st1.images = st.images := hk.images
  dsimp only at hearly ⊢
  rw [himgs, scanImages_eq _ hsmall]
  rcases hfind : ((initSlots st.images).filterMap (InitSlot.initializer st.mem)).find? (isCtor st) with _ | e <;>
    rw [hfind] at hearly <;> obtain ⟨hd, htr⟩ := hearly
  · have hnone : ∀ e ∈ (initSlots st.images).filterMap (InitSlot.initializer st.mem), isCtor st e = false := by
      intro e he
      simpa using List.find?_eq_none.mp hfind e he
    rw [initFold_spec ht hL _ (List.Subset.refl _) hk (.inr hnone), htr]
    rfl
  · rw [initFold_spec ht hL _ (List.Subset.refl _) hk (.inl hd), htr, List.append_assoc]

end Panthera.Dyld
