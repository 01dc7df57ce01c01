/-
  Panthera.Libsystem.Dlopen — the tables behind `dlopen` and `dlclose`
  (`sources/panthera_extra_stubs.c`:
  `panthera_find_dlopen_bundle`, `panthera_forget_bridge_image_by_header`,
  `panthera_refresh_dlopen_bridge_paths`, `panthera_run_mod_func_section`, `dlopen`,
  `dlclose`).

  Two tables list the bundles: `panthera_dlopen_bundles`, whose entries hold the path of
  the bundle, and the bridge table that dyld filled in first, whose entries point at a
  path. Both are compacted when a bundle goes, so a pointer into the first table is the
  index of a slot (`PathRef.slot`), and the slots move.

  What one call gets from the system is an `Env`: the file it reads, the address of the
  mapping and the outcome of the fixups. Initializers and terminators are taken not to
  call back. The log records the mappings, the sections of functions that are run and
  the handles that are returned, each under the base name of its bundle.

  `lifecycle`: over every run, the log of a bundle is a sequence of periods, and the bridge
  table lists what dyld published and then the mapped bundles.
-/

import Panthera.Dyld.Image
import Panthera.Lib.Keyed

namespace Panthera.Libsystem.Dlopen

open MachO Dyld Lib.Keyed

/-! ## The tables -/

structure Bundle where
  header : UInt64
  slide : UInt64
  mappingSize : UInt64
  refCount : UInt32
  path : CStr
  /-- The load commands that are mapped at `header`. -/
  commands : List LoadCommand
  /-- Ghost: the bridge table had room when the bundle was opened. -/
  room : Bool
  deriving DecidableEq, Repr

def Bundle.name (b : Bundle) : CStr := basename b.path

/-- A further reference; the count stays at its maximum. -/
def Bundle.retain (b : Bundle) : Bundle :=
  { b with refCount := if b.refCount ≠ ~~~(0 : UInt32) then b.refCount + 1 else b.refCount }

def Bundle.release (b : Bundle) : Bundle := { b with refCount := b.refCount - 1 }

/-- A `const char *` of the bridge table. -/
inductive PathRef where
  | null
  /-- A string of dyld's. -/
  | dyld (path : CStr)
  /-- `panthera_dlopen_bundles[i].path`. -/
  | slot (i : Nat)
  deriving DecidableEq, Repr

structure BridgeImage where
  header : UInt64
  slide : UInt64
  path : PathRef
  deriving DecidableEq, Repr

inductive DlError where
  | imageNotLoaded
  | tooManyImages
  | openFailed
  | sizeFailed
  | mmapFailed
  | readFailed
  | notBundle
  | emptyImage
  | vmAllocateFailed
  | unresolvedImport (symbol : CStr)
  | invalidHandle
  deriving DecidableEq, Repr

/-- The functions of a section: where the first pointer is mapped, and how many there are. -/
structure Funcs where
  addr : UInt64
  count : UInt64
  deriving DecidableEq, Repr

inductive Stage where
  | init
  | term
  deriving DecidableEq, Repr

inductive Event where
  | mapped (name : CStr) (base size : UInt64) (commands : List LoadCommand)
  | unmapped (name : CStr) (base size : UInt64)
  | ran (name : CStr) (base : UInt64) (stage : Stage) (funcs : Option Funcs)
  /-- A `dlopen` that returned a handle. -/
  | opened (name : CStr) (handle : UInt64)
  /-- A `dlclose` of the bundle's handle. -/
  | closed (name : CStr) (handle : UInt64)
  deriving DecidableEq, Repr

structure St where
  bundles : List Bundle
  bridge : List BridgeImage
  error : Option DlError
  log : List Event
  deriving DecidableEq, Repr

def maxBundles : Nat := 8
def bridgeMaxImages : Nat := 64
def maxPath : Nat := 1024

def St.emit (st : St) (events : List Event) : St := { st with log := st.log ++ events }

/-! ## The searches -/

def samePath (a b : CStr) : Bool := a == b || basename a == basename b

theorem samePath_iff {a b : CStr} : samePath a b = true ↔ basename a = basename b := by
  simp only [samePath, Bool.or_eq_true, beq_iff_eq, or_iff_right_iff_imp]
  rintro rfl
  rfl

def findDlopenBundle (st : St) (path : CStr) : Option Nat := st.bundles.findIdx? fun b => samePath b.path path

def findDlopenBundleByHandle (st : St) (handle : UInt64) : Option Nat := st.bundles.findIdx? fun b => b.header == handle

/-- What a pointer of the bridge table points at; the slots past the last bundle are dead. -/
def St.deref (st : St) : PathRef → Option CStr
  | .null => none
  | .dyld path => some path
  | .slot i => st.bundles[i]?.map (·.path)

def findBridgeImageByPath (st : St) (path : CStr) : Option BridgeImage :=
  st.bridge.find? fun img => match st.deref img.path with
    | some p => samePath p path
    | none => false

def forgetBridgeImageByHeader (header : UInt64) (bridge : List BridgeImage) : List BridgeImage :=
  bridge.eraseP fun img => img.header == header

def refreshImage (bundles : List Bundle) (img : BridgeImage) : BridgeImage :=
  match bundles.findIdx? fun b => img.header == b.header with
  | some j => { img with slide := (bundles[j]?.map (·.slide)).getD img.slide, path := .slot j }
  | none => img

def refreshDlopenBridgePaths (st : St) : St := { st with bridge := st.bridge.map (refreshImage st.bundles) }

/-! ## `panthera_run_mod_func_section` -/

def sectName : Stage → CStr
  | .init => cstr "__mod_init_func"
  | .term => cstr "__mod_term_func"

def modFuncs (commands : List LoadCommand) (slide : UInt64) (stage : Stage) : Option Funcs :=
  (((segmentsOf commands).flatMap (·.sections)).find? (·.sectname == sectName stage)).map fun s =>
    ⟨s.addr + slide, s.size / 8⟩

/-! ## `dlopen` -/

structure File where
  magic : UInt32
  filetype : UInt32
  commands : List LoadCommand
  deriving DecidableEq, Repr

structure Env where
  /-- `open`, the two `lseek`s, the first `mmap` and the reads. -/
  file : Except DlError File
  /-- The second `mmap`. -/
  base : Option UInt64
  /-- `panthera_apply_chained_fixups`: the import that was not resolved. -/
  unresolved : Option CStr

def mhBundle : UInt32 := 8

/-- `lo` and `hi`. -/
def extent (commands : List LoadCommand) : UInt64 × UInt64 :=
  (segmentsOf commands).foldl (fun r seg =>
    if seg.vmsize ≠ 0 then
      (if seg.vmaddr < r.1 then seg.vmaddr else r.1,
       if r.2 < seg.vmaddr + seg.vmsize then seg.vmaddr + seg.vmsize else r.2)
    else r) (~~~(0 : UInt64), 0)

def totalSize (commands : List LoadCommand) : UInt64 :=
  ((extent commands).2 - (extent commands).1 + 0xFFF) &&& ~~~(0xFFF : UInt64)

def slideOf (commands : List LoadCommand) (base : UInt64) : UInt64 := base - (extent commands).1

def rtldNoload : UInt32 := 0x10

def St.fail (st : St) (e : DlError) : St × Option UInt64 := ({ st with error := some e }, none)

/-- From the mapping of the segments to the end. -/
def loadBundle (path : CStr) (commands : List LoadCommand) (base : UInt64) (unresolved : Option CStr) (st : St) :
    St × Option UInt64 :=
  let total := totalSize commands
  let slide := slideOf commands base
  let st := st.emit [.mapped (basename path) base total commands]
  match unresolved with
  | some symbol => (st.emit [.unmapped (basename path) base total]).fail (.unresolvedImport symbol)
  | none =>
    let room := decide (st.bridge.length < bridgeMaxImages)
    let bundle : Bundle := ⟨base, slide, total, 1, path.take (maxPath - 1), commands, room⟩
    let st := st.emit [.ran (basename path) base .init (modFuncs commands slide .init)]
    ({ st with
       bundles := st.bundles ++ [bundle]
       bridge := if room then st.bridge ++ [⟨base, slide, .slot st.bundles.length⟩] else st.bridge }, some base)

/-- `sentinel` is the address of `_panthera_dlopen_sentinel`. -/
def dlopen (sentinel : UInt64) (path : Option CStr) (mode : UInt32) (env : Env) (st : St) : St × Option UInt64 :=
  let st := { st with error := none }
  match path with
  | none => (st, some sentinel)
  | some path =>
    match findDlopenBundle st path with
    | some i =>
      ({ st with bundles := st.bundles.modify i Bundle.retain }, st.bundles[i]?.map (·.header))
    | none =>
      match findBridgeImageByPath st path with
      | some img => (st, some img.header)
      | none =>
        if mode &&& rtldNoload ≠ 0 then st.fail .imageNotLoaded
        else if maxBundles ≤ st.bundles.length then st.fail .tooManyImages
        else
          match env.file with
          | .error e => st.fail e
          | .ok file =>
            if file.magic ≠ mhMagic64 ∨ file.filetype ≠ mhBundle then st.fail .notBundle
            else if (extent file.commands).1 = ~~~(0 : UInt64) ∨ (extent file.commands).2 ≤ (extent file.commands).1 then
              st.fail .emptyImage
            else
              match env.base with
              | none => st.fail .vmAllocateFailed
              | some base => loadBundle path file.commands base env.unresolved st

/-! ## `dlclose` -/

def rtldDefault : UInt64 := 0xFFFFFFFFFFFFFFFE

/-- The last reference to the bundle in slot `i` goes. -/
def unloadBundle (i : Nat) (b : Bundle) (st : St) : St :=
  let st := st.emit [.ran b.name b.header .term (modFuncs b.commands b.slide .term)]
  let st := { st with bridge := forgetBridgeImageByHeader b.header st.bridge }
  let st := st.emit [.unmapped b.name b.header b.mappingSize]
  refreshDlopenBridgePaths { st with bundles := st.bundles.eraseIdx i }

def dlclose (sentinel handle : UInt64) (st : St) : St × Int :=
  let st := { st with error := none }
  if handle = 0 ∨ handle = rtldDefault ∨ handle = sentinel then (st, 0)
  else
    match findDlopenBundleByHandle st handle with
    | some i =>
      match st.bundles[i]? with
      | none => (st, 0)
      | some b =>
        if 1 < b.refCount then ({ st with bundles := st.bundles.modify i Bundle.release }, 0)
        else (unloadBundle i b st, 0)
    | none =>
      if st.bridge.any fun img => img.header == handle then (st, 0)
      else ({ st with error := some .invalidHandle }, -1)

/-! ## Runs -/

/-- An image of the bridge table that dyld has put there. -/
structure Published where
  header : UInt64
  slide : UInt64
  path : Option CStr
  deriving DecidableEq, Repr

def Published.entry (p : Published) : BridgeImage := ⟨p.header, p.slide, p.path.elim .null .dyld⟩

def St.start (dyld : List Published) : St := ⟨[], dyld.map Published.entry, none, []⟩

inductive Call where
  | dlopen (path : CStr) (mode : UInt32) (env : Env)
  | dlclose (handle : UInt64)

/-- A call, with its own entry in the log: the handle that is returned, or given back. -/
def step (sentinel : UInt64) (st : St) : Call → St
  | .dlopen path mode env =>
    let r := dlopen sentinel (some path) mode env st
    r.1.emit (r.2.toList.map (.opened (basename path)))
  | .dlclose handle =>
    let closing := st.bundles.find? fun b => b.header == handle
    (dlclose sentinel handle (st.emit (closing.toList.map fun b => .closed b.name handle))).1

def run (sentinel : UInt64) (dyld : List Published) (calls : List Call) : St :=
  calls.foldl (step sentinel) (.start dyld)

/-! ## The periods of a bundle -/

def Event.name : Event → CStr
  | .mapped name .. | .unmapped name .. | .ran name .. | .opened name _ | .closed name _ => name

def Event.isOpened : Event → Bool
  | .opened .. => true
  | _ => false

def Event.isClosed : Event → Bool
  | .closed .. => true
  | _ => false

structure Mapping where
  base : UInt64
  size : UInt64
  commands : List LoadCommand
  deriving DecidableEq, Repr

/-- What is to run: the pointers of the section of that name, where they are mapped. -/
def Mapping.funcs (m : Mapping) (stage : Stage) : Option Funcs :=
  match ((segmentsOf m.commands).flatMap (·.sections)).filter (·.sectname == sectName stage) with
  | [] => none
  | s :: _ => some ⟨s.addr + slideOf m.commands m.base, s.size / 8⟩

theorem modFuncs_eq (m : Mapping) (stage : Stage) : modFuncs m.commands (slideOf m.commands m.base) stage = m.funcs stage := by
  rw [modFuncs, ← List.head?_filter, Mapping.funcs]
  split <;> rename_i hs <;> rw [hs] <;> rfl

inductive Phase where
  | unmapped
  | loading (m : Mapping)
  /-- The initializers have run, and no handle has been returned yet. -/
  | opening (m : Mapping)
  /-- `count` more handles have been returned than given back. -/
  | active (m : Mapping) (count : Nat)
  | closing (m : Mapping)
  /-- The terminators have run. -/
  | ended (m : Mapping)
  deriving DecidableEq, Repr

/-- What may happen to a bundle, and what it leads to. -/
def Phase.step : Phase → Event → Option Phase
  | .unmapped, .mapped _ base size commands => some (.loading ⟨base, size, commands⟩)
  | .loading m, .unmapped _ base size => if base = m.base ∧ size = m.size then some .unmapped else none
  | .loading m, .ran _ base .init funcs => if base = m.base ∧ funcs = m.funcs .init then some (.opening m) else none
  | .opening m, .opened _ handle => if handle = m.base then some (.active m 1) else none
  | .active m count, .opened _ handle => if handle = m.base then some (.active m (count + 1)) else none
  | .active m (count + 2), .closed _ handle => if handle = m.base then some (.active m (count + 1)) else none
  | .active m 1, .closed _ handle => if handle = m.base then some (.closing m) else none
  | .closing m, .ran _ base .term funcs => if base = m.base ∧ funcs = m.funcs .term then some (.ended m) else none
  | .ended m, .unmapped _ base size => if base = m.base ∧ size = m.size then some .unmapped else none
  | _, _ => none

def phaseOf (name : CStr) (log : List Event) : Option Phase := phase Event.name Phase.step .unmapped name log

def opens (name : CStr) (log : List Event) : Nat := (log.filter fun e => e.name = name).countP Event.isOpened

def closes (name : CStr) (log : List Event) : Nat := (log.filter fun e => e.name = name).countP Event.isClosed

def Phase.count : Phase → Nat
  | .active _ count => count
  | _ => 0

theorem count_step {p q : Phase} {e : Event} (h : p.step e = some q) :
    q.count + [e].countP Event.isClosed = p.count + [e].countP Event.isOpened := by
  unfold Phase.step at h
  split at h
  · cases h
    rfl
  all_goals
    first
    | cases h
    | (split at h
       · cases h
         simp [Phase.count, Event.isOpened, Event.isClosed]
       · cases h)

variable {events log : List Event}

theorem count_run : ∀ {p q : Phase}, events.foldlM Phase.step p = some q →
    q.count + events.countP Event.isClosed = p.count + events.countP Event.isOpened := by
  induction events with
  | nil =>
    intro p q h
    cases h
    rfl
  | cons e events ih =>
    intro p q h
    rw [List.foldlM_cons] at h
    obtain ⟨r, hr, h⟩ := Option.bind_eq_some_iff.mp h
    have h1 := count_step hr
    have h2 := ih h
    rw [← List.singleton_append, List.countP_append, List.countP_append]
    omega

theorem opens_eq {name : CStr} {p : Phase} (h : phaseOf name log = some p) : opens name log = closes name log + p.count := by
  have hcount : p.count + closes name log = 0 + opens name log := count_run h
  omega

/-! ## What a call needs of the system -/

/-- An address that `dlclose` takes for the handle of a bundle. -/
structure Usable (sentinel : UInt64) (dyld : List Published) (handle : UInt64) : Prop where
  null : handle ≠ 0
  default : handle ≠ rtldDefault
  sentinel : handle ≠ sentinel
  published : ∀ p ∈ dyld, p.header ≠ handle

instance (sentinel : UInt64) (dyld : List Published) (handle : UInt64) : Decidable (Usable sentinel dyld handle) :=
  decidable_of_iff (handle ≠ 0 ∧ handle ≠ rtldDefault ∧ handle ≠ sentinel ∧ ∀ p ∈ dyld, p.header ≠ handle)
    ⟨fun ⟨h1, h2, h3, h4⟩ => ⟨h1, h2, h3, h4⟩, fun ⟨h1, h2, h3, h4⟩ => ⟨h1, h2, h3, h4⟩⟩

def remap (l : List UInt64) : Event → List UInt64
  | .mapped _ base _ _ => base :: l
  | .unmapped _ base _ => l.filter (· ≠ base)
  | _ => l

/-- The addresses that are mapped by what the log says. -/
def regions (log : List Event) : List UInt64 := log.foldl remap []

theorem regions_append : regions (log ++ events) = events.foldl remap (regions log) :=
  List.foldl_append

/-- The path is short and its base name is none of dyld's; `mmap` finds free space. -/
def Admissible (sentinel : UInt64) (dyld : List Published) (st : St) : Call → Prop
  | .dlopen path _ env =>
    path.length < maxPath ∧ (∀ p ∈ dyld, ∀ q ∈ p.path, basename q ≠ basename path) ∧
      ∀ base ∈ env.base, base ∉ regions st.log ∧ Usable sentinel dyld base
  | .dlclose _ => True

/-- Every call is admissible where it is made. -/
def Valid (sentinel : UInt64) (dyld : List Published) : St → List Call → Prop
  | _, [] => True
  | st, call :: calls => Admissible sentinel dyld st call ∧ Valid sentinel dyld (step sentinel st call) calls

instance (sentinel : UInt64) (dyld : List Published) (st : St) : (call : Call) → Decidable (Admissible sentinel dyld st call)
  | .dlopen path _ env =>
    have : Decidable (∀ base ∈ env.base, base ∉ regions st.log ∧ Usable sentinel dyld base) := Option.decidableForallMem env.base
    inferInstanceAs (Decidable (path.length < maxPath ∧ (∀ p ∈ dyld, ∀ q ∈ p.path, basename q ≠ basename path) ∧
      ∀ base ∈ env.base, base ∉ regions st.log ∧ Usable sentinel dyld base))
  | .dlclose _ => inferInstanceAs (Decidable True)

instance decidableValid (sentinel : UInt64) (dyld : List Published) :
    (st : St) → (calls : List Call) → Decidable (Valid sentinel dyld st calls)
  | _, [] => inferInstanceAs (Decidable True)
  | st, call :: calls =>
    have := decidableValid sentinel dyld (step sentinel st call) calls
    inferInstanceAs (Decidable (_ ∧ _))

/-! ## The invariant -/

/-- The entry gives a bundle its own slide and path. -/
def OwnPath (bundles : List Bundle) (img : BridgeImage) : Prop :=
  ∃ i b, img.path = .slot i ∧ bundles[i]? = some b ∧ b.header = img.header ∧ b.slide = img.slide

/-- The bridge table: what dyld put there, then the bundles that found room. -/
def Listing (dyld : List Published) (bundles : List Bundle) (bridge : List BridgeImage) : Prop :=
  ∃ listed, bridge = dyld.map Published.entry ++ listed ∧
    listed.map (·.header) = (bundles.filter (·.room)).map (·.header) ∧ ∀ img ∈ listed, OwnPath bundles img

def Bundle.mapping (b : Bundle) : Mapping := ⟨b.header, b.mappingSize, b.commands⟩

/-- A bundle of the table after `n` calls. -/
structure Sound (sentinel : UInt64) (dyld : List Published) (n : Nat) (b : Bundle) : Prop where
  usable : Usable sentinel dyld b.header
  slide : b.slide = slideOf b.commands b.header
  pos : 1 ≤ b.refCount.toNat
  le : b.refCount.toNat ≤ n

/-- The log has every bundle of the table active, and every other one unmapped. -/
structure Told (bundles : List Bundle) (log : List Event) : Prop where
  active : ∀ b ∈ bundles, phaseOf b.name log = some (.active b.mapping b.refCount.toNat)
  unmapped : ∀ name, (∀ b ∈ bundles, b.name ≠ name) → phaseOf name log = some .unmapped

structure Inv (sentinel : UInt64) (dyld : List Published) (n : Nat) (st : St) : Prop where
  headers : (st.bundles.map (·.header)).Nodup
  names : (st.bundles.map Bundle.name).Nodup
  sound : ∀ b ∈ st.bundles, Sound sentinel dyld n b
  bridge : Listing dyld st.bundles st.bridge
  live : ∀ h, h ∈ regions st.log ↔ ∃ b ∈ st.bundles, b.header = h
  told : Told st.bundles st.log

section Tables

variable {sentinel : UInt64} {dyld : List Published} {bundles : List Bundle} {bridge : List BridgeImage} {b : Bundle}
  {i : Nat}

/-- A change of a reference count does not show in the bridge table. -/
theorem Listing.modify (h : Listing dyld bundles bridge) {f : Bundle → Bundle} (hh : ∀ b, (f b).header = b.header)
    (hs : ∀ b, (f b).slide = b.slide) (hr : ∀ b, (f b).room = b.room) : Listing dyld (bundles.modify i f) bridge := by
  obtain ⟨listed, hb, hheaders, hown⟩ := h
  refine ⟨listed, hb, hheaders.trans (filter_map_modify hr hh).symm, fun img himg => ?_⟩
  obtain ⟨j, c, hpath, hc, hheader, hslide⟩ := hown img himg
  have hj : (bundles.modify i f)[j]? = some (if i = j then f c else c) := by
    rw [List.getElem?_modify, hc]
    by_cases hij : i = j <;> simp [hij]
  refine ⟨j, _, hpath, hj, ?_, ?_⟩
  · split
    · exact (hh c).trans hheader
    · exact hheader
  · split
    · exact (hs c).trans hslide
    · exact hslide

variable {img : BridgeImage}

theorem OwnPath.append (h : OwnPath bundles img) (more : List Bundle) : OwnPath (bundles ++ more) img := by
  obtain ⟨i, b, hpath, hb, h⟩ := h
  have hi : i < bundles.length := (List.getElem?_eq_some_iff.mp hb).1
  exact ⟨i, b, hpath, (List.getElem?_append_left hi).trans hb, h⟩

theorem Listing.append (h : Listing dyld bundles bridge) (b : Bundle) :
    Listing dyld (bundles ++ [b]) (if b.room then bridge ++ [⟨b.header, b.slide, .slot bundles.length⟩] else bridge) := by
  obtain ⟨listed, hb, hheaders, hown⟩ := h
  by_cases hroom : b.room
  · refine ⟨listed ++ [⟨b.header, b.slide, .slot bundles.length⟩], ?_, ?_, fun img himg => ?_⟩
    · rw [if_pos hroom, hb, List.append_assoc]
    · simp [hheaders, List.filter_append, hroom]
    · rcases List.mem_append.mp himg with himg | himg
      · exact (hown img himg).append [b]
      · cases List.mem_singleton.mp himg
        exact ⟨bundles.length, b, rfl, by simp, rfl, rfl⟩
  · refine ⟨listed, ?_, ?_, fun img himg => (hown img himg).append [b]⟩
    · rw [if_neg hroom, hb]
    · simp [hheaders, List.filter_append, hroom]

theorem refreshImage_of_mem (hn : (bundles.map (·.header)).Nodup) (hb : b ∈ bundles)
    (himg : img.header = b.header) : (refreshImage bundles img).header = img.header ∧ OwnPath bundles (refreshImage bundles img) := by
  obtain ⟨j, hj, hjb⟩ := findIdx?_of_mem hn hb
  have hfind : bundles.findIdx? (fun c => img.header == c.header) = some j := by
    rw [← hj, himg]
    congr 1
    funext c
    exact Bool.beq_comm
  have hrefresh : refreshImage bundles img = ⟨img.header, b.slide, .slot j⟩ := by
    simp [refreshImage, hfind, hjb]
  rw [hrefresh]
  exact ⟨rfl, j, b, rfl, hjb, himg.symm, rfl⟩

theorem refreshImage_of_not_mem (h : ∀ b ∈ bundles, b.header ≠ img.header) : refreshImage bundles img = img := by
  have hfind : bundles.findIdx? (fun c => img.header == c.header) = none :=
    List.findIdx?_eq_none_iff.mpr fun c hc => by simpa using (h c hc).symm
  simp [refreshImage, hfind]

/-- Both tables lose a bundle; the slots of those behind it have moved. -/
theorem Listing.erase (h : Listing dyld bundles bridge) (hn : (bundles.map (·.header)).Nodup)
    (hdyld : ∀ b ∈ bundles, ∀ p ∈ dyld, p.header ≠ b.header) (hi : bundles[i]? = some b) :
    Listing dyld (bundles.eraseIdx i) ((forgetBridgeImageByHeader b.header bridge).map (refreshImage (bundles.eraseIdx i))) := by
  obtain ⟨listed, hb, hheaders, hown⟩ := h
  have hb' : b ∈ bundles := List.mem_of_getElem? hi
  have hrest := eraseIdx_eq_filter hn hi
  have hsub : ∀ c ∈ bundles.eraseIdx i, c ∈ bundles := fun c hc => List.mem_of_mem_eraseIdx hc
  have hln : (listed.map (·.header)).Nodup := by
    rw [hheaders]
    exact hn.sublist (List.filter_sublist.map _)
  have hforget : forgetBridgeImageByHeader b.header bridge = dyld.map Published.entry ++ listed.filter (·.header ≠ b.header) := by
    rw [forgetBridgeImageByHeader, hb, List.eraseP_append_right, eraseP_eq_filter _ hln]
    intro img himg
    obtain ⟨p, hp, rfl⟩ := List.mem_map.mp himg
    simpa [Published.entry] using hdyld b hb' p hp
  have hmem : ∀ img ∈ listed.filter (·.header ≠ b.header), ∃ c ∈ bundles.eraseIdx i, img.header = c.header := by
    intro img himg
    obtain ⟨himg, hne⟩ := List.mem_filter.mp himg
    obtain ⟨j, c, -, hc, hch, -⟩ := hown img himg
    refine ⟨c, ?_, hch.symm⟩
    rw [hrest]
    exact List.mem_filter.mpr ⟨List.mem_of_getElem? hc, by simpa [hch] using hne⟩
  have hn' : ((bundles.eraseIdx i).map (·.header)).Nodup := hn.sublist ((List.eraseIdx_sublist bundles i).map _)
  refine ⟨(listed.filter (·.header ≠ b.header)).map (refreshImage (bundles.eraseIdx i)), ?_, ?_, fun img himg => ?_⟩
  · -- dyld's entries have none of the bundles' headers
    rw [hforget, List.map_append]
    congr 1
    refine (List.map_congr_left fun img himg => refreshImage_of_not_mem fun c hc => ?_).trans (List.map_id _)
    obtain ⟨p, hp, rfl⟩ := List.mem_map.mp himg
    exact (hdyld c (hsub c hc) p hp).symm
  · calc ((listed.filter (·.header ≠ b.header)).map (refreshImage (bundles.eraseIdx i))).map (·.header)
        = (listed.filter (·.header ≠ b.header)).map (·.header) := by
          rw [List.map_map]
          refine List.map_congr_left fun img himg => ?_
          obtain ⟨c, hc, hch⟩ := hmem img himg
          exact (refreshImage_of_mem hn' hc hch).1
      _ = (listed.map (·.header)).filter (· ≠ b.header) := by rw [List.filter_map]; rfl
      _ = ((bundles.filter (·.room)).map (·.header)).filter (· ≠ b.header) := by rw [hheaders]
      _ = ((bundles.eraseIdx i).filter (·.room)).map (·.header) := by
          rw [hrest, List.filter_map, List.filter_filter, List.filter_filter]
          simp only [Function.comp_apply, Bool.and_comm]
  · obtain ⟨old, hold, rfl⟩ := List.mem_map.mp himg
    obtain ⟨c, hc, hch⟩ := hmem old hold
    exact (refreshImage_of_mem hn' hc hch).2

end Tables

/-! ## The calls keep it -/

section Calls

variable {sentinel : UInt64} {dyld : List Published} {n : Nat} {st : St} {b : Bundle} {i : Nat}
  (error : Option DlError)

theorem Sound.mono (h : Sound sentinel dyld n b) : Sound sentinel dyld (n + 1) b := ⟨h.usable, h.slide, h.pos, by have := h.le; omega⟩

/-- The events of one bundle: the others are where they were. -/
theorem Told.move {bundles bundles' : List Bundle} (h : Told bundles log) (name : CStr)
    (hevents : ∀ e ∈ events, e.name = name) (hold : ∀ c ∈ bundles', c.name ≠ name → c ∈ bundles)
    (hnew : ∀ c ∈ bundles, c.name ≠ name → ∃ c' ∈ bundles', c'.name = c.name)
    (hin : ∀ c ∈ bundles', c.name = name → phaseOf name (log ++ events) = some (.active c.mapping c.refCount.toNat))
    (hout : (∀ c ∈ bundles', c.name ≠ name) → phaseOf name (log ++ events) = some .unmapped) :
    Told bundles' (log ++ events) := by
  have hother : ∀ other, other ≠ name → phaseOf other (log ++ events) = phaseOf other log := fun other hne =>
    phase_append_other fun e he => by
      rw [hevents e he]
      exact hne.symm
  constructor
  · intro c hc
    by_cases hname : c.name = name
    · rw [hname]
      exact hin c hc hname
    · rw [hother _ hname]
      exact h.active c (hold c hc hname)
  · intro other hnone
    by_cases hname : other = name
    · subst hname
      exact hout hnone
    · rw [hother _ hname]
      apply h.unmapped
      intro c hc hcn
      obtain ⟨c', hc', hcn'⟩ := hnew c hc (hcn ▸ hname)
      exact hnone c' hc' (hcn'.trans hcn)

variable {path : CStr}

theorem findDlopenBundle_some (h : findDlopenBundle st path = some i) :
    ∃ b, st.bundles[i]? = some b ∧ b.name = basename path := by
  obtain ⟨hi, hb, -⟩ := List.findIdx?_eq_some_iff_getElem.mp h
  exact ⟨st.bundles[i], List.getElem?_eq_getElem hi, samePath_iff.mp hb⟩

theorem findDlopenBundle_none (h : findDlopenBundle st path = none) :
    ∀ c ∈ st.bundles, c.name ≠ basename path := fun c hc he => by
  have hc := List.findIdx?_eq_none_iff.mp h c hc
  rw [samePath_iff.mpr he] at hc
  cases hc

/-- Behind dyld's own images the bridge table has no path that the bundle table has not. -/
theorem findBridgeImageByPath_none (h : Listing dyld st.bundles st.bridge)
    (hdyld : ∀ p ∈ dyld, ∀ q ∈ p.path, basename q ≠ basename path)
    (hname : ∀ c ∈ st.bundles, c.name ≠ basename path) : findBridgeImageByPath st path = none := by
  obtain ⟨listed, hb, -, hown⟩ := h
  have hother : ∀ {q}, basename q ≠ basename path → ¬ samePath q path = true := fun hne hs => hne (samePath_iff.mp hs)
  refine List.find?_eq_none.mpr fun img himg => ?_
  rw [hb] at himg
  rcases List.mem_append.mp himg with himg | himg
  · obtain ⟨p, hp, rfl⟩ := List.mem_map.mp himg
    cases hq : p.path with
    | none => simp [Published.entry, hq, St.deref]
    | some q => simpa [Published.entry, hq, St.deref] using hother (hdyld p hp q hq)
  · obtain ⟨j, c, hpath, hc, -⟩ := hown img himg
    simpa [hpath, St.deref, hc] using hother (hname c (List.mem_of_getElem? hc))

theorem emit_nil : st.emit [] = st := by simp [St.emit]

section Inv

variable (h : Inv sentinel dyld n st)
include h

/-- A call that touches neither table. -/
theorem Inv.still : Inv sentinel dyld (n + 1) { st with error := error } :=
  ⟨h.headers, h.names, fun b hb => (h.sound b hb).mono, h.bridge, h.live, h.told⟩

/-- A reference more or less to a bundle that stays. -/
theorem Inv.recount (hi : st.bundles[i]? = some b) {f : Bundle → Bundle}
    (hf : ∀ c, f c = { c with refCount := (f c).refCount }) (hpos : 1 ≤ (f b).refCount.toNat)
    (hle : (f b).refCount.toNat ≤ n + 1) {e : Event} (he : e.name = b.name)
    (hstep : Phase.step (.active b.mapping b.refCount.toNat) e = some (.active b.mapping (f b).refCount.toNat))
    (hregions : regions (st.log ++ [e]) = regions st.log) :
    Inv sentinel dyld (n + 1) ⟨st.bundles.modify i f, st.bridge, error, st.log ++ [e]⟩ := by
  have hb : b ∈ st.bundles := List.mem_of_getElem? hi
  have hheader : ∀ c, (f c).header = c.header := fun c => by rw [hf c]
  have hname : ∀ c, (f c).name = c.name := fun c => by rw [hf c]; rfl
  have hmapping : ∀ c, (f c).mapping = c.mapping := fun c => by rw [hf c]; rfl
  have hnames := map_modify (l := st.bundles) (i := i) hname
  refine ⟨?_, ?_, ?_, ?_, ?_, ?_⟩
  · rw [map_modify hheader]
    exact h.headers
  · rw [hnames]
    exact h.names
  · intro c hc
    rcases mem_modify h.headers hi hc with rfl | ⟨hc, -⟩
    · have hs := h.sound b hb
      refine ⟨?_, ?_, hpos, hle⟩
      · rw [hheader]
        exact hs.usable
      · rw [hf b]
        exact hs.slide
    · exact (h.sound c hc).mono
  · exact h.bridge.modify hheader (fun c => by rw [hf c]) fun c => by rw [hf c]
  · intro a
    rw [hregions, h.live a, ← List.mem_map (f := Bundle.header), ← List.mem_map (f := Bundle.header), map_modify hheader]
  · apply h.told.move b.name
    · intro e' he'
      rw [List.mem_singleton.mp he', he]
    · intro c hc hne
      rcases mem_modify h.headers hi hc with rfl | ⟨hc, -⟩
      · exact absurd (hname b) hne
      · exact hc
    · intro c hc _
      have : c.name ∈ (st.bundles.modify i f).map Bundle.name := by
        rw [hnames]
        exact List.mem_map_of_mem hc
      exact List.mem_map.mp this
    · intro c hc hcn
      rw [phaseOf, phase_append (by simpa using he) (h.told.active b hb)]
      rcases mem_modify h.names hi hc with rfl | ⟨-, hne⟩
      · rw [hmapping]
        simpa using hstep
      · exact absurd hcn hne
    · intro hnone
      have hmem : b.name ∈ (st.bundles.modify i f).map Bundle.name := by
        rw [hnames]
        exact List.mem_map_of_mem hb
      obtain ⟨c, hc, hcn⟩ := List.mem_map.mp hmem
      exact absurd hcn (hnone c hc)

theorem Inv.retain (hi : st.bundles[i]? = some b) (hn : n + 1 < 2 ^ 32) :
    Inv sentinel dyld (n + 1) ⟨st.bundles.modify i Bundle.retain, st.bridge, error, st.log ++ [.opened b.name b.header]⟩ := by
  have hs := h.sound b (List.mem_of_getElem? hi)
  have hle := hs.le
  have hcount : b.retain.refCount.toNat = b.refCount.toNat + 1 := by
    have hmax : b.refCount ≠ ~~~(0 : UInt32) := by
      intro he
      have : b.refCount.toNat = 4294967295 := by rw [he]; rfl
      omega
    have hone : (1 : UInt32).toNat = 1 := rfl
    rw [Bundle.retain, if_pos hmax, UInt32.toNat_add, hone, Nat.mod_eq_of_lt (by omega)]
  apply h.recount error hi
  · exact fun c => rfl
  · omega
  · omega
  · rfl
  · rw [hcount]
    simp [Phase.step, Bundle.mapping]
  · rw [regions_append]
    rfl

theorem Inv.release (hi : st.bundles[i]? = some b) (hmore : 1 < b.refCount) :
    Inv sentinel dyld (n + 1) ⟨st.bundles.modify i Bundle.release, st.bridge, error, st.log ++ [.closed b.name b.header]⟩ := by
  have hs := h.sound b (List.mem_of_getElem? hi)
  have hle := hs.le
  have hone : (1 : UInt32).toNat = 1 := rfl
  have hmore' : 1 < b.refCount.toNat := UInt32.lt_iff_toNat_lt.mp hmore
  have hcount : b.release.refCount.toNat = b.refCount.toNat - 1 := by
    rw [Bundle.release, UInt32.toNat_sub_of_le _ _ (UInt32.le_iff_toNat_le.mpr (by omega)), hone]
  obtain ⟨k, hk⟩ : ∃ k, b.refCount.toNat = k + 2 := ⟨b.refCount.toNat - 2, by omega⟩
  apply h.recount error hi
  · exact fun c => rfl
  · omega
  · omega
  · rfl
  · rw [hcount, hk]
    simp [Phase.step, Bundle.mapping]
  · rw [regions_append]
    rfl

section Open

variable {path : CStr} {base : UInt64} (commands : List LoadCommand)
  (hname : ∀ c ∈ st.bundles, c.name ≠ basename path) (hfresh : base ∉ regions st.log)
include hname hfresh

/-- The fixups failed: the space is given back. -/
theorem Inv.failed (size : UInt64) :
    Inv sentinel dyld (n + 1) ⟨st.bundles, st.bridge, error,
      st.log ++ [.mapped (basename path) base size commands, .unmapped (basename path) base size]⟩ := by
  refine ⟨h.headers, h.names, fun b hb => (h.sound b hb).mono, h.bridge, fun a => ?_, ?_⟩
  · rw [← h.live a, regions_append]
    by_cases ha : a = base
    · simp [remap, ha, hfresh]
    · simp [remap, ha]
  · apply h.told.move (basename path)
    · simp [Event.name]
    · exact fun c hc _ => hc
    · exact fun c hc _ => ⟨c, hc, rfl⟩
    · exact fun c hc hcn => absurd hcn (hname c hc)
    · intro _
      rw [phaseOf, phase_append (by simp [Event.name]) (h.told.unmapped _ hname)]
      simp [Phase.step]

/-- A new bundle. -/
theorem Inv.load (husable : Usable sentinel dyld base) (hb : b.header = base)
    (hslide : b.slide = slideOf commands base) (hcommands : b.commands = commands) (hcount : b.refCount = 1) (hpath : b.path = path) :
    Inv sentinel dyld (n + 1) ⟨st.bundles ++ [b],
      if b.room then st.bridge ++ [⟨b.header, b.slide, .slot st.bundles.length⟩] else st.bridge, error,
      st.log ++ [.mapped (basename path) base b.mappingSize commands,
        .ran (basename path) base .init (modFuncs commands b.slide .init), .opened (basename path) base]⟩ := by
  have hbn : b.name = basename path := by rw [Bundle.name, hpath]
  have hone : (1 : UInt32).toNat = 1 := rfl
  have hnew : ∀ c ∈ st.bundles, c.header ≠ base := fun c hc he => hfresh ((h.live base).mpr ⟨c, hc, he⟩)
  refine ⟨?_, ?_, ?_, h.bridge.append b, fun a => ?_, ?_⟩
  · rw [List.map_append, List.nodup_append]
    refine ⟨h.headers, List.nodup_singleton _, ?_⟩
    intro x hx y hy
    obtain ⟨c, hc, rfl⟩ := List.mem_map.mp hx
    rw [List.mem_singleton.mp hy]
    exact fun he => hnew c hc (he.trans hb)
  · rw [List.map_append, List.nodup_append]
    refine ⟨h.names, List.nodup_singleton _, ?_⟩
    intro x hx y hy
    obtain ⟨c, hc, rfl⟩ := List.mem_map.mp hx
    rw [List.mem_singleton.mp hy, hbn]
    exact hname c hc
  · intro c hc
    rcases List.mem_append.mp hc with hc | hc
    · exact (h.sound c hc).mono
    · cases List.mem_singleton.mp hc
      refine ⟨hb ▸ husable, ?_, ?_, ?_⟩
      · rw [hslide, hcommands, hb]
      · rw [hcount, hone]
      · rw [hcount, hone]
        omega
  · rw [regions_append]
    have hmem : a ∈ base :: regions st.log ↔ ∃ c ∈ st.bundles ++ [b], c.header = a := by
      rw [List.mem_cons, h.live a]
      simp [or_and_right, exists_or, hb, or_comm, eq_comm]
    exact hmem
  · apply h.told.move (basename path)
    · simp [Event.name]
    · intro c hc hne
      rcases List.mem_append.mp hc with hc | hc
      · exact hc
      · cases List.mem_singleton.mp hc
        exact absurd hbn hne
    · exact fun c hc _ => ⟨c, List.mem_append_left _ hc, rfl⟩
    · intro c hc hcn
      rw [phaseOf, phase_append (by simp [Event.name]) (h.told.unmapped _ hname)]
      rcases List.mem_append.mp hc with hc | hc
      · exact absurd hcn (hname c hc)
      · cases List.mem_singleton.mp hc
        simp [Phase.step, ← modFuncs_eq, Bundle.mapping, hslide, hb, hcommands, hcount]
    · exact fun hnone => absurd hbn (hnone b (by simp))

end Open

/-- The last reference goes. -/
theorem Inv.unload (hi : st.bundles[i]? = some b) (hlast : ¬ 1 < b.refCount) :
    Inv sentinel dyld (n + 1) ⟨st.bundles.eraseIdx i,
      (forgetBridgeImageByHeader b.header st.bridge).map (refreshImage (st.bundles.eraseIdx i)), error,
      st.log ++ [.closed b.name b.header, .ran b.name b.header .term (modFuncs b.commands b.slide .term),
        .unmapped b.name b.header b.mappingSize]⟩ := by
  have hb : b ∈ st.bundles := List.mem_of_getElem? hi
  have hs := h.sound b hb
  have hsub := List.eraseIdx_sublist st.bundles i
  have hone : b.refCount.toNat = 1 := by
    have hle : b.refCount.toNat ≤ 1 := Nat.le_of_not_lt fun hlt => hlast (UInt32.lt_iff_toNat_lt.mpr hlt)
    have := hs.pos
    omega
  refine ⟨h.headers.sublist (hsub.map _), h.names.sublist (hsub.map _), ?_, ?_, fun a => ?_, ?_⟩
  · exact fun c hc => (h.sound c (hsub.subset hc)).mono
  · exact h.bridge.erase h.headers (fun c hc => (h.sound c hc).usable.published) hi
  · rw [regions_append]
    have hmem : a ∈ (regions st.log).filter (· ≠ b.header) ↔ ∃ c ∈ st.bundles.eraseIdx i, c.header = a := by
      rw [eraseIdx_eq_filter h.headers hi, List.mem_filter, h.live a]
      constructor
      · rintro ⟨⟨c, hc, rfl⟩, hne⟩
        exact ⟨c, List.mem_filter.mpr ⟨hc, hne⟩, rfl⟩
      · rintro ⟨c, hc, rfl⟩
        obtain ⟨hc, hne⟩ := List.mem_filter.mp hc
        exact ⟨⟨c, hc, rfl⟩, hne⟩
    exact hmem
  · have hrest := eraseIdx_eq_filter h.names hi
    apply h.told.move b.name
    · simp [Event.name]
    · exact fun c hc _ => hsub.subset hc
    · intro c hc hne
      refine ⟨c, ?_, rfl⟩
      rw [hrest]
      exact List.mem_filter.mpr ⟨hc, by simpa using hne⟩
    · intro c hc hcn
      rw [hrest] at hc
      exact absurd hcn (by simpa using (List.mem_filter.mp hc).2)
    · intro _
      rw [phaseOf, phase_append (by simp [Event.name]) (h.told.active b hb), hone]
      simp [Phase.step, ← modFuncs_eq, Bundle.mapping, hs.slide]

/-! ## Whole calls -/

theorem Inv.fail (e : DlError) (name : CStr) :
    Inv sentinel dyld (n + 1) ((st.fail e).1.emit ((st.fail e).2.toList.map (.opened name))) := by
  have hnil : (st.fail e).1.emit ((st.fail e).2.toList.map (.opened name)) = { st with error := some e } := emit_nil
  rw [hnil]
  exact h.still _

theorem Inv.loadBundle {base : UInt64} (hlen : path.length < maxPath)
    (hname : ∀ c ∈ st.bundles, c.name ≠ basename path) (hfresh : base ∉ regions st.log)
    (husable : Usable sentinel dyld base) (commands : List LoadCommand) (unresolved : Option CStr) :
    Inv sentinel dyld (n + 1) ((loadBundle path commands base unresolved st).1.emit
      ((loadBundle path commands base unresolved st).2.toList.map (.opened (basename path)))) := by
  cases unresolved with
  | some symbol =>
    have hend := h.failed (some (.unresolvedImport symbol)) commands hname hfresh (totalSize commands)
    simpa [Dlopen.loadBundle, St.emit, St.fail] using hend
  | none =>
    have htake : path.take (maxPath - 1) = path := List.take_of_length_le (by omega)
    have hend := h.load st.error commands hname hfresh husable
      (b := ⟨base, slideOf commands base, totalSize commands, 1, path, commands, decide (st.bridge.length < bridgeMaxImages)⟩)
      rfl rfl rfl rfl rfl
    simp only [Dlopen.loadBundle, St.emit, htake, List.append_assoc, Option.toList_some, List.map_cons, List.map_nil, List.cons_append,
      List.nil_append]
    exact hend

theorem Inv.dlopen {mode : UInt32} {env : Env}
    (hadm : Admissible sentinel dyld st (.dlopen path mode env)) (hn : n + 1 < 2 ^ 32) :
    Inv sentinel dyld (n + 1) (step sentinel st (.dlopen path mode env)) := by
  obtain ⟨hlen, hdyld, hbase⟩ := hadm
  have h0 : Inv sentinel dyld n { st with error := none } := ⟨h.headers, h.names, h.sound, h.bridge, h.live, h.told⟩
  simp only [step, Dlopen.dlopen]
  cases hfind : findDlopenBundle { st with error := none } path with
  | some i =>
    obtain ⟨b, hi, hbn⟩ := findDlopenBundle_some hfind
    have hend := h0.retain none hi hn
    simpa [St.emit, hi, hbn] using hend
  | none =>
    have hname := findDlopenBundle_none hfind
    simp only [findBridgeImageByPath_none h0.bridge hdyld hname]
    split
    · exact h0.fail _ _
    split
    · exact h0.fail _ _
    split
    · exact h0.fail _ _
    split
    · exact h0.fail _ _
    split
    · exact h0.fail _ _
    split
    · exact h0.fail _ _
    · rename_i base hb
      obtain ⟨hfresh, husable⟩ := hbase base hb
      exact h0.loadBundle hlen hname hfresh husable _ _

/-- A `dlclose` does nothing to the tables, drops a reference or unloads. -/
theorem step_dlclose (handle : UInt64) :
    (∃ error, step sentinel st (.dlclose handle) = { st with error := error }) ∨
    ∃ i b, st.bundles[i]? = some b ∧ b.header = handle ∧
      ((1 < b.refCount ∧ step sentinel st (.dlclose handle) =
          ⟨st.bundles.modify i Bundle.release, st.bridge, none, st.log ++ [.closed b.name b.header]⟩) ∨
       (¬ 1 < b.refCount ∧ step sentinel st (.dlclose handle) =
          ⟨st.bundles.eraseIdx i, (forgetBridgeImageByHeader b.header st.bridge).map (refreshImage (st.bundles.eraseIdx i)), none,
            st.log ++ [.closed b.name b.header, .ran b.name b.header .term (modFuncs b.commands b.slide .term),
              .unmapped b.name b.header b.mappingSize]⟩)) := by
  simp only [step]
  cases hclosing : st.bundles.find? fun b => b.header == handle with
  | none =>
    have hnone : findDlopenBundleByHandle { st with error := none } handle = none :=
      List.findIdx?_eq_none_iff.mpr fun c hc => by simpa using List.find?_eq_none.mp hclosing c hc
    left
    simp only [Option.toList_none, List.map_nil, emit_nil, Dlopen.dlclose, hnone]
    split
    · exact ⟨none, rfl⟩
    split
    · exact ⟨none, rfl⟩
    · exact ⟨some .invalidHandle, rfl⟩
  | some b =>
    have hb := List.mem_of_find?_eq_some hclosing
    have hhandle : b.header = handle := by simpa using List.find?_some hclosing
    subst hhandle
    obtain ⟨i, hfind, hi⟩ := findIdx?_of_mem h.headers hb
    have hu := (h.sound b hb).usable
    have hspecial : ¬ (b.header = 0 ∨ b.header = rtldDefault ∨ b.header = sentinel) := by
      rintro (he | he | he)
      exacts [hu.null he, hu.default he, hu.sentinel he]
    right
    refine ⟨i, b, hi, rfl, ?_⟩
    simp only [Option.toList_some, List.map_cons, List.map_nil, Dlopen.dlclose, if_neg hspecial, findDlopenBundleByHandle,
      St.emit, hfind, hi]
    by_cases hmore : 1 < b.refCount
    · simp [hmore]
    · simp [hmore, unloadBundle, refreshDlopenBridgePaths, St.emit]

theorem Inv.dlclose (handle : UInt64) : Inv sentinel dyld (n + 1) (step sentinel st (.dlclose handle)) := by
  rcases step_dlclose h handle with ⟨e, he⟩ | ⟨i, b, hi, -, ⟨hmore, he⟩ | ⟨hlast, he⟩⟩
  · rw [he]
    exact h.still e
  · rw [he]
    exact h.release none hi hmore
  · rw [he]
    exact h.unload none hi hlast

theorem mem_step_dlclose {handle : UInt64} {c : Bundle} (hc : c ∈ st.bundles)
    (hne : c.header ≠ handle) : c ∈ (step sentinel st (.dlclose handle)).bundles := by
  rcases step_dlclose h handle with ⟨e, he⟩ | ⟨i, b, hi, rfl, ⟨-, he⟩ | ⟨-, he⟩⟩
  · rw [he]
    exact hc
  · rw [he]
    exact mem_modify_of_ne hi hc hne
  · rw [he, eraseIdx_eq_filter h.headers hi]
    exact List.mem_filter.mpr ⟨hc, by simpa using hne⟩

end Inv

theorem Inv.run : ∀ {calls : List Call} {n : Nat} {st : St}, Inv sentinel dyld n st → Valid sentinel dyld st calls →
    n + calls.length < 2 ^ 32 → Inv sentinel dyld (n + calls.length) (calls.foldl (step sentinel) st)
  | [], _, _, h, _, _ => h
  | .dlopen path mode env :: calls, n, st, h, hv, hn => by
    rw [List.length_cons] at hn ⊢
    have := Inv.run (h.dlopen hv.1 (by omega)) hv.2 (by omega)
    rwa [show n + (calls.length + 1) = n + 1 + calls.length by omega]
  | .dlclose handle :: calls, n, st, h, hv, hn => by
    rw [List.length_cons] at hn ⊢
    have := Inv.run (h.dlclose handle) hv.2 (by omega)
    rwa [show n + (calls.length + 1) = n + 1 + calls.length by omega]

theorem inv_start (sentinel : UInt64) (dyld : List Published) : Inv sentinel dyld 0 (.start dyld) where
  headers := List.nodup_nil
  names := List.nodup_nil
  sound := by simp [St.start]
  bridge := ⟨[], by simp [St.start], rfl, by simp⟩
  live := by simp [St.start, regions]
  told := ⟨by simp [St.start], fun _ _ => rfl⟩

end Calls

/-- A file with one segment, and initializers and terminators. -/
def smallFile : File :=
  ⟨mhMagic64, mhBundle, [.segment ⟨cstr "__DATA", 0x1000, 0x1800, 0, 0x1800, 3,
    [⟨cstr "__mod_init_func", 0x2000, 16, 9, 0⟩, ⟨cstr "__mod_term_func", 0x2010, 8, 10, 0⟩]⟩]⟩

/-- Two bundles next to an image of dyld's. The first is opened twice and closed twice, so
    that the second moves to its slot. -/
def twoBundles : List Call :=
  [.dlopen (cstr "/a/one.bundle") 1 ⟨.ok smallFile, some 0x100000, none⟩,
   .dlopen (cstr "/b/one.bundle") 1 ⟨.error .openFailed, none, none⟩,
   .dlopen (cstr "two.bundle") 1 ⟨.ok smallFile, some 0x200000, none⟩,
   .dlclose 0x100000, .dlclose 0x100000]

def libsystem : Published := ⟨0x7000, 0, some (cstr "/usr/lib/libSystem.B.dylib")⟩

end Panthera.Libsystem.Dlopen
