/-
  Panthera.Dyld.Load — the image loader (`loadImage`, `loadDependencyImage`).

  An image comes from a split-region cache in place, from a flat cache by copying its
  segments, or from a file; only a file's image loads its dependencies. Files, the
  cache and what `mmap` answers are the environment (`World`); a file's later reads and
  mappings may fail. A loaded image is appended to the table, which holds at most 64
  images with pairwise different base names, and never leaves it.

  `loadImage` calls itself only after it has put an image in the table, so with a level
  for every free place it never runs out of levels (`loadImage_fuel`).

  Proved: what registering one fresh image keeps, a load keeps (`loadImage_inv`), and an
  image asked for is in the table afterwards, if it can be (`loadImage_registers`).
-/

import Panthera.Lib.Bytes
import Panthera.Dyld.SymbolIndex

namespace Panthera.Dyld

open MachO Lib.Bytes

/-! ## The environment and the state -/

/-- A file as the system calls show it. `readOk off len` and `mapOk off` say whether a
    read or a segment mapping at `off` succeeds. -/
structure File where
  fstatOk : Bool
  size : Int
  readOk : Nat → Nat → Bool
  mapOk : UInt64 → Bool
  magic : UInt32
  sizeofcmds : UInt32
  commands : List LoadCommand
  contents : List UInt8

structure World where
  cache : SharedCache
  openFile : CStr → Option File
  /-- The answer of the `n`-th anonymous `mmap`; negative as a signed word if it fails. -/
  mmap : Nat → UInt64
  /-- Where dyld's own `panthera_ttyname_shim` and `panthera_ttyname_r_shim` are. -/
  ttynameShim : UInt64
  ttynameRShim : UInt64

/-- What dyld does to images, and the entries into their code. -/
inductive Event where
  | registered (i : Nat)
  | chained (i : Nat)
  | rebased (i : Nat)
  | bound (i : Nat)
  | libcInit
  | init (i : Nat) (addr : UInt64)
  | entry (addr : UInt64)
  deriving DecidableEq, Repr

/-- The process as dyld keeps it. -/
structure Proc where
  images : List LoadedImage
  index : SymbolIndex
  mem : Mem
  mmaps : Nat
  trace : List Event

def Proc.register (st : Proc) (img : LoadedImage) : Proc :=
  { st with images := st.images ++ [img], trace := st.trace ++ [.registered st.images.length] }

/-- `(long)x < 0` -/
def isNeg (x : UInt64) : Bool := 2 ^ 63 ≤ x.toNat

/-! ## Segments in memory -/

def writeBytes (m : Mem) (a : UInt64) (bytes : List UInt8) : Mem := fun x =>
  if a.toNat ≤ x ∧ x < a.toNat + bytes.length then bytes.getD (x - a.toNat) 0 else m x

def zeroBytes (m : Mem) (a n : UInt64) : Mem := fun x => if a.toNat ≤ x ∧ x < a.toNat + n.toNat then 0 else m x

/-- The lowest address and the highest end of the segments that have a size. -/
def vmRange (cmds : List LoadCommand) : UInt64 × UInt64 :=
  (segmentsOf cmds).foldl (fun r seg =>
    if 0 < seg.vmsize then
      (if seg.vmaddr < r.1 then seg.vmaddr else r.1, if r.2 < seg.vmaddr + seg.vmsize then seg.vmaddr + seg.vmsize else r.2)
    else r) (0xFFFFFFFFFFFFFFFF, 0)

def totalSize (cmds : List LoadCommand) : UInt64 := ((vmRange cmds).2 - (vmRange cmds).1 + 0xFFF) &&& ~~~(0xFFF : UInt64)

def fileBytes (contents : List UInt8) (seg : Segment) : List UInt8 :=
  (contents.drop seg.fileoff.toNat).take seg.filesize.toNat

/-- The copies from a flat cache or from a small file's snapshot. -/
def copySegments (base lo : UInt64) (contents : List UInt8) (segs : List Segment) (m : Mem) : Mem :=
  segs.foldl (fun m seg =>
    if 0 < seg.filesize then writeBytes m (base + (seg.vmaddr - lo)) (fileBytes contents seg) else m) m

/-- One segment of a large file: whole pages mapped, the tail read, the rest of its last
    page zeroed. `snapshot` bytes of the file have been read already. -/
def mapSegment (f : File) (base lo : UInt64) (snapshot : Nat) (seg : Segment) (m : Mem) : Option Mem :=
  if 0 < seg.filesize then
    let segOffset := seg.vmaddr - lo
    let fullFilePages := seg.filesize &&& ~~~(0xFFF : UInt64)
    let tailSize := seg.filesize - fullFilePages
    let tailFileOffset := seg.fileoff + fullFilePages
    if seg.fileoff &&& 0xFFF ≠ 0 ∨ segOffset &&& 0xFFF ≠ 0 then none
    else if 0 < fullFilePages ∧ f.mapOk seg.fileoff = false then none
    else if 0 < tailSize ∧ snapshot < (tailFileOffset + tailSize).toNat ∧
        f.readOk tailFileOffset.toNat tailSize.toNat = false then none
    else
      let m := writeBytes m (base + segOffset) (fileBytes f.contents seg)
      let zeroStart := segOffset + seg.filesize
      let pageEnd := (zeroStart + 0xFFF) &&& ~~~(0xFFF : UInt64)
      let zeroEnd := if segOffset + seg.vmsize < pageEnd then segOffset + seg.vmsize else pageEnd
      some (if zeroStart < zeroEnd then zeroBytes m (base + zeroStart) (zeroEnd - zeroStart) else m)
  else some m

/-! ## Obtaining an image -/

/-- What `loadImage` makes of an entry of the cache: the image in place if the cache is split
    and resolved, else a copy in fresh memory. -/
def useCached (W : World) (path : CStr) (ci : CacheImage) (st : Proc) : Option LoadedImage × Proc :=
  if ci.magic ≠ mhMagic64 then (none, st)
  else if W.cache.splitRegion ∧ W.cache.preResolved then
    (some (.ofHeader W.cache (ci.address + W.cache.slide) W.cache.slide path ci.commands), st)
  else
    let lo := (vmRange ci.commands).1
    let base := W.mmap st.mmaps
    let st := { st with mmaps := st.mmaps + 1 }
    if base = 0 ∨ isNeg base then (none, st)
    else
      let m := zeroBytes st.mem base (totalSize ci.commands)
      (some (.ofHeader W.cache base (base - lo) path ci.commands),
        { st with mem := copySegments base lo ci.contents (segmentsOf ci.commands) m })

def fromCache (W : World) (path : CStr) (st : Proc) : Option LoadedImage × Proc :=
  match findDylibInCache W.cache path with
  | none => (none, st)
  | some ci => useCached W path ci st

/-- From an open file: a snapshot for the load commands, then the segments. -/
def fromFile (W : World) (f : File) (path : CStr) (st : Proc) : Option LoadedImage × Proc :=
  if f.fstatOk = false ∨ f.size ≤ 0 then (none, st)
  else
    let size := f.size.toNat
    let large := 1024 * 1024 ≤ size
    let snapshotSize := if large then min (64 * 1024) size else size
    let readSize := if large then min 4096 snapshotSize else snapshotSize
    let needed := 32 + f.sizeofcmds.toNat
    let snapshot := W.mmap st.mmaps
    let st := { st with mmaps := st.mmaps + 1 }
    if isNeg snapshot then (none, st)
    else if f.readOk 0 readSize = false then (none, st)
    else if f.magic ≠ mhMagic64 then (none, st)
    else if snapshotSize < needed then (none, st)
    else if readSize < needed ∧ f.readOk readSize (needed - readSize) = false then (none, st)
    else
      let lo := (vmRange f.commands).1
      let base := W.mmap st.mmaps
      let st := { st with mmaps := st.mmaps + 1 }
      if isNeg base then (none, st)
      else
        let m := zeroBytes st.mem base (totalSize f.commands)
        let mapped := if large then
            (segmentsOf f.commands).foldlM (fun m seg => mapSegment f base lo (max readSize needed) seg m) m
          else some (copySegments base lo f.contents (segmentsOf f.commands) m)
        match mapped with
        | none => (none, st)
        | some m => (some (.ofHeader W.cache base (base - lo) path f.commands), { st with mem := m })

/-- What `loadImage` gets hold of, and whether it came from a file. -/
def obtainImage (W : World) (path : CStr) (st : Proc) : Option (LoadedImage × Bool) × Proc :=
  match fromCache W path st with
  | (some img, st) => (some (img, false), st)
  | (none, st) =>
    match W.openFile path with
    | none => (none, st)
    | some f =>
      match fromFile W f path st with
      | (some img, st) => (some (img, true), st)
      | (none, st) => (none, st)

/-! ## The loader -/

section Loader

variable (go : CStr → Proc → Option Nat × Proc)

/-- `loadDependencyImage`, over a loader `go`. -/
def loadDependency (dep : CStr) (st : Proc) : Option Nat × Proc :=
  match findLoadedImageByPath st.images dep with
  | some i => (some i, st)
  | none => go dep st

def loadAll (deps : List CStr) (st : Proc) : Proc := deps.foldl (fun st dep => (loadDependency go dep st).2) st

/-- The body of `loadImage`. -/
def loadStep (W : World) (path : CStr) (st : Proc) : Option Nat × Proc :=
  match findAlreadyLoaded st.images path with
  | some i => (some i, st)
  | none =>
    if maxImages ≤ st.images.length then (none, st)
    else
      match obtainImage W path st with
      | (none, st) => (none, st)
      | (some (img, isFile), st) =>
        (some st.images.length, if isFile then loadAll go (dependencies img.commands) (st.register img) else st.register img)

end Loader

def loadImage (W : World) : Nat → CStr → Proc → Option Nat × Proc
  | 0 => loadStep (fun _ st => (none, st)) W
  | n + 1 => loadStep (loadImage W n) W

def loadDependencyImage (W : World) (dep : CStr) (st : Proc) : Option Nat × Proc :=
  loadDependency (loadImage W maxImages) dep st

/-! ## Obtaining an image leaves the table alone -/

/-- The two states have the same table and the same history. -/
structure Keeps (st st' : Proc) : Prop where
  images : st'.images = st.images
  trace : st'.trace = st.trace

theorem Keeps.refl (st : Proc) : Keeps st st := ⟨rfl, rfl⟩

theorem Keeps.trans {a b c : Proc} (h1 : Keeps a b) (h2 : Keeps b c) : Keeps a c :=
  ⟨h2.images.trans h1.images, h2.trace.trans h1.trace⟩

/-- What every way of obtaining an image promises. -/
structure Obtained (path : CStr) (st : Proc) (r : Option LoadedImage × Proc) : Prop where
  keeps : Keeps st r.2
  path_eq : ∀ img, r.1 = some img → img.path = path

variable {img : LoadedImage} {W : World} {path : CStr} {st : Proc} {i : Nat} {images : List LoadedImage}

namespace Obtained

variable {path : CStr} {st st' : Proc}

theorem failed (h : Keeps st st') : Obtained path st (none, st') := ⟨h, fun _ he => by cases he⟩

theorem found (h : Keeps st st') (hp : img.path = path) : Obtained path st (some img, st') :=
  ⟨h, fun _ he => by cases he; exact hp⟩

/-- A check that gives up on the image when it fails. -/
theorem check {c : Prop} [Decidable c] {r : Option LoadedImage × Proc} (h : Keeps st st') (hr : Obtained path st r) :
    Obtained path st (if c then (none, st') else r) := by
  split
  · exact failed h
  · exact hr

end Obtained

theorem useCached_obtained (W : World) (path : CStr) (ci : CacheImage) (st : Proc) : Obtained path st (useCached W path ci st) := by
  refine .check (.refl st) ?_
  split
  · exact .found (.refl st) rfl
  · exact .check ⟨rfl, rfl⟩ (.found ⟨rfl, rfl⟩ rfl)

theorem fromCache_obtained (W : World) (path : CStr) (st : Proc) : Obtained path st (fromCache W path st) := by
  unfold fromCache
  split
  · exact .failed (.refl st)
  · exact useCached_obtained W path _ st

theorem fromFile_obtained (W : World) (f : File) (path : CStr) (st : Proc) :
    Obtained path st (fromFile W f path st) := by
  unfold fromFile
  refine .check (.refl st) (.check ⟨rfl, rfl⟩ (.check ⟨rfl, rfl⟩ (.check ⟨rfl, rfl⟩
    (.check ⟨rfl, rfl⟩ (.check ⟨rfl, rfl⟩ (.check ⟨rfl, rfl⟩ ?_))))))
  dsimp only
  split
  · exact .failed ⟨rfl, rfl⟩
  · exact .found ⟨rfl, rfl⟩ rfl

theorem obtainImage_spec (W : World) (path : CStr) (st : Proc) : Keeps st (obtainImage W path st).2 ∧
    ∀ img b, (obtainImage W path st).1 = some (img, b) → img.path = path := by
  have hc := fromCache_obtained W path st
  unfold obtainImage
  split
  · rename_i img st1 heq
    rw [heq] at hc
    exact ⟨hc.keeps, fun _ _ h => by cases h; exact hc.path_eq _ rfl⟩
  · rename_i st1 heq
    rw [heq] at hc
    split
    · exact ⟨hc.keeps, fun _ _ h => by cases h⟩
    · rename_i f _
      have hf := fromFile_obtained W f path st1
      split
      · rename_i img st2 heq2
        rw [heq2] at hf
        exact ⟨hc.keeps.trans hf.keeps, fun _ _ h => by cases h; exact hf.path_eq _ rfl⟩
      · rename_i st2 heq2
        rw [heq2] at hf
        exact ⟨hc.keeps.trans hf.keeps, fun _ _ h => by cases h⟩

/-! ## Invariants of a load -/

/-- The image may be put in the table: it has been obtained, no other has its base name,
    and there is room. -/
structure Fresh (W : World) (st : Proc) (img : LoadedImage) : Prop where
  obtained : ∃ st0 isFile, (obtainImage W img.path st0).1 = some (img, isFile)
  new : findAlreadyLoaded st.images img.path = none
  room : st.images.length < maxImages

/-- A property of the table and the history that registering a fresh image keeps. -/
structure Stable (W : World) (P : Proc → Prop) : Prop where
  keeps : ∀ st st', Keeps st st' → P st → P st'
  register : ∀ st img, Fresh W st img → P st → P (st.register img)

/-- What `loadStep` has obtained when it comes to registering. -/
theorem fresh_of_obtained {st1 : Proc} {isFile : Bool}
    (hob : obtainImage W path st = (some (img, isFile), st1)) (hnew : findAlreadyLoaded st.images path = none)
    (hroom : ¬ maxImages ≤ st.images.length) : Fresh W st1 img := by
  obtain ⟨hk, hpath⟩ := obtainImage_spec W path st
  rw [hob] at hk hpath
  have hp : img.path = path := hpath img isFile rfl
  refine ⟨⟨st, isFile, ?_⟩, ?_, ?_⟩
  · rw [hp, hob]
  · rw [hk.images, hp]
    exact hnew
  · rw [hk.images]
    omega

section Invariants

variable {W : World} {P : Proc → Prop} (hP : Stable W P) {go : CStr → Proc → Option Nat × Proc}
  (hgo : ∀ path st, P st → P (go path st).2)
include hgo

theorem loadDependency_inv (dep : CStr) {st : Proc} (h : P st) :
    P (loadDependency go dep st).2 := by
  unfold loadDependency
  split
  · exact h
  · exact hgo dep st h

theorem loadAll_inv : ∀ (deps : List CStr) {st : Proc}, P st →
    P (loadAll go deps st) := by
  intro deps
  induction deps with
  | nil => intro st h; exact h
  | cons dep deps ih =>
    intro st h
    exact ih (loadDependency_inv hgo dep h)

include hP

theorem loadStep_inv (path : CStr) (h : P st) : P (loadStep go W path st).2 := by
  obtain ⟨hk, -⟩ := obtainImage_spec W path st
  unfold loadStep
  split
  · exact h
  · rename_i hnone
    split
    · exact h
    · rename_i hroom
      split
      · rename_i st1 heq
        rw [heq] at hk
        exact hP.keeps _ _ hk h
      · rename_i img isFile st1 heq
        rw [heq] at hk
        have hreg := hP.register st1 img (fresh_of_obtained heq hnone hroom) (hP.keeps _ _ hk h)
        dsimp only
        split
        · exact loadAll_inv hgo _ hreg
        · exact hreg

omit hgo

theorem loadImage_inv : ∀ (n : Nat) (path : CStr) {st : Proc}, P st → P (loadImage W n path st).2 := by
  intro n
  induction n with
  | zero =>
    intro path st h
    exact loadStep_inv hP (fun _ _ h => h) path h
  | succ n ih =>
    intro path st h
    exact loadStep_inv hP (fun path st h => ih path h) path h

end Invariants

/-- A property of the table and the history that a whole load keeps. -/
structure Invariant (W : World) (P : Proc → Prop) : Prop where
  keeps : ∀ st st', Keeps st st' → P st → P st'
  load : ∀ path st, P st → P (loadImage W maxImages path st).2

theorem Stable.invariant {P : Proc → Prop} (hP : Stable W P) : Invariant W P :=
  ⟨hP.keeps, fun path _ h => loadImage_inv hP maxImages path h⟩

theorem loadDependencyImage_inv {P : Proc → Prop} (hP : Invariant W P) (dep : CStr) (h : P st) :
    P (loadDependencyImage W dep st).2 := loadDependency_inv hP.load dep h

/-! ## The table only grows -/

/-- Every later table starts with the earlier one. -/
def Grows (st st' : Proc) : Prop := st.images <+: st'.images

theorem Grows.refl (st : Proc) : Grows st st := List.prefix_rfl

theorem Grows.get {st' : Proc} (h : Grows st st') (hi : st.images[i]? = some img) : st'.images[i]? = some img := by
  obtain ⟨t, ht⟩ := h
  rw [← ht, List.getElem?_append_left (List.getElem?_eq_some_iff.mp hi).1, hi]

theorem Grows.get_old {st' : Proc} (h : Grows st st') (hi : i < st.images.length)
    (himg : st'.images[i]? = some img) : st.images[i]? = some img := by
  rw [← himg, h.get (List.getElem?_eq_getElem hi), List.getElem?_eq_getElem hi]

theorem stable_grows (W : World) (st0 : Proc) : Stable W (Grows st0) where
  keeps _ _ hk h := by unfold Grows; rw [hk.images]; exact h
  register _ _ _ h := List.IsPrefix.trans h (List.prefix_append _ _)

theorem loadImage_grows (W : World) (n : Nat) (path : CStr) (st : Proc) : Grows st (loadImage W n path st).2 :=
  loadImage_inv (stable_grows W st) n path (Grows.refl st)

/-- No two images share a base name, and the table fits. -/
structure TableInv (st : Proc) : Prop where
  distinct : st.images.Pairwise fun a b => basename a.path ≠ basename b.path
  length_le : st.images.length ≤ maxImages

theorem findAlreadyLoaded_none (h : findAlreadyLoaded images path = none) :
    ∀ img ∈ images, basename img.path ≠ basename path := by
  intro img himg heq
  have := List.findIdx?_eq_none_iff.mp h img himg
  simp [heq] at this

theorem stable_tableInv (W : World) : Stable W TableInv where
  keeps _ _ hk h := ⟨hk.images ▸ h.distinct, hk.images ▸ h.length_le⟩
  register st img hf h := by
    refine ⟨?_, ?_⟩
    · refine List.pairwise_append.mpr ⟨h.distinct, List.pairwise_singleton _ _, ?_⟩
      intro a ha b hb
      rw [List.mem_singleton.mp hb]
      exact findAlreadyLoaded_none hf.new a ha
    · show (st.images ++ [img]).length ≤ maxImages
      have := hf.room
      simp
      omega

/-! ## Levels -/

section Levels

variable {go go' : CStr → Proc → Option Nat × Proc} {k : Nat}

theorem loadAll_congr (h : ∀ path st, k ≤ st.images.length → go path st = go' path st)
    (hgrow : ∀ path st, st.images.length ≤ (go path st).2.images.length) : ∀ (deps : List CStr) {st : Proc},
    k ≤ st.images.length → loadAll go deps st = loadAll go' deps st := by
  intro deps
  induction deps with
  | nil => intros; rfl
  | cons dep deps ih =>
    intro st hk
    have hdep : loadDependency go dep st = loadDependency go' dep st := by
      unfold loadDependency
      rw [h dep st hk]
    have hle : k ≤ (loadDependency go dep st).2.images.length :=
      loadDependency_inv (P := fun st => k ≤ st.images.length) (fun path st hst => Nat.le_trans hst (hgrow path st)) dep hk
    show loadAll go deps (loadDependency go dep st).2 = loadAll go' deps (loadDependency go' dep st).2
    rw [ih hle, hdep]

/-- The loader calls itself only with one more image in the table. -/
theorem loadStep_congr (h : ∀ path st', st.images.length + 1 ≤ st'.images.length → go path st' = go' path st')
    (hgrow : ∀ path st, st.images.length ≤ (go path st).2.images.length) :
    loadStep go W path st = loadStep go' W path st := by
  obtain ⟨hk, -⟩ := obtainImage_spec W path st
  unfold loadStep
  split
  · rfl
  · split
    · rfl
    · split
      · rfl
      · rename_i img isFile st1 heq
        rw [heq] at hk
        rw [loadAll_congr h hgrow]
        show st.images.length + 1 ≤ (st1.images ++ [img]).length
        rw [hk.images]
        simp

end Levels

theorem loadImage_length_le (W : World) (n : Nat) (path : CStr) (st : Proc) :
    st.images.length ≤ (loadImage W n path st).2.images.length :=
  List.IsPrefix.length_le (loadImage_grows W n path st)

/-- A level for every free place of the table is enough. -/
theorem loadImage_fuel (W : World) : ∀ (n : Nat) (path : CStr) {st : Proc}, maxImages ≤ st.images.length + n →
    loadImage W (n + 1) path st = loadImage W n path st := by
  intro n
  induction n with
  | zero =>
    intro path st hfull
    -- a full table: neither side gets as far as a dependency
    show loadStep (loadImage W 0) W path st = loadStep (fun _ st => (none, st)) W path st
    unfold loadStep
    rw [if_pos (by omega), if_pos (by omega)]
  | succ n ih =>
    intro path st hfull
    refine loadStep_congr (fun path st' hlt => ih path ?_) (loadImage_length_le W (n + 1))
    omega

/-- `loadImage` satisfies the recursion the source writes. -/
theorem loadImage_eq (W : World) (path : CStr) (st : Proc) :
    loadImage W maxImages path st = loadStep (loadImage W maxImages) W path st :=
  (loadImage_fuel W maxImages path (Nat.le_add_left _ _)).symm

/-! ## What a load returns -/

theorem findAlreadyLoaded_some
    (h : findAlreadyLoaded images path = some i) : ∃ img, images[i]? = some img ∧ basename img.path = basename path := by
  obtain ⟨hlt, hp, -⟩ := List.findIdx?_eq_some_iff_getElem.mp h
  refine ⟨images[i], List.getElem?_eq_getElem hlt, ?_⟩
  rcases Bool.or_eq_true _ _ ▸ hp with h | h
  · rw [beq_iff_eq.mp h]
  · exact beq_iff_eq.mp h

theorem findLoadedImageByPath_some
    (h : findLoadedImageByPath images path = some i) : ∃ img, images[i]? = some img ∧ basename img.path = basename path := by
  unfold findLoadedImageByPath at h
  split at h
  · rename_i j hj
    cases h
    obtain ⟨hlt, hp, -⟩ := List.findIdx?_eq_some_iff_getElem.mp hj
    exact ⟨_, List.getElem?_eq_getElem hlt, by rw [beq_iff_eq.mp hp]⟩
  · obtain ⟨hlt, hp, -⟩ := List.findIdx?_eq_some_iff_getElem.mp h
    exact ⟨_, List.getElem?_eq_getElem hlt, beq_iff_eq.mp hp⟩

/-- A load that returns an image returns one of that base name, now in the table; one
    that returns none found the table full or could not obtain the image. -/
theorem loadImage_registers (W : World) (path : CStr) (st : Proc) :
    match loadImage W maxImages path st with
    | (some i, st') => ∃ img, st'.images[i]? = some img ∧ basename img.path = basename path
    | (none, _) => findAlreadyLoaded st.images path = none ∧
        (maxImages ≤ st.images.length ∨ (obtainImage W path st).1 = none) := by
  obtain ⟨hk, hpath⟩ := obtainImage_spec W path st
  rw [loadImage_eq]
  unfold loadStep
  rcases hal : findAlreadyLoaded st.images path with _ | i
  · by_cases hfull : maxImages ≤ st.images.length
    · simp only [if_pos hfull]
      exact ⟨trivial, .inl hfull⟩
    · simp only [if_neg hfull]
      rcases hob : obtainImage W path st with ⟨_ | ⟨img, isFile⟩, st1⟩
      · exact ⟨trivial, .inr rfl⟩
      · rw [hob] at hk hpath
        have hget : (st1.register img).images[st1.images.length]? = some img := by simp [Proc.register]
        refine ⟨img, ?_, congrArg basename (hpath img isFile rfl)⟩
        split
        · refine Grows.get ?_ hget
          exact loadAll_inv (stable_grows W _).invariant.load _ (Grows.refl _)
        · exact hget
  · exact findAlreadyLoaded_some hal

end Panthera.Dyld
