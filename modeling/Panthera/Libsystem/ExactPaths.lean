/-
  Panthera.Libsystem.ExactPaths — which image a path names, where the tables also have
  images of the same base name.

  Four searches answer a path. dyld looks through its table twice, by the path and then by
  the base name (`findLoadedImageByPath`); it looks through the shared cache once, and the
  first entry of that base name is taken (`findDylibInCache`). `dlopen` looks through the
  opened bundles and then the bridge table, once each, and takes the first entry of that
  base name (`panthera_find_dlopen_bundle`, `panthera_find_bridge_image_by_path`).

  So the searches do not always give an image whose path is asked for exactly
  (`exact_path_iff`).
-/

import Panthera.Dyld.Load
import Panthera.Libsystem.Dlopen

namespace Panthera.Libsystem.ExactPaths

open MachO Dyld

/-! ## dyld -/

section Loader

variable {W : World} {path : CStr} {st : Proc}

theorem fromCache_eq (W : World) (path : CStr) (st : Proc) :
    fromCache W path st = ((findDylibInCache W.cache path).map fun ci => useCached W path ci st).getD (none, st) := by
  unfold fromCache
  cases findDylibInCache W.cache path <;> rfl

/-- The load answered with the image of that entry, put in the table under the path. -/
def Returns (W : World) (path : CStr) (st : Proc) (ci : CacheImage) : Prop :=
  ∃ img st1, useCached W path ci st = (some img, st1) ∧
    loadDependencyImage W path st = (some st.images.length, st1.register img)

def NoneRegistered (st : Proc) (path : CStr) : Prop := ∀ img ∈ st.images, basename img.path ≠ basename path

def InCache (C : SharedCache) (path : CStr) : Prop := C.valid = true ∧ ∃ ci ∈ C.images, ci.path = path

/-- An image that has the path is what `loadDependencyImage` gives: a registered one, or one
    of the cache that no registered image stands in the way of. -/
structure DyldExact (W : World) (path : CStr) (st : Proc) : Prop where
  registered : (∃ img ∈ st.images, img.path = path) →
    ∃ i img, loadDependencyImage W path st = (some i, st) ∧ st.images[i]? = some img ∧ img.path = path
  cached : NoneRegistered st path → InCache W.cache path → ∃ ci ∈ W.cache.images, ci.path = path ∧ Returns W path st ci

/-- The entry can be used: it starts with a Mach-O header and, if it is to be copied, there is
    memory for it. -/
def Usable (W : World) (st : Proc) (ci : CacheImage) : Prop :=
  ci.magic = mhMagic64 ∧ (W.cache.splitRegion ∧ W.cache.preResolved ∨ ¬ (W.mmap st.mmaps = 0 ∨ isNeg (W.mmap st.mmaps)))

/-- There is room in the table, and the first entry of that base name in the cache can be
    used and is one that has the path, or has the image of one. -/
def CachePrefers (W : World) (path : CStr) (st : Proc) : Prop :=
  st.images.length < maxImages ∧
    ∃ first, W.cache.images.find? (fun ci => basename ci.path == basename path && W.cache.inRange ci) = some first ∧
      Usable W st first ∧ ∃ ci ∈ W.cache.images, ci.path = path ∧ useCached W path ci st = useCached W path first st

theorem useCached_isSome (W : World) (path : CStr) (st : Proc) (ci : CacheImage) : (useCached W path ci st).1.isSome = true ↔ Usable W st ci := by
  unfold useCached Usable
  by_cases hm : ci.magic = mhMagic64
  · by_cases hs : W.cache.splitRegion ∧ W.cache.preResolved
    · simp [hm, hs]
    · simp only [hm, ne_eq, not_true_eq_false, if_false, hs, true_and, false_or]
      split
      next hb => exact iff_of_false (fun h => nomatch h) fun h => h hb
      next hb => exact iff_of_true rfl hb
  · simp [hm]

theorem findDylibInCache_eq (hvalid : W.cache.valid = true) : findDylibInCache W.cache path =
    W.cache.images.find? fun ci => basename ci.path == basename path && W.cache.inRange ci := by
  rw [findDylibInCache, if_pos hvalid]
  congr 1
  funext ci
  by_cases h : ci.path = path
  · simp [h]
  · rw [beq_eq_false_iff_ne.mpr h, Bool.false_or]

theorem findLoadedImageByPath_exact (h : ∃ img ∈ st.images, img.path = path) :
    ∃ i img, findLoadedImageByPath st.images path = some i ∧ st.images[i]? = some img ∧ img.path = path := by
  obtain ⟨img, himg, hpath⟩ := h
  cases hi : st.images.findIdx? (·.path == path) with
  | none => exact absurd (List.findIdx?_eq_none_iff.mp hi img himg) (by simp [hpath])
  | some i =>
    obtain ⟨hlt, hp, -⟩ := List.findIdx?_eq_some_iff_getElem.mp hi
    refine ⟨i, st.images[i], ?_, List.getElem?_eq_getElem hlt, beq_iff_eq.mp hp⟩
    rw [findLoadedImageByPath, hi]

theorem loadDependencyImage_of_none (h : NoneRegistered st path) :
    loadDependencyImage W path st = if maxImages ≤ st.images.length then (none, st)
      else match obtainImage W path st with
        | (none, st) => (none, st)
        | (some (img, isFile), st) =>
          (some st.images.length,
            if isFile then loadAll (loadImage W maxImages) (dependencies img.commands) (st.register img) else st.register img) := by
  have hfull : st.images.findIdx? (·.path == path) = none :=
    List.findIdx?_eq_none_iff.mpr fun img himg => by
      simpa using fun he : img.path = path => h img himg (congrArg basename he)
  have hbase : st.images.findIdx? (fun img => basename img.path == basename path) = none :=
    List.findIdx?_eq_none_iff.mpr fun img himg => by simpa using h img himg
  have halready : findAlreadyLoaded st.images path = none :=
    List.findIdx?_eq_none_iff.mpr fun img himg => by
      simpa using ⟨fun he : img.path = path => h img himg (congrArg basename he), h img himg⟩
  have hfind : findLoadedImageByPath st.images path = none := by rw [findLoadedImageByPath, hfull, hbase]
  rw [loadDependencyImage, loadDependency, hfind]
  show loadImage W maxImages path st = _
  rw [loadImage_eq, loadStep]
  cases hfound : findAlreadyLoaded st.images path with
  | none => rfl
  | some i =>
    rw [halready] at hfound
    cases hfound

/-! A mapping counts: an image of the cache takes at most one, an image of a file two. -/

theorem useCached_mmaps (W : World) (path : CStr) (st : Proc) (ci : CacheImage) :
    st.mmaps ≤ (useCached W path ci st).2.mmaps ∧ (useCached W path ci st).2.mmaps ≤ st.mmaps + 1 := by
  unfold useCached
  split
  · exact ⟨Nat.le_refl _, Nat.le_succ _⟩
  split
  · exact ⟨Nat.le_refl _, Nat.le_succ _⟩
  dsimp only
  split
  · exact ⟨Nat.le_succ _, Nat.le_refl _⟩
  · exact ⟨Nat.le_succ _, Nat.le_refl _⟩

theorem fromCache_mmaps (W : World) (path : CStr) (st : Proc) : st.mmaps ≤ (fromCache W path st).2.mmaps := by
  rw [fromCache_eq]
  cases findDylibInCache W.cache path with
  | none => exact Nat.le_refl _
  | some ci => exact (useCached_mmaps W path st ci).1

/-- With `n` mappings before, an image has taken two more. -/
structure MapsTwo (n : Nat) (r : Option LoadedImage × Proc) : Prop where
  le : n ≤ r.2.mmaps
  two : r.1.isSome = true → n + 2 ≤ r.2.mmaps

theorem MapsTwo.check {n : Nat} {c : Prop} [Decidable c] {st' : Proc} {r : Option LoadedImage × Proc} (h : n ≤ st'.mmaps)
    (hr : MapsTwo n r) : MapsTwo n (if c then (none, st') else r) := by
  split
  · exact ⟨h, fun h => nomatch h⟩
  · exact hr

theorem fromFile_mmaps (W : World) (f : Dyld.File) (path : CStr) (st : Proc) : MapsTwo st.mmaps (fromFile W f path st) := by
  have h1 : st.mmaps ≤ st.mmaps + 1 := Nat.le_succ _
  have h2 : st.mmaps ≤ st.mmaps + 1 + 1 := by omega
  unfold fromFile
  refine .check (Nat.le_refl _) (.check h1 (.check h1 (.check h1 (.check h1 (.check h1 (.check h2 ?_))))))
  dsimp only
  split
  · exact ⟨h2, fun h => nomatch h⟩
  · exact ⟨h2, fun _ => Nat.le_refl _⟩

theorem obtainImage_mmaps (W : World) (path : CStr) (st : Proc) : st.mmaps ≤ (obtainImage W path st).2.mmaps ∧
    ∀ img, (obtainImage W path st).1 = some (img, true) → st.mmaps + 2 ≤ (obtainImage W path st).2.mmaps := by
  have hc : st.mmaps ≤ (fromCache W path st).2.mmaps := fromCache_mmaps W path st
  unfold obtainImage
  split
  next img st1 heq =>
    rw [heq] at hc
    exact ⟨hc, fun img h => by cases h⟩
  next st1 heq =>
    rw [heq] at hc
    split
    · exact ⟨hc, fun img h => nomatch h⟩
    next f _ =>
      have hf := fromFile_mmaps W f path st1
      split
      next img st2 heq2 =>
        rw [heq2] at hf
        exact ⟨hc.trans hf.le, fun _ _ => (Nat.add_le_add_right hc 2).trans (hf.two rfl)⟩
      next st2 heq2 =>
        rw [heq2] at hf
        exact ⟨hc.trans hf.le, fun img h => nomatch h⟩

/-- Mappings are never taken back. -/
def Maps (go : CStr → Proc → Option Nat × Proc) : Prop := ∀ path st, st.mmaps ≤ (go path st).2.mmaps

variable {go : CStr → Proc → Option Nat × Proc} {st1 : Proc}

theorem loadAll_mmaps (hgo : Maps go) (deps : List CStr) (st : Proc) : st.mmaps ≤ (loadAll go deps st).mmaps := by
  induction deps generalizing st with
  | nil => exact Nat.le_refl _
  | cons dep deps ih =>
    have hdep : st.mmaps ≤ (loadDependency go dep st).2.mmaps := by
      unfold loadDependency
      split
      · exact Nat.le_refl _
      · exact hgo dep st
    exact Nat.le_trans hdep (ih _)

theorem loadStep_mmaps (hgo : Maps go) : Maps (loadStep go W) := by
  intro path st
  have hob := (obtainImage_mmaps W path st).1
  unfold loadStep
  split
  · exact Nat.le_refl _
  split
  · exact Nat.le_refl _
  split
  next st1 heq =>
    rw [heq] at hob
    exact hob
  next img isFile st1 heq =>
    rw [heq] at hob
    cases isFile with
    | false => exact hob
    | true => exact Nat.le_trans hob (loadAll_mmaps hgo _ (st1.register img))

theorem loadImage_mmaps (n : Nat) : Maps (loadImage W n) := by
  induction n with
  | zero => exact loadStep_mmaps fun _ st => Nat.le_refl _
  | succ n ih => exact loadStep_mmaps ih

theorem register_inj {st2 : Proc} {img1 img2 : LoadedImage} (h : st1.register img1 = st2.register img2) :
    img1 = img2 ∧ st1 = st2 := by
  obtain ⟨images1, index1, mem1, mmaps1, trace1⟩ := st1
  obtain ⟨images2, index2, mem2, mmaps2, trace2⟩ := st2
  simp only [Proc.register, Proc.mk.injEq] at h
  obtain ⟨himages, rfl, rfl, rfl, htrace⟩ := h
  obtain ⟨rfl, himg⟩ := List.append_inj' himages rfl
  obtain ⟨rfl, -⟩ := List.append_inj' htrace rfl
  exact ⟨List.singleton_inj.mp himg, rfl⟩

/-- An image that comes from the cache, by way of the first entry of its base name. -/
theorem obtainImage_of_cached {first : CacheImage} {img : LoadedImage}
    (hfind : findDylibInCache W.cache path = some first) (huse : useCached W path first st = (some img, st1)) :
    obtainImage W path st = (some (img, false), st1) := by
  have hc : fromCache W path st = (some img, st1) := by rw [fromCache_eq, hfind, Option.map_some, Option.getD_some, huse]
  rw [obtainImage, hc]

theorem cached_of_obtainImage {img : LoadedImage} (h : obtainImage W path st = (some (img, false), st1)) :
    ∃ first, findDylibInCache W.cache path = some first ∧ useCached W path first st = (some img, st1) := by
  have hc := fromCache_eq W path st
  unfold obtainImage at h
  split at h
  next img' st' heq =>
    cases h
    rw [heq] at hc
    cases hfind : findDylibInCache W.cache path with
    | none =>
      rw [hfind] at hc
      exact nomatch (Prod.mk.inj hc).1
    | some first =>
      rw [hfind] at hc
      exact ⟨first, rfl, hc.symm⟩
  next =>
    split at h
    · exact nomatch (Prod.mk.inj h).1
    · split at h
      · exact nomatch congrArg Prod.snd (Option.some.inj (Prod.mk.inj h).1)
      · exact nomatch (Prod.mk.inj h).1

/-- The load answers with an entry of the cache exactly if there is room and the first entry
    of that base name can be used and has the image of that one. -/
theorem returns_iff (hnone : NoneRegistered st path) (hvalid : W.cache.valid = true) {ci : CacheImage} :
    Returns W path st ci ↔ st.images.length < maxImages ∧
      ∃ first, W.cache.images.find? (fun ci => basename ci.path == basename path && W.cache.inRange ci) = some first ∧
        Usable W st first ∧ useCached W path ci st = useCached W path first st := by
  rw [← findDylibInCache_eq hvalid, Returns, loadDependencyImage_of_none hnone]
  constructor
  · rintro ⟨img, st1, huse, hload⟩
    by_cases hfull : maxImages ≤ st.images.length
    · rw [if_pos hfull] at hload
      exact nomatch (Prod.mk.inj hload).1
    rw [if_neg hfull] at hload
    refine ⟨by omega, ?_⟩
    have hone : st1.mmaps ≤ st.mmaps + 1 := by
      have h := (useCached_mmaps W path st ci).2
      rwa [huse] at h
    have hob := obtainImage_mmaps W path st
    split at hload
    next st2 heq => exact nomatch (Prod.mk.inj hload).1
    next img2 isFile st2 heq =>
      rw [heq] at hob
      have hstate := (Prod.mk.inj hload).2
      cases isFile with
      | true =>
        -- A file would have taken two mappings, and its dependencies none back.
        have hall := loadAll_mmaps (loadImage_mmaps (W := W) maxImages) (dependencies img2.commands) (st2.register img2)
        have htwo : st.mmaps + 2 ≤ st2.mmaps := hob.2 img2 rfl
        rw [if_pos rfl] at hstate
        rw [hstate] at hall
        have : st2.mmaps ≤ st1.mmaps := hall
        omega
      | false =>
        obtain ⟨rfl, rfl⟩ := register_inj hstate
        obtain ⟨first, hfind, hfirst⟩ := cached_of_obtainImage heq
        refine ⟨first, hfind, (useCached_isSome W path st first).mp (by rw [hfirst]; rfl), huse.trans hfirst.symm⟩
  · rintro ⟨hroom, first, hfind, husable, hsame⟩
    rw [if_neg (by omega)]
    have hsome := (useCached_isSome W path st first).mpr husable
    rcases huse : useCached W path first st with ⟨_ | img, st1⟩
    · rw [huse] at hsome
      cases hsome
    refine ⟨img, st1, hsame.trans huse, ?_⟩
    have himages := (useCached_obtained W path first st).keeps.images
    rw [huse] at himages
    rw [obtainImage_of_cached hfind huse]
    show (some st1.images.length, st1.register img) = _
    rw [show st1.images = st.images from himages]

theorem dyldExact_iff (W : World) (path : CStr) (st : Proc) :
    DyldExact W path st ↔ (NoneRegistered st path → InCache W.cache path → CachePrefers W path st) := by
  constructor
  · intro h hnone hcache
    obtain ⟨ci, hci, hpath, hreturns⟩ := h.cached hnone hcache
    obtain ⟨hroom, first, hfind, husable, hsame⟩ := (returns_iff hnone hcache.1).mp hreturns
    exact ⟨hroom, first, hfind, husable, ci, hci, hpath, hsame⟩
  · intro h
    constructor
    · intro hreg
      obtain ⟨i, img, hfind, hi, hpath⟩ := findLoadedImageByPath_exact hreg
      exact ⟨i, img, by rw [loadDependencyImage, loadDependency, hfind], hi, hpath⟩
    · intro hnone hcache
      obtain ⟨hroom, first, hfind, husable, ci, hci, hpath, hsame⟩ := h hnone hcache
      exact ⟨ci, hci, hpath, (returns_iff hnone hcache.1).mpr ⟨hroom, first, hfind, husable, hsame⟩⟩

end Loader

/-! ## `dlopen` -/

/-- The images that `dlopen` looks through, each with its path, in the order of the searches. -/
def opened (st : Dlopen.St) : List (CStr × UInt64) :=
  st.bundles.map (fun b => (b.path, b.header)) ++
    st.bridge.filterMap fun img => (st.deref img.path).map fun path => (path, img.header)

/-- An opened image that has the path is what `dlopen` gives a handle of. -/
def DlopenExact (sentinel : UInt64) (path : CStr) (mode : UInt32) (env : Dlopen.Env) (st : Dlopen.St) : Prop :=
  (∃ e ∈ opened st, e.1 = path) →
    ∃ e ∈ opened st, e.1 = path ∧ (Dlopen.dlopen sentinel (some path) mode env st).2 = some e.2

/-- The first image of that base name is one that has the path, or has the header of one. -/
def TablesPrefer (path : CStr) (st : Dlopen.St) : Prop :=
  ∀ first ∈ (opened st).find? fun e => basename e.1 == basename path,
    (∃ e ∈ opened st, e.1 = path) → ∃ e ∈ opened st, e.1 = path ∧ e.2 = first.2

/-- The two searches are one, through the one table after the other. -/
theorem dlopen_first {sentinel : UInt64} {path : CStr} {mode : UInt32} {env : Dlopen.Env} {st : Dlopen.St} {first : CStr × UInt64}
    (h : ((opened st).find? fun e => basename e.1 == basename path) = some first) :
    (Dlopen.dlopen sentinel (some path) mode env st).2 = some first.2 := by
  have hsame : ∀ q, Dlopen.samePath q path = (basename q == basename path) := by
    intro q
    rw [Bool.eq_iff_iff, Dlopen.samePath_iff, beq_iff_eq]
  rw [opened, List.find?_append, List.find?_map, List.find?_filterMap] at h
  unfold Dlopen.dlopen
  simp only
  cases hi : Dlopen.findDlopenBundle { st with error := none } path with
  | some i =>
    obtain ⟨hlt, hp, hbefore⟩ := List.findIdx?_eq_some_iff_getElem.mp hi
    have hfind : st.bundles.find? (fun b => basename b.path == basename path) = some st.bundles[i] := by
      refine List.find?_eq_some_iff_getElem.mpr ⟨by simpa [hsame] using hp, i, hlt, rfl, fun j hj => ?_⟩
      simpa [hsame] using hbefore j hj
    simp only [Function.comp_def, hfind, Option.map_some, Option.some_or, Option.some.injEq] at h
    have hget : st.bundles[i]? = some st.bundles[i] := List.getElem?_eq_getElem hlt
    show st.bundles[i]?.map (·.header) = _
    rw [← h, hget, Option.map_some]
  | none =>
    have hfind : st.bundles.find? (fun b => basename b.path == basename path) = none :=
      List.find?_eq_none.mpr fun b hb => by simpa [hsame] using List.findIdx?_eq_none_iff.mp hi b hb
    simp only [Function.comp_def, hfind, Option.map_none, Option.none_or, Option.any_map] at h
    obtain ⟨img, hbridge, himg⟩ := Option.bind_eq_some_iff.mp h
    obtain ⟨q, -, rfl⟩ := Option.map_eq_some_iff.mp himg
    have hfound : Dlopen.findBridgeImageByPath { st with error := none } path = some img := by
      rw [← hbridge]
      unfold Dlopen.findBridgeImageByPath
      congr 1
      funext img
      have hderef : Dlopen.St.deref { st with error := none } img.path = st.deref img.path := rfl
      rw [hderef]
      cases st.deref img.path with
      | none => rfl
      | some q => exact hsame q
    rw [hfound]

theorem dlopenExact_iff (sentinel : UInt64) (path : CStr) (mode : UInt32) (env : Dlopen.Env) (st : Dlopen.St) :
    DlopenExact sentinel path mode env st ↔ TablesPrefer path st := by
  constructor
  · intro h first hfirst hexact
    obtain ⟨e, he, hpath, hret⟩ := h hexact
    rw [dlopen_first hfirst] at hret
    exact ⟨e, he, hpath, (Option.some.inj hret).symm⟩
  · intro h hexact
    obtain ⟨e, he, hpath⟩ := hexact
    cases hfirst : (opened st).find? fun e => basename e.1 == basename path with
    | none => exact absurd (List.find?_eq_none.mp hfirst e he) (by simp [hpath])
    | some first =>
      obtain ⟨e', he', hpath', hheader⟩ := h first hfirst ⟨e, he, hpath⟩
      exact ⟨e', he', hpath', by rw [dlopen_first hfirst, hheader]⟩

/-- dyld and `dlopen` give the image that has the path exactly if no other image of its base
    name comes before it in the cache, or in the tables of `dlopen`. -/
theorem exact_path_iff (W : World) (st : Proc) (sentinel : UInt64) (mode : UInt32) (env : Dlopen.Env) (tables : Dlopen.St)
    (path : CStr) :
    (DyldExact W path st ∧ DlopenExact sentinel path mode env tables) ↔
      (NoneRegistered st path → InCache W.cache path → CachePrefers W path st) ∧ TablesPrefer path tables :=
  and_congr (dyldExact_iff W path st) (dlopenExact_iff sentinel path mode env tables)

/-- A split cache with two libraries of one name. -/
def twoLibraries : SharedCache :=
  ⟨true, true, true,
    [⟨cstr "/usr/lib/compat/libz.dylib", 0x1000, mhMagic64, [], []⟩, ⟨cstr "/usr/lib/libz.dylib", 0x2000, mhMagic64, [], []⟩],
    0x1000, 0x2000, 0, 0, 0, 0, 0⟩

/-- No file can be opened and nothing mapped. -/
def bareWorld (C : SharedCache) : World := ⟨C, fun _ => none, fun _ => 0, 0, 0⟩

def noImages : Proc := ⟨[], .empty, fun _ => 0, 0, []⟩

theorem cached_path_gives_other_image :
    InCache twoLibraries (cstr "/usr/lib/libz.dylib") ∧ NoneRegistered noImages (cstr "/usr/lib/libz.dylib") ∧
      (loadDependencyImage (bareWorld twoLibraries) (cstr "/usr/lib/libz.dylib") noImages).1 = some 0 ∧
      (loadDependencyImage (bareWorld twoLibraries) (cstr "/usr/lib/libz.dylib") noImages).2.images.map (·.header) = [0x1000] ∧
      ¬ DyldExact (bareWorld twoLibraries) (cstr "/usr/lib/libz.dylib") noImages := by
  have hfree : NoneRegistered noImages (cstr "/usr/lib/libz.dylib") := fun img himg => (nomatch himg)
  refine ⟨⟨rfl, by decide⟩, hfree, by decide, by decide, fun h => ?_⟩
  -- the entry that has the path is the second, and that is not the image registered
  obtain ⟨ci, hci, hpath, img, st1, hused, hgiven⟩ := h.cached hfree ⟨rfl, by decide⟩
  obtain rfl | rfl : ci = _ ∨ ci = _ := by simpa [bareWorld, twoLibraries] using hci
  · exact absurd hpath (by decide)
  · obtain ⟨himg, rfl⟩ := Prod.mk.inj hused
    cases himg
    have := congrArg (fun r => r.2.images.map (·.header)) hgiven
    exact absurd this (by decide)

end Panthera.Libsystem.ExactPaths
