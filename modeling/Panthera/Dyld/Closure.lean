/-
  Panthera.Dyld.Closure — which dylibs are registered when the initializer phase begins.

  Loading an image from a file loads its dependencies; an image taken from the cache is
  registered alone, and what it needs is loaded when a bind asks for it. The table finds
  an image by its base name, so a dylib counts as registered when an image of its base
  name is.

  Main result: `closure_registered`.
-/

import Panthera.Dyld.Start

namespace Panthera.Dyld

open MachO Lib.Bytes Lib.Run

/-! ## What there is to load -/

/-- Whenever it is asked for, the loader gets hold of the image. -/
def Available (W : World) (path : CStr) : Prop := ∀ st, (obtainImage W path st).1 ≠ none

/-- What is in the cache or can be opened has base names among `names`. -/
def NamedAmong (W : World) (names : List CStr) : Prop :=
  ∀ path, (findDylibInCache W.cache path).isSome ∨ (W.openFile path).isSome → basename path ∈ names

def Registered (st : Proc) (path : CStr) : Prop := ∃ img ∈ st.images, basename img.path = basename path

/-- The dependencies of the image that can be obtained are registered. -/
def Met (W : World) (st : Proc) (img : LoadedImage) : Prop :=
  ∀ dep ∈ dependencies img.commands, Available W dep → Registered st dep

variable {st st' : Proc} {path : CStr} {W : World} {img : LoadedImage} {names : List CStr}

theorem Registered.mono (h : Grows st st') (hr : Registered st path) : Registered st' path := by
  obtain ⟨img, himg, hb⟩ := hr
  exact ⟨img, h.subset himg, hb⟩

theorem Met.mono (h : Grows st st') (hm : Met W st img) : Met W st' img :=
  fun dep hdep ha => (hm dep hdep ha).mono h

/-- An image comes from the cache or from a file; one that the cache does not know comes
    from a file. -/
theorem obtainImage_source {isFile : Bool} (h : (obtainImage W path st).1 = some (img, isFile)) :
    ((findDylibInCache W.cache path).isSome ∨ (W.openFile path).isSome) ∧
      (findDylibInCache W.cache path = none → isFile = true) := by
  unfold obtainImage at h
  rcases hc : fromCache W path st with ⟨_ | img', st1⟩ <;> rw [hc] at h
  · rcases hf : W.openFile path with _ | f
    · simp [hf] at h
    · refine ⟨.inr rfl, fun _ => ?_⟩
      rcases hr : fromFile W f path st1 with ⟨_ | img', st2⟩ <;> simp [hf, hr] at h
      exact h.2
  · have hsome : (findDylibInCache W.cache path).isSome := by
      rcases hd : findDylibInCache W.cache path with _ | ci
      · simp [fromCache, hd] at hc
      · rfl
    refine ⟨.inl hsome, fun hnone => ?_⟩
    rw [hnone] at hsome
    cases hsome

/-! ## Room in the table -/

/-- The images after the main executable have their base names among `names`. -/
structure Named (names : List CStr) (st : Proc) : Prop where
  table : TableInv st
  named : ∀ i img, 0 < i → st.images[i]? = some img → basename img.path ∈ names

theorem register_get {x : LoadedImage} {i : Nat} (h : (st.register img).images[i]? = some x) :
    st.images[i]? = some x ∨ i = st.images.length ∧ x = img := by
  by_cases hlt : i < st.images.length
  · rw [Proc.register, List.getElem?_append_left hlt] at h
    exact .inl h
  · rw [Proc.register, List.getElem?_append_right (Nat.le_of_not_lt hlt)] at h
    obtain ⟨hi, rfl⟩ := List.getElem?_eq_some_iff.mp h
    simp only [List.length_singleton] at hi
    exact .inr ⟨by omega, by simp⟩

theorem stable_named (hW : NamedAmong W names) : Stable W (Named names) where
  keeps st st' hk h := ⟨(stable_tableInv W).keeps st st' hk h.table, hk.images ▸ h.named⟩
  register st img hf h := by
    refine ⟨(stable_tableInv W).register st img hf h.table, fun i x hi hx => ?_⟩
    rcases register_get hx with hx | ⟨-, rfl⟩
    · exact h.named i x hi hx
    · obtain ⟨st0, isFile, hob⟩ := hf.obtained
      exact hW _ (obtainImage_source hob).1

/-- A base name that is about and not in the table finds room in it. -/
theorem Named.room (hn : names.length < maxImages) (h : Named names st)
    (hp : basename path ∈ names) (hnew : findAlreadyLoaded st.images path = none) : st.images.length < maxImages := by
  rcases himgs : st.images with _ | ⟨main, rest⟩
  · decide
  · have hdistinct := himgs ▸ h.table.distinct
    have hnodup : (basename path :: rest.map fun img => basename img.path).Nodup := by
      refine List.nodup_cons.mpr ⟨fun hm => ?_, ?_⟩
      · obtain ⟨img, himg, hb⟩ := List.mem_map.mp hm
        exact findAlreadyLoaded_none hnew img (himgs ▸ List.mem_cons_of_mem _ himg) hb
      · exact List.pairwise_map.mpr (List.pairwise_cons.mp hdistinct).2
    have hsub : (basename path :: rest.map fun img => basename img.path) ⊆ names := by
      intro n hin
      rcases List.mem_cons.mp hin with rfl | hin
      · exact hp
      · obtain ⟨img, himg, rfl⟩ := List.mem_map.mp hin
        obtain ⟨k, hk⟩ := List.getElem?_of_mem himg
        exact h.named (k + 1) img (Nat.succ_pos k) (by rw [himgs]; exact hk)
    have hle := (hnodup.subperm hsub).length_le
    simp only [List.length_cons, List.length_map] at hle ⊢
    omega

/-! ## A load brings in what its images need -/

/-- Of the images added, those outside the cache have their dependencies met. -/
structure Adds (W : World) (st st' : Proc) : Prop where
  grows : Grows st st'
  met : ∀ i img, st.images.length ≤ i → st'.images[i]? = some img → findDylibInCache W.cache img.path = none →
    Met W st' img

theorem Adds.of_images (h : st'.images = st.images) : Adds W st st' where
  grows := by unfold Grows; rw [h]
  met i img hi himg := by
    rw [h, List.getElem?_eq_none hi] at himg
    cases himg

theorem Adds.trans {a b c : Proc} (h1 : Adds W a b) (h2 : Adds W b c) : Adds W a c where
  grows := h1.grows.trans h2.grows
  met i img hi himg hc := by
    by_cases hlt : i < b.images.length
    · exact (h1.met i img hi (h2.grows.get_old hlt himg) hc).mono h2.grows
    · exact h2.met i img (Nat.le_of_not_lt hlt) himg hc

/-- A newly registered image whose own dependencies end up met. -/
theorem Adds.register (h : Adds W (st.register img) st')
    (hm : findDylibInCache W.cache img.path = none → Met W st' img) : Adds W st st' where
  grows := (List.prefix_append _ _).trans h.grows
  met i x hi hx hc := by
    have hnew : (st.register img).images[st.images.length]? = some img := by simp [Proc.register]
    by_cases he : i = st.images.length
    · subst he
      rw [h.grows.get hnew] at hx
      cases hx
      exact hm hc
    · refine h.met i x ?_ hx hc
      simp only [Proc.register, List.length_append, List.length_singleton]
      omega

theorem registered_of_findLoaded {i : Nat} (h : findLoadedImageByPath st.images path = some i) : Registered st path := by
  obtain ⟨img, himg, hb⟩ := findLoadedImageByPath_some h
  exact ⟨img, List.mem_of_getElem? himg, hb⟩

theorem registered_of_findAlready {i : Nat} (h : findAlreadyLoaded st.images path = some i) : Registered st path := by
  obtain ⟨img, himg, hb⟩ := findAlreadyLoaded_some h
  exact ⟨img, List.mem_of_getElem? himg, hb⟩

section Loads

variable {W : World} {names : List CStr} (hW : NamedAmong W names) (hn : names.length < maxImages)

/-- What a loader does to a table with at most `n` free places: it brings in what is
    asked for, and what the new images need. -/
def Loads (W : World) (names : List CStr) (n : Nat) (go : CStr → Proc → Option Nat × Proc) : Prop :=
  ∀ path st, Named names st → maxImages ≤ st.images.length + n →
    Named names (go path st).2 ∧ Adds W st (go path st).2 ∧ (Available W path → Registered (go path st).2 path)

variable {go : CStr → Proc → Option Nat × Proc}

theorem loadAll_adds {n : Nat} (hgo : Loads W names n go) :
    ∀ (deps : List CStr) {st : Proc}, Named names st → maxImages ≤ st.images.length + n →
      Adds W st (loadAll go deps st) ∧ ∀ dep ∈ deps, Available W dep → Registered (loadAll go deps st) dep := by
  intro deps
  induction deps with
  | nil => intro st _ _; exact ⟨.of_images rfl, by simp⟩
  | cons dep deps ih =>
    intro st h hfull
    obtain ⟨h1, hadds, hreg⟩ : Named names (loadDependency go dep st).2 ∧ Adds W st (loadDependency go dep st).2 ∧
        (Available W dep → Registered (loadDependency go dep st).2 dep) := by
      unfold loadDependency
      split
      · rename_i i hi
        exact ⟨h, .of_images rfl, fun _ => registered_of_findLoaded hi⟩
      · exact hgo dep st h hfull
    obtain ⟨hadds', hreg'⟩ := ih h1 (Nat.le_trans hfull (Nat.add_le_add_right hadds.grows.length_le n))
    refine ⟨hadds.trans hadds', fun d hd ha => ?_⟩
    rcases List.mem_cons.mp hd with rfl | hd
    · exact (hreg ha).mono hadds'.grows
    · exact hreg' d hd ha

include hW hn

omit hW in
/-- A dylib that can be obtained is in the table, or there is room for it. -/
theorem available_room (hW : NamedAmong W names) (ha : Available W path) (h : Named names st)
    (hnew : findAlreadyLoaded st.images path = none) : st.images.length < maxImages := by
  rcases hob : (obtainImage W path st).1 with _ | ⟨img, isFile⟩
  · exact absurd hob (ha st)
  · exact h.room hn (hW path (obtainImage_source hob).1) hnew

theorem loadStep_loads {n : Nat}
    (hgo : Loads W names n go) (hgrow : ∀ path st, Named names st → Named names (go path st).2) :
    Loads W names (n + 1) (loadStep go W) := by
  intro path st h hfull
  refine ⟨loadStep_inv (stable_named hW) hgrow path h, ?_⟩
  obtain ⟨hk, hpath⟩ := obtainImage_spec W path st
  unfold loadStep
  rcases hal : findAlreadyLoaded st.images path with _ | i
  · by_cases hroom : maxImages ≤ st.images.length
    · simp only [if_pos hroom]
      refine ⟨.of_images rfl, fun ha => ?_⟩
      exact absurd (available_room hn hW ha h hal) (Nat.not_lt.mpr hroom)
    · simp only [if_neg hroom]
      rcases hob : obtainImage W path st with ⟨_ | ⟨img, isFile⟩, st1⟩ <;> rw [hob] at hk hpath <;> dsimp only at hk hpath
      · refine ⟨.of_images hk.images, fun ha => absurd ?_ (ha st)⟩
        rw [hob]
      · have hnamed := (stable_named hW).register st1 img (fresh_of_obtained hob hal hroom)
          ((stable_named hW).keeps st st1 hk h)
        have hself : Registered (st1.register img) path :=
          ⟨img, by simp [Proc.register], congrArg basename (hpath img isFile rfl)⟩
        have hsource := (obtainImage_source (congrArg Prod.fst hob)).2
        have hst : Adds W st st1 := .of_images hk.images
        cases isFile with
        | false =>
          refine ⟨hst.trans ((Adds.of_images rfl).register fun hc => ?_), fun _ => hself⟩
          rw [hpath img false rfl] at hc
          cases hsource hc
        | true =>
          obtain ⟨hadds, hreg⟩ := loadAll_adds hgo (dependencies img.commands) hnamed (by
            simp only [Proc.register, List.length_append, List.length_singleton, hk.images]
            omega)
          exact ⟨hst.trans (hadds.register fun _ => hreg), fun _ => hself.mono hadds.grows⟩
  · exact ⟨.of_images rfl, fun _ => registered_of_findAlready hal⟩

theorem loadImage_loads : ∀ n, Loads W names n (loadImage W n) := by
  intro n
  induction n with
  | zero =>
    intro path st h hfull
    refine ⟨loadImage_inv (stable_named hW) 0 path h, ?_⟩
    show Adds W st (loadStep _ W path st).2 ∧ (Available W path → Registered (loadStep _ W path st).2 path)
    unfold loadStep
    rcases hal : findAlreadyLoaded st.images path with _ | i
    · simp only [if_pos (show maxImages ≤ st.images.length by omega)]
      exact ⟨.of_images rfl, fun ha => absurd (available_room hn hW ha h hal) (by omega)⟩
    · exact ⟨.of_images rfl, fun _ => registered_of_findAlready hal⟩
  | succ n ih => exact loadStep_loads hW hn ih fun path _ h => loadImage_inv (stable_named hW) n path h

end Loads

/-! ## The whole run -/

/-- The main executable, and the images outside the cache, have their dependencies met. -/
structure Supplied (W : World) (names : List CStr) (st : Proc) : Prop where
  named : Named names st
  started : 0 < st.images.length
  met : ∀ i img, st.images[i]? = some img → i = 0 ∨ findDylibInCache W.cache img.path = none → Met W st img

theorem Supplied.adds (h : Supplied W names st) (hnamed : Named names st') (hadds : Adds W st st') : Supplied W names st' := by
  refine ⟨hnamed, Nat.lt_of_lt_of_le h.started hadds.grows.length_le, fun i img himg hi => ?_⟩
  by_cases hlt : i < st.images.length
  · exact (h.met i img (hadds.grows.get_old hlt himg) hi).mono hadds.grows
  · have := h.started
    exact hadds.met i img (Nat.le_of_not_lt hlt) himg (hi.resolve_left (by omega))

section Run

variable {W : World} {names : List CStr} (hW : NamedAmong W names) (hn : names.length < maxImages)
include hW hn

theorem invariant_supplied : Invariant W (Supplied W names) where
  keeps st st' hk h := h.adds ((stable_named hW).keeps st st' hk h.named) (.of_images hk.images)
  load path st h := by
    obtain ⟨hnamed, hadds, -⟩ := loadImage_loads hW hn maxImages path st h.named (Nat.le_add_left _ _)
    exact h.adds hnamed hadds

theorem loadMain_supplied (L : Launch) : Sound (Supplied W names) (loadMain W L) := by
  have hmain : Named names (registerMain L) := by
    refine ⟨(registerMain_fixing L).table, fun i img hi himg => ?_⟩
    obtain ⟨hlt, -⟩ := List.getElem?_eq_some_iff.mp himg
    have hone : (registerMain L).images.length = 1 := rfl
    omega
  unfold loadMain
  split
  · exact .none
  · obtain ⟨hadds, hreg⟩ := loadAll_adds (loadImage_loads hW hn maxImages) (dependencies L.commands) hmain
      (Nat.le_add_left _ _)
    refine .some ⟨loadAll_inv (stable_named hW).invariant.load _ hmain,
      Nat.lt_of_lt_of_le Nat.zero_lt_one hadds.grows.length_le, fun i img himg hi => ?_⟩
    by_cases h0 : i = 0
    · rw [h0, hadds.grows.get (show (registerMain L).images[0]? = some L.image from rfl)] at himg
      cases himg
      exact hreg
    · exact hadds.met i img (Nat.one_le_iff_ne_zero.mpr h0) himg (hi.resolve_left h0)

theorem prepared_supplied (L : Launch) : Sound (Supplied W names) (prepared W L) := by
  have hlog : ∀ st e, Supplied W names st → Supplied W names (st.log e) := fun st e h =>
    h.adds ⟨⟨h.named.table.distinct, h.named.table.length_le⟩, h.named.named⟩ (.of_images rfl)
  intro st h
  obtain ⟨st1, h1, rfl⟩ := Option.map_eq_some_iff.mp h
  have hfixed : Sound (Supplied W names) (fixedUp W L) :=
    (loadMain_supplied hW hn L).bind fun _ h => fixupLoop_inv (invariant_supplied hW hn).fixable hlog maxImages 0 h
  exact (invariant_supplied hW hn).keeps _ _ (seedRuntime_keeps (Keeps.refl st1)) (hfixed st1 h1)

end Run

/-- What the main executable needs: its own dependencies, and those of the registered
    images it needs that are not in the cache. -/
inductive Needed (W : World) (images : List LoadedImage) : CStr → Prop
  | main {img : LoadedImage} {dep : CStr} : images[0]? = some img → dep ∈ dependencies img.commands → Needed W images dep
  | through {path dep : CStr} {img : LoadedImage} : Needed W images path → img ∈ images → basename img.path = basename path →
      findDylibInCache W.cache img.path = none → dep ∈ dependencies img.commands → Needed W images dep

/-- When the initializer phase begins, every dylib that the main executable needs and
    that can be obtained is registered. -/
theorem closure_registered {W : World} {names : List CStr} (hW : NamedAmong W names) (hn : names.length ≤ 63) (L : Launch)
    {st : Proc} (h : prepared W L = some st) {path : CStr} (hneed : Needed W st.images path) (ha : Available W path) :
    ∃ img ∈ st.images, basename img.path = basename path := by
  have hsup := prepared_supplied hW (Nat.lt_succ_of_le hn) L st h
  cases hneed with
  | main himg hdep => exact hsup.met 0 _ himg (.inl rfl) path hdep ha
  | through _ himg _ hc hdep =>
    obtain ⟨i, hi⟩ := List.getElem?_of_mem himg
    exact hsup.met i _ hi (.inr hc) path hdep ha

/-! ## The sample program -/

def sampleNames : List CStr := [libA, libB, libC, libD, libSystemPath].map basename

theorem sample_namedAmong : NamedAmong sampleWorld sampleNames := by
  intro path h
  rcases h with h | h
  · obtain ⟨ci, hci⟩ := Option.isSome_iff_exists.mp h
    rw [findDylibInCache, if_pos (show sampleWorld.cache.valid = true from rfl)] at hci
    have hmem : ci ∈ sampleCache.images := List.mem_of_find?_eq_some hci
    have hall : ∀ ci ∈ sampleCache.images, basename ci.path ∈ sampleNames := by decide
    have hmatch := List.find?_some hci
    simp only [Bool.and_eq_true, Bool.or_eq_true, beq_iff_eq] at hmatch
    rcases hmatch.1 with hp | hb
    · exact hp ▸ hall ci hmem
    · exact hb ▸ hall ci hmem
  · simp only [sampleWorld] at h
    split at h
    · rename_i hp
      rw [hp]
      decide
    · split at h
      · rename_i hp
        rw [hp]
        decide
      · split at h
        · rename_i hp
          rw [hp]
          decide
        · cases h

/-- An image of the split cache can always be obtained. -/
theorem available_of_split (ci : CacheImage) (hc : findDylibInCache W.cache path = some ci)
    (hm : ci.magic = mhMagic64) (hsplit : W.cache.splitRegion = true) (hpre : W.cache.preResolved = true) :
    Available W path := by
  intro st
  have hcache : (fromCache W path st).1 = some (.ofHeader W.cache (ci.address + W.cache.slide) W.cache.slide path ci.commands) := by
    simp [fromCache, useCached, hc, hm, hsplit, hpre]
  unfold obtainImage
  rcases hr : fromCache W path st with ⟨_ | img, st1⟩
  · rw [hr] at hcache
    cases hcache
  · simp

/-- `libB` is needed through the file `libA`. -/
theorem closure_registered_sample : ∃ st, prepared sampleWorld sampleLaunch = some st ∧
    ∃ img ∈ st.images, basename img.path = basename libB := by
  have hst : (prepared sampleWorld sampleLaunch).map (fun st =>
      (st.images[0]?.map (dependencies ·.commands), st.images[1]?.map fun img => (img.path, dependencies img.commands))) =
      some (some [libA, libSystemPath, libB], some (libA, [libB])) := by decide +kernel
  obtain ⟨st, hst, hfacts⟩ := Option.map_eq_some_iff.mp hst
  simp only [Prod.mk.injEq] at hfacts
  obtain ⟨main, hmain, hdeps⟩ := Option.map_eq_some_iff.mp hfacts.1
  obtain ⟨img, himg, hlib⟩ := Option.map_eq_some_iff.mp hfacts.2
  simp only [Prod.mk.injEq] at hlib
  have hA : Needed sampleWorld st.images libA := .main hmain (by rw [hdeps]; exact List.mem_cons_self)
  have hB : Needed sampleWorld st.images libB :=
    .through hA (List.mem_of_getElem? himg) (by rw [hlib.1]) (by rw [hlib.1]; decide)
      (by rw [hlib.2]; exact List.mem_cons_self)
  refine ⟨st, hst, closure_registered sample_namedAmong (by decide) sampleLaunch hst hB ?_⟩
  exact available_of_split (sampleCache.images.get ⟨0, by decide⟩) (by decide) rfl rfl rfl

/-- The load commands of the dylib of that path, cached or on disk. -/
def commandsOf (W : World) (path : CStr) : Option (List LoadCommand) :=
  match findDylibInCache W.cache path with
  | some ci => some ci.commands
  | none => (W.openFile path).map (·.commands)

/-- The transitive closure of the main executable. -/
inductive DependsOn (W : World) (L : Launch) : CStr → Prop
  | main {dep : CStr} : dep ∈ dependencies L.commands → DependsOn W L dep
  | through {path dep : CStr} {cmds : List LoadCommand} : DependsOn W L path → commandsOf W path = some cmds →
      dep ∈ dependencies cmds → DependsOn W L dep

def ClosureRegistered (W : World) (L : Launch) : Prop :=
  ∀ st, prepared W L = some st → ∀ path, DependsOn W L path → Available W path → Registered st path

/-- `libB` comes from the cache, and `libC`, which it links against, is never asked for. -/
theorem cached_dependency_missing : NamedAmong sampleWorld sampleNames ∧ sampleNames.length ≤ 63 ∧
    ¬ ClosureRegistered sampleWorld sampleLaunch := by
  refine ⟨sample_namedAmong, by decide, fun h => ?_⟩
  have hst : (prepared sampleWorld sampleLaunch).map (fun st => st.images.all fun img => basename img.path != basename libC) =
      some true := by decide +kernel
  obtain ⟨st, hst, hmissing⟩ := Option.map_eq_some_iff.mp hst
  have hB : DependsOn sampleWorld sampleLaunch libB := .main (by decide)
  have hcmds : commandsOf sampleWorld libB = some (sampleCache.images.get ⟨0, by decide⟩).commands := by decide
  have hC : DependsOn sampleWorld sampleLaunch libC := .through hB hcmds (by decide)
  obtain ⟨img, himg, hb⟩ := h st hst libC hC
    (available_of_split (sampleCache.images.get ⟨1, by decide⟩) (by decide) rfl rfl rfl)
  have hne := List.all_eq_true.mp hmissing img himg
  simp [hb] at hne

end Panthera.Dyld
