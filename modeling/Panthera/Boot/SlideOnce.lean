/-
  Panthera.Boot.SlideOnce — how often the passes over the staged kernel slide one word
  (`panthera_loader.c`: `panthera_rebase_kernel_locals` and then
  `panthera_slide_kernel_macho_metadata`).

  The first pass slides the slot of every local relocation that it applies. The second
  slides a slot of `__DATA_CONST,__got` or `__DATA_CONST,__mod_init_func` if the word there
  is an address of the image, and does not ask whether the first has been there: a word that
  has been slid may still be one. What becomes of a slot depends on no more than the word
  in it and the number of times that it is in the two tables (`passes_slot`).

  `slots_slid_once_iff`: when no slot is slid twice.
-/

import Panthera.Lib.Slots
import Panthera.Boot.HeaderWalk

namespace Panthera.Boot

open Lib.Bytes Lib.Ranges Lib.Run Lib.Slots Lib.Wire

/-! ## One slot -/

/-- The word of a slot, and how often it has been slid. -/
structure SlotState where
  word : UInt64
  times : Nat
  deriving DecidableEq, Repr

namespace SlotState

variable (img : KernelImage) (delta : UInt64)

def slide (x : SlotState) : SlotState := ⟨x.word + delta, x.times + 1⟩

/-- The second pass comes to the slot of a section of pointers. -/
def visit (x : SlotState) : SlotState :=
  if img.lowestVmaddr ≤ x.word ∧ x.word < img.highestVmaddr then x.slide delta else x

/-- A slot that is in the table of relocations `n` times and in the sections of pointers `k` times. -/
def fate (n k : Nat) (v : UInt64) : SlotState := (visit img delta)^[k] ((slide delta)^[n] ⟨v, 0⟩)

end SlotState

/-- The word is an address of the image. -/
def InImage (img : KernelImage) (w : UInt64) : Prop := img.lowestVmaddr ≤ w ∧ w < img.highestVmaddr

instance (img : KernelImage) (w : UInt64) : Decidable (InImage img w) := inferInstanceAs (Decidable (_ ∧ _))

namespace SlotState

variable {img : KernelImage} {delta : UInt64}

theorem visit_of_inImage {x : SlotState} (h : InImage img x.word) : visit img delta x = x.slide delta := if_pos h

theorem visit_of_not_inImage {x : SlotState} (h : ¬ InImage img x.word) : visit img delta x = x := if_neg h

variable (n k : Nat) (x : SlotState) (v : UInt64)

theorem times_le_visit : x.times ≤ (visit img delta x).times := by
  unfold visit
  split
  · exact Nat.le_succ _
  · exact Nat.le_refl _

theorem times_le_iterate : x.times ≤ ((visit img delta)^[k] x).times := by
  induction k generalizing x with
  | zero => exact Nat.le_refl _
  | succ k ih => exact (times_le_visit x).trans (ih _)

theorem iterate_slide : (slide delta)^[n] x = ⟨x.word + UInt64.ofNat n * delta, x.times + n⟩ := by
  induction n generalizing x with
  | zero => simp
  | succ n ih =>
    rw [Function.iterate_succ_apply, ih, slide, UInt64.ofNat_add, UInt64.add_mul]
    congr 1
    · rw [UInt64.add_assoc, UInt64.add_comm delta]
      simp
    · dsimp only
      omega

/-- The word is what it was, plus the slide as often as the slot has been slid. -/
theorem word_eq : (fate img delta n k v).word = v + UInt64.ofNat (fate img delta n k v).times * delta := by
  have hvisit : ∀ x : SlotState, x.word = v + UInt64.ofNat x.times * delta →
      (visit img delta x).word = v + UInt64.ofNat (visit img delta x).times * delta := by
    intro x hx
    unfold visit
    split
    · show x.word + delta = v + UInt64.ofNat (x.times + 1) * delta
      rw [hx, UInt64.ofNat_add, UInt64.add_mul, UInt64.add_assoc]
      simp
    · exact hx
  have hstart : ((slide delta)^[n] ⟨v, 0⟩).word = v + UInt64.ofNat ((slide delta)^[n] ⟨v, 0⟩).times * delta := by
    rw [iterate_slide, Nat.zero_add]
  unfold fate
  generalize (slide delta)^[n] ⟨v, 0⟩ = x at hstart
  induction k generalizing x with
  | zero => exact hstart
  | succ k ih => exact ih _ (hvisit x hstart)

/-- A slot that has been slid once. -/
theorem visited_once_iff (w : UInt64) : ((visit img delta)^[k] ⟨w, 1⟩).times ≤ 1 ↔ (0 < k → ¬ InImage img w) := by
  by_cases hin : InImage img w
  · cases k with
    | zero => simp
    | succ k =>
      have htwice : 2 ≤ ((visit img delta)^[k + 1] ⟨w, 1⟩).times := by
        rw [Function.iterate_succ_apply, visit_of_inImage hin]
        exact times_le_iterate k (slide delta ⟨w, 1⟩)
      simp only [Nat.succ_pos, hin, not_true_eq_false, imp_false, iff_false]
      omega
  · rw [Function.iterate_fixed (visit_of_not_inImage hin)]
    simp [hin]

theorem fate_times_le_one_iff : (fate img delta n k v).times ≤ 1 ↔
    n ≤ 1 ∧ (n = 1 → 0 < k → ¬ InImage img (v + delta)) ∧ (n = 0 → 1 < k → InImage img v → ¬ InImage img (v + delta)) := by
  unfold fate
  rcases n with _ | _ | n
  · -- No relocation: the first visit slides it if it is an address of the image.
    by_cases hin : InImage img v
    · cases k with
      | zero => simp
      | succ k =>
        have hfirst : (visit img delta)^[k + 1] ((slide delta)^[0] ⟨v, 0⟩) = (visit img delta)^[k] ⟨v + delta, 1⟩ := by
          rw [Function.iterate_zero_apply, Function.iterate_succ_apply, visit_of_inImage hin]
          rfl
        rw [hfirst, visited_once_iff]
        simp [hin]
    · rw [Function.iterate_zero_apply, Function.iterate_fixed (visit_of_not_inImage hin)]
      simp [hin]
  · rw [show (slide delta)^[0 + 1] ⟨v, 0⟩ = ⟨v + delta, 1⟩ from rfl, visited_once_iff]
    simp
  · have htwice : n + 2 ≤ ((visit img delta)^[k] ((slide delta)^[n + 1 + 1] ⟨v, 0⟩)).times := by
      refine Nat.le_trans ?_ (times_le_iterate k _)
      rw [iterate_slide]
      dsimp only
      omega
    constructor
    · intro h
      omega
    · intro h
      omega

/-- A slot of a relocation has been slid once at least. -/
theorem le_fate_times : n ≤ (fate img delta n k v).times := by
  refine Nat.le_trans ?_ (times_le_iterate k _)
  rw [iterate_slide, Nat.zero_add]

end SlotState

/-! ## The passes and one slot -/

def Sliding.slot (st : Sliding) (s : UInt64) : SlotState := ⟨read64 st.mem s.toNat, st.slid.count s⟩

variable {st st' : Sliding}

variable (delta : UInt64)

section Slots

variable {img : KernelImage} {base : UInt64} {st : Sliding} {s : UInt64}

theorem slot_slide_self (st : Sliding) (s : UInt64) : (st.slide delta s).slot s = (st.slot s).slide delta := by
  show (⟨read64 (write64 st.mem s.toNat _) s.toNat, (st.slid ++ [s]).count s⟩ : SlotState) = _
  rw [read64_write64, List.count_append, List.count_singleton_self]
  rfl

variable {t : UInt64}

theorem slot_slide_of_disjoint (h : Range.Disjoint ⟨s.toNat, 8⟩ ⟨t.toNat, 8⟩) : (st.slide delta t).slot s = st.slot s := by
  have hne : t ≠ s := by
    rintro rfl
    exact h t.toNat (Range.mem_iff.mpr (by simp)) (Range.mem_iff.mpr (by simp))
  have hword : read64 (st.slide delta t).mem s.toNat = read64 st.mem s.toNat :=
    (slide_mem delta t h).read64 ⟨Nat.le_refl _, Nat.le_refl _⟩
  have hcount : (st.slid ++ [t]).count s = st.slid.count s := by
    rw [List.count_append, List.count_singleton, if_neg (by simpa using hne), Nat.add_zero]
  show (⟨read64 (st.slide delta t).mem s.toNat, (st.slid ++ [t]).count s⟩ : SlotState) = st.slot s
  rw [hword, hcount]
  rfl

theorem disjoint_of_clear (h : Clear s.toNat t.toNat) (hne : t ≠ s) : Range.Disjoint ⟨s.toNat, 8⟩ ⟨t.toNat, 8⟩ :=
  Range.disjoint_iff.mpr (.inr (.inr (h.resolve_left fun heq => hne (UInt64.toNat_inj.mp heq).symm)))

theorem slot_slidePointer (h : Clear s.toNat t.toNat) :
    (slidePointer img delta st t).slot s = if t = s then (st.slot s).visit img delta else st.slot s := by
  unfold slidePointer
  dsimp only
  by_cases ht : t = s
  · subst ht
    have hword : (st.slot t).word = read64 st.mem t.toNat := rfl
    rw [if_pos rfl]
    split
    next hin =>
      have hin : InImage img (st.slot t).word := by rwa [hword]
      rw [slot_slide_self, SlotState.visit_of_inImage hin]
    next hout =>
      have hout : ¬ InImage img (st.slot t).word := by rwa [hword]
      rw [SlotState.visit_of_not_inImage hout]
  · rw [if_neg ht]
    split
    · exact slot_slide_of_disjoint delta (disjoint_of_clear h ht)
    · rfl

/-- A pass over slots comes to a slot as often as it is among them. -/
theorem slot_foldl {step : Sliding → UInt64 → Sliding} {visit : SlotState → SlotState}
    (hstep : ∀ (st : Sliding) (t : UInt64), Clear s.toNat t.toNat → (step st t).slot s = if t = s then visit (st.slot s) else st.slot s) :
    ∀ {slots : List UInt64} {st : Sliding}, (∀ t ∈ slots, Clear s.toNat t.toNat) →
      (slots.foldl step st).slot s = visit^[slots.count s] (st.slot s) := by
  intro slots
  induction slots with
  | nil => intro st _; rfl
  | cons t slots ih =>
    intro st h
    obtain ⟨ht, hslots⟩ := List.forall_mem_cons.mp h
    rw [List.foldl_cons, ih hslots, hstep st t ht, List.count_cons]
    by_cases heq : t = s
    · rw [if_pos heq, if_pos (by simpa using heq), Function.iterate_succ_apply]
    · rw [if_neg heq, if_neg (by simpa using heq), Nat.add_zero]

/-- A walk whose turns visit a slot as often as they have it visits it as often as they all do. -/
theorem slot_turns {turn : Sliding → UInt64 → Sliding} {visit : SlotState → SlotState} {slots : UInt64 → List UInt64} {Q : UInt64 → Prop}
    (hturn : ∀ {st : Sliding} {a : UInt64}, Q a → (∀ t ∈ slots a, Clear s.toNat t.toNat) →
      (turn st a).slot s = visit^[(slots a).count s] (st.slot s)) :
    ∀ {l : List UInt64} {st : Sliding}, (∀ a ∈ l, Q a) → (∀ t ∈ l.flatMap slots, Clear s.toNat t.toNat) →
      (l.foldl turn st).slot s = visit^[(l.flatMap slots).count s] (st.slot s) := by
  intro l
  induction l with
  | nil => intro st _ _; rfl
  | cons a l ih =>
    intro st hin hclear
    obtain ⟨ha, hl⟩ := List.forall_mem_cons.mp hin
    rw [List.flatMap_cons, List.forall_mem_append] at hclear
    rw [List.foldl_cons, ih hl hclear.2, hturn ha hclear.1, ← Function.iterate_add_apply, List.flatMap_cons, List.count_append, Nat.add_comm]

/-- The second pass visits a slot as often as it is in the sections of pointers. -/
theorem slot_pointers {slots : List UInt64} (h : ∀ t ∈ slots, Clear s.toNat t.toNat) :
    (slots.foldl (slidePointer img delta) st).slot s = (SlotState.visit img delta)^[slots.count s] (st.slot s) :=
  slot_foldl (fun _ _ ht => slot_slidePointer delta ht) h

/-! ## Relocations -/

/-- The slot of a relocation that is applied. -/
def relocSlot (img : KernelImage) (base relocBase : UInt64) (r : Relocation) : Option UInt64 :=
  (relocSection img r.info).bind fun _ =>
    if isGdtSlot img (patchVmaddr relocBase r.address) then none
    else some (loadedVmaddr img base (patchVmaddr relocBase r.address) 8)

/-- The slots of the local relocations of the file. -/
def relocSlots (file : List UInt8) (img : KernelImage) (base : UInt64) : List UInt64 :=
  match findSegment img "__DATA" with
  | none => []
  | some s => (relocations file img).filterMap (relocSlot img base s.vmaddr)

/-- A relocation that does not fail slides its slot, if it has one; the slot is not null. -/
theorem applyReloc_eq {relocBase : UInt64} {r : Relocation} (h : applyReloc img base relocBase st r = .ok st') :
    st' = ((relocSlot img base relocBase r).map (st.slide (slideOf img base))).getD st ∧ ∀ s ∈ relocSlot img base relocBase r, s ≠ 0 := by
  unfold applyReloc at h
  unfold relocSlot
  split at h
  next hnone =>
    cases h
    rw [hnone]
    exact ⟨rfl, fun s hs => nomatch hs⟩
  next target hsection =>
    rw [hsection, Option.bind_some]
    dsimp only at h
    split at h
    next hgdt =>
      cases h
      rw [if_pos hgdt]
      exact ⟨rfl, fun s hs => nomatch hs⟩
    next hgdt =>
      rw [if_neg hgdt]
      split at h
      · exact nomatch h
      next hne =>
        split at h
        · exact nomatch h
        · cases h
          exact ⟨rfl, fun s hs => Option.some.inj hs ▸ hne⟩

theorem relocs_run {relocBase : UInt64} : ∀ {relocs : List Relocation} {st st' : Sliding},
    relocs.foldlM (applyReloc img base relocBase) st = .ok st' →
    st' = (relocs.filterMap (relocSlot img base relocBase)).foldl (Sliding.slide (slideOf img base)) st ∧
      ∀ s ∈ relocs.filterMap (relocSlot img base relocBase), s ≠ 0 := by
  intro relocs
  induction relocs with
  | nil =>
    intro st st' h
    cases h
    exact ⟨rfl, fun s hs => nomatch hs⟩
  | cons r relocs ih =>
    intro st st' h
    rw [List.foldlM_cons] at h
    cases hr : applyReloc img base relocBase st r with
    | error e => exact nomatch (show Except.error e = Except.ok st' by rw [← h, hr]; rfl)
    | ok st1 =>
      have h1 : relocs.foldlM (applyReloc img base relocBase) st1 = .ok st' := by rw [← h, hr]; rfl
      obtain ⟨hst1, hne⟩ := applyReloc_eq hr
      rw [(ih h1).1, hst1, List.filterMap_cons]
      cases hslot : relocSlot img base relocBase r with
      | none => exact ⟨rfl, (ih h1).2⟩
      | some s => exact ⟨rfl, List.forall_mem_cons.mpr ⟨hne s hslot, (ih h1).2⟩⟩

/-- The first pass slides the slots of the relocations, one after the other. -/
theorem rebase_run {file : List UInt8} (h : rebaseKernelLocals file img base st = .ok st')
    (hslide : slideOf img base ≠ 0) :
    st' = (relocSlots file img base).foldl (Sliding.slide (slideOf img base)) st ∧ ∀ s ∈ relocSlots file img base, s ≠ 0 := by
  unfold rebaseKernelLocals at h
  split at h
  · cases h
  · split at h
    next hnothing =>
      cases h
      have hempty : relocations file img = [] := by rw [relocations, hnothing.resolve_left hslide]; rfl
      unfold relocSlots
      split
      · exact ⟨rfl, fun s hs => nomatch hs⟩
      · rw [hempty]
        exact ⟨rfl, fun s hs => nomatch hs⟩
    · split at h
      · cases h
      · split at h
        · cases h
        next s hdata =>
          have hslots : relocSlots file img base = (relocations file img).filterMap (relocSlot img base s.vmaddr) := by
            rw [relocSlots, hdata]
          rw [hslots]
          split at h
          · cases h
          · exact relocs_run h

theorem slot_slides {slots : List UInt64} (h : ∀ t ∈ slots, Clear s.toNat t.toNat) :
    (slots.foldl (Sliding.slide delta) st).slot s = (SlotState.slide delta)^[slots.count s] (st.slot s) := by
  refine slot_foldl (fun st t ht => ?_) h
  split
  next heq => rw [heq, slot_slide_self]
  next hne => exact slot_slide_of_disjoint delta (disjoint_of_clear ht hne)

theorem slides_mem {r : Range} : ∀ {slots : List UInt64} {st : Sliding},
    (∀ t ∈ slots, r.Disjoint ⟨t.toNat, 8⟩) → SameOn r (slots.foldl (Sliding.slide delta) st).mem st.mem := by
  intro slots
  induction slots with
  | nil => exact fun _ => .refl _ _
  | cons t slots ih =>
    intro st h
    obtain ⟨ht, hslots⟩ := List.forall_mem_cons.mp h
    exact (ih hslots).trans (slide_mem delta t ht)

end Slots

/-! ## The sections of pointers -/

/-- The slots of the sections of pointers of a command. -/
def commandSlots (img : KernelImage) (base : UInt64) (mem : Mem) (lc : UInt64) : List UInt64 :=
  if read32 mem lc.toNat = 0x19 then (sectionsOf mem lc).flatMap (pointerSlots img base mem lc) else []

/-- The slots of `__DATA_CONST,__got` and `__DATA_CONST,__mod_init_func`. -/
def pointerTable (img : KernelImage) (base : UInt64) (mem : Mem) (header : UInt64) : List UInt64 :=
  (headerCommands mem header).flatMap (commandSlots img base mem)

section Header

variable {img : KernelImage} {base header lc : UInt64} {m0 : Mem} {st : Sliding} {s : UInt64}

/-- The pieces of a command that is gone through to its end are in the block. -/
structure InBlock (m0 : Mem) (header lc : UInt64) : Prop where
  segment : read32 m0 lc.toNat = 0x19 → Range.Inside ⟨lc.toNat, 72⟩ (commandBlock m0 header) ∧
    ∀ sect ∈ sectionsOf m0 lc, Range.Inside ⟨sect.toNat, 80⟩ (commandBlock m0 header)
  thread : read32 m0 lc.toNat = 0x5 → Range.Inside ⟨lc.toNat, 184⟩ (commandBlock m0 header)

theorem inBlock_of_objects (hok : commandOk img base m0 lc = true)
    (h : ∀ r ∈ commandObjects img base m0 lc, r.Inside (commandBlock m0 header)) : InBlock m0 header lc := by
  rw [commandOk, Bool.and_eq_true, decide_eq_true_eq] at hok
  obtain ⟨hsize, hok⟩ := hok
  rw [commandObjects] at h
  simp only [if_neg (UInt32.not_lt.mpr hsize)] at h
  refine ⟨fun hseg => ?_, fun hthread => ?_⟩
  · rw [if_pos hseg, Bool.and_eq_true, decide_eq_true_eq] at hok
    rw [if_pos hseg, if_neg (by omega), reached_of_all (List.all_eq_true.mp hok.2), List.forall_mem_cons, List.forall_mem_cons,
      List.forall_mem_map] at h
    exact h.2
  · have hseg : ¬ read32 m0 lc.toNat = 0x19 := by rw [hthread]; decide
    rw [if_neg hseg, if_pos hthread, decide_eq_true_eq] at hok
    rw [if_neg hseg, if_pos hthread, if_neg (by omega), List.forall_mem_cons, List.forall_mem_singleton] at h
    exact h.2

section Slot

variable (hroom : (commandBlock m0 header).stop ≤ 2 ^ 64) (hfree : (wholeHeader m0 header).Disjoint ⟨s.toNat, 8⟩)
include hroom

/-- A word of an object that is in the block. -/
theorem word_inside {a k : UInt64} {n : Nat} (h : Range.Inside ⟨a.toNat, n⟩ (commandBlock m0 header)) (hk : k.toNat + 8 ≤ n) :
    (a + k).toNat = a.toNat + k.toNat ∧ Range.Inside ⟨(a + k).toNat, 8⟩ (wholeHeader m0 header) := by
  have hin := (Range.inside_iff (by show 0 < n; omega)).mp h
  have hstart : (commandBlock m0 header).start = header.toNat + 32 := rfl
  simp only [Range.stop] at hin hroom
  have hadd : (a + k).toNat = a.toNat + k.toNat := toNat_add_lt (by omega)
  refine ⟨hadd, Range.inside_of_le ?_ ?_⟩ <;> simp only [wholeHeader] <;> omega

include hfree

/-- A slot that is not in the header does not see a word of it slid. -/
theorem slot_slide_header (delta : UInt64) {a k : UInt64} {n : Nat} (h : Range.Inside ⟨a.toNat, n⟩ (commandBlock m0 header)) (hk : k.toNat + 8 ≤ n) :
    (st.slide delta (a + k)).slot s = st.slot s :=
  slot_slide_of_disjoint delta (hfree.symm.mono (fun _ hx => hx) (word_inside hroom h hk).2)

theorem slot_sectionRun {sect : UInt64} (hsect : Range.Inside ⟨sect.toNat, 80⟩ (commandBlock m0 header))
    (hclear : ∀ t ∈ pointerSlots img base m0 lc sect, Clear s.toNat t.toNat) :
    (sectionRun img base m0 lc st sect).slot s =
      (SlotState.visit img (slideOf img base))^[(pointerSlots img base m0 lc sect).count s] (st.slot s) := by
  have haddr : (slideAddr img base m0 sect st).slot s = st.slot s := by
    unfold slideAddr
    split
    · exact slot_slide_header hroom hfree _ hsect (Nat.le_of_ble_eq_true rfl)
    · rfl
  rw [sectionRun, slot_pointers _ hclear, haddr]

theorem slot_commandRun (hin : InBlock m0 header lc) (hclear : ∀ t ∈ commandSlots img base m0 lc, Clear s.toNat t.toNat) :
    (commandRun img base m0 st lc).slot s =
      (SlotState.visit img (slideOf img base))^[(commandSlots img base m0 lc).count s] (st.slot s) := by
  unfold commandRun commandSlots at *
  by_cases hseg : read32 m0 lc.toNat = 0x19
  · obtain ⟨hlc, hsects⟩ := hin.segment hseg
    rw [if_pos hseg] at hclear ⊢
    rw [if_pos hseg, slot_turns (slot_sectionRun hroom hfree) hsects hclear, slot_slide_header hroom hfree _ hlc (Nat.le_of_ble_eq_true rfl)]
  · rw [if_neg hseg, if_neg hseg]
    by_cases hthread : read32 m0 lc.toNat = 0x5
    · rw [if_pos hthread, slot_slide_header hroom hfree _ (hin.thread hthread) (Nat.le_of_ble_eq_true rfl)]
      rfl
    · rw [if_neg hthread]
      rfl

end Slot

/-! ## The walk -/

theorem section_behind (hlc : Range.Inside ⟨lc.toNat, 72⟩ (commandBlock m0 header)) {sect : UInt64} (hsect : sect ∈ sectionsOf m0 lc)
    (hin : Range.Inside ⟨sect.toNat, 80⟩ (commandBlock m0 header)) : lc.toNat + 72 ≤ sect.toNat := by
  obtain ⟨i, hi, rfl⟩ := List.mem_map.mp hsect
  have hlt := (read32 m0 (lc + 64).toNat).toNat_lt
  have hcount := List.mem_range.mp hi
  have hd := toNat_section i (by omega)
  rw [UInt64.add_assoc] at hin ⊢
  rw [toNat_add_inside (commandBlock_size m0 header) (by omega) hlc.start hin.start, hd]
  omega

/-- A command changes nothing apart from the words that it slides. -/
theorem commandRun_same {r : Range} (hsegment : read32 m0 lc.toNat = 0x19 → r.Disjoint ⟨(lc + 24).toNat, 8⟩ ∧
      ∀ sect ∈ sectionsOf m0 lc, r.Disjoint ⟨(sect + 32).toNat, 8⟩ ∧ ∀ slot ∈ pointerSlots img base m0 lc sect, r.Disjoint ⟨slot.toNat, 8⟩)
    (hthread : read32 m0 lc.toNat = 0x5 → r.Disjoint ⟨(lc + 144).toNat, 8⟩) : SameOn r (commandRun img base m0 st lc).mem st.mem := by
  unfold commandRun
  split
  next hseg =>
    obtain ⟨hlc, hsects⟩ := hsegment hseg
    have hsections : ∀ (sects : List UInt64) (st : Sliding), (∀ sect ∈ sects, sect ∈ sectionsOf m0 lc) →
        SameOn r (sects.foldl (sectionRun img base m0 lc) st).mem st.mem := by
      intro sects
      induction sects with
      | nil => exact fun st _ => .refl _ _
      | cons sect sects ih =>
        intro st h
        obtain ⟨hmem, hrest⟩ := List.forall_mem_cons.mp h
        obtain ⟨haddr, hslots⟩ := hsects sect hmem
        exact (ih _ hrest).trans ((slidePointers_mem _ hslots).trans (slideAddr_mem haddr))
    exact (hsections _ _ fun _ h => h).trans (slide_mem _ _ hlc)
  · split
    next hcmd => exact slide_mem _ _ (hthread hcmd)
    · exact .refl _ _

/-- What lies before the address of the command stays as it is. -/
theorem commandRun_mem (hroom : (commandBlock m0 header).stop ≤ 2 ^ 64) (hin : InBlock m0 header lc)
    (hapart : CommandApart img base m0 header lc) {r : Range} (hr : r.Inside (wholeHeader m0 header)) (hbefore : r.stop ≤ lc.toNat + 24) :
    SameOn r (commandRun img base m0 st lc).mem st.mem := by
  -- A word of the header behind the address.
  have hword : ∀ {a k : UInt64} {n : Nat}, Range.Inside ⟨a.toNat, n⟩ (commandBlock m0 header) → k.toNat + 8 ≤ n →
      lc.toNat + 24 ≤ a.toNat + k.toNat → r.Disjoint ⟨(a + k).toNat, 8⟩ := by
    intro a k n ha hk hbehind
    rw [(word_inside hroom ha hk).1, Range.disjoint_iff]
    simp only [Range.stop] at hbefore
    simp only
    omega
  have h24 : (24 : UInt64).toNat = 24 := rfl
  have h32 : (32 : UInt64).toNat = 32 := rfl
  have h144 : (144 : UInt64).toNat = 144 := rfl
  refine commandRun_same (fun hseg => ?_) fun hthread => hword (hin.thread hthread) (by omega) (by omega)
  obtain ⟨hlc, hsects⟩ := hin.segment hseg
  refine ⟨hword hlc (by omega) (by omega), fun sect hmem => ?_⟩
  have hsect := hsects sect hmem
  have hbehind := section_behind hlc hmem hsect
  exact ⟨hword hsect (by omega) (by omega), fun slot hslot => (hapart hseg sect hmem hsect slot hslot).mono hr fun _ hx => hx⟩

/-- The command of the symbol table, once it is behind, is as it was. -/
structure Kept (m0 : Mem) (header symtab lc : UInt64) (m : Mem) : Prop where
  order : lc.toNat ∈ commandBlock m0 header → symtab.toNat ≤ lc.toNat
  same : Range.Inside ⟨symtab.toNat, 24⟩ (commandBlock m0 header) → SameOn ⟨symtab.toNat, 24⟩ m m0

/-- Behind a command in the block the next one is further on. -/
theorem le_next (hlc : lc.toNat ∈ commandBlock m0 header) (cmdsize : UInt32)
    (hnext : (lc + cmdsize.toUInt64).toNat ∈ commandBlock m0 header) : lc.toNat ≤ (lc + cmdsize.toUInt64).toNat := by
  have hlt := cmdsize.toNat_lt
  have hsize : cmdsize.toUInt64.toNat = cmdsize.toNat := by simp
  rw [toNat_add_inside (commandBlock_size m0 header) (by omega) hlc hnext]
  exact Nat.le_add_right _ _

variable {symtab : UInt64}

theorem Kept.next (h : Kept m0 header symtab lc st.mem) (hahead : Ahead m0 header lc st.mem)
    (hroom : (commandBlock m0 header).stop ≤ 2 ^ 64) (hlc : lc.toNat ∈ commandBlock m0 header) (hin : InBlock m0 header lc)
    (hapart : CommandApart img base m0 header lc) (cmdsize : UInt32) :
    Kept m0 header (if read32 m0 lc.toNat = 0x2 then lc else symtab) (lc + cmdsize.toUInt64) (commandRun img base m0 st lc).mem := by
  have hinside : ∀ {r : Range}, r.Inside (commandBlock m0 header) → r.Inside (wholeHeader m0 header) := fun h =>
    h.trans (Range.inside_of_le (by simp [wholeHeader, commandBlock]) (by simp [wholeHeader, commandBlock]; omega))
  split
  next hsym =>
    refine ⟨le_next hlc cmdsize, fun h24 => ?_⟩
    refine (commandRun_mem hroom hin hapart (hinside h24) (Nat.le_refl _)).trans ?_
    have hbound := (Range.inside_iff (Nat.succ_pos _)).mp h24
    refine (hahead.tail hbound.1).mono (Range.inside_of_le (Nat.le_refl _) ?_)
    simp only [Range.stop] at hbound ⊢
    omega
  next =>
    have horder := h.order hlc
    refine ⟨fun hnext => horder.trans (le_next hlc cmdsize hnext), fun h24 => ?_⟩
    refine (commandRun_mem hroom hin hapart (hinside h24) ?_).trans (h.same h24)
    simp only [Range.stop]
    omega

theorem slideCommands_succ (img : KernelImage) (base header : UInt64) (fuel : Nat) (index : UInt32) (lc symtab : UInt64) (st : Sliding) :
    slideCommands img base header (fuel + 1) index lc symtab st =
      if index < ncmds st.mem header then do
        let r ← slideTurn img base lc symtab st
        slideCommands img base header fuel (index + 1) (lc + (read32 r.1.mem (lc + 4).toNat).toUInt64) r.2 r.1
      else .ok (st, symtab) := by
  rw [slideCommands, slideTurn]
  show (if index < ncmds st.mem header then _ else _) = _
  split
  · split <;> rfl
  · rfl

/-- Where all objects of the header are in the block, the walk does what it would if every
    command were still as it was. -/
theorem commands_run (hroom : (commandBlock m0 header).stop ≤ 2 ^ 64) : ∀ (n fuel : Nat) (index : UInt32) (lc symtab : UInt64)
    (st : Sliding), index.toNat + n = (ncmds m0 header).toNat → n < fuel → Ahead m0 header lc st.mem → Kept m0 header symtab lc st.mem →
    (∀ c ∈ commandsFrom m0 n lc, CommandApart img base m0 header c) →
    (∀ r ∈ objectsFrom img base m0 (commandsFrom m0 n lc) symtab, r.Inside (commandBlock m0 header)) →
    Ends ((commandsFrom m0 n lc).all (commandOk img base m0))
      (fun r => r.1 = (commandsFrom m0 n lc).foldl (commandRun img base m0) st ∧ r.2 = lastSymtab m0 symtab (commandsFrom m0 n lc) ∧
        (Range.Inside ⟨r.2.toNat, 24⟩ (commandBlock m0 header) → SameOn ⟨r.2.toNat, 24⟩ r.1.mem m0))
      (slideCommands img base header fuel index lc symtab st) := by
  intro n
  induction n with
  | zero =>
    intro fuel index lc symtab st hn hfuel hst hkept hapart hobjects
    obtain ⟨fuel, rfl⟩ := Nat.exists_eq_add_of_lt hfuel
    have hdone : ¬ index < ncmds st.mem header := fun h => Nat.lt_irrefl 0 ((hst.lt_ncmds_iff hroom hn).mp h)
    rw [Nat.zero_add, slideCommands_succ, if_neg hdone]
    exact .ok rfl ⟨rfl, rfl, hkept.same⟩
  | succ n ih =>
    intro fuel index lc symtab st hn hfuel hst hkept hapart hobjects
    obtain ⟨fuel, rfl⟩ := Nat.exists_eq_add_of_lt hfuel
    have hmore : index < ncmds st.mem header := (hst.lt_ncmds_iff hroom hn).mpr (Nat.succ_pos n)
    rw [commandsFrom, List.forall_mem_cons] at hapart
    rw [commandsFrom, objectsFrom_cons, List.forall_mem_append] at hobjects
    have hlc : lc.toNat ∈ commandBlock m0 header := (hobjects.1 ⟨lc.toNat, 8⟩ List.mem_cons_self).start
    rw [slideCommands_succ, if_pos hmore, commandsFrom, List.all_cons, List.foldl_cons]
    have hends := (turn hst hroom hapart.1 symtab).2 hobjects.1
    generalize slideTurn img base lc symtab st = result at hends
    cases hends with
    | error hbad => exact .error (by rw [hbad]; rfl)
    | ok hgood hr =>
      rename_i r
      obtain ⟨hrun, hsym, hcmdsize, hahead⟩ := hr
      rw [if_pos hgood] at hobjects
      have hkept' := hkept.next hst hroom hlc (inBlock_of_objects hgood hobjects.1) hapart.1 (read32 m0 (lc + 4).toNat)
      rw [← hrun, ← hsym] at hkept'
      have hrest := ih (n + 1 + fuel) (index + 1) _ _ r.1 (index_succ hn) (by omega) hahead hkept' hapart.2 (hsym ▸ hobjects.2)
      have hlast : lastSymtab m0 symtab (lc :: commandsFrom m0 n (lc + (read32 m0 (lc + 4).toNat).toUInt64)) =
          lastSymtab m0 r.2 (commandsFrom m0 n (lc + (read32 m0 (lc + 4).toNat).toUInt64)) := by rw [hsym]; rfl
      rw [hgood, Bool.true_and, hlast, ← hrun]
      show Ends _ _ (slideCommands img base header (n + 1 + fuel) (index + 1) (lc + (read32 r.1.mem (lc + 4).toNat).toUInt64) r.2 r.1)
      rw [hcmdsize]
      exact hrest

/-! ## The symbol table -/

/-- The symbols that the command of the symbol table announces. -/
def symbolsOf (img : KernelImage) (base : UInt64) (mem : Mem) (symtab : UInt64) : Range :=
  let nsyms := read32 mem (symtab + 12).toNat
  if symtab = 0 ∨ nsyms = 0 then ⟨0, 0⟩
  else ⟨(loadedFileOffset img base (read32 mem (symtab + 8).toNat).toUInt64 (nsyms.toUInt64 * 16)).toNat, 16 * nsyms.toNat⟩

/-- The word that is slid of a symbol below the number that is announced. -/
theorem symbol_inside {symbols : UInt64} {nsyms index : UInt32} (hroom : symbols.toNat + 16 * nsyms.toNat ≤ 2 ^ 64) (hmore : index < nsyms) :
    Range.Inside ⟨(symbols + 16 * index.toUInt64 + 8).toNat, 8⟩ ⟨symbols.toNat, 16 * nsyms.toNat⟩ := by
  rw [UInt32.lt_iff_toNat_lt] at hmore
  have hindex : (16 * index.toUInt64 + 8 : UInt64).toNat = 16 * index.toNat + 8 := by
    have := index.toNat_lt
    have h16 : (16 : UInt64).toNat = 16 := rfl
    have h8 : (8 : UInt64).toNat = 8 := rfl
    rw [UInt64.toNat_add, UInt64.toNat_mul, UInt32.toNat_toUInt64, h16, h8]
    omega
  rw [UInt64.add_assoc, toNat_add_lt (by omega), hindex]
  exact Range.inside_of_le (by simp only; omega) (by simp only; omega)

/-- The loop over the symbols slides words of the table only, so that their number stays, and so
    does all that no word of the table makes a difference to. -/
theorem slideSymbols_inv {Q : Sliding → Prop} {symbols : UInt64} {nsyms : UInt32} (hroom : symbols.toNat + 16 * nsyms.toNat ≤ 2 ^ 64)
    (hcount : Range.Disjoint ⟨(symtab + 12).toNat, 4⟩ ⟨symbols.toNat, 16 * nsyms.toNat⟩)
    (hQ : ∀ st a, Range.Inside ⟨a.toNat, 8⟩ ⟨symbols.toNat, 16 * nsyms.toNat⟩ → Q st → Q (st.slide delta a)) :
    ∀ (fuel : Nat) (index : UInt32) (st : Sliding), read32 st.mem (symtab + 12).toNat = nsyms → Q st →
      Q (slideSymbols img delta symtab symbols fuel index st) := by
  intro fuel
  induction fuel with
  | zero => exact fun _ _ _ h => h
  | succ fuel ih =>
    intro index st hnsyms hst
    rw [slideSymbols]
    split
    next hmore =>
      rw [hnsyms] at hmore
      have hword := symbol_inside hroom hmore
      unfold slideSymbol
      dsimp only
      split
      · refine ih _ _ ?_ (hQ _ _ hword hst)
        rw [← hnsyms]
        exact (slide_mem delta _ (hcount.mono (fun _ hx => hx) hword)).read32 ⟨Nat.le_refl _, Nat.le_refl _⟩
      · exact ih _ _ hnsyms hst
    · exact hst

/-- The symbol table, where its command is as it was. -/
theorem slideSymtab_inv {Q : Sliding → Prop} (h : slideSymtab img base symtab st = .ok st') (hroom : (commandBlock m0 header).stop ≤ 2 ^ 64)
    (hsame : symtab ≠ 0 → Range.Inside ⟨symtab.toNat, 24⟩ (commandBlock m0 header) ∧ SameOn ⟨symtab.toNat, 24⟩ st.mem m0)
    (htable : (symbolsOf img base m0 symtab).stop ≤ 2 ^ 64) (hheader : (wholeHeader m0 header).Disjoint (symbolsOf img base m0 symtab))
    (hQ : (symbolsOf img base m0 symtab).start ≠ 0 → ∀ st a, Range.Inside ⟨a.toNat, 8⟩ (symbolsOf img base m0 symtab) →
      Q st → Q (st.slide (slideOf img base) a)) (hst : Q st) : Q st' := by
  unfold slideSymtab at h
  dsimp only at h
  split at h
  · cases h
    exact hst
  next hsome =>
    obtain ⟨hne, hnsyms⟩ := not_or.mp hsome
    obtain ⟨hin, hsame⟩ := hsame hne
    have hbound := (Range.inside_iff (Nat.succ_pos _)).mp hin
    simp only [Range.stop] at hbound hroom
    have h8 : (symtab + 8).toNat = symtab.toNat + 8 := toNat_add_lt (by show symtab.toNat + 8 < _; omega)
    have h12 : (symtab + 12).toNat = symtab.toNat + 12 := toNat_add_lt (by show symtab.toNat + 12 < _; omega)
    have hoff : read32 st.mem (symtab + 8).toNat = read32 m0 (symtab + 8).toNat := hsame.read32 (by rw [h8]; simp [Range.stop])
    have hcount : read32 st.mem (symtab + 12).toNat = read32 m0 (symtab + 12).toNat := hsame.read32 (by rw [h12]; simp [Range.stop])
    rw [hoff, hcount] at h
    rw [hcount] at hnsyms
    rw [symbolsOf, if_neg (not_or.mpr ⟨hne, hnsyms⟩)] at htable hheader hQ
    split at h
    · cases h
    next hfound =>
      cases h
      refine slideSymbols_inv _ htable (hheader.mono ?_ fun _ hx => hx) (hQ fun h0 => hfound (UInt64.toNat_inj.mp h0)) _ _ _ hcount hst
      have hstart : (commandBlock m0 header).start = header.toNat + 32 := rfl
      rw [h12]
      refine Range.inside_of_le ?_ ?_ <;> simp only [wholeHeader] <;> omega

end Header

/-! ## Both passes -/

section Passes

variable (file : List UInt8) (img : KernelImage) (base : UInt64) (mem : Mem)

def headerOf : Option UInt64 := (findSegment img "__TEXT").map fun text => loadedVmaddr img base text.vmaddr 32

/-- The slots of the sections of pointers, each as often as a section has it. -/
def gotSlots : List UInt64 :=
  match headerOf img base with
  | some header => pointerTable img base mem header
  | none => []

/-- All that the passes decide about. -/
def tableSlots : List UInt64 := relocSlots file img base ++ gotSlots img base mem

def symbolTable (header : UInt64) : Range := symbolsOf img base mem (lastSymtab mem 0 (headerCommands mem header))

/-- The header, the symbol table and the slots lie apart. -/
structure Layout (header : UInt64) : Prop where
  room : (commandBlock mem header).stop ≤ 2 ^ 64
  commands : ∀ r ∈ headerObjects img base mem header, r.Inside (commandBlock mem header)
  symbolsRoom : (symbolTable img base mem header).stop ≤ 2 ^ 64
  symbols : (wholeHeader mem header).Disjoint (symbolTable img base mem header)
  slots : ∀ s ∈ tableSlots file img base mem, (wholeHeader mem header).Disjoint ⟨s.toNat, 8⟩ ∧
    Range.Disjoint ⟨s.toNat, 8⟩ (symbolTable img base mem header)
  clear : ∀ s ∈ tableSlots file img base mem, ∀ t ∈ tableSlots file img base mem, Clear s.toNat t.toNat

/-- Every slot of a relocation holds its word plus the slide, every slot of a section of pointers
    its word or that plus the slide, and none has been slid twice. -/
structure SlidOnce (st : Sliding) : Prop where
  relocated : ∀ s ∈ relocSlots file img base, read64 st.mem s.toNat = read64 mem s.toNat + slideOf img base
  pointers : ∀ s ∈ gotSlots img base mem,
    read64 st.mem s.toNat = read64 mem s.toNat ∨ read64 st.mem s.toNat = read64 mem s.toNat + slideOf img base
  once : ∀ s ∈ tableSlots file img base mem, st.slid.count s ≤ 1

/-- No relocation is listed twice; a pointer that a relocation has slid, or that is listed twice,
    is no address of the image once it has been slid. -/
structure Once : Prop where
  relocs : (relocSlots file img base).Nodup
  both : ∀ s ∈ gotSlots img base mem, s ∈ relocSlots file img base → ¬ InImage img (read64 mem s.toNat + slideOf img base)
  pointers : ∀ s ∈ gotSlots img base mem, s ∉ relocSlots file img base → 1 < (gotSlots img base mem).count s →
    InImage img (read64 mem s.toNat) → ¬ InImage img (read64 mem s.toNat + slideOf img base)

end Passes

section

variable {file : List UInt8} {img : KernelImage} {base header : UInt64} {m0 : Mem} {st1 st2 : Sliding}

/-- The second pass finds the header that the image has. -/
theorem headerOf_eq {mem : Mem} (hfound : foundHeader img base mem = some header) : headerOf img base = some header := by
  obtain ⟨-, -, text, htext, rfl, -⟩ := foundHeader_eq_some hfound
  rw [headerOf, htext, Option.map_some]

/-- The walk begins with every command as it was. -/
theorem start_walk (hsame : SameOn (wholeHeader m0 header) st1.mem m0) :
    Ahead m0 header (header + 32) st1.mem ∧ Kept m0 header 0 (header + 32) st1.mem := by
  constructor
  · refine ⟨hsame.mono (Range.inside_of_le (Nat.le_refl _) (by simp [wholeHeader])), fun hstart => hsame.mono ?_⟩
    have hblock : (commandBlock m0 header).start = header.toNat + 32 := rfl
    have hfirst : (header + 32).toNat ≤ header.toNat + 32 := (UInt64.toNat_add header 32).trans_le (Nat.mod_le _ _)
    refine Range.inside_of_le ?_ ?_ <;> simp only [wholeHeader, Range.stop] <;> omega
  · refine ⟨fun _ => Nat.zero_le _, fun h24 => ?_⟩
    have := ((Range.inside_iff (Nat.succ_pos _)).mp h24).1
    simp [commandBlock] at this

theorem Layout.apart (hl : Layout file img base m0 header) (hheader : headerOf img base = some header) :
    ∀ c ∈ headerCommands m0 header, CommandApart img base m0 header c := by
  intro c hc hseg sect hsect _ slot hslot
  have hgot : gotSlots img base m0 = pointerTable img base m0 header := by rw [gotSlots, hheader]
  refine (hl.slots slot (List.mem_append_right _ ?_)).1
  rw [hgot]
  refine List.mem_flatMap.mpr ⟨c, hc, ?_⟩
  rw [commandSlots, if_pos hseg]
  exact List.mem_flatMap.mpr ⟨sect, hsect, hslot⟩

/-- A run that succeeds goes by the header as it was: through the commands, and then through the
    symbol table of the last. -/
theorem passes_run (h1 : rebaseKernelLocals file img base ⟨m0, []⟩ = .ok st1) (h2 : slideKernelMachoMetadata img base st1 = .ok st2)
    (hslide : slideOf img base ≠ 0) (hlayout : ∀ header ∈ headerOf img base, Layout file img base m0 header) :
    (st1 = (relocSlots file img base).foldl (Sliding.slide (slideOf img base)) ⟨m0, []⟩ ∧ ∀ s ∈ relocSlots file img base, s ≠ 0) ∧
    ∃ header, foundHeader img base st1.mem = some header ∧ SameOn (wholeHeader m0 header) st1.mem m0 ∧
      (∀ lc ∈ headerCommands m0 header, commandOk img base m0 lc = true ∧ InBlock m0 header lc) ∧
      ∃ st, st = (headerCommands m0 header).foldl (commandRun img base m0) st1 ∧
        slideSymtab img base (lastSymtab m0 0 (headerCommands m0 header)) st = .ok st2 ∧
        (lastSymtab m0 0 (headerCommands m0 header) ≠ 0 →
          Range.Inside ⟨(lastSymtab m0 0 (headerCommands m0 header)).toNat, 24⟩ (commandBlock m0 header) ∧
          SameOn ⟨(lastSymtab m0 0 (headerCommands m0 header)).toNat, 24⟩ st.mem m0) := by
  have hrebase := rebase_run h1 hslide
  refine ⟨hrebase, ?_⟩
  cases hfound : foundHeader img base st1.mem with
  | none => exact absurd (eq_of_not_found hfound h2).1 hslide
  | some header =>
    have hheader := headerOf_eq hfound
    have hl := hlayout header hheader
    -- The first pass leaves the header as it was.
    have hsame : SameOn (wholeHeader m0 header) st1.mem m0 := by
      rw [hrebase.1]
      exact slides_mem _ fun t ht => (hl.slots t (List.mem_append_left _ ht)).1
    obtain ⟨hahead, hkept⟩ := start_walk hsame
    have hends := commands_run hl.room _ (2 ^ 32) 0 (header + 32) 0 st1 (by rw [UInt32.toNat_zero, Nat.zero_add]) (UInt32.toNat_lt _) hahead
      hkept (hl.apart hheader) hl.commands
    rw [slideKernelMachoMetadata_of_found hfound] at h2
    generalize slideCommands img base header (2 ^ 32) 0 (header + 32) 0 st1 = result at hends h2
    cases hends with
    | error hbad => cases h2
    | ok hgood hr =>
      rename_i r
      obtain ⟨hrun, hsym, hkeeps⟩ := hr
      have h2 : slideSymtab img base r.2 r.1 = .ok st2 := h2
      have hgood : (headerCommands m0 header).all (commandOk img base m0) = true := hgood
      have hobjects := hl.commands
      rw [headerObjects, objectsFrom, List.forall_mem_append, reached_of_all (List.all_eq_true.mp hgood)] at hobjects
      rw [hsym] at h2 hkeeps
      refine ⟨header, rfl, hsame, fun lc hlc => ?_, r.1, hrun, h2, fun hne => ?_⟩
      · have hok := List.all_eq_true.mp hgood lc hlc
        exact ⟨hok, inBlock_of_objects hok fun r hr => hobjects.1 r (List.mem_flatMap.mpr ⟨lc, hlc, hr⟩)⟩
      · have h24 := hobjects.2 ⟨(lastSymtab m0 0 (headerCommands m0 header)).toNat, 24⟩ (by
          rw [if_pos ⟨hgood, hne⟩]
          exact List.mem_singleton_self _)
        exact ⟨h24, hkeeps h24⟩

/-- What becomes of a slot. -/
theorem passes_slot (h1 : rebaseKernelLocals file img base ⟨m0, []⟩ = .ok st1) (h2 : slideKernelMachoMetadata img base st1 = .ok st2)
    (hslide : slideOf img base ≠ 0) (hlayout : ∀ header ∈ headerOf img base, Layout file img base m0 header) {s : UInt64}
    (hs : s ∈ tableSlots file img base m0) :
    st2.slot s = SlotState.fate img (slideOf img base) ((relocSlots file img base).count s) ((gotSlots img base m0).count s)
      (read64 m0 s.toNat) := by
  obtain ⟨⟨hrebase, -⟩, header, hfound, -, hin, st, hrun, hsymtab, hsame⟩ := passes_run h1 h2 hslide hlayout
  have hheader := headerOf_eq hfound
  have hl := hlayout header hheader
  have hgot : gotSlots img base m0 = pointerTable img base m0 header := by rw [gotSlots, hheader]
  have htable : ∀ t ∈ pointerTable img base m0 header, t ∈ tableSlots file img base m0 := fun t ht =>
    List.mem_append_right _ (by rwa [hgot])
  obtain ⟨hfree, hsymbols⟩ := hl.slots s hs
  have hslot : st2.slot s = st.slot s := slideSymtab_inv (Q := fun g => g.slot s = st.slot s) hsymtab hl.room hsame hl.symbolsRoom hl.symbols
    (fun _ g a ha hg => (slot_slide_of_disjoint _ (hsymbols.mono (fun _ hx => hx) ha)).trans hg) rfl
  rw [hslot, hrun,
    slot_turns (slot_commandRun hl.room hfree) (fun lc hlc => (hin lc hlc).2) fun t ht => hl.clear s hs t (htable t ht), hrebase,
    slot_slides _ fun t ht => hl.clear s hs t (List.mem_append_left _ ht), hgot]
  rfl

theorem passes_of_slide_zero (h1 : rebaseKernelLocals file img base st = .ok st1)
    (h2 : slideKernelMachoMetadata img base st1 = .ok st2) (hslide : slideOf img base = 0) : st2 = st := by
  have hrebase : st1 = st := by
    unfold rebaseKernelLocals at h1
    split at h1
    · exact nomatch h1
    · rw [if_pos (.inl hslide)] at h1
      cases h1
      rfl
  have hnone : foundHeader img base st1.mem = none := by rw [foundHeader, if_pos (.inr hslide)]
  rw [(eq_of_not_found hnone h2).2, hrebase]

/-- No slot is slid twice exactly if each slot's fate says so. -/
theorem once_iff_fate : Once file img base m0 ↔ ∀ s ∈ tableSlots file img base m0,
    (SlotState.fate img (slideOf img base) ((relocSlots file img base).count s) ((gotSlots img base m0).count s)
      (read64 m0 s.toNat)).times ≤ 1 := by
  have hmem : ∀ s, s ∈ relocSlots file img base ↔ (relocSlots file img base).count s ≠ 0 := fun s => by
    rw [Ne, List.count_eq_zero, not_not]
  have hgot : ∀ s, s ∈ gotSlots img base m0 ↔ 0 < (gotSlots img base m0).count s := fun s => List.count_pos_iff.symm
  constructor
  · intro h s hs
    have hcount := List.nodup_iff_count_le_one.mp h.relocs s
    refine (SlotState.fate_times_le_one_iff ..).mpr ⟨hcount, fun hn hk => ?_, fun hn hk => ?_⟩
    · exact h.both s ((hgot s).mpr hk) ((hmem s).mpr (by omega))
    · exact h.pointers s ((hgot s).mpr (by omega)) (fun hr => (hmem s).mp hr hn) hk
  · intro h
    have hcount : ∀ s, (relocSlots file img base).count s ≤ 1 := by
      intro s
      by_cases hs : s ∈ relocSlots file img base
      · exact ((SlotState.fate_times_le_one_iff ..).mp (h s (List.mem_append_left _ hs))).1
      · rw [List.count_eq_zero_of_not_mem hs]
        exact Nat.zero_le _
    refine ⟨List.nodup_iff_count_le_one.mpr hcount, fun s hs hr => ?_, fun s hs hr hk => ?_⟩
    · have hn : (relocSlots file img base).count s = 1 := Nat.le_antisymm (hcount s) (Nat.one_le_iff_ne_zero.mpr ((hmem s).mp hr))
      exact ((SlotState.fate_times_le_one_iff ..).mp (h s (List.mem_append_right _ hs))).2.1 hn ((hgot s).mp hs)
    · exact ((SlotState.fate_times_le_one_iff ..).mp (h s (List.mem_append_right _ hs))).2.2 (List.count_eq_zero_of_not_mem hr) hk

end

/-- Where the header, the symbol table and the slots lie apart, every slot of the two tables is
    slid once at most, with the word that follows from it, exactly if `Once` holds. -/
theorem slots_slid_once_iff (file : List UInt8) (img : KernelImage) (base : UInt64) (m0 : Mem) (st1 st2 : Sliding)
    (h1 : rebaseKernelLocals file img base ⟨m0, []⟩ = .ok st1) (h2 : slideKernelMachoMetadata img base st1 = .ok st2)
    (hlayout : slideOf img base ≠ 0 → ∀ header ∈ headerOf img base, Layout file img base m0 header) :
    SlidOnce file img base m0 st2 ↔ (slideOf img base ≠ 0 → Once file img base m0) := by
  by_cases hslide : slideOf img base = 0
  · -- Nothing has to be slid.
    obtain rfl := passes_of_slide_zero h1 h2 hslide
    refine iff_of_true ⟨fun s _ => ?_, fun s _ => Or.inl ?_, fun s _ => ?_⟩ fun hne => absurd hslide hne
    · rw [hslide, UInt64.add_zero]
    · rfl
    · rw [List.count_nil]
      exact Nat.zero_le 1
  have hslot := fun s => passes_slot h1 h2 hslide (hlayout hslide) (s := s)
  have hword : ∀ s, read64 st2.mem s.toNat = (st2.slot s).word := fun _ => rfl
  have htimes : ∀ s, st2.slid.count s = (st2.slot s).times := fun _ => rfl
  constructor
  · intro h _
    refine once_iff_fate.mpr fun s hs => ?_
    rw [← hslot s hs, ← htimes]
    exact h.once s hs
  · intro h
    have hfate := once_iff_fate.mp (h hslide)
    have hcases : ∀ s ∈ tableSlots file img base m0, st2.slid.count s = 0 ∧ read64 st2.mem s.toNat = read64 m0 s.toNat ∨
        st2.slid.count s = 1 ∧ read64 st2.mem s.toNat = read64 m0 s.toNat + slideOf img base := by
      intro s hs
      have hle := hfate s hs
      rw [htimes, hword, hslot s hs, SlotState.word_eq]
      rcases Nat.le_one_iff_eq_zero_or_eq_one.mp hle with h0 | h1
      · left
        rw [h0]
        simp
      · right
        rw [h1]
        simp
    refine ⟨fun s hs => ?_, fun s hs => ?_, fun s hs => ?_⟩
    · have hs' : s ∈ tableSlots file img base m0 := List.mem_append_left _ hs
      have hone : 1 ≤ st2.slid.count s := by
        rw [htimes, hslot s hs']
        exact (List.count_pos_iff.mpr hs).trans_le (SlotState.le_fate_times ..)
      rcases hcases s hs' with ⟨h0, -⟩ | ⟨-, hw⟩
      · omega
      · exact hw
    · exact (hcases s (List.mem_append_right _ hs)).imp And.right And.right
    · rcases hcases s hs with ⟨h0, -⟩ | ⟨h1, -⟩ <;> omega

/-! ## A kernel file with a relocation in its `__got` -/

def sectionHeader (name segment : String) (addr size : UInt64) : List UInt8 :=
  nameField16 name ++ nameField16 segment ++ le64 addr ++ le64 size ++ zeros 32

def dysymtabCommand (locreloff nlocrel : UInt32) : List UInt8 := le32 0xb ++ le32 80 ++ zeros 64 ++ le32 locreloff ++ le32 nlocrel

/-- The startup code, as far as it is patched. -/
def startupCode : List UInt8 :=
  zeros 2 ++ [0xbc] ++ le32 0x00199000 ++ [0xb8] ++ le32 0x00101040 ++ zeros 3 ++ [0xb8] ++ le32 0x00105000 ++ zeros 8 ++
    [0xba] ++ le32 0x00106000 ++ zeros 33 ++ [0xb8] ++ le32 0x00105000 ++ zeros 14 ++ [0xea] ++ le32 0x0010005c

/-- The startup code with its two descriptors, `__TEXT` with the header, `__DATA` without contents,
    and `__DATA_CONST` with a `__got` of one pointer, which is the address of the `__got` and
    which the one relocation is about. -/
def gotRelocation : List UInt8 :=
  machHeader 8 776 ++ segmentCommand "__HIB" 0x100000 0x1000 824 90 [] ++ segmentCommand "__HIBA" 0x101042 4 914 4 [] ++
    segmentCommand "__HIBB" 0x199002 4 914 4 [] ++ segmentCommand "__TEXT" 0x200000 0x1000 0 808 [] ++
    segmentCommand "__DATA" 0x201000 0x1000 0 0 [] ++
    segmentCommand "__DATA_CONST" 0x202000 0x2000 816 8 [sectionHeader "__got" "__DATA_CONST" 0x202000 8] ++
    dysymtabCommand 808 1 ++ threadCommand 0x200000 ++ le32 0x1000 ++ le32 0x06000001 ++ le64 0x202000 ++
    startupCode ++ le32 0x00139000

def gotRelocationImage : KernelImage where
  entryPc := 0x200000
  lowestVmaddr := 0x100000
  highestVmaddr := 0x204000
  localRelocOffset := 808
  localRelocCount := 1
  segments := [⟨nameField16 "__HIB", 0x100000, 0x1000, 824, 90, 7, 5⟩, ⟨nameField16 "__HIBA", 0x101042, 4, 914, 4, 7, 5⟩,
    ⟨nameField16 "__HIBB", 0x199002, 4, 914, 4, 7, 5⟩, ⟨nameField16 "__TEXT", 0x200000, 0x1000, 0, 808, 7, 5⟩,
    ⟨nameField16 "__DATA", 0x201000, 0x1000, 0, 0, 7, 5⟩, ⟨nameField16 "__DATA_CONST", 0x202000, 0x2000, 816, 8, 7, 5⟩]
  sections := [⟨0x202000, 8⟩]
  segments_le := by simp [maxKernelSegments]
  sections_le := by simp [maxKernelSections]

/-- The segments staged one page above where the kernel was linked. -/
def gotStaging : Option (Except EfiStatus Mem) :=
  (stageSegments gotRelocation gotRelocationImage 0x101000 ⟨0x101000, 0x104000⟩ fun _ => 0).run

def gotStaged : Mem := ((gotStaging.bind Except.toOption).getD fun _ => 0)

/-- The passes and the patches of the startup code; the slot and how often it was slid. -/
def gotOutcome : Option (UInt64 × Nat) := do
  let st1 ← (rebaseKernelLocals gotRelocation gotRelocationImage 0x101000 ⟨gotStaged, []⟩).toOption
  let st2 ← (slideKernelMachoMetadata gotRelocationImage 0x101000 st1).toOption
  let _ ← (patchHibStartupImmediates gotRelocationImage 0x101000 st2.mem).toOption
  some (read64 st2.mem 0x203000, st2.slid.count 0x203000)

theorem gotRelocation_facts :
    (parseKernelMacho gotRelocation).run = some (.ok gotRelocationImage) ∧ (gotStaging.bind Except.toOption).isSome = true ∧
    gotOutcome = some (0x204000, 2) ∧ read64 gotStaged 0x203000 = 0x202000 ∧
    relocSlots gotRelocation gotRelocationImage 0x101000 = [0x203000] ∧ gotSlots gotRelocationImage 0x101000 gotStaged = [0x203000] ∧
    headerOf gotRelocationImage 0x101000 = some 0x201000 ∧ commandBlock gotStaged 0x201000 = ⟨0x201020, 776⟩ ∧
    symbolTable gotRelocationImage 0x101000 gotStaged 0x201000 = ⟨0, 0⟩ ∧
    ∀ r ∈ headerObjects gotRelocationImage 0x101000 gotStaged 0x201000, 0x201020 ≤ r.start ∧ r.start + r.size ≤ 0x201020 + 776 := by
  decide +kernel

theorem toOption_eq_some {ε α : Type} {e : Except ε α} {a : α} (h : e.toOption = some a) : e = .ok a := by
  cases e with
  | error e => exact nomatch h
  | ok b => exact congrArg _ (Option.some.inj h)

/-- The run of the passes on the file. -/
theorem gotRelocation_run : ∃ st1 st2 m, rebaseKernelLocals gotRelocation gotRelocationImage 0x101000 ⟨gotStaged, []⟩ = .ok st1 ∧
    slideKernelMachoMetadata gotRelocationImage 0x101000 st1 = .ok st2 ∧
    patchHibStartupImmediates gotRelocationImage 0x101000 st2.mem = .ok m ∧
    read64 st2.mem 0x203000 = 0x204000 ∧ st2.slid.count 0x203000 = 2 := by
  obtain ⟨-, -, houtcome, -⟩ := gotRelocation_facts
  rw [gotOutcome] at houtcome
  obtain ⟨st1, h1, hrest⟩ := Option.bind_eq_some_iff.mp houtcome
  obtain ⟨st2, h2, hrest⟩ := Option.bind_eq_some_iff.mp hrest
  obtain ⟨m, h3, hrest⟩ := Option.bind_eq_some_iff.mp hrest
  obtain ⟨hword, htimes⟩ := Prod.mk.inj (Option.some.inj hrest)
  exact ⟨st1, st2, m, toOption_eq_some h1, toOption_eq_some h2, toOption_eq_some h3, hword, htimes⟩

theorem gotRelocation_layout : ∀ header ∈ headerOf gotRelocationImage 0x101000,
    Layout gotRelocation gotRelocationImage 0x101000 gotStaged header := by
  obtain ⟨-, -, -, -, hrelocs, hgot, hheader, hblock, hsymbols, hobjects⟩ := gotRelocation_facts
  intro header h
  obtain rfl : header = 0x201000 := Option.some.inj (h.symm.trans hheader)
  have hslots : ∀ s ∈ tableSlots gotRelocation gotRelocationImage 0x101000 gotStaged, s = 0x203000 := by
    rw [tableSlots, hrelocs, hgot]
    simp
  constructor
  · rw [hblock]
    decide
  · intro r hr
    rw [hblock]
    exact Range.inside_of_le (hobjects r hr).1 (hobjects r hr).2
  · rw [hsymbols]
    decide
  · rw [hsymbols]
    exact Range.disjoint_iff.mpr (.inr (.inl rfl))
  · intro s hs
    rw [hslots s hs, hsymbols, wholeHeader, hblock]
    exact ⟨Range.disjoint_iff.mpr (by decide), Range.disjoint_iff.mpr (.inr (.inl rfl))⟩
  · intro s hs t ht
    rw [hslots s hs, hslots t ht]
    exact .inl rfl

theorem header_walk_inside_gotRelocation : foundHeader gotRelocationImage 0x101000 gotStaged = some 0x201000 ∧
    ∀ r ∈ headerTouched gotRelocationImage 0x101000 ⟨gotStaged, []⟩, r.Inside (commandBlock gotStaged 0x201000) := by
  have hfound : foundHeader gotRelocationImage 0x101000 gotStaged = some 0x201000 := by decide +kernel
  have hlayout : ∀ header ∈ foundHeader gotRelocationImage 0x101000 gotStaged, Layout gotRelocation gotRelocationImage 0x101000 gotStaged header :=
    fun header h => gotRelocation_layout header (headerOf_eq h)
  generalize gotStaged = mem at hfound hlayout ⊢
  refine ⟨hfound, (header_walk_inside_iff gotRelocationImage 0x101000 ⟨mem, []⟩ ?_ ?_).mpr ?_ _ hfound⟩
  · exact fun header h => (hlayout header h).room
  · exact fun header h lc hlc => (hlayout header h).apart (headerOf_eq h) lc (mem_of_mem_reached hlc)
  · exact fun header h => (hlayout header h).commands

theorem slots_slid_once_gotRelocation : ∃ st1 st2,
    rebaseKernelLocals gotRelocation gotRelocationImage 0x101000 ⟨gotStaged, []⟩ = .ok st1 ∧
    slideKernelMachoMetadata gotRelocationImage 0x101000 st1 = .ok st2 ∧
    (slideOf gotRelocationImage 0x101000 ≠ 0 → ∀ header ∈ headerOf gotRelocationImage 0x101000,
      Layout gotRelocation gotRelocationImage 0x101000 gotStaged header) ∧
    (SlidOnce gotRelocation gotRelocationImage 0x101000 gotStaged st2 ↔
      (slideOf gotRelocationImage 0x101000 ≠ 0 → Once gotRelocation gotRelocationImage 0x101000 gotStaged)) := by
  obtain ⟨st1, st2, m, h1, h2, -⟩ := gotRelocation_run
  exact ⟨st1, st2, h1, h2, fun _ => gotRelocation_layout,
    slots_slid_once_iff gotRelocation gotRelocationImage 0x101000 gotStaged st1 st2 h1 h2 fun _ => gotRelocation_layout⟩

/-- The parser takes the file and every step of the staging succeeds. The relocation makes
    `0x202000` in the slot `0x203000`, which is an address of the image too, and the second pass
    slides the slot again. -/
theorem a_slot_is_slid_twice :
    (parseKernelMacho gotRelocation).run = some (.ok gotRelocationImage) ∧
    (stageSegments gotRelocation gotRelocationImage 0x101000 ⟨0x101000, 0x104000⟩ fun _ => 0).run = some (.ok gotStaged) ∧
    ∃ st1 st2 m, rebaseKernelLocals gotRelocation gotRelocationImage 0x101000 ⟨gotStaged, []⟩ = .ok st1 ∧
      slideKernelMachoMetadata gotRelocationImage 0x101000 st1 = .ok st2 ∧
      patchHibStartupImmediates gotRelocationImage 0x101000 st2.mem = .ok m ∧
      read64 gotStaged 0x203000 = 0x202000 ∧ read64 st2.mem 0x203000 = 0x204000 ∧ st2.slid.count 0x203000 = 2 ∧
      ¬ SlidOnce gotRelocation gotRelocationImage 0x101000 gotStaged st2 := by
  obtain ⟨hparse, hstaged, -, hbefore, hrelocs, -⟩ := gotRelocation_facts
  refine ⟨hparse, ?_, ?_⟩
  · obtain ⟨mem, hmem⟩ := Option.isSome_iff_exists.mp hstaged
    obtain ⟨result, hrun, hok⟩ := Option.bind_eq_some_iff.mp hmem
    have hdef : gotStaged = mem := by rw [gotStaged, hmem, Option.getD_some]
    rw [hdef, ← toOption_eq_some hok]
    exact hrun
  · obtain ⟨st1, st2, m, h1, h2, h3, hword, htimes⟩ := gotRelocation_run
    refine ⟨st1, st2, m, h1, h2, h3, hbefore, hword, htimes, fun h => ?_⟩
    have hslot : (0x203000 : UInt64) ∈ tableSlots gotRelocation gotRelocationImage 0x101000 gotStaged := by
      rw [tableSlots, hrelocs]
      exact List.mem_append_left _ List.mem_cons_self
    have := h.once 0x203000 hslot
    omega

end Panthera.Boot
