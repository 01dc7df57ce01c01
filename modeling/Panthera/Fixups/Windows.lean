/-
  Panthera.Fixups.Windows — dyld's chained fixups over data of any shape.

  A page that a chain starts in is a window (`Window`): dyld walks the chain from its start
  as long as the slots stay in the page. The three loops over segments, pages and slots are
  one loop over the windows of the data (`applyChainedFixups_windows`), whatever the data
  holds. If the slots of the windows do not overlap, and what is loaded to resolve a symbol
  spares them, the run visits the slots that memory held at first
  (`applyChainedFixups_visits`).

  A bind of an import that is not in the table and a rebase of an unknown format keep the word
  of the chain (`chained_slots_settled_iff`, `import_past_the_table`).
-/

import Panthera.Fixups.Chained

namespace Panthera.Fixups

open MachO Lib.Bytes Lib.Chain Lib.Run Chained

/-! ## Windows -/

/-- A page that a chain starts in. -/
structure Window where
  fmt : UInt16
  /-- `page * page_size`, which is computed as an `int`. -/
  offset : Nat
  addr : UInt64
  size : Nat
  start : UInt16
  small : size < 2 ^ 16
  deriving DecidableEq, Repr

namespace Dyld

open Panthera.Dyld

variable (W : World) (i : Nat) (img : LoadedImage) (ld : LinkeditData)

/-- Pages with no chain or with several are passed over. -/
def window (seg page : Nat) : Option Window :=
  let data := memOf ld.bytes
  if pageStart data seg page = 0xFFFF ∨ pageStart data seg page &&& 0x8000 ≠ 0 then none
  else some
    { fmt := pointerFormat data seg
      offset := page * pageSize data seg
      addr := img.header + segmentOffset data seg + UInt64.ofNat (page * pageSize data seg)
      size := pageSize data seg
      start := pageStart data seg page
      small := UInt16.toNat_lt _ }

/-- The checks on `dyld_chained_starts_in_segment`. -/
def segmentChecks (seg : Nat) : Bool :=
  let data := memOf ld.bytes
  infoOffset data seg != 0 && (rangeWithin ld.datasize.toNat (info data seg) 24 && 24 ≤ infoSize data seg &&
    rangeWithin ld.datasize.toNat (info data seg) (infoSize data seg)) &&
    (22 + 2 * pageCount data seg ≤ infoSize data seg && pageSize data seg != 0)

def segWindows (seg : Nat) : List Window :=
  if segmentChecks ld seg then (List.range (pageCount (memOf ld.bytes) seg)).filterMap (window img ld seg) else []

def windows : List Window :=
  match accepted W img ld with
  | some n => (List.range n).flatMap (segWindows img ld)
  | none => []

def runWindow (st : Proc) (w : Window) : Option Proc :=
  if 2 ^ 31 ≤ w.offset then none
  else some (walkChain (chainedFixup W i img ld (.read (memOf ld.bytes)) w.fmt) w.addr (w.addr + UInt64.ofNat w.size)
    (w.size / 4 + 1) (w.addr + w.start.toUInt64) st)

variable {W i img ld}

theorem chainedPage_window (seg : Nat) (st : Proc) (page : Nat) :
    chainedPage W i img ld (.read (memOf ld.bytes)) (info (memOf ld.bytes) seg) st page =
      match window img ld seg page with
      | some w => runWindow W i img ld st w
      | none => some st := by
  rw [chainedPage_eq, window]
  by_cases hs : pageStart (memOf ld.bytes) seg page = 0xFFFF ∨ pageStart (memOf ld.bytes) seg page &&& 0x8000 ≠ 0
  · simp only [hs, if_true]
  · simp only [hs, if_false, runWindow]

theorem chainedSegment_windows (st : Proc) (seg : Nat) :
    chainedSegment W i img ld (.read (memOf ld.bytes)) st seg = (segWindows img ld seg).foldlM (runWindow W i img ld) st := by
  have hsize : pageSize (memOf ld.bytes) seg = 0 ↔ read16 (memOf ld.bytes) (info (memOf ld.bytes) seg + 4) = 0 :=
    UInt16.toNat_inj (b := 0)
  rw [chainedSegment_eq, segWindows]
  by_cases hc : segmentChecks ld seg = true
  · rw [if_pos hc, List.foldlM_filterMap]
    simp only [segmentChecks, Bool.and_eq_true, bne_iff_ne, ne_eq, decide_eq_true_eq, hsize] at hc
    obtain ⟨⟨h0, ⟨h24, hlen⟩, hin⟩, hpages, hps⟩ := hc
    rw [if_neg h0, if_neg (by simp [h24, hin, hlen]), if_neg (by simp [hps, hpages])]
    refine congrArg (fun f => (List.range (pageCount (memOf ld.bytes) seg)).foldlM f st) (funext fun st => funext fun page => ?_)
    rw [chainedPage_window]
    rcases window img ld seg page with _ | w
    · rfl
    · rfl
  · rw [if_neg hc]
    simp only [segmentChecks, Bool.and_eq_true, bne_iff_ne, ne_eq, decide_eq_true_eq, hsize] at hc
    split
    · rfl
    · rename_i h0
      split
      · rfl
      · rename_i hinfo
        rw [if_pos]
        · rfl
        · by_contra hpages
          simp only [not_or, Bool.not_eq_false, Nat.not_lt] at hinfo hpages
          exact hc ⟨⟨h0, ⟨hinfo.1, hinfo.2.1⟩, hinfo.2.2⟩, hpages⟩

theorem applyChainedFixups_windows {st : Proc} (himg : st.images[i]? = some img) (hone : chainedData img.commands = [ld]) :
    applyChainedFixups W i st = (windows W img ld).foldlM (runWindow W i img ld) st := by
  rw [applyChainedFixups_eq himg hone, windows]
  rcases accepted W img ld with _ | n
  · rfl
  · dsimp only
    rw [foldlM_flatMap]
    have hseg : chainedSegment W i img ld (.read (memOf ld.bytes)) = fun st seg =>
        (segWindows img ld seg).foldlM (runWindow W i img ld) st := funext fun st => funext fun seg => chainedSegment_windows st seg
    exact congrArg (fun f => (List.range n).foldlM f st) hseg

end Dyld

/-! ## The slots of the windows -/

variable {w : Window} {v : Visit}

namespace Window

/-- The page is not in the last 128 KiB of the addresses. -/
def Low (w : Window) : Prop := w.addr.toNat + 2 ^ 17 ≤ 2 ^ 64

instance (w : Window) : Decidable w.Low := inferInstanceAs (Decidable (_ ≤ _))

/-- Moreover the page's offset fits an `int`. -/
structure Placed (w : Window) : Prop where
  offset : w.offset < 2 ^ 31
  low : w.Low

/-- The chain as memory holds it, as far as it stays in the page. -/
def visitsFrom (w : Window) (mem : Mem) (n a : Nat) : List Visit :=
  (wordsWithin stride mem (w.addr.toNat + w.size) n a).map fun v => ⟨w.fmt, v.1, v.2⟩

def visits (w : Window) (mem : Mem) : List Visit :=
  w.visitsFrom mem (w.size / 4 + 1) (w.addr.toNat + w.start.toNat)

theorem visitsFrom_succ (w : Window) (mem : Mem) (n a : Nat) :
    w.visitsFrom mem (n + 1) a = if w.addr.toNat + w.size < a + 8 then []
      else ⟨w.fmt, a, read64 mem a⟩ :: if stride (read64 mem a) = 0 then [] else w.visitsFrom mem n (a + stride (read64 mem a)) := by
  unfold visitsFrom
  rw [wordsWithin]
  split
  · rfl
  · split
    · rfl
    · rfl

theorem mem_visits {mem : Mem} (hv : v ∈ w.visits mem) :
    w.addr.toNat + w.start.toNat ≤ v.slot ∧ v.slot + 8 ≤ w.addr.toNat + w.size ∧ v.fmt = w.fmt ∧ v.raw = read64 mem v.slot := by
  obtain ⟨word, hword, rfl⟩ := List.mem_map.mp hv
  obtain ⟨hlo, hhi, hraw⟩ := mem_wordsWithin hword
  exact ⟨hlo, hhi, rfl, hraw⟩

variable {w : Window}

theorem Low.end_eq (h : w.Low) : (w.addr + UInt64.ofNat w.size).toNat = w.addr.toNat + w.size := by
  have := w.small
  unfold Low at h
  rw [UInt64.toNat_add, UInt64.toNat_ofNat']
  omega

/-- The check that a slot has left the page. -/
theorem Low.left_iff (h : w.Low) {a : Nat} (hlo : w.addr.toNat ≤ a) (hfar : a + 8 < w.addr.toNat + 2 ^ 17) :
    (UInt64.ofNat a < w.addr ∨ w.addr + UInt64.ofNat w.size < UInt64.ofNat a + 8) ↔ w.addr.toNat + w.size < a + 8 := by
  have hend := h.end_eq
  unfold Low at h
  rw [leaves_page_iff (by omega), hend]
  omega

theorem start_eq (w : Window) : w.addr + w.start.toUInt64 = UInt64.ofNat (w.addr.toNat + w.start.toNat) := by
  rw [UInt64.ofNat_add, UInt64.ofNat_toNat, UInt64.ofNat_uInt16ToNat]

theorem stride_lt (raw : UInt64) : stride raw < 2 ^ 14 := by
  have : ((raw >>> 51) &&& 0xFFF).toNat ≤ 0xFFF := by
    rw [UInt64.toNat_and]
    exact Nat.and_le_right
  unfold stride
  omega

end Window

namespace Dyld

open Panthera.Dyld

/-- A slot that has left the page ends the walk. -/
theorem walkChain_left (fix : Nat → UInt64 → Proc → Proc) (hw : w.Low) {a : Nat} (hlo : w.addr.toNat ≤ a)
    (hfar : a + 8 < w.addr.toNat + 2 ^ 17) (hhi : w.addr.toNat + w.size < a + 8) (n : Nat) (st : Proc) :
    walkChain fix w.addr (w.addr + UInt64.ofNat w.size) n (UInt64.ofNat a) st = st := by
  cases n with
  | zero => rfl
  | succ n => rw [walkChain, if_pos ((hw.left_iff hlo hfar).mpr hhi)]

section Visits

variable {W : World} {i : Nat} {img : LoadedImage} {ld : LinkeditData} {st0 : Proc}

/-- The environment's part: what is loaded to resolve a symbol goes elsewhere than the slot. -/
def SparesSlot (W : World) (i : Nat) (img : LoadedImage) (ld : LinkeditData) (st0 : Proc) (slot : Nat) : Prop :=
  ∀ st, During W i img ld st0 st → ∀ name ordinal, ∀ j < 8,
    (resolveSymbol W name ordinal false (some i) st).2.mem (slot + j) = st.mem (slot + j)

def ApartSpared (W : World) (i : Nat) (img : LoadedImage) (ld : LinkeditData) (st0 : Proc) (v u : Visit) : Prop :=
  v.Apart u ∧ SparesSlot W i img ld st0 u.slot

theorem chainVisit_keeps (v u : Visit) (st : Proc) (hap : ApartSpared W i img ld st0 v u) (h : Holds W i img ld st0 u st) :
    Holds W i img ld st0 u (chainVisit W i img ld v st) :=
  h.chainVisit hap.1 (hap.2 st h.1)

theorem walkChain_visits (hw : w.Low) {mem : Mem} : ∀ (n a : Nat) {st : Proc}, w.addr.toNat ≤ a →
    a + 8 < w.addr.toNat + 2 ^ 17 → (w.visitsFrom mem n a).Pairwise (ApartSpared W i img ld st0) →
    (∀ v ∈ w.visitsFrom mem n a, Holds W i img ld st0 v st) →
    walkChain (chainedFixup W i img ld (.read (memOf ld.bytes)) w.fmt) w.addr (w.addr + UInt64.ofNat w.size) n
      (UInt64.ofNat a) st = (w.visitsFrom mem n a).foldl (fun st v => chainVisit W i img ld v st) st := by
  intro n
  induction n with
  | zero => intros; rfl
  | succ n ih =>
    intro a st hlo hfar hap hst
    rw [Window.visitsFrom_succ] at hap hst ⊢
    by_cases hin : w.addr.toNat + w.size < a + 8
    · rw [if_pos hin, walkChain_left _ hw hlo hfar hin]
      rfl
    · rw [if_neg hin] at hap hst ⊢
      obtain ⟨hhead, hap⟩ := List.pairwise_cons.mp hap
      have hraw := (hst _ List.mem_cons_self).2
      rw [walkChain_step _ hlo (by rw [hw.end_eq]; omega) n st hraw, List.foldl_cons]
      by_cases hlast : stride (read64 mem a) = 0
      · rw [if_pos hlast, if_pos hlast]
        rfl
      · rw [if_neg hlast] at hhead hap hst ⊢
        rw [if_neg hlast]
        have hstride := Window.stride_lt (read64 mem a)
        have hsmall := w.small
        refine ih (a + stride (read64 mem a)) (by omega) (by omega) hap fun u hu => ?_
        exact chainVisit_keeps _ u st (hhead u hu) (hst u (List.mem_cons_of_mem _ hu))

/-- The slots of the windows, in the order in which dyld comes to them. -/
def slotVisits (W : World) (img : LoadedImage) (ld : LinkeditData) (mem : Mem) : List Visit :=
  (windows W img ld).flatMap fun w => w.visits mem

/-- What a run over the windows needs to see the chains as they were before it. -/
structure Visitable (W : World) (i : Nat) (img : LoadedImage) (ld : LinkeditData) (st : Proc) : Prop where
  image : st.images[i]? = some img
  one : chainedData img.commands = [ld]
  placed : ∀ w ∈ windows W img ld, w.Placed
  apart : (slotVisits W img ld st.mem).Pairwise Visit.Apart
  spared : ∀ v ∈ slotVisits W img ld st.mem, SparesSlot W i img ld st v.slot

theorem Visitable.apartSpared (h : Visitable W i img ld st0) :
    (slotVisits W img ld st0.mem).Pairwise (ApartSpared W i img ld st0) :=
  List.Pairwise.imp_of_mem (fun _ hu hap => ⟨hap, h.spared _ hu⟩) h.apart

theorem slotVisits_hold : ∀ v ∈ slotVisits W img ld st0.mem, Holds W i img ld st0 v st0 := by
  intro v hv
  obtain ⟨w, -, hv⟩ := List.mem_flatMap.mp hv
  exact ⟨.start, (Window.mem_visits hv).2.2.2.symm⟩

theorem applyChainedFixups_visits (h : Visitable W i img ld st0) :
    applyChainedFixups W i st0 =
      some ((slotVisits W img ld st0.mem).foldl (fun st v => chainVisit W i img ld v st) st0) := by
  rw [applyChainedFixups_windows h.image h.one]
  refine foldlM_visits chainVisit_keeps (fun w hw st hst => ?_) h.apartSpared slotVisits_hold
  have hplaced := h.placed w hw
  have hstart := w.start.toNat_lt
  unfold runWindow
  rw [if_neg (Nat.not_le.mpr hplaced.offset), w.start_eq]
  refine congrArg some (walkChain_visits hplaced.low _ _ (Nat.le_add_right _ _) (by omega) ?_ hst)
  exact (List.pairwise_flatMap.mp h.apartSpared).1 w hw

/-- A slot keeps what its visit leaves there. -/
theorem Visitable.left (h : Visitable W i img ld st0) (hv : v ∈ slotVisits W img ld st0.mem) :
    ∃ st1, During W i img ld st0 st1 ∧ read64 st1.mem v.slot = v.raw ∧
      read64 ((slotVisits W img ld st0.mem).foldl (fun st v => chainVisit W i img ld v st) st0).mem v.slot =
        read64 (chainVisit W i img ld v st1).mem v.slot := by
  obtain ⟨st1, rest, hst1, hrest, hfold⟩ := foldl_visit chainVisit_keeps h.apartSpared slotVisits_hold hv
  refine ⟨st1, hst1.1, hst1.2, ?_⟩
  rw [hfold]
  -- the visits that follow keep whatever word the slot holds by then
  obtain ⟨u, hu⟩ : ∃ u : Visit, u = { v with raw := read64 (chainVisit W i img ld v st1).mem v.slot } := ⟨_, rfl⟩
  have hkept : Holds W i img ld st0 u (rest.foldl (fun st v => chainVisit W i img ld v st) (chainVisit W i img ld v st1)) :=
    foldl_holds chainVisit_keeps
      (fun w hw => ⟨by rw [hu]; exact (hrest w hw).2.1.symm, by rw [hu]; exact h.spared v hv⟩)
      ⟨.visit v hst1.1, by rw [hu]⟩
  have := hkept.2
  rw [hu] at this
  exact this

/-! ## What a slot is left with -/

/-- 0, the pointer that a rebase asks for, or the address that a bind's import had when dyld
    came to the slot, plus the addend. -/
def Settled (W : World) (i : Nat) (img : LoadedImage) (ld : LinkeditData) (st0 : Proc) (v : Visit) (x : UInt64) : Prop :=
  x = 0 ∨ (isBind v.raw = false ∧ chainedRebase img v.fmt v.raw = some x) ∨
    (isBind v.raw = true ∧ (v.raw &&& 0xFFFFFF).toNat < importsCount (memOf ld.bytes) ∧
      ∃ name ordinal st, chainedImport ld (.read (memOf ld.bytes)) (v.raw &&& 0xFFFFFF).toNat = some (name, ordinal) ∧
        During W i img ld st0 st ∧ (resolveSymbol W name ordinal false (some i) st).1 ≠ 0 ∧
        x = (resolveSymbol W name ordinal false (some i) st).1 + addendOf v.raw)

/-- A bind names an import of the table, and a rebase is of a known format, or of nothing. -/
def Settles (ld : LinkeditData) (v : Visit) : Prop :=
  if isBind v.raw then (v.raw &&& 0xFFFFFF).toNat < importsCount (memOf ld.bytes) else v.fmt = 2 ∨ v.fmt = 6 ∨ v.raw = 0

theorem chainedRebase_eq_none {fmt : UInt16} {raw : UInt64} : chainedRebase img fmt raw = none ↔ fmt ≠ 2 ∧ fmt ≠ 6 := by
  unfold chainedRebase
  by_cases h2 : fmt = 2
  · simp [h2]
  · by_cases h6 : fmt = 6
    · simp [h6]
    · simp [h2, h6]

theorem isBind_ne_zero {raw : UInt64} (h : isBind raw = true) : raw ≠ 0 := by
  rintro rfl
  exact absurd h (by decide)

theorem chainVisit_settled_rebase (hb : isBind v.raw = false) {st : Proc} (hraw : read64 st.mem v.slot = v.raw) :
    Settled W i img ld st0 v (read64 (chainVisit W i img ld v st).mem v.slot) ↔ Settles ld v := by
  have hbit : (v.raw >>> 63) &&& 1 = 0 := by simpa [isBind] using hb
  unfold chainVisit chainedFixup
  rw [if_pos hbit]
  rcases hre : chainedRebase img v.fmt v.raw with _ | x
  · have hfmt := chainedRebase_eq_none.mp hre
    show Settled W i img ld st0 v (read64 st.mem v.slot) ↔ _
    rw [hraw]
    simp [Settled, Settles, hb, hre, hfmt.1, hfmt.2]
  · have hfmt : v.fmt = 2 ∨ v.fmt = 6 := by
      by_contra hne
      rw [not_or] at hne
      rw [chainedRebase_eq_none.mpr hne] at hre
      cases hre
    refine iff_of_true (.inr (.inl ⟨hb, ?_⟩)) ?_
    · rw [hre]
      exact congrArg some (read64_write64 _ _ _).symm
    · rw [Settles, if_neg (by simp [hb])]
      exact hfmt.imp_right .inl

theorem chainVisit_settled_bind (hb : isBind v.raw = true) {st : Proc} (hst : During W i img ld st0 st)
    (hraw : read64 st.mem v.slot = v.raw) :
    Settled W i img ld st0 v (read64 (chainVisit W i img ld v st).mem v.slot) ↔ Settles ld v := by
  have hbit : ¬ (v.raw >>> 63) &&& 1 = 0 := by simpa [isBind] using hb
  rw [Settles, if_pos hb]
  unfold chainVisit chainedFixup
  rw [if_neg hbit]
  dsimp only
  by_cases hidx : (v.raw &&& 0xFFFFFF).toNat < importsCount (memOf ld.bytes)
  · refine iff_of_true ?_ hidx
    rw [if_pos (show _ < (ChainedHeader.read (memOf ld.bytes)).importsCount from hidx)]
    rcases himp : chainedImport ld (.read (memOf ld.bytes)) (v.raw &&& 0xFFFFFF).toNat with _ | ⟨name, ordinal⟩
    · exact .inl (read64_write64 _ _ _)
    · dsimp only
      show Settled W i img ld st0 v (read64 (write64 _ _ _) v.slot)
      rw [read64_write64]
      split
      · rename_i haddr
        exact .inr (.inr ⟨hb, hidx, name, ordinal, st, himp, hst, haddr, rfl⟩)
      · exact .inl rfl
  · -- the slot keeps the word of the chain, which is not 0
    rw [if_neg (show ¬ _ < (ChainedHeader.read (memOf ld.bytes)).importsCount from hidx), hraw]
    refine iff_of_false ?_ hidx
    rintro (h | ⟨h, -⟩ | ⟨-, h, -⟩)
    · exact isBind_ne_zero hb h
    · rw [hb] at h
      cases h
    · exact hidx h

/-- Every slot that the walk visits is left with a pointer or 0 exactly if the import of every
    slot is in the table and its format is known. -/
theorem chained_slots_settled_iff (h : Visitable W i img ld st0) :
    ∃ st, applyChainedFixups W i st0 = some st ∧
      ((∀ v ∈ slotVisits W img ld st0.mem, Settled W i img ld st0 v (read64 st.mem v.slot)) ↔
        ∀ v ∈ slotVisits W img ld st0.mem, Settles ld v) := by
  refine ⟨_, applyChainedFixups_visits h, forall₂_congr fun v hv => ?_⟩
  obtain ⟨st1, hst1, hraw, hleft⟩ := h.left hv
  rw [hleft]
  cases hb : isBind v.raw with
  | false => exact chainVisit_settled_rebase hb hraw
  | true => exact chainVisit_settled_bind hb hst1 hraw

end Visits

end Dyld

/-! ## An image with one bind -/

/-- Chained data with one segment, one page and one import of `_a` from the library
    `ordinal`. -/
def bindData (ordinal : UInt8) : LinkeditData where
  dataoff := 0
  datasize := 72
  bytes := [0, 0, 0, 0, 28, 0, 0, 0, 60, 0, 0, 0, 64, 0, 0, 0, 1, 0, 0, 0, 1, 0, 0, 0, 0, 0, 0, 0] ++
    [1, 0, 0, 0, 8, 0, 0, 0] ++
    [24, 0, 0, 0, 0, 0x10, 6, 0, 0, 1, 0, 0, 0, 0, 0, 0, 0, 0, 0, 0, 1, 0, 0, 0] ++
    [ordinal, 2, 0, 0] ++ [0, 0x5F, 0x61, 0, 0, 0, 0, 0]
  inFile := by simp

/-- The first import, with the addend 5. -/
def bindWord : UInt64 := 0x8000000005000000

def bindSegments : List Segment :=
  [⟨segText, 0, 16, 0, 16, 5, []⟩, ⟨cstr "__DATA", 0x100, 16, 16, 16, 3, []⟩, ⟨segLinkedit, 0x200, 72, 0, 72, 1, []⟩]

def bindImage (ordinal : UInt8) : Panthera.Dyld.LoadedImage where
  header := 0x1000
  slide := 0x1000
  path := cstr "/lib/a"
  commands := bindSegments.map .segment ++ [.chainedFixups (bindData ordinal)]
  symtab := none

def bindProc (ordinal : UInt8) : Panthera.Dyld.Proc :=
  { Panthera.Dyld.Proc.ofImages [bindImage ordinal] with mem := write64 (fun _ => 0) 0x1100 bindWord }

theorem bindImage_alone (ordinal : UInt8) (n : Int) : Panthera.Dyld.ordinalPath [bindImage ordinal] 0 n = none := by
  show (if n ≤ 0 then none else (([] : List CStr)[n.toNat - 1]?)) = none
  simp

namespace Dyld

open Panthera.Dyld

section Example

/-- A page with a chain at its start. -/
def firstPage : Window := ⟨6, 0, 0x1100, 0x1000, 0, by decide⟩

section

variable {W : World} {i : Nat} {img : LoadedImage} {ld : LinkeditData} {st : Proc} {word : UInt64}
  (hw : windows W img ld = [firstPage])
include hw

theorem firstPage_visits (hread : read64 st.mem 0x1100 = word) (h : stride word = 0) :
    slotVisits W img ld st.mem = [⟨6, 0x1100, word⟩] := by
  rw [slotVisits, hw, List.flatMap_cons, List.flatMap_nil, List.append_nil, Window.visits]
  show firstPage.visitsFrom st.mem (0x400 + 1) 0x1100 = _
  rw [Window.visitsFrom_succ, if_neg (by decide), hread, if_pos h]
  rfl

theorem firstPage_visitable (hapart : (slotVisits W img ld st.mem).Pairwise Visit.Apart) (himg : st.images[i]? = some img)
    (hone : chainedData img.commands = [ld]) (hpath : ∀ n, ordinalPath st.images i n = none) : Visitable W i img ld st where
  image := himg
  one := hone
  placed := by
    rw [hw]
    intro w hmem
    rw [List.mem_singleton] at hmem
    subst hmem
    exact ⟨by decide, by decide⟩
  apart := hapart
  spared _ _ _ hst name n _ _ := congrFun (hst.mem_alone hpath name n) _

end

/-- The image with another word in its only slot. -/
def wordProc (word : UInt64) : Proc := { bindProc 0xFE with mem := write64 (fun _ => 0) 0x1100 word }

theorem bindData_windows : windows bareWorld (bindImage 0xFE) (bindData 0xFE) = [firstPage] := by decide

theorem wordProc_visits {word : UInt64} (h : stride word = 0) :
    slotVisits bareWorld (bindImage 0xFE) (bindData 0xFE) (wordProc word).mem = [⟨6, 0x1100, word⟩] :=
  firstPage_visits bindData_windows (read64_write64 _ _ _) h

theorem wordProc_visitable {word : UInt64} (h : stride word = 0) :
    Visitable bareWorld 0 (bindImage 0xFE) (bindData 0xFE) (wordProc word) :=
  firstPage_visitable bindData_windows (by simp [wordProc_visits h]) rfl rfl (bindImage_alone 0xFE)

/-- A rebase, and behind it the bind. -/
def chainProc : Proc :=
  { bindProc 0xFE with mem := write64 (write64 (fun _ => 0) 0x1100 0x10000000000040) 0x1108 bindWord }

theorem chainProc_visits : slotVisits bareWorld (bindImage 0xFE) (bindData 0xFE) chainProc.mem =
    [⟨6, 0x1100, 0x10000000000040⟩, ⟨6, 0x1108, bindWord⟩] := by decide

theorem chained_slots_settled_two : ∃ st, applyChainedFixups bareWorld 0 chainProc = some st ∧
    ∀ v ∈ slotVisits bareWorld (bindImage 0xFE) (bindData 0xFE) chainProc.mem,
      Settled bareWorld 0 (bindImage 0xFE) (bindData 0xFE) chainProc v (read64 st.mem v.slot) := by
  obtain ⟨st, hrun, hiff⟩ := chained_slots_settled_iff
    (firstPage_visitable bindData_windows (by rw [chainProc_visits]; decide) rfl rfl (bindImage_alone 0xFE))
  refine ⟨st, hrun, hiff.mpr ?_⟩
  rw [chainProc_visits]
  unfold Settles
  decide

/-- A bind of import 1 of a table of one import, and what becomes of its slot: the word stays. -/
theorem import_past_the_table :
    (applyChainedFixups bareWorld 0 (wordProc 0x8000000000000001)).map (fun st => read64 st.mem 0x1100) =
        some 0x8000000000000001 ∧
      (⟨6, 0x1100, 0x8000000000000001⟩ : Visit) ∈
        slotVisits bareWorld (bindImage 0xFE) (bindData 0xFE) (wordProc 0x8000000000000001).mem ∧
      ¬ Settled bareWorld 0 (bindImage 0xFE) (bindData 0xFE) (wordProc 0x8000000000000001)
        ⟨6, 0x1100, 0x8000000000000001⟩ 0x8000000000000001 := by
  refine ⟨by decide, by rw [wordProc_visits (by decide)]; exact List.mem_singleton_self _, ?_⟩
  rintro (h | ⟨h, -⟩ | ⟨-, h, -⟩)
  · exact absurd h (by decide)
  · exact absurd h (by decide)
  · have hcount : importsCount (memOf (bindData 0xFE).bytes) = 1 := by decide
    rw [hcount] at h
    exact absurd h (by decide)

end Example

end Dyld

end Panthera.Fixups
