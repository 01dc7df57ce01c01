/-
  Panthera.Libsystem.Tlv — thread-local variables
  (`clang_runtime_impl.c`: `panthera_text_vmaddr`,
  `panthera_section_runtime`, `panthera_find_tlv_image`, `_tlv_bootstrap`).

  A call looks its descriptor up in a table of the images seen so far, then in the table
  of all images; an image seen for the first time gets a pthread key, and each thread a
  block under that key. A descriptor that is found in no image gets a key of its own.

  Calls are taken one after the other. `pthread_key_create` hands out keys that were
  never used, a thread's values start out as NULL and `calloc` gives a new zeroed block;
  a pointer into a block is the block and an offset. `mem` is the memory the images are
  mapped in, apart from the `key_plus_one` fields, which the state holds. A block is kept
  as it was made: what the program stores in it later is not modelled.

  The search goes past an image whose `__TEXT` is linked at address 0 (`linked_at_zero`),
  and it remembers one section of each kind. Main result: `tlv_blocks`.
-/

import Panthera.Lib.Ranges
import Panthera.Lib.Run
import Panthera.Lib.Wire
import Panthera.MachO.Image

namespace Panthera.Libsystem.Tlv

open Lib Lib.Bytes Lib.Ranges Lib.Wire MachO

/-! ## Images -/

structure BridgeImage where
  header : UInt64
  commands : List LoadCommand
  deriving DecidableEq, Repr

def sThreadLocalRegular : UInt32 := 0x11
def sThreadLocalZerofill : UInt32 := 0x12
def sThreadLocalVariables : UInt32 := 0x13

def textVmaddr (img : BridgeImage) : UInt64 :=
  match findSegment img.commands segText with
  | some seg => seg.vmaddr
  | none => 0

def sectionRuntime (img : BridgeImage) (sect : Section64) : UInt64 := img.header + (sect.addr - textVmaddr img)

def BridgeImage.sections (img : BridgeImage) : List Section64 := (segmentsOf img.commands).flatMap (·.sections)

def isRegular (s : Section64) : Bool := s.type == sThreadLocalRegular

/-- The sections the template is made of. -/
def isTemplate (s : Section64) : Bool := s.type == sThreadLocalRegular || s.type == sThreadLocalZerofill

def isVariables (s : Section64) : Bool := s.type == sThreadLocalVariables

/-! ## `panthera_find_tlv_image` -/

structure TlvImage where
  image : BridgeImage
  keyPlusOne : Nat
  templateBase : UInt64
  regularAddr : UInt64
  regularSize : UInt64
  totalSize : UInt64
  deriving DecidableEq, Repr

/-- The test of the first loop, which looks at every section of variables. -/
def TlvImage.holds (t : TlvImage) (desc : UInt64) : Bool :=
  t.image.sections.any fun s =>
    isVariables s && sectionRuntime t.image s ≤ desc && desc < sectionRuntime t.image s + s.size

structure Scan where
  templateBase : UInt64
  templateEnd : UInt64
  regularAddr : UInt64
  regularSize : UInt64
  varsStart : UInt64
  varsSize : UInt64
  deriving DecidableEq, Repr

def scanSection (img : BridgeImage) (sc : Scan) (s : Section64) : Scan :=
  if isTemplate s then
    { sc with
      templateBase := if s.addr < sc.templateBase then s.addr else sc.templateBase
      templateEnd := if sc.templateEnd < s.addr + s.size then s.addr + s.size else sc.templateEnd
      regularAddr := if isRegular s then s.addr else sc.regularAddr
      regularSize := if isRegular s then s.size else sc.regularSize }
  else if isVariables s then { sc with varsStart := sectionRuntime img s, varsSize := s.size }
  else sc

def Scan.start : Scan := ⟨~~~(0 : UInt64), 0, 0, 0, 0, 0⟩

def scan (img : BridgeImage) : Scan := img.sections.foldl (scanSection img) .start

/-- The image is not skipped by the second loop, and the section of variables it ended
    with has the descriptor. -/
def found (img : BridgeImage) (desc : UInt64) : Bool :=
  img.header != 0 && textVmaddr img != 0 && (scan img).varsStart != 0 && (scan img).varsStart ≤ desc &&
    desc < (scan img).varsStart + (scan img).varsSize

structure Block where
  size : UInt64
  contents : Mem

structure St where
  images : List TlvImage
  /-- The `key_plus_one` field of the descriptor at an address. -/
  keyPlusOne : UInt64 → Nat
  /-- How many keys `pthread_key_create` has handed out. -/
  keys : Nat
  /-- `pthread_getspecific`, of a thread and a key. -/
  specific : Nat → Nat → Option Nat
  blocks : List Block

def St.init : St := ⟨[], fun _ => 0, 0, fun _ _ => none, []⟩

def descOffset (mem : Mem) (desc : UInt64) : UInt64 := read64 mem (desc.toNat + 16)

def newImage (mem : Mem) (img : BridgeImage) (desc : UInt64) (key : Nat) : TlvImage :=
  let sc := scan img
  let none? := sc.templateBase == ~~~(0 : UInt64)
  let templateBase := if none? then 0 else sc.templateBase
  let templateEnd := if none? then descOffset mem desc + 8 else sc.templateEnd
  let totalSize := templateEnd - templateBase
  ⟨img, key + 1, templateBase, sc.regularAddr, sc.regularSize,
    if totalSize = 0 then descOffset mem desc + 8 else totalSize⟩

/-- The loop over `descs`: `key_plus_one` of each descriptor of the section. -/
def setKeys (varsStart varsSize : UInt64) (key : Nat) (fields : UInt64 → Nat) : UInt64 → Nat := fun a =>
  if ∃ d < varsSize.toNat / 24, a = varsStart + 24 * UInt64.ofNat d then key else fields a

def findTlvImage (bridge : List BridgeImage) (mem : Mem) (desc : UInt64) (st : St) : St × Option TlvImage :=
  match st.images.find? (·.holds desc) with
  | some t => (st, some t)
  | none =>
    match bridge.find? (found · desc) with
    | none => (st, none)
    | some img =>
      let t := newImage mem img desc st.keys
      ({ st with
         images := st.images ++ [t]
         keyPlusOne := setKeys (scan img).varsStart (scan img).varsSize t.keyPlusOne st.keyPlusOne
         keys := st.keys + 1 }, some t)

/-! ## `_tlv_bootstrap` -/

/-- The key of the call; a descriptor without one gets its own. -/
def keyFor (desc : UInt64) (image : Option TlvImage) (st : St) : St × Nat :=
  let keyPlusOne := match image with
    | some t => t.keyPlusOne
    | none => st.keyPlusOne desc
  if keyPlusOne = 0 then
    ({ st with keyPlusOne := Function.update st.keyPlusOne desc (st.keys + 1), keys := st.keys + 1 }, st.keys)
  else (st, keyPlusOne - 1)

def newBlock (mem : Mem) (desc : UInt64) : Option TlvImage → Block
  | some t =>
    ⟨if t.totalSize = 0 then 8 else t.totalSize,
     if t.regularAddr ≠ 0 ∧ t.regularSize ≠ 0 then
       put (fun _ => 0) (t.regularAddr - t.templateBase).toNat
         (bytesAt mem (t.image.header + (t.regularAddr - textVmaddr t.image)).toNat t.regularSize.toNat)
     else fun _ => 0⟩
  | none => ⟨if descOffset mem desc + 8 = 0 then 8 else descOffset mem desc + 8, fun _ => 0⟩

/-- The block of the thread under a key, made when there is none. -/
def blockFor (thread key : Nat) (new : Block) (st : St) : St × Nat :=
  match st.specific thread key with
  | some b => (st, b)
  | none =>
    ({ st with
       specific := fun t k => if t = thread ∧ k = key then some st.blocks.length else st.specific t k
       blocks := st.blocks ++ [new] }, st.blocks.length)

/-- The block and the offset of the pointer that is returned. -/
def tlvBootstrap (bridge : List BridgeImage) (mem : Mem) (thread : Nat) (desc : UInt64) (st : St) : St × Nat × UInt64 :=
  let r := findTlvImage bridge mem desc st
  let k := keyFor desc r.2 r.1
  let b := blockFor thread k.2 (newBlock mem desc r.2) k.1
  (b.1, b.2, descOffset mem desc)

/-! ## Runs -/

structure Call where
  thread : Nat
  desc : UInt64
  deriving DecidableEq, Repr

/-- A call and the pointer it returned. -/
structure Event extends Call where
  block : Nat
  offset : UInt64
  deriving DecidableEq, Repr

def step (bridge : List BridgeImage) (mem : Mem) (s : St × List Event) (c : Call) : St × List Event :=
  let r := tlvBootstrap bridge mem c.thread c.desc s.1
  (r.1, s.2 ++ [⟨c, r.2.1, r.2.2⟩])

def run (bridge : List BridgeImage) (mem : Mem) (calls : List Call) : St × List Event :=
  calls.foldl (step bridge mem) (.init, [])

/-! ## What the calls are for -/

/-- `desc` is one of the descriptors in a section of variables of the image. -/
def BridgeImage.HasDescriptor (img : BridgeImage) (desc : UInt64) : Prop :=
  ∃ s ∈ img.sections, isVariables s = true ∧
    ∃ d < s.size.toNat / 24, desc.toNat = (sectionRuntime img s).toNat + 24 * d

/-- The lowest address of a thread-local section. -/
def BridgeImage.Lowest (img : BridgeImage) (low : UInt64) : Prop :=
  (∃ s ∈ img.sections, isTemplate s = true ∧ s.addr = low) ∧ ∀ s ∈ img.sections, isTemplate s = true → low ≤ s.addr

/-- The block has room for every thread-local section and holds the image's template:
    the bytes of the regular sections, each at its offset from the lowest section, and
    zeros elsewhere. -/
structure BridgeImage.Template (img : BridgeImage) (mem : Mem) (blk : Block) : Prop where
  room : ∀ low, img.Lowest low → ∀ s ∈ img.sections, isTemplate s = true →
    (s.addr - low).toNat + s.size.toNat ≤ blk.size.toNat
  regular : ∀ low, img.Lowest low → ∀ s ∈ img.sections, isRegular s = true → ∀ k < s.size.toNat,
    blk.contents ((s.addr - low).toNat + k) = mem ((sectionRuntime img s).toNat + k)
  zero : ∀ x, (∀ low, img.Lowest low → ∀ s ∈ img.sections, isRegular s = true →
    x < (s.addr - low).toNat ∨ (s.addr - low).toNat + s.size.toNat ≤ x) → blk.contents x = 0

/-- Over a run, the image has one block in each thread, for all of its descriptors. -/
structure OneBlockEach (bridge : List BridgeImage) (mem : Mem) (img : BridgeImage) (calls : List Call) : Prop where
  offset : ∀ e ∈ (run bridge mem calls).2, e.offset = descOffset mem e.desc
  shared : ∀ e ∈ (run bridge mem calls).2, ∀ e' ∈ (run bridge mem calls).2, img.HasDescriptor e.desc →
    img.HasDescriptor e'.desc → (e.block = e'.block ↔ e.thread = e'.thread)
  own : ∀ e ∈ (run bridge mem calls).2, ∀ e' ∈ (run bridge mem calls).2, img.HasDescriptor e.desc →
    ∀ other ∈ bridge, other.header ≠ img.header → other.HasDescriptor e'.desc → e.block ≠ e'.block
  template : ∀ e ∈ (run bridge mem calls).2, img.HasDescriptor e.desc →
    ∃ blk, (run bridge mem calls).1.blocks[e.block]? = some blk ∧ img.Template mem blk

/-! ## The images it works for -/

/-- `a` lies in a section of variables of the image. -/
def BridgeImage.InVariables (img : BridgeImage) (a : UInt64) : Prop :=
  ∃ s ∈ img.sections, isVariables s = true ∧ (sectionRuntime img s).toNat ≤ a.toNat ∧
    a.toNat < (sectionRuntime img s).toNat + s.size.toNat

/-- Linked at an address other than 0, with one section of variables and one of initial
    values at most. The other conditions are those of a mapped image: it and its
    variables are not at NULL, and no section runs around the end of the address space. -/
structure BridgeImage.Plain (img : BridgeImage) : Prop where
  mapped : img.header ≠ 0
  linked : textVmaddr img ≠ 0
  one_regular : (img.sections.filter isRegular).length ≤ 1
  one_variables : (img.sections.filter isVariables).length ≤ 1
  regular_addr : ∀ s ∈ img.sections, isRegular s = true → s.addr ≠ 0
  variables_addr : ∀ s ∈ img.sections, isVariables s = true →
    sectionRuntime img s ≠ 0 ∧ (sectionRuntime img s).toNat + s.size.toNat < 2 ^ 64
  template_end : ∀ s ∈ img.sections, isTemplate s = true → s.addr.toNat + s.size.toNat < 2 ^ 64

/-- No other image of the table has the same header, or variables in the same place. -/
structure Separate (bridge : List BridgeImage) (img : BridgeImage) : Prop where
  header : ∀ other ∈ bridge, other.header = img.header → other = img
  apart : ∀ other ∈ bridge, other.header ≠ img.header → ∀ a, img.InVariables a → ¬ other.InVariables a

variable {desc : UInt64} {s : Section64} {t : TlvImage}

theorem BridgeImage.HasDescriptor.inVariables {img : BridgeImage} (h : img.HasDescriptor desc) : img.InVariables desc := by
  obtain ⟨s, hs, hv, d, hd, heq⟩ := h
  exact ⟨s, hs, hv, by omega, by omega⟩

/-- The comparisons of the code are those of the addresses: a range that wraps holds nothing. -/
theorem inVariables_of_lt {img : BridgeImage} {a : UInt64} (hs : s ∈ img.sections)
    (hv : isVariables s = true) (hlow : sectionRuntime img s ≤ a) (hhigh : a < sectionRuntime img s + s.size) :
    img.InVariables a := by
  rw [UInt64.le_iff_toNat_le] at hlow
  rw [UInt64.lt_iff_toNat_lt, UInt64.toNat_add] at hhigh
  have hmod := Nat.mod_le ((sectionRuntime img s).toNat + s.size.toNat) (2 ^ 64)
  exact ⟨s, hs, hv, hlow, by omega⟩

theorem TlvImage.holds_inVariables {a : UInt64} (h : t.holds a = true) : t.image.InVariables a := by
  obtain ⟨s, hs, h⟩ := List.any_eq_true.mp h
  simp only [Bool.and_eq_true, decide_eq_true_eq] at h
  exact inVariables_of_lt hs h.1.1 h.1.2 h.2

/-! ## The scan of an image's sections -/

section Scan

variable {img : BridgeImage}

theorem isTemplate_of_isRegular (h : isRegular s = true) : isTemplate s = true := by
  simp only [isRegular, isTemplate, Bool.or_eq_true] at h ⊢
  exact Or.inl h

theorem not_isVariables_of_isTemplate (h : isTemplate s = true) : isVariables s = false := by
  simp only [isTemplate, isVariables, Bool.or_eq_true, beq_iff_eq] at h ⊢
  rw [beq_eq_false_iff_ne]
  rcases h with h | h <;> rw [h] <;> decide

theorem filter_eq_singleton {l : List Section64} {p : Section64 → Bool} (hlen : (l.filter p).length ≤ 1)
    (hs : s ∈ l) (hp : p s = true) : l.filter p = [s] := by
  have hmem : s ∈ l.filter p := List.mem_filter.mpr ⟨hs, hp⟩
  obtain ⟨s', hs'⟩ := List.length_eq_one_iff.mp (Nat.le_antisymm hlen (List.length_pos_of_mem hmem))
  rw [hs'] at hmem ⊢
  rw [List.mem_singleton.mp hmem]

theorem scan_bounds : ∀ (l : List Section64) (sc : Scan),
    (l.foldl (scanSection img) sc).templateBase ≤ sc.templateBase ∧
    sc.templateEnd ≤ (l.foldl (scanSection img) sc).templateEnd ∧
    ∀ s ∈ l, isTemplate s = true → (l.foldl (scanSection img) sc).templateBase ≤ s.addr ∧
      s.addr + s.size ≤ (l.foldl (scanSection img) sc).templateEnd := by
  intro l
  induction l with
  | nil => intro sc; exact ⟨UInt64.le_refl _, UInt64.le_refl _, fun _ h => by cases h⟩
  | cons a l ih =>
    intro sc
    obtain ⟨hbase, hend, hall⟩ := ih (scanSection img sc a)
    have hstep : (scanSection img sc a).templateBase ≤ sc.templateBase ∧ sc.templateEnd ≤ (scanSection img sc a).templateEnd ∧
        (isTemplate a = true → (scanSection img sc a).templateBase ≤ a.addr ∧
          a.addr + a.size ≤ (scanSection img sc a).templateEnd) := by
      unfold scanSection
      split_ifs <;> simp_all [UInt64.le_iff_toNat_le, UInt64.lt_iff_toNat_lt] <;> omega
    obtain ⟨hb, he, ha⟩ := hstep
    refine ⟨UInt64.le_trans hbase hb, UInt64.le_trans he hend, fun s hs ht => ?_⟩
    rcases List.mem_cons.mp hs with rfl | hs
    · exact ⟨UInt64.le_trans hbase (ha ht).1, UInt64.le_trans (ha ht).2 hend⟩
    · exact hall s hs ht

theorem scanSection_base (img : BridgeImage) (sc : Scan) (s : Section64) :
    (scanSection img sc s).templateBase = sc.templateBase ∨
    isTemplate s = true ∧ (scanSection img sc s).templateBase = s.addr := by
  unfold scanSection
  by_cases ht : isTemplate s = true
  · rw [if_pos ht]
    by_cases hlt : s.addr < sc.templateBase
    · exact Or.inr ⟨ht, if_pos hlt⟩
    · exact Or.inl (if_neg hlt)
  · rw [if_neg ht]
    split_ifs
    · exact Or.inl rfl
    · exact Or.inl rfl

theorem scan_base : ∀ (l : List Section64) (sc : Scan),
    (l.foldl (scanSection img) sc).templateBase = sc.templateBase ∨
    ∃ s ∈ l, isTemplate s = true ∧ (l.foldl (scanSection img) sc).templateBase = s.addr := by
  intro l
  induction l with
  | nil => intro sc; exact Or.inl rfl
  | cons a l ih =>
    intro sc
    rcases ih (scanSection img sc a) with h | ⟨s, hs, ht, h⟩
    · rw [List.foldl_cons, h]
      rcases scanSection_base img sc a with h' | ⟨ht, h'⟩
      · exact Or.inl h'
      · exact Or.inr ⟨a, List.mem_cons_self, ht, h'⟩
    · exact Or.inr ⟨s, List.mem_cons_of_mem _ hs, ht, h⟩

/-- What a scan remembers of the sections of one kind: the last of them. -/
theorem scan_last {β : Type} (p : Section64 → Bool) (get : Scan → β) (of : Section64 → β)
    (hset : ∀ sc s, p s = true → get (scanSection img sc s) = of s)
    (hkeep : ∀ sc s, p s = false → get (scanSection img sc s) = get sc) : ∀ (l : List Section64) (sc : Scan),
    (l.filter p = [] → get (l.foldl (scanSection img) sc) = get sc) ∧
    (∀ s, l.filter p = [s] → get (l.foldl (scanSection img) sc) = of s) ∧
    (get (l.foldl (scanSection img) sc) = get sc ∨ ∃ s ∈ l, p s = true ∧ get (l.foldl (scanSection img) sc) = of s) := by
  intro l
  induction l with
  | nil => intro sc; exact ⟨fun _ => rfl, fun s h => by simp at h, Or.inl rfl⟩
  | cons a l ih =>
    intro sc
    obtain ⟨hnone, hone, hlast⟩ := ih (scanSection img sc a)
    rw [List.foldl_cons]
    cases ha : p a with
    | true =>
      refine ⟨fun h => ?_, fun s h => ?_, Or.inr ?_⟩
      · rw [List.filter_cons_of_pos ha] at h
        cases h
      · rw [List.filter_cons_of_pos ha, List.cons.injEq] at h
        rw [hnone h.2, hset sc a ha, h.1]
      · rcases hlast with h | ⟨s, hs, hp, h⟩
        · exact ⟨a, List.mem_cons_self, ha, by rw [h, hset sc a ha]⟩
        · exact ⟨s, List.mem_cons_of_mem _ hs, hp, h⟩
    | false =>
      rw [List.filter_cons_of_neg (by simp [ha])]
      rw [hkeep sc a ha] at hnone hlast
      refine ⟨hnone, hone, ?_⟩
      rcases hlast with h | ⟨s, hs, hp, h⟩
      · exact Or.inl h
      · exact Or.inr ⟨s, List.mem_cons_of_mem _ hs, hp, h⟩

theorem scan_regular : (img.sections.filter isRegular = [] → ((scan img).regularAddr, (scan img).regularSize) = (0, 0)) ∧
    ∀ s, img.sections.filter isRegular = [s] → ((scan img).regularAddr, (scan img).regularSize) = (s.addr, s.size) := by
  have hset : ∀ sc s, isRegular s = true →
      ((scanSection img sc s).regularAddr, (scanSection img sc s).regularSize) = (s.addr, s.size) := by
    intro sc s hr
    simp [scanSection, isTemplate_of_isRegular hr, hr]
  have hkeep : ∀ sc s, isRegular s = false →
      ((scanSection img sc s).regularAddr, (scanSection img sc s).regularSize) = (sc.regularAddr, sc.regularSize) := by
    intro sc s hr
    unfold scanSection
    split_ifs <;> simp_all
  have h := scan_last isRegular (fun sc => (sc.regularAddr, sc.regularSize)) (fun s => (s.addr, s.size)) hset hkeep
    img.sections .start
  exact ⟨h.1, h.2.1⟩

theorem scan_variables : (∀ s, img.sections.filter isVariables = [s] →
      ((scan img).varsStart, (scan img).varsSize) = (sectionRuntime img s, s.size)) ∧
    ((scan img).varsStart = 0 ∨ ∃ s ∈ img.sections, isVariables s = true ∧
      (scan img).varsStart = sectionRuntime img s ∧ (scan img).varsSize = s.size) := by
  have hset : ∀ sc s, isVariables s = true →
      ((scanSection img sc s).varsStart, (scanSection img sc s).varsSize) = (sectionRuntime img s, s.size) := by
    intro sc s hv
    have ht : isTemplate s = false := by
      by_contra ht
      rw [Bool.not_eq_false] at ht
      rw [not_isVariables_of_isTemplate ht] at hv
      cases hv
    simp [scanSection, ht, hv]
  have hkeep : ∀ sc s, isVariables s = false →
      ((scanSection img sc s).varsStart, (scanSection img sc s).varsSize) = (sc.varsStart, sc.varsSize) := by
    intro sc s hv
    unfold scanSection
    split_ifs <;> simp_all
  have h := scan_last isVariables (fun sc => (sc.varsStart, sc.varsSize)) (fun s => (sectionRuntime img s, s.size)) hset
    hkeep img.sections .start
  refine ⟨h.2.1, ?_⟩
  rcases h.2.2 with h | ⟨s, hs, hv, h⟩
  · exact Or.inl (congrArg Prod.fst h)
  · exact Or.inr ⟨s, hs, hv, congrArg Prod.fst h, congrArg Prod.snd h⟩

/-- An image that the second loop stops at is found by the first one from then on. -/
theorem found_holds (h : found img desc = true) (ht : t.image = img) : t.holds desc = true := by
  simp only [found, Bool.and_eq_true, bne_iff_ne, ne_eq, decide_eq_true_eq] at h
  obtain ⟨⟨⟨-, hne⟩, hlow⟩, hhigh⟩ := h
  rcases scan_variables.2 with h0 | ⟨s, hs, hv, hstart, hsize⟩
  · exact absurd h0 hne
  · rw [hstart, hsize] at hhigh
    rw [hstart] at hlow
    refine List.any_eq_true.mpr ⟨s, by rw [ht]; exact hs, ?_⟩
    rw [ht]
    simp [hv, hlow, hhigh]

theorem BridgeImage.Plain.found (hp : img.Plain) (hd : img.HasDescriptor desc) : found img desc = true := by
  obtain ⟨s, hs, hv, d, hdlt, heq⟩ := hd
  have hscan := scan_variables.1 s (filter_eq_singleton hp.one_variables hs hv)
  obtain ⟨hne, hend⟩ := hp.variables_addr s hs hv
  have hstart : (scan img).varsStart = sectionRuntime img s := congrArg Prod.fst hscan
  have hsize : (scan img).varsSize = s.size := congrArg Prod.snd hscan
  have hsum : (sectionRuntime img s + s.size).toNat = (sectionRuntime img s).toNat + s.size.toNat := by
    rw [UInt64.toNat_add]
    omega
  simp only [Tlv.found, hstart, hsize, Bool.and_eq_true, bne_iff_ne, ne_eq, decide_eq_true_eq, UInt64.le_iff_toNat_le,
    UInt64.lt_iff_toNat_lt, hsum]
  exact ⟨⟨⟨⟨hp.mapped, hp.linked⟩, hne⟩, by omega⟩, by omega⟩

/-- Where the scan starts a template: at the lowest section, unless all there is lies
    empty at the end of the address space. -/
theorem BridgeImage.Plain.lowest (hp : img.Plain) :
    ((scan img).templateBase ≠ ~~~(0 : UInt64) ∧ img.Lowest (scan img).templateBase) ∨
    (scan img).templateBase = ~~~(0 : UInt64) ∧ ∀ s ∈ img.sections, isTemplate s = true → s.addr = ~~~(0 : UInt64) ∧ s.size = 0 := by
  have hall : ∀ s ∈ img.sections, isTemplate s = true → (scan img).templateBase ≤ s.addr := fun s hs ht =>
    ((scan_bounds img.sections .start).2.2 s hs ht).1
  by_cases hbase : (scan img).templateBase = ~~~(0 : UInt64)
  · refine Or.inr ⟨hbase, fun s hs ht => ?_⟩
    have hle := hall s hs ht
    have hend := hp.template_end s hs ht
    have hmax : (~~~(0 : UInt64)).toNat = 2 ^ 64 - 1 := by decide
    rw [hbase, UInt64.le_iff_toNat_le, hmax] at hle
    constructor
    · apply UInt64.toNat_inj.mp
      omega
    · apply UInt64.toNat_inj.mp
      rw [UInt64.toNat_zero]
      omega
  · refine Or.inl ⟨hbase, ?_, hall⟩
    rcases scan_base img.sections .start with h | ⟨s, hs, ht, h⟩
    · exact absurd h hbase
    · exact ⟨s, hs, ht, h.symm⟩

theorem BridgeImage.Lowest.unique {low low' : UInt64} (h : img.Lowest low) (h' : img.Lowest low') : low = low' := by
  obtain ⟨⟨s, hs, ht, rfl⟩, hall⟩ := h
  obtain ⟨⟨s', hs', ht', rfl⟩, hall'⟩ := h'
  exact UInt64.le_antisymm (hall s' hs' ht') (hall' s hs ht)

/-- The block a thread gets for an image holds the image's template. -/
theorem BridgeImage.Plain.template (hp : img.Plain) (mem : Mem) (desc desc' : UInt64) (key : Nat) :
    img.Template mem (newBlock mem desc' (some (newImage mem img desc key))) := by
  have hends : ∀ s ∈ img.sections, isTemplate s = true → s.addr + s.size ≤ (scan img).templateEnd := fun s hs ht =>
    ((scan_bounds img.sections .start).2.2 s hs ht).2
  have hregular : ∀ s ∈ img.sections, isRegular s = true → (scan img).regularAddr = s.addr ∧ (scan img).regularSize = s.size :=
    fun s hs hr => Prod.mk.inj (scan_regular.2 s (filter_eq_singleton hp.one_regular hs hr))
  constructor
  case room =>
    intro low hlow s hs ht
    have hle := hlow.2 s hs ht
    rcases hp.lowest with ⟨hbase, hlow'⟩ | ⟨-, hempty⟩
    · obtain rfl := hlow.unique hlow'
      have hend := hends s hs ht
      have hwrap := hp.template_end s hs ht
      rw [UInt64.le_iff_toNat_le] at hle hend
      rw [UInt64.toNat_add, Nat.mod_eq_of_lt hwrap] at hend
      have hsub : (s.addr - (scan img).templateBase).toNat = s.addr.toNat - (scan img).templateBase.toNat :=
        UInt64.toNat_sub_of_le _ _ (UInt64.le_iff_toNat_le.mpr hle)
      have htotal : ((scan img).templateEnd - (scan img).templateBase).toNat =
          (scan img).templateEnd.toNat - (scan img).templateBase.toNat :=
        UInt64.toNat_sub_of_le _ _ (UInt64.le_iff_toNat_le.mpr (by omega))
      simp only [newBlock, newImage, beq_eq_false_iff_ne.mpr hbase, Bool.false_eq_true, if_false]
      by_cases hzero : (scan img).templateEnd - (scan img).templateBase = 0
      · rw [hzero, UInt64.toNat_zero] at htotal
        omega
      · rw [if_neg hzero, if_neg hzero]
        omega
    · obtain ⟨hs0, hsize⟩ := hempty s hs ht
      have hsame : s.addr = low := by
        obtain ⟨⟨s1, hs1, ht1, rfl⟩, -⟩ := hlow
        rw [hs0, (hempty s1 hs1 ht1).1]
      rw [hsame, hsize, UInt64.sub_self, UInt64.toNat_zero]
      exact Nat.zero_le _
  case regular =>
    intro low hlow s hs hr k hk
    have ht := isTemplate_of_isRegular hr
    obtain ⟨haddr, hsize⟩ := hregular s hs hr
    rcases hp.lowest with ⟨hbase, hlow'⟩ | ⟨-, hempty⟩
    · obtain rfl := hlow.unique hlow'
      have hne : s.size ≠ 0 := by
        rintro h0
        rw [h0, UInt64.toNat_zero] at hk
        omega
      simp only [newBlock, newImage, beq_eq_false_iff_ne.mpr hbase, Bool.false_eq_true, if_false, haddr, hsize]
      rw [if_pos ⟨hp.regular_addr s hs hr, hne⟩, put_inside (by simpa [bytesAt] using hk)]
      simp [bytesAt, hk, sectionRuntime]
    · rw [(hempty s hs ht).2, UInt64.toNat_zero] at hk
      omega
  case zero =>
    intro x hx
    simp only [newBlock]
    split_ifs with hreg
    · -- there are bytes to copy, so there is a regular section, and it has its place
      cases hfilter : img.sections.filter isRegular with
      | nil => exact absurd (congrArg Prod.fst (scan_regular.1 hfilter)) hreg.1
      | cons s l =>
        have hmem : s ∈ img.sections.filter isRegular := by rw [hfilter]; exact List.mem_cons_self
        obtain ⟨hs, hr⟩ := List.mem_filter.mp hmem
        obtain ⟨haddr, hsize⟩ := hregular s hs hr
        simp only [newImage, haddr, hsize] at hreg ⊢
        rcases hp.lowest with ⟨hbase, hlow⟩ | ⟨-, hempty⟩
        · have hout := hx _ hlow s hs hr
          rw [put_outside]
          simp only [Range.mem_iff, bytesAt, List.length_map, List.length_range, beq_eq_false_iff_ne.mpr hbase,
            Bool.false_eq_true, if_false]
          omega
        · exact absurd (hempty s hs (isTemplate_of_isRegular hr)).2 hreg.2
    · rfl

end Scan

/-! ## The invariant -/

/-- Who has which key, and which block; `img` is the image in question. -/
structure Inv (bridge : List BridgeImage) (mem : Mem) (img : BridgeImage) (st : St) : Prop where
  listed : ∀ t ∈ st.images, t.image ∈ bridge
  once : st.images.Pairwise fun t t' => t.image ≠ t'.image
  image_keys : ∀ t ∈ st.images, 0 < t.keyPlusOne ∧ t.keyPlusOne ≤ st.keys
  distinct_keys : st.images.Pairwise fun t t' => t.keyPlusOne ≠ t'.keyPlusOne
  field_keys : ∀ a, st.keyPlusOne a ≤ st.keys
  /-- Only a descriptor of the image has the image's key in its field. -/
  field_own : ∀ a, ∀ t ∈ st.images, st.keyPlusOne a = t.keyPlusOne → t.holds a = true
  values : ∀ thread key b, st.specific thread key = some b → key < st.keys ∧ b < st.blocks.length
  distinct_blocks : ∀ thread key thread' key' b, st.specific thread key = some b → st.specific thread' key' = some b →
    thread = thread' ∧ key = key'
  made : ∀ t ∈ st.images, t.image = img → ∃ desc key, t = newImage mem img desc key
  filled : ∀ t ∈ st.images, t.image = img → ∀ thread b, st.specific thread (t.keyPlusOne - 1) = some b →
    ∃ blk, st.blocks[b]? = some blk ∧ img.Template mem blk

theorem inv_init (bridge : List BridgeImage) (mem : Mem) (img : BridgeImage) : Inv bridge mem img .init where
  listed := fun _ h => by cases h
  once := List.Pairwise.nil
  image_keys := fun _ h => by cases h
  distinct_keys := List.Pairwise.nil
  field_keys := fun _ => Nat.zero_le _
  field_own := fun _ _ h => by cases h
  values := fun _ _ _ h => by cases h
  distinct_blocks := fun _ _ _ _ _ h => by cases h
  made := fun _ h => by cases h
  filled := fun _ h => by cases h

/-- A state goes on: nothing is taken back, and images that are new have new keys. -/
structure Extends (st st' : St) : Prop where
  images : ∀ t ∈ st.images, t ∈ st'.images
  fresh : ∀ t ∈ st'.images, t ∈ st.images ∨ st.keys < t.keyPlusOne
  specific : ∀ thread key b, st.specific thread key = some b → st'.specific thread key = some b
  keys : st.keys ≤ st'.keys

theorem Extends.refl (st : St) : Extends st st := ⟨fun _ h => h, fun _ h => Or.inl h, fun _ _ _ h => h, Nat.le_refl _⟩

theorem Extends.trans {st st' st'' : St} (h : Extends st st') (h' : Extends st' st'') : Extends st st'' where
  images := fun t ht => h'.images t (h.images t ht)
  fresh := fun t ht => by
    rcases h'.fresh t ht with ht | hlt
    · exact h.fresh t ht
    · exact Or.inr (Nat.lt_of_le_of_lt h.keys hlt)
  specific := fun thread key b hb => h'.specific thread key b (h.specific thread key b hb)
  keys := Nat.le_trans h.keys h'.keys

section Step

variable {bridge : List BridgeImage} {mem : Mem} {img : BridgeImage} {st : St} {desc : UInt64} {thread : Nat}

theorem findTlvImage_cases (bridge : List BridgeImage) (mem : Mem) (desc : UInt64) (st : St) :
    (∃ t ∈ st.images, t.holds desc = true ∧ findTlvImage bridge mem desc st = (st, some t)) ∨
    (∀ t ∈ st.images, t.holds desc = false) ∧
      ((∀ other ∈ bridge, found other desc = false) ∧ findTlvImage bridge mem desc st = (st, none) ∨
      ∃ other ∈ bridge, found other desc = true ∧ findTlvImage bridge mem desc st =
        (⟨st.images ++ [newImage mem other desc st.keys],
          setKeys (scan other).varsStart (scan other).varsSize (st.keys + 1) st.keyPlusOne, st.keys + 1, st.specific,
          st.blocks⟩, some (newImage mem other desc st.keys))) := by
  unfold findTlvImage
  cases hc : st.images.find? (·.holds desc) with
  | some t => exact Or.inl ⟨t, List.mem_of_find?_eq_some hc, by simpa using List.find?_some hc, rfl⟩
  | none =>
    refine Or.inr ⟨fun t ht => by simpa using List.find?_eq_none.mp hc t ht, ?_⟩
    cases hb : bridge.find? (found · desc) with
    | none => exact Or.inl ⟨fun other ho => by simpa using List.find?_eq_none.mp hb other ho, rfl⟩
    | some other => exact Or.inr ⟨other, List.mem_of_find?_eq_some hb, by simpa using List.find?_some hb, rfl⟩

/-- The addresses the loop over `descs` writes lie in the section it goes over. -/
theorem setKeys_cases {other : BridgeImage} (hf : found other desc = true) (ht : t.image = other) (key : Nat)
    (fields : UInt64 → Nat) (a : UInt64) :
    setKeys (scan other).varsStart (scan other).varsSize key fields a = fields a ∨
    setKeys (scan other).varsStart (scan other).varsSize key fields a = key ∧ t.holds a = true := by
  unfold setKeys
  split_ifs with h
  · refine Or.inr ⟨rfl, ?_⟩
    obtain ⟨d, hd, rfl⟩ := h
    refine found_holds ?_ ht
    simp only [found, Bool.and_eq_true, bne_iff_ne, ne_eq, decide_eq_true_eq] at hf ⊢
    obtain ⟨hskip, hlow, hhigh⟩ : _ ∧ _ ∧ _ := ⟨hf.1.1, hf.1.2, hf.2⟩
    rw [UInt64.le_iff_toNat_le] at hlow
    rw [UInt64.lt_iff_toNat_lt, UInt64.toNat_add] at hhigh
    have hsize := (scan other).varsSize.toNat_lt
    have hstart := (scan other).varsStart.toNat_lt
    have ha : ((scan other).varsStart + 24 * UInt64.ofNat d).toNat = (scan other).varsStart.toNat + 24 * d := by
      rw [UInt64.toNat_add, UInt64.toNat_mul, UInt64.toNat_ofNat']
      have h24 : (24 : UInt64).toNat = 24 := rfl
      rw [h24]
      omega
    refine ⟨⟨hskip, ?_⟩, ?_⟩
    · rw [UInt64.le_iff_toNat_le, ha]
      omega
    · rw [UInt64.lt_iff_toNat_lt, ha, UInt64.toNat_add]
      omega
  · exact Or.inl rfl

theorem forall_mem_concat {α : Type} {l : List α} {x : α} {P : α → Prop} (hl : ∀ y ∈ l, P y) (hx : P x) : ∀ y ∈ l ++ [x], P y :=
  List.forall_mem_append.mpr ⟨hl, List.forall_mem_singleton.mpr hx⟩

section Inv

variable (hi : Inv bridge mem img st)
include hi

theorem inv_newImage {other : BridgeImage} (ho : other ∈ bridge) (hf : found other desc = true)
    (hcached : ∀ t ∈ st.images, t.holds desc = false) :
    Inv bridge mem img ⟨st.images ++ [newImage mem other desc st.keys],
      setKeys (scan other).varsStart (scan other).varsSize (st.keys + 1) st.keyPlusOne, st.keys + 1, st.specific, st.blocks⟩ := by
  -- the image is new to the table, or the first loop would have stopped at it
  have hnew : ∀ t ∈ st.images, t.image ≠ other := by
    intro t ht himg
    have := hcached t ht
    rw [found_holds hf himg] at this
    cases this
  have hfield := setKeys_cases hf (t := newImage mem other desc st.keys) rfl (st.keys + 1) st.keyPlusOne
  constructor
  case listed => exact forall_mem_concat hi.listed ho
  case once =>
    refine List.pairwise_append.mpr ⟨hi.once, List.pairwise_singleton _ _, fun t ht t' ht' => ?_⟩
    rw [List.mem_singleton.mp ht']
    exact hnew t ht
  case image_keys =>
    refine forall_mem_concat (fun t ht => ?_) ⟨Nat.succ_pos _, Nat.le_refl _⟩
    have := hi.image_keys t ht
    exact ⟨this.1, Nat.le_succ_of_le this.2⟩
  case distinct_keys =>
    refine List.pairwise_append.mpr ⟨hi.distinct_keys, List.pairwise_singleton _ _, fun t ht t' ht' => ?_⟩
    have := hi.image_keys t ht
    have hlast : t'.keyPlusOne = st.keys + 1 := by rw [List.mem_singleton.mp ht']; rfl
    omega
  case field_keys =>
    intro a
    have := hi.field_keys a
    rcases hfield a with h | ⟨h, -⟩ <;> simp only [h] <;> omega
  case field_own =>
    intro a
    have hle := hi.field_keys a
    refine forall_mem_concat (fun t ht hkey => ?_) fun hkey => ?_
    · have hpos := hi.image_keys t ht
      rcases hfield a with h | ⟨h, -⟩
      · exact hi.field_own a t ht (h.symm.trans hkey)
      · have hlast : st.keys + 1 = t.keyPlusOne := h.symm.trans hkey
        omega
    · rcases hfield a with h | ⟨-, h⟩
      · have hlast : st.keyPlusOne a = st.keys + 1 := h.symm.trans hkey
        omega
      · exact h
  case values =>
    intro thread key b hb
    have := hi.values thread key b hb
    exact ⟨Nat.lt_succ_of_lt this.1, this.2⟩
  case distinct_blocks => exact hi.distinct_blocks
  case made => exact forall_mem_concat hi.made fun h => ⟨desc, st.keys, by rw [← h]; rfl⟩
  case filled =>
    refine forall_mem_concat hi.filled fun _ thread b hb => ?_
    -- nothing is stored under a key that was just made
    have := (hi.values thread st.keys b hb).1
    omega

theorem inv_newKey : Inv bridge mem img { st with
    keyPlusOne := Function.update st.keyPlusOne desc (st.keys + 1), keys := st.keys + 1 } where
  listed := hi.listed
  once := hi.once
  image_keys := fun t ht => ⟨(hi.image_keys t ht).1, Nat.le_succ_of_le (hi.image_keys t ht).2⟩
  distinct_keys := hi.distinct_keys
  field_keys := fun a => by
    by_cases ha : a = desc
    · rw [ha]; simp
    · have := hi.field_keys a
      simp only [Function.update_of_ne ha]
      omega
  field_own := fun a t ht hkey => by
    have hle := hi.image_keys t ht
    by_cases ha : a = desc
    · rw [ha] at hkey
      simp only [Function.update_self] at hkey
      omega
    · simp only [Function.update_of_ne ha] at hkey
      exact hi.field_own a t ht hkey
  values := fun thread key b hb => ⟨Nat.lt_succ_of_lt (hi.values thread key b hb).1, (hi.values thread key b hb).2⟩
  distinct_blocks := hi.distinct_blocks
  made := hi.made
  filled := hi.filled

theorem inv_newBlock {key : Nat} (hkey : key < st.keys) (hs : st.specific thread key = none) {new : Block}
    (hnew : ∀ t ∈ st.images, t.image = img → t.keyPlusOne = key + 1 → img.Template mem new) : Inv bridge mem img { st with
      specific := fun t k => if t = thread ∧ k = key then some st.blocks.length else st.specific t k
      blocks := st.blocks ++ [new] } := by
  have hvalue : ∀ t k b, (if t = thread ∧ k = key then some st.blocks.length else st.specific t k) = some b →
      (t = thread ∧ k = key ∧ b = st.blocks.length) ∨ (st.specific t k = some b ∧ b < st.blocks.length) := by
    intro t k b h
    split_ifs at h with hcase
    · cases h
      exact Or.inl ⟨hcase.1, hcase.2, rfl⟩
    · exact Or.inr ⟨h, (hi.values t k b h).2⟩
  refine { hi with values := ?_, distinct_blocks := ?_, filled := ?_ }
  · intro t k b hb
    simp only [List.length_append, List.length_singleton]
    rcases hvalue t k b hb with ⟨-, rfl, rfl⟩ | ⟨hb, -⟩
    · exact ⟨hkey, Nat.lt_succ_self _⟩
    · have := hi.values t k b hb
      exact ⟨this.1, Nat.lt_succ_of_lt this.2⟩
  · intro t k t' k' b hb hb'
    rcases hvalue t k b hb with ⟨rfl, rfl, rfl⟩ | ⟨hb, hlt⟩ <;> rcases hvalue t' k' _ hb' with ⟨rfl, rfl, h⟩ | ⟨hb', hlt'⟩
    · exact ⟨rfl, rfl⟩
    · exact absurd hlt' (Nat.lt_irrefl _)
    · rw [h] at hlt
      exact absurd hlt (Nat.lt_irrefl _)
    · exact hi.distinct_blocks t k t' k' b hb hb'
  · intro t ht himg T b hb
    rcases hvalue T _ b hb with ⟨-, hk, rfl⟩ | ⟨hb, hlt⟩
    · have hpos := hi.image_keys t ht
      exact ⟨new, by simp, hnew t ht himg (by omega)⟩
    · obtain ⟨blk, hblk, htemplate⟩ := hi.filled t ht himg T b hb
      exact ⟨blk, by rw [List.getElem?_append_left hlt]; exact hblk, htemplate⟩

variable (desc) in
/-- The first step: the image is in the table afterwards, if there is one. -/
theorem findTlvImage_inv :
    Inv bridge mem img (findTlvImage bridge mem desc st).1 ∧ Extends st (findTlvImage bridge mem desc st).1 ∧
    (∀ t, (findTlvImage bridge mem desc st).2 = some t → t ∈ (findTlvImage bridge mem desc st).1.images ∧
      t.holds desc = true) ∧
    ((findTlvImage bridge mem desc st).2 = none → (∀ t ∈ (findTlvImage bridge mem desc st).1.images, t.holds desc = false) ∧
      ∀ other ∈ bridge, found other desc = false) := by
  rcases findTlvImage_cases bridge mem desc st with ⟨t, ht, hh, heq⟩ | ⟨hcached, ⟨hnone, heq⟩ | ⟨other, ho, hf, heq⟩⟩
  · rw [heq]
    refine ⟨hi, .refl st, ?_, fun h => by cases h⟩
    rintro t' h
    cases h
    exact ⟨ht, hh⟩
  · rw [heq]
    exact ⟨hi, .refl st, (fun t' h => by cases h), fun _ => ⟨hcached, hnone⟩⟩
  · rw [heq]
    have hholds : (newImage mem other desc st.keys).holds desc = true := found_holds hf rfl
    refine ⟨inv_newImage hi ho hf hcached, ?_, ?_, fun h => by cases h⟩
    · refine ⟨fun t ht => List.mem_append_left _ ht, fun t ht => ?_, fun _ _ _ h => h, Nat.le_succ _⟩
      rcases List.mem_append.mp ht with ht | ht
      · exact Or.inl ht
      · rw [List.mem_singleton.mp ht]
        exact Or.inr (Nat.lt_succ_self _)
    · rintro t h
      cases h
      exact ⟨List.mem_append_right _ List.mem_cons_self, hholds⟩

/-- What the second step gives: the image's key, or a key no image has. -/
theorem keyFor_inv (image : Option TlvImage) (himage : ∀ t, image = some t → t ∈ st.images)
    (hnone : image = none → ∀ t ∈ st.images, t.holds desc = false) :
    Inv bridge mem img (keyFor desc image st).1 ∧ Extends st (keyFor desc image st).1 ∧
    (keyFor desc image st).1.images = st.images ∧ (keyFor desc image st).2 < (keyFor desc image st).1.keys ∧
    (∀ t, image = some t → t.keyPlusOne = (keyFor desc image st).2 + 1) ∧
    (image = none → ∀ t ∈ st.images, t.keyPlusOne ≠ (keyFor desc image st).2 + 1) := by
  cases image with
  | some t =>
    obtain ⟨hpos, hle⟩ := hi.image_keys t (himage t rfl)
    have heq : keyFor desc (some t) st = (st, t.keyPlusOne - 1) := by
      simp only [keyFor]
      rw [if_neg (by omega)]
    rw [heq]
    refine ⟨hi, .refl st, rfl, by simp only; omega, ?_, fun h => by cases h⟩
    rintro t' h
    cases h
    simp only
    omega
  | none =>
    by_cases hzero : st.keyPlusOne desc = 0
    · have heq : keyFor desc none st = ({ st with
          keyPlusOne := Function.update st.keyPlusOne desc (st.keys + 1), keys := st.keys + 1 }, st.keys) := by
        simp only [keyFor]
        rw [if_pos hzero]
      rw [heq]
      refine ⟨inv_newKey hi, ?_, rfl, Nat.lt_succ_self _, (fun t h => by cases h), fun _ t ht => ?_⟩
      · exact ⟨fun t ht => ht, fun t ht => Or.inl ht, fun _ _ _ h => h, Nat.le_succ _⟩
      · have := hi.image_keys t ht
        simp only
        omega
    · have heq : keyFor desc none st = (st, st.keyPlusOne desc - 1) := by
        simp only [keyFor]
        rw [if_neg hzero]
      have hle := hi.field_keys desc
      rw [heq]
      refine ⟨hi, .refl st, rfl, by simp only; omega, (fun t h => by cases h), fun _ t ht hkey => ?_⟩
      simp only at hkey
      have hholds := hi.field_own desc t ht (by omega)
      rw [hnone rfl t ht] at hholds
      cases hholds

variable (thread) in
/-- The third step: the block is there afterwards. -/
theorem blockFor_inv {key : Nat} (hkey : key < st.keys) (new : Block)
    (hnew : ∀ t ∈ st.images, t.image = img → t.keyPlusOne = key + 1 → img.Template mem new) :
    Inv bridge mem img (blockFor thread key new st).1 ∧ Extends st (blockFor thread key new st).1 ∧
    (blockFor thread key new st).1.images = st.images ∧
    (blockFor thread key new st).1.specific thread key = some (blockFor thread key new st).2 := by
  cases hs : st.specific thread key with
  | some b =>
    have heq : blockFor thread key new st = (st, b) := by simp only [blockFor, hs]
    rw [heq]
    exact ⟨hi, .refl st, rfl, hs⟩
  | none =>
    have heq : blockFor thread key new st = ({ st with
        specific := fun t k => if t = thread ∧ k = key then some st.blocks.length else st.specific t k
        blocks := st.blocks ++ [new] }, st.blocks.length) := by simp only [blockFor, hs]
    rw [heq]
    refine ⟨inv_newBlock hi hkey hs hnew, ?_, rfl, if_pos ⟨rfl, rfl⟩⟩
    refine ⟨fun t ht => ht, fun t ht => Or.inl ht, fun t k b hb => ?_, Nat.le_refl _⟩
    simp only
    split_ifs with hcase
    · rw [hcase.1, hcase.2, hs] at hb
      cases hb
    · exact hb

end Inv

theorem eq_of_pairwise {β : Type} {f : TlvImage → β} {l : List TlvImage} (h : l.Pairwise fun t t' => f t ≠ f t')
    {t' : TlvImage} (ht : t ∈ l) (ht' : t' ∈ l) (heq : f t = f t') : t = t' :=
  List.inj_on_of_nodup_map (List.pairwise_map.mpr h) ht ht' heq

/-- The block is that of the image in the thread. -/
def OfImage (img : BridgeImage) (st : St) (thread b : Nat) : Prop :=
  ∃ t ∈ st.images, t.image = img ∧ st.specific thread (t.keyPlusOne - 1) = some b

/-- The block is not one of the image's, in any thread. -/
def OfOther (img : BridgeImage) (st : St) (thread b : Nat) : Prop :=
  ∃ key < st.keys, st.specific thread key = some b ∧ ∀ t ∈ st.images, t.image = img → t.keyPlusOne ≠ key + 1

theorem OfImage.extends {st' : St} {b : Nat} (h : OfImage img st thread b) (hext : Extends st st') : OfImage img st' thread b := by
  obtain ⟨t, ht, himg, hb⟩ := h
  exact ⟨t, hext.images t ht, himg, hext.specific _ _ _ hb⟩

theorem OfOther.extends {st' : St} {b : Nat} (h : OfOther img st thread b) (hext : Extends st st') : OfOther img st' thread b := by
  obtain ⟨key, hkey, hb, hother⟩ := h
  refine ⟨key, Nat.lt_of_lt_of_le hkey hext.keys, hext.specific _ _ _ hb, fun t ht himg => ?_⟩
  rcases hext.fresh t ht with ht | hlt
  · exact hother t ht himg
  · omega

/-- One call, from any state the calls before it may have left. -/
theorem tlvBootstrap_inv (hp : img.Plain) (himg : img ∈ bridge) (hsep : Separate bridge img) (hi : Inv bridge mem img st)
    (thread : Nat) (desc : UInt64) :
    Inv bridge mem img (tlvBootstrap bridge mem thread desc st).1 ∧
    Extends st (tlvBootstrap bridge mem thread desc st).1 ∧
    (img.HasDescriptor desc →
      OfImage img (tlvBootstrap bridge mem thread desc st).1 thread (tlvBootstrap bridge mem thread desc st).2.1) ∧
    (¬ img.InVariables desc →
      OfOther img (tlvBootstrap bridge mem thread desc st).1 thread (tlvBootstrap bridge mem thread desc st).2.1) := by
  obtain ⟨hi1, hext1, hsome, hnone⟩ := findTlvImage_inv desc hi
  unfold tlvBootstrap
  simp only
  generalize findTlvImage bridge mem desc st = r at hi1 hext1 hsome hnone ⊢
  obtain ⟨st1, image⟩ := r
  simp only at hi1 hext1 hsome hnone ⊢
  obtain ⟨hi2, hext2, himages2, hlt, hkey, hkeyNone⟩ :=
    keyFor_inv hi1 image (fun t h => (hsome t h).1) fun h => (hnone h).1
  generalize keyFor desc image st1 = k at hi2 hext2 himages2 hlt hkey hkeyNone ⊢
  obtain ⟨st2, key⟩ := k
  simp only at hi2 hext2 himages2 hlt hkey hkeyNone ⊢
  have hnew : ∀ t ∈ st2.images, t.image = img → t.keyPlusOne = key + 1 → img.Template mem (newBlock mem desc image) := by
    intro t ht hti htk
    cases image with
    | none => exact absurd htk (hkeyNone rfl t (himages2 ▸ ht))
    | some t' =>
      have hsame : t = t' := eq_of_pairwise hi2.distinct_keys ht (himages2.symm ▸ (hsome t' rfl).1) (htk.trans (hkey t' rfl).symm)
      obtain ⟨d, n, hmade⟩ := hi2.made t ht hti
      rw [← hsame, hmade]
      exact hp.template mem d desc n
  obtain ⟨hi3, hext3, himages3, hblock⟩ := blockFor_inv thread hi2 hlt (newBlock mem desc image) hnew
  refine ⟨hi3, (hext1.trans hext2).trans hext3, fun hd => ?_, fun hd => ?_⟩
  · -- the image is found, and no other has the descriptor
    cases image with
    | none => exact absurd (hp.found hd) (by rw [(hnone rfl).2 img himg]; exact Bool.false_ne_true)
    | some t =>
      obtain ⟨ht, hholds⟩ := hsome t rfl
      have hti : t.image = img := by
        by_contra hne
        have hheader : t.image.header ≠ img.header := fun h => hne (hsep.header t.image (hi1.listed t ht) h)
        exact hsep.apart t.image (hi1.listed t ht) hheader desc hd.inVariables (TlvImage.holds_inVariables hholds)
      refine ⟨t, ?_, hti, ?_⟩
      · rw [himages3, himages2]
        exact ht
      · rw [hkey t rfl, Nat.add_sub_cancel]
        exact hblock
  · refine ⟨key, Nat.lt_of_lt_of_le hlt hext3.keys, hblock, fun t ht hti htk => ?_⟩
    rw [himages3, himages2] at ht
    cases image with
    | none => exact hkeyNone rfl t ht htk
    | some t' =>
      obtain ⟨ht', hholds⟩ := hsome t' rfl
      have hsame : t = t' := eq_of_pairwise hi1.distinct_keys ht ht' (htk.trans (hkey t' rfl).symm)
      have hin := TlvImage.holds_inVariables hholds
      rw [← hsame, hti] at hin
      exact hd hin

/-- What the events of a run say about the state it has come to. -/
structure RunInv (bridge : List BridgeImage) (mem : Mem) (img : BridgeImage) (s : St × List Event) : Prop where
  inv : Inv bridge mem img s.1
  offset : ∀ e ∈ s.2, e.offset = descOffset mem e.desc
  image : ∀ e ∈ s.2, img.HasDescriptor e.desc → OfImage img s.1 e.thread e.block
  other : ∀ e ∈ s.2, ¬ img.InVariables e.desc → OfOther img s.1 e.thread e.block

theorem step_inv (hp : img.Plain) (himg : img ∈ bridge) (hsep : Separate bridge img) {s : St × List Event}
    (h : RunInv bridge mem img s) (c : Call) : RunInv bridge mem img (step bridge mem s c) := by
  obtain ⟨hi, hext, hof, hother⟩ := tlvBootstrap_inv hp himg hsep h.inv c.thread c.desc
  exact ⟨hi, forall_mem_concat h.offset rfl, forall_mem_concat (fun e he hd => (h.image e he hd).extends hext) hof,
    forall_mem_concat (fun e he hd => (h.other e he hd).extends hext) hother⟩

theorem run_inv (hp : img.Plain) (himg : img ∈ bridge) (hsep : Separate bridge img) (mem : Mem) (calls : List Call) :
    RunInv bridge mem img (run bridge mem calls) := by
  have hstep : ∀ s c, RunInv bridge mem img s → RunInv bridge mem img (step bridge mem s c) :=
    fun s c h => step_inv hp himg hsep h c
  have hstart : RunInv bridge mem img (.init, []) :=
    ⟨inv_init bridge mem img, (fun _ h => by cases h), (fun _ h => by cases h), fun _ h => by cases h⟩
  exact Run.foldl_inv hstep calls hstart

end Step

/-- An image that is linked at an address other than 0, with one section of variables and
    one of initial values at most, has one block in each thread for all its descriptors,
    made from its template. -/
theorem tlv_blocks (bridge : List BridgeImage) (mem : Mem) (img : BridgeImage) (himg : img ∈ bridge) (hp : img.Plain)
    (hsep : Separate bridge img) (calls : List Call) : OneBlockEach bridge mem img calls := by
  have hrun := run_inv hp himg hsep mem calls
  constructor
  case offset => exact hrun.offset
  case shared =>
    intro e he e' he' hd hd'
    obtain ⟨t, ht, hti, hb⟩ := hrun.image e he hd
    obtain ⟨t', ht', hti', hb'⟩ := hrun.image e' he' hd'
    obtain rfl : t = t' := eq_of_pairwise hrun.inv.once ht ht' (hti.trans hti'.symm)
    constructor
    · intro h
      rw [← h] at hb'
      exact (hrun.inv.distinct_blocks _ _ _ _ _ hb hb').1
    · intro h
      rw [h, hb'] at hb
      exact (Option.some.inj hb).symm
  case own =>
    intro e he e' he' hd other ho hheader hd' hsame
    obtain ⟨t, ht, hti, hb⟩ := hrun.image e he hd
    have hout : ¬ img.InVariables e'.desc := fun hin => hsep.apart other ho hheader e'.desc hin hd'.inVariables
    obtain ⟨key, -, hb', hother⟩ := hrun.other e' he' hout
    rw [← hsame] at hb'
    have hkey := (hrun.inv.distinct_blocks _ _ _ _ _ hb hb').2
    have hpos := (hrun.inv.image_keys t ht).1
    exact hother t ht hti (by omega)
  case template =>
    intro e he hd
    obtain ⟨t, ht, hti, hb⟩ := hrun.image e he hd
    exact hrun.inv.filled t ht hti e.thread e.block hb

/-! ## An image of each kind -/

/-- An image mapped at `0x11000`, with `__TEXT` linked at `text` and the thread-local
    sections `sections`. -/
def imageWith (text : UInt64) (sections : List Section64) : BridgeImage :=
  ⟨0x11000, [.segment ⟨segText, text, 0x1000, 0, 0x1000, 5, []⟩,
    .segment ⟨cstr "__DATA", text + 0x1000, 0x1000, 0x1000, 0x1000, 3, sections⟩]⟩

/-- Its memory: the first byte of initial values is 42; all descriptors have offset 0. -/
def oneByte : Mem := fun a => if a = 0x12030 then 42 else 0

def sectionAt (addr size : UInt64) (type : UInt32) : Section64 := ⟨cstr "__thread", addr, size, type, 0⟩

def plainImage : BridgeImage := imageWith 0x1000 [sectionAt 0x2000 0x30 0x13, sectionAt 0x2030 8 0x11]

theorem tlv_blocks_plainImage :
    plainImage.HasDescriptor 0x12018 ∧ plainImage.Plain ∧ Separate [plainImage] plainImage ∧
    OneBlockEach [plainImage] oneByte plainImage [⟨0, 0x12000⟩, ⟨1, 0x12000⟩, ⟨0, 0x12018⟩] := by
  have hplain : plainImage.Plain := by
    constructor <;> decide
  have hsep : Separate [plainImage] plainImage := by
    constructor
    · intro other ho _
      exact List.mem_singleton.mp ho
    · intro other ho hheader
      rw [List.mem_singleton.mp ho] at hheader
      exact absurd rfl hheader
  have hdesc : plainImage.HasDescriptor 0x12018 :=
    ⟨sectionAt 0x2000 0x30 0x13, by decide, by decide, 1, by decide, by decide⟩
  exact ⟨hdesc, hplain, hsep, tlv_blocks _ _ _ List.mem_cons_self hplain hsep _⟩

/-- The same image linked at 0, as a dylib is. -/
def zeroImage : BridgeImage := imageWith 0 [sectionAt 0x1000 0x30 0x13, sectionAt 0x1030 8 0x11]

/-- Its two descriptors get a block each in one thread, and the initial value is lost. -/
theorem linked_at_zero :
    zeroImage.HasDescriptor 0x12000 ∧ zeroImage.HasDescriptor 0x12018 ∧
    (run [zeroImage] oneByte [⟨0, 0x12000⟩, ⟨0, 0x12018⟩]).2 = [⟨⟨0, 0x12000⟩, 0, 0⟩, ⟨⟨0, 0x12018⟩, 1, 0⟩] ∧
    ((run [zeroImage] oneByte [⟨0, 0x12000⟩, ⟨0, 0x12018⟩]).1.blocks[0]?.map fun blk => blk.contents 0) = some 0 ∧
    ¬ OneBlockEach [zeroImage] oneByte zeroImage [⟨0, 0x12000⟩, ⟨0, 0x12018⟩] := by
  have hfirst : zeroImage.HasDescriptor 0x12000 :=
    ⟨sectionAt 0x1000 0x30 0x13, by decide, by decide, 0, by decide, by decide⟩
  have hsecond : zeroImage.HasDescriptor 0x12018 :=
    ⟨sectionAt 0x1000 0x30 0x13, by decide, by decide, 1, by decide, by decide⟩
  have hevents : (run [zeroImage] oneByte [⟨0, 0x12000⟩, ⟨0, 0x12018⟩]).2 =
      [⟨⟨0, 0x12000⟩, 0, 0⟩, ⟨⟨0, 0x12018⟩, 1, 0⟩] := by decide
  refine ⟨hfirst, hsecond, hevents, by decide, fun h => ?_⟩
  have hshared := h.shared ⟨⟨0, 0x12000⟩, 0, 0⟩ (by rw [hevents]; simp) ⟨⟨0, 0x12018⟩, 1, 0⟩ (by rw [hevents]; simp)
    hfirst hsecond
  exact absurd (hshared.mpr rfl) (by decide)

end Panthera.Libsystem.Tlv
