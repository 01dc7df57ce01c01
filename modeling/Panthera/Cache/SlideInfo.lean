/-
  Panthera.Cache.SlideInfo — slide info v2: the builder's encoder
  (`generate_slide_info_v2`) and dyld's decoder (`applySlidInfoV2`).

  The builder sorts the recorded locations, and page by page replaces each recorded
  pointer by its offset from the shared region's base, with the distance to the page's
  next location in bits 40 to 55; `page_starts` holds each page's first location. dyld
  reads the header back, walks each page's chain, and adds base and slide to every
  value that is not 0.

  A pointer to the base itself has offset 0, and so is encoded and decoded as a null
  pointer: the base is the header of the first image, so such pointers exist.

  `slide_round_trip_iff`: which slots come back.
-/

import Panthera.Lib.Bytes
import Panthera.Cache.Layout

namespace Panthera.Cache

open Lib.Bytes

/-! ## The encoder -/

def noRebase : UInt16 := 0x4000

/-- Bits 40 to 55 hold the delta. -/
def deltaMask : UInt64 := 0x00FFFF0000000000

/-- The parts of the cache file the slide info is about. -/
structure SlideRegion where
  dataFileOff : Nat
  dataSize : Nat
  slideInfoFileOff : Nat
  off_aligned : dataFileOff % pageSz = 0
  size_aligned : dataSize % pageSz = 0
  data_below : dataFileOff + dataSize ≤ slideInfoFileOff

theorem add_pageAligned {x y : UInt64} (hx : x.toNat % pageSz = 0) (hy : y.toNat % pageSz = 0) :
    (x + y).toNat % pageSz = 0 := by
  rw [UInt64.toNat_add]
  unfold pageSz at *
  omega

/-- The regions `assign_addresses` lays out, when their end does not wrap. -/
def slideRegionOf (ds : List DylibInfo) (fits : (regionsOf ds).dataFileOff.toNat + (regionsOf ds).dataSize.toNat ≤
    (regionsOf ds).slideInfoFileOff.toNat) : SlideRegion where
  dataFileOff := (regionsOf ds).dataFileOff.toNat
  dataSize := (regionsOf ds).dataSize.toNat
  slideInfoFileOff := (regionsOf ds).slideInfoFileOff.toNat
  off_aligned := add_pageAligned (pageAlign_toNat _) (pageAlign_toNat _)
  size_aligned := pageAlign_toNat _
  data_below := fits

/-- `dataPages`, a 32-bit count. -/
def SlideRegion.dataPages (R : SlideRegion) : Nat := ((R.dataSize + pageSz - 1) / pageSz) % 2 ^ 32

def unique : List Nat → List Nat
  | a :: b :: l => if b = a then unique (b :: l) else a :: unique (b :: l)
  | l => l

/-- `qsort` and the loop that drops repeated locations. -/
def sortUnique (locs : List Nat) : List Nat := unique (locs.insertionSort (· ≤ ·))

/-- A recorded value without the base; `none` where the builder gives up. -/
def encodeValue (rawValue : UInt64) : Option UInt64 :=
  if rawValue = 0 then some 0
  else if rawValue < sharedRegionBase then none
  else if (rawValue - sharedRegionBase) &&& deltaMask ≠ 0 then none
  else some ((rawValue - sharedRegionBase) &&& ~~~deltaMask)

def encodedDelta (deltaToNext : Nat) : UInt64 := (UInt64.ofNat deltaToNext <<< 38) &&& deltaMask

def deltaToNext (pageFileEnd l : Nat) : List Nat → Nat
  | l' :: _ => if l' < pageFileEnd then l' - l else 0
  | [] => 0

/-- The second loop over a page's locations: encode each, and return the locations of
    the later pages. -/
def encodeChain (pageFileEnd : Nat) : List Nat → Mem → Option (List Nat × Mem)
  | [], m => some ([], m)
  | l :: rest, m =>
    if l < pageFileEnd then
      match encodeValue (read64 m l) with
      | none => none
      | some value => encodeChain pageFileEnd rest (write64 m l (value ||| encodedDelta (deltaToNext pageFileEnd l rest)))
    else some (l :: rest, m)

/-- One turn of the page loop: the page's `page_starts` entry, the remaining locations
    and the buffer. -/
def generatePage (pageFileStart : Nat) (locs : List Nat) (m : Mem) : Option (UInt16 × List Nat × Mem) :=
  match locs.dropWhile (· < pageFileStart) with
  | [] => some (noRebase, [], m)
  | l :: rest =>
    if l < pageFileStart + pageSz then
      (encodeChain (pageFileStart + pageSz) (l :: rest) m).map fun r =>
        (UInt16.ofNat ((l - pageFileStart) / 4), r.1, r.2)
    else some (noRebase, l :: rest, m)

/-- The page loop, for the `n` pages from `p` on; it stops early when no location is
    left, and the other pages keep their no-rebase mark. -/
def generatePages (dataFileOff : Nat) : Nat → Nat → List Nat → Mem → Option (List UInt16 × Mem)
  | 0, _, _, m => some ([], m)
  | n + 1, p, locs, m =>
    if locs = [] then some (List.replicate (n + 1) noRebase, m)
    else
      match generatePage (dataFileOff + p * pageSz) locs m with
      | none => none
      | some (start, rest, m') => (generatePages dataFileOff n (p + 1) rest m').map fun r => (start :: r.1, r.2)

def writeStarts (m : Mem) (a : Nat) : List UInt16 → Mem
  | [] => m
  | s :: l => writeStarts (write16 m a s) (a + 2) l

/-- `dyld_cache_slide_info2` and the `page_starts` behind it. -/
def writeSlideInfo (m : Mem) (a : Nat) (dataPages : Nat) (starts : List UInt16) : Mem :=
  let m := write32 m a 2
  let m := write32 m (a + 4) 4096
  let m := write32 m (a + 8) 40
  let m := write32 m (a + 12) (UInt32.ofNat dataPages)
  let m := write32 m (a + 16) (UInt32.ofNat (40 + dataPages * 2))
  let m := write32 m (a + 20) 0
  let m := write64 m (a + 24) deltaMask
  let m := write64 m (a + 32) sharedRegionBase
  writeStarts m (a + 40) starts

def generateSlideInfoV2 (R : SlideRegion) (r : RebaseLocs) (m : Mem) : Option Mem :=
  if r.locs = [] then some m
  else
    (generatePages R.dataFileOff R.dataPages 0 (sortUnique r.locs) m).map fun g =>
      writeSlideInfo g.2 R.slideInfoFileOff R.dataPages g.1

/-! ## The decoder -/

/-- `while (m && !(m & 1)) { deltaShift++; m >>= 1; }` -/
def trailingZeros : Nat → UInt64 → UInt64
  | 0, _ => 0
  | n + 1, m => if m ≠ 0 ∧ m &&& 1 = 0 then trailingZeros n (m >>> 1) + 1 else 0

structure SlideParams where
  deltaMask : UInt64
  valueAdd : UInt64
  slide : UInt64

def SlideParams.deltaShift (P : SlideParams) : UInt64 := trailingZeros 64 P.deltaMask - 2

def SlideParams.delta (P : SlideParams) (rawValue : UInt64) : UInt32 :=
  ((rawValue &&& P.deltaMask) >>> P.deltaShift).toUInt32

def SlideParams.newValue (P : SlideParams) (rawValue : UInt64) : UInt64 :=
  if rawValue &&& ~~~P.deltaMask ≠ 0 then (rawValue &&& ~~~P.deltaMask) + P.valueAdd + P.slide
  else rawValue &&& ~~~P.deltaMask

/-- The chain loop. A chain need not end, so its turns are counted; `none` is a chain
    still running when they are spent. -/
def slideChain (P : SlideParams) (pageBase : Nat) : Nat → UInt32 → Mem → Option Mem
  | 0, _, _ => none
  | fuel + 1, pageOffset, m =>
    let loc := pageBase + pageOffset.toNat
    let rawValue := read64 m loc
    let m' := write64 m loc (P.newValue rawValue)
    if P.delta rawValue = 0 then some m' else slideChain P pageBase fuel (pageOffset + P.delta rawValue) m'

/-- The chains a page with `SLIDE_PAGE_EXTRA` lists, `n` entries at most. -/
def slideExtras (P : SlideParams) (fuel : Nat) (pageExtras : Nat → UInt16) (pageBase : Nat) :
    Nat → Nat → Mem → Option Mem
  | 0, _, m => some m
  | n + 1, chainIdx, m =>
    let chainEntry := pageExtras chainIdx
    match slideChain P pageBase fuel ((chainEntry &&& 0x3FFF).toUInt32 <<< 2) m with
    | none => none
    | some m' => if chainEntry &&& 0x8000 ≠ 0 then some m' else slideExtras P fuel pageExtras pageBase n (chainIdx + 1) m'

def slidePage (P : SlideParams) (fuel : Nat) (pageExtras : Nat → UInt16) (extrasCnt : Nat) (startOff : UInt16)
    (pageBase : Nat) (m : Mem) : Option Mem :=
  if startOff = noRebase then some m
  else if startOff &&& 0x8000 ≠ 0 then
    let chainIdx := (startOff &&& 0x3FFF).toNat
    slideExtras P fuel pageExtras pageBase (extrasCnt - chainIdx) chainIdx m
  else slideChain P pageBase fuel ((startOff &&& 0x3FFF).toUInt32 <<< 2) m

/-- The page loop, for the `n` pages from `p` on. -/
def slidePages (P : SlideParams) (fuel : Nat) (pageStarts pageExtras : Nat → UInt16) (extrasCnt pageSize : Nat) :
    Nat → Nat → Mem → Option Mem
  | 0, _, m => some m
  | n + 1, p, m =>
    match slidePage P fuel pageExtras extrasCnt (pageStarts p) (p * pageSize) m with
    | none => none
    | some m' => slidePages P fuel pageStarts pageExtras extrasCnt pageSize n (p + 1) m'

def applySlidInfoV2 (fuel : Nat) (slideInfo dataRegion : Mem) (slide : UInt64) : Option Mem :=
  if read32 slideInfo 0 ≠ 2 then some dataRegion
  else
    let P : SlideParams := ⟨read64 slideInfo 24, read64 slideInfo 32, slide⟩
    let startsOff := (read32 slideInfo 8).toNat
    let extrasOff := (read32 slideInfo 16).toNat
    slidePages P fuel (fun p => read16 slideInfo (startsOff + 2 * p)) (fun i => read16 slideInfo (extrasOff + 2 * i))
      (read32 slideInfo 20).toNat (read32 slideInfo 4).toNat (read32 slideInfo 12).toNat 0 dataRegion

/-! ## Bits of an encoded pointer -/

theorem deltaMask_bit : ∀ i < 64, deltaMask.toBitVec.getLsbD i = (decide (40 ≤ i) && decide (i < 56)) := by decide

variable {v w : UInt64} {cur rest l : List Nat} {fuel a : Nat}

theorem value_bit (hv : v &&& deltaMask = 0) {i : Nat} (h1 : 40 ≤ i) (h2 : i < 56) : v.toBitVec.getLsbD i = false := by
  have := congrArg (fun x => x.toBitVec.getLsbD i) hv
  simpa [deltaMask_bit i (by omega), h1, h2] using this

theorem and_mask_or {t : UInt64} (hv : v &&& deltaMask = 0) : (v ||| (t &&& deltaMask)) &&& deltaMask = t &&& deltaMask := by
  apply UInt64.eq_of_toBitVec_eq
  apply BitVec.eq_of_getLsbD_eq
  intro i hi
  simp only [UInt64.toBitVec_and, UInt64.toBitVec_or, BitVec.getLsbD_and, BitVec.getLsbD_or, deltaMask_bit i hi]
  by_cases h : 40 ≤ i ∧ i < 56
  · simp [value_bit hv h.1 h.2]
  · grind

theorem and_not_mask_or {t : UInt64} (hv : v &&& deltaMask = 0) : (v ||| (t &&& deltaMask)) &&& ~~~deltaMask = v := by
  apply UInt64.eq_of_toBitVec_eq
  apply BitVec.eq_of_getLsbD_eq
  intro i hi
  simp only [UInt64.toBitVec_and, UInt64.toBitVec_or, UInt64.toBitVec_not, BitVec.getLsbD_and, BitVec.getLsbD_or,
    BitVec.getLsbD_not, deltaMask_bit i hi]
  by_cases h : 40 ≤ i ∧ i < 56
  · simp [value_bit hv h.1 h.2, h]
  · grind

theorem shift_bit {d : UInt64} (h4 : d.toNat % 4 = 0) (hlt : d.toNat < 4096) {i : Nat}
    (hb : (d <<< 38).toBitVec.getLsbD i = true) : 40 ≤ i ∧ i < 56 := by
  have ht : (d <<< 38).toBitVec.toNat = d.toNat / 4 * 2 ^ 40 := by
    rw [UInt64.toNat_toBitVec]
    simp [UInt64.toNat_shiftLeft, Nat.shiftLeft_eq]
    omega
  unfold BitVec.getLsbD at hb
  rw [ht, Nat.testBit_mul_two_pow] at hb
  simp only [Bool.and_eq_true, decide_eq_true_eq] at hb
  refine ⟨hb.1, ?_⟩
  by_contra h
  have hd : d.toNat / 4 < 2 ^ (i - 40) :=
    lt_of_lt_of_le (by omega : d.toNat / 4 < 2 ^ 10) (Nat.pow_le_pow_right (by omega) (by omega))
  rw [Nat.testBit_lt_two_pow hd] at hb
  exact absurd hb.2 (by simp)

theorem shift_delta {d : UInt64} (h4 : d.toNat % 4 = 0) (hlt : d.toNat < 4096) :
    ((d <<< 38) &&& deltaMask) >>> 38 = d := by
  have hm : (d <<< 38) &&& deltaMask = d <<< 38 := by
    apply UInt64.eq_of_toBitVec_eq
    apply BitVec.eq_of_getLsbD_eq
    intro i hi
    simp only [UInt64.toBitVec_and, BitVec.getLsbD_and, deltaMask_bit i hi]
    have := shift_bit h4 hlt (i := i)
    grind
  apply UInt64.toNat.inj
  rw [hm]
  simp [UInt64.toNat_shiftRight, UInt64.toNat_shiftLeft]
  rw [Nat.shiftLeft_eq, Nat.shiftRight_eq_div_pow]
  omega

theorem encodeValue_masked (h : encodeValue v = some w) : w &&& deltaMask = 0 := by
  unfold encodeValue at h
  split at h
  · cases h; rfl
  · split at h
    · cases h
    · split at h
      · cases h
      · rename_i hm
        cases h
        rw [UInt64.and_assoc, show ~~~deltaMask &&& deltaMask = 0 by decide, UInt64.and_zero]

/-- What the decoder leaves for a pointer the encoder was given. -/
def decoded (slide v : UInt64) : UInt64 := if v = 0 ∨ v = sharedRegionBase then 0 else v + slide

def slideParams (slide : UInt64) : SlideParams := ⟨deltaMask, sharedRegionBase, slide⟩

variable (slide : UInt64)

theorem slideParams_shift : (slideParams slide).deltaShift = 38 := by
  show trailingZeros 64 deltaMask - 2 = 38
  decide

theorem encodeValue_eq (h : encodeValue v = some w) :
    (w = 0 ∧ (v = 0 ∨ v = sharedRegionBase)) ∨ (w ≠ 0 ∧ v ≠ 0 ∧ w + sharedRegionBase = v) := by
  unfold encodeValue at h
  split at h
  · cases h; exact .inl ⟨rfl, .inl ‹_›⟩
  · split at h
    · cases h
    · split at h
      · cases h
      · rename_i h0 _ hm
        have hw : w = v - sharedRegionBase := by
          simp only [ne_eq, Decidable.not_not] at hm
          have := and_not_mask_or (t := 0) hm
          simp only [UInt64.zero_and, UInt64.or_zero] at this
          rw [← this]
          exact (Option.some.inj h).symm
        by_cases hz : w = 0
        · refine .inl ⟨hz, .inr ?_⟩
          have : v = w + sharedRegionBase := by rw [hw, UInt64.sub_add_cancel]
          rw [this, hz, UInt64.zero_add]
        · exact .inr ⟨hz, h0, by rw [hw, UInt64.sub_add_cancel]⟩

theorem newValue_encoded (h : encodeValue v = some w) (d : Nat) :
    (slideParams slide).newValue (w ||| encodedDelta d) = decoded slide v := by
  have hv : (w ||| encodedDelta d) &&& ~~~deltaMask = w := and_not_mask_or (encodeValue_masked h)
  show (if (w ||| encodedDelta d) &&& ~~~deltaMask ≠ 0
    then ((w ||| encodedDelta d) &&& ~~~deltaMask) + sharedRegionBase + slide
    else (w ||| encodedDelta d) &&& ~~~deltaMask) = _
  rw [hv]
  unfold decoded
  rcases encodeValue_eq h with ⟨h0, hor⟩ | ⟨hn, hv0, hsum⟩
  · rw [if_neg (by simp [h0]), if_pos hor, h0]
  · have hb : v ≠ sharedRegionBase := by
      rintro rfl
      exact hn (by simpa using hsum)
    rw [if_pos hn, if_neg (not_or.mpr ⟨hv0, hb⟩), hsum]

theorem delta_encoded (h : encodeValue v = some w) {d : Nat} (h4 : d % 4 = 0)
    (hd : d < 4096) : (slideParams slide).delta (w ||| encodedDelta d) = UInt32.ofNat d := by
  have hn : (UInt64.ofNat d).toNat = d := by simp; omega
  unfold SlideParams.delta
  rw [slideParams_shift]
  show (((w ||| encodedDelta d) &&& deltaMask) >>> 38).toUInt32 = _
  unfold encodedDelta
  rw [and_mask_or (encodeValue_masked h), shift_delta (by omega) (by omega)]
  apply UInt32.toNat.inj
  simp

/-! ## What the encoder leaves

`a` is an offset in the DATA region; `v` the pointer that was there, `w` the word that
is there now. -/

def gap (a : Nat) : List Nat → Nat
  | [] => 0
  | b :: _ => b - a

/-- The words of one page's chain. -/
def Chained (v w : Nat → UInt64) : List Nat → Prop
  | [] => True
  | a :: l => (∃ value, encodeValue (v a) = some value ∧ w a = value ||| encodedDelta (gap a l)) ∧ Chained v w l

def pageStart (p : Nat) : List Nat → UInt16
  | [] => noRebase
  | a :: _ => UInt16.ofNat ((a - p * pageSz) / 4)

/-- The chains of the pages from `p` on, one page for each entry of `starts`; the
    locations past the last page are in no chain. -/
def Paged (v w : Nat → UInt64) : Nat → List UInt16 → List Nat → Prop
  | _, [], _ => True
  | p, s :: starts, locs => ∃ cur rest, locs = cur ++ rest ∧ (∀ a ∈ cur, a < (p + 1) * pageSz) ∧
      (∀ a ∈ rest, (p + 1) * pageSz ≤ a) ∧ s = pageStart p cur ∧ Chained v w cur ∧ Paged v w (p + 1) starts rest

theorem Chained.congr {v w v' w' : Nat → UInt64} : ∀ {l : List Nat}, (∀ a ∈ l, v a = v' a) → (∀ a ∈ l, w a = w' a) →
    Chained v w l → Chained v' w' l := by
  intro l
  induction l with
  | nil => intros; trivial
  | cons a l ih =>
    intro hv hw ⟨⟨value, h1, h2⟩, hl⟩
    refine ⟨⟨value, ?_, ?_⟩, ih (fun b hb => hv b (List.mem_cons_of_mem _ hb)) (fun b hb => hw b (List.mem_cons_of_mem _ hb)) hl⟩
    · rw [← hv a List.mem_cons_self, h1]
    · rw [← hw a List.mem_cons_self, h2]

theorem Paged.congr {v w v' w' : Nat → UInt64} : ∀ {starts : List UInt16} {p : Nat} {l : List Nat},
    (∀ a ∈ l, v a = v' a) → (∀ a ∈ l, w a = w' a) → Paged v w p starts l → Paged v' w' p starts l := by
  intro starts
  induction starts with
  | nil => intros; trivial
  | cons s starts ih =>
    rintro p _ hv hw ⟨cur, rest, rfl, hc, hr, hs, hch, hp⟩
    refine ⟨cur, rest, rfl, hc, hr, hs, hch.congr ?_ ?_, ih ?_ ?_ hp⟩
    · exact fun a ha => hv a (List.mem_append_left _ ha)
    · exact fun a ha => hw a (List.mem_append_left _ ha)
    · exact fun a ha => hv a (List.mem_append_right _ ha)
    · exact fun a ha => hw a (List.mem_append_right _ ha)

/-! ## The encoder leaves chains -/

theorem deltaToNext_eq (off pe a : Nat) (hc : ∀ b ∈ cur, b < pe) (hr : ∀ b ∈ rest, pe ≤ b) :
    deltaToNext (off + pe) (off + a) ((cur ++ rest).map (off + ·)) = gap a cur := by
  cases cur with
  | nil =>
    cases rest with
    | nil => rfl
    | cons b rest =>
      have := hr b List.mem_cons_self
      simp only [List.nil_append, List.map_cons, deltaToNext, gap]
      rw [if_neg (by omega)]
  | cons b cur =>
    have := hc b List.mem_cons_self
    simp only [List.cons_append, List.map_cons, deltaToNext, gap]
    rw [if_pos (by omega)]
    omega

theorem encodeChain_spec (off pe : Nat) (hr : ∀ a ∈ rest, pe ≤ a) :
    ∀ {cur : List Nat} {m m' : Mem} {r : List Nat}, Separated cur → (∀ a ∈ cur, a < pe) →
      encodeChain (off + pe) ((cur ++ rest).map (off + ·)) m = some (r, m') →
      r = rest.map (off + ·) ∧ Chained (fun a => read64 m (off + a)) (fun a => read64 m' (off + a)) cur ∧
        ∀ x, ¬ InSlots (cur.map (off + ·)) x → m' x = m x := by
  intro cur
  induction cur with
  | nil =>
    intro m m' r _ _ h
    have : encodeChain (off + pe) (rest.map (off + ·)) m = some (rest.map (off + ·), m) := by
      cases rest with
      | nil => rfl
      | cons b rest =>
        have := hr b List.mem_cons_self
        simp only [List.map_cons, encodeChain]
        rw [if_neg (by omega)]
    rw [List.nil_append, this] at h
    cases h
    exact ⟨rfl, trivial, fun _ _ => rfl⟩
  | cons a cur ih =>
    intro m m' r hs hc h
    obtain ⟨ha, hs⟩ := List.pairwise_cons.mp hs
    have hcur : ∀ b ∈ cur, b < pe := fun b hb => hc b (List.mem_cons_of_mem _ hb)
    have hape : off + a < off + pe := Nat.add_lt_add_left (hc a List.mem_cons_self) off
    simp only [List.cons_append, List.map_cons, encodeChain] at h
    rw [if_pos hape, deltaToNext_eq off pe a hcur hr] at h
    split at h
    · cases h
    · rename_i value hval
      obtain ⟨h1, h2, h3⟩ := ih hs hcur h
      -- the later writes of the chain do not touch this slot, and this one not theirs
      have hkeep : ∀ x, off + a ≤ x → x < off + a + 8 → ¬ InSlots (cur.map (off + ·)) x := by
        rintro x hx1 hx2 ⟨_, hmem, hx⟩
        obtain ⟨b, hb, rfl⟩ := List.mem_map.mp hmem
        have := ha b hb
        omega
      refine ⟨h1, ⟨⟨value, hval, ?_⟩, h2.congr ?_ fun _ _ => rfl⟩, ?_⟩
      · show read64 m' (off + a) = _
        rw [read64_congr fun i hi => h3 (off + a + i) (hkeep _ (by omega) (by omega)), read64_write64]
      · intro b hb
        have := ha b hb
        exact read64_write64_disjoint (by omega)
      · intro x hx
        rw [h3 x fun ⟨b, hb, h⟩ => hx ⟨b, List.mem_cons_of_mem _ hb, h⟩, write64_outside]
        by_contra hin
        exact hx ⟨off + a, List.mem_cons_self, by omega⟩

/-- The locations of the page that ends at `pe`, and the later ones. -/
theorem split_page (pe : Nat) : ∀ {l : List Nat}, Separated l →
    ∃ cur rest, l = cur ++ rest ∧ (∀ a ∈ cur, a < pe) ∧ ∀ a ∈ rest, pe ≤ a := by
  intro l
  induction l with
  | nil => intro _; exact ⟨[], [], rfl, by simp, by simp⟩
  | cons a l ih =>
    intro hs
    obtain ⟨ha, hl⟩ := List.pairwise_cons.mp hs
    by_cases h : a < pe
    · obtain ⟨cur, rest, rfl, hc, hr⟩ := ih hl
      exact ⟨a :: cur, rest, rfl, by simpa [h] using hc, hr⟩
    · refine ⟨[], a :: l, rfl, by simp, ?_⟩
      intro b hb
      rcases List.mem_cons.mp hb with rfl | hb
      · omega
      · have := ha b hb
        omega

theorem generatePage_spec {off p : Nat} {m m' : Mem} {s : UInt16} {r : List Nat}
    (hs : Separated cur) (hge : ∀ a ∈ cur ++ rest, p * pageSz ≤ a) (hc : ∀ a ∈ cur, a < (p + 1) * pageSz)
    (hr : ∀ a ∈ rest, (p + 1) * pageSz ≤ a)
    (h : generatePage (off + p * pageSz) ((cur ++ rest).map (off + ·)) m = some (s, r, m')) :
    s = pageStart p cur ∧ r = rest.map (off + ·) ∧
      Chained (fun a => read64 m (off + a)) (fun a => read64 m' (off + a)) cur ∧
      ∀ x, ¬ InSlots (cur.map (off + ·)) x → m' x = m x := by
  have hdrop : ((cur ++ rest).map (off + ·)).dropWhile (· < off + p * pageSz) = (cur ++ rest).map (off + ·) := by
    cases hl : cur ++ rest with
    | nil => rfl
    | cons a l =>
      have := hge a (hl ▸ List.mem_cons_self)
      simp only [List.map_cons, List.dropWhile_cons]
      rw [if_neg (by simp only [decide_eq_true_eq]; omega)]
  have hpe : off + p * pageSz + pageSz = off + (p + 1) * pageSz := by rw [Nat.add_mul, Nat.one_mul, Nat.add_assoc]
  unfold generatePage at h
  rw [hdrop, hpe] at h
  cases cur with
  | nil =>
    have hnone : ∀ a ∈ rest, ¬ off + a < off + (p + 1) * pageSz := fun a ha => by have := hr a ha; omega
    cases rest with
    | nil =>
      cases h
      exact ⟨rfl, rfl, trivial, fun _ _ => rfl⟩
    | cons b rest =>
      simp only [List.nil_append, List.map_cons] at h
      rw [if_neg (hnone b List.mem_cons_self)] at h
      cases h
      exact ⟨rfl, rfl, trivial, fun _ _ => rfl⟩
  | cons a cur =>
    simp only [List.cons_append, List.map_cons] at h
    rw [if_pos (Nat.add_lt_add_left (hc a List.mem_cons_self) off), Option.map_eq_some_iff] at h
    obtain ⟨⟨r', m1⟩, h1, h2⟩ := h
    obtain ⟨e1, e2, e3⟩ := encodeChain_spec off _ hr hs hc h1
    cases h2
    refine ⟨?_, e1, e2, e3⟩
    show UInt16.ofNat _ = UInt16.ofNat _
    congr 2
    omega

theorem inSlots_append {l' : List Nat} {x : Nat} : InSlots (l ++ l') x ↔ InSlots l x ∨ InSlots l' x := by
  simp only [InSlots, List.mem_append, or_and_right, exists_or]

/-- The slots the first `k` bytes of the region start. -/
def below (k : Nat) (l : List Nat) : List Nat := l.filter (· < k)

theorem below_append {k : Nat} (hc : ∀ a ∈ cur, a < k) : below k (cur ++ rest) = cur ++ below k rest := by
  rw [below, List.filter_append, List.filter_eq_self.mpr (by simpa using hc)]
  rfl

theorem below_nil {k : Nat} (h : ∀ a ∈ l, k ≤ a) : below k l = [] :=
  List.filter_eq_nil_iff.mpr fun a ha => by simpa using h a ha

theorem page_le {p q : Nat} (h : p ≤ q) : p * pageSz ≤ q * pageSz := Nat.mul_le_mul_right _ h

theorem pages_spec_empty {v w : Nat → UInt64} : ∀ n p, Paged v w p (List.replicate n noRebase) [] := by
  intro n
  induction n with
  | zero => intro p; trivial
  | succ n ih => intro p; exact ⟨[], [], rfl, by simp, by simp, rfl, trivial, ih (p + 1)⟩

theorem generatePages_spec (off : Nat) : ∀ {n p : Nat} {locs : List Nat} {m m' : Mem} {starts : List UInt16},
    Separated locs → (∀ a ∈ locs, p * pageSz ≤ a) →
    generatePages off n p (locs.map (off + ·)) m = some (starts, m') →
    starts.length = n ∧ Paged (fun a => read64 m (off + a)) (fun a => read64 m' (off + a)) p starts locs ∧
      ∀ x, ¬ InSlots ((below ((p + n) * pageSz) locs).map (off + ·)) x → m' x = m x := by
  intro n
  induction n with
  | zero =>
    intro p locs m m' starts _ _ h
    cases h
    exact ⟨rfl, trivial, fun _ _ => rfl⟩
  | succ n ih =>
    intro p locs m m' starts hs hge h
    unfold generatePages at h
    split at h
    · rename_i hnil
      have : locs = [] := by simpa using hnil
      subst this
      cases h
      exact ⟨by simp, pages_spec_empty (n + 1) p, fun _ _ => rfl⟩
    · split at h
      · cases h
      · rename_i s r m1 hpage
        rw [Option.map_eq_some_iff] at h
        obtain ⟨⟨starts', m2⟩, hrest, heq⟩ := h
        cases heq
        obtain ⟨cur, rest, rfl, hc, hr⟩ := split_page ((p + 1) * pageSz) hs
        obtain ⟨hsc, hsr, hsep⟩ := List.pairwise_append.mp hs
        obtain ⟨rfl, rfl, hch, hfr⟩ := generatePage_spec hsc hge hc hr hpage
        obtain ⟨hlen, hp, hfr2⟩ := ih hsr hr hrest
        have hbelow : below ((p + (n + 1)) * pageSz) (cur ++ rest) = cur ++ below ((p + 1 + n) * pageSz) rest := by
          rw [show p + (n + 1) = p + 1 + n by omega]
          exact below_append fun a ha => Nat.lt_of_lt_of_le (hc a ha) (page_le (by omega))
        refine ⟨by simp [hlen], ⟨cur, rest, rfl, hc, hr, rfl, hch.congr (fun _ _ => rfl) ?_, hp.congr ?_ fun _ _ => rfl⟩, ?_⟩
        · -- the later pages leave this page's words
          intro a ha
          refine (read64_congr fun i hi => hfr2 _ ?_).symm
          rintro ⟨_, hmem, hx⟩
          obtain ⟨b, hb, rfl⟩ := List.mem_map.mp hmem
          have := hsep a ha b (List.mem_of_mem_filter hb)
          omega
        · -- this page's writes leave the pointers of the later ones
          intro b hb
          refine read64_congr fun i hi => hfr _ ?_
          rintro ⟨_, hmem, hx⟩
          obtain ⟨a, ha, rfl⟩ := List.mem_map.mp hmem
          have := hsep a ha b hb
          omega
        · intro x hx
          rw [hbelow, List.map_append, inSlots_append] at hx
          exact (hfr2 x fun h => hx (.inr h)).trans (hfr x fun h => hx (.inl h))

/-! ## The decoder walks them -/

theorem slideChain_spec {v : Nat → UInt64} (ps : Nat) : ∀ {l : List Nat} {a fuel : Nat} {d : Mem},
    Separated (a :: l) → (∀ b ∈ a :: l, ps ≤ b ∧ b < ps + 4096 ∧ b % 4 = 0) → Chained v (read64 d) (a :: l) →
    l.length < fuel → slideChain (slideParams slide) ps fuel (UInt32.ofNat (a - ps)) d =
      some (storeAll d (fun b => decoded slide (v b)) (a :: l)) := by
  intro l
  induction l with
  | nil =>
    intro a fuel d hs hb hch hf
    obtain ⟨fuel, rfl⟩ : ∃ k, fuel = k + 1 := ⟨fuel - 1, by omega⟩
    obtain ⟨⟨value, hval, hw⟩, -⟩ := hch
    obtain ⟨h1, h2, -⟩ := hb a List.mem_cons_self
    have hloc : ps + (UInt32.ofNat (a - ps)).toNat = a := by simp; omega
    unfold slideChain
    simp only [hloc, hw, gap]
    rw [delta_encoded slide hval (by omega) (by omega), newValue_encoded slide hval, if_pos (by rfl)]
    rfl
  | cons c l ih =>
    intro a fuel d hs hb hch hf
    obtain ⟨fuel, rfl⟩ : ∃ k, fuel = k + 1 := ⟨fuel - 1, by omega⟩
    obtain ⟨⟨value, hval, hw⟩, hch⟩ := hch
    obtain ⟨hac, hs⟩ := List.pairwise_cons.mp hs
    obtain ⟨h1, h2, h3⟩ := hb a List.mem_cons_self
    obtain ⟨h4, h5, h6⟩ := hb c (by simp)
    have hsep := hac c List.mem_cons_self
    have hloc : ps + (UInt32.ofNat (a - ps)).toNat = a := by simp; omega
    have hnext : UInt32.ofNat (a - ps) + UInt32.ofNat (c - a) = UInt32.ofNat (c - ps) := by
      rw [← UInt32.ofNat_add]
      congr 1
      omega
    have hne : UInt32.ofNat (c - a) ≠ 0 := by
      intro h
      have := congrArg UInt32.toNat h
      simp at this
      omega
    unfold slideChain
    simp only [hloc, hw, gap]
    rw [delta_encoded slide hval (by omega) (by omega), newValue_encoded slide hval, if_neg hne, hnext]
    refine ih hs (fun b hb' => hb b (List.mem_cons_of_mem _ hb')) (hch.congr (fun _ _ => rfl) ?_) (by simpa using hf)
    intro b hb'
    have := hac b hb'
    exact (read64_write64_disjoint (by omega)).symm

theorem chain_length {pe : Nat} : ∀ {l : List Nat} {a : Nat}, Separated (a :: l) → (∀ b ∈ a :: l, b < pe) →
    a + 8 * l.length < pe := by
  intro l
  induction l with
  | nil => intro a _ h; simpa using h a List.mem_cons_self
  | cons c l ih =>
    intro a hs h
    obtain ⟨hac, hs⟩ := List.pairwise_cons.mp hs
    have h1 := hac c List.mem_cons_self
    have h2 := ih hs fun b hb => h b (List.mem_cons_of_mem _ hb)
    simp only [List.length_cons]
    omega

theorem start_plain {k : Nat} (hk : k < 1024) : UInt16.ofNat k ≠ noRebase ∧ UInt16.ofNat k &&& 0x8000 = 0 ∧
    (UInt16.ofNat k &&& 0x3FFF).toUInt32 <<< 2 = UInt32.ofNat (4 * k) := by
  have hn : (UInt16.ofNat k).toNat = k := by simp; omega
  refine ⟨?_, ?_, ?_⟩
  · intro h
    have := congrArg UInt16.toNat h
    rw [hn, show noRebase.toNat = 16384 from rfl] at this
    omega
  · apply UInt16.toNat.inj
    apply Nat.eq_of_testBit_eq
    intro i
    rw [UInt16.toNat_and, hn, show (0x8000 : UInt16).toNat = 2 ^ 15 from rfl, Nat.testBit_and, Nat.testBit_two_pow]
    by_cases h : 15 = i
    · subst h
      simp [Nat.testBit_lt_two_pow (show k < 2 ^ 15 by omega)]
    · simp [h]
  · have hm : (UInt16.ofNat k &&& 0x3FFF).toNat = k := by
      rw [UInt16.toNat_and, hn, show (0x3FFF : UInt16).toNat = 2 ^ 14 - 1 from rfl, Nat.and_two_pow_sub_one_eq_mod]
      omega
    apply UInt32.toNat.inj
    rw [UInt32.toNat_shiftLeft, UInt16.toNat_toUInt32, hm]
    simp [Nat.shiftLeft_eq]
    omega

theorem slidePage_spec (pageExtras : Nat → UInt16) (extrasCnt : Nat) {v : Nat → UInt64} {p : Nat} {d : Mem} (hs : Separated cur)
    (hb : ∀ b ∈ cur, p * pageSz ≤ b ∧ b < p * pageSz + 4096 ∧ b % 4 = 0) (hch : Chained v (read64 d) cur)
    (hf : 512 ≤ fuel) :
    slidePage (slideParams slide) fuel pageExtras extrasCnt (pageStart p cur) (p * pageSz) d =
      some (storeAll d (fun b => decoded slide (v b)) cur) := by
  cases cur with
  | nil => rfl
  | cons a l =>
    obtain ⟨h1, h2, h3⟩ := hb a List.mem_cons_self
    have hlen := chain_length hs fun b hb' => (hb b hb').2.1
    have hpg : p * pageSz % 4 = 0 := by rw [pageSz]; omega
    obtain ⟨s1, s2, s3⟩ := start_plain (k := (a - p * pageSz) / 4) (by omega)
    unfold slidePage pageStart
    rw [if_neg s1, if_neg (by simp [s2]), s3, show 4 * ((a - p * pageSz) / 4) = a - p * pageSz by omega]
    exact slideChain_spec slide _ hs hb hch (by omega)

theorem slidePages_spec (pageStarts pageExtras : Nat → UInt16) (extrasCnt : Nat) {v : Nat → UInt64}
    (hf : 512 ≤ fuel) : ∀ {starts : List UInt16} {p : Nat} {locs : List Nat} {d : Mem}, Separated locs →
    (∀ b ∈ locs, p * pageSz ≤ b ∧ b % 4 = 0) → Paged v (read64 d) p starts locs →
    (∀ i (h : i < starts.length), pageStarts (p + i) = starts[i]) →
    slidePages (slideParams slide) fuel pageStarts pageExtras extrasCnt pageSz starts.length p d =
      some (storeAll d (fun b => decoded slide (v b)) (below ((p + starts.length) * pageSz) locs)) := by
  intro starts
  induction starts with
  | nil =>
    intro p locs d _ hb _ _
    rw [List.length_nil, Nat.add_zero, below_nil fun a ha => (hb a ha).1]
    rfl
  | cons s starts ih =>
    rintro p _ d hs hb ⟨cur, rest, rfl, hc, hr, rfl, hch, hp⟩ hst
    obtain ⟨hsc, hsr, hsep⟩ := List.pairwise_append.mp hs
    have hbelow : below ((p + (starts.length + 1)) * pageSz) (cur ++ rest) =
        cur ++ below ((p + 1 + starts.length) * pageSz) rest := by
      rw [show p + (starts.length + 1) = p + 1 + starts.length by omega]
      exact below_append fun a ha => Nat.lt_of_lt_of_le (hc a ha) (page_le (by omega))
    have hcur : ∀ b ∈ cur, p * pageSz ≤ b ∧ b < p * pageSz + 4096 ∧ b % 4 = 0 := by
      intro b hb'
      obtain ⟨h1, h2⟩ := hb b (List.mem_append_left _ hb')
      have h3 := hc b hb'
      rw [Nat.add_mul, Nat.one_mul] at h3
      exact ⟨h1, h3, h2⟩
    have hstart : pageStarts p = pageStart p cur := hst 0 (by simp)
    have hpage := slidePage_spec slide pageExtras extrasCnt hsc hcur hch hf
    simp only [List.length_cons, slidePages, hstart, hpage]
    rw [hbelow, storeAll_append]
    refine ih hsr (fun b hb' => ⟨hr b hb', (hb b (List.mem_append_right _ hb')).2⟩) (hp.congr (fun _ _ => rfl) ?_) ?_
    · intro b hb'
      exact (read64_storeAll_disjoint _ _ fun a ha => .inl (hsep a ha b hb')).symm
    · intro i hi
      have := hst (i + 1) (by simpa using hi)
      rwa [List.getElem_cons_succ, ← Nat.add_assoc, Nat.add_right_comm] at this

/-! ## The header -/

theorem writeStarts_below : ∀ (starts : List UInt16) (m : Mem) (a x : Nat), x < a → writeStarts m a starts x = m x := by
  intro starts
  induction starts with
  | nil => intros; rfl
  | cons s starts ih =>
    intro m a x h
    rw [writeStarts, ih _ _ _ (by omega)]
    exact writeLE_outside m (.inl h)

theorem read16_writeStarts : ∀ (starts : List UInt16) (m : Mem) (a i : Nat) (h : i < starts.length),
    read16 (writeStarts m a starts) (a + 2 * i) = starts[i] := by
  intro starts
  induction starts with
  | nil => intro m a i h; simp at h
  | cons s starts ih =>
    intro m a i h
    cases i with
    | zero =>
      rw [writeStarts]
      have : read16 (writeStarts (write16 m a s) (a + 2) starts) a = read16 (write16 m a s) a := by
        unfold read16
        rw [readLE_congr fun j hj => writeStarts_below starts _ _ _ (by omega)]
      simp [this]
    | succ i =>
      have := ih (write16 m a s) (a + 2) i (by simpa using h)
      rw [writeStarts, show a + 2 * (i + 1) = a + 2 + 2 * i by omega, this, List.getElem_cons_succ]

theorem writeSlideInfo_below {m : Mem} {n x : Nat} {starts : List UInt16} (h : x < a) : writeSlideInfo m a n starts x = m x := by
  unfold writeSlideInfo write32 write64
  rw [writeStarts_below _ _ _ _ (by omega)]
  simp (disch := omega) only [writeLE_outside]

/-- The header as the decoder reads it back. -/
theorem writeSlideInfo_header (m : Mem) (a n : Nat) (starts : List UInt16) (si : Mem)
    (hsi : si = writeSlideInfo m a n starts) :
    read32 si a = 2 ∧ read32 si (a + 4) = 4096 ∧ read32 si (a + 8) = 40 ∧ read32 si (a + 12) = UInt32.ofNat n ∧
      read64 si (a + 24) = deltaMask ∧ read64 si (a + 32) = sharedRegionBase := by
  subst hsi
  have h32 : ∀ (m' : Mem) k, k + 4 ≤ 40 → read32 (writeStarts m' (a + 40) starts) (a + k) = read32 m' (a + k) := by
    intro m' k hk
    unfold read32
    rw [readLE_congr fun j hj => writeStarts_below starts _ _ _ (by omega)]
  have h64 : ∀ (m' : Mem) k, k + 8 ≤ 40 → read64 (writeStarts m' (a + 40) starts) (a + k) = read64 m' (a + k) := by
    intro m' k hk
    exact read64_congr fun j hj => writeStarts_below starts _ _ _ (by omega)
  have h0 := fun m' => h32 m' 0 (by omega)
  simp only [Nat.add_zero] at h0
  unfold writeSlideInfo
  refine ⟨?_, ?_, ?_, ?_, ?_, ?_⟩
  · simp (disch := omega) only [h0, read32_write32_disjoint, read32_write64_disjoint, read32_write32]
  · simp (disch := omega) only [h32, read32_write32_disjoint, read32_write64_disjoint, read32_write32]
  · simp (disch := omega) only [h32, read32_write32_disjoint, read32_write64_disjoint, read32_write32]
  · simp (disch := omega) only [h32, read32_write32_disjoint, read32_write64_disjoint, read32_write32]
  · simp (disch := omega) only [h64, read64_write64_disjoint, read64_write64]
  · simp (disch := omega) only [h64, read64_write64]

/-! ## The recorded locations -/

theorem mem_unique : ∀ {l : List Nat}, a ∈ unique l ↔ a ∈ l := by
  intro l
  fun_induction unique l with
  | case1 b l ih => simp [ih]
  | case2 b c l hne ih => simp [ih]
  | case3 l hl => rfl

theorem unique_sorted : ∀ {l : List Nat}, l.Pairwise (· ≤ ·) → (unique l).Pairwise (· < ·) := by
  intro l
  fun_induction unique l with
  | case1 b l ih => exact fun h => ih (List.pairwise_cons.mp h).2
  | case2 b c l hne ih =>
    intro h
    obtain ⟨hb, hl⟩ := List.pairwise_cons.mp h
    refine List.pairwise_cons.mpr ⟨fun x hx => ?_, ih hl⟩
    have hbc : b ≤ c := hb c List.mem_cons_self
    have hcx : c ≤ x := by
      rcases List.mem_cons.mp (mem_unique.mp hx) with rfl | hx
      · exact le_rfl
      · exact (List.pairwise_cons.mp hl).1 x hx
    omega
  | case3 l hl =>
    intro h
    match l, hl with
    | [], _ => exact List.Pairwise.nil
    | [a], _ => simp
    | a :: b :: l, hl => exact absurd rfl (hl a b l)

theorem mem_sortUnique : a ∈ sortUnique l ↔ a ∈ l := by
  rw [sortUnique, mem_unique, List.mem_insertionSort]

theorem sortUnique_sorted (l : List Nat) : (sortUnique l).Pairwise (· < ·) :=
  unique_sorted (List.pairwise_insertionSort _ l)

/-- Recorded locations as the builder's callers leave them: aligned slots of the DATA
    region that do not overlap. -/
structure DataLocs (R : SlideRegion) extends RebaseLocs where
  aligned : ∀ l ∈ locs, l % 4 = 0
  inside : ∀ l ∈ locs, R.dataFileOff ≤ l ∧ l + 8 ≤ R.dataFileOff + R.dataSize
  apart : ∀ a ∈ locs, ∀ b ∈ locs, a < b → a + 8 ≤ b

namespace DataLocs

variable {R : SlideRegion} (r : DataLocs R)

/-- The locations in order, as offsets in the region. -/
def offsets : List Nat := (sortUnique r.locs).map (· - R.dataFileOff)

theorem mem_offsets : a ∈ r.offsets ↔ R.dataFileOff + a ∈ r.locs := by
  simp only [offsets, List.mem_map, mem_sortUnique]
  constructor
  · rintro ⟨l, hl, rfl⟩
    rwa [Nat.add_sub_cancel' (r.inside l hl).1]
  · exact fun h => ⟨_, h, Nat.add_sub_cancel_left _ _⟩

theorem map_offsets : r.offsets.map (R.dataFileOff + ·) = sortUnique r.locs := by
  rw [offsets, List.map_map, List.map_congr_left (g := id), List.map_id]
  intro l hl
  exact Nat.add_sub_cancel' (r.inside l (mem_sortUnique.mp hl)).1

theorem offsets_separated : Separated r.offsets := by
  refine List.pairwise_map.mpr ((sortUnique_sorted r.locs).imp_of_mem fun {a b} ha hb hab => ?_)
  have ha := mem_sortUnique.mp ha
  have h1 := r.apart a ha b (mem_sortUnique.mp hb) hab
  have h2 := (r.inside a ha).1
  omega

theorem offsets_aligned (ha : a ∈ r.offsets) : a % 4 = 0 := by
  have h1 := r.aligned _ (r.mem_offsets.mp ha)
  have h2 : R.dataFileOff % 4096 = 0 := R.off_aligned
  omega

theorem offsets_inside (ha : a ∈ r.offsets) : a + 8 ≤ R.dataSize := by
  have := (r.inside _ (r.mem_offsets.mp ha)).2
  omega

/-- The offsets whose page has a `page_starts` entry. -/
def covered : List Nat := below (R.dataPages * pageSz) r.offsets

theorem mem_covered : a ∈ r.covered ↔ a ∈ r.offsets ∧ a / pageSz < R.dataPages := by
  rw [covered, below, List.mem_filter, decide_eq_true_eq, Nat.div_lt_iff_lt_mul (by decide)]

theorem covered_separated : Separated r.covered := r.offsets_separated.filter _

end DataLocs

/-! ## Generator, then decoder -/

section RoundTrip

variable {R : SlideRegion} (r : DataLocs R) {m m' : Mem}

/-- The generator leaves chains over the covered slots, and every other byte of the
    region as it was. -/
theorem generate_spec (hne : r.locs ≠ []) (hg : generateSlideInfoV2 R r.toRebaseLocs m = some m') :
    ∃ g starts, m' = writeSlideInfo g R.slideInfoFileOff R.dataPages starts ∧ starts.length = R.dataPages ∧
      Paged (fun a => read64 m (R.dataFileOff + a)) (fun a => read64 m' (R.dataFileOff + a)) 0 starts r.offsets := by
  unfold generateSlideInfoV2 at hg
  rw [if_neg hne, ← r.map_offsets, Option.map_eq_some_iff] at hg
  obtain ⟨⟨starts, g⟩, hpages, rfl⟩ := hg
  obtain ⟨hlen, hp, -⟩ := generatePages_spec R.dataFileOff r.offsets_separated (by simp) hpages
  refine ⟨g, starts, rfl, hlen, hp.congr (fun _ _ => rfl) fun a ha => ?_⟩
  -- the header lies behind the region
  have h1 := r.offsets_inside ha
  have h2 := R.data_below
  exact (read64_congr fun i hi => writeSlideInfo_below (by omega)).symm

theorem generate_frame (hg : generateSlideInfoV2 R r.toRebaseLocs m = some m') {x : Nat} (hx : x < R.dataSize)
    (hs : ¬ InSlots r.covered x) : m' (R.dataFileOff + x) = m (R.dataFileOff + x) := by
  unfold generateSlideInfoV2 at hg
  split at hg
  · cases hg; rfl
  · rw [← r.map_offsets, Option.map_eq_some_iff] at hg
    obtain ⟨⟨starts, g⟩, hpages, rfl⟩ := hg
    obtain ⟨-, -, hfr⟩ := generatePages_spec R.dataFileOff r.offsets_separated (by simp) hpages
    have h2 := R.data_below
    rw [writeSlideInfo_below (by omega)]
    refine hfr _ ?_
    rintro ⟨_, hmem, hx'⟩
    obtain ⟨a, ha, rfl⟩ := List.mem_map.mp hmem
    rw [Nat.zero_add] at ha
    exact hs ⟨a, ha, by omega⟩

/-- On what the generator left, the decoder stores the decoded pointer in each covered
    slot and nothing else. -/
theorem apply_generated (hz : ∀ x, R.slideInfoFileOff ≤ x → m x = 0)
    (hg : generateSlideInfoV2 R r.toRebaseLocs m = some m') (slide : UInt64) (hf : 512 ≤ fuel) :
    applySlidInfoV2 fuel (m'.from R.slideInfoFileOff) (m'.from R.dataFileOff) slide =
      some (storeAll (m'.from R.dataFileOff) (fun a => decoded slide (read64 m (R.dataFileOff + a))) r.covered) := by
  by_cases hne : r.locs = []
  · have hnil : r.covered = [] := by
      rw [List.eq_nil_iff_forall_not_mem]
      intro a ha
      simpa [hne] using r.mem_offsets.mp (r.mem_covered.mp ha).1
    have hm : m' = m := by
      unfold generateSlideInfoV2 at hg
      rw [if_pos hne] at hg
      exact (Option.some.inj hg).symm
    have hv : read32 (m'.from R.slideInfoFileOff) 0 ≠ 2 := by
      have : readLE 4 m R.slideInfoFileOff = readLE 4 (fun _ => 0) R.slideInfoFileOff :=
        readLE_congr fun i _ => hz _ (by omega)
      rw [read32_from, hm, Nat.add_zero, read32, this]
      simp [readLE]
    unfold applySlidInfoV2
    rw [if_pos hv, hnil, storeAll_nil]
  · obtain ⟨g, starts, hm, hlen, hp⟩ := generate_spec r hne hg
    obtain ⟨h0, h4, h8, h12, h24, h32⟩ := writeSlideInfo_header g R.slideInfoFileOff R.dataPages starts m' hm
    have hcnt : (UInt32.ofNat R.dataPages).toNat = starts.length := by
      have : R.dataPages < 2 ^ 32 := Nat.mod_lt _ (by decide)
      rw [hlen]
      simp only [UInt32.toNat_ofNat']
      omega
    unfold applySlidInfoV2
    simp only [read32_from, read64_from, read16_from, Nat.add_zero, h0, h4, h8, h12, h24, h32, hcnt]
    rw [if_neg (by decide)]
    have hp' : Paged (fun a => read64 m (R.dataFileOff + a)) (read64 (m'.from R.dataFileOff)) 0 starts r.offsets :=
      hp.congr (fun _ _ => rfl) fun a _ => (read64_from ..).symm
    have hst : ∀ i (h : i < starts.length), read16 m' (R.slideInfoFileOff + (40 + 2 * (0 + i))) = starts[i] := by
      intro i hi
      rw [hm, Nat.zero_add, ← Nat.add_assoc]
      exact read16_writeStarts starts _ _ i hi
    have hpages := slidePages_spec slide (fun p => read16 m' (R.slideInfoFileOff + (40 + 2 * p)))
      (fun i => read16 m' (R.slideInfoFileOff + ((read32 m' (R.slideInfoFileOff + 16)).toNat + 2 * i)))
      (read32 m' (R.slideInfoFileOff + 20)).toNat hf r.offsets_separated (fun b hb => ⟨by simp, r.offsets_aligned hb⟩) hp' hst
    rw [Nat.zero_add, hlen] at hpages
    rw [hlen]
    exact hpages

/-- Every recorded slot comes back as 0 if it held 0 and as the pointer plus the slide
    otherwise, and no other byte of the region changes. -/
def SlideRoundTrip (R : SlideRegion) (locs : List Nat) (m m' : Mem) (slide : UInt64) : Prop :=
  ∃ d, (∀ fuel ≥ 512, applySlidInfoV2 fuel (m'.from R.slideInfoFileOff) (m'.from R.dataFileOff) slide = some d) ∧
    (∀ l ∈ locs, read64 d (l - R.dataFileOff) = if read64 m l = 0 then 0 else read64 m l + slide) ∧
    ∀ x < R.dataSize, ¬ InSlots (locs.map (· - R.dataFileOff)) x → d x = m (R.dataFileOff + x)

theorem decoded_eq_iff (v : UInt64) : (decoded slide v = if v = 0 then 0 else v + slide) ↔
    v = 0 ∨ v ≠ sharedRegionBase ∨ sharedRegionBase + slide = 0 := by
  unfold decoded
  by_cases h0 : v = 0
  · simp [h0]
  · by_cases hb : v = sharedRegionBase
    · subst hb
      rw [if_pos (.inr rfl), if_neg h0]
      exact ⟨fun h => .inr (.inr h.symm), fun h => by rcases h with h | h | h <;> [exact absurd h h0; exact absurd rfl h; exact h.symm]⟩
    · rw [if_neg (not_or.mpr ⟨h0, hb⟩), if_neg h0]
      exact ⟨fun _ => .inr (.inl hb), fun _ => rfl⟩

/-- What the decoder leaves in a recorded slot. -/
theorem read64_decoded (hg : generateSlideInfoV2 R r.toRebaseLocs m = some m') (slide : UInt64) (ha : a ∈ r.offsets) :
    read64 (storeAll (m'.from R.dataFileOff) (fun a => decoded slide (read64 m (R.dataFileOff + a))) r.covered) a =
      if a / pageSz < R.dataPages then decoded slide (read64 m (R.dataFileOff + a)) else read64 m (R.dataFileOff + a) := by
  have hin := r.offsets_inside ha
  split
  · rename_i h
    exact read64_storeAll _ r.covered_separated _ a (r.mem_covered.mpr ⟨ha, h⟩)
  · rename_i h
    -- a slot of a page past the count keeps its distance from the covered ones
    have hdis : ∀ b ∈ r.covered, b + 8 ≤ a ∨ a + 8 ≤ b := by
      intro b hb
      obtain ⟨hb, hbp⟩ := r.mem_covered.mp hb
      have hlt : b < a := by
        by_contra hle
        exact h (Nat.lt_of_le_of_lt (Nat.div_le_div_right (by omega)) hbp)
      have := r.apart _ (r.mem_offsets.mp hb) _ (r.mem_offsets.mp ha) (by omega)
      omega
    rw [read64_storeAll_disjoint _ _ hdis, read64_from]
    refine read64_congr fun i hi => ?_
    rw [Nat.add_assoc]
    refine generate_frame r hg (by omega) ?_
    rintro ⟨b, hb, h1, h2⟩
    have := hdis b hb
    omega

/-- The round trip holds exactly when no recorded slot points at the base itself (which
    is encoded as a null pointer), and none is in a page past the 32-bit page count. -/
theorem slide_round_trip_iff (slide : UInt64) (hz : ∀ x, R.slideInfoFileOff ≤ x → m x = 0)
    (hg : generateSlideInfoV2 R r.toRebaseLocs m = some m') :
    SlideRoundTrip R r.locs m m' slide ↔ ∀ l ∈ r.locs, read64 m l = 0 ∨
      if (l - R.dataFileOff) / pageSz < R.dataPages then read64 m l ≠ sharedRegionBase ∨ sharedRegionBase + slide = 0
      else slide = 0 := by
  have hrun := fun fuel (hf : fuel ≥ 512) => apply_generated r hz hg slide hf
  -- the slot of `l` as an offset of the region
  have hslot : ∀ l ∈ r.locs, l - R.dataFileOff ∈ r.offsets ∧ R.dataFileOff + (l - R.dataFileOff) = l := fun l hl => by
    have := Nat.add_sub_cancel' (r.inside l hl).1
    exact ⟨r.mem_offsets.mpr (by rwa [this]), this⟩
  have hread : ∀ l ∈ r.locs, _ = _ := fun l hl => read64_decoded r hg slide (hslot l hl).1
  constructor
  · rintro ⟨d, hd, hval, -⟩ l hl
    obtain rfl : _ = d := Option.some.inj ((hrun 512 le_rfl).symm.trans (hd 512 le_rfl))
    have h := hval l hl
    rw [hread l hl, (hslot l hl).2] at h
    split at h
    · rename_i hp
      rw [if_pos hp]
      exact (decoded_eq_iff slide _).mp h
    · rename_i hp
      rw [if_neg hp]
      by_cases h0 : read64 m l = 0
      · exact .inl h0
      · rw [if_neg h0] at h
        have := congrArg (· - read64 m l) h
        simp only [UInt64.sub_self, UInt64.add_comm (read64 m l), UInt64.add_sub_cancel] at this
        exact .inr this.symm
  · intro h
    refine ⟨_, hrun, fun l hl => ?_, fun x hx hns => ?_⟩
    · rw [hread l hl, (hslot l hl).2]
      have := h l hl
      split
      · rename_i hp
        rw [if_pos hp] at this
        exact (decoded_eq_iff slide _).mpr this
      · rename_i hp
        rw [if_neg hp] at this
        rcases this with h0 | h0
        · rw [if_pos h0, h0]
        · rw [h0, UInt64.add_zero, ite_eq_right_iff.mpr Eq.symm]
    · have hcov : ¬ InSlots r.covered x := by
        rintro ⟨a, ha, hax⟩
        have ha := r.mem_offsets.mp (r.mem_covered.mp ha).1
        exact hns ⟨a, List.mem_map.mpr ⟨_, ha, Nat.add_sub_cancel_left _ _⟩, hax⟩
      rw [storeAll_outside _ _ _ _ hcov]
      exact generate_frame r hg hx hcov

end RoundTrip

/-- One DATA page at file offset 4096, the slide info right behind it. -/
def onePage : SlideRegion := ⟨4096, 4096, 8192, by decide, by decide, by decide⟩

def twoSlots : DataLocs onePage :=
  ⟨⟨[4112, 4096], by decide⟩, by decide, by decide, by decide⟩

/-- The build buffer with `v` in the first slot and a null pointer in the second. -/
def onePointer (v : UInt64) : Mem := write64 (fun _ => 0) 4096 v

theorem onePointer_zero (v : UInt64) : ∀ x, onePage.slideInfoFileOff ≤ x → onePointer v x = 0 := fun x hx =>
  write64_outside (.inr (Nat.le_trans (by decide) hx))

theorem slide_round_trip_iff_onePointer : ∃ m', generateSlideInfoV2 onePage twoSlots.toRebaseLocs
    (onePointer 0x7FFF20001000) = some m' ∧
      SlideRoundTrip onePage twoSlots.locs (onePointer 0x7FFF20001000) m' 0x5000 := by
  have h : (generateSlideInfoV2 onePage twoSlots.toRebaseLocs (onePointer 0x7FFF20001000)).isSome := by decide
  obtain ⟨m', hm⟩ := Option.isSome_iff_exists.mp h
  exact ⟨m', hm, (slide_round_trip_iff twoSlots 0x5000 (onePointer_zero _) hm).mpr (by decide)⟩

/-- A pointer to the header of the first image: accepted, and a null pointer after. -/
theorem slide_round_trip_base_lost : ∃ m', generateSlideInfoV2 onePage twoSlots.toRebaseLocs
    (onePointer sharedRegionBase) = some m' ∧
      ¬ SlideRoundTrip onePage twoSlots.locs (onePointer sharedRegionBase) m' 0x5000 := by
  have hrun : ((generateSlideInfoV2 onePage twoSlots.toRebaseLocs (onePointer sharedRegionBase)).bind fun m' =>
      applySlidInfoV2 512 (m'.from 8192) (m'.from 4096) 0x5000).map (read64 · 0) = some 0 := by decide
  obtain ⟨d, hd, h0⟩ := Option.map_eq_some_iff.mp hrun
  obtain ⟨m', hm, hd⟩ := Option.bind_eq_some_iff.mp hd
  refine ⟨m', hm, ?_⟩
  rintro ⟨d', hd', hval, -⟩
  obtain rfl : d = d' := Option.some.inj (hd.symm.trans (hd' 512 le_rfl))
  have := hval 4096 (by decide)
  rw [show 4096 - onePage.dataFileOff = 0 from rfl, h0] at this
  exact absurd this (by decide)

end Panthera.Cache
