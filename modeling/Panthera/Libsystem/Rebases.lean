/-
  Panthera.Libsystem.Rebases — the fixups of a bundle that `dlopen` loads
  (`sources/panthera_extra_stubs.c`: `panthera_read_uleb128`,
  `panthera_apply_rebases` and the loading half of `dlopen`), against those dyld makes
  for the same image (`Panthera.Dyld.Fixups`).

  The loop over the rebase stream knows four opcodes and ends at any other. It meets a
  part of dyld's rebases from the start on (`rebaseEvents_isPrefix`). Binds and lazy
  binds have no loop at all.

  `bundle_fixups_iff`: when the slots hold what dyld writes. One bind is enough to differ
  (`an_import_is_not_bound`).
-/

import Panthera.Lib.Slots
import Panthera.Lib.Updates
import Panthera.Dyld.Fixups
import Panthera.Libsystem.Dlopen

namespace Panthera.Libsystem.Rebases

open MachO Lib.Bytes Lib.Ranges Lib.Slots Lib.Updates Panthera.Dyld

/-! ## `panthera_apply_rebases` -/

/-- `panthera_read_uleb128` with `n` bytes before the end of the stream. -/
def ulebFrom (r : UInt64) (bit : Nat) : Nat → List UInt8 → UInt64 × List UInt8
  | n + 1, b :: p =>
    let r' := r ||| ((b &&& 0x7F).toUInt64 <<< UInt64.ofNat bit)
    if b &&& 0x80 = 0 then (r', p) else ulebFrom r' (bit + 7) n p
  | _, p => (r, p)

def readUleb128 : Nat → List UInt8 → UInt64 × List UInt8 := ulebFrom 0 0

section Stream

variable {σ : Type} (act : Fixups.RebaseEvent → σ → σ) (nsegs : Nat)

/-- `for (j = 0; j < imm && seg_index < nsegs; j++)` -/
def rebaseTimes (segIndex : UInt8) : Nat → UInt64 → σ → UInt64 × σ
  | 0, segOffset, st => (segOffset, st)
  | n + 1, segOffset, st =>
    if segIndex.toNat < nsegs then rebaseTimes segIndex n (segOffset + 8) (act ⟨segIndex, segOffset⟩ st)
    else (segOffset, st)

/-- The loop over a rebase stream; as in `Panthera.Fixups.Opcodes`, `tail` mapped bytes
    follow the stream. -/
def rebaseOps (tail : Nat) : Nat → List UInt8 → UInt8 → UInt64 → σ → σ
  | fuel + 1, byte :: p, segIndex, segOffset, st =>
    if p.length + 1 ≤ tail then st else
    let imm := byte &&& 0x0F
    match (byte &&& 0xF0).toNat with
    | 0x00 => st
    | 0x10 => rebaseOps tail fuel p segIndex segOffset st
    | 0x20 =>
      let r := readUleb128 (p.length - tail) p
      rebaseOps tail fuel r.2 imm r.1 st
    | 0x50 =>
      let r := rebaseTimes act nsegs segIndex imm.toNat segOffset st
      rebaseOps tail fuel p segIndex r.1 r.2
    | _ => st
  | _, _, _, _, st => st

def rebaseStream (s : Stream) (st : σ) : σ :=
  rebaseOps act nsegs (s.bytes.length - s.size.toNat) s.bytes.length s.bytes 0 0 st

end Stream

/-- `*loc += slide` -/
def rebaseLoc (img : LoadedImage) (textSeg : Segment) (e : Fixups.RebaseEvent) (m : Mem) : Mem :=
  match fixupLoc img textSeg e.segIndex e.segOffset with
  | some loc => write64 m loc (read64 m loc + img.slide)
  | none => m

/-- `nsegs` -/
def segCount (img : LoadedImage) : Nat := ((segmentsOf img.commands).take 16).length

def applyRebases (img : LoadedImage) (m : Mem) : Mem :=
  match findSegment img.commands segText, findSegment img.commands segLinkedit with
  | some textSeg, some _ =>
    (dyldInfos img.commands).foldl (fun m di => rebaseStream (rebaseLoc img textSeg) (segCount img) di.rebase m) m
  | _, _ => m

/-! ## The loading half of `dlopen` -/

/-- The bundle as dyld would list it. -/
def bundleImage (path : CStr) (commands : List LoadCommand) (base : UInt64) : LoadedImage :=
  ⟨base, Dlopen.slideOf commands base, path, commands, none⟩

/-- Fresh zero pages with the segments copied in. -/
def fileMem (contents : List UInt8) (commands : List LoadCommand) (base : UInt64) (m : Mem) : Mem :=
  copySegments base (Dlopen.extent commands).1 contents (segmentsOf commands) (zeroBytes m base (Dlopen.totalSize commands))

/-- The fixups; `chained` walks the chains of one command and is `none` for an import that is
    not resolved. -/
def bundleFixups (chained : LinkeditData → Mem → Option Mem) (img : LoadedImage) (m : Mem) : Option Mem :=
  ((chainedData img.commands).foldlM (fun m ld => chained ld m) m).map (applyRebases img)

/-! ## What dyld makes of the image -/

/-- `Dyld.bindPass` with the resolver as a parameter. -/
def bindPassWith (C : SharedCache) (img : LoadedImage) (resolve : CStr → Int → Option Proc → UInt64 × Option Proc) (pass : Nat)
    (s : Stream) (st : Proc) : Option Proc :=
  if s.size = 0 then some st
  else
    match linkeditOf C img with
    | none => some st
    | some (textSeg, _) => finished (Fixups.Dyld.applyBinds resolve (bindStore img textSeg) pass s (some st))

/-- dyld's rebases, then its binds and lazy binds, where `resolve` says what each import
    resolves to. -/
def dyldFixups (W : World) (img : LoadedImage) (resolve : CStr → Int → UInt64) (st : Proc) : Option Proc := do
  let st ← rebaseInfos W img (dyldInfos img.commands) st
  (dyldInfos img.commands).foldlM (fun st di => do
    bindPassWith W.cache img (fun n o st => (resolve n o, st)) 1 di.lazyBind
      (← bindPassWith W.cache img (fun n o st => (resolve n o, st)) 0 di.bind st)) st

/-! ## Streams as events -/

section Events

variable {σ τ : Type} {act : Fixups.RebaseEvent → σ → σ} {act' : Fixups.RebaseEvent → τ → τ} {f : σ → τ} {nsegs : Nat}

theorem rebaseTimes_map (hf : ∀ e st, act' e (f st) = f (act e st)) (seg : UInt8) :
    ∀ (n : Nat) (off : UInt64) (st : σ),
      rebaseTimes act' nsegs seg n off (f st) = (rebaseTimes act nsegs seg n off st).map id f := by
  intro n
  induction n with
  | zero => intros; rfl
  | succ n ih =>
    intro off st
    rw [rebaseTimes, rebaseTimes, hf, ih]
    split <;> rfl

theorem rebaseOps_map (hf : ∀ e st, act' e (f st) = f (act e st)) (tail : Nat) :
    ∀ (fuel : Nat) (bytes : List UInt8) (seg : UInt8) (off : UInt64) (st : σ),
      rebaseOps act' nsegs tail fuel bytes seg off (f st) = f (rebaseOps act nsegs tail fuel bytes seg off st) := by
  intro fuel
  induction fuel with
  | zero => intros; rfl
  | succ fuel ih =>
    intro bytes seg off st
    cases bytes with
    | nil => rfl
    | cons byte p =>
      simp only [rebaseOps, rebaseTimes_map hf, Prod.map_fst, Prod.map_snd, id, ih]
      repeat' split
      all_goals rfl

/-- The rebases that the loop meets in a stream. -/
def rebaseEvents (nsegs : Nat) (s : Stream) : List Fixups.RebaseEvent := rebaseStream (fun e l => l ++ [e]) nsegs s []

theorem rebaseStream_eq (act : Fixups.RebaseEvent → σ → σ) (nsegs : Nat) (s : Stream) (st : σ) :
    rebaseStream act nsegs s st = (rebaseEvents nsegs s).foldl (fun st e => act e st) st :=
  rebaseOps_map (f := fun l : List Fixups.RebaseEvent => l.foldl (fun st e => act e st) st)
    (fun e l => by rw [List.foldl_append, List.foldl_cons, List.foldl_nil]) _ _ _ _ _ []

/-- Past its end a stream has no rebases. -/
theorem rebaseOps_of_le (act : Fixups.RebaseEvent → σ → σ) (nsegs : Nat) {tail : Nat} {bytes : List UInt8} (h : bytes.length ≤ tail)
    (fuel : Nat) (seg : UInt8) (off : UInt64) (st : σ) : rebaseOps act nsegs tail fuel bytes seg off st = st := by
  cases fuel with
  | zero => rfl
  | succ fuel =>
    cases bytes with
    | nil => rfl
    | cons byte p =>
      have hend : p.length + 1 ≤ tail := h
      rw [rebaseOps, if_pos hend]

/-- The operand is the one dyld reads, or the stream ends before it does. -/
theorem ulebFrom_cases : ∀ {n : Nat} {p : List UInt8} (r : UInt64) (bit : Nat), n ≤ p.length →
    Fixups.ulebFrom r bit p = some (ulebFrom r bit n p) ∨ (ulebFrom r bit n p).2.length + n ≤ p.length := by
  intro n
  induction n with
  | zero => intro p r bit _; exact .inr (Nat.le_refl _)
  | succ n ih =>
    intro p r bit hn
    cases p with
    | nil => cases hn
    | cons b p =>
      rw [Fixups.ulebFrom, ulebFrom]
      by_cases hb : b &&& 0x80 = 0
      · exact .inl (by simp only [hb, if_true])
      · simp only [hb, if_false, List.length_cons]
        rcases ih (r ||| ((b &&& 0x7F).toUInt64 <<< UInt64.ofNat bit)) (bit + 7) (Nat.le_of_succ_le_succ hn) with h | h
        · exact .inl h
        · exact .inr (by omega)

theorem rebaseTimes_eq (act : Fixups.RebaseEvent → σ → σ) {seg : UInt8} (h : seg.toNat < nsegs) :
    ∀ (n : Nat) (off : UInt64) (st : σ), rebaseTimes act nsegs seg n off st = Fixups.Dyld.rebaseTimes act seg 0 n off st := by
  intro n
  induction n with
  | zero => intros; rfl
  | succ n ih => intro off st; rw [rebaseTimes, if_pos h, ih, Fixups.Dyld.rebaseTimes, UInt64.zero_add]

end Events

/-- dyld's loop only adds to the events it has met. -/
theorem dyldOps_extends (tail fuel : Nat) (bytes : List UInt8) (seg : UInt8) (off : UInt64) {l l' : List Fixups.RebaseEvent}
    (h : l <+: l') : l <+: (Fixups.Dyld.rebaseOps (fun e l => l ++ [e]) tail fuel bytes seg off l').1 :=
  Fixups.Dyld.rebaseOps_inv (fun _ _ h => h.trans (List.prefix_append _ _)) tail fuel bytes seg off l' h

variable {nsegs : Nat}

/-- What the loop does at a rebase opcode, if dyld's rebases are all of segments that are
    there. -/
theorem rebaseTimes_placed (seg : UInt8) (n : Nat) (off : UInt64) (l : List Fixups.RebaseEvent)
    (h : ∀ e ∈ (Fixups.Dyld.rebaseTimes (fun e l => l ++ [e]) seg 0 n off l).2, e.segIndex.toNat < nsegs) :
    rebaseTimes (fun e l => l ++ [e]) nsegs seg n off l = Fixups.Dyld.rebaseTimes (fun e l => l ++ [e]) seg 0 n off l := by
  cases n with
  | zero => rfl
  | succ n =>
    refine rebaseTimes_eq _ (h ⟨seg, off⟩ ?_) _ _ _
    have hgrow : ∀ (e : Fixups.RebaseEvent) (l' : List Fixups.RebaseEvent), l ++ [⟨seg, off⟩] <+: l' → l ++ [⟨seg, off⟩] <+: l' ++ [e] :=
      fun e l' h => h.trans (List.prefix_append l' [e])
    have hfirst := Fixups.Dyld.rebaseTimes_inv hgrow seg 0 n (off + (0 + 8)) (l ++ [⟨seg, off⟩]) (List.prefix_refl _)
    exact hfirst.subset (List.mem_append_right _ List.mem_cons_self)

theorem rebaseOps_isPrefix (tail : Nat) :
    ∀ (fuel : Nat) (bytes : List UInt8) (seg : UInt8) (off : UInt64) (l : List Fixups.RebaseEvent),
      (∀ e ∈ (Fixups.Dyld.rebaseOps (fun e l => l ++ [e]) tail fuel bytes seg off l).1, e.segIndex.toNat < nsegs) →
      rebaseOps (fun e l => l ++ [e]) nsegs tail fuel bytes seg off l <+:
        (Fixups.Dyld.rebaseOps (fun e l => l ++ [e]) tail fuel bytes seg off l).1 := by
  intro fuel
  induction fuel with
  | zero => intros; exact List.prefix_refl _
  | succ fuel ih =>
    intro bytes seg off l h
    cases bytes with
    | nil => exact List.prefix_refl _
    | cons byte p =>
      have hstop := dyldOps_extends tail (fuel + 1) (byte :: p) seg off (List.prefix_refl l)
      simp only [rebaseOps]
      by_cases he : p.length + 1 ≤ tail
      · rw [if_pos he]
        exact hstop
      · rw [if_neg he]
        simp only [Fixups.Dyld.rebaseOps, if_neg he] at h hstop ⊢
        generalize (byte &&& 0xF0).toNat = op at h hstop ⊢
        split
        case h_1 => exact hstop
        case h_2 => exact ih _ _ _ _ h
        -- an operand that the stream's end cuts short is the last of its stream
        case h_3 =>
          rcases ulebFrom_cases (p := p) 0 0 (Nat.sub_le p.length tail) with hu | hcut
          · simp only [Fixups.readULEB128, hu] at h ⊢
            exact ih _ _ _ _ h
          · rw [rebaseOps_of_le _ _ (by unfold readUleb128; omega)]
            exact hstop
        case h_4 =>
          have hplaced := rebaseTimes_placed seg (byte &&& 0x0F).toNat off l fun e hmem =>
            h e ((dyldOps_extends tail fuel p seg _ (List.prefix_refl _)).subset hmem)
          rw [hplaced]
          exact ih _ _ _ _ h
        case h_5 => exact hstop

/-- `dlopen` meets dyld's rebases from the first on, up to the first opcode it does not know. -/
theorem rebaseEvents_isPrefix {s : Stream} (h : ∀ e ∈ (Fixups.Dyld.rebaseEvents s).1, e.segIndex.toNat < nsegs) :
    rebaseEvents nsegs s <+: (Fixups.Dyld.rebaseEvents s).1 := rebaseOps_isPrefix _ _ _ _ _ _ h

/-! ## Slots -/

def slotOf (img : LoadedImage) (segIndex : UInt8) (segOffset : UInt64) : Option Nat :=
  (findSegment img.commands segText).bind fun textSeg => fixupLoc img textSeg segIndex segOffset

theorem slotOf_eq {img : LoadedImage} {textSeg : Segment} (h : findSegment img.commands segText = some textSeg) (segIndex : UInt8)
    (segOffset : UInt64) : slotOf img segIndex segOffset = fixupLoc img textSeg segIndex segOffset := by rw [slotOf, h, Option.bind_some]

def rebaseSlots (img : LoadedImage) (es : List Fixups.RebaseEvent) : List Nat :=
  es.filterMap fun e => slotOf img e.segIndex e.segOffset

/-- What a bind stores, if it stores anything. -/
def bindValue (resolve : CStr → Int → UInt64) (e : Fixups.BindEvent) : Option UInt64 :=
  if resolve e.symbolName e.ordinal ≠ 0 then some (resolve e.symbolName e.ordinal + e.addend)
  else if e.weakImport then some 0
  else none

def bindWrites (img : LoadedImage) (resolve : CStr → Int → UInt64) (es : List Fixups.BindEvent) : List (Nat × UInt64) :=
  es.filterMap fun e => (slotOf img e.segIndex e.segOffset).bind fun s => (bindValue resolve e).map (s, ·)

/-- The slots that `dlopen` rebases, each as often as it does. -/
def dlopenRebases (img : LoadedImage) : List Nat :=
  if (findSegment img.commands segLinkedit).isSome then
    (dyldInfos img.commands).flatMap fun di => rebaseSlots img (rebaseEvents (segCount img) di.rebase)
  else []

/-- The slots that dyld rebases, each as often as it does. -/
def dyldRebases (C : SharedCache) (img : LoadedImage) : List Nat :=
  if (linkeditOf C img).isSome then
    ((dyldInfos img.commands).takeWhile (·.rebase.size ≠ 0)).flatMap fun di =>
      rebaseSlots img (Fixups.Dyld.rebaseEvents di.rebase).1
  else []

/-- What the binds of a command store, then what its lazy binds do. -/
def infoBinds (img : LoadedImage) (resolve : CStr → Int → UInt64) (di : DyldInfo) : List (Nat × UInt64) :=
  bindWrites img resolve (Fixups.Dyld.bindEvents 0 di.bind).1 ++ bindWrites img resolve (Fixups.Dyld.bindEvents 1 di.lazyBind).1

/-- The slots that dyld binds, with what it stores there. -/
def dyldBinds (C : SharedCache) (img : LoadedImage) (resolve : CStr → Int → UInt64) : List (Nat × UInt64) :=
  if (linkeditOf C img).isSome then (dyldInfos img.commands).flatMap (infoBinds img resolve) else []

/-- The slots that dyld writes. -/
def dyldSlots (C : SharedCache) (img : LoadedImage) (resolve : CStr → Int → UInt64) : List Nat :=
  dyldRebases C img ++ (dyldBinds C img resolve).map Prod.fst

def addAll (slide : UInt64) (slots : List Nat) : List Patch := slots.map fun s => ⟨s, (· + slide)⟩

def setAll (ws : List (Nat × UInt64)) : List Patch := ws.map fun w => ⟨w.1, fun _ => w.2⟩

theorem addAll_append (slide : UInt64) (slots slots' : List Nat) : addAll slide (slots ++ slots') = addAll slide slots ++ addAll slide slots' :=
  List.map_append

theorem setAll_append (ws ws' : List (Nat × UInt64)) : setAll (ws ++ ws') = setAll ws ++ setAll ws' := List.map_append

def dyldPatches (C : SharedCache) (img : LoadedImage) (resolve : CStr → Int → UInt64) : List Patch :=
  addAll img.slide (dyldRebases C img) ++ setAll (dyldBinds C img resolve)

/-- How far the rebases of these slots move the word in slot `s`. -/
def moved (slide : UInt64) (slots : List Nat) (s : Nat) : UInt64 := UInt64.ofNat (slots.count s) * slide

theorem changes_addAll (slide : UInt64) (s : Nat) : ∀ (slots : List Nat) (w : UInt64),
    changes (addAll slide slots) s w = w + moved slide slots s := by
  intro slots
  induction slots with
  | nil => intro w; simp [addAll, moved]
  | cons t slots ih =>
    intro w
    rw [addAll, List.map_cons, changes_cons, ← addAll, ih, moved, moved, List.count_cons]
    by_cases ht : t = s
    · simp only [ht, if_true, beq_self_eq_true, UInt64.ofNat_add]
      rw [UInt64.add_mul, UInt64.add_assoc, UInt64.add_comm slide]
      simp
    · simp [ht]

theorem changes_setAll (ws : List (Nat × UInt64)) (s : Nat) (w : UInt64) : changes (setAll ws) s w = (lastWrite ws s).getD w := by
  induction ws using List.reverseRecOn with
  | nil => rfl
  | append_singleton ws v ih =>
    rw [setAll_append, changes_append, ih, setAll, List.map_singleton, changes_cons, changes_nil, lastWrite, lastWrite,
      List.reverse_append, List.reverse_singleton, List.singleton_append, List.find?_cons]
    by_cases hv : v.1 = s <;> simp [hv]

section Runs

variable {img : LoadedImage} {textSeg : Segment}

theorem foldl_rebaseLoc (htext : findSegment img.commands segText = some textSeg) : ∀ (es : List Fixups.RebaseEvent) (m : Mem),
    es.foldl (fun m e => rebaseLoc img textSeg e m) m = patch (addAll img.slide (rebaseSlots img es)) m := by
  intro es
  induction es with
  | nil => intro m; rfl
  | cons e es ih =>
    intro m
    rw [List.foldl_cons, ih, rebaseLoc, rebaseSlots, rebaseSlots, List.filterMap_cons, slotOf_eq htext]
    cases fixupLoc img textSeg e.segIndex e.segOffset <;> rfl

/-- The bundle's rebases: a word moves by the slide as often as its slot is met. -/
theorem applyRebases_eq (img : LoadedImage) (m : Mem) : applyRebases img m = patch (addAll img.slide (dlopenRebases img)) m := by
  have hnone : findSegment img.commands segText = none → dlopenRebases img = [] := by
    intro h
    have hslots : ∀ es, rebaseSlots img es = [] := fun es => List.filterMap_eq_nil_iff.mpr fun e _ => by rw [slotOf, h, Option.bind_none]
    simp [dlopenRebases, hslots]
  cases htext : findSegment img.commands segText with
  | none => rw [hnone htext, applyRebases, htext]; rfl
  | some textSeg =>
    cases hlink : findSegment img.commands segLinkedit with
    | none => simp [applyRebases, dlopenRebases, htext, hlink, addAll]
    | some linkSeg =>
      simp only [applyRebases, dlopenRebases, htext, hlink, Option.isSome_some, if_true]
      generalize dyldInfos img.commands = dis
      induction dis generalizing m with
      | nil => rfl
      | cons di dis ih =>
        rw [List.foldl_cons, ih, rebaseStream_eq, foldl_rebaseLoc htext, List.flatMap_cons, addAll_append, patch_append]

theorem foldl_rebaseAt (htext : findSegment img.commands segText = some textSeg) : ∀ (es : List Fixups.RebaseEvent) (st : Proc),
    (∀ e ∈ es, (fixupLoc img textSeg e.segIndex e.segOffset).isSome) →
    es.foldl (fun st e => rebaseAt img textSeg e st) (some st) =
      some { st with mem := patch (addAll img.slide (rebaseSlots img es)) st.mem } := by
  intro es
  induction es with
  | nil => intro st _; rfl
  | cons e es ih =>
    intro st h
    obtain ⟨he, hes⟩ := List.forall_mem_cons.mp h
    obtain ⟨loc, hloc⟩ := Option.isSome_iff_exists.mp he
    have hstep : rebaseAt img textSeg e (some st) = some (st.store loc (read64 st.mem loc + img.slide)) := by
      simp [rebaseAt, hloc]
    rw [List.foldl_cons, hstep, ih _ hes, rebaseSlots, rebaseSlots, List.filterMap_cons, slotOf_eq htext, hloc]
    rfl

theorem foldl_bindStore (htext : findSegment img.commands segText = some textSeg) (resolve : CStr → Int → UInt64) :
    ∀ (es : List Fixups.BindEvent) (st : Proc), (∀ e ∈ es, (fixupLoc img textSeg e.segIndex e.segOffset).isSome) →
      es.foldl (fun st e => bindStore img textSeg e (resolve e.symbolName e.ordinal) st) (some st) =
        some { st with mem := patch (setAll (bindWrites img resolve es)) st.mem } := by
  intro es
  induction es with
  | nil => intro st _; rfl
  | cons e es ih =>
    intro st h
    obtain ⟨he, hes⟩ := List.forall_mem_cons.mp h
    obtain ⟨loc, hloc⟩ := Option.isSome_iff_exists.mp he
    have hstep : bindStore img textSeg e (resolve e.symbolName e.ordinal) (some st) =
        some (((bindValue resolve e).map (st.store loc)).getD st) := by
      simp only [bindStore, hloc, bindValue, Option.bind_eq_bind, Option.bind_some]
      repeat' split
      all_goals rfl
    rw [List.foldl_cons, hstep, ih _ hes, bindWrites, bindWrites, List.filterMap_cons, slotOf_eq htext, hloc, Option.bind_some]
    cases bindValue resolve e <;> rfl

end Runs

/-! ## Well-formed bundles -/

/-- Where the fixups of a command are: the segment's index and the offset in it. -/
def infoLocs (di : DyldInfo) : List (UInt8 × UInt64) :=
  (Fixups.Dyld.rebaseEvents di.rebase).1.map (fun e => (e.segIndex, e.segOffset)) ++
    ((Fixups.Dyld.bindEvents 0 di.bind).1 ++ (Fixups.Dyld.bindEvents 1 di.lazyBind).1).map fun e => (e.segIndex, e.segOffset)

def fixupLocs (img : LoadedImage) : List (UInt8 × UInt64) := (dyldInfos img.commands).flatMap infoLocs

def fixupSlots (img : LoadedImage) : List Nat := (fixupLocs img).filterMap fun l => slotOf img l.1 l.2

/-- Where `dlopen` copies a segment to. -/
def segRange (img : LoadedImage) (seg : Segment) : Range :=
  ⟨(img.header + (seg.vmaddr - (Dlopen.extent img.commands).1)).toNat, seg.vmsize.toNat⟩

/-- A word of one of the segments that both loaders look at. -/
def Placed (img : LoadedImage) (l : UInt8 × UInt64) : Prop :=
  ∃ seg ∈ ((segmentsOf img.commands).take 16)[l.1.toNat]?, l.2.toNat + 8 ≤ seg.vmsize.toNat

instance (img : LoadedImage) : DecidablePred (Placed img) := fun _ => inferInstanceAs (Decidable (∃ seg ∈ _, _))

structure WellFormed (img : LoadedImage) : Prop where
  noChained : chainedData img.commands = []
  /-- The header is at the start of the mapping. -/
  text : ∀ textSeg ∈ findSegment img.commands segText, textSeg.vmaddr = (Dlopen.extent img.commands).1
  mapped : ∀ seg ∈ segmentsOf img.commands, (segRange img seg).stop ≤ 2 ^ 64
  /-- No operand runs off the mapped bytes. -/
  operands : ∀ di ∈ dyldInfos img.commands, (Fixups.Dyld.rebaseEvents di.rebase).2 = true ∧
    (Fixups.Dyld.bindEvents 0 di.bind).2 = true ∧ (Fixups.Dyld.bindEvents 1 di.lazyBind).2 = true
  placed : ∀ l ∈ fixupLocs img, Placed img l
  apart : ∀ s ∈ fixupSlots img, ∀ t ∈ fixupSlots img, Clear s t

section Bundle

variable {img : LoadedImage} {textSeg : Segment} {C : SharedCache} {resolve : CStr → Int → UInt64} {di : DyldInfo}

variable {l : UInt8 × UInt64} {s : Nat}

theorem mem_fixupLocs (hdi : di ∈ dyldInfos img.commands) (h : l ∈ infoLocs di) : l ∈ fixupLocs img :=
  List.mem_flatMap.mpr ⟨di, hdi, h⟩

theorem rebase_mem_infoLocs {e : Fixups.RebaseEvent} (h : e ∈ (Fixups.Dyld.rebaseEvents di.rebase).1) :
    (e.segIndex, e.segOffset) ∈ infoLocs di := List.mem_append_left _ (List.mem_map_of_mem h)

theorem bind_mem_infoLocs {e : Fixups.BindEvent}
    (h : e ∈ (Fixups.Dyld.bindEvents 0 di.bind).1 ++ (Fixups.Dyld.bindEvents 1 di.lazyBind).1) :
    (e.segIndex, e.segOffset) ∈ infoLocs di := List.mem_append_right _ (List.mem_map_of_mem h)

theorem Placed.index_lt (h : Placed img l) : l.1.toNat < segCount img := by
  obtain ⟨seg, hseg, -⟩ := h
  exact (List.getElem?_eq_some_iff.mp hseg).1

theorem Placed.loc_isSome (h : Placed img l) (textSeg : Segment) : (fixupLoc img textSeg l.1 l.2).isSome := by
  obtain ⟨seg, hseg, -⟩ := h
  rw [fixupLoc, Option.mem_def.mp hseg]
  rfl

/-- A fixup of a well-formed bundle is inside a segment. -/
theorem WellFormed.inside (h : WellFormed img) (hs : s ∈ fixupSlots img) :
    ∃ seg ∈ segmentsOf img.commands, Range.Inside ⟨s, 8⟩ (segRange img seg) := by
  obtain ⟨l, hl, hslot⟩ := List.mem_filterMap.mp hs
  obtain ⟨textSeg, htext, hloc⟩ := Option.bind_eq_some_iff.mp hslot
  obtain ⟨seg, hseg, hroom⟩ := h.placed l hl
  have hmem : seg ∈ segmentsOf img.commands := List.mem_of_mem_take (List.mem_of_getElem? hseg)
  have hstop := h.mapped seg hmem
  rw [fixupLoc, Option.mem_def.mp hseg, Option.map_some, Option.some_inj, h.text textSeg htext, UInt64.sub_eq_add_neg,
    UInt64.add_assoc img.header, ← UInt64.sub_eq_add_neg, UInt64.toNat_add] at hloc
  refine ⟨seg, hmem, ?_⟩
  unfold Range.stop segRange at hstop
  unfold segRange
  refine Range.inside_of_le ?_ ?_ <;> dsimp only at hstop ⊢ <;> omega

theorem findSegment_of_linkeditOf {linkSeg : Segment} (h : linkeditOf C img = some (textSeg, linkSeg)) :
    findSegment img.commands segText = some textSeg := by
  unfold linkeditOf at h
  split at h
  · rename_i htext hlink
    split at h
    · cases h
    · rw [htext, (Prod.mk.inj (Option.some.inj h)).1]
  · cases h

theorem rebaseInfos_eq (W : World) (hlink : (linkeditOf W.cache img).isSome) : ∀ (dis : List DyldInfo) (st : Proc),
    (∀ di ∈ dis, (Fixups.Dyld.rebaseEvents di.rebase).2 = true ∧ ∀ l ∈ infoLocs di, Placed img l) →
    rebaseInfos W img dis st = some { st with mem := patch (addAll img.slide ((dis.takeWhile (·.rebase.size ≠ 0)).flatMap fun di =>
      rebaseSlots img (Fixups.Dyld.rebaseEvents di.rebase).1)) st.mem } := by
  intro dis
  obtain ⟨⟨textSeg, linkSeg⟩, hsegs⟩ := Option.isSome_iff_exists.mp hlink
  induction dis with
  | nil => intro st _; rfl
  | cons di dis ih =>
    intro st h
    obtain ⟨⟨hok, hplaced⟩, hdis⟩ := List.forall_mem_cons.mp h
    rw [rebaseInfos]
    by_cases hsize : di.rebase.size = 0
    · rw [if_pos hsize, List.takeWhile_cons_of_neg (by simpa using hsize)]
      rfl
    · have hrun : finished (Fixups.Dyld.applyRebases (rebaseAt img textSeg) di.rebase (some st)) =
          some { st with mem := patch (addAll img.slide (rebaseSlots img (Fixups.Dyld.rebaseEvents di.rebase).1)) st.mem } := by
        rw [Fixups.Dyld.applyRebases_eq, finished, if_pos hok]
        exact foldl_rebaseAt (findSegment_of_linkeditOf hsegs) _ st fun e he =>
          (hplaced _ (rebase_mem_infoLocs he)).loc_isSome textSeg
      rw [if_neg hsize, hsegs, List.takeWhile_cons_of_pos (by simpa using hsize), List.flatMap_cons, addAll_append]
      dsimp only
      rw [hrun, Option.bind_some, ih _ hdis, patch_append]

theorem bindEvents_of_size_zero {pass : Nat} {s : Stream} (h : s.size = 0) : (Fixups.Dyld.bindEvents pass s).1 = [] := by
  obtain ⟨bytes, size, hin⟩ := s
  obtain rfl : size = 0 := h
  unfold Fixups.Dyld.bindEvents Fixups.Dyld.applyBinds
  cases bytes with
  | nil => rfl
  | cons byte p =>
    simp only [List.length_cons, UInt32.toNat_zero, Nat.sub_zero]
    rw [Fixups.Dyld.bindOps, if_pos (Nat.le_refl _)]

theorem bindPassWith_eq (hlink : (linkeditOf C img).isSome) {pass : Nat} {s : Stream} (hok : (Fixups.Dyld.bindEvents pass s).2 = true)
    (hplaced : ∀ e ∈ (Fixups.Dyld.bindEvents pass s).1, Placed img (e.segIndex, e.segOffset)) (st : Proc) :
    bindPassWith C img (fun n o st => (resolve n o, st)) pass s st =
      some { st with mem := patch (setAll (bindWrites img resolve (Fixups.Dyld.bindEvents pass s).1)) st.mem } := by
  obtain ⟨⟨textSeg, linkSeg⟩, hsegs⟩ := Option.isSome_iff_exists.mp hlink
  rw [bindPassWith]
  by_cases hsize : s.size = 0
  · rw [if_pos hsize, bindEvents_of_size_zero hsize]
    rfl
  · rw [if_neg hsize, hsegs]
    dsimp only
    rw [Fixups.Dyld.applyBinds_eq, finished, if_pos hok]
    exact foldl_bindStore (findSegment_of_linkeditOf hsegs) resolve _ st fun e he => (hplaced e he).loc_isSome textSeg

/-- dyld's fixups: the rebases of its slots, then the stores of its binds. -/
theorem dyldFixups_eq (W : World) (h : WellFormed img) (resolve : CStr → Int → UInt64) (st : Proc) :
    dyldFixups W img resolve st = some { st with
      mem := patch (dyldPatches W.cache img resolve) st.mem } := by
  have hlocs : ∀ di ∈ dyldInfos img.commands, ∀ l ∈ infoLocs di, Placed img l := fun di hdi l hl =>
    h.placed l (mem_fixupLocs hdi hl)
  rw [dyldPatches, patch_append]
  cases hlink : linkeditOf W.cache img with
  | none =>
    have hrebase : ∀ dis st, rebaseInfos W img dis st = some st := by
      intro dis st
      cases dis with
      | nil => rfl
      | cons di dis => rw [rebaseInfos, hlink]; split <;> rfl
    have hbind : ∀ r pass s st, bindPassWith W.cache img r pass s st = some st := by
      intro r pass s st
      rw [bindPassWith, hlink]
      split <;> rfl
    have hfold : ∀ dis : List DyldInfo, dis.foldlM (fun (st : Proc) (_ : DyldInfo) => some st) st = some st := by
      intro dis
      induction dis with
      | nil => rfl
      | cons di dis ih => rw [List.foldlM_cons]; exact ih
    simp only [dyldFixups, hrebase, hbind, dyldRebases, dyldBinds, hlink, Option.bind_eq_bind, Option.bind_some]
    exact hfold _
  | some segs =>
    have hsome : (linkeditOf W.cache img).isSome := by rw [hlink]; rfl
    rw [dyldFixups, rebaseInfos_eq W hsome _ st fun di hdi => ⟨(h.operands di hdi).1, hlocs di hdi⟩, dyldRebases, if_pos hsome, dyldBinds,
      if_pos hsome]
    simp only [Option.bind_eq_bind, Option.bind_some]
    generalize patch _ st.mem = m
    have hbinds := h.operands
    revert hbinds hlocs
    generalize dyldInfos img.commands = dis
    intro hlocs hbinds
    induction dis generalizing m with
    | nil => rfl
    | cons di dis ih =>
      obtain ⟨hdi, hdis⟩ := List.forall_mem_cons.mp hlocs
      obtain ⟨⟨-, hbind, hlazy⟩, hrest⟩ := List.forall_mem_cons.mp hbinds
      rw [List.foldlM_cons, bindPassWith_eq hsome hbind fun e he => hdi _ (bind_mem_infoLocs (List.mem_append_left _ he)),
        List.flatMap_cons, setAll_append, patch_append, infoBinds, setAll_append, patch_append]
      simp only [Option.bind_eq_bind, Option.bind_some]
      rw [bindPassWith_eq hsome hlazy fun e he => hdi _ (bind_mem_infoLocs (List.mem_append_right _ he)), Option.bind_some]
      exact ih _ hdis hrest

theorem rebaseSlots_subset {es : List Fixups.RebaseEvent} (hdi : di ∈ dyldInfos img.commands)
    (hes : ∀ e ∈ es, e ∈ (Fixups.Dyld.rebaseEvents di.rebase).1) (hs : s ∈ rebaseSlots img es) : s ∈ fixupSlots img := by
  obtain ⟨e, he, hslot⟩ := List.mem_filterMap.mp hs
  exact List.mem_filterMap.mpr ⟨_, mem_fixupLocs hdi (rebase_mem_infoLocs (hes e he)), hslot⟩

theorem bindWrites_subset {es : List Fixups.BindEvent} (hdi : di ∈ dyldInfos img.commands)
    (hes : ∀ e ∈ es, e ∈ (Fixups.Dyld.bindEvents 0 di.bind).1 ++ (Fixups.Dyld.bindEvents 1 di.lazyBind).1) {w : Nat × UInt64}
    (hw : w ∈ bindWrites img resolve es) : w.1 ∈ fixupSlots img := by
  obtain ⟨e, he, hslot⟩ := List.mem_filterMap.mp hw
  obtain ⟨s, hs, hv⟩ := Option.bind_eq_some_iff.mp hslot
  obtain ⟨v, -, rfl⟩ := Option.map_eq_some_iff.mp hv
  exact List.mem_filterMap.mpr ⟨_, mem_fixupLocs hdi (bind_mem_infoLocs (hes e he)), hs⟩

theorem WellFormed.dlopenRebases_subset (h : WellFormed img) (hs : s ∈ dlopenRebases img) : s ∈ fixupSlots img := by
  unfold dlopenRebases at hs
  split at hs
  · obtain ⟨di, hdi, hs⟩ := List.mem_flatMap.mp hs
    have hevents : rebaseEvents (segCount img) di.rebase <+: (Fixups.Dyld.rebaseEvents di.rebase).1 :=
      rebaseEvents_isPrefix fun e he => (h.placed _ (mem_fixupLocs hdi (rebase_mem_infoLocs he))).index_lt
    exact rebaseSlots_subset hdi (fun e he => hevents.subset he) hs
  · cases hs

theorem dyldRebases_subset (hs : s ∈ dyldRebases C img) : s ∈ fixupSlots img := by
  unfold dyldRebases at hs
  split at hs
  · obtain ⟨di, hdi, hs⟩ := List.mem_flatMap.mp hs
    exact rebaseSlots_subset ((List.takeWhile_prefix _).subset hdi) (fun e he => he) hs
  · cases hs

theorem dyldBinds_subset {w : Nat × UInt64} (hw : w ∈ dyldBinds C img resolve) : w.1 ∈ fixupSlots img := by
  unfold dyldBinds at hw
  split at hw
  · obtain ⟨di, hdi, hw⟩ := List.mem_flatMap.mp hw
    rcases List.mem_append.mp hw with hw | hw
    · exact bindWrites_subset hdi (fun e he => List.mem_append_left _ he) hw
    · exact bindWrites_subset hdi (fun e he => List.mem_append_right _ he) hw
  · cases hw

theorem dyldSlots_subset (hs : s ∈ dyldSlots C img resolve) : s ∈ fixupSlots img := by
  rcases List.mem_append.mp hs with hs | hs
  · exact dyldRebases_subset hs
  · obtain ⟨w, hw, rfl⟩ := List.mem_map.mp hs
    exact dyldBinds_subset hw

/-! ## The comparison -/

/-- The slots that dyld writes hold what dyld writes, and every other byte of the segments
    what the file has there. -/
structure AsDyld (C : SharedCache) (img : LoadedImage) (resolve : CStr → Int → UInt64) (file mem dyld : Mem) : Prop where
  slots : ∀ s ∈ dyldSlots C img resolve, read64 mem s = read64 dyld s
  others : ∀ seg ∈ segmentsOf img.commands, ∀ x ∈ segRange img seg,
    (∀ s ∈ dyldSlots C img resolve, x ∉ (⟨s, 8⟩ : Range)) → mem x = file x

/-- A bound slot holds, once `dlopen` has rebased it, what the last bind stores; any other is
    moved as far by `dlopen` as by dyld. -/
def CoveredAt (C : SharedCache) (img : LoadedImage) (resolve : CStr → Int → UInt64) (file : Mem) (s : Nat) : Prop :=
  match lastWrite (dyldBinds C img resolve) s with
  | some v => v = read64 file s + moved img.slide (dlopenRebases img) s
  | none => moved img.slide (dyldRebases C img) s = moved img.slide (dlopenRebases img) s

def Covered (C : SharedCache) (img : LoadedImage) (resolve : CStr → Int → UInt64) (file : Mem) : Prop :=
  ∀ s ∈ dlopenRebases img ++ dyldSlots C img resolve, CoveredAt C img resolve file s

theorem slot_mem_dyldSlots {p : Patch} (hp : p ∈ dyldPatches C img resolve) : p.slot ∈ dyldSlots C img resolve := by
  rcases List.mem_append.mp hp with hp | hp
  · obtain ⟨t, ht, rfl⟩ := List.mem_map.mp hp
    exact List.mem_append_left _ ht
  · obtain ⟨w, hw, rfl⟩ := List.mem_map.mp hp
    exact List.mem_append_right _ (List.mem_map_of_mem hw)

section

variable (h : WellFormed img) (m : Mem) {s : Nat} (hs : s ∈ fixupSlots img)

include h hs

theorem WellFormed.clear_dyld : ∀ p ∈ dyldPatches C img resolve, Clear s p.slot :=
  fun _ hp => h.apart s hs _ (dyldSlots_subset (slot_mem_dyldSlots hp))

/-- The word `dlopen` leaves in a slot. -/
theorem read64_applyRebases : read64 (applyRebases img m) s = read64 m s + moved img.slide (dlopenRebases img) s := by
  rw [applyRebases_eq, read64_patch, changes_addAll]
  intro p hp
  obtain ⟨t, ht, rfl⟩ := List.mem_map.mp hp
  exact h.apart s hs t (h.dlopenRebases_subset ht)

/-- The word dyld leaves in a slot. -/
theorem read64_dyldPatches :
    read64 (patch (dyldPatches C img resolve) m) s =
      (lastWrite (dyldBinds C img resolve) s).getD (read64 m s + moved img.slide (dyldRebases C img) s) := by
  rw [read64_patch (h.clear_dyld hs), dyldPatches, changes_append, changes_addAll, changes_setAll]

theorem coveredAt_iff : CoveredAt C img resolve m s ↔
    read64 (applyRebases img m) s = read64 (patch (dyldPatches C img resolve) m) s := by
  rw [read64_applyRebases h m hs, read64_dyldPatches h m hs, CoveredAt]
  cases lastWrite (dyldBinds C img resolve) s with
  | none => rw [Option.getD_none, UInt64.add_right_inj, eq_comm]
  | some v => exact eq_comm

/-- A slot that dyld leaves alone is covered exactly if `dlopen` keeps its bytes. -/
theorem coveredAt_iff_of_notMem (hd : s ∉ dyldSlots C img resolve) :
    CoveredAt C img resolve m s ↔ SameOn ⟨s, 8⟩ (applyRebases img m) m := by
  have hkeep : read64 (patch (dyldPatches C img resolve) m) s = read64 m s := by
    rw [read64_patch (h.clear_dyld hs), changes_of_notMem]
    rintro p hp rfl
    exact hd (slot_mem_dyldSlots hp)
  rw [coveredAt_iff h m hs, sameOn_iff_read64, hkeep]

/-- A slot that dyld does not write does not overlap one that it does. -/
theorem WellFormed.disjoint_dyldSlots (hd : s ∉ dyldSlots C img resolve) :
    ∀ t ∈ dyldSlots C img resolve, Range.Disjoint ⟨s, 8⟩ ⟨t, 8⟩ := by
  intro t ht
  rcases h.apart s hs t (dyldSlots_subset ht) with rfl | hsep
  · exact absurd ht hd
  · exact Range.disjoint_iff.mpr (.inr (.inr hsep))

end

theorem asDyld_iff (h : WellFormed img) (C : SharedCache) (resolve : CStr → Int → UInt64) (m : Mem) :
    AsDyld C img resolve m (applyRebases img m) (patch (dyldPatches C img resolve) m) ↔ Covered C img resolve m := by
  constructor
  · intro has s hs
    by_cases hd : s ∈ dyldSlots C img resolve
    · exact (coveredAt_iff h m (dyldSlots_subset hd)).mpr (has.slots s hd)
    · have hall : s ∈ fixupSlots img := h.dlopenRebases_subset ((List.mem_append.mp hs).resolve_right hd)
      obtain ⟨seg, hseg, hin⟩ := h.inside hall
      refine (coveredAt_iff_of_notMem h m hall hd).mpr fun x hx => ?_
      exact has.others seg hseg x (hin x hx) fun t ht => h.disjoint_dyldSlots hall hd t ht x hx
  · intro hcov
    refine ⟨fun s hs => ?_, fun seg _ x _ hx => ?_⟩
    · exact (coveredAt_iff h m (dyldSlots_subset hs)).mp (hcov s (List.mem_append_right _ hs))
    · by_cases hl : ∃ s ∈ dlopenRebases img, x ∈ (⟨s, 8⟩ : Range)
      · obtain ⟨s, hs, hxs⟩ := hl
        have hd : s ∉ dyldSlots C img resolve := fun hd => hx s hd hxs
        exact (coveredAt_iff_of_notMem h m (h.dlopenRebases_subset hs) hd).mp (hcov s (List.mem_append_left _ hs)) x hxs
      · rw [applyRebases_eq]
        refine patch_outside fun p hp hxp => hl ?_
        obtain ⟨s, hs, rfl⟩ := List.mem_map.mp hp
        exact ⟨s, hs, hxp⟩

end Bundle

/-- A well-formed bundle without chained fixups is fixed up as dyld would exactly if at every
    slot `dlopen`'s rebases come to what dyld's rebases and binds come to. -/
theorem bundle_fixups_iff (W : World) (chained : LinkeditData → Mem → Option Mem) (contents : List UInt8) (path : CStr)
    (commands : List LoadCommand) (base : UInt64) (resolve : CStr → Int → UInt64) (st : Proc)
    (h : WellFormed (bundleImage path commands base)) :
    ∃ m st', bundleFixups chained (bundleImage path commands base) (fileMem contents commands base st.mem) = some m ∧
      dyldFixups W (bundleImage path commands base) resolve { st with mem := fileMem contents commands base st.mem } = some st' ∧
      (AsDyld W.cache (bundleImage path commands base) resolve (fileMem contents commands base st.mem) m st'.mem ↔
        Covered W.cache (bundleImage path commands base) resolve (fileMem contents commands base st.mem)) := by
  refine ⟨_, _, ?_, dyldFixups_eq W h resolve _, asDyld_iff h W.cache resolve _⟩
  rw [bundleFixups, h.noChained]
  rfl

/-! ## A bundle with one import -/

/-- One bind of `_a` at the start of `__DATA`. -/
def importerBinds : Stream := { bytes := [0x11, 0x40, 0x5F, 0x61, 0x00, 0x71, 0x00, 0x90, 0x00], size := 9 }

def importer : List LoadCommand :=
  [.segment ⟨segText, 0, 0x1000, 0, 296, 5, []⟩, .segment ⟨cstr "__DATA", 0x1000, 0x1000, 296, 8, 3, []⟩,
    .segment ⟨segLinkedit, 0x2000, 0x1000, 304, 9, 1, []⟩,
    .dyldInfo ⟨.empty, importerBinds, .empty, 0, []⟩]

/-- The bytes of the header and of the slot do not matter here. -/
def importerFile : List UInt8 := List.replicate 304 0 ++ importerBinds.bytes

def importerImage : LoadedImage := bundleImage (cstr "/b") importer 0x200000

def importerMem : Mem := fileMem importerFile importer 0x200000 fun _ => 0

/-- Nothing but the bundle is there. -/
def importerWorld : World := ⟨.absent, fun _ => none, fun _ => 0, 0, 0⟩

theorem importer_wellFormed : WellFormed importerImage where
  noChained := by decide
  text := by decide
  mapped := by decide
  operands := by decide
  placed := by
    have hall : (fixupLocs importerImage).all (fun l => decide (Placed importerImage l)) = true := by decide
    exact fun l hl => of_decide_eq_true (List.all_eq_true.mp hall l hl)
  apart := by decide

theorem bundle_fixups_iff_importer :
    WellFormed importerImage ∧
    ∃ m st', bundleFixups (fun _ _ => none) importerImage importerMem = some m ∧
      dyldFixups importerWorld importerImage (fun _ _ => 0x7000) { Proc.ofImages [] with mem := importerMem } = some st' ∧
      (AsDyld .absent importerImage (fun _ _ => 0x7000) importerMem m st'.mem ↔
        Covered .absent importerImage (fun _ _ => 0x7000) importerMem) :=
  ⟨importer_wellFormed, bundle_fixups_iff importerWorld (fun _ _ => none) importerFile (cstr "/b") importer 0x200000 (fun _ _ => 0x7000)
    (Proc.ofImages []) importer_wellFormed⟩

theorem importerMem_slot : read64 importerMem 0x201000 = 0 := by decide

/-- `dlopen` of the bundle succeeds. dyld stores the address of `_a` in the slot; `dlopen` leaves
    what the file has there. -/
theorem an_import_is_not_bound :
    (Dlopen.dlopen 1 (some (cstr "/b")) 0 ⟨.ok ⟨mhMagic64, Dlopen.mhBundle, importer⟩, some 0x200000, none⟩ ⟨[], [], none, []⟩).2 =
      some 0x200000 ∧
    ∃ m st', bundleFixups (fun _ _ => none) importerImage importerMem = some m ∧
      dyldFixups importerWorld importerImage (fun _ _ => 0x7000) { Proc.ofImages [] with mem := importerMem } = some st' ∧
      read64 m 0x201000 = 0 ∧ read64 st'.mem 0x201000 = 0x7000 ∧
      ¬ AsDyld .absent importerImage (fun _ _ => 0x7000) importerMem m st'.mem := by
  have hbinds : dyldBinds .absent importerImage (fun _ _ => 0x7000) = [(0x201000, 0x7000)] := by decide
  have hslots : dyldSlots .absent importerImage (fun _ _ => 0x7000) = [0x201000] := by decide
  have hnone : dlopenRebases importerImage = [] := by decide
  have hslot : 0x201000 ∈ fixupSlots importerImage := by decide
  have hdlopen : read64 (applyRebases importerImage importerMem) 0x201000 = 0 := by
    rw [applyRebases_eq, hnone, addAll, List.map_nil, patch_nil, importerMem_slot]
  have hdyld : read64 (patch (dyldPatches .absent importerImage fun _ _ => 0x7000) importerMem) 0x201000 = 0x7000 := by
    rw [read64_dyldPatches importer_wellFormed _ hslot, hbinds]
    rfl
  refine ⟨by decide, _, _, rfl, dyldFixups_eq importerWorld importer_wellFormed _ _, hdlopen, hdyld, fun has => ?_⟩
  have hsame := has.slots 0x201000 (by rw [hslots]; exact List.mem_cons_self)
  rw [hdlopen] at hsame
  exact absurd (hsame.trans hdyld) (by decide)

end Panthera.Libsystem.Rebases
