/-
  Panthera.Dyld.TrieReads — does a trie search read outside the tries?

  The search of `ExportTrie` again, with the pointers of the source: the trie is its bytes,
  a pointer into it an offset, and a byte is only there up to the trie's end. A name is what
  its pointer shows: the bytes from it to the end of the object that it points into, which
  for the import name of a re-export is the trie that holds it. A read where there is no
  byte faults (`none`); the checks against `end` stand where the source has them.

  Main result: `trie_search_reads_inside`.
-/

import Panthera.Lib.Fault
import Panthera.Dyld.TrieLookup

namespace Panthera.Dyld.Reads

open MachO Lib.Fault

/-! ## The search with pointers -/

/-- `throw ()` is every way to return 0 or false. -/
abbrev Read := ExceptT Unit Option

def byteAt (bytes : List UInt8) (p : Nat) : Read UInt8 := liftM bytes[p]?

/-- The loop of `readULEB128Bounded`, `left` bytes before `end`. -/
def ulebLoop (trie : List UInt8) : Nat → UInt64 → Nat → Nat → Read (UInt64 × Nat)
  | 0, _, _, _ => throw ()
  | left + 1, result, shift, p => do
    let b ← byteAt trie p
    let result := result ||| ((b &&& 0x7F).toUInt64 <<< UInt64.ofNat shift)
    if b &&& 0x80 = 0 then pure (result, p + 1)
    else if 64 ≤ shift + 7 then throw ()
    else ulebLoop trie left result (shift + 7) (p + 1)

def readULEB128Bounded (trie : List UInt8) (stop p : Nat) : Read (UInt64 × Nat) := ulebLoop trie (stop - p) 0 0 p

/-- Over a label to its NUL, `left` bytes before the trie's end. -/
def readEdge (trie : List UInt8) : Nat → Int → Nat → Read (Nat × Int)
  | 0, _, _ => throw ()
  | left + 1, budget, p => do
    let b ← byteAt trie p
    if b = 0 then pure (p, budget)
    else if budget - 1 ≤ 0 then throw ()
    else readEdge trie left (budget - 1) (p + 1)

/-- `_strncmp(a, b, n) == 0`; where the bytes differ, both are read once more. -/
def strncmp : Nat → List UInt8 → List UInt8 → Read Bool
  | 0, _, _ => pure true
  | n + 1, a, b => do
    let x ← byteAt a 0
    let y ← byteAt b 0
    if x ≠ 0 ∧ x = y then strncmp n a.tail b.tail else pure (x == y)

def findChild (trie remaining : List UInt8) : Nat → Nat → Int → Read (UInt64 × List UInt8 × Int)
  | 0, _, _ => throw ()
  | n + 1, edge, budget =>
    if trie.length ≤ edge ∨ budget - 1 ≤ 0 then throw ()
    else do
      let (p, budget) ← readEdge trie (trie.length - edge) (budget - 1) edge
      let (childOffset, q) ← readULEB128Bounded trie trie.length (p + 1)
      let same ← strncmp (p - edge) remaining (trie.drop edge)
      if same then pure (childOffset, remaining.drop (p - edge), budget) else findChild trie remaining n q budget

/-- The terminal at `p`, which ends at `stop`. -/
def trieTerminal (trie : List UInt8) (stop p : Nat) (originalName : List UInt8) : Read TrieStep := do
  let (flags, p) ← readULEB128Bounded trie stop p
  let (v, p) ← readULEB128Bounded trie stop p
  if flags &&& 0x08 ≠ 0 then
    if p < stop then do
      let b ← byteAt trie p
      pure (.forward (Fixups.toInt v) (if b ≠ 0 then trie.drop p else originalName))
    else pure (.forward (Fixups.toInt v) originalName)
  else pure (.found v (flags &&& 0x04 != 0))

def trieStep (trie : List UInt8) (nodeOffset : UInt64) (originalName remaining : List UInt8) (budget : Int) : Read TrieStep :=
  if trie.length ≤ nodeOffset.toNat then throw ()
  else do
    let (terminalSize, p) ← readULEB128Bounded trie trie.length nodeOffset.toNat
    if trie.length - p < terminalSize.toNat then throw ()
    else do
      let c ← byteAt remaining 0
      if c = 0 ∧ 0 < terminalSize then trieTerminal trie (p + terminalSize.toNat) p originalName
      else if trie.length ≤ p + terminalSize.toNat then throw ()
      else do
        let childCount ← byteAt trie (p + terminalSize.toNat)
        let (off, rest, budget) ← findChild trie remaining childCount.toNat (p + terminalSize.toNat + 1) budget
        pure (.down off rest budget)

/-- As in `ExportTrie`; `none` if the search reads outside a trie. -/
def findExportTrieSymbolAtNode (W : World) :
    Nat → Nat → List UInt8 → UInt64 → List UInt8 → List UInt8 → Int → Proc → Option (Sym × Proc)
  | 0, _, _, _, _, _, _, st => some (⟨0, false⟩, st)
  | levels + 1, i, trie, nodeOffset, originalName, remaining, budget, st =>
    if budget - 1 ≤ 0 then some (⟨0, false⟩, st)
    else
      match (trieStep trie nodeOffset originalName remaining (budget - 1)).run with
      | none => none
      | some (.error _) | some (.ok .fail) => some (⟨0, false⟩, st)
      | some (.ok (.found address isWeak)) => some (⟨(st.images[i]?.map (·.header)).getD 0 + address, isWeak⟩, st)
      | some (.ok (.down off rest budget)) => findExportTrieSymbolAtNode W levels i trie off originalName rest budget st
      | some (.ok (.forward ordinal importName)) =>
        match findOrdinalImage W i ordinal st with
        | (none, st) => some (⟨0, false⟩, st)
        | (some dep, st) =>
          match st.images[dep]?.bind (exportTrieForImage W.cache) with
          | none => some (⟨0, false⟩, st)
          | some depTrie => findExportTrieSymbolAtNode W levels dep depTrie 0 importName importName (budget - 1) st

/-- The caller's name is terminated. -/
def findExportTrieSymbolInImage (W : World) (i : Nat) (name : CStr) (st : Proc) : Option (Sym × Proc) :=
  match st.images[i]?.bind (exportTrieForImage W.cache) with
  | none => some (⟨0, false⟩, st)
  | some trie => findExportTrieSymbolAtNode W trieLevels i trie 0 (name ++ [0]) (name ++ [0]) (trieBudget trie.length) st

/-! ## Import names -/

/-- What the import name of the re-export at a node shows: the trie from its first byte on. -/
def importName (trie : List UInt8) (nodeOffset : UInt64) : Option (List UInt8) := do
  let (terminalSize, p) ← Dyld.readULEB128Bounded (trie.drop nodeOffset.toNat)
  let (flags, q) ← Dyld.readULEB128Bounded (p.take terminalSize.toNat)
  let (_, q) ← Dyld.readULEB128Bounded q
  if flags &&& 0x08 ≠ 0 ∧ q.head?.any (· ≠ 0) then some (q ++ p.drop terminalSize.toNat) else none

/-- The import names of the re-exports that a search comes to. -/
def importNames (W : World) : Nat → Nat → List UInt8 → UInt64 → CStr → CStr → Int → Proc → List (List UInt8)
  | 0, _, _, _, _, _, _, _ => []
  | levels + 1, i, trie, nodeOffset, originalName, remaining, budget, st =>
    if budget - 1 ≤ 0 then []
    else
      match Dyld.trieStep trie nodeOffset originalName remaining (budget - 1) with
      | .fail | .found .. => []
      | .down off rest budget => importNames W levels i trie off originalName rest budget st
      | .forward ordinal name =>
        (importName trie nodeOffset).toList ++
          match findOrdinalImage W i ordinal st with
          | (none, _) => []
          | (some dep, st) =>
            match st.images[dep]?.bind (exportTrieForImage W.cache) with
            | none => []
            | some depTrie => importNames W levels dep depTrie 0 name name (budget - 1) st

/-- Those that the search for `name` in image `i` comes to end inside their tries. -/
def NamesEnd (W : World) (i : Nat) (name : CStr) (st : Proc) : Prop :=
  ∀ trie ∈ st.images[i]?.bind (exportTrieForImage W.cache),
    ∀ importName ∈ importNames W trieLevels i trie 0 name name (trieBudget trie.length) st, 0 ∈ importName

instance (W : World) (i : Nat) (name : CStr) (st : Proc) : Decidable (NamesEnd W i name st) :=
  inferInstanceAs (Decidable (∀ trie ∈ (_ : Option _), _))

/-! ## The readers stay inside -/

variable {stop : Nat} {off : UInt64}

section Readers

variable {trie : List UInt8}

/-- The bytes between two offsets. -/
def span (trie : List UInt8) (p stop : Nat) : List UInt8 := (trie.drop p).take (stop - p)

theorem span_self (p : Nat) : span trie p p = [] := by rw [span, Nat.sub_self, List.take_zero]

theorem span_length {p : Nat} (h : stop ≤ trie.length) : (span trie p stop).length = stop - p := by
  rw [span, List.length_take, List.length_drop]
  omega

theorem span_to_end (p : Nat) : span trie p trie.length = trie.drop p := by
  rw [span]
  exact List.take_of_length_le (by simp)

theorem span_cons {p stop : Nat} (hp : p < stop) (h : stop ≤ trie.length) :
    ∃ b, trie[p]? = some b ∧ span trie p stop = b :: span trie (p + 1) stop := by
  have hlt : p < trie.length := by omega
  refine ⟨trie[p], List.getElem?_eq_getElem hlt, ?_⟩
  rw [span, span, List.drop_eq_getElem_cons hlt, show stop - p = stop - (p + 1) + 1 by omega, List.take_succ_cons]

theorem span_append_drop {p : Nat} (h : p ≤ stop) : span trie p stop ++ trie.drop stop = trie.drop p := by
  conv_rhs => rw [← List.take_append_drop (stop - p) (trie.drop p), List.drop_drop, Nat.add_sub_cancel' h]
  rfl

/-- A pointer and what a list-level reader leaves: the offset lies before `stop`, and the
    bytes left are those from it on. -/
structure At (trie : List UInt8) (p stop q : Nat) (rest : List UInt8) : Prop where
  after : p ≤ q
  before : q ≤ stop
  rest_eq : rest = span trie q stop

theorem ulebLoop_refines (hstop : stop ≤ trie.length) : ∀ (left p : Nat) (result : UInt64) (shift : Nat), p + left = stop →
    Refines (ulebLoop trie left result shift p) (ulebBoundedFrom result shift (span trie p stop))
      fun a b => a.1 = b.1 ∧ At trie p stop a.2 b.2 := by
  intro left
  induction left with
  | zero =>
    rintro p result shift rfl
    rw [Nat.add_zero, span_self, ulebBoundedFrom, ulebLoop]
    exact .throw
  | succ left ih =>
    intro p result shift hp
    obtain ⟨b, hb, hspan⟩ := span_cons (p := p) (by omega) hstop
    rw [hspan, ulebBoundedFrom, ulebLoop]
    refine .access hb (.ite (fun _ => .pure ⟨rfl, by omega, by omega, rfl⟩) fun _ => .ite (fun _ => .throw) fun _ => ?_)
    obtain ⟨e, hx, ho⟩ | ⟨a, c, hx, ho, h1, h2⟩ := ih (p + 1) (result ||| ((b &&& 0x7F).toUInt64 <<< UInt64.ofNat shift)) (shift + 7) (by omega)
    · exact .inl ⟨e, hx, ho⟩
    · exact .inr ⟨a, c, hx, ho, h1, by have := h2.after; omega, h2.before, h2.rest_eq⟩

theorem readULEB128Bounded_refines {p stop : Nat} (hp : p ≤ stop) (hstop : stop ≤ trie.length) :
    Refines (readULEB128Bounded trie stop p) (Dyld.readULEB128Bounded (span trie p stop)) fun a b => a.1 = b.1 ∧ At trie p stop a.2 b.2 :=
  ulebLoop_refines hstop (stop - p) p 0 0 (by omega)

theorem readEdge_refines : ∀ (left p : Nat) (budget : Int), p + left = trie.length →
    Refines (readEdge trie left budget p) (Dyld.readEdge budget (trie.drop p)) fun a b =>
      p ≤ a.1 ∧ a.1 < trie.length ∧ b = (span trie p a.1, trie.drop (a.1 + 1), a.2) ∧ 0 ∉ b.1 := by
  intro left
  induction left with
  | zero =>
    intro p budget hp
    rw [List.drop_of_length_le (by omega), Dyld.readEdge, readEdge]
    exact .throw
  | succ left ih =>
    intro p budget hp
    obtain ⟨b, hb, hspan⟩ := @span_cons trie p _ (by omega) le_rfl
    rw [span_to_end, span_to_end] at hspan
    rw [hspan, Dyld.readEdge, readEdge]
    refine .access hb (.ite (fun _ => .pure ⟨le_rfl, by omega, by rw [span_self], by simp⟩) fun hne =>
      .ite (fun _ => .throw) fun _ => ?_)
    obtain ⟨e, hx, ho⟩ | ⟨⟨q, budget'⟩, c, hx, ho, h1, h2, h3, h4⟩ := ih (p + 1) (budget - 1) (by omega)
    · exact .inl ⟨e, hx, by rw [ho]; rfl⟩
    · refine .inr ⟨(q, budget'), (b :: c.1, c.2), hx, by rw [ho]; rfl, by simp only at h1 ⊢; omega, h2, ?_, ?_⟩
      · obtain ⟨b', hb', hcons⟩ := @span_cons trie p q (by simp only at h1; omega) (by simp only at h2; omega)
        rw [hb, Option.some.injEq] at hb'
        rw [h3, hcons, hb']
      · rw [List.mem_cons, not_or]
        exact ⟨Ne.symm hne, h4⟩

end Readers

/-! ## Names -/

theorem cstrAt_cons {x : UInt8} (hx : x ≠ 0) (a : List UInt8) : cstrAt (x :: a) 0 = x :: cstrAt a 0 := by
  simp [cstrAt, hx]

theorem cstrAt_nul (a : List UInt8) : cstrAt (0 :: a) 0 = [] := by simp [cstrAt]

/-- A label along which the name goes on leaves the name's NUL where it is. -/
theorem name_drop {label a : List UInt8} (h0 : 0 ∈ a) (hpre : label.isPrefixOf (cstrAt a 0) = true) :
    0 ∈ a.drop label.length ∧ cstrAt (a.drop label.length) 0 = (cstrAt a 0).drop label.length := by
  induction label generalizing a with
  | nil => exact ⟨h0, rfl⟩
  | cons c label ih =>
    cases a with
    | nil => cases h0
    | cons x a =>
      by_cases hx : x = 0
      · subst hx
        rw [cstrAt_nul] at hpre
        cases hpre
      · rw [cstrAt_cons hx] at hpre ⊢
        rw [List.isPrefixOf_cons_cons, Bool.and_eq_true] at hpre
        exact ih ((List.mem_cons.mp h0).resolve_left (Ne.symm hx)) hpre.2

/-- The comparison reads the name at most up to its NUL. -/
theorem strncmp_run {label : List UInt8} (hlabel : 0 ∉ label) (more : List UInt8) {a : List UInt8} (h0 : 0 ∈ a) :
    (strncmp label.length a (label ++ more)).run = some (.ok (label.isPrefixOf (cstrAt a 0))) := by
  induction label generalizing a with
  | nil => rfl
  | cons c label ih =>
    rw [List.mem_cons, not_or] at hlabel
    cases a with
    | nil => cases h0
    | cons x a =>
      rw [List.length_cons, strncmp]
      change ExceptT.run (if x ≠ 0 ∧ x = c then strncmp label.length a (label ++ more) else pure (x == c)) = _
      by_cases hx : x = 0
      · subst hx
        rw [if_neg (by simp), cstrAt_nul]
        have hc : ((0 : UInt8) == c) = false := by simpa using hlabel.1
        rw [hc]
        rfl
      · rw [cstrAt_cons hx, List.isPrefixOf_cons_cons]
        by_cases hc : x = c
        · subst hc
          rw [if_pos ⟨hx, rfl⟩, ih hlabel.2 ((List.mem_cons.mp h0).resolve_left (Ne.symm hx)), beq_self_eq_true, Bool.true_and]
        · have hne : (x == c) = false := by simpa using hc
          have hne' : (c == x) = false := by simpa using Ne.symm hc
          rw [if_neg fun h => hc h.2, hne, hne', Bool.false_and]
          rfl

/-! ## A node -/

section Node

variable {trie : List UInt8}

theorem findChild_succ (remaining : CStr) (n : Nat) (p : List UInt8) (budget : Int) (hp : ¬ (p = [] ∨ budget - 1 ≤ 0)) :
    Dyld.findChild remaining (n + 1) p budget = (Dyld.readEdge (budget - 1) p).bind fun r => (Dyld.readULEB128Bounded r.2.1).bind fun s =>
      if r.1.isPrefixOf remaining then some (s.1, remaining.drop r.1.length, r.2.2)
      else Dyld.findChild remaining n s.2 r.2.2 := by
  rw [Dyld.findChild, if_neg hp]
  rcases Dyld.readEdge (budget - 1) p with _ | ⟨edge, p, budget⟩
  · rfl
  · rcases hr : Dyld.readULEB128Bounded p with _ | ⟨child, q⟩
    · simp [hr]
    · simp [hr]

variable {remaining originalName : List UInt8}

theorem findChild_refines (h0 : 0 ∈ remaining) : ∀ (n p : Nat) (budget : Int), p ≤ trie.length →
    Refines (findChild trie remaining n p budget) (Dyld.findChild (cstrAt remaining 0) n (trie.drop p) budget) fun a b =>
      a.1 = b.1 ∧ 0 ∈ a.2.1 ∧ cstrAt a.2.1 0 = b.2.1 ∧ a.2.2 = b.2.2 := by
  intro n
  induction n with
  | zero => intro p budget hp; exact .throw
  | succ n ih =>
    intro edge budget hp
    have hend : trie.drop edge = [] ↔ trie.length ≤ edge := List.drop_eq_nil_iff
    rw [findChild]
    by_cases hgo : trie.length ≤ edge ∨ budget - 1 ≤ 0
    · rw [if_pos hgo, Dyld.findChild, if_pos (hgo.imp_left hend.mpr)]
      exact .throw
    rw [if_neg hgo, findChild_succ _ _ _ _ fun h => hgo (h.imp_left hend.mp)]
    rw [not_or] at hgo
    refine (readEdge_refines (trie.length - edge) edge (budget - 1) (by omega)).bind ?_
    rintro ⟨p, budget1⟩ r - ⟨hle, hlt, rfl, hlabel⟩
    have hread := @readULEB128Bounded_refines trie (p + 1) _ hlt le_rfl
    rw [span_to_end] at hread
    refine hread.bind ?_
    rintro ⟨childOffset, q⟩ ⟨childOffset', rest⟩ - ⟨rfl, hat⟩
    have hrest : rest = trie.drop q := hat.rest_eq.trans (span_to_end q)
    have hlen : (span trie edge p).length = p - edge := span_length hlt.le
    have hcmp := strncmp_run hlabel (trie.drop p) h0
    rw [span_append_drop hle, hlen] at hcmp
    dsimp only
    rw [Refines, run_bind_ok hcmp, hlen, hrest]
    refine Refines.ite (fun hpre => .pure ?_) fun _ => ih q budget1 hat.before
    have hdrop := name_drop h0 hpre
    rw [hlen] at hdrop
    exact ⟨rfl, hdrop.1, hdrop.2, rfl⟩

/-- What the two searches make of a node is the same, but for names, which the one shows up
    to their NUL. -/
inductive SameStep : TrieStep → TrieStep → Prop where
  | found (address : UInt64) (isWeak : Bool) : SameStep (.found address isWeak) (.found address isWeak)
  | forward (ordinal : Int) {name : List UInt8} (h0 : 0 ∈ name) : SameStep (.forward ordinal name) (.forward ordinal (cstrAt name 0))
  | down (off : UInt64) {rest : List UInt8} (h0 : 0 ∈ rest) (budget : Int) :
      SameStep (.down off rest budget) (.down off (cstrAt rest 0) budget)

/-- A step that does not fail. -/
def TrieStep.go? : TrieStep → Option TrieStep
  | .fail => none
  | step => some step

theorem trieTerminal_bind (terminal after : List UInt8) (originalName : CStr) :
    TrieStep.go? (Dyld.trieTerminal terminal after originalName) = (Dyld.readULEB128Bounded terminal).bind fun r =>
      (Dyld.readULEB128Bounded r.2).bind fun s =>
        some (if r.1 &&& 0x08 ≠ 0 then
          .forward (Fixups.toInt s.1) (if s.2.head?.any (· ≠ 0) then cstrAt (s.2 ++ after) 0 else originalName)
        else .found s.1 (r.1 &&& 0x04 != 0)) := by
  rw [Dyld.trieTerminal]
  rcases Dyld.readULEB128Bounded terminal with _ | ⟨flags, p⟩
  · rfl
  · rcases hr : Dyld.readULEB128Bounded p with _ | ⟨v, q⟩
    · simp [hr, TrieStep.go?]
    · by_cases hflag : flags &&& 0x08 = 0
      · simp [hr, hflag, TrieStep.go?]
      · simp [hr, hflag, TrieStep.go?]

theorem trieTerminal_refines {p : Nat} (hp : p ≤ stop) (hstop : stop ≤ trie.length) (h0 : 0 ∈ originalName)
    (hname : ∀ flags q v q', Dyld.readULEB128Bounded (span trie p stop) = some (flags, q) → Dyld.readULEB128Bounded q = some (v, q') →
      flags &&& 0x08 ≠ 0 → q'.head?.any (· ≠ 0) = true → 0 ∈ q' ++ trie.drop stop) :
    Refines (trieTerminal trie stop p originalName)
      (TrieStep.go? (Dyld.trieTerminal (span trie p stop) (trie.drop stop) (cstrAt originalName 0))) SameStep := by
  rw [trieTerminal, trieTerminal_bind]
  refine (readULEB128Bounded_refines hp hstop).bind ?_
  rintro ⟨flags, q⟩ ⟨flags', rest⟩ hflags ⟨rfl, hat⟩
  obtain rfl : rest = span trie q stop := hat.rest_eq
  refine (readULEB128Bounded_refines hat.before hstop).bind ?_
  rintro ⟨v, q'⟩ ⟨v', rest'⟩ hv ⟨rfl, hat'⟩
  dsimp only
  have hrest : rest' = span trie q' stop := hat'.rest_eq
  by_cases hflag : flags &&& 0x08 ≠ 0
  · rw [if_pos hflag, if_pos hflag]
    by_cases hq : q' < stop
    · obtain ⟨b, hb, hspan⟩ := span_cons hq hstop
      have hhead : rest'.head? = some b := by rw [hrest, hspan]; rfl
      rw [if_pos hq]
      refine .access hb (.pure ?_)
      rw [hhead, Option.any_some]
      by_cases hzero : b = 0
      · subst hzero
        exact .forward _ h0
      · -- the name is what the trie holds from here on
        have hend := hname flags _ v rest' hflags hv hflag (by rw [hhead]; simpa using hzero)
        have hwhole : rest' ++ trie.drop stop = trie.drop q' := by rw [hrest, span_append_drop hat'.before]
        rw [hwhole] at hend ⊢
        simp only [ne_eq, hzero, not_false_eq_true, if_true, decide_true]
        exact .forward _ hend
    · have hnil : rest' = [] := by
        rw [hrest, show q' = stop from Nat.le_antisymm hat'.before (by omega), span_self]
      rw [if_neg hq, hnil]
      exact .pure (.forward _ h0)
  · rw [if_neg hflag, if_neg hflag]
    exact .pure (.found _ _)

theorem trieStep_bind (hin : ¬ trie.length ≤ off.toNat) (originalName remaining : CStr) (budget : Int) :
    TrieStep.go? (Dyld.trieStep trie off originalName remaining budget) =
      (Dyld.readULEB128Bounded (trie.drop off.toNat)).bind fun r =>
        if r.2.length < r.1.toNat then none
        else if remaining = [] ∧ 0 < r.1 then TrieStep.go? (Dyld.trieTerminal (r.2.take r.1.toNat) (r.2.drop r.1.toNat) originalName)
        else (r.2.drop r.1.toNat).head?.bind fun count =>
          (Dyld.findChild remaining count.toNat (r.2.drop r.1.toNat).tail budget).bind fun c => some (.down c.1 c.2.1 c.2.2) := by
  rw [Dyld.trieStep, if_neg hin]
  rcases Dyld.readULEB128Bounded (trie.drop off.toNat) with _ | ⟨size, p⟩
  · rfl
  dsimp only [Option.bind_some]
  split
  · rfl
  split
  · rfl
  rcases p.drop size.toNat with _ | ⟨count, q⟩
  · rfl
  dsimp only [List.head?_cons, Option.bind_some, List.tail_cons]
  rcases Dyld.findChild remaining count.toNat q budget with _ | ⟨child, rest, budget'⟩
  · rfl
  · rfl

/-- The step at a node whose import name, if it comes to one, ends inside the trie. -/
theorem trieStep_refines {budget : Int} (h0 : 0 ∈ originalName) (h0' : 0 ∈ remaining)
    (hends : ∀ ordinal name, Dyld.trieStep trie off (cstrAt originalName 0) (cstrAt remaining 0) budget = .forward ordinal name →
      ∀ name ∈ importName trie off, 0 ∈ name) :
    Refines (trieStep trie off originalName remaining budget)
      (TrieStep.go? (Dyld.trieStep trie off (cstrAt originalName 0) (cstrAt remaining 0) budget)) SameStep := by
  rw [trieStep]
  by_cases hin : trie.length ≤ off.toNat
  · rw [if_pos hin, Dyld.trieStep, if_pos hin]
    exact .throw
  rw [if_neg hin, trieStep_bind hin]
  have hread := @readULEB128Bounded_refines trie off.toNat _ (by omega) le_rfl
  rw [span_to_end] at hread
  refine hread.bind ?_
  rintro ⟨size, p⟩ ⟨size', rest⟩ hsize ⟨rfl, hat⟩
  obtain rfl : rest = trie.drop p := hat.rest_eq.trans (span_to_end p)
  have hp : p ≤ trie.length := hat.before
  dsimp only at hsize ⊢
  rw [List.length_drop]
  refine .ite (fun _ => .throw) fun hfit => ?_
  obtain ⟨c, more, rfl⟩ := List.exists_cons_of_ne_nil (List.ne_nil_of_mem h0')
  have hc : cstrAt (c :: more) 0 = [] ↔ c = 0 := by
    by_cases hzero : c = 0
    · simp [hzero, cstrAt_nul]
    · simp [hzero, cstrAt_cons]
  have hspan : (trie.drop p).take size.toNat = span trie p (p + size.toNat) := by rw [span, Nat.add_sub_cancel_left]
  have hdrop : (trie.drop p).drop size.toNat = trie.drop (p + size.toNat) := List.drop_drop
  refine .access (v := c) rfl ?_
  rw [hspan, hdrop]
  by_cases hterm : c = 0 ∧ 0 < size
  · rw [if_pos hterm, if_pos (hterm.imp_left hc.mpr)]
    refine trieTerminal_refines (by omega) (by omega) h0 fun flags q v q' hflags hv hflag hany => ?_
    have hforward : Dyld.trieStep trie off (cstrAt originalName 0) (cstrAt (c :: more) 0) budget =
        .forward (Fixups.toInt v) (cstrAt (q' ++ trie.drop (p + size.toNat)) 0) := by
      rw [Dyld.trieStep, if_neg hin, hsize]
      dsimp only
      rw [List.length_drop, if_neg hfit, if_pos (hterm.imp_left hc.mpr), hspan, hdrop, Dyld.trieTerminal]
      simp only [hflags, hv]
      rw [if_pos hflag, if_pos hany]
    refine hends _ _ hforward _ ?_
    simp only [importName, hsize, Option.bind_eq_bind, Option.bind_some, hspan, hflags, hv, hdrop]
    exact if_pos ⟨hflag, hany⟩
  · have hterm' : ¬ (cstrAt (c :: more) 0 = [] ∧ 0 < size) := fun h => hterm (h.imp_left hc.mp)
    rw [if_neg hterm, if_neg hterm']
    by_cases hend : trie.length ≤ p + size.toNat
    · rw [if_pos hend, List.drop_of_length_le hend]
      exact .throw
    · have hlt : p + size.toNat < trie.length := by omega
      rw [if_neg hend, List.drop_eq_getElem_cons hlt, List.head?_cons, List.tail_cons]
      refine .access (List.getElem?_eq_getElem hlt) ?_
      refine (findChild_refines h0' _ _ _ (by omega)).bind ?_
      rintro ⟨child, rest, budget1⟩ ⟨child', rest', budget1'⟩ - ⟨rfl, hrest0, hrest, rfl⟩
      dsimp only at hrest hrest0 ⊢
      rw [← hrest]
      exact .pure (.down _ hrest0 _)

end Node

/-! ## The search -/

theorem findExportTrieSymbolAtNode_refines (W : World) (levels : Nat) : ∀ (i : Nat) {trie : List UInt8} {off : UInt64}
    {originalName remaining : List UInt8} (budget : Int) {st : Proc}, 0 ∈ originalName → 0 ∈ remaining →
      (∀ name ∈ importNames W levels i trie off (cstrAt originalName 0) (cstrAt remaining 0) budget st, 0 ∈ name) →
      findExportTrieSymbolAtNode W levels i trie off originalName remaining budget st =
        some (Dyld.findExportTrieSymbolAtNode W levels i trie off (cstrAt originalName 0) (cstrAt remaining 0) budget st) := by
  induction levels with
  | zero => intros; rfl
  | succ levels ih =>
    intro i trie off originalName remaining budget st h0 h0' hends
    rw [findExportTrieSymbolAtNode, Dyld.findExportTrieSymbolAtNode]
    by_cases hb : budget - 1 ≤ 0
    · rw [if_pos hb, if_pos hb]
    rw [importNames, if_neg hb] at hends
    rw [if_neg hb, if_neg hb]
    have hstep := trieStep_refines h0 h0' fun ordinal name hforward importName hmem => by
      rw [hforward] at hends
      exact hends importName (List.mem_append_left _ (Option.mem_toList.mpr hmem))
    cases hs : Dyld.trieStep trie off (cstrAt originalName 0) (cstrAt remaining 0) (budget - 1) with
    | fail =>
      rw [hs] at hstep
      obtain ⟨e, hx, -⟩ | ⟨a, b, -, hnone, -⟩ := hstep
      · rw [hx]
      · cases hnone
    | found address isWeak =>
      rw [hs] at hstep
      obtain ⟨e, -, hnone⟩ | ⟨a, b, hx, hsome, hsame⟩ := hstep
      · cases hnone
      · cases hsome
        cases hsame
        rw [hx]
    | down child rest budget' =>
      rw [hs] at hstep
      obtain ⟨e, -, hnone⟩ | ⟨a, b, hx, hsome, hsame⟩ := hstep
      · cases hnone
      · cases hsome
        cases hsame with
        | down _ hrest0 =>
          rw [hx]
          exact ih i budget' h0 hrest0 (by rwa [hs] at hends)
    | forward ordinal name =>
      rw [hs] at hstep
      obtain ⟨e, -, hnone⟩ | ⟨a, b, hx, hsome, hsame⟩ := hstep
      · cases hnone
      · cases hsome
        cases hsame with
        | forward _ hname0 =>
          rw [hx]
          rw [hs] at hends
          dsimp only at hends ⊢
          rcases hord : findOrdinalImage W i ordinal st with ⟨_ | dep, st1⟩
          · rfl
          · rw [hord] at hends
            dsimp only at hends ⊢
            rcases hdep : st1.images[dep]?.bind (exportTrieForImage W.cache) with _ | depTrie
            · rfl
            · rw [hdep] at hends
              exact ih dep _ hname0 hname0 fun name hname => hends name (List.mem_append_right _ hname)

/-- `_x` is re-exported as the first dylib's `_y`; the name's NUL and the count of children
    follow it. -/
def forwardingTrie : List UInt8 := [0, 1] ++ cstr "_x" ++ [0, 6] ++ [5, 8, 1] ++ cstr "_y" ++ [0, 0]

/-- `_y` is exported. -/
def exportingTrie : List UInt8 := [0, 1] ++ cstr "_y" ++ [0, 6] ++ [2, 0, 16, 0]

def forwardingPair (trie : List UInt8) : List LoadedImage :=
  [trieImage "/usr/lib/liba.dylib" ["/usr/lib/libb.dylib"] trie, trieImage "/usr/lib/libb.dylib" [] exportingTrie]

end Panthera.Dyld.Reads
