/-
  Panthera.Dyld.TrieLookup — is every export of a well-formed trie found
  (`findExportTrieSymbolAtNode`, `findExportTrieSymbolInImage`)?

  A well-formed trie (`WellFormedTrie`) is given by what its bytes mean: every node that
  can be come to has a terminal or none and children with labels of different first
  bytes. An export is a path of labels from the root to a terminal (`TriePath`), with the
  number of edges and what the search is charged for it: a step for every node, for every
  child that it looks at and for every byte of their labels.

  When the search answers rightly is `trie_lookup_iff`.
-/

import Panthera.Dyld.Resolve

namespace Panthera.Dyld

open MachO

/-! ## Numbers -/

/-- ULEB128: seven bits a byte, the lowest first; the high bit says that more follow. -/
inductive Uleb : List UInt8 → Nat → Prop where
  | last {b : UInt8} (h : b.toNat < 128) : Uleb [b] b.toNat
  | more {b : UInt8} {bytes : List UInt8} {v : Nat} (h : 128 ≤ b.toNat) (rest : Uleb bytes v) :
      Uleb (b :: bytes) (b.toNat - 128 + 128 * v)

theorem low7 (b : UInt8) : (b &&& 0x7F).toUInt64.toNat = b.toNat % 128 := by
  rw [UInt8.toNat_toUInt64, UInt8.toNat_and]
  exact Nat.and_two_pow_sub_one_eq_mod _ 7

theorem high_clear (b : UInt8) : b &&& 0x80 = 0 ↔ b.toNat < 128 := by
  rw [← UInt8.toNat_inj, UInt8.toNat_and]
  have hall : ∀ n < 256, (n &&& 128 = 0 ↔ n < 128) := by decide +kernel
  exact hall b.toNat b.toNat_lt

theorem toNat_two_pow {s : Nat} (hs : s < 64) : (UInt64.ofNat (2 ^ s)).toNat = 2 ^ s :=
  UInt64.toNat_ofNat_of_lt' (Nat.pow_lt_pow_right (by decide) hs)

/-- The bits that are left of `x` stand above those of `r`. -/
theorem or_shiftLeft_eq_add {r : UInt64} {s : Nat} (hs : s < 64) (hr : r.toNat < 2 ^ s) (x : UInt64) :
    r ||| x <<< UInt64.ofNat s = r + x * UInt64.ofNat (2 ^ s) := by
  have hsplit : 2 ^ 64 = 2 ^ s * 2 ^ (64 - s) := by rw [← Nat.pow_add]; congr 1; omega
  have hlow : 2 ^ s * x.toNat % 2 ^ 64 = 2 ^ s * (x.toNat % 2 ^ (64 - s)) := by rw [hsplit, Nat.mul_mod_mul_left]
  have hshift : (x <<< UInt64.ofNat s).toNat = 2 ^ s * (x.toNat % 2 ^ (64 - s)) := by
    rw [UInt64.toNat_shiftLeft, UInt64.toNat_ofNat_of_lt' (hs.trans (by decide)), Nat.mod_eq_of_lt hs, Nat.shiftLeft_eq, Nat.mul_comm,
      hlow]
  have hfits : 2 ^ s * (x.toNat % 2 ^ (64 - s)) + r.toNat < 2 ^ 64 := by
    have hx := Nat.mod_lt x.toNat (Nat.two_pow_pos (64 - s))
    have := Nat.mul_le_mul_left (2 ^ s) hx
    rw [Nat.mul_succ, ← hsplit] at this
    omega
  apply UInt64.toNat.inj
  rw [UInt64.toNat_or, hshift, Nat.or_comm, ← Nat.two_pow_add_eq_or_of_lt hr, UInt64.toNat_add, UInt64.toNat_mul, toNat_two_pow hs,
    Nat.mul_comm x.toNat, hlow, Nat.add_comm r.toNat, Nat.mod_eq_of_lt hfits]

/-- One more group of seven bits. -/
theorem toNat_group {r : UInt64} {b : UInt8} {shift : Nat} (hr : r.toNat < 2 ^ shift) (hshift : shift < 64)
    (hfit : r.toNat + b.toNat % 128 * 2 ^ shift < 2 ^ 64) :
    (r ||| ((b &&& 0x7F).toUInt64 <<< UInt64.ofNat shift)).toNat = r.toNat + b.toNat % 128 * 2 ^ shift := by
  rw [or_shiftLeft_eq_add hshift hr, UInt64.toNat_add, UInt64.toNat_mul, low7, toNat_two_pow hshift, Nat.add_mod_mod, Nat.mod_eq_of_lt hfit]

variable {bytes rest' : List UInt8} {label remaining rest : CStr} {child off flags address : UInt64} {before kids : List (CStr × UInt64)}
  {edges cost : Nat}

theorem ulebBoundedFrom_eq {v : Nat} (h : Uleb bytes v) (rest : List UInt8) :
    ∀ {r : UInt64} {shift : Nat}, r.toNat < 2 ^ shift → shift + 7 * bytes.length < 71 → r.toNat + v * 2 ^ shift < 2 ^ 64 →
      ulebBoundedFrom r shift (bytes ++ rest) = some (UInt64.ofNat (r.toNat + v * 2 ^ shift), rest) := by
  induction h with
  | @last b hb =>
    intro r shift hr hlen hfit
    have hmod : b.toNat % 128 = b.toNat := Nat.mod_eq_of_lt hb
    have hgroup := toNat_group (b := b) hr (by simp at hlen; omega) (by rw [hmod]; exact hfit)
    rw [List.singleton_append, ulebBoundedFrom]
    simp only [(high_clear b).mpr hb, if_true]
    rw [hmod] at hgroup
    rw [← hgroup, UInt64.ofNat_toNat]
  | @more b bytes v hb _ ih =>
    intro r shift hr hlen hfit
    have hb' : ¬ b &&& 0x80 = 0 := fun h => absurd ((high_clear b).mp h) (by omega)
    have hbyte := b.toNat_lt
    have hmod : b.toNat % 128 = b.toNat - 128 := by omega
    have hpow : 2 ^ (shift + 7) = 128 * 2 ^ shift := by rw [Nat.pow_add]; ring
    have hsum : r.toNat + (b.toNat - 128 + 128 * v) * 2 ^ shift = r.toNat + (b.toNat - 128) * 2 ^ shift + v * 2 ^ (shift + 7) := by
      rw [hpow]
      ring
    rw [hsum] at hfit ⊢
    simp only [List.length_cons] at hlen
    have hpos : 0 < bytes.length := by
      rename_i hrest
      cases hrest <;> simp
    have hgroup := toNat_group (b := b) hr (by omega) (by rw [hmod]; omega)
    rw [hmod] at hgroup
    rw [List.cons_append, ulebBoundedFrom]
    simp only [hb', if_false]
    have hlow : (b.toNat - 128) * 2 ^ shift ≤ 127 * 2 ^ shift := Nat.mul_le_mul_right _ (by omega)
    rw [if_neg (by omega : ¬ 64 ≤ shift + 7), ih (by rw [hgroup, hpow]; omega) (by omega) (by rw [hgroup]; omega), hgroup]

/-- A number of 64 bits, in the ten bytes at most that it takes. -/
def Number (bytes : List UInt8) (v : UInt64) : Prop := Uleb bytes v.toNat ∧ bytes.length ≤ 10

theorem readULEB128Bounded_number {v : UInt64} (h : Number bytes v) (rest : List UInt8) :
    readULEB128Bounded (bytes ++ rest) = some (v, rest) := by
  have hv := v.toNat_lt
  have := @ulebBoundedFrom_eq _ _ h.1 rest 0 0 (by simp) (by have := h.2; omega) (by simpa using hv)
  simpa [readULEB128Bounded] using this

/-! ## What the bytes of a trie mean -/

/-- The children of a node: each a label, its NUL and the offset of a node. -/
inductive Children : List (CStr × UInt64) → List UInt8 → Prop where
  | nil : Children [] []
  | cons {label : CStr} {child : UInt64} {kids : List (CStr × UInt64)} {number bytes : List UInt8} (hlabel : 0 ∉ label)
      (hnumber : Number number child) (hrest : Children kids bytes) :
      Children ((label, child) :: kids) (label ++ 0 :: (number ++ bytes))

/-- The terminal of an export is its flags and its address; a node that exports nothing has
    none. -/
inductive Terminal : Option (UInt64 × UInt64) → List UInt8 → Prop where
  | none : Terminal none []
  | some {flags address : UInt64} {f a : List UInt8} (hflags : Number f flags) (haddress : Number a address) (more : List UInt8) :
      Terminal (some (flags, address)) (f ++ (a ++ more))

/-- At `off` there is a node with this terminal and these children. -/
structure NodeAt (trie : List UInt8) (off : UInt64) (export? : Option (UInt64 × UInt64)) (kids : List (CStr × UInt64)) : Prop where
  inside : off.toNat < trie.length
  bytes : ∃ size terminal count children rest, trie.drop off.toNat = size ++ (terminal ++ (count :: (children ++ rest))) ∧
    Number size (UInt64.ofNat terminal.length) ∧ terminal.length < 2 ^ 64 ∧ Terminal export? terminal ∧ count.toNat = kids.length ∧
    Children kids children

/-- A node that may stand in a trie without re-exports. -/
structure GoodNode (trie : List UInt8) (off : UInt64) (export? : Option (UInt64 × UInt64)) (kids : List (CStr × UInt64)) : Prop
    extends NodeAt trie off export? kids where
  labels : ∀ kid ∈ kids, kid.1 ≠ []
  distinct : (kids.map fun kid => kid.1.head?).Nodup
  plain : ∀ e ∈ export?, e.1 &&& 0x08 = 0

/-- Nodes that the edges lead to from the root. -/
inductive TrieNode (trie : List UInt8) : UInt64 → Prop where
  | root : TrieNode trie 0
  | child {off child : UInt64} {export? : Option (UInt64 × UInt64)} {kids : List (CStr × UInt64)} {label : CStr}
      (hoff : TrieNode trie off) (hnode : NodeAt trie off export? kids) (hkid : (label, child) ∈ kids) : TrieNode trie child

/-- An edge leads from one node to the other. -/
def TrieEdge (trie : List UInt8) (off child : UInt64) : Prop :=
  ∃ export? kids label, NodeAt trie off export? kids ∧ (label, child) ∈ kids

structure WellFormedTrie (trie : List UInt8) : Prop where
  good : ∀ off, TrieNode trie off → ∃ export? kids, GoodNode trie off export? kids
  acyclic : ∀ off, TrieNode trie off → ¬ Relation.TransGen (TrieEdge trie) off off

/-- What looking at these children costs. -/
def kidsCost (kids : List (CStr × UInt64)) : Nat := (kids.map fun kid => 1 + kid.1.length).sum

/-- From the node at `off` the labels spell the name, over that many edges and at that cost,
    and it is exported with those flags at that address. -/
inductive TriePath (trie : List UInt8) : UInt64 → CStr → Nat → Nat → UInt64 → UInt64 → Prop where
  | here {off flags address : UInt64} {kids : List (CStr × UInt64)} (hnode : NodeAt trie off (some (flags, address)) kids) :
      TriePath trie off [] 0 1 flags address
  | down {off child flags address : UInt64} {export? : Option (UInt64 × UInt64)} {before behind : List (CStr × UInt64)}
      {label rest : CStr} {edges cost : Nat} (hnode : NodeAt trie off export? (before ++ (label, child) :: behind))
      (hrest : TriePath trie child rest edges cost flags address) :
      TriePath trie off (label ++ rest) (edges + 1) (1 + kidsCost before + (1 + label.length) + cost) flags address

/-- The trie exports the name. -/
def Exports (trie : List UInt8) (name : CStr) (flags address : UInt64) : Prop :=
  ∃ edges cost, TriePath trie 0 name edges cost flags address

/-! ## One node -/

theorem readEdge_eq (hlabel : 0 ∉ label) (rest : List UInt8) : ∀ budget : Int, 0 < budget →
    readEdge budget (label ++ 0 :: rest) = if (label.length : Int) < budget then some (label, rest, budget - label.length) else none := by
  induction label with
  | nil =>
    intro budget hb
    simp [readEdge, hb]
  | cons c label ih =>
    intro budget hb
    rw [List.mem_cons, not_or] at hlabel
    rw [List.cons_append, readEdge, if_neg (Ne.symm hlabel.1), List.length_cons]
    by_cases hlast : budget - 1 ≤ 0
    · rw [if_pos hlast, if_neg (by push_cast; omega)]
    · rw [if_neg hlast, ih hlabel.2 _ (by omega)]
      by_cases hfit : (label.length : Int) < budget - 1
      · have hleft : budget - 1 - (label.length : Int) = budget - (label.length + 1 : Nat) := by push_cast; omega
        rw [if_pos hfit, if_pos (by push_cast; omega), Option.map_some, hleft]
      · rw [if_neg hfit, if_neg (by push_cast; omega), Option.map_none]

/-- What the loop over the children makes of one of them. -/
theorem findChild_cons {number : List UInt8} (hlabel : 0 ∉ label)
    (hnumber : Number number child) (n : Nat) (rest : List UInt8) (budget : Int) :
    findChild remaining (n + 1) (label ++ 0 :: (number ++ rest)) budget =
      if budget ≤ 1 + label.length then none
      else if label.isPrefixOf remaining then some (child, remaining.drop label.length, budget - (1 + label.length))
      else findChild remaining n rest (budget - (1 + label.length)) := by
  have hne : label ++ 0 :: (number ++ rest) ≠ [] := by simp
  rw [findChild]
  by_cases hb : budget - 1 ≤ 0
  · rw [if_pos (.inr hb), if_pos (by omega)]
  · rw [if_neg (by rintro (h | h); exacts [hne h, hb h]), readEdge_eq hlabel _ _ (by omega)]
    by_cases hfit : (label.length : Int) < budget - 1
    · rw [if_pos hfit, if_neg (by omega)]
      simp only [readULEB128Bounded_number hnumber]
      rw [show budget - 1 - (label.length : Int) = budget - (1 + label.length) by omega]
    · rw [if_neg hfit, if_pos (by omega)]

theorem findChild_exhausted (remaining : CStr) (n : Nat) (p : List UInt8) {budget : Int} (h : budget ≤ 1) :
    findChild remaining n p budget = none := by
  cases n with
  | zero => rfl
  | succ n => rw [findChild, if_pos (.inr (by omega))]

/-- The children before the one that matches are paid for. -/
theorem findChild_skip (h : Children (before ++ kids) bytes)
    (hmiss : ∀ kid ∈ before, kid.1.isPrefixOf remaining = false) (rest : List UInt8) (budget : Int) :
    ∃ bytes', Children kids bytes' ∧ findChild remaining (before ++ kids).length (bytes ++ rest) budget =
      findChild remaining kids.length (bytes' ++ rest) (budget - kidsCost before) := by
  induction before generalizing bytes budget with
  | nil => exact ⟨bytes, h, by simp [kidsCost]⟩
  | cons kid before ih =>
    cases h with
    | @cons label child _ number bytes1 hlabel hnumber hrest =>
      obtain ⟨bytes', hkids, heq⟩ := ih hrest (fun kid hk => hmiss kid (List.mem_cons_of_mem _ hk)) (budget - (1 + label.length))
      refine ⟨bytes', hkids, ?_⟩
      have hmiss1 : label.isPrefixOf remaining = false := hmiss (label, child) List.mem_cons_self
      have hcost : (kidsCost ((label, child) :: before) : Int) = 1 + label.length + kidsCost before := by simp [kidsCost]
      rw [List.cons_append, List.length_cons, List.append_assoc, List.cons_append, List.append_assoc,
        findChild_cons hlabel hnumber]
      simp only [hmiss1, Bool.false_eq_true, if_false, heq, hcost]
      by_cases hb : budget ≤ 1 + label.length
      · rw [if_pos hb, findChild_exhausted _ _ _ (by omega)]
      · rw [if_neg hb, Int.sub_sub]

variable {behind : List (CStr × UInt64)} {export? : Option (UInt64 × UInt64)}

/-- The first child whose label the name goes on with, at its price. -/
theorem findChild_found (h : Children (before ++ (label, child) :: behind) bytes)
    (hmiss : ∀ kid ∈ before, kid.1.isPrefixOf (label ++ rest) = false) (after : List UInt8) (budget : Int) :
    findChild (label ++ rest) (before ++ (label, child) :: behind).length (bytes ++ after) budget =
      if budget ≤ kidsCost before + (1 + label.length) then none
      else some (child, rest, budget - (kidsCost before + (1 + label.length))) := by
  obtain ⟨bytes', hkids, heq⟩ := findChild_skip h hmiss after budget
  rw [heq]
  cases hkids with
  | @cons _ _ _ number bytes1 hlabel hnumber hrest =>
    have hhit : label.isPrefixOf (label ++ rest) = true := List.isPrefixOf_iff_prefix.mpr (List.prefix_append label rest)
    rw [List.length_cons, List.append_assoc, List.cons_append, List.append_assoc, findChild_cons hlabel hnumber]
    simp only [hhit, if_true, List.drop_left]
    by_cases hb : budget ≤ kidsCost before + (1 + label.length)
    · rw [if_pos hb, if_pos (by omega)]
    · rw [if_neg hb, if_neg (by omega), Int.sub_sub]

theorem findChild_missed (h : Children kids bytes)
    (hmiss : ∀ kid ∈ kids, kid.1.isPrefixOf remaining = false) (rest : List UInt8) (budget : Int) :
    findChild remaining kids.length (bytes ++ rest) budget = none := by
  rw [← List.append_nil kids] at h
  obtain ⟨bytes', -, heq⟩ := findChild_skip h hmiss rest budget
  rw [List.append_nil] at heq
  rw [heq, List.length_nil, findChild]

theorem terminal_eq_nil {terminal : List UInt8} (h : Terminal export? terminal) : terminal = [] ↔ export? = none := by
  cases h with
  | none => simp
  | @some flags address f a hflags haddress more =>
    have : f ≠ [] := by
      rintro rfl
      cases hflags.1
    simp [this]

/-- Every number has its own end, so the bytes of a node mean one thing only. -/
theorem Number.unique {bytes' rest : List UInt8} {v v' : UInt64} (h : Number bytes v) (h' : Number bytes' v')
    (heq : bytes ++ rest = bytes' ++ rest') : v = v' ∧ rest = rest' := by
  have hread := readULEB128Bounded_number h rest
  rw [heq, readULEB128Bounded_number h' rest', Option.some.injEq, Prod.mk.injEq] at hread
  exact ⟨hread.1.symm, hread.2.symm⟩

theorem label_unique {label' : CStr} (h : 0 ∉ label) (h' : 0 ∉ label') {rest : List UInt8}
    (heq : label ++ 0 :: rest = label' ++ 0 :: rest') : label = label' ∧ rest = rest' := by
  induction label generalizing label' with
  | nil =>
    cases label' with
    | nil => exact ⟨rfl, (List.cons.inj heq).2⟩
    | cons c label' => exact absurd (List.mem_cons.mpr (.inl (List.cons.inj heq).1)) h'
  | cons c label ih =>
    cases label' with
    | nil => exact absurd (List.mem_cons.mpr (.inl (List.cons.inj heq).1.symm)) h
    | cons c' label' =>
      obtain ⟨rfl, htail⟩ := List.cons.inj heq
      obtain ⟨rfl, hrest⟩ := ih (fun hm => h (List.mem_cons_of_mem _ hm)) (fun hm => h' (List.mem_cons_of_mem _ hm)) htail
      exact ⟨rfl, hrest⟩

theorem Children.unique {kids' : List (CStr × UInt64)} {bytes' rest : List UInt8} (h : Children kids bytes)
    (h' : Children kids' bytes') (hlen : kids.length = kids'.length) (heq : bytes ++ rest = bytes' ++ rest') : kids = kids' := by
  induction h generalizing kids' bytes' with
  | nil => exact (List.eq_nil_of_length_eq_zero hlen.symm).symm
  | cons hlabel hnumber _ ih =>
    cases h' with
    | nil => cases hlen
    | cons hlabel' hnumber' hrest' =>
      simp only [List.append_assoc, List.cons_append] at heq
      obtain ⟨rfl, hnum⟩ := label_unique hlabel hlabel' heq
      obtain ⟨rfl, htail⟩ := hnumber.unique hnumber' hnum
      rw [ih hrest' (Nat.succ.inj hlen) htail]

theorem Terminal.unique {export'? : Option (UInt64 × UInt64)} {terminal : List UInt8} (h : Terminal export? terminal)
    (h' : Terminal export'? terminal) : export? = export'? := by
  cases h with
  | none => exact ((terminal_eq_nil h').mp rfl).symm
  | @some flags address f a hflags haddress more =>
    generalize hbytes : f ++ (a ++ more) = bytes at h'
    cases h' with
    | none =>
      rw [List.append_eq_nil_iff] at hbytes
      have := hflags.1
      rw [hbytes.1] at this
      cases this
    | some hflags' haddress' more' =>
      obtain ⟨rfl, hbytes⟩ := hflags.unique hflags' hbytes
      rw [(haddress.unique haddress' hbytes).1]

section Node

variable {trie : List UInt8} {off : UInt64} {export? export'? : Option (UInt64 × UInt64)} {kids kids' : List (CStr × UInt64)}

theorem NodeAt.unique (h : NodeAt trie off export? kids) (h' : NodeAt trie off export'? kids') : export? = export'? ∧ kids = kids' := by
  obtain ⟨size, terminal, count, children, rest, hbytes, hsize, hlen, hterminal, hcount, hchildren⟩ := h.bytes
  obtain ⟨size', terminal', count', children', rest', hbytes', hsize', hlen', hterminal', hcount', hchildren'⟩ := h'.bytes
  rw [hbytes] at hbytes'
  obtain ⟨hsame, htail⟩ := hsize.unique hsize' hbytes'
  have hsame' : terminal.length = terminal'.length := by
    have := congrArg UInt64.toNat hsame
    rw [UInt64.toNat_ofNat', UInt64.toNat_ofNat', Nat.mod_eq_of_lt hlen, Nat.mod_eq_of_lt hlen'] at this
    exact this
  obtain ⟨rfl, hbody⟩ := List.append_inj htail hsame'
  obtain ⟨rfl, hkids⟩ := List.cons.inj hbody
  exact ⟨hterminal.unique hterminal', hchildren.unique hchildren' (hcount.symm.trans hcount') hkids⟩

/-- The step at a node, from what its bytes mean. -/
theorem GoodNode.step (h : GoodNode trie off export? kids) (originalName remaining : CStr) (budget : Int) :
    ∃ children rest, Children kids children ∧ trieStep trie off originalName remaining budget =
      match (if remaining = [] then export? else none) with
      | some (flags, address) => .found address (flags &&& 0x04 != 0)
      | none =>
        match findChild remaining kids.length (children ++ rest) budget with
        | none => .fail
        | some (child, rest, budget) => .down child rest budget := by
  obtain ⟨size, terminal, count, children, rest, hbytes, hsize, hlen, hterminal, hcount, hchildren⟩ := h.bytes
  have hterm : (UInt64.ofNat terminal.length).toNat = terminal.length := by
    rw [UInt64.toNat_ofNat']
    exact Nat.mod_eq_of_lt hlen
  have hpos : (0 : UInt64) < UInt64.ofNat terminal.length ↔ terminal ≠ [] := by
    rw [UInt64.lt_iff_toNat_lt, hterm]
    exact List.length_pos_iff
  refine ⟨children, rest, hchildren, ?_⟩
  have hin := h.inside
  rw [trieStep, if_neg (by omega), hbytes, readULEB128Bounded_number hsize]
  simp only [hterm]
  rw [if_neg (by simp), List.take_left, List.drop_left]
  by_cases hend : remaining = [] ∧ terminal ≠ []
  · rw [if_pos ⟨hend.1, hpos.mpr hend.2⟩]
    cases hterminal with
    | none => exact absurd rfl hend.2
    | @some flags address f a hflags haddress more =>
      have hplain : flags &&& 0x08 = 0 := h.plain _ rfl
      rw [trieTerminal, readULEB128Bounded_number hflags]
      simp only [readULEB128Bounded_number haddress, hend.1, if_true, hplain, ne_eq, not_true_eq_false, if_false]
  · rw [if_neg fun hc => hend ⟨hc.1, hpos.mp hc.2⟩]
    have hnone : (if remaining = [] then export? else none) = none := by
      split
      · exact (terminal_eq_nil hterminal).mp (by_contra fun hne => hend ⟨‹_›, hne⟩)
      · rfl
    rcases hfind : findChild remaining kids.length (children ++ rest) budget with _ | ⟨child, rest', budget'⟩
    · simp only [hnone, hcount, hfind]
    · simp only [hnone, hcount, hfind]

/-- Labels with different first bytes: where one goes along with the name, no other does. -/
theorem GoodNode.others (h : GoodNode trie off export? (before ++ (label, child) :: behind)) :
    ∀ kid ∈ before, kid.1.isPrefixOf (label ++ rest) = false := by
  intro kid hkid
  rw [Bool.eq_false_iff, Ne, List.isPrefixOf_iff_prefix]
  intro hpre
  have hdistinct := h.distinct
  rw [List.map_append, List.map_cons, List.nodup_append] at hdistinct
  apply hdistinct.2.2 kid.1.head? (List.mem_map_of_mem hkid) label.head? List.mem_cons_self
  have hkid' : kid.1 ≠ [] := h.labels kid (List.mem_append_left _ hkid)
  have hlabel : label ≠ [] := h.labels (label, child) (List.mem_append_right _ List.mem_cons_self)
  obtain ⟨c, w, hc⟩ := List.exists_cons_of_ne_nil hkid'
  obtain ⟨d, v, hd⟩ := List.exists_cons_of_ne_nil hlabel
  rw [hc, hd, List.cons_append, List.cons_prefix_cons] at hpre
  rw [hc, hd, List.head?_cons, List.head?_cons, hpre.1]

end Node

/-! ## The search -/

theorem TriePath.cost_pos {trie : List UInt8} {name : CStr} (h : TriePath trie off name edges cost flags address) : 0 < cost := by
  cases h <;> omega

section Search

variable (W : World) {trie : List UInt8} (hw : WellFormedTrie trie) (i : Nat) (originalName : CStr) (st : Proc)
include hw

/-- A path is followed to its end if levels and budget last. -/
theorem findExportTrieSymbolAtNode_path
    (h : TriePath trie off rest edges cost flags address) (hoff : TrieNode trie off) (levels : Nat) (budget : Int) :
    findExportTrieSymbolAtNode W levels i trie off originalName rest budget st =
      if edges < levels ∧ (cost : Int) < budget then
        (⟨(st.images[i]?.map (·.header)).getD 0 + address, flags &&& 0x04 != 0⟩, st)
      else (⟨0, false⟩, st) := by
  induction h generalizing levels budget with
  | @here off flags address kids hnode =>
    cases levels with
    | zero => rw [findExportTrieSymbolAtNode, if_neg (by omega)]
    | succ levels =>
      rw [findExportTrieSymbolAtNode]
      by_cases hb : budget - 1 ≤ 0
      · rw [if_pos hb, if_neg (by omega)]
      · obtain ⟨export?, kids', hgood⟩ := hw.good off hoff
        obtain ⟨rfl, rfl⟩ := hnode.unique hgood.toNodeAt
        obtain ⟨children, rest, -, hstep⟩ := hgood.step originalName [] (budget - 1)
        rw [if_neg hb, if_pos (by omega), hstep]
        rfl
  | @down off child flags address export? before behind label rest edges cost hnode hrest ih =>
    cases levels with
    | zero => rw [findExportTrieSymbolAtNode, if_neg (by omega)]
    | succ levels =>
      have hpos := hrest.cost_pos
      rw [findExportTrieSymbolAtNode]
      by_cases hb : budget - 1 ≤ 0
      · rw [if_pos hb, if_neg (by push_cast; omega)]
      · obtain ⟨export'?, kids', hgood⟩ := hw.good off hoff
        obtain ⟨rfl, rfl⟩ := hnode.unique hgood.toNodeAt
        have hmem : (label, child) ∈ before ++ (label, child) :: behind := List.mem_append_right _ List.mem_cons_self
        have hne : ¬ label ++ rest = [] := fun hnil => hgood.labels _ hmem (List.append_eq_nil_iff.mp hnil).1
        obtain ⟨children, after, hchildren, hstep⟩ := hgood.step originalName (label ++ rest) (budget - 1)
        rw [if_neg hb, hstep, if_neg hne, findChild_found hchildren hgood.others]
        by_cases hfit : budget - 1 ≤ kidsCost before + (1 + label.length)
        · rw [if_pos hfit, if_neg (by push_cast; omega)]
        · rw [if_neg hfit]
          refine (ih (.child hoff hnode hmem) levels _).trans ?_
          congr 1
          exact propext ⟨fun h => ⟨by omega, by push_cast; omega⟩, fun h => ⟨by omega, by have := h.2; push_cast at this; omega⟩⟩

/-- A search that does not give up has followed a path. -/
theorem findExportTrieSymbolAtNode_of_no_path (levels : Nat) (budget : Int) (hoff : TrieNode trie off)
    (hnone : ∀ edges cost flags address, ¬ TriePath trie off rest edges cost flags address) :
    findExportTrieSymbolAtNode W levels i trie off originalName rest budget st = (⟨0, false⟩, st) := by
  induction levels generalizing off rest budget with
  | zero => rfl
  | succ levels ih =>
    rw [findExportTrieSymbolAtNode]
    by_cases hb : budget - 1 ≤ 0
    · rw [if_pos hb]
    · obtain ⟨export?, kids, hgood⟩ := hw.good off hoff
      obtain ⟨children, after, hchildren, hstep⟩ := hgood.step originalName rest (budget - 1)
      rw [if_neg hb, hstep]
      have hexport : (if rest = [] then export? else none) = none := by
        rcases export? with _ | ⟨flags, address⟩
        · exact ite_self none
        · refine if_neg ?_
          rintro rfl
          exact hnone _ _ _ _ (.here hgood.toNodeAt)
      rw [hexport]
      by_cases hkid : ∃ kid ∈ kids, kid.1.isPrefixOf rest = true
      · obtain ⟨⟨label, child⟩, hmem, hpre⟩ := hkid
        obtain ⟨before, behind, rfl⟩ := List.append_of_mem hmem
        obtain ⟨rest, rfl⟩ := List.isPrefixOf_iff_prefix.mp hpre
        rw [findChild_found hchildren hgood.others]
        by_cases hfit : budget - 1 ≤ kidsCost before + (1 + label.length)
        · rw [if_pos hfit]
        · rw [if_neg hfit]
          exact ih _ (.child hoff hgood.toNodeAt hmem) fun edges cost flags address hpath =>
            hnone _ _ _ _ (.down hgood.toNodeAt hpath)
      · have hmiss : ∀ kid ∈ kids, kid.1.isPrefixOf rest = false :=
          fun kid hk => Bool.eq_false_iff.mpr fun hp => hkid ⟨kid, hk, hp⟩
        rw [findChild_missed hchildren hmiss]

end Search

/-- The answer that the trie of an image at `header` calls for. -/
structure RightAnswer (trie : List UInt8) (header : UInt64) (name : CStr) (answer : Sym) : Prop where
  exported : ∀ flags address, Exports trie name flags address → answer = ⟨header + address, flags &&& 0x04 != 0⟩
  missing : (∀ flags address, ¬ Exports trie name flags address) → answer.addr = 0

/-- The search finds what the trie exports if the path to it is short and cheap enough, and
    only then (an export at the address 0 apart, which reads as "not found"). -/
theorem trie_lookup_iff (W : World) {st : Proc} {i : Nat} {img : LoadedImage} {trie : List UInt8} (himg : st.images[i]? = some img)
    (htrie : exportTrieForImage W.cache img = some trie) (hw : WellFormedTrie trie) (name : CStr) :
    RightAnswer trie img.header name (findExportTrieSymbolInImage W i name st).1 ↔
      ∀ edges cost flags address, TriePath trie 0 name edges cost flags address →
        edges ≤ 32 ∧ (cost : Int) < trieBudget trie.length ∨ img.header + address = 0 ∧ flags &&& 0x04 = 0 := by
  have hsearch : findExportTrieSymbolInImage W i name st =
      findExportTrieSymbolAtNode W trieLevels i trie 0 name name (trieBudget trie.length) st := by
    rw [findExportTrieSymbolInImage, himg, Option.bind_some, htrie]
  have hheader : (st.images[i]?.map (·.header)).getD 0 = img.header := by rw [himg]; rfl
  have hpath : ∀ {edges cost flags address}, TriePath trie 0 name edges cost flags address →
      (findExportTrieSymbolInImage W i name st).1 = if edges < trieLevels ∧ (cost : Int) < trieBudget trie.length then
        ⟨img.header + address, flags &&& 0x04 != 0⟩ else ⟨0, false⟩ := by
    intro edges cost flags address h
    rw [hsearch, findExportTrieSymbolAtNode_path W hw i name st h .root, hheader]
    split <;> rfl
  constructor
  · intro hright edges cost flags address h
    have hanswer := hright.exported flags address ⟨edges, cost, h⟩
    rw [hpath h] at hanswer
    by_cases hfit : edges < trieLevels ∧ (cost : Int) < trieBudget trie.length
    · exact .inl ⟨Nat.le_of_lt_succ hfit.1, hfit.2⟩
    · rw [if_neg hfit, Sym.mk.injEq] at hanswer
      exact .inr ⟨hanswer.1.symm, by simpa using hanswer.2.symm⟩
  · intro hfit
    constructor
    · rintro flags address ⟨edges, cost, h⟩
      rw [hpath h]
      rcases hfit edges cost flags address h with hok | ⟨hzero, hstrong⟩
      · rw [if_pos ⟨Nat.lt_succ_of_le hok.1, hok.2⟩]
      · rw [hzero, hstrong]
        split <;> rfl
    · intro hnone
      rw [hsearch, findExportTrieSymbolAtNode_of_no_path W hw i name st trieLevels _ .root
        fun edges cost flags address h => hnone flags address ⟨edges, cost, h⟩]

/-! ## Tries that spell one name -/

/-- A node without a terminal and with the one child `a`, which follows it as the node
    `k`. -/
def spellNode (k : Nat) : List UInt8 := [0, 1, 97, 0, UInt8.ofNat (6 * k % 128 + 128), UInt8.ofNat (6 * k / 128)]

/-- From node `k` on, `n` letters. The last node exports the name at offset 16. -/
def spellFrom (k : Nat) : Nat → List UInt8
  | 0 => [2, 0, 16, 0]
  | n + 1 => spellNode (k + 1) ++ spellFrom (k + 1) n

/-- The trie of the one name of `n` letters `a`, each on its own edge. -/
def spellTrie (n : Nat) : List UInt8 := spellFrom 0 n

theorem spellFrom_drop (m : Nat) : ∀ k n, (spellFrom k (n + m)).drop (6 * n) = spellFrom (k + n) m := by
  intro k n
  induction n generalizing k with
  | zero => rw [Nat.zero_add, Nat.mul_zero, List.drop_zero, Nat.add_zero]
  | succ n ih =>
    rw [Nat.succ_add, spellFrom, show 6 * (n + 1) = (spellNode (k + 1)).length + 6 * n by rw [spellNode]; simp; omega,
      List.drop_length_add_append, ih]
    congr 1
    omega

theorem spellFrom_length (k n : Nat) : (spellFrom k n).length = 6 * n + 4 := by
  induction n generalizing k with
  | zero => rfl
  | succ n ih =>
    rw [spellFrom, List.length_append, ih, spellNode]
    simp
    omega

theorem number_two {v : Nat} (h : v < 16384) : Number [UInt8.ofNat (v % 128 + 128), UInt8.ofNat (v / 128)] (UInt64.ofNat v) := by
  have hlow : (UInt8.ofNat (v % 128 + 128)).toNat = v % 128 + 128 := by
    rw [UInt8.toNat_ofNat']
    omega
  have hhigh : (UInt8.ofNat (v / 128)).toNat = v / 128 := by
    rw [UInt8.toNat_ofNat']
    omega
  have hv : (UInt64.ofNat v).toNat = v := by
    rw [UInt64.toNat_ofNat']
    omega
  have huleb : Uleb [UInt8.ofNat (v % 128 + 128), UInt8.ofNat (v / 128)] _ := .more (by omega) (.last (by omega))
  rw [hlow, hhigh, show v % 128 + 128 - 128 + 128 * (v / 128) = v by omega] at huleb
  exact ⟨hv.symm ▸ huleb, by simp⟩

theorem number_one {b : UInt8} (h : b.toNat < 128) : Number [b] b.toUInt64 := by
  refine ⟨?_, by simp⟩
  rw [UInt8.toNat_toUInt64]
  exact .last h

section Spell

variable {n : Nat} (hn : n < 2000)
include hn

theorem spell_inner {k : Nat} (hk : k < n) :
    GoodNode (spellTrie n) (UInt64.ofNat (6 * k)) none [([97], UInt64.ofNat (6 * (k + 1)))] := by
  obtain ⟨m, rfl⟩ := Nat.exists_eq_add_of_lt hk
  have hoff : (UInt64.ofNat (6 * k)).toNat = 6 * k := by
    rw [UInt64.toNat_ofNat']
    omega
  have hbytes : (spellTrie (k + m + 1)).drop (6 * k) = spellNode (k + 1) ++ spellFrom (k + 1) m := by
    rw [spellTrie, Nat.add_assoc, spellFrom_drop (m + 1), Nat.zero_add, spellFrom]
  refine ⟨⟨?_, ?_⟩, by simp, by simp, by simp⟩
  · rw [hoff, spellTrie, spellFrom_length]
    omega
  · refine ⟨[0], [], 1, _, spellFrom (k + 1) m, ?_, number_one (b := 0) (by decide), by simp, .none, rfl,
      .cons (by simp) (number_two (by omega)) .nil⟩
    rw [hoff, hbytes]
    rfl

omit hn in
theorem spell_last {n : Nat} (hn : n < 2000) : GoodNode (spellTrie n) (UInt64.ofNat (6 * n)) (some (0, 16)) [] := by
  have hoff : (UInt64.ofNat (6 * n)).toNat = 6 * n := by
    rw [UInt64.toNat_ofNat']
    omega
  have hbytes : (spellTrie n).drop (6 * n) = [2, 0, 16, 0] := by
    rw [spellTrie]
    refine (spellFrom_drop 0 0 n).trans ?_
    rfl
  refine ⟨⟨?_, ?_⟩, by simp, by simp, by simp⟩
  · rw [hoff, spellTrie, spellFrom_length]
    omega
  · refine ⟨[2], [0, 16], 0, [], [], by rw [hoff, hbytes]; rfl, number_one (b := 2) (by decide), by simp, ?_, rfl, .nil⟩
    exact .some (f := [0]) (a := [16]) (number_one (b := 0) (by decide)) (number_one (b := 16) (by decide)) []

/-- There are no other nodes. -/
theorem spell_nodes (h : TrieNode (spellTrie n) off) : ∃ k ≤ n, off = UInt64.ofNat (6 * k) := by
  induction h with
  | root => exact ⟨0, Nat.zero_le _, rfl⟩
  | child _ hnode hkid ih =>
    obtain ⟨k, hk, rfl⟩ := ih
    rcases Nat.lt_or_eq_of_le hk with hlt | rfl
    · obtain ⟨-, rfl⟩ := hnode.unique (spell_inner hn hlt).toNodeAt
      rw [List.mem_singleton, Prod.mk.injEq] at hkid
      exact ⟨k + 1, hlt, hkid.2⟩
    · obtain ⟨-, rfl⟩ := hnode.unique (spell_last hn).toNodeAt
      cases hkid

theorem spell_edge (hoff : TrieNode (spellTrie n) off) (h : TrieEdge (spellTrie n) off child) : off.toNat < child.toNat := by
  obtain ⟨k, hk, rfl⟩ := spell_nodes hn hoff
  obtain ⟨export?, kids, label, hnode, hkid⟩ := h
  rcases Nat.lt_or_eq_of_le hk with hlt | rfl
  · obtain ⟨-, rfl⟩ := hnode.unique (spell_inner hn hlt).toNodeAt
    rw [List.mem_singleton, Prod.mk.injEq] at hkid
    rw [hkid.2, UInt64.toNat_ofNat', UInt64.toNat_ofNat', Nat.mod_eq_of_lt (by omega), Nat.mod_eq_of_lt (by omega)]
    omega
  · obtain ⟨-, rfl⟩ := hnode.unique (spell_last hn).toNodeAt
    cases hkid

theorem spell_wellFormed : WellFormedTrie (spellTrie n) where
  good off hoff := by
    obtain ⟨k, hk, rfl⟩ := spell_nodes hn hoff
    rcases Nat.lt_or_eq_of_le hk with hlt | rfl
    · exact ⟨_, _, spell_inner hn hlt⟩
    · exact ⟨_, _, spell_last hn⟩
  acyclic off hoff hcycle := by
    -- along a path of edges from a node the offsets grow
    have hgrow : ∀ {child}, Relation.TransGen (TrieEdge (spellTrie n)) off child →
        TrieNode (spellTrie n) child ∧ off.toNat < child.toNat := by
      intro child hpath
      induction hpath with
      | single hedge =>
        obtain ⟨export?, kids, label, hnode, hkid⟩ := id hedge
        exact ⟨.child hoff hnode hkid, spell_edge hn hoff hedge⟩
      | tail _ hedge ih =>
        obtain ⟨export?, kids, label, hnode, hkid⟩ := id hedge
        exact ⟨.child ih.1 hnode hkid, ih.2.trans (spell_edge hn ih.1 hedge)⟩
    exact absurd (hgrow hcycle).2 (Nat.lt_irrefl _)

theorem spell_path (m : Nat) : ∀ {k : Nat}, k + m = n →
    TriePath (spellTrie n) (UInt64.ofNat (6 * k)) (List.replicate m 97) m (3 * m + 1) 0 16 := by
  induction m with
  | zero =>
    rintro k rfl
    exact .here (spell_last hn).toNodeAt
  | succ m ih =>
    intro k hk
    have hpath := @TriePath.down (spellTrie n) _ _ _ _ _ [] [] [97] _ _ _ (spell_inner hn (by omega : k < n)).toNodeAt
      (ih (k := k + 1) (by omega))
    have hcost : 1 + kidsCost [] + (1 + [(97 : UInt8)].length) + (3 * m + 1) = 3 * (m + 1) + 1 := by
      simp [kidsCost]
      omega
    rw [hcost] at hpath
    exact hpath

/-- There are no other paths. -/
theorem spell_path_only {name : CStr}
    (h : TriePath (spellTrie n) off name edges cost flags address) : ∀ {k : Nat}, off = UInt64.ofNat (6 * k) → k ≤ n →
      k + edges = n ∧ cost = 3 * edges + 1 := by
  induction h with
  | here hnode =>
    rintro k rfl hk
    rcases Nat.lt_or_eq_of_le hk with hlt | rfl
    · cases (hnode.unique (spell_inner hn hlt).toNodeAt).1
    · exact ⟨rfl, rfl⟩
  | @down off child flags address export? before behind label rest edges cost hnode _ ih =>
    rintro k rfl hk
    rcases Nat.lt_or_eq_of_le hk with hlt | rfl
    · obtain ⟨-, hkids⟩ := hnode.unique (spell_inner hn hlt).toNodeAt
      cases before with
      | nil =>
        obtain ⟨hkid, -⟩ := List.cons.inj hkids
        obtain ⟨rfl, rfl⟩ := Prod.mk.inj hkid
        obtain ⟨hedges, hcost⟩ := ih rfl (Nat.succ_le_of_lt hlt)
        rw [hcost]
        exact ⟨by omega, by simp [kidsCost]; omega⟩
      | cons kid before => simp at hkids
    · have hkids := (hnode.unique (spell_last hn).toNodeAt).2
      simp at hkids

end Spell

/-- An image at 0x10000 with this export trie and no symbol table, linked against `deps`. -/
def trieImage (path : String) (deps : List String) (trie : List UInt8) : LoadedImage :=
  ⟨0x10000, 0, cstr path,
    [.segment ⟨segText, 0, 0x1000, 0, 0x1000, 5, []⟩, .segment ⟨segLinkedit, 0x1000, 0x10000, 0x1000, 0x10000, 1, []⟩] ++
      deps.map (fun dep => .dylib .load (cstr dep)) ++
      [.dyldInfo ⟨.empty, .empty, .empty, 0x1000, trie⟩],
    none⟩

def spellImage (n : Nat) : LoadedImage := trieImage "/usr/lib/libspell.dylib" [] (spellTrie n)

/-- Names of 32 letters are found. -/
theorem trie_lookup_iff_32_letters :
    (findExportTrieSymbolInImage bareWorld 0 (List.replicate 32 97) (.ofImages [spellImage 32])).1 = ⟨0x10010, false⟩ := by
  have hright := (@trie_lookup_iff bareWorld (.ofImages [spellImage 32]) 0 _ (spellTrie 32) rfl
    (by decide +kernel) (spell_wellFormed (by decide)) (List.replicate 32 97)).mpr fun edges cost flags address h => by
      obtain ⟨hedges, hcost⟩ := spell_path_only (n := 32) (by decide) h (k := 0) rfl (Nat.zero_le _)
      rw [hcost, trieBudget, spellTrie, spellFrom_length]
      exact .inl ⟨by omega, by push_cast; omega⟩
  exact hright.exported 0 16 ⟨_, _, spell_path (n := 32) (by decide) 32 rfl⟩

/-- Names of 33 letters are not. -/
theorem long_name_is_not_found : WellFormedTrie (spellTrie 33) ∧ (spellTrie 33).length ≤ 16000 ∧
    exportTrieForImage bareWorld.cache (spellImage 33) = some (spellTrie 33) ∧ Exports (spellTrie 33) (List.replicate 33 97) 0 16 ∧
    (findExportTrieSymbolInImage bareWorld 0 (List.replicate 33 97) (.ofImages [spellImage 33])).1 = ⟨0, false⟩ := by
  refine ⟨spell_wellFormed (by decide), by decide +kernel, by decide +kernel, ⟨_, _, spell_path (n := 33) (by decide) 33 rfl⟩, ?_⟩
  decide +kernel

end Panthera.Dyld
