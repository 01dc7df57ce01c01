/-
  Panthera.Xpc.Equal — comparing and hashing XPC objects
  (`libxpc_impl.c`: `xpc_equal`, `xpc_hash`).

  Objects are what the addresses of a memory point at. There is one null object and one
  object for each boolean. A double is compared as IEEE doubles are: a NaN is equal to
  nothing and the two zeros are equal. `memcmp` on a NULL pointer is a fault (`none`).

  Doubles and data objects are compared by value and hashed by address (`equal_hash_iff`,
  `equal_data_hash_differently`).
-/

import Panthera.Xpc.Dict

namespace Panthera.Xpc

open Lib.Wire

/-! ## Objects in memory -/

def OtherTag.number : OtherTag → UInt64
  | .dictionary => 0x8000
  | .array => 0x9000
  | .fd => 0xA000
  | .machSend => 0xB000
  | .machRecv => 0xC000
  | .connection => 0xD000
  | .error => 0xF000

def Value.tag : Value → UInt64
  | .null => 0x1000
  | .bool _ => 0x2000
  | .int64 _ => 0x3000
  | .uint64 _ => 0x4000
  | .double _ => 0x5000
  | .string _ => 0x6000
  | .data _ => 0x7000
  | .other t => t.number

/-- `_xpc_null_obj` and the two `_xpc_bool_*_obj`. -/
def Value.isSingleton : Value → Bool
  | .null | .bool _ => true
  | _ => false

structure Memory where
  body : UInt64 → Option Value
  null_free : body 0 = none
  singletons : ∀ a b x, body a = some x → body b = some x → x.isSingleton → a = b

/-! ## `xpc_equal` -/

def isNaN (bits : UInt64) : Bool := 0x7FF0000000000000 < bits &&& 0x7FFFFFFFFFFFFFFF

def isZero (bits : UInt64) : Bool := bits &&& 0x7FFFFFFFFFFFFFFF = 0

def doubleEqual (a b : UInt64) : Bool := !isNaN a && !isNaN b && (a = b || (isZero a && isZero b))

/-- `memcmp` reads from both pointers unless there is nothing to compare. -/
def dataEqual (d e : Data) : Option Bool :=
  if d.len ≠ e.len then some false
  else if d.len = 0 then some true
  else do
    let b ← d.ptr
    let c ← e.ptr
    some (b = c)

/-- The `switch` for two objects of one type. -/
def equalValue : Value → Value → Option Bool
  | .null, .null => some true
  | .bool a, .bool b => some (a = b)
  | .int64 a, .int64 b => some (a = b)
  | .uint64 a, .uint64 b => some (a = b)
  | .double a, .double b => some (doubleEqual a b)
  | .string a, .string b => some (a = b)
  | .data d, .data e => dataEqual d e
  | _, _ => some false

def xpcEqual (m : Memory) (a b : UInt64) : Option Bool :=
  if a = b then some true
  else if a = 0 ∨ b = 0 then some false
  else do
    let x ← m.body a
    let y ← m.body b
    if x.tag ≠ y.tag then some false else equalValue x y

/-! ## `xpc_hash` -/

def hashValue (a : UInt64) (x : Value) : UInt64 :=
  match x with
  | .int64 v => x.tag ^^^ v.toUInt64
  | .uint64 v => x.tag ^^^ v
  | .string s => s.bytes.foldl (fun h c => h * 31 + c.toUInt64) x.tag
  | _ => x.tag ^^^ a

def xpcHash (m : Memory) (a : UInt64) : Option UInt64 := if a = 0 then some 0 else (m.body a).map (hashValue a)

/-! ## Equality of values -/

variable {a b : UInt64} {x y : Value}

theorem doubleEqual_symm (h : doubleEqual a b) : doubleEqual b a := by
  simp only [doubleEqual, Bool.and_eq_true, Bool.or_eq_true, decide_eq_true_eq, Bool.not_eq_true'] at h ⊢
  obtain ⟨⟨ha, hb⟩, h⟩ := h
  exact ⟨⟨hb, ha⟩, h.imp Eq.symm And.symm⟩

theorem doubleEqual_trans {c : UInt64} (h₁ : doubleEqual a b) (h₂ : doubleEqual b c) : doubleEqual a c := by
  simp only [doubleEqual, Bool.and_eq_true, Bool.or_eq_true, decide_eq_true_eq, Bool.not_eq_true'] at h₁ h₂ ⊢
  obtain ⟨⟨ha, -⟩, h₁⟩ := h₁
  obtain ⟨⟨-, hc⟩, h₂⟩ := h₂
  refine ⟨⟨ha, hc⟩, ?_⟩
  rcases h₁ with rfl | ⟨hza, hzb⟩
  · exact h₂
  · rcases h₂ with rfl | ⟨-, hzc⟩
    · exact .inr ⟨hza, hzb⟩
    · exact .inr ⟨hza, hzc⟩

/-- Data compare as equal if they are: of length 0, or with the same bytes. -/
theorem dataEqual_iff {d e : Data} : dataEqual d e = some true ↔ d.len = e.len ∧ (d.len = 0 ∨ d.ptr = e.ptr ∧ d.ptr.isSome) := by
  rw [dataEqual]
  by_cases hlen : d.len = e.len
  · by_cases hzero : d.len = 0
    · simp [← hlen, hzero]
    · rw [if_neg (not_not.mpr hlen), if_neg hzero]
      cases hd : d.ptr with
      | none => simp [hzero]
      | some b =>
        cases he : e.ptr with
        | none => simp [hzero]
        | some c => simp [hlen, hlen ▸ hzero]
  · simp [hlen]

theorem dataEqual_symm {d e : Data} (h : dataEqual d e = some true) : dataEqual e d = some true := by
  obtain ⟨hlen, h⟩ := dataEqual_iff.mp h
  refine dataEqual_iff.mpr ⟨hlen.symm, ?_⟩
  rcases h with hzero | ⟨hptr, hsome⟩
  · exact .inl (hlen ▸ hzero)
  · exact .inr ⟨hptr.symm, hptr ▸ hsome⟩

theorem dataEqual_trans {d e f : Data} (h₁ : dataEqual d e = some true) (h₂ : dataEqual e f = some true) : dataEqual d f = some true := by
  obtain ⟨hlen₁, h₁⟩ := dataEqual_iff.mp h₁
  obtain ⟨hlen₂, h₂⟩ := dataEqual_iff.mp h₂
  refine dataEqual_iff.mpr ⟨hlen₁.trans hlen₂, ?_⟩
  rcases h₁ with hzero | ⟨hptr₁, hsome⟩
  · exact .inl hzero
  · rcases h₂ with hzero | ⟨hptr₂, -⟩
    · exact .inl (hlen₁.trans hzero)
    · exact .inr ⟨hptr₁.trans hptr₂, hsome⟩

/-- Which values are equal. -/
inductive Same : Value → Value → Prop
  | null : Same .null .null
  | bool (b : Bool) : Same (.bool b) (.bool b)
  | int64 (v : Int64) : Same (.int64 v) (.int64 v)
  | uint64 (v : UInt64) : Same (.uint64 v) (.uint64 v)
  | double {a b : UInt64} : doubleEqual a b → Same (.double a) (.double b)
  | string (s : CString) : Same (.string s) (.string s)
  | data {d e : Data} : dataEqual d e = some true → Same (.data d) (.data e)

theorem equalValue_iff : equalValue x y = some true ↔ Same x y := by
  constructor
  · intro h
    cases x <;> cases y <;> simp only [equalValue, Option.some.injEq, decide_eq_true_eq, Bool.false_eq_true] at h
    case null.null => exact .null
    case bool.bool a b => exact h ▸ .bool a
    case int64.int64 a b => exact h ▸ .int64 a
    case uint64.uint64 a b => exact h ▸ .uint64 a
    case double.double a b => exact .double h
    case string.string a b => exact h ▸ .string a
    case data.data d e => exact .data h
  · intro h
    cases h with
    | double h => exact congrArg some h
    | data h => exact h
    | _ => simp [equalValue]

namespace Same

variable {x y z : Value}

theorem symm (h : Same x y) : Same y x := by
  cases h with
  | null => exact .null
  | bool b => exact .bool b
  | int64 v => exact .int64 v
  | uint64 v => exact .uint64 v
  | double h => exact .double (doubleEqual_symm h)
  | string s => exact .string s
  | data h => exact .data (dataEqual_symm h)

theorem trans (h₁ : Same x y) (h₂ : Same y z) : Same x z := by
  cases h₁ with
  | double h₁ =>
    cases h₂ with
    | double h₂ => exact .double (doubleEqual_trans h₁ h₂)
  | data h₁ =>
    cases h₂ with
    | data h₂ => exact .data (dataEqual_trans h₁ h₂)
  | _ => exact h₂

theorem tag_eq (h : Same x y) : x.tag = y.tag := by cases h <;> rfl

end Same

/-! ## Equality and hashes -/

theorem xpcEqual_iff {m : Memory} :
    xpcEqual m a b = some true ↔ a = b ∨ ∃ x y, m.body a = some x ∧ m.body b = some y ∧ Same x y := by
  have hnonzero : ∀ {c : UInt64} {x : Value}, m.body c = some x → c ≠ 0 := by
    rintro c x hx rfl
    rw [m.null_free] at hx
    cases hx
  rw [xpcEqual]
  by_cases hab : a = b
  · simp [hab]
  · rw [if_neg hab]
    constructor
    · intro h
      split at h
      · cases h
      · obtain ⟨x, hx, h⟩ := Option.bind_eq_some_iff.mp h
        obtain ⟨y, hy, h⟩ := Option.bind_eq_some_iff.mp h
        split at h
        · cases h
        · exact .inr ⟨x, y, hx, hy, equalValue_iff.mp h⟩
    · rintro (h | ⟨x, y, hx, hy, hsame⟩)
      · exact absurd h hab
      · rw [if_neg (not_or.mpr ⟨hnonzero hx, hnonzero hy⟩)]
        simp [hx, hy, hsame.tag_eq, equalValue_iff.mpr hsame]

/-- Equality is an equivalence. -/
theorem xpcEqual_equivalence (m : Memory) : Equivalence fun a b => xpcEqual m a b = some true where
  refl := fun a => xpcEqual_iff.mpr (.inl rfl)
  symm := by
    intro a b h
    rcases xpcEqual_iff.mp h with rfl | ⟨x, y, hx, hy, hsame⟩
    · exact h
    · exact xpcEqual_iff.mpr (.inr ⟨y, x, hy, hx, hsame.symm⟩)
  trans := by
    intro a b c h₁ h₂
    rcases xpcEqual_iff.mp h₁ with rfl | ⟨x, y, hx, hy, hxy⟩
    · exact h₂
    · rcases xpcEqual_iff.mp h₂ with rfl | ⟨y', z, hy', hz, hyz⟩
      · exact h₁
      · obtain rfl : y = y' := Option.some.inj (hy.symm.trans hy')
        exact xpcEqual_iff.mpr (.inr ⟨x, z, hx, hz, hxy.trans hyz⟩)

/-- Two doubles or two data objects that are equal. -/
inductive Alike : Value → Value → Prop
  | double {a b : UInt64} : doubleEqual a b → Alike (.double a) (.double b)
  | data {d e : Data} : dataEqual d e = some true → Alike (.data d) (.data e)

theorem Alike.same (h : Alike x y) : Same x y := by
  cases h with
  | double h => exact .double h
  | data h => exact .data h

/-- Such objects are hashed by their addresses. -/
theorem Alike.hash_ne (h : Alike x y) (hab : a ≠ b) : hashValue a x ≠ hashValue b y := by
  have hxor : ∀ t : UInt64, t ^^^ a ≠ t ^^^ b := fun t h => hab ((UInt64.xor_right_inj t).mp h)
  cases h with
  | double h => exact hxor 0x5000
  | data h => exact hxor 0x7000

theorem Same.hash_eq {m : Memory} (hx : m.body a = some x) (hy : m.body b = some y) (h : Same x y)
    (hnot : ¬ Alike x y) : hashValue a x = hashValue b y := by
  cases h with
  | null => rw [m.singletons a b _ hx hy rfl]
  | bool v => rw [m.singletons a b _ hx hy rfl]
  | int64 v => rfl
  | uint64 v => rfl
  | double h => exact absurd (.double h) hnot
  | string s => rfl
  | data h => exact absurd (.data h) hnot

/-- Equal objects have equal hashes, unless they are two doubles or two data objects; and equality is
    an equivalence. -/
theorem equal_hash_iff (m : Memory) :
    (∀ a b, (xpcEqual m a b = some true → xpcHash m a = xpcHash m b) ↔
      (a = b ∨ ∀ x y, m.body a = some x → m.body b = some y → ¬ Alike x y)) ∧
    Equivalence fun a b => xpcEqual m a b = some true := by
  have hhash : ∀ {a : UInt64} {x : Value}, m.body a = some x → xpcHash m a = some (hashValue a x) := by
    intro a x hx
    have hne : a ≠ 0 := by
      rintro rfl
      rw [m.null_free] at hx
      cases hx
    rw [xpcHash, if_neg hne, hx]
    rfl
  refine ⟨fun a b => ⟨fun h => ?_, fun h heq => ?_⟩, xpcEqual_equivalence m⟩
  · refine or_iff_not_imp_left.mpr fun hab x y hx hy halike => ?_
    have heq := h (xpcEqual_iff.mpr (.inr ⟨x, y, hx, hy, halike.same⟩))
    rw [hhash hx, hhash hy] at heq
    exact halike.hash_ne hab (Option.some.inj heq)
  · rcases xpcEqual_iff.mp heq with rfl | ⟨x, y, hx, hy, hsame⟩
    · rfl
    · rcases h with rfl | hnot
      · rfl
      · rw [hhash hx, hhash hy, hsame.hash_eq hx hy (hnot x y hx hy)]

/-- Two data objects of the one byte 1. -/
def twoData : Memory where
  body := fun a => if a = 0x1000 ∨ a = 0x2000 then some (.data (dataCreate (.buffer [1]))) else none
  null_free := by decide
  singletons := by
    intro a b x hx _ hs
    split at hx
    · cases hx
      cases hs
    · cases hx

theorem equal_data_hash_differently : xpcEqual twoData 0x1000 0x2000 = some true ∧ xpcHash twoData 0x1000 ≠ xpcHash twoData 0x2000 := by
  decide

end Panthera.Xpc
