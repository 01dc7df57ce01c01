/-
  Panthera.Lib.Bytes — byte-addressed memory and its little-endian words.

  A memory is a function from addresses to bytes. A word of `n` bytes is read and
  written little-endian (`readLE`, `writeLE`); the 16, 32 and 64-bit accesses are
  the instances a C program on x86-64 makes through a pointer.

  Proved: a word written is read back (`readLE_writeLE`), an access elsewhere does
  not see it (`readLE_writeLE_disjoint`), and a run of 64-bit stores at separated
  addresses (`storeAll`) leaves each address its own value and every byte outside
  the stored slots as it was (`read64_storeAll`, `storeAll_outside`).
-/

import Mathlib.Tactic

namespace Panthera.Lib.Bytes

abbrev Mem := Nat → UInt8

def readLE : Nat → Mem → Nat → Nat
  | 0, _, _ => 0
  | n + 1, m, a => (m a).toNat + 256 * readLE n m (a + 1)

def writeLE (n : Nat) (m : Mem) (a v : Nat) : Mem :=
  fun x => if a ≤ x ∧ x < a + n then UInt8.ofNat (v / 256 ^ (x - a)) else m x

def read16 (m : Mem) (a : Nat) : UInt16 := UInt16.ofNat (readLE 2 m a)

def read32 (m : Mem) (a : Nat) : UInt32 := UInt32.ofNat (readLE 4 m a)

def read64 (m : Mem) (a : Nat) : UInt64 := UInt64.ofNat (readLE 8 m a)

def write16 (m : Mem) (a : Nat) (v : UInt16) : Mem := writeLE 2 m a v.toNat

def write32 (m : Mem) (a : Nat) (v : UInt32) : Mem := writeLE 4 m a v.toNat

def write64 (m : Mem) (a : Nat) (v : UInt64) : Mem := writeLE 8 m a v.toNat

/-! ## One word -/

variable {m m' : Mem} {a b : Nat} {v : UInt64}

theorem readLE_congr : ∀ {n a : Nat}, (∀ i < n, m (a + i) = m' (a + i)) → readLE n m a = readLE n m' a := by
  intro n
  induction n with
  | zero => intros; rfl
  | succ n ih =>
    intro a h
    have h0 : m a = m' a := h 0 (by omega)
    have hr : readLE n m (a + 1) = readLE n m' (a + 1) :=
      ih fun i hi => by have := h (i + 1) (by omega); rwa [Nat.add_comm i 1, ← Nat.add_assoc] at this
    simp only [readLE, h0, hr]

theorem readLE_lt (m : Mem) : ∀ n a, readLE n m a < 256 ^ n := by
  intro n
  induction n with
  | zero => intro a; exact Nat.one_pos
  | succ n ih =>
    intro a
    have hrest := ih (a + 1)
    have hbyte := (m a).toNat_lt
    rw [readLE, Nat.pow_succ]
    omega

/-- A number is its bytes. -/
theorem readLE_injective : ∀ {n a : Nat}, readLE n m a = readLE n m' a → ∀ i < n, m (a + i) = m' (a + i) := by
  intro n
  induction n with
  | zero => intro a _ i hi; cases hi
  | succ n ih =>
    intro a h i hi
    have hm := (m a).toNat_lt
    have hm' := (m' a).toNat_lt
    rw [readLE, readLE] at h
    obtain ⟨hfirst, hrest⟩ : (m a).toNat = (m' a).toNat ∧ readLE n m (a + 1) = readLE n m' (a + 1) := by omega
    cases i with
    | zero => exact UInt8.toNat_inj.mp hfirst
    | succ i =>
      have := ih hrest i (by omega)
      rwa [Nat.add_assoc, Nat.add_comm 1 i] at this

theorem writeLE_outside {n v x : Nat} (m : Mem) (h : x < a ∨ a + n ≤ x) : writeLE n m a v x = m x := by
  unfold writeLE
  rw [if_neg (by omega)]

theorem readLE_writeLE (n : Nat) (m : Mem) : ∀ a v, readLE n (writeLE n m a v) a = v % 256 ^ n := by
  induction n generalizing m with
  | zero => intro a v; simp [readLE, Nat.mod_one]
  | succ n ih =>
    intro a v
    -- the tail of the word is the word of the remaining bytes, one address up
    have tail : readLE n (writeLE (n + 1) m a v) (a + 1) = (v / 256) % 256 ^ n := by
      rw [← ih m (a + 1) (v / 256)]
      refine readLE_congr fun i hi => ?_
      unfold writeLE
      rw [if_pos (by omega), if_pos (by omega), show a + 1 + i - a = i + 1 by omega,
        show a + 1 + i - (a + 1) = i by omega, Nat.pow_succ, Nat.mul_comm, Nat.div_div_eq_div_mul]
    have head : (writeLE (n + 1) m a v a).toNat = v % 256 := by
      unfold writeLE
      rw [if_pos (by omega)]
      simp
    rw [readLE, tail, head, Nat.pow_succ, Nat.mul_comm (256 ^ n), Nat.mod_mul]

theorem readLE_writeLE_disjoint {n k v : Nat} (m : Mem) (h : a + n ≤ b ∨ b + k ≤ a) :
    readLE k (writeLE n m a v) b = readLE k m b :=
  readLE_congr fun i hi => writeLE_outside m (by omega)

/-- A memory seen from address `a` on, as a mapping of its bytes shows it. -/
def Mem.from (m : Mem) (a : Nat) : Mem := fun x => m (a + x)

theorem readLE_from (m : Mem) (a : Nat) : ∀ n k, readLE n (m.from a) k = readLE n m (a + k) := by
  intro n
  induction n with
  | zero => intro k; rfl
  | succ n ih => intro k; rw [readLE, readLE, ih, Nat.add_assoc]; rfl

/-! ## Fixed-width words -/

@[simp] theorem read16_from (m : Mem) (a k : Nat) : read16 (m.from a) k = read16 m (a + k) := by
  rw [read16, readLE_from, read16]

@[simp] theorem read32_from (m : Mem) (a k : Nat) : read32 (m.from a) k = read32 m (a + k) := by
  rw [read32, readLE_from, read32]

@[simp] theorem read64_from (m : Mem) (a k : Nat) : read64 (m.from a) k = read64 m (a + k) := by
  rw [read64, readLE_from, read64]

theorem read64_congr (h : ∀ i < 8, m (a + i) = m' (a + i)) : read64 m a = read64 m' a := by
  unfold read64
  rw [readLE_congr h]

theorem read32_congr (h : ∀ i < 4, m (a + i) = m' (a + i)) : read32 m a = read32 m' a := by
  unfold read32
  rw [readLE_congr h]

@[simp] theorem read64_write64 (m : Mem) (a : Nat) (v : UInt64) : read64 (write64 m a v) a = v := by
  unfold read64 write64
  rw [readLE_writeLE]
  have := v.toNat_lt
  rw [Nat.mod_eq_of_lt (by omega)]
  exact UInt64.ofNat_toNat

@[simp] theorem read32_write32 (m : Mem) (a : Nat) (v : UInt32) : read32 (write32 m a v) a = v := by
  unfold read32 write32
  rw [readLE_writeLE]
  have := v.toNat_lt
  rw [Nat.mod_eq_of_lt (by omega)]
  exact UInt32.ofNat_toNat

@[simp] theorem read16_write16 (m : Mem) (a : Nat) (v : UInt16) : read16 (write16 m a v) a = v := by
  unfold read16 write16
  rw [readLE_writeLE]
  have := v.toNat_lt
  rw [Nat.mod_eq_of_lt (by omega)]
  exact UInt16.ofNat_toNat

theorem read64_write64_disjoint (h : a + 8 ≤ b ∨ b + 8 ≤ a) : read64 (write64 m a v) b = read64 m b := by
  unfold read64 write64
  rw [readLE_writeLE_disjoint m h]

theorem read32_write32_disjoint {v : UInt32} (h : a + 4 ≤ b ∨ b + 4 ≤ a) : read32 (write32 m a v) b = read32 m b := by
  unfold read32 write32
  rw [readLE_writeLE_disjoint m h]

theorem read32_write64_disjoint (h : a + 8 ≤ b ∨ b + 4 ≤ a) : read32 (write64 m a v) b = read32 m b := by
  unfold read32 write64
  rw [readLE_writeLE_disjoint m h]

theorem write64_outside {x : Nat} (h : x < a ∨ a + 8 ≤ x) : write64 m a v x = m x :=
  writeLE_outside m h

/-! ## Words of a byte string -/

def memOf (bytes : List UInt8) : Mem := fun i => bytes.getD i 0

/-- Reads that fault past the end of the bytes. -/
def read16? (bytes : List UInt8) (off : Nat) : Option UInt16 :=
  if off + 2 ≤ bytes.length then some (read16 (memOf bytes) off) else none

def read32? (bytes : List UInt8) (off : Nat) : Option UInt32 :=
  if off + 4 ≤ bytes.length then some (read32 (memOf bytes) off) else none

def read64? (bytes : List UInt8) (off : Nat) : Option UInt64 :=
  if off + 8 ≤ bytes.length then some (read64 (memOf bytes) off) else none

theorem read32?_eq {bytes : List UInt8} {off : Nat} (h : off + 4 ≤ bytes.length) :
    read32? bytes off = some (read32 (memOf bytes) off) := if_pos h

theorem read64?_eq {bytes : List UInt8} {off : Nat} (h : off + 8 ≤ bytes.length) :
    read64? bytes off = some (read64 (memOf bytes) off) := if_pos h

/-! ## Runs of stores at separated addresses -/

def storeAll (m : Mem) (f : Nat → UInt64) (l : List Nat) : Mem := l.foldl (fun m a => write64 m a (f a)) m

/-- Ascending addresses whose 8-byte slots do not overlap. -/
def Separated (l : List Nat) : Prop := l.Pairwise fun a b => a + 8 ≤ b

def InSlots (l : List Nat) (x : Nat) : Prop := ∃ a ∈ l, a ≤ x ∧ x < a + 8

@[simp] theorem storeAll_nil (m : Mem) (f : Nat → UInt64) : storeAll m f [] = m := rfl

@[simp] theorem storeAll_cons (m : Mem) (f : Nat → UInt64) (a : Nat) (l : List Nat) :
    storeAll m f (a :: l) = storeAll (write64 m a (f a)) f l := rfl

variable (f : Nat → UInt64)

theorem storeAll_append (m : Mem) (f : Nat → UInt64) (l l' : List Nat) :
    storeAll m f (l ++ l') = storeAll (storeAll m f l) f l' := by
  simp [storeAll]

theorem storeAll_outside : ∀ (l : List Nat) (m : Mem) (x : Nat), ¬ InSlots l x → storeAll m f l x = m x := by
  intro l
  induction l with
  | nil => intros; rfl
  | cons a l ih =>
    intro m x hx
    have hl : ¬ InSlots l x := fun ⟨b, hb, h⟩ => hx ⟨b, List.mem_cons_of_mem _ hb, h⟩
    have ha : x < a ∨ a + 8 ≤ x := by
      by_contra h
      exact hx ⟨a, List.mem_cons_self, by omega⟩
    rw [storeAll_cons, ih _ _ hl, write64_outside ha]

theorem read64_storeAll_disjoint {l : List Nat} (m : Mem)
    (h : ∀ a ∈ l, a + 8 ≤ b ∨ b + 8 ≤ a) : read64 (storeAll m f l) b = read64 m b := by
  refine read64_congr fun i hi => storeAll_outside f l m _ ?_
  rintro ⟨a, ha, h1, h2⟩
  rcases h a ha with h' | h' <;> omega

theorem read64_storeAll : ∀ {l : List Nat}, Separated l → ∀ (m : Mem), ∀ a ∈ l, read64 (storeAll m f l) a = f a := by
  intro l
  induction l with
  | nil => intro _ _ a ha; cases ha
  | cons b l ih =>
    intro hs m a ha
    obtain ⟨hb, hl⟩ := List.pairwise_cons.mp hs
    rw [storeAll_cons]
    rcases List.mem_cons.mp ha with rfl | ha
    · rw [read64_storeAll_disjoint f _ fun c hc => Or.inr (hb c hc), read64_write64]
    · exact ih hl _ a ha

end Panthera.Lib.Bytes
