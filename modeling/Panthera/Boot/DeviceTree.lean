/-
  Panthera.Boot.DeviceTree — the device tree that the loader makes for the kernel
  (`bootx64.c`: `panthera_dt_append_property`,
  `panthera_dt_append_name`, `panthera_build_synthetic_device_tree`).

  The builder writes the counts of a node before it writes what they count, at an offset
  that only the properties check against the buffer. The grammar is read by `parseTree`.
  Every tree of bounded depth that the grammar can hold is read back from its encoding
  (`reads_node`), the builder fills in the encoding of one tree (`fill_appends`), and that
  tree never needs more than the buffer has (`deviceTree_encode_le`).
-/

import Panthera.Lib.Wire

namespace Panthera.Boot

open Lib.Bytes Lib.Pages Lib.Wire

/-! ## The builder -/

/-- `PantheraDeviceTreeBuffer` -/
structure DeviceTreeBuffer where
  paddr : UInt32
  length : UInt32
  deriving DecidableEq, Repr

def DeviceTreeBuffer.bytes (b : DeviceTreeBuffer) : List UInt8 := le32 b.paddr ++ le32 b.length

def deviceTreeMaxSize : Nat := 65536

def maxBootKexts : Nat := 34

/-- A string constant of the loader. -/
def ascii (s : String) : CString := .of (s.toList.map fun c => c.toNat.toUInt8)

/-- The record `PantheraDTProperty` and the value behind it, which are zeroed, filled in
    and padded. `none` is `EFI_OUT_OF_RESOURCES`. -/
def dtAppendProperty (capacity : Nat) (name : CString) (value : List UInt8) (st : List UInt8 × Nat) :
    Option (List UInt8 × Nat) :=
  let valueSize := UInt32.ofNat value.length
  let propertySize := 36 + roundUp4 valueSize.toNat
  if capacity < st.2 + propertySize then none
  else do
    let buf ← poke? st.1 st.2 (zeros propertySize)
    -- `panthera_copy_ascii` into the 32 bytes of the name
    let buf ← poke? buf st.2 (name.bytes.take 31 ++ [0])
    let buf ← poke? buf (st.2 + 32) (le32 valueSize)
    let buf ← poke? buf (st.2 + 36) value
    some (buf, st.2 + propertySize)

def dtAppendName (capacity : Nat) (name : CString) : List UInt8 × Nat → Option (List UInt8 × Nat) :=
  dtAppendProperty capacity (ascii "name") (name.bytes ++ [0])

/-- A `PantheraDTNode` at the cursor, which is not checked against the capacity. -/
def dtNode (nProperties nChildren : UInt32) (st : List UInt8 × Nat) : Option (List UInt8 × Nat) := do
  let st ← emit (le32 nProperties) 4 st
  emit (le32 nChildren) 4 st

def randomSeed : List UInt8 :=
  [0x50, 0x41, 0x4e, 0x54, 0x48, 0x45, 0x52, 0x41, 0x10, 0x23, 0x45, 0x67, 0x89, 0xab, 0xcd, 0xef,
    0x31, 0x42, 0x53, 0x64, 0x75, 0x86, 0x97, 0xa8, 0xb9, 0xca, 0xdb, 0xec, 0xfd, 0x0e, 0x1f, 0x2a,
    0x5a, 0x4b, 0x3c, 0x2d, 0x1e, 0x0f, 0xf0, 0xe1, 0xd2, 0xc3, 0xb4, 0xa5, 0x96, 0x87, 0x78, 0x69,
    0x55, 0x66, 0x77, 0x88, 0x99, 0xaa, 0xbb, 0xcc] ++ zeros 8

def pciBusInfo : List UInt8 := [0xff, 2, 0, 0, 0x01, 0, 0, 0]

/-- `driver_entry_name` and `device_tree_buffer` of a staged kext. -/
structure KextEntry where
  name : CString
  buffer : DeviceTreeBuffer

/-- The nodes and their properties; the state is the buffer and `offset`. -/
def fillDeviceTree (fsbFrequencyHz : UInt64) (kexts : List KextEntry) (st : List UInt8 × Nat) : Option (List UInt8 × Nat) := do
  let cap := deviceTreeMaxSize
  let st ← dtNode 1 3 st
  let st ← dtAppendName cap (ascii "/") st
  let st ← dtNode 2 1 st
  let st ← dtAppendName cap (ascii "chosen") st
  let st ← dtAppendProperty cap (ascii "random-seed") randomSeed st
  let st ← dtNode (1 + UInt32.ofNat kexts.length) 0 st
  let st ← dtAppendName cap (ascii "memory-map") st
  let st ← kexts.foldlM (fun st (k : KextEntry) => dtAppendProperty cap k.name k.buffer.bytes st) st
  let st ← dtNode 1 1 st
  let st ← dtAppendName cap (ascii "efi") st
  let st ← dtNode 2 0 st
  let st ← dtAppendName cap (ascii "platform") st
  let st ← dtAppendProperty cap (ascii "FSBFrequency") (le64 fsbFrequencyHz) st
  let st ← dtNode 2 0 st
  let st ← dtAppendName cap (ascii "pci") st
  dtAppendProperty cap (ascii "pci-bus-info") pciBusInfo st

/-- The buffer, once it is allocated and zeroed, and `gDeviceTreeSize`. -/
def buildSyntheticDeviceTree (fsbFrequencyHz : UInt64) (kexts : List KextEntry) : Option (List UInt8 × UInt32) :=
  (fillDeviceTree fsbFrequencyHz kexts (zeros deviceTreeMaxSize, 0)).map fun st => (st.1, UInt32.ofNat st.2)

/-! ## The grammar -/

structure Property where
  name : CString
  value : List UInt8
  deriving DecidableEq

inductive Node where
  | mk (props : List Property) (children : List Node)

/-- A name of 32 bytes, a length, and a value in whole words. -/
def parseProperty (bytes : List UInt8) (off : Nat) : Option (Property × Nat) := do
  let name ← cstringAt? ((bytes.drop off).take 32) 0
  let length ← read32? bytes (off + 32)
  if bytes.length < off + 36 + roundUp4 length.toNat then none
  else some (⟨name, (bytes.drop (off + 36)).take length.toNat⟩, off + 36 + roundUp4 length.toNat)

/-- A property count, a child count, the properties and the children. -/
def parseNode : Nat → List UInt8 → Nat → Option (Node × Nat)
  | 0, _, _ => none
  | fuel + 1, bytes, off => do
    let nProperties ← read32? bytes off
    let nChildren ← read32? bytes (off + 4)
    let props ← many (parseProperty bytes) nProperties.toNat (off + 4 + 4)
    let children ← many (parseNode fuel bytes) nChildren.toNat props.2
    some (.mk props.1 children.1, children.2)

/-- The nodes lie inside one another by less than there are bytes. -/
def parseTree (bytes : List UInt8) : Option (Node × Nat) := parseNode bytes.length bytes 0

/-- The 32 bytes of a name. -/
def nameField (name : CString) : List UInt8 := name.bytes ++ zeros (32 - name.bytes.length)

def Property.encode (p : Property) : List UInt8 :=
  nameField p.name ++ (le32 (UInt32.ofNat p.value.length) ++ padded p.value)

mutual

def Node.encode : Node → List UInt8
  | .mk props children => le32 (UInt32.ofNat props.length) ++ (le32 (UInt32.ofNat children.length) ++
      (props.flatMap Property.encode ++ Node.encodeAll children))

def Node.encodeAll : List Node → List UInt8
  | [] => []
  | n :: ns => n.encode ++ Node.encodeAll ns

end

theorem encodeAll_eq (ns : List Node) : Node.encodeAll ns = ns.flatMap Node.encode := by
  induction ns with
  | nil => rfl
  | cons n ns ih => rw [Node.encodeAll, ih, List.flatMap_cons]

/-- A property that the grammar can hold. -/
structure Property.Ok (p : Property) : Prop where
  name_le : p.name.bytes.length ≤ 31
  value_lt : p.value.length + 3 < 2 ^ 32

/-! ## Reading back -/

variable {p : Property} {name : CString}

theorem Property.Ok.length_toNat (h : p.Ok) : (UInt32.ofNat p.value.length).toNat = p.value.length := by
  have := h.value_lt
  rw [UInt32.toNat_ofNat']
  omega

theorem nameField_length (h : name.bytes.length ≤ 31) : (nameField name).length = 32 := by
  simp [nameField]
  omega

theorem nameField_eq (h : name.bytes.length ≤ 31) : nameField name = name.bytes ++ 0 :: zeros (31 - name.bytes.length) := by
  rw [nameField, show 32 - name.bytes.length = 1 + (31 - name.bytes.length) by omega, zeros_add]
  rfl

theorem Property.Ok.encode_length (h : p.Ok) : p.encode.length = 36 + roundUp4 p.value.length := by
  simp [Property.encode, nameField_length h.name_le]
  omega

theorem reads_property (h : p.Ok) : Reads parseProperty p.encode p := by
  intro bytes off rest hat
  have hlen := hat.length
  rw [List.length_append, h.encode_length] at hlen
  rw [h.encode_length]
  rw [Property.encode, List.append_assoc, List.append_assoc] at hat
  have htake : (bytes.drop off).take 32 = nameField p.name := by
    rw [hat.drop]
    exact List.take_left' (nameField_length h.name_le)
  have hname : cstringAt? (nameField p.name) 0 = some p.name := by
    rw [nameField_eq h.name_le]
    exact (At.start _).cstring
  have hword := hat.skip
  rw [nameField_length h.name_le] at hword
  have hvalue := hword.skip
  rw [le32_length, padded, List.append_assoc] at hvalue
  have hdrop : (bytes.drop (off + 32 + 4)).take p.value.length = p.value := by
    rw [hvalue.drop]
    exact List.take_left
  simp only [parseProperty, htake, hname, hword.read32, h.length_toNat, Option.bind_eq_bind, Option.bind_some]
  rw [if_neg (by omega), hdrop, Nat.add_assoc]

/-- A tree of at most `depth` levels that the grammar can hold. -/
def Node.Ok : Nat → Node → Prop
  | 0, _ => False
  | depth + 1, .mk props children =>
    (∀ p ∈ props, p.Ok) ∧ props.length < 2 ^ 32 ∧ children.length < 2 ^ 32 ∧ ∀ c ∈ children, c.Ok depth

theorem reads_node {depth : Nat} {n : Node} (h : n.Ok depth) : Reads (parseNode depth) n.encode n := by
  induction depth generalizing n with
  | zero => exact h.elim
  | succ depth ih =>
    obtain ⟨props, children⟩ := n
    obtain ⟨hprops, hnprops, hnchildren, hchildren⟩ := h
    intro bytes off rest hat
    have hp := Reads.many fun p hp => reads_property (hprops p hp)
    have hc : Reads (fun bytes => many (parseNode depth bytes) children.length) (children.flatMap Node.encode) children :=
      Reads.many fun c hc => ih (hchildren c hc)
    have hn : ∀ {n : Nat}, n < 2 ^ 32 → (UInt32.ofNat n).toNat = n := fun h => by
      rw [UInt32.toNat_ofNat', Nat.mod_eq_of_lt h]
    rw [Node.encode, encodeAll_eq] at hat ⊢
    simp only [List.append_assoc] at hat
    have hcount := hat.skip
    have hpfield := hcount.skip
    simp only [le32_length] at hcount hpfield
    have hprops := hp bytes _ _ hpfield
    have hchildren := hc bytes _ _ hpfield.skip
    simp only at hprops hchildren
    simp only [parseNode, hat.read32, hcount.read32, hn hnprops, hn hnchildren, hprops, hchildren, Option.bind_eq_bind,
      Option.bind_some, List.length_append, le32_length]
    congr 2
    omega

/-! ## Filling in -/

theorem dtNode_appends (nProperties nChildren : UInt32) {cap : Nat} :
    Appends cap (dtNode nProperties nChildren) (le32 nProperties ++ le32 nChildren) :=
  (Appends.word _).bind (Appends.word _)

theorem dtAppendProperty_appends {cap : Nat} {value : List UInt8} (h : Property.Ok ⟨name, value⟩) :
    Appends cap (dtAppendProperty cap name value) (Property.encode ⟨name, value⟩) := by
  have hname : name.bytes.length ≤ 31 := h.name_le
  have hsize : (UInt32.ofNat value.length).toNat = value.length := h.length_toNat
  have hlen : (Property.encode ⟨name, value⟩).length = 36 + roundUp4 value.length := h.encode_length
  have hfields : Appends cap (fun st => (emit (name.bytes.take 31 ++ [0]) 32 st).bind fun st =>
      (emit (le32 (UInt32.ofNat value.length)) 4 st).bind fun st => emit value (roundUp4 value.length) st)
      (Property.encode ⟨name, value⟩) := by
    have hfield : nameField name = (name.bytes.take 31 ++ [0]) ++ zeros (32 - (name.bytes.take 31 ++ [0]).length) := by
      rw [List.take_of_length_le hname, nameField_eq hname]
      simp
    rw [Property.encode, hfield]
    exact (Appends.emit (by simp)).bind ((Appends.word _).bind (Appends.emit (le_roundUp4 _)))
  intro done room hcap
  have hall := hfields done room hcap
  rw [hlen] at hcap hall ⊢
  simp only [dtAppendProperty, hsize, poke?_zeros, Option.bind_eq_bind, Option.bind_some]
  rw [if_neg (by omega), ← hall]
  have hsum : 32 + (4 + roundUp4 value.length) = 36 + roundUp4 value.length := by omega
  simp only [emit, Option.map_eq_bind, Option.bind_assoc, Option.bind_some, Function.comp_def, Nat.add_assoc, Nat.reduceAdd, hsum]

/-! ## The tree -/

def named (name : CString) : Property := ⟨ascii "name", name.bytes ++ [0]⟩

/-- What the loader tells the kernel. -/
def deviceTree (fsbFrequencyHz : UInt64) (kexts : List KextEntry) : Node :=
  .mk [named (ascii "/")]
    [.mk [named (ascii "chosen"), ⟨ascii "random-seed", randomSeed⟩]
        [.mk (named (ascii "memory-map") :: kexts.map fun k => ⟨k.name, k.buffer.bytes⟩) []],
      .mk [named (ascii "efi")] [.mk [named (ascii "platform"), ⟨ascii "FSBFrequency", le64 fsbFrequencyHz⟩] []],
      .mk [named (ascii "pci"), ⟨ascii "pci-bus-info", pciBusInfo⟩] []]

theorem named_ok (h : name.bytes.length ≤ 31) : (named name).Ok where
  name_le := show (ascii "name").bytes.length ≤ 31 by decide
  value_lt := by
    simp [named]
    omega

theorem kext_ok {k : KextEntry} (h : k.name.bytes.length ≤ 31) : Property.Ok ⟨k.name, k.buffer.bytes⟩ :=
  ⟨h, by simp [DeviceTreeBuffer.bytes]⟩

theorem randomSeed_ok : Property.Ok ⟨ascii "random-seed", randomSeed⟩ := ⟨by decide, by decide⟩

theorem fsb_ok (fsbFrequencyHz : UInt64) : Property.Ok ⟨ascii "FSBFrequency", le64 fsbFrequencyHz⟩ :=
  ⟨show (ascii "FSBFrequency").bytes.length ≤ 31 by decide, by simp⟩

theorem pciBusInfo_ok : Property.Ok ⟨ascii "pci-bus-info", pciBusInfo⟩ := ⟨by decide, by decide⟩

/-- Every value is short, so that the tree is far from filling the buffer. -/
theorem Property.Ok.encode_le (h : p.Ok) (hvalue : p.value.length ≤ 64) : p.encode.length ≤ 100 := by
  rw [h.encode_length, roundUp4]
  omega

section Fill

variable (fsbFrequencyHz : UInt64) {kexts : List KextEntry} (hcount : kexts.length ≤ maxBootKexts)
  (hnames : ∀ k ∈ kexts, k.name.bytes.length ≤ 31)
include hnames

theorem fill_appends :
    Appends deviceTreeMaxSize (fillDeviceTree fsbFrequencyHz kexts) (deviceTree fsbFrequencyHz kexts).encode := by
  have hname : ∀ name : CString, name.bytes.length ≤ 31 →
      Appends deviceTreeMaxSize (dtAppendName deviceTreeMaxSize name) (named name).encode := fun name h =>
    dtAppendProperty_appends (named_ok h)
  have hkexts : Appends deviceTreeMaxSize
      (fun st => kexts.foldlM (fun st (k : KextEntry) => dtAppendProperty deviceTreeMaxSize k.name k.buffer.bytes st) st)
      (kexts.flatMap fun k => Property.encode ⟨k.name, k.buffer.bytes⟩) :=
    Appends.foldlM fun k hk => dtAppendProperty_appends (kext_ok (hnames k hk))
  have hcount : UInt32.ofNat (kexts.length + 1) = 1 + UInt32.ofNat kexts.length := by
    rw [UInt32.ofNat_add, UInt32.add_comm]
    rfl
  have hchain : Appends deviceTreeMaxSize (fillDeviceTree fsbFrequencyHz kexts) _ :=
    (dtNode_appends 1 3).bind ((hname (ascii "/") (by decide)).bind ((dtNode_appends 2 1).bind
      ((hname (ascii "chosen") (by decide)).bind ((dtAppendProperty_appends randomSeed_ok).bind
      ((dtNode_appends (1 + UInt32.ofNat kexts.length) 0).bind ((hname (ascii "memory-map") (by decide)).bind
      (hkexts.bind ((dtNode_appends 1 1).bind ((hname (ascii "efi") (by decide)).bind ((dtNode_appends 2 0).bind
      ((hname (ascii "platform") (by decide)).bind ((dtAppendProperty_appends (fsb_ok fsbFrequencyHz)).bind
      ((dtNode_appends 2 0).bind ((hname (ascii "pci") (by decide)).bind
        (dtAppendProperty_appends pciBusInfo_ok)))))))))))))))
  have hzero : UInt32.ofNat 0 = 0 := rfl
  have hone : UInt32.ofNat (0 + 1) = 1 := rfl
  have htwo : UInt32.ofNat (0 + 1 + 1) = 2 := rfl
  have hthree : UInt32.ofNat (0 + 1 + 1 + 1) = 3 := rfl
  simpa only [deviceTree, Node.encode, Node.encodeAll, List.flatMap_cons, List.flatMap_nil, List.flatMap_map, List.length_cons,
    List.length_nil, List.length_map, hzero, hone, htwo, hthree, hcount, List.append_assoc, List.append_nil,
    List.nil_append] using hchain

include hcount

theorem deviceTree_encode_le : (deviceTree fsbFrequencyHz kexts).encode.length ≤ deviceTreeMaxSize := by
  have hname : ∀ name : CString, name.bytes.length ≤ 31 → (named name).encode.length ≤ 100 := fun name h =>
    (named_ok h).encode_le (by simp [named]; omega)
  have hkexts : (kexts.flatMap fun k => Property.encode ⟨k.name, k.buffer.bytes⟩).length ≤ 100 * kexts.length := by
    clear hcount
    induction kexts with
    | nil => simp
    | cons k kexts ih =>
      have hk := (kext_ok (hnames k List.mem_cons_self)).encode_le (by simp [DeviceTreeBuffer.bytes])
      have hrest := ih fun k hk => hnames k (List.mem_cons_of_mem _ hk)
      simp only [List.flatMap_cons, List.length_append, List.length_cons]
      omega
  have hseed := randomSeed_ok.encode_le (by decide)
  have hfsb := (fsb_ok fsbFrequencyHz).encode_le (by simp)
  have hpci := pciBusInfo_ok.encode_le (by decide)
  have hroot := hname (ascii "/") (by decide)
  have hchosen := hname (ascii "chosen") (by decide)
  have hmap := hname (ascii "memory-map") (by decide)
  have hefi := hname (ascii "efi") (by decide)
  have hplatform := hname (ascii "platform") (by decide)
  have hbus := hname (ascii "pci") (by decide)
  simp only [deviceTree, Node.encode, Node.encodeAll, List.flatMap_cons, List.flatMap_nil, List.flatMap_map,
    List.length_append, le32_length, List.length_nil, deviceTreeMaxSize, maxBootKexts] at hcount ⊢
  omega

theorem deviceTree_ok (depth : Nat) : (deviceTree fsbFrequencyHz kexts).Ok (depth + 3) := by
  have hkexts : ∀ p ∈ kexts.map (fun k => (⟨k.name, k.buffer.bytes⟩ : Property)), p.Ok := by
    intro p hp
    obtain ⟨k, hk, rfl⟩ := List.mem_map.mp hp
    exact kext_ok (hnames k hk)
  have hlen : kexts.length + 1 < 2 ^ 32 := by
    simp only [maxBootKexts] at hcount
    omega
  have hname : ∀ name : CString, name.bytes.length ≤ 31 → (named name).Ok := fun _ => named_ok
  simp only [deviceTree, Node.Ok, List.forall_mem_cons, List.not_mem_nil, false_imp_iff, implies_true, and_true,
    List.length_cons, List.length_nil, List.length_map]
  refine ⟨hname _ (by decide), by decide, by decide, ⟨⟨hname _ (by decide), randomSeed_ok⟩, by decide, by decide,
    ⟨hname _ (by decide), hkexts⟩, hlen, by decide⟩, ⟨hname _ (by decide), by decide, by decide,
    ⟨hname _ (by decide), fsb_ok _⟩, by decide, by decide⟩, ⟨hname _ (by decide), pciBusInfo_ok⟩, by decide, by decide⟩

/-- What the builder leaves in the buffer, and the size it returns. -/
theorem buildSyntheticDeviceTree_eq :
    buildSyntheticDeviceTree fsbFrequencyHz kexts = some ((deviceTree fsbFrequencyHz kexts).encode ++
      zeros (deviceTreeMaxSize - (deviceTree fsbFrequencyHz kexts).encode.length),
      UInt32.ofNat (deviceTree fsbFrequencyHz kexts).encode.length) := by
  have hfill := (fill_appends fsbFrequencyHz hnames).start (deviceTree_encode_le fsbFrequencyHz hcount hnames)
  rw [buildSyntheticDeviceTree, hfill, Option.map_some]

end Fill

/-- The builder never runs out of room, and what it leaves in the buffer is read back as the
    tree it was to hold: three children of the root, and a property of `memory-map` for every
    kext that was staged. -/
theorem device_tree_parses (fsbFrequencyHz : UInt64) (kexts : List KextEntry) (hcount : kexts.length ≤ maxBootKexts)
    (hnames : ∀ k ∈ kexts, k.name.bytes.length ≤ 31) :
    ∃ buf size, buildSyntheticDeviceTree fsbFrequencyHz kexts = some (buf, size) ∧ size.toNat ≤ deviceTreeMaxSize ∧
      parseTree buf = some (deviceTree fsbFrequencyHz kexts, size.toNat) := by
  have hle := deviceTree_encode_le fsbFrequencyHz hcount hnames
  have hsize : (UInt32.ofNat (deviceTree fsbFrequencyHz kexts).encode.length).toNat =
      (deviceTree fsbFrequencyHz kexts).encode.length := by
    rw [UInt32.toNat_ofNat', Nat.mod_eq_of_lt]
    exact Nat.lt_of_le_of_lt hle (by decide)
  refine ⟨_, _, buildSyntheticDeviceTree_eq fsbFrequencyHz hcount hnames, by rwa [hsize], ?_⟩
  have hlen : ((deviceTree fsbFrequencyHz kexts).encode ++
      zeros (deviceTreeMaxSize - (deviceTree fsbFrequencyHz kexts).encode.length)).length = 65533 + 3 := by
    rw [List.length_append, zeros_length, Nat.add_sub_cancel' hle]
    rfl
  rw [parseTree, hlen, hsize, reads_node (deviceTree_ok fsbFrequencyHz hcount hnames 65533) _ _ _ (At.start _), Nat.zero_add]

def twoKexts : List KextEntry := [⟨ascii "Driver-500000", ⟨0x500000, 0x24⟩⟩, ⟨ascii "Driver-600000", ⟨0x600000, 0x24⟩⟩]

theorem device_tree_parses_sample : ∃ buf size, buildSyntheticDeviceTree 200000000 twoKexts = some (buf, size) ∧
    size.toNat ≤ deviceTreeMaxSize ∧ parseTree buf = some (deviceTree 200000000 twoKexts, size.toNat) :=
  device_tree_parses 200000000 twoKexts (by decide) (by decide)

end Panthera.Boot
