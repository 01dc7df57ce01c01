/-
  Panthera.MachO.Image — the Mach-O data both programs read: the shared cache builder
  (`build_shared_cache_real.c`) from a mapped file, dyld
  (`panthera_dyld.cpp`) from a loaded image.

  Load commands are structured and well formed: every command lies inside
  `sizeofcmds` and every dylib name is terminated inside its command. What a command
  points at in `__LINKEDIT` is carried by the command itself: the symbol table as its
  `nlist_64` records and the string bytes that follow `stroff`, an opcode stream or an
  export trie as its bytes. C strings are byte lists without their terminator.
-/

import Mathlib.Tactic

namespace Panthera.MachO

abbrev CStr := List UInt8

def cstr (s : String) : CStr := s.toList.map fun c => c.toNat.toUInt8

def slash : UInt8 := 0x2F

/-- The C string that starts at `off`: the bytes up to the next NUL. -/
def cstrAt (bytes : List UInt8) (off : Nat) : CStr := (bytes.drop off).takeWhile (· ≠ 0)

/-- A string that ends within the first `n` bytes is the same without the others. -/
theorem cstrAt_take {bytes : List UInt8} {n off : Nat} (h : 0 ∈ (bytes.take n).drop off) :
    cstrAt ((bytes.take n).drop off) 0 = cstrAt bytes off := by
  have hle : off ≤ (bytes.take n).length := by
    by_contra hgt
    rw [List.drop_eq_nil_of_le (by omega)] at h
    cases h
  unfold cstrAt
  rw [List.drop_zero]
  conv_rhs => rw [← List.take_append_drop n bytes, List.drop_append_of_le_length hle, List.takeWhile_append]
  refine (if_neg fun hall => ?_).symm
  -- the terminator is there, so the string does not fill what is left
  have heq := (List.takeWhile_prefix (fun b : UInt8 => decide (b ≠ 0))).eq_of_length hall
  rw [← heq] at h
  have := List.all_eq_true.mp List.all_takeWhile _ h
  simp at this

def basenameFrom (base : CStr) : CStr → CStr
  | [] => base
  | c :: r => if c = slash then basenameFrom r r else basenameFrom base r

/-- dyld's `_basename`: what follows the last slash, or the whole path. -/
def basename (path : CStr) : CStr := basenameFrom path path

/-- The commands that name another dylib. -/
inductive DylibKind where
  | load
  | loadWeak
  | reexport
  | loadUpward
  | lazyLoad
  deriving DecidableEq, Repr

structure Section64 where
  sectname : CStr
  addr : UInt64
  size : UInt64
  flags : UInt32
  /-- The size of a stub, in a section of stubs. -/
  reserved2 : UInt32
  deriving DecidableEq, Repr

def Section64.type (s : Section64) : UInt32 := s.flags &&& 0xFF

structure Segment where
  segname : CStr
  vmaddr : UInt64
  vmsize : UInt64
  fileoff : UInt64
  filesize : UInt64
  initprot : UInt32
  sections : List Section64
  deriving DecidableEq, Repr

structure Nlist where
  strx : UInt32
  type : UInt8
  desc : UInt16
  value : UInt64
  deriving DecidableEq, Repr

/-- `N_TYPE` is not `N_UNDF`: the symbol is defined here. -/
def Nlist.defined (s : Nlist) : Bool := s.type &&& 0x0E != 0

def Nlist.external (s : Nlist) : Bool := s.type &&& 0x01 != 0

/-- `N_WEAK_DEF`. -/
def Nlist.weakDef (s : Nlist) : Bool := s.desc &&& 0x0080 != 0

/-- `LC_SYMTAB` and what it points at. `strtab` holds every mapped byte from `stroff`
    on, so a name that is not terminated within `strsize` runs on as it does in C. -/
structure SymTab where
  symoff : UInt32
  syms : List Nlist
  strtab : List UInt8
  strsize : UInt32
  deriving DecidableEq, Repr

/-- An opcode stream: the mapped bytes from its start on, of which the first `size`
    are the stream. A ULEB128 operand may run past them. -/
structure Stream where
  bytes : List UInt8
  size : UInt32
  inFile : size.toNat ≤ bytes.length := by decide
  deriving DecidableEq, Repr

def Stream.empty : Stream := { bytes := [], size := 0 }

structure DyldInfo where
  rebase : Stream
  bind : Stream
  lazyBind : Stream
  exportOff : UInt32
  exportTrie : List UInt8
  deriving DecidableEq, Repr

/-- A `linkedit_data_command`: the mapped bytes from `dataoff` on, of which the first
    `datasize` are its data. -/
structure LinkeditData where
  dataoff : UInt32
  datasize : UInt32
  bytes : List UInt8
  inFile : datasize.toNat ≤ bytes.length := by decide
  deriving DecidableEq, Repr

inductive LoadCommand where
  | segment (seg : Segment)
  | dylib (kind : DylibKind) (name : CStr)
  | idDylib (name : CStr)
  | symtab (st : SymTab)
  | dyldInfo (info : DyldInfo)
  | chainedFixups (ld : LinkeditData)
  | exportsTrie (ld : LinkeditData)
  | main (entryoff : UInt64)
  | unixThread (rip : UInt64)
  | other
  deriving DecidableEq, Repr

def segText : CStr := cstr "__TEXT"
def segLinkedit : CStr := cstr "__LINKEDIT"

def segmentsOf (cmds : List LoadCommand) : List Segment :=
  cmds.filterMap fun
    | .segment s => some s
    | _ => none

/-- `findSegment`: the first segment of that name. -/
def findSegment (cmds : List LoadCommand) (name : CStr) : Option Segment :=
  (segmentsOf cmds).find? (·.segname == name)

/-- The last `LC_SYMTAB`: both programs overwrite what an earlier one gave. -/
def lastSymtab (cmds : List LoadCommand) : Option SymTab :=
  cmds.foldl (fun r c => match c with | .symtab st => some st | _ => r) none

/-- The three kinds both programs follow and count ordinals over. -/
def DylibKind.counted : DylibKind → Bool
  | .load | .loadWeak | .reexport => true
  | .loadUpward | .lazyLoad => false

/-- The names of the dylib commands of the kinds `p`, in file order. -/
def dylibNames (p : DylibKind → Bool) (cmds : List LoadCommand) : List CStr :=
  cmds.filterMap fun
    | .dylib k n => if p k then some n else none
    | _ => none

def dependencies (cmds : List LoadCommand) : List CStr := dylibNames DylibKind.counted cmds

def reexports (cmds : List LoadCommand) : List CStr := dylibNames (· == .reexport) cmds

end Panthera.MachO
