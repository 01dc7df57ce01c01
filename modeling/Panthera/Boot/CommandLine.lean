/-
  Panthera.Boot.CommandLine — the kernel's command line
  (`bootx64.c`: `panthera_load_boot_command_line`,
  `panthera_command_line_has_token`).
-/

import Panthera.Boot.DeviceTree

namespace Panthera.Boot

/-! ## Reading `boot-args.txt` -/

/-- `PANTHERA_DEFAULT_BOOT_ARGS` -/
def defaultBootArgs : List UInt8 := (ascii "serial=3 dataconstro=0 kernelmanagerd=0").bytes

/-- The size of `gBootCommandLine`, its NUL included. -/
def commandLineSize : Nat := 1024

/-- One byte of the file: control characters are spaces, and only the first of several spaces
    is kept. The second component is `previous_was_space`. -/
def commandLineStep (st : List UInt8 × Bool) (byte : UInt8) : List UInt8 × Bool :=
  if commandLineSize ≤ st.1.length + 1 then st
  else
    let next := if byte < 0x20 then 0x20 else byte
    if next = 0x20 then if st.2 then st else (st.1 ++ [next], true) else (st.1 ++ [next], false)

/-- The command line that a file with this text gives. -/
def commandLineOf (text : List UInt8) : List UInt8 :=
  let line := ((text.foldl commandLineStep ([], true)).1.reverse.dropWhile (· = 0x20)).reverse
  if line = [] then defaultBootArgs else line

/-! ## Tokens -/

def asciiIsSpace (c : UInt8) : Bool := c = 0x20 ∨ c = 0x09 ∨ c = 0x0d ∨ c = 0x0a

/-- How far two strings agree. -/
def agreement : List UInt8 → List UInt8 → Nat
  | a :: as, b :: bs => if a = b then agreement as bs + 1 else 0
  | _, _ => 0

/-- The loop over the words of the line, with the cursor at the head of `line`. -/
def hasTokenFrom (token : List UInt8) : Nat → List UInt8 → Bool
  | 0, _ => false
  | fuel + 1, line =>
    let start := line.dropWhile asciiIsSpace
    if start = [] then false
    else
      let index := agreement start token
      if index = token.length ∧ index = (start.takeWhile fun c => ¬ asciiIsSpace c).length then true
      else hasTokenFrom token fuel (start.dropWhile fun c => ¬ asciiIsSpace c)

def commandLineHasToken (line token : List UInt8) : Bool :=
  if token = [] then false else hasTokenFrom token (line.length + 1) line

end Panthera.Boot
