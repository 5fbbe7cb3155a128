import Mcincos.Library.Words

namespace Mcincos.Print

def ascii (c : Char) : BitVec 8 := BitVec.ofNat 8 c.toNat

structure CString where
  chars : List (BitVec 8)
  nonzero : ∀ c ∈ chars, c ≠ 0

/-- The characters from a pointer to the end of its string; `some []` points at the NUL, `none` past it. -/
abbrev Cursor := Option (List (BitVec 8))

inductive PrintFault
  | pastEnd
  | endless
  deriving DecidableEq

def deref : Cursor → Except PrintFault (BitVec 8)
  | none => .error .pastEnd
  | some [] => .ok 0
  | some (c :: _) => .ok c

def advance : Cursor → Cursor
  | none => none
  | some [] => none
  | some (_ :: cs) => some cs

/-- The words that `va_arg` takes one after the other. -/
abbrev VaList := ℕ → U64

def VaList.rest (args : VaList) : VaList := fun i => args (i + 1)

def digitChar (upper : Bool) (d : U64) : BitVec 8 :=
  (if d < 10 then 48 + d else (if upper then 65 else 97) + (d - 10)).setWidth 8

def uintDigits (base : U64) (upper : Bool) : ℕ → U64 → List (BitVec 8)
  | 0, _ => []
  | n + 1, v => if v = 0 then [] else digitChar upper (v % base) :: uintDigits base upper n (v / base)

def printUint (v base : U64) (width : BitVec 32) (pad : BitVec 8) (upper : Bool) : List (BitVec 8) :=
  let buf := if v = 0 then [ascii '0'] else uintDigits base upper 64 v
  List.replicate (width.toInt - buf.length).toNat pad ++ buf.reverse

def printInt (v base : U64) : List (BitVec 8) :=
  if v.slt 0 then ascii '-' :: printUint (((-v).setWidth 8).setWidth 64) base 0 (ascii ' ') false
  else printUint v base 0 (ascii ' ') false

def isDigit (c : BitVec 8) : Bool := ascii '0' ≤ c ∧ c ≤ ascii '9'

def scanFlag (fmt : Cursor) : Except PrintFault (BitVec 8 × Cursor) := do
  let c ← deref fmt
  return if c = ascii '0' then (0, advance fmt) else (ascii ' ', fmt)

def scanDigits (width : BitVec 32) : List (BitVec 8) → BitVec 32 × List (BitVec 8)
  | [] => (width, [])
  | c :: cs =>
    if isDigit c then scanDigits (width * 10 + (c - ascii '0').setWidth 32) cs else (width, c :: cs)

def scanWidth : Cursor → Except PrintFault (BitVec 32 × Cursor)
  | none => .error .pastEnd
  | some cs => .ok ((scanDigits 0 cs).1, some (scanDigits 0 cs).2)

variable (str : U64 → CString)

def stringAt (p : U64) : List (BitVec 8) :=
  if p = 0 then "(null)".toList.map ascii else (str p).chars

/-- The `l` of a conversion, which prints only before `lx` and `lu`. -/
def convertLong (pad : BitVec 8) (width : BitVec 32) (fmt : Cursor) (args : VaList) :
    Except PrintFault (List (BitVec 8) × Cursor × VaList) := do
  let second ← deref (advance fmt)
  if second = ascii 'l' then
    let fmt := advance fmt
    let third ← deref (advance fmt)
    if third = ascii 'x' then return (printUint (args 0) 16 width pad false, advance fmt, args.rest)
    else if third = ascii 'u' then return (printUint (args 0) 10 width pad false, advance fmt, args.rest)
    else return ([], fmt, args)
  else return ([], fmt, args)

def convert (pad : BitVec 8) (width : BitVec 32) (fmt : Cursor) (args : VaList) :
    Except PrintFault (List (BitVec 8) × Cursor × VaList) := do
  let c ← deref fmt
  let int := (args 0).setWidth 32
  if c = ascii 'c' then return ([int.setWidth 8], fmt, args.rest)
  else if c = ascii 's' then return (stringAt str (args 0), fmt, args.rest)
  else if c = ascii 'd' ∨ c = ascii 'i' then return (printInt (int.signExtend 64) 10, fmt, args.rest)
  else if c = ascii 'u' then return (printUint (int.setWidth 64) 10 width pad false, fmt, args.rest)
  else if c = ascii 'x' then return (printUint (int.setWidth 64) 16 width pad false, fmt, args.rest)
  else if c = ascii 'X' then return (printUint (int.setWidth 64) 16 width pad true, fmt, args.rest)
  else if c = ascii 'p' then
    return ([ascii '0', ascii 'x'] ++ printUint (args 0) 16 16 (ascii '0') false, fmt, args.rest)
  else if c = ascii 'l' then convertLong pad width fmt args
  else if c = ascii '%' then return ([ascii '%'], fmt, args)
  else return ([ascii '%', c], fmt, args)

def kvprintf : ℕ → Cursor → VaList → Except PrintFault (List (BitVec 8) × Cursor)
  | 0, _, _ => .error .endless
  | fuel + 1, fmt, args => do
    let c ← deref fmt
    if c = 0 then return ([], fmt)
    else if c ≠ ascii '%' then
      let (out, stop) ← kvprintf fuel (advance fmt) args
      return (c :: out, stop)
    else
      let (pad, fmt) ← scanFlag (advance fmt)
      let (width, fmt) ← scanWidth fmt
      let (text, fmt, args) ← convert str pad width fmt args
      let (out, stop) ← kvprintf fuel (advance fmt) args
      return (text ++ out, stop)

end Mcincos.Print
