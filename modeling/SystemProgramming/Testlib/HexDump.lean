import SystemProgramming.Testlib.Bitmap

/-!
`hex_dump.c`: the text that `hex_dump` prints. Every round of its loop prints a
line and takes at least one byte off the buffer, so the loop ends.
-/

namespace SystemProgramming.Testlib

abbrev Byte := BitVec 8

/-- `ROUND_DOWN (x, step)`. -/
def roundDown (x step : Nat) : Nat := x / step * step

def isprint (byte : Byte) : Bool := 0x20#8 ≤ byte && byte ≤ 0x7e#8

/-- A number printed with `%0*x`: lower case, padded with zeros to the width. -/
def printHex (width n : Nat) : String := String.ofList ((Nat.toDigits 16 n).leftpad width '0')

/-- The same text `n` times. -/
def repeatText (n : Nat) (text : String) : String := String.join (List.replicate n text)

def PER_LINE : Nat := 16

/-- The line for the bytes `line`, the first of them at `ofs`. -/
def hexLine (ofs : Nat) (line : List Byte) (ascii : Bool) : String :=
  let start := ofs % PER_LINE
  let rest := PER_LINE - (start + line.length)
  printHex 8 (roundDown ofs PER_LINE) ++ "  " ++ repeatText start "   " ++
    String.join ((line.zipIdx start).map fun (byte, i) =>
      printHex 2 byte.toNat ++ if i = PER_LINE / 2 - 1 then "-" else " ") ++
    (if ascii then
      repeatText rest "   " ++ "|" ++ repeatText start " " ++
        String.ofList (line.map fun byte =>
          if isprint byte then Char.ofNat byte.toNat else '.') ++
        repeatText rest " " ++ "|"
    else "") ++ "\n"

/-- The bytes of the line that starts at `ofs`. -/
def lineLength (ofs size : Nat) : Nat := min (PER_LINE - ofs % PER_LINE) size

theorem lineLength_pos {size : Nat} (ofs : Nat) (hsize : 0 < size) : 0 < lineLength ofs size := by
  have hmod := Nat.mod_lt ofs (show 0 < PER_LINE by decide)
  exact Nat.lt_min.mpr ⟨Nat.sub_pos_of_lt hmod, hsize⟩

def hexDump (ofs : Nat) (buf : List Byte) (ascii : Bool) : String :=
  match buf with
  | [] => ""
  | byte :: bytes =>
      let n := lineLength ofs (bytes.length + 1)
      hexLine ofs ((byte :: bytes).take n) ascii ++
        hexDump (sizeT (ofs + n)) ((byte :: bytes).drop n) ascii
termination_by buf.length
decreasing_by
  have hpos : 0 < lineLength ofs (bytes.length + 1) := lineLength_pos ofs (Nat.succ_pos _)
  simp only [List.length_drop, List.length_cons]
  omega

end SystemProgramming.Testlib
