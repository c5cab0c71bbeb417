import Mathlib.Data.List.ReduceOption
import SystemProgramming.Testlib.HexDump

/-!
What can be read off a hex dump. A line of `hex_dump` without the characters is
a label, two blanks and a cell of three characters for each column; the cells in
front of the first byte are blank. A reader who takes the cells of all lines
together gets the bytes of the buffer.
-/

namespace SystemProgramming.Testlib

/-! ### The reader -/

def hexValue (c : Char) : Option Nat :=
  if '0' ≤ c ∧ c ≤ '9' then some (c.toNat - '0'.toNat)
  else if 'a' ≤ c ∧ c ≤ 'f' then some (c.toNat - 'a'.toNat + 10)
  else none

def readByte (high low : Char) : Option Byte := do
  return .ofNat 8 (16 * (← hexValue high) + (← hexValue low))

/-- The cells of a line, those without a byte too. -/
def readCells : List Char → List (Option Byte)
  | high :: low :: _ :: rest => readByte high low :: readCells rest
  | _ => []

/-- The cells of a line behind its label. -/
def readLine (line : List Char) : List (Option Byte) :=
  readCells ((line.dropWhile fun c => (hexValue c).isSome).drop 2)

def readDump (text : String) : List Byte :=
  (text.toList.splitOn '\n').flatMap fun line => (readLine line).reduceOption

/-! ### What it makes of a line -/

theorem hexValue_digitChar : ∀ d < 16, hexValue d.digitChar = some d := by decide

theorem hexValue_of_mem_toDigits {c : Char} {n : Nat} (hc : c ∈ Nat.toDigits 16 n) :
    (hexValue c).isSome = true := by
  induction n using Nat.strongRecOn with
  | _ n ih =>
      rw [Nat.toDigits_eq_if (by decide)] at hc
      split at hc
      · next hlt =>
          rw [List.mem_singleton.mp hc, hexValue_digitChar n hlt]
          rfl
      · rcases List.mem_append.mp hc with hc | hc
        · exact ih (n / 16) (by omega) hc
        · rw [List.mem_singleton.mp hc, hexValue_digitChar _ (Nat.mod_lt n (by decide))]
          rfl

/-- A byte is printed with two digits. -/
theorem printHex_two {n : Nat} (hn : n < 256) :
    (printHex 2 n).toList = [(n / 16).digitChar, (n % 16).digitChar] := by
  rw [printHex, String.toList_ofList, Nat.toDigits_eq_if (by decide)]
  split
  · next hlt =>
      rw [Nat.div_eq_of_lt hlt, Nat.mod_eq_of_lt hlt]
      rfl
  · rw [Nat.toDigits_of_lt_base (by omega)]
    rfl

theorem readByte_digits (byte : Byte) :
    readByte (byte.toNat / 16).digitChar (byte.toNat % 16).digitChar = some byte := by
  have hlt := byte.isLt
  rw [readByte, hexValue_digitChar _ (by omega), hexValue_digitChar _ (Nat.mod_lt _ (by decide))]
  change some (BitVec.ofNat 8 _) = _
  rw [Nat.div_add_mod, BitVec.ofNat_toNat, BitVec.setWidth_eq]

/-- The characters of a cell. -/
def cell (byte : Byte) (i : Nat) : String :=
  printHex 2 byte.toNat ++ if i = PER_LINE / 2 - 1 then "-" else " "

theorem toList_cell (byte : Byte) (i : Nat) : (cell byte i).toList =
    [(byte.toNat / 16).digitChar, (byte.toNat % 16).digitChar,
      if i = PER_LINE / 2 - 1 then '-' else ' '] := by
  rw [cell, String.toList_append, printHex_two byte.isLt]
  split <;> rfl

def cells (line : List (Byte × Nat)) : List Char := line.flatMap fun p => (cell p.1 p.2).toList

theorem readCells_cells (line : List (Byte × Nat)) (rest : List Char) :
    readCells (cells line ++ rest) = (line.map Prod.fst).map some ++ readCells rest := by
  induction line with
  | nil => rfl
  | cons p line ih =>
      rw [cells, List.flatMap_cons, toList_cell, ← cells]
      simp only [List.cons_append, List.nil_append, readCells, readByte_digits, ih, List.map_cons]

theorem readCells_blanks (n : Nat) (rest : List Char) :
    readCells ((repeatText n "   ").toList ++ rest) = List.replicate n none ++ readCells rest := by
  induction n with
  | zero => rfl
  | succ n ih =>
      have hcons : (repeatText (n + 1) "   ").toList =
          ' ' :: ' ' :: ' ' :: (repeatText n "   ").toList := by
        rw [repeatText, List.replicate_succ, String.join_cons, String.toList_append]
        rfl
      rw [hcons]
      simp only [List.cons_append, readCells, ih, List.replicate_succ]
      rfl

/-- A line in front of its end. -/
def lineText (ofs : Nat) (line : List Byte) : List Char :=
  (printHex 8 (roundDown ofs PER_LINE)).toList ++ ' ' :: ' ' ::
    ((repeatText (ofs % PER_LINE) "   ").toList ++ cells (line.zipIdx (ofs % PER_LINE)))

theorem toList_join_cells (line : List (Byte × Nat)) :
    (String.join (line.map fun p => cell p.1 p.2)).toList = cells line := by
  rw [String.toList_join, List.flatMap_map, cells]

theorem toList_hexLine (ofs : Nat) (line : List Byte) :
    (hexLine ofs line false).toList = lineText ofs line ++ ['\n'] := by
  rw [lineText, ← toList_join_cells]
  simp [hexLine, cell]

theorem hexValue_of_mem_printHex {c : Char} {width n : Nat} (hc : c ∈ (printHex width n).toList) :
    (hexValue c).isSome = true := by
  rw [printHex, String.toList_ofList, List.leftpad, List.mem_append] at hc
  rcases hc with hc | hc
  · rw [List.eq_of_mem_replicate hc]
    rfl
  · exact hexValue_of_mem_toDigits hc

theorem notMem_repeatText {c : Char} {text : String} (hc : c ∉ text.toList) (n : Nat) :
    c ∉ (repeatText n text).toList := by
  rw [repeatText, String.toList_join, List.mem_flatMap]
  rintro ⟨copy, hcopy, h⟩
  exact hc (List.eq_of_mem_replicate hcopy ▸ h)

theorem newline_notMem_lineText (ofs : Nat) (line : List Byte) : '\n' ∉ lineText ofs line := by
  have hcell (byte : Byte) (i : Nat) : '\n' ∉ (cell byte i).toList := by
    rw [cell, String.toList_append, List.mem_append]
    rintro (h | h)
    · exact absurd (hexValue_of_mem_printHex h) (by decide)
    · revert h
      split <;> decide
  have hblank (n : Nat) : '\n' ∉ (repeatText n "   ").toList :=
    notMem_repeatText (by decide) n
  simp only [lineText, cells, List.mem_append, List.mem_cons, List.mem_flatMap]
  rintro (h | h | h | h | ⟨p, _, h⟩)
  · exact absurd (hexValue_of_mem_printHex h) (by decide)
  · exact absurd h (by decide)
  · exact absurd h (by decide)
  · exact hblank _ h
  · exact hcell _ _ h

/-- The cells of a line: blanks in front, then the bytes. -/
theorem readLine_lineText (ofs : Nat) (line : List Byte) :
    readLine (lineText ofs line) = List.replicate (ofs % PER_LINE) none ++ line.map some := by
  have hlabel : (lineText ofs line).dropWhile (fun c => (hexValue c).isSome) =
      ' ' :: ' ' :: ((repeatText (ofs % PER_LINE) "   ").toList ++
        cells (line.zipIdx (ofs % PER_LINE))) := by
    rw [lineText, List.dropWhile_append_of_pos fun c hc => hexValue_of_mem_printHex hc]
    rfl
  have hcells : readCells (cells (line.zipIdx (ofs % PER_LINE))) = line.map some := by
    simpa [readCells] using readCells_cells (line.zipIdx (ofs % PER_LINE)) []
  rw [readLine, hlabel, List.drop_succ_cons, List.drop_succ_cons, List.drop_zero,
    readCells_blanks, hcells]

/-- **A hex dump shows the buffer.** -/
theorem readDump_hexDump (ofs : Nat) (buf : List Byte) :
    readDump (hexDump ofs buf false) = buf := by
  fun_induction hexDump ofs buf false with
  | case1 => rfl
  | case2 ofs byte bytes n ih =>
      rw [readDump] at ih ⊢
      rw [String.toList_append, toList_hexLine, List.append_assoc, List.singleton_append,
        List.splitOn_append_cons_self_of_not_mem (newline_notMem_lineText _ _), List.flatMap_cons,
        ih, readLine_lineText, List.reduceOption_append, List.reduceOption_replicate_none]
      rw [List.nil_append, List.reduceOption, List.filterMap_map, Function.id_comp,
        List.filterMap_some, List.take_append_drop]

end SystemProgramming.Testlib
