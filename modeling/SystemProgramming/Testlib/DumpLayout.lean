import SystemProgramming.Testlib.DumpText

/-!
Where a hex dump shows its bytes. A reader who takes the label of a line, its hex
columns and nothing else finds every byte of the buffer at its offset: only the
first line may begin in mid-row and only the last one may end early. The
characters that may stand behind the columns are not read.
-/

namespace SystemProgramming.Testlib

/-! ### The reader -/

/-- A byte in a column of the line with a label. -/
structure ShownByte where
  label : Nat
  column : Nat
  byte : Byte
  deriving DecidableEq

def readLabel (line : List Char) : Nat :=
  (line.takeWhile fun c => (hexValue c).isSome).foldl
    (fun label c => 16 * label + (hexValue c).getD 0) 0

/-- The hex columns of a line, those without a byte too. -/
def readColumns (line : List Char) : List (Option Byte) :=
  readCells (((line.dropWhile fun c => (hexValue c).isSome).drop 2).take (3 * PER_LINE))

def readShown (line : List Char) : List ShownByte :=
  (readColumns line).zipIdx.filterMap fun (cell, column) =>
    cell.map fun byte => ⟨readLabel line, column, byte⟩

def dumpLines (text : String) : List (List Char) := (text.toList.splitOn '\n').dropLast

def readLayout (text : String) : List ShownByte := (dumpLines text).flatMap readShown

/-- Where a byte at an offset belongs. -/
def shownAt (byte : Byte) (ofs : Nat) : ShownByte :=
  ⟨roundDown ofs PER_LINE, ofs % PER_LINE, byte⟩

/-- Every byte of the buffer at its offset. -/
def layout (ofs : Nat) (buf : List Byte) : List ShownByte :=
  (buf.zipIdx ofs).map fun (byte, ofs) => shownAt byte ofs

/-! ### Labels -/

theorem readLabel_digits {digits rest : List Char}
    (hdigits : ∀ c ∈ digits, (hexValue c).isSome = true) :
    readLabel (digits ++ ' ' :: rest) =
      digits.foldl (fun label c => 16 * label + (hexValue c).getD 0) 0 := by
  rw [readLabel, List.takeWhile_append_of_pos hdigits]
  have hblank : (' ' :: rest).takeWhile (fun c => (hexValue c).isSome) = [] := rfl
  rw [hblank, List.append_nil]

theorem foldl_toDigits (n : Nat) :
    (Nat.toDigits 16 n).foldl (fun label c => 16 * label + (hexValue c).getD 0) 0 = n := by
  induction n using Nat.strongRecOn with
  | _ n ih =>
      rw [Nat.toDigits_eq_if (by decide)]
      split
      · next hlt => simp [hexValue_digitChar n hlt]
      · rw [List.foldl_append, ih (n / 16) (by omega)]
        simp [hexValue_digitChar _ (Nat.mod_lt n (by decide)), Nat.div_add_mod]

/-- The zeros in front of a number do not count. -/
theorem readLabel_printHex (width n : Nat) (rest : List Char) :
    readLabel ((printHex width n).toList ++ ' ' :: rest) = n := by
  have hzeros (k : Nat) : (List.replicate k '0').foldl
      (fun label c => 16 * label + (hexValue c).getD 0) 0 = 0 := by
    induction k with
    | zero => rfl
    | succ k ih => exact ih
  rw [readLabel_digits fun c hc => hexValue_of_mem_printHex hc, printHex, String.toList_ofList,
    List.leftpad, List.foldl_append, hzeros, foldl_toDigits]

/-! ### A line -/

/-- The characters behind the columns of a line, with the blanks for the columns left. -/
def asciiText (ofs : Nat) (line : List Byte) (ascii : Bool) : List Char :=
  let start := ofs % PER_LINE
  let rest := PER_LINE - (start + line.length)
  if ascii then
    (repeatText rest "   ").toList ++ '|' :: ((repeatText start " ").toList ++
      line.map (fun byte => if isprint byte then Char.ofNat byte.toNat else '.') ++
      (repeatText rest " ").toList ++ ['|'])
  else []

theorem toList_hexLine_ascii (ofs : Nat) (line : List Byte) (ascii : Bool) :
    (hexLine ofs line ascii).toList =
      lineText ofs line ++ asciiText ofs line ascii ++ ['\n'] := by
  cases ascii with
  | false =>
      rw [toList_hexLine]
      simp [asciiText]
  | true =>
      rw [lineText, ← toList_join_cells]
      simp [hexLine, cell, asciiText]

theorem readLabel_line (ofs : Nat) (line : List Byte) (ascii : Bool) :
    readLabel (lineText ofs line ++ asciiText ofs line ascii) = roundDown ofs PER_LINE := by
  rw [lineText, List.append_assoc]
  exact readLabel_printHex _ _ _

theorem newline_notMem_asciiText (ofs : Nat) (line : List Byte) (ascii : Bool) :
    '\n' ∉ asciiText ofs line ascii := by
  have hshown (byte : Byte) :
      '\n' ≠ if isprint byte then Char.ofNat byte.toNat else '.' := by
    revert byte
    decide
  rw [asciiText]
  split
  · have hblanks (n : Nat) : '\n' ∉ (repeatText n "   ").toList := notMem_repeatText (by decide) n
    have hblank (n : Nat) : '\n' ∉ (repeatText n " ").toList := notMem_repeatText (by decide) n
    simp only [List.mem_append, List.mem_cons, List.mem_map, List.not_mem_nil, or_false, not_or,
      not_exists, not_and, hblanks, hblank, not_false_eq_true, true_and]
    exact ⟨by decide, fun byte _ h => hshown byte h.symm, by decide⟩
  · exact List.not_mem_nil

theorem length_repeatText (n : Nat) (text : String) :
    (repeatText n text).toList.length = n * text.toList.length := by
  rw [repeatText, String.toList_join]
  simp

theorem length_cells (line : List (Byte × Nat)) : (cells line).length = line.length * 3 := by
  rw [cells, List.length_flatMap]
  simp [toList_cell]

/-- What stands behind the label of a line. -/
def afterLabel (ofs : Nat) (line : List Byte) : List Char :=
  (repeatText (ofs % PER_LINE) "   ").toList ++ cells (line.zipIdx (ofs % PER_LINE))

theorem length_afterLabel (ofs : Nat) (line : List Byte) :
    (afterLabel ofs line).length = 3 * (ofs % PER_LINE + line.length) := by
  rw [afterLabel, List.length_append, length_repeatText, length_cells, List.length_zipIdx]
  change ofs % PER_LINE * 3 + line.length * 3 = _
  omega

theorem readCells_afterLabel (ofs : Nat) (line : List Byte) (rest : List Char) :
    readCells (afterLabel ofs line ++ rest) =
      List.replicate (ofs % PER_LINE) none ++ (line.map some ++ readCells rest) := by
  rw [afterLabel, List.append_assoc, readCells_blanks, readCells_cells, List.zipIdx_map_fst]

/-- The columns of a line: blanks in front, the bytes, and blanks again if characters follow. -/
theorem readColumns_line {ofs : Nat} {line : List Byte}
    (hline : ofs % PER_LINE + line.length ≤ PER_LINE) (ascii : Bool) :
    ∃ left, readColumns (lineText ofs line ++ asciiText ofs line ascii) =
      List.replicate (ofs % PER_LINE) none ++ (line.map some ++ List.replicate left none) := by
  have hlen := length_afterLabel ofs line
  have hcolumns : readColumns (lineText ofs line ++ asciiText ofs line ascii) =
      readCells ((afterLabel ofs line ++ asciiText ofs line ascii).take (3 * PER_LINE)) := by
    rw [readColumns, lineText, ← afterLabel, List.append_assoc,
      List.dropWhile_append_of_pos fun c hc => hexValue_of_mem_printHex hc]
    rfl
  rw [hcolumns]
  cases ascii with
  | false =>
      refine ⟨0, ?_⟩
      have hshort : (afterLabel ofs line ++ asciiText ofs line false).take (3 * PER_LINE) =
          afterLabel ofs line ++ [] := List.take_of_length_le (by simp [asciiText]; omega)
      rw [hshort, readCells_afterLabel]
      rfl
  | true =>
      -- the blanks in front of the bar fill the columns up
      refine ⟨PER_LINE - (ofs % PER_LINE + line.length), ?_⟩
      have hblanks := length_repeatText (PER_LINE - (ofs % PER_LINE + line.length)) "   "
      have hthree : "   ".toList.length = 3 := rfl
      have hnil : readCells [] = [] := rfl
      rw [hthree] at hblanks
      have hfull : (afterLabel ofs line ++ asciiText ofs line true).take (3 * PER_LINE) =
          afterLabel ofs line ++
            ((repeatText (PER_LINE - (ofs % PER_LINE + line.length)) "   ").toList ++ []) := by
        rw [asciiText, if_pos rfl, ← List.append_assoc, List.append_nil]
        exact List.take_left' (by rw [List.length_append, hlen, hblanks]; omega)
      rw [hfull, readCells_afterLabel, readCells_blanks, hnil, List.append_nil]

/-- Columns without a byte show nothing. -/
theorem filterMap_zipIdx_columns {β : Type} (f : Byte → Nat → β) (start left : Nat)
    (line : List Byte) :
    ((List.replicate start none ++ (line.map some ++ List.replicate left none)).zipIdx).filterMap
        (fun p : Option Byte × Nat => p.1.map fun byte => f byte p.2) =
      (line.zipIdx start).map fun p => f p.1 p.2 := by
  have hblank (n k : Nat) : ((List.replicate n (none : Option Byte)).zipIdx k).filterMap
      (fun p : Option Byte × Nat => p.1.map fun byte => f byte p.2) = [] := by
    refine List.filterMap_eq_nil_iff.mpr fun p hp => ?_
    rw [List.eq_of_mem_replicate (List.fst_mem_of_mem_zipIdx hp)]
    rfl
  rw [List.zipIdx_append, List.zipIdx_append, List.filterMap_append, List.filterMap_append,
    hblank, hblank, List.nil_append, List.append_nil, List.zipIdx_map, List.filterMap_map,
    List.length_replicate, Nat.zero_add, ← List.filterMap_eq_map]
  rfl

/-- The bytes of a line are in one row. -/
theorem layout_line {ofs : Nat} {line : List Byte}
    (hline : ofs % PER_LINE + line.length ≤ PER_LINE) :
    layout ofs line = (line.zipIdx (ofs % PER_LINE)).map fun p =>
      ⟨roundDown ofs PER_LINE, p.2, p.1⟩ := by
  rw [layout, List.zipIdx_eq_map_add, List.zipIdx_eq_map_add (i := ofs % PER_LINE), List.map_map,
    List.map_map]
  refine List.map_congr_left fun p hp => ?_
  have hlt := List.snd_lt_of_mem_zipIdx hp
  simp only [Function.comp_apply, shownAt, roundDown, PER_LINE, ShownByte.mk.injEq,
    and_true] at hline ⊢
  omega

/-- A line shows its bytes at their offsets. -/
theorem readShown_line {ofs : Nat} {line : List Byte}
    (hline : ofs % PER_LINE + line.length ≤ PER_LINE) (ascii : Bool) :
    readShown (lineText ofs line ++ asciiText ofs line ascii) = layout ofs line := by
  obtain ⟨left, hcolumns⟩ := readColumns_line hline ascii
  rw [readShown, hcolumns, readLabel_line, layout_line hline]
  exact filterMap_zipIdx_columns
    (fun byte column => ShownByte.mk (roundDown ofs PER_LINE) column byte) _ _ _

/-! ### The dump -/

theorem dumpLines_hexLine (ofs : Nat) (line : List Byte) (ascii : Bool) (text : String) :
    dumpLines (hexLine ofs line ascii ++ text) =
      (lineText ofs line ++ asciiText ofs line ascii) :: dumpLines text := by
  have hnot : '\n' ∉ lineText ofs line ++ asciiText ofs line ascii := fun h =>
    (List.mem_append.mp h).elim (newline_notMem_lineText _ _) (newline_notMem_asciiText _ _ _)
  rw [dumpLines, String.toList_append, toList_hexLine_ascii, List.append_assoc,
    List.singleton_append, List.splitOn_append_cons_self_of_not_mem hnot,
    List.dropLast_cons_of_ne_nil (List.splitOn_ne_nil _ _), ← dumpLines]

/-- A line stays in its row, and goes on to its end if it does not show all bytes. -/
theorem lineLength_spec (ofs size : Nat) :
    lineLength ofs size ≤ size ∧ ofs % PER_LINE + lineLength ofs size ≤ PER_LINE ∧
      (lineLength ofs size < size → ofs % PER_LINE + lineLength ofs size = PER_LINE) := by
  rw [lineLength, PER_LINE]
  omega

theorem layout_append (ofs : Nat) (line rest : List Byte) :
    layout ofs (line ++ rest) = layout ofs line ++ layout (ofs + line.length) rest := by
  rw [layout, List.zipIdx_append, List.map_append, layout, layout, Nat.add_comm]

/-- What a reader finds in a dump: the bytes at their offsets, with labels that grow from line
to line. -/
structure LaidOut (ofs : Nat) (buf : List Byte) (text : String) : Prop where
  shown : readLayout text = layout ofs buf
  first : ∀ line ∈ dumpLines text, roundDown ofs PER_LINE ≤ readLabel line
  grow : (dumpLines text).Pairwise fun line line' => readLabel line < readLabel line'

theorem LaidOut.nil (ofs : Nat) : LaidOut ofs [] "" :=
  ⟨rfl, by simp [dumpLines], by simp [dumpLines]⟩

/-- A line in front of a dump that goes on in the next row, or that is empty. -/
theorem LaidOut.cons {ofs n : Nat} {line rest : List Byte} {text : String} (ascii : Bool)
    (hlen : line.length = n) (hline : ofs % PER_LINE + n ≤ PER_LINE)
    (hrow : rest ≠ [] → ofs % PER_LINE + n = PER_LINE) (hend : rest = [] → text = "")
    (h : LaidOut (ofs + n) rest text) :
    LaidOut ofs (line ++ rest) (hexLine ofs line ascii ++ text) := by
  subst hlen
  have hlabel := readLabel_line ofs line ascii
  have hnext : ∀ line' ∈ dumpLines text, roundDown ofs PER_LINE < readLabel line' := by
    intro line' hmem
    rcases eq_or_ne rest [] with hrest | hrest
    · rw [hend hrest] at hmem
      simp [dumpLines] at hmem
    · have hfull := hrow hrest
      have hle := h.first line' hmem
      simp only [roundDown, PER_LINE] at hfull hle ⊢
      omega
  refine ⟨?_, ?_, ?_⟩
  · rw [readLayout, dumpLines_hexLine, List.flatMap_cons, ← readLayout, readShown_line hline,
      h.shown, layout_append]
  · rw [dumpLines_hexLine]
    exact List.forall_mem_cons.mpr 
      ⟨Nat.le_of_eq hlabel.symm, fun line' hmem => Nat.le_of_lt (hnext line' hmem)⟩
  · rw [dumpLines_hexLine]
    refine List.pairwise_cons.mpr ⟨fun line' hmem => ?_, h.grow⟩
    rw [hlabel]
    exact hnext line' hmem

theorem laidOut_hexDump (ofs : Nat) (buf : List Byte) (ascii : Bool)
    (hsize : ofs + buf.length ≤ 2 ^ 64) : LaidOut ofs buf (hexDump ofs buf ascii) := by
  fun_induction hexDump ofs buf ascii with
  | case1 ofs => exact .nil ofs
  | case2 ofs byte bytes n ih =>
      obtain ⟨hle, hin, hfull⟩ := lineLength_spec ofs (byte :: bytes).length
      change n ≤ _ at hle
      have hlen : ((byte :: bytes).take n).length = n := List.length_take_of_le hle
      have hdrop : ((byte :: bytes).drop n).length = (byte :: bytes).length - n :=
        List.length_drop
      have hrow (hne : (byte :: bytes).drop n ≠ []) : ofs % PER_LINE + n = PER_LINE :=
        hfull (by simpa using hne)
      have hend (hnil : (byte :: bytes).drop n = []) :
          hexDump (sizeT (ofs + n)) ((byte :: bytes).drop n) ascii = "" := by rw [hnil, hexDump]
      have hrest : LaidOut (ofs + n) ((byte :: bytes).drop n)
          (hexDump (sizeT (ofs + n)) ((byte :: bytes).drop n) ascii) := by
        rcases eq_or_ne ((byte :: bytes).drop n) [] with hnil | hne
        · rw [hend hnil, hnil]
          exact .nil _
        · -- the offset wraps only behind the last line
          have hlt : n < (byte :: bytes).length := by simpa using hne
          have hnext : sizeT (ofs + n) = ofs + n := Nat.mod_eq_of_lt (by omega)
          rw [hnext] at ih ⊢
          exact ih (by omega)
      have hlaid := LaidOut.cons ascii hlen hin hrow hend hrest
      rw [List.take_append_drop] at hlaid
      exact hlaid

/-- The places of its bytes determine the buffer and its offsets. -/
theorem layout_injective {ofs ofs' : Nat} {buf buf' : List Byte}
    (h : layout ofs' buf' = layout ofs buf) : buf' = buf ∧ (buf ≠ [] → ofs' = ofs) := by
  have hback (ofs : Nat) (buf : List Byte) :
      (layout ofs buf).map (fun shown => (shown.byte, shown.label + shown.column)) =
        buf.zipIdx ofs := by
    rw [layout, List.map_map]
    refine (List.map_congr_left fun p _ => ?_).trans (List.map_id _)
    exact Prod.ext rfl (Nat.div_add_mod' p.2 PER_LINE)
  have hzip : buf'.zipIdx ofs' = buf.zipIdx ofs := by rw [← hback, h, hback]
  have hbuf : buf' = buf := by
    simpa only [List.zipIdx_map_fst] using congrArg (List.map Prod.fst) hzip
  refine ⟨hbuf, fun hne => ?_⟩
  cases buf with
  | nil => exact absurd rfl hne
  | cons byte bytes =>
      rw [hbuf, List.zipIdx_cons, List.zipIdx_cons] at hzip
      exact congrArg Prod.snd (List.cons.inj hzip).1

/-- **`hex_dump` shows every byte once, in order, in the column and in the line of its offset.**
No two lines have the same label, and what is shown determines the buffer and its offsets. -/
theorem hexDump_layout (ofs : Nat) (buf : List Byte) (ascii : Bool)
    (hsize : ofs + buf.length ≤ 2 ^ 64) :
    readLayout (hexDump ofs buf ascii) = layout ofs buf ∧
      ((dumpLines (hexDump ofs buf ascii)).map readLabel).Pairwise (· < ·) ∧
      ∀ (ofs' : Nat) (buf' : List Byte) (ascii' : Bool), ofs' + buf'.length ≤ 2 ^ 64 →
        readLayout (hexDump ofs' buf' ascii') = readLayout (hexDump ofs buf ascii) →
        buf' = buf ∧ (buf ≠ [] → ofs' = ofs) := by
  have hlaid := laidOut_hexDump ofs buf ascii hsize
  refine ⟨hlaid.shown, List.pairwise_map.mpr hlaid.grow, fun ofs' buf' ascii' hsize' hread => ?_⟩
  rw [hlaid.shown, (laidOut_hexDump ofs' buf' ascii' hsize').shown] at hread
  exact layout_injective hread

/-- Three bytes over the end of a row. -/
theorem hexDump_layout_twoRows :
    readLayout (hexDump 14 [0x61, 0, 0xff] true) = layout 14 [0x61, 0, 0xff] ∧
      ((dumpLines (hexDump 14 [0x61, 0, 0xff] true)).map readLabel).Pairwise (· < ·) ∧
      ∀ (ofs' : Nat) (buf' : List Byte) (ascii' : Bool), ofs' + buf'.length ≤ 2 ^ 64 →
        readLayout (hexDump ofs' buf' ascii') = readLayout (hexDump 14 [0x61, 0, 0xff] true) →
        buf' = [0x61, 0, 0xff] ∧ (([0x61, 0, 0xff] : List Byte) ≠ [] → ofs' = 14) :=
  hexDump_layout 14 [0x61, 0, 0xff] true (by decide)

example : layout 14 [0x61, 0, 0xff] =
    [⟨0, 14, 0x61⟩, ⟨0, 15, 0⟩, ⟨16, 0, 0xff⟩] := by decide

end SystemProgramming.Testlib
