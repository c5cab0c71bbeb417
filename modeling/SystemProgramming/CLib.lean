import Mathlib.Algebra.Group.Int.Defs
import Mathlib.Algebra.Group.Nat.Defs
import Mathlib.Data.List.DropRight

/-!
The parts of the C library the two programs rely on, on strings without their
terminating NUL: a string is the list of its characters, and a character
stands for one byte in the "C" locale, in which both programs run.
-/

namespace SystemProgramming.CLib

abbrev CString := List Char

/-- `isspace` of `<ctype.h>`. -/
def isspace (c : Char) : Bool :=
  c = ' ' || c = '\t' || c = '\n' || c = '\x0b' || c = '\x0c' || c = '\r'

def isdigit (c : Char) : Bool := '0' ≤ c && c ≤ '9'

def intMax : Int := 2 ^ 31 - 1

def longMax : Int := 2 ^ 63 - 1

def longMin : Int := -2 ^ 63

/-- Conversion to a 32-bit `int`, as the compilers of the Makefiles define it. -/
def toInt (v : Int) : Int := Int.bmod v (2 ^ 32)

/-- The value of a string of decimal digits. -/
def digitsValue (ds : CString) : Nat :=
  ds.foldl (fun v c => 10 * v + (c.toNat - '0'.toNat)) 0

/-- The sign `strtol` reads and the text behind it. -/
def strtolSign : CString → Bool × CString
  | '-' :: s => (true, s)
  | '+' :: s => (false, s)
  | s => (false, s)

/-- `strtol (s, &endptr, 10)`: the value, saturated at the bounds of `long`, and
the text at `endptr`, which is `s` itself when there is no digit to read. -/
def strtol (s : CString) : Int × CString :=
  let (neg, t) := strtolSign (s.dropWhile isspace)
  match t.takeWhile isdigit with
  | [] => (0, s)
  | ds =>
      let v : Int := digitsValue ds
      (max longMin (min longMax (if neg then -v else v)), t.dropWhile isdigit)

/-- `atoi`, which the C library defines by `strtol`. -/
def atoi (s : CString) : Int := toInt (strtol s).1

/-- `buf[strcspn (buf, "\n")] = '\0'`. -/
def cutNewline (s : CString) : CString := s.takeWhile (· ≠ '\n')

theorem cutNewline_eq_self {s : CString} (hs : '\n' ∉ s) : cutNewline s = s :=
  List.takeWhile_eq_self_iff.mpr fun _ hc => decide_eq_true fun heq => hs (heq ▸ hc)

theorem cutNewline_append {s t : CString} (hs : '\n' ∉ s) : cutNewline (s ++ '\n' :: t) = s := by
  have htest : ∀ c ∈ s, decide (c ≠ '\n') = true := by
    intro c hc
    exact decide_eq_true fun heq => hs (heq ▸ hc)
  rw [cutNewline, List.takeWhile_append_of_pos htest, List.takeWhile_cons_of_neg (by simp),
    List.append_nil]

/-- The loop that skips characters stops at one that fails its test. -/
theorem stops_of_dropWhile {test : Char → Bool} {s t : CString} {c : Char}
    (hdrop : s.dropWhile test = c :: t) : test c = false := by
  have hhead := List.head_dropWhile_not test (hdrop ▸ List.cons_ne_nil c t)
  simpa only [hdrop, List.head_cons] using hhead

/-- What a loop prints that puts a blank in front of every text but the first. -/
theorem intercalate_cons (text : String) (texts : List String) :
    String.intercalate " " (text :: texts) = text ++ String.join (texts.map (" " ++ ·)) := by
  induction texts generalizing text with
  | nil => simp
  | cons t ts ih =>
      rw [String.intercalate_cons_cons, ih]
      simp [String.join_cons, String.append_assoc]

end SystemProgramming.CLib
