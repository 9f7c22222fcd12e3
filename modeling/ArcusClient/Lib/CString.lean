import Mathlib.Data.List.Lex
import Mathlib.Order.Lex
import Mathlib.Data.Fin.Basic
import Mathlib.Order.Fin.Basic
import Mathlib.Tactic

/-!
# C strings

A C string is a list of bytes, none of them zero.  The type of its characters excludes the zero byte,
so a list of them needs no side condition.

* `strcmp` compares two strings byte by byte (`strcmp_le_iff`, `strcmp_eq_zero_iff`).
* `decimal` is the `%u` conversion.  It is injective and writes digits only, so
  `host ++ ":" ++ decimal port` can be taken apart again (`append_sep_decimal_inj`).
* `tokens` are what repeated calls of `strtok_r` return, and `atoi` reads a number.
-/

namespace CString

open List

instance neZero_byte : NeZero 256 := ⟨by decide⟩

/-- A byte of a C string: any byte but the terminator. -/
abbrev CChar := { b : Fin 256 // b ≠ 0 }

instance lawfulBEq_cChar : LawfulBEq CChar := inferInstance

/-- The characters of a C string before its terminator. -/
abbrev CStr := List CChar

instance lawfulBEq_cstr : LawfulBEq CStr := inferInstance

/-- The byte of an ASCII character.  Characters outside one byte, and the
terminator itself, do not occur in the literals this is used for. -/
def ofChar (c : Char) : CChar :=
  if h : Fin.ofNat 256 c.toNat ≠ 0 then ⟨Fin.ofNat 256 c.toNat, h⟩ else ⟨1, by decide⟩

/-- A string literal as a C string. -/
def lit (cs : List Char) : CStr := cs.map ofChar

/-- The character a byte stands for. -/
def toChar (b : CChar) : Char := Char.ofNat b.1.1

/-! ## Memory -/

/-- The string at a pointer, given the memory from there on. -/
def cString : List (Fin 256) → CStr
  | [] => []
  | b :: rest => if h : b ≠ 0 then ⟨b, h⟩ :: cString rest else []

def bytesOf (s : CStr) : List (Fin 256) := s.map Subtype.val

theorem bytesOf_injective : Function.Injective bytesOf :=
  map_injective_iff.2 Subtype.val_injective

/-! ## Comparison -/

/-- `strcmp`: the difference of the first bytes that differ, where a string that
has ended counts as the zero byte. -/
def strcmp : CStr → CStr → Int
  | [], [] => 0
  | [], b :: _ => -(b.1.1 : Int)
  | a :: _, [] => (a.1.1 : Int)
  | a :: s, b :: t => if a = b then strcmp s t else (a.1.1 : Int) - (b.1.1 : Int)

theorem CChar.pos (b : CChar) : 0 < b.1.1 :=
  Nat.pos_of_ne_zero fun h => b.2 (Fin.ext h)

/-- `strcmp` finds no difference exactly between equal strings. -/
theorem strcmp_eq_zero_iff : ∀ s t : CStr, strcmp s t = 0 ↔ s = t
  | [], [] => by simp [strcmp]
  | [], b :: _ => by
    have := CChar.pos b
    simp [strcmp]; omega
  | a :: _, [] => by
    have := CChar.pos a
    simp [strcmp]; omega
  | a :: s, b :: t => by
    by_cases h : a = b
    · simp [strcmp, h, strcmp_eq_zero_iff s t]
    · have hn : a.1.1 ≠ b.1.1 := fun e => h (Subtype.ext (Fin.ext e))
      simp [strcmp, h]; omega

/-- A negative `strcmp` is the lexicographic order. -/
theorem strcmp_neg_iff : ∀ s t : CStr, strcmp s t < 0 ↔ s < t
  | [], [] => by simp [strcmp]
  | [], b :: _ => by
    have := CChar.pos b
    simp [strcmp]; omega
  | a :: _, [] => by
    have := CChar.pos a
    simp [strcmp]
  | a :: s, b :: t => by
    rw [cons_lt_cons_iff]
    by_cases h : a = b
    · simp [strcmp, h, strcmp_neg_iff s t]
    · have hl : a < b ↔ a.1.1 < b.1.1 := Iff.rfl
      rw [strcmp, if_neg h, hl]
      simp only [h, false_and, or_false]
      omega

/-- `strcmp` is at most zero exactly when the first string is not above the second. -/
theorem strcmp_le_iff (s t : CStr) : strcmp s t ≤ 0 ↔ s ≤ t := by
  rw [Int.le_iff_lt_or_eq, strcmp_neg_iff, strcmp_eq_zero_iff, le_iff_lt_or_eq]

/-- The first difference decides, whatever follows it. -/
theorem strcmp_append_of_length_eq : ∀ {s t : CStr} (u v : CStr), s.length = t.length → s ≠ t →
      strcmp (s ++ u) (t ++ v) = strcmp s t
  | [], [], _, _, _, hn => absurd rfl hn
  | a :: s, b :: t, u, v, hl, hn => by
    by_cases h : a = b
    · subst h
      have hs : s ≠ t := fun e => hn (by rw [e])
      simp only [cons_append, strcmp]
      exact strcmp_append_of_length_eq u v (by simpa using hl) hs
    · simp [strcmp, h]

/-- A common beginning does not count. -/
theorem strcmp_append_left : ∀ s t u : CStr, strcmp (s ++ t) (s ++ u) = strcmp t u
  | [], _, _ => rfl
  | a :: s, t, u => by simp [strcmp, strcmp_append_left s t u]

/-! ## Decimal numbers -/

/-- The `%u` conversion. -/
def decimal (n : Nat) : CStr := (Nat.toDigits 10 n).map ofChar

/-- The `%d` conversion. -/
def signedDecimal (n : Int) : CStr :=
  if n < 0 then ofChar '-' :: decimal n.natAbs else decimal n.natAbs

/-- The byte is one of `0` to `9`. -/
def isDigit (b : CChar) : Bool := 48 ≤ b.1.1 && b.1.1 ≤ 57

theorem isDigit_toNat {c : Char} (h : c.isDigit) : 48 ≤ c.toNat ∧ c.toNat ≤ 57 := by
  simpa [Char.isDigit, UInt32.le_iff_toNat_le] using h

theorem ofChar_val (h : c.isDigit) : (ofChar c).1.1 = c.toNat := by
  obtain ⟨h1, h2⟩ := isDigit_toNat h
  have hv : (Fin.ofNat 256 c.toNat).1 = c.toNat := Nat.mod_eq_of_lt (by omega)
  have hn : Fin.ofNat 256 c.toNat ≠ 0 := fun e => by
    have := congrArg Fin.val e
    omega
  rw [ofChar, dif_pos hn]
  exact hv

theorem toChar_ofChar (h : c.isDigit) : toChar (ofChar c) = c := by
  rw [toChar, ofChar_val h, Char.ofNat_toNat]

/-- `decimal` writes digits only. -/
theorem isDigit_of_mem_decimal {n : Nat} (h : b ∈ decimal n) : isDigit b := by
  obtain ⟨c, hc, rfl⟩ := mem_map.1 h
  have hd := Nat.isDigit_of_mem_toDigits (by omega) (by omega) hc
  obtain ⟨h1, h2⟩ := isDigit_toNat hd
  simp [isDigit, ofChar_val hd, h1, h2]

/-- The number is read back from its digits. -/
theorem decimal_injective : Function.Injective decimal := by
  intro m n h
  have back (k : Nat) : (decimal k).map toChar = Nat.toDigits 10 k := by
    rw [decimal, map_map]
    refine (map_congr_left fun c hc => ?_).trans (map_id _)
    exact toChar_ofChar (Nat.isDigit_of_mem_toDigits (by omega) (by omega) hc)
  have hd : Nat.toDigits 10 m = Nat.toDigits 10 n := by rw [← back m, ← back n, h]
  simpa using congrArg (fun l => Nat.ofDigitChars 10 l 0) hd

/-- A list is split at the first separator in one way. -/
theorem append_sep_inj {α : Type*} {sep : α} {a b u v : List α} (ha : sep ∉ a) (hb : sep ∉ b)
    (h : a ++ sep :: u = b ++ sep :: v) : a = b ∧ u = v := by
  induction a generalizing b with
  | nil | cons c a ih => cases b <;> grind

/-- A separator that is no digit splits a string before a decimal number in one
way only. -/
theorem append_sep_decimal_inj {sep : CChar} (hs : isDigit sep = false) {s t : CStr} {m n : Nat}
    (h : s ++ sep :: decimal m = t ++ sep :: decimal n) : s = t ∧ m = n := by
  have hn (k : Nat) : sep ∉ decimal k := fun hm => by
    rw [isDigit_of_mem_decimal hm] at hs
    cases hs
  -- Seen from the end, the separator is where the digits stop.
  have hl : (decimal m).length = (decimal n).length := by
    have hr := congrArg reverse h
    have hid := congrArg (idxOf sep) hr
    simpa [idxOf_append, hn] using hid
  have hsp := append_inj' h (by simp [hl])
  refine ⟨hsp.1, decimal_injective ?_⟩
  simpa using hsp.2

/-! ## Tokens and numbers -/

/-- The tokens `strtok_r` finds one after the other: the longest pieces without a
separator, none of them empty. -/
def tokens (seps : List CChar) (s : CStr) : List CStr :=
  (s.splitOnP fun b => decide (b ∈ seps)).filter fun token => !token.isEmpty

/-- White space, as `isspace` has it. -/
def isSpace (b : CChar) : Bool := b.1.1 == 32 || (9 ≤ b.1.1 && b.1.1 ≤ 13)

theorem isSpace_of_isDigit (h : isDigit b = true) : isSpace b = false := by
  simp only [isDigit, Bool.and_eq_true, decide_eq_true_eq] at h
  simp only [isSpace, Bool.or_eq_false_iff, Bool.and_eq_false_iff, beq_eq_false_iff_ne,
    decide_eq_false_iff_not]
  omega

theorem ne_sign_of_isDigit (h : isDigit b = true) : b ≠ ofChar '-' ∧ b ≠ ofChar '+' := by
  constructor
  · rintro rfl
    exact absurd h (by decide)
  · rintro rfl
    exact absurd h (by decide)

def digitsValue (s : CStr) : Nat :=
  (s.takeWhile isDigit).foldl (fun n b => 10 * n + (b.1.1 - 48)) 0

/-- `atoi`, for a number in the range of `int`. -/
def atoi (s : CStr) : Int :=
  match s.dropWhile isSpace with
  | [] => 0
  | b :: rest =>
    if b = ofChar '-' then -(digitsValue rest : Int)
    else if b = ofChar '+' then digitsValue rest
    else digitsValue (b :: rest)

end CString
