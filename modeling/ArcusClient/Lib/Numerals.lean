import ArcusClient.Lib.Strtok

/-!
# Numerals

Numbers and arrays of bytes as texts, and how they are read back.

* `strtoull` reads the number that `decimal` writes, whatever follows its digits
  (`strtoull_decimal_append`).  A number below `10 ^ k` has at most `k` digits (`length_decimal_le`).
* `hexText` writes an array of bytes with two digits each, in upper or lower case.  `hexValue` is
  the value of a digit of either case (`hexValue_hexChar`).
-/

namespace CString

open List

/-! ## Decimal numbers -/

theorem decimal_ne_nil (n : Nat) : decimal n ≠ [] := by
  rw [decimal, ne_eq, map_eq_nil_iff]
  exact Nat.toDigits_ne_nil

theorem length_decimal_le (hk : 0 < k) (h : n < 10 ^ k) : (decimal n).length ≤ k := by
  rw [decimal, length_map]
  exact (Nat.length_toDigits_le_iff (by decide) hk).2 h

theorem lt_of_length_decimal_le (hk : 0 < k) (h : (decimal n).length ≤ k) : n < 10 ^ k := by
  rw [decimal, length_map] at h
  exact (Nat.length_toDigits_le_iff (by decide) hk).1 h

/-- The digits end where something else begins. -/
theorem takeWhile_digits_append {d s : CStr} (hd : ∀ c ∈ d, isDigit c = true)
    (h : ∀ b ∈ s.head?, isDigit b = false) :
    (d ++ s).takeWhile isDigit = d := by
  have hs : s.takeWhile isDigit = [] := by
    cases s with
    | nil => rfl
    | cons b s => rw [takeWhile_cons_of_neg (by simpa using h b rfl)]
  rw [takeWhile_append_of_pos hd, hs, append_nil]

theorem digitsValue_append {d s : CStr} (hd : ∀ c ∈ d, isDigit c = true)
    (h : ∀ b ∈ s.head?, isDigit b = false) :
    digitsValue (d ++ s) = digitsValue d := by
  rw [digitsValue, digitsValue, takeWhile_digits_append hd h, takeWhile_eq_self_iff.2 hd]

theorem digitsValue_decimal (n : Nat) : digitsValue (decimal n) = n := by
  rw [digitsValue, takeWhile_eq_self_iff.2 fun _ => isDigit_of_mem_decimal, decimal, foldl_map]
  have hf (l : List Char) (hl : ∀ c ∈ l, c.isDigit) (init : Nat) :
      l.foldl (fun n c => 10 * n + ((ofChar c).1.1 - 48)) init = Nat.ofDigitChars 10 l init := by
    induction l generalizing init with
    | nil => rfl
    | cons c l ih =>
      rw [foldl_cons, ofChar_val (hl c (by simp))]
      exact ih (fun c hc => hl c (by simp [hc])) _
  rw [hf _ fun c hc => Nat.isDigit_of_mem_toDigits (by decide) (by decide) hc]
  exact Nat.ofDigitChars_ten_toDigits

theorem digitsValue_lt (hd : ∀ c ∈ d, isDigit c = true) : digitsValue d < 10 ^ d.length := by
  have hf (d : CStr) (hd : ∀ c ∈ d, isDigit c = true) (init : Nat) :
      d.foldl (fun n b => 10 * n + (b.1.1 - 48)) init < (init + 1) * 10 ^ d.length := by
    induction d generalizing init with
    | nil => simp
    | cons c d ih =>
      have hc := hd c (by simp)
      simp only [isDigit, Bool.and_eq_true, decide_eq_true_eq] at hc
      calc (c :: d).foldl (fun n b => 10 * n + (b.1.1 - 48)) init
        _ < (10 * init + (c.1.1 - 48) + 1) * 10 ^ d.length := ih (fun b hb => hd b (by simp [hb])) _
        _ ≤ ((init + 1) * 10) * 10 ^ d.length := Nat.mul_le_mul_right _ (by omega)
        _ = (init + 1) * 10 ^ (c :: d).length := by rw [length_cons, Nat.pow_succ', Nat.mul_assoc]
  rw [digitsValue, takeWhile_eq_self_iff.2 hd]
  simpa using hf d hd 0

/-- `strtoull` with base ten.  A number that does not fit gives the largest one. -/
def strtoull (s : CStr) : Nat :=
  match s.dropWhile isSpace with
  | [] => 0
  | b :: rest =>
    let value := digitsValue (if b = ofChar '-' ∨ b = ofChar '+' then rest else b :: rest)
    if 2 ^ 64 ≤ value then 2 ^ 64 - 1
    else if b = ofChar '-' then (2 ^ 64 - value) % 2 ^ 64
    else value

theorem strtoull_digits_append {d s : CStr} (hn : d ≠ []) (hd : ∀ c ∈ d, isDigit c = true)
    (h : ∀ b ∈ s.head?, isDigit b = false) : strtoull (d ++ s) = min (digitsValue d)
    (2 ^ 64 - 1) := by
  obtain ⟨b, rest, rfl⟩ := exists_cons_of_ne_nil hn
  have hdi : isDigit b = true := hd b (by simp)
  have hs := isSpace_of_isDigit hdi
  have hsi := ne_sign_of_isDigit hdi
  have hv := digitsValue_append hd h
  rw [cons_append] at hv ⊢
  rw [strtoull, dropWhile_cons_of_neg (by simp [hs])]
  simp only [hsi.1, hsi.2, or_self, if_false]
  split_ifs
  · omega
  · omega

theorem strtoull_decimal_append (hn : n < 2 ^ 64)
    (h : ∀ b ∈ s.head?, isDigit b = false) : strtoull (decimal n ++ s) = n := by
  rw [strtoull_digits_append (decimal_ne_nil n) (fun _ => isDigit_of_mem_decimal) h, digitsValue_decimal]
  omega

/-- Blanks before a number are passed over. -/
theorem strtoull_blanks (h : ∀ c ∈ blanks, isSpace c = true) (s : CStr) :
    strtoull (blanks ++ s) = strtoull s := by
  rw [strtoull, strtoull, dropWhile_append_of_pos h]

theorem strtoull_decimal (hn : n < 2 ^ 64) : strtoull (decimal n) = n := by
  have h := strtoull_decimal_append (s := []) hn (by simp)
  rwa [append_nil] at h

/-! ## Memory -/

theorem cString_append (s : CStr) (l : List (Fin 256)) : cString
    (bytesOf s ++ l) = s ++ cString l := by
  induction s with
  | nil => rfl
  | cons b s ih =>
    have hn : b.1 ≠ 0 := b.2
    rw [bytesOf, map_cons, cons_append, cString, dif_pos hn]
    exact congrArg (b :: ·) ih

@[simp] theorem cString_bytesOf (s : CStr) : cString (bytesOf s) = s := by
  rw [← append_nil (bytesOf s), cString_append, cString, append_nil]

/-- Bytes without a terminator among them are those of a string. -/
theorem bytesOf_cString (h : (0 : Fin 256) ∉ l) : bytesOf (cString l) = l := by
  induction l with
  | nil => rfl
  | cons b l ih =>
    simp only [mem_cons, not_or] at h
    rw [cString, dif_pos (Ne.symm h.1)]
    exact congrArg (b :: ·) (ih h.2)

/-- There is no terminator within a string. -/
theorem zero_notMem_bytesOf (s : CStr) : (0 : Fin 256) ∉ bytesOf s := by
  intro hm
  obtain ⟨b, -, hb⟩ := mem_map.1 hm
  exact b.2 hb

/-- A string goes on behind bytes without a terminator. -/
theorem bytesOf_cString_append (h : (0 : Fin 256) ∉ l) (l' : List (Fin 256)) :
    bytesOf (cString (l ++ l')) = l ++ bytesOf (cString l') := by
  obtain ⟨s, rfl⟩ : ∃ s, bytesOf s = l := ⟨_, bytesOf_cString h⟩
  rw [cString_append, bytesOf, map_append]
  rfl

/-! ## Hexadecimal texts -/

def hexChar (upper : Bool) (n : Nat) : CChar :=
  ofChar (Char.ofNat (if n < 10 then 48 + n else if upper then 55 + n else 87 + n))

/-- An array of bytes, with two digits for each of them. -/
def hexText (upper : Bool) (bytes : List (Fin 256)) : CStr :=
  bytes.flatMap fun b => [hexChar upper (b.1 / 16), hexChar upper (b.1 % 16)]

def hexValue (b : Fin 256) : Option Nat :=
  if 48 ≤ b.1 ∧ b.1 ≤ 57 then some (b.1 - 48)
  else if 65 ≤ b.1 ∧ b.1 ≤ 70 then some (b.1 - 65 + 10)
  else if 97 ≤ b.1 ∧ b.1 ≤ 102 then some (b.1 - 97 + 10)
  else none

theorem hexValue_hexChar (upper : Bool) (h : n < 16) : hexValue (hexChar upper n).1 = some n := by
  have ha : ∀ upper : Bool, ∀ n : Fin 16, hexValue (hexChar upper n.1).1 = some n.1 := by decide
  exact ha upper ⟨n, h⟩

@[simp] theorem length_hexText (upper : Bool) (bytes : List (Fin 256)) :
    (hexText upper bytes).length = 2 * bytes.length := by
  induction bytes with
  | nil => rfl
  | cons b bytes ih =>
    rw [hexText, flatMap_cons, length_append]
    have ht : (bytes.flatMap fun b => [hexChar upper (b.1 / 16), hexChar upper (b.1 % 16)]).length =
        2 * bytes.length := ih
    simp only [length_cons, length_nil]
    omega

end CString
