import Mathlib.Data.Nat.Find
import Mathlib.Data.List.Nodup
import Mathlib.Tactic

/-!
# Probing in rounds

Items are to be placed.  Each has a sequence of places to try, one in every round, and some of the
places fail.  In a round the items are gone through in order: an item that is not placed yet tries its
place of this round, unless that place is known to fail.  Another round follows if a failure was found
in this one that was not known before (`rounds_start`).
-/

namespace Probing

open List

variable {ι σ : Type}

/-- The items that have been placed, the last one first, and what is known of the places. -/
structure State (ι σ : Type) where
  placed : List (ι × σ)
  dead : σ → Bool
  /-- A failure was found in this round. -/
  found : Bool

/-- Nothing is placed, and no failure is known. -/
def State.start : State ι σ := ⟨[], fun _ => false, false⟩

section Algorithm

variable [DecidableEq ι] [DecidableEq σ] (probe : ι → Nat → σ) (fails : σ → Bool)

/-- An item tries its place. -/
def step (r : Nat) (s : State ι σ) (x : ι) : State ι σ :=
  if x ∈ s.placed.map Prod.fst then s
  else if s.dead (probe x r) then s
  else if fails (probe x r) then
    { s with dead := Function.update s.dead (probe x r) true, found := true }
  else { s with placed := (x, probe x r) :: s.placed }

variable {r : Nat} {s : State ι σ} {x : ι}

theorem step_of_placed (h : x ∈ s.placed.map Prod.fst) : step probe fails r s x = s := if_pos h

theorem step_of_dead (h : s.dead (probe x r) = true) : step probe fails r s x = s := by
  rw [step, if_pos h, ite_self]

theorem step_of_tries (hp : x ∉ s.placed.map Prod.fst) (hd : s.dead (probe x r) = false) :
    step probe fails r s x = if fails (probe x r) then
        { s with dead := Function.update s.dead (probe x r) true, found := true }
      else { s with placed := (x, probe x r) :: s.placed } := by
  rw [step, if_neg hp, if_neg (Bool.eq_false_iff.1 hd)]

def round (items : List ι) (r : Nat) (s : State ι σ) : State ι σ :=
  items.foldl (step probe fails r) { s with found := false }

/-- The rounds from `r` on, `left` of them at most. -/
def rounds (items : List ι) : (left r : Nat) → State ι σ → State ι σ
  | 0, _, s => s
  | left + 1, r, s =>
    let s := round probe fails items r s
    if s.found then rounds items left (r + 1) s else s

end Algorithm

section Places

variable (probe : ι → Nat → σ) (fails : σ → Bool)

/-- All places before round `r` fail. -/
def Passed (x : ι) (r : Nat) : Prop := ∀ i < r, fails (probe x i) = true

/-- The place of round `k` is the first one that does not fail. -/
def FirstAt (x : ι) (k : Nat) : Prop := Passed probe fails x k ∧ fails (probe x k) = false

/-- The failure of a place is found before round `r`. -/
def Known (items : List ι) (r : Nat) (v : σ) : Prop :=
  ∃ j < r, ∃ y ∈ items, probe y j = v ∧ Passed probe fails y (j + 1)

/-- A failure that was not known before is found in round `r`. -/
def Finds (items : List ι) (r : Nat) : Prop :=
  ∃ y ∈ items, Passed probe fails y (r + 1) ∧ ¬Known probe fails items r (probe y r)

end Places

section Facts

variable {probe : ι → Nat → σ} {fails : σ → Bool} {x : ι} {items : List ι}

variable {k : Nat}

theorem Passed.mono (h : Passed probe fails x k) (hl : r ≤ k) : Passed probe fails x r :=
  fun i hi => h i (hi.trans_le hl)

theorem passed_succ :
    Passed probe fails x (r + 1) ↔ Passed probe fails x r ∧ fails (probe x r) = true := by
  refine ⟨fun h => ⟨h.mono (Nat.le_succ r), h r (Nat.lt_succ_self r)⟩, fun h i hi => ?_⟩
  obtain hl | rfl := Nat.lt_succ_iff_lt_or_eq.1 hi
  · exact h.1 i hl
  · exact h.2

/-- An item passes the rounds before `r`, or is placed in one of them. -/
theorem passed_or_firstAt (probe : ι → Nat → σ) (fails : σ → Bool) (x : ι) (r : Nat) :
    Passed probe fails x r ∨ ∃ k < r, FirstAt probe fails x k := by
  induction r with
  | zero => exact Or.inl fun i hi => absurd hi (Nat.not_lt_zero i)
  | succ r ih =>
    rcases ih with hp | ⟨k, hk, hf⟩
    · cases hfa : fails (probe x r) with
      | true => exact Or.inl (passed_succ.2 ⟨hp, hfa⟩)
      | false => exact Or.inr ⟨r, Nat.lt_succ_self r, hp, hfa⟩
    · exact Or.inr ⟨k, hk.trans (Nat.lt_succ_self r), hf⟩

theorem FirstAt.not_passed (h : FirstAt probe fails x k) (hl : k < r) :
    ¬Passed probe fails x r := fun hp => by
  have := hp k hl
  rw [h.2] at this
  cases this

theorem FirstAt.unique (hj : FirstAt probe fails x j) (hk : FirstAt probe fails x k) : j = k := by
  rcases Nat.lt_trichotomy j k with hl | he | hl
  · exact absurd hk.1 (hj.not_passed hl)
  · exact he
  · exact absurd hj.1 (hk.not_passed hl)

variable {v : σ}

theorem Known.failing (h : Known probe fails items r v) : fails v = true := by
  obtain ⟨j, -, y, -, rfl, hp⟩ := h
  exact hp j (Nat.lt_succ_self j)

theorem known_succ : Known probe fails items (r + 1) v ↔
      Known probe fails items r v ∨ ∃ y ∈ items, probe y r = v ∧ Passed probe fails y (r + 1) := by
  constructor
  · rintro ⟨j, hj, y, hy, hv, hp⟩
    obtain hl | rfl := Nat.lt_succ_iff_lt_or_eq.1 hj
    · exact Or.inl ⟨j, hl, y, hy, hv, hp⟩
    · exact Or.inr ⟨y, hy, hv, hp⟩
  · rintro (⟨j, hj, hr⟩ | ⟨y, hy, hv, hp⟩)
    · exact ⟨j, hj.trans (Nat.lt_succ_self r), hr⟩
    · exact ⟨r, Nat.lt_succ_self r, y, hy, hv, hp⟩

/-! ## One round -/

/-- The state in round `r`, after the items of `seen`. -/
structure Inside (probe : ι → Nat → σ) (fails : σ → Bool) (items seen : List ι) (r : Nat)
    (s : State ι σ) : Prop where
  placed : ∀ x v, (x, v) ∈ s.placed ↔
    ∃ k, (k < r ∧ x ∈ items ∨ k = r ∧ x ∈ seen) ∧ FirstAt probe fails x k ∧ v = probe x k
  dead : ∀ v, s.dead v = true ↔
    Known probe fails items r v ∨ ∃ y ∈ seen, probe y r = v ∧ Passed probe fails y (r + 1)
  found : s.found = true ↔
    ∃ y ∈ seen, Passed probe fails y (r + 1) ∧ ¬Known probe fails items r (probe y r)
  nodup : (s.placed.map Prod.fst).Nodup

variable {seen : List ι} {r : Nat} {s : State ι σ}

theorem Inside.mem_placed (h : Inside probe fails items seen r s) : x ∈ s.placed.map Prod.fst ↔
      ∃ k, (k < r ∧ x ∈ items ∨ k = r ∧ x ∈ seen) ∧ FirstAt probe fails x k := by
  constructor
  · intro hx
    obtain ⟨⟨y, v⟩, hm, rfl⟩ := mem_map.1 hx
    obtain ⟨k, hk, hf, -⟩ := (h.placed y v).1 hm
    exact ⟨k, hk, hf⟩
  · rintro ⟨k, hk, hf⟩
    exact mem_map.2 ⟨(x, probe x k), (h.placed x _).2 ⟨k, hk, hf, rfl⟩, rfl⟩

/-- An item that is not placed has tried all its places before. -/
theorem Inside.passed (h : Inside probe fails items seen r s) (hx : x ∈ items)
    (hn : x ∉ s.placed.map Prod.fst) : Passed probe fails x r := by
  rcases passed_or_firstAt probe fails x r with hp | ⟨k, hk, hf⟩
  · exact hp
  · exact absurd (h.mem_placed.2 ⟨k, Or.inl ⟨hk, hx⟩, hf⟩) hn

theorem Inside.failing (h : Inside probe fails items seen r s) (hd : s.dead v = true) :
    fails v = true := by
  rcases (h.dead v).1 hd with hk | ⟨y, -, rfl, hp⟩
  · exact hk.failing
  · exact hp r (Nat.lt_succ_self r)

/-- One more item is seen. -/
theorem exists_mem_concat {P : ι → Prop} : (∃ y ∈ seen ++ [x], P y) ↔ (∃ y ∈ seen, P y) ∨ P x := by
  simp only [mem_append, mem_singleton]
  constructor
  · rintro ⟨y, hy | rfl, hP⟩
    · exact Or.inl ⟨y, hy, hP⟩
    · exact Or.inr hP
  · rintro (⟨y, hy, hP⟩ | hP)
    · exact ⟨y, Or.inl hy, hP⟩
    · exact ⟨x, Or.inr rfl, hP⟩

/-- What may be placed after one more item. -/
theorem placed_concat :
    (∃ k, (k < r ∧ y ∈ items ∨ k = r ∧ y ∈ seen ++ [x]) ∧ FirstAt probe fails y k ∧ v = probe y k) ↔
      (∃ k, (k < r ∧ y ∈ items ∨ k = r ∧ y ∈ seen) ∧ FirstAt probe fails y k ∧ v = probe y k) ∨
        y = x ∧ FirstAt probe fails x r ∧ v = probe x r := by
  simp only [mem_append, mem_singleton]
  constructor
  · rintro ⟨k, hk | ⟨rfl, hs | rfl⟩, hf, hv⟩
    · exact Or.inl ⟨k, Or.inl hk, hf, hv⟩
    · exact Or.inl ⟨k, Or.inr ⟨rfl, hs⟩, hf, hv⟩
    · exact Or.inr ⟨rfl, hf, hv⟩
  · rintro (⟨k, hk | ⟨rfl, hs⟩, hf, hv⟩ | ⟨rfl, hf, hv⟩)
    · exact ⟨k, Or.inl hk, hf, hv⟩
    · exact ⟨k, Or.inr ⟨rfl, Or.inl hs⟩, hf, hv⟩
    · exact ⟨r, Or.inr ⟨rfl, Or.inr rfl⟩, hf, hv⟩

/-- An item that is placed, or whose place is known to fail, changes nothing. -/
theorem Inside.skip (h : Inside probe fails items seen r s)
    (hp : FirstAt probe fails x r → (x, probe x r) ∈ s.placed)
    (hd : Passed probe fails x (r + 1) → s.dead (probe x r) = true) :
    Inside probe fails items (seen ++ [x]) r s where
  placed y v := by
    rw [placed_concat, ← h.placed y v]
    refine ⟨Or.inl, fun ho => ho.elim id ?_⟩
    rintro ⟨rfl, hf, rfl⟩
    exact hp hf
  dead v := by
    rw [exists_mem_concat, ← or_assoc, ← h.dead v]
    refine ⟨Or.inl, fun ho => ho.elim id ?_⟩
    rintro ⟨rfl, hpa⟩
    exact hd hpa
  found := by
    rw [exists_mem_concat, ← h.found]
    refine ⟨Or.inl, fun ho => ho.elim id ?_⟩
    rintro ⟨hpa, hn⟩
    -- the item that has found the failure in this round
    rcases (h.dead _).1 (hd hpa) with hk | ⟨y, hy, hs, hy'⟩
    · exact absurd hk hn
    · exact h.found.2 ⟨y, hy, hy', by rw [hs]; exact hn⟩
  nodup := h.nodup

/-- A failure is found. -/
theorem Inside.fail [DecidableEq σ] (h : Inside probe fails items seen r s)
    (hp : Passed probe fails x (r + 1))
    (hn : s.dead (probe x r) = false) : Inside probe fails items (seen ++ [x]) r
      { s with dead := Function.update s.dead (probe x r) true, found := true } where
  placed y v := by
    rw [placed_concat, ← h.placed y v]
    refine ⟨Or.inl, fun ho => ho.elim id ?_⟩
    rintro ⟨rfl, hf, -⟩
    exact absurd hp (hf.not_passed (Nat.lt_succ_self r))
  dead v := by
    rw [exists_mem_concat, ← or_assoc, ← h.dead v]
    by_cases hv : v = probe x r
    · subst hv
      simp [hp]
    · simp [Function.update_of_ne hv, Ne.symm hv]
  found := by
    refine iff_of_true rfl (exists_mem_concat.2 (Or.inr ⟨hp, fun hk => ?_⟩))
    rw [(h.dead _).2 (Or.inl hk)] at hn
    cases hn
  nodup := h.nodup

/-- An item is placed. -/
theorem Inside.place (h : Inside probe fails items seen r s) (hf : FirstAt probe fails x r)
    (hn : x ∉ s.placed.map Prod.fst) :
    Inside probe fails items (seen ++ [x]) r { s with placed := (x, probe x r) :: s.placed } where
  placed y v := by
    rw [placed_concat, ← h.placed y v, or_comm]
    simp [hf]
  dead v := by
    rw [exists_mem_concat, ← or_assoc, ← h.dead v]
    refine ⟨Or.inl, fun ho => ho.elim id fun hl => ?_⟩
    exact absurd hl.2 (hf.not_passed (Nat.lt_succ_self r))
  found := by
    rw [exists_mem_concat, ← h.found]
    refine ⟨Or.inl, fun ho => ho.elim id fun hl => ?_⟩
    exact absurd hl.1 (hf.not_passed (Nat.lt_succ_self r))
  nodup := nodup_cons.2 ⟨hn, h.nodup⟩

/-- The state between two rounds. -/
theorem Inside.next (h : Inside probe fails items items r s) :
    Inside probe fails items [] (r + 1) { s with found := false } where
  placed y v := by
    rw [h.placed y v]
    simp [← or_and_right, Nat.le_iff_lt_or_eq]
  dead v := by
    rw [h.dead v, known_succ]
    simp
  found := by simp
  nodup := h.nodup

theorem inside_start : Inside probe fails items [] 0 (State.start : State ι σ) where
  placed y v := by simp [State.start]
  dead v := by simp [State.start, Known]
  found := by simp [State.start]
  nodup := nodup_nil

section Run

variable [DecidableEq ι] [DecidableEq σ]

theorem Inside.step (h : Inside probe fails items seen r s) (hx : x ∈ items) :
    Inside probe fails items (seen ++ [x]) r (step probe fails r s x) := by
  rw [Probing.step]
  split_ifs with hm hd hf
  · obtain ⟨k, hk, hfi⟩ := h.mem_placed.1 hm
    have hl : k ≤ r := by omega
    refine h.skip (fun ha => ?_) fun hp =>
      absurd hp (hfi.not_passed (Nat.lt_succ_iff.2 hl))
    obtain rfl := hfi.unique ha
    exact (h.placed x _).2 ⟨k, hk, hfi, rfl⟩
  · refine h.skip (fun ha => ?_) fun _ => hd
    exact absurd ((h.failing hd).symm.trans ha.2) (by decide)
  · exact h.fail (passed_succ.2 ⟨h.passed hx hm, hf⟩) (Bool.eq_false_iff.2 hd)
  · exact h.place ⟨h.passed hx hm, Bool.eq_false_iff.2 hf⟩ hm

theorem Inside.foldl (h : Inside probe fails items seen r s) (hr : rest ⊆ items) :
    Inside probe fails items (seen ++ rest) r (rest.foldl (Probing.step probe fails r) s) := by
  induction rest generalizing seen s with
  | nil => rwa [append_nil]
  | cons x rest ih =>
    have := ih (h.step (hr mem_cons_self)) (subset_of_cons_subset hr)
    rwa [append_assoc, singleton_append] at this

/-! ## All rounds -/

theorem Inside.round (h : Inside probe fails items [] r { s with found := false }) :
    Inside probe fails items items r (round probe fails items r s) :=
  Inside.foldl h (Subset.refl items)

/-- An item is placed at the first of its places that does not fail, if every round before has found a
failure. -/
theorem Inside.rounds (left : Nat) (h : Inside probe fails items [] r { s with found := false })
    (hf : ∀ j < r, Finds probe fails items j) :
    (∀ x v, (x, v) ∈ (rounds probe fails items left r s).placed ↔ x ∈ items ∧
      ∃ k < r + left, (∀ j < k, Finds probe fails items j) ∧ FirstAt probe fails x k ∧ v = probe x k) ∧
    ((rounds probe fails items left r s).placed.map Prod.fst).Nodup := by
  induction left generalizing r s with
  | zero =>
    refine ⟨fun x v => (h.placed x v).trans ?_, h.nodup⟩
    constructor
    · rintro ⟨k, ⟨hk, hx⟩ | ⟨-, hx⟩, hr⟩
      · exact ⟨hx, k, hk, fun j hj => hf j (hj.trans hk), hr⟩
      · exact absurd hx not_mem_nil
    · rintro ⟨hx, k, hk, -, hr⟩
      exact ⟨k, Or.inl ⟨hk, hx⟩, hr⟩
  | succ left ih =>
    have hro : Inside probe fails items items r (Probing.round probe fails items r s) := h.round
    rw [Probing.rounds]
    split_ifs with hfo
    · -- this round has found a failure, so the next one follows
      have hn := ih hro.next fun j hj => by
        obtain hl | rfl := Nat.lt_succ_iff_lt_or_eq.1 hj
        · exact hf j hl
        · exact hro.found.1 hfo
      rwa [Nat.succ_add_eq_add_succ] at hn
    · refine ⟨fun x v => (hro.placed x v).trans ?_, hro.nodup⟩
      constructor
      · rintro ⟨k, hk, hr⟩
        have hx : x ∈ items := hk.elim And.right And.right
        exact ⟨hx, k, by omega, fun j hj => hf j (by omega), hr⟩
      · rintro ⟨hx, k, -, ha, hr⟩
        have hk : k ≤ r := by
          by_contra hl
          exact hfo (hro.found.2 (ha r (by omega)))
        exact ⟨k, (Nat.lt_or_eq_of_le hk).imp (fun hl => ⟨hl, hx⟩) fun he => ⟨he, hx⟩, hr⟩

/-- What is placed in `left` rounds at most, and that no item is placed twice. -/
theorem rounds_start (left : Nat) :
    (∀ x v, (x, v) ∈ (Probing.rounds probe fails items left 0 State.start).placed ↔ x ∈ items ∧
      ∃ k < left, (∀ j < k, Finds probe fails items j) ∧ FirstAt probe fails x k ∧ v = probe x k) ∧
    ((Probing.rounds probe fails items left 0 State.start).placed.map Prod.fst).Nodup := by
  have hs : Inside probe fails items [] 0 (State.start : State ι σ) := inside_start
  have h := Inside.rounds (s := State.start) left hs fun j hj => absurd hj (Nat.not_lt_zero j)
  rwa [Nat.zero_add] at h

end Run

end Facts

end Probing
