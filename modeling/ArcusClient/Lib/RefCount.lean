import Mathlib.Data.Finset.Card

/-!
# Reference counts

Some clients hold pointers to shared objects, each with a counter.  The counters are right if each is
the number of clients that hold the object, and no client holds an object that does not exist
(`RefCounted`).  The one who counts down to zero frees the object.
-/

namespace RefCount

open Function

variable {ι α : Type*} [DecidableEq α]

def holders (clients : Finset ι) (ptr : ι → Option α) (a : α) : Finset ι :=
  clients.filter fun c => ptr c = some a

variable {clients : Finset ι} {ptr : ι → Option α} {refs : α → Option ℕ} {a b : α} {c : ι} {n : ℕ}

theorem mem_holders : c ∈ holders clients ptr a ↔ c ∈ clients ∧ ptr c = some a := Finset.mem_filter

/-- A client that holds nothing leaves room for one more holder. -/
theorem card_holders_lt (hc : c ∈ clients) (hn : ptr c = none) (a : α) :
    (holders clients ptr a).card < clients.card := by
  refine Finset.card_lt_card (Finset.ssubset_iff_of_subset (Finset.filter_subset _ _) |>.2 ⟨c, hc, ?_⟩)
  intro hm
  have := (mem_holders.1 hm).2
  rw [hn] at this
  cases this

variable [DecidableEq ι]

theorem holders_attach (hc : c ∈ clients) :
    holders clients (Function.update ptr c (some a)) a = insert c (holders clients ptr a) := by
  ext d
  rw [mem_holders, Finset.mem_insert, mem_holders]
  by_cases hd : d = c
  · simp [hd, hc]
  · simp [hd]

theorem holders_detach : holders clients (Function.update ptr c none) a =
    (holders clients ptr a).erase c := by
  ext d
  rw [mem_holders, Finset.mem_erase, mem_holders]
  by_cases hd : d = c
  · simp [hd]
  · simp [hd]

/-- Another object keeps its holders. -/
theorem holders_update_of_ne (ho : ptr c ≠ some b) (hn : p ≠ some b) :
    holders clients (Function.update ptr c p) b = holders clients ptr b := by
  ext d
  rw [mem_holders, mem_holders]
  by_cases hd : d = c
  · simp [hd, ho, hn]
  · simp [hd]

theorem holders_insert (hn : ptr c = none) :
    holders (insert c clients) ptr a = holders clients ptr a := by
  rw [holders, Finset.filter_insert, if_neg (by simp [hn]), holders]

theorem holders_erase (hn : ptr c = none) :
    holders (clients.erase c) ptr a = holders clients ptr a := by
  ext d
  rw [mem_holders, mem_holders, Finset.mem_erase]
  constructor
  · rintro ⟨⟨-, hd⟩, hp⟩
    exact ⟨hd, hp⟩
  · rintro ⟨hd, hp⟩
    refine ⟨⟨?_, hd⟩, hp⟩
    intro hdc
    rw [hdc, hn] at hp
    cases hp

/-- The counter of an object that exists is the number of its holders, and an object that is held
exists. -/
structure RefCounted (clients : Finset ι) (ptr : ι → Option α) (refs : α → Option ℕ) : Prop where
  count : ∀ a n, refs a = some n → n = (holders clients ptr a).card
  exist : ∀ c ∈ clients, ∀ a, ptr c = some a → ∃ n, refs a = some n

namespace RefCounted

omit [DecidableEq ι] in
theorem start : RefCounted (∅ : Finset ι) ptr (fun _ => none) where
  count _ _ h := by cases h
  exist c hc := absurd hc (Finset.notMem_empty c)

omit [DecidableEq ι] in
/-- Holding is what makes the counter of an object positive. -/
theorem pos_of_held (h : RefCounted clients ptr refs) (hc : c ∈ clients) (hp : ptr c = some a)
    (hn : refs a = some n) : 0 < n := by
  rw [h.count a n hn]
  exact Finset.card_pos.2 ⟨c, mem_holders.2 ⟨hc, hp⟩⟩

omit [DecidableEq ι] in
/-- A new object has no holders. -/
theorem alloc (h : RefCounted clients ptr refs) (hne : refs a = none) :
    RefCounted clients ptr (Function.update refs a (some 0)) where
  count b n hn := by
    by_cases hb : b = a
    · subst hb
      rw [update_self] at hn
      cases hn
      refine (Finset.card_eq_zero.2 (Finset.filter_eq_empty_iff.2 fun c hc hp => ?_)).symm
      obtain ⟨n, hn⟩ := h.exist c hc b hp
      rw [hne] at hn
      cases hn
    · rw [update_of_ne hb] at hn
      exact h.count b n hn
  exist c hc b hp := by
    by_cases hb : b = a
    · exact ⟨0, by rw [hb, update_self]⟩
    · rw [update_of_ne hb]
      exact h.exist c hc b hp

/-- A client that held nothing holds an object. -/
theorem attach (h : RefCounted clients ptr refs) (hc : c ∈ clients) (hno : ptr c = none)
    (hn : refs a = some n) :
    RefCounted clients (Function.update ptr c (some a))
      (Function.update refs a (some (n + 1))) where
  count b m hm := by
    by_cases hb : b = a
    · subst hb
      rw [update_self] at hm
      cases hm
      rw [holders_attach hc, Finset.card_insert_of_notMem (by simp [mem_holders, hno]),
        h.count b n hn]
    · rw [update_of_ne hb] at hm
      rw [holders_update_of_ne (by simp [hno]) (by simpa using Ne.symm hb)]
      exact h.count b m hm
  exist d hd b hptr := by
    by_cases hb : b = a
    · exact ⟨n + 1, by rw [hb, update_self]⟩
    · rw [update_of_ne hb]
      refine h.exist d hd b ?_
      by_cases hdc : d = c
      · rw [hdc, update_self, Option.some.injEq] at hptr
        exact absurd hptr.symm hb
      · rwa [update_of_ne hdc] at hptr

/-- A client lets go of an object, which is freed if it was the last one. -/
theorem detach (h : RefCounted clients ptr refs) (hc : c ∈ clients) (hp : ptr c = some a)
    (hn : refs a = some n) : RefCounted clients (Function.update ptr c none)
      (Function.update refs a (if n - 1 = 0 then none else some (n - 1))) where
  count b m hm := by
    by_cases hb : b = a
    · subst hb
      rw [update_self] at hm
      split at hm
      · cases hm
      · cases hm
        rw [holders_detach, Finset.card_erase_of_mem (mem_holders.2 ⟨hc, hp⟩), h.count b n hn]
    · rw [update_of_ne hb] at hm
      rw [holders_update_of_ne (by simpa [hp] using Ne.symm hb) (by simp)]
      exact h.count b m hm
  exist d hd b hp' := by
    have hdc : d ≠ c := by
      intro hdc
      rw [hdc, update_self] at hp'
      cases hp'
    rw [update_of_ne hdc] at hp'
    by_cases hb : b = a
    · subst hb
      -- `d` and `c` are two holders, so the counter is not zero afterwards
      have ht : 1 < n := by
        rw [h.count b n hn]
        exact Finset.one_lt_card.2 ⟨d, mem_holders.2 ⟨hd, hp'⟩, c, mem_holders.2 ⟨hc, hp⟩, hdc⟩
      refine ⟨n - 1, ?_⟩
      rw [update_self, if_neg (by omega)]
    · rw [update_of_ne hb]
      exact h.exist d hd b hp'

/-- A client that holds nothing comes. -/
theorem enter (h : RefCounted clients ptr refs) (hno : ptr c = none) :
    RefCounted (insert c clients) ptr refs where
  count a n hn := by
    rw [holders_insert hno]
    exact h.count a n hn
  exist d hd a hp := by
    cases Finset.mem_insert.1 hd with
    | inl hdc =>
      rw [hdc, hno] at hp
      cases hp
    | inr hd => exact h.exist d hd a hp

/-- A client that holds nothing goes. -/
theorem leave (h : RefCounted clients ptr refs) (hno : ptr c = none) :
    RefCounted (clients.erase c) ptr refs where
  count a n hn := by
    rw [holders_erase hno]
    exact h.count a n hn
  exist d hd a hp := h.exist d (Finset.mem_of_mem_erase hd) a hp

end RefCounted

end RefCount
