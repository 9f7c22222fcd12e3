import Mathlib.Data.List.Perm.Basic
import Mathlib.Tactic

/-!
# Reconciling a list with a new one

Each thing of an old list claims an entry of a new list with its own key, the first one that nobody
claimed before it.  Those that find none leave, and the entries that are never claimed join.

`survivors` are the old things that stay and `List.diff` the entries that join.  Together they are the
new list, up to order (`survivors_append_diff_perm`), also when keys occur more than once.  `claim` is
one search with marks on the entries, and `pending` the unclaimed keys (`claim_spec`).
-/

namespace Reconcile

open List

variable {α β γ : Type} [DecidableEq β]

/-! ## Who stays -/

/-- The old things that find an entry of their own. -/
def survivors (f : α → β) : List α → List β → List α
  | [], _ => []
  | a :: old, new =>
    if f a ∈ new then a :: survivors f old (new.erase (f a)) else survivors f old new

theorem survivors_cons_of_mem {f : α → β} (h : f a ∈ new) (old : List α) :
    survivors f (a :: old) new = a :: survivors f old (new.erase (f a)) := if_pos h

theorem survivors_cons_of_not_mem {f : α → β} (h : f a ∉ new)
    (old : List α) : survivors f (a :: old) new = survivors f old new := if_neg h

theorem survivors_sublist (f : α → β) : ∀ (old : List α) (new : List β),
    (survivors f old new).Sublist old
  | [], _ => Sublist.refl _
  | a :: old, new => by
    by_cases h : f a ∈ new
    · rw [survivors_cons_of_mem h]
      exact (survivors_sublist f old _).cons_cons a
    · rw [survivors_cons_of_not_mem h]
      exact (survivors_sublist f old new).cons a

/-- Those who stay and those who join make up the new list. -/
theorem survivors_append_diff_perm (f : α → β) : ∀ (old : List α) (new : List β),
    ((survivors f old new).map f ++ new.diff (old.map f)).Perm new
  | [], new => by simp [survivors]
  | a :: old, new => by
    rw [map_cons, diff_cons]
    by_cases h : f a ∈ new
    · rw [survivors_cons_of_mem h, map_cons]
      exact ((survivors_append_diff_perm f old _).cons _).trans (perm_cons_erase h).symm
    · rw [survivors_cons_of_not_mem h, erase_of_not_mem h]
      exact survivors_append_diff_perm f old new

/-- Everybody stays exactly when the old keys are all among the new ones. -/
theorem survivors_eq_self_iff (f : α → β) : ∀ (old : List α) (new : List β),
    survivors f old new = old ↔ (old.map f).Subperm new
  | [], new => by simp [survivors]
  | a :: old, new => by
    by_cases h : f a ∈ new
    · rw [survivors_cons_of_mem h, cons.injEq, survivors_eq_self_iff f old, map_cons]
      have hp := perm_cons_erase h
      rw [hp.subperm_left, subperm_cons]
      exact and_iff_right rfl
    · rw [survivors_cons_of_not_mem h]
      constructor
      · intro he
        have := congrArg length he
        have := (survivors_sublist f old new).length_le
        simp at *
        omega
      · intro hs
        exact absurd (hs.subset (mem_cons_self ..)) h

theorem survivors_nil (f : α → β) : ∀ old : List α, survivors f old [] = []
  | [] => rfl
  | a :: old => by
    rw [survivors_cons_of_not_mem (by simp)]
    exact survivors_nil f old

/-- Nobody leaves and nobody joins exactly when the lists have the same keys. -/
theorem reconciled_iff_perm (f : α → β) (old : List α) (new : List β) :
    (survivors f old new = old ∧ new.diff (old.map f) = []) ↔ (old.map f).Perm new := by
  have hp := survivors_append_diff_perm f old new
  constructor
  · rintro ⟨hk, hj⟩
    rwa [hk, hj, append_nil] at hp
  · intro hs
    have hk : survivors f old new = old := (survivors_eq_self_iff f old new).2 hs.subperm
    refine ⟨hk, length_eq_zero_iff.1 ?_⟩
    have hl := hp.length_eq
    rw [hk, length_append, hs.length_eq] at hl
    omega

/-! ## Claims with marks -/

section Claim

variable (taken : γ → Bool) (take : γ → γ) (key : γ → β)

/-- The first entry with the key that is not taken is taken.  There is none when
the search fails. -/
def claim (k : β) : List γ → Option (List γ)
  | [] => none
  | c :: cs => if !taken c && key c = k then some (take c :: cs) else (claim k cs).map (c :: ·)

def pending (cs : List γ) : List β := (cs.filter fun c => !taken c).map key

variable {taken take key}

omit [DecidableEq β] in
theorem pending_cons_of_taken (h : taken c = true) (cs : List γ) :
    pending taken key (c :: cs) = pending taken key cs := by
  simp [pending, h]

omit [DecidableEq β] in
theorem pending_cons_of_free (h : taken c = false) (cs : List γ) :
    pending taken key (c :: cs) = key c :: pending taken key cs := by
  simp [pending, h]

/-- A search fails when the key is not pending.  Otherwise it takes one entry with
the key and leaves the others alone. -/
theorem claim_spec (ht : ∀ c, taken (take c) = true) (k : β) : ∀ cs : List γ,
    (k ∉ pending taken key cs ∧ claim taken take key k cs = none) ∨
      ∃ cs', k ∈ pending taken key cs ∧ claim taken take key k cs = some cs' ∧
        pending taken key cs' = (pending taken key cs).erase k
  | [] => .inl ⟨by simp [pending], rfl⟩
  | c :: cs => by
    rw [claim]
    cases hc : taken c with
    | true =>
      simp only [pending_cons_of_taken hc]
      rcases claim_spec ht k cs with ⟨hk, hn⟩ | ⟨cs', hk, hs, hp⟩
      · exact .inl ⟨hk, by rw [hn]; rfl⟩
      · exact .inr ⟨c :: cs', hk, by rw [hs]; rfl, by rw [pending_cons_of_taken hc, hp]⟩
    | false =>
      by_cases hke : key c = k
      · refine .inr ⟨take c :: cs, ?_, by simp [hke], ?_⟩
        · rw [pending_cons_of_free hc, hke]
          exact mem_cons_self
        · rw [pending_cons_of_taken (ht c), pending_cons_of_free hc, hke, erase_cons_head]
      · simp only [pending_cons_of_free hc, hke]
        rcases claim_spec ht k cs with ⟨hk, hn⟩ | ⟨cs', hk, hs, hp⟩
        · refine .inl ⟨?_, by rw [hn]; rfl⟩
          simpa [Ne.symm hke] using hk
        · refine .inr ⟨c :: cs', mem_cons_of_mem _ hk, by rw [hs]; rfl, ?_⟩
          rw [pending_cons_of_free hc, hp, erase_cons_tail (by simpa using hke)]

/-- A search marks entries in place. -/
theorem length_of_claim_eq_some : ∀ {cs cs' : List γ},
    claim taken take key k cs = some cs' → cs'.length = cs.length
  | c :: cs, cs', h => by
    rw [claim] at h
    split at h
    · cases h
      rfl
    · obtain ⟨rest, hr, rfl⟩ := Option.map_eq_some_iff.1 h
      simp [length_of_claim_eq_some hr]

end Claim

end Reconcile
