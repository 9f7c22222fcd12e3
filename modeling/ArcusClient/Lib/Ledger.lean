import Mathlib.Data.Finset.Card
import Mathlib.Data.List.Nodup

/-!
# Ledgers of objects

A program that allocates and frees objects keeps them in some places.  The *ledger* of a state lists
what is in the places.  It is right if each object that exists is listed once and no other is listed
(`Ledger`).
-/

variable {α : Type*}

/-- The list has every object that exists once, and no other. -/
structure Ledger (held : List α) (live : Finset α) : Prop where
  nodup : held.Nodup
  mem_iff : ∀ a, a ∈ held ↔ a ∈ live

namespace Ledger

open List

variable {held held' : List α} {live : Finset α} {a : α}

theorem nil : Ledger ([] : List α) ∅ := ⟨nodup_nil, by simp⟩

theorem perm (h : Ledger held live) (hp : held'.Perm held) : Ledger held' live where
  nodup := hp.nodup_iff.2 h.nodup
  mem_iff a := hp.mem_iff.trans (h.mem_iff a)

/-- A new object is somewhere. -/
theorem alloc [DecidableEq α] (h : Ledger held live) (ha : a ∉ live) : Ledger (a :: held)
    (insert a live) where
  nodup := nodup_cons.2 ⟨fun hm => ha ((h.mem_iff a).1 hm), h.nodup⟩
  mem_iff b := by rw [mem_cons, Finset.mem_insert, h.mem_iff]

/-- A freed object is nowhere. -/
theorem free [DecidableEq α] (h : Ledger (a :: held) live) : Ledger held (live.erase a) where
  nodup := h.nodup.of_cons
  mem_iff b := by
    have ha := (nodup_cons.1 h.nodup).1
    rw [Finset.mem_erase, ← h.mem_iff, mem_cons]
    constructor
    · intro hb
      exact ⟨fun he => ha (he ▸ hb), .inr hb⟩
    · rintro ⟨hn, rfl | hb⟩
      · exact absurd rfl hn
      · exact hb

/-- There are as many objects as entries. -/
theorem card [DecidableEq α] (h : Ledger held live) : live.card = held.length := by
  have hl : held.toFinset = live := by
    ext a
    rw [mem_toFinset, h.mem_iff]
  rw [← hl, toFinset_card_of_nodup h.nodup]

end Ledger
