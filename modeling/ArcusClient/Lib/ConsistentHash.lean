import Mathlib.Order.Bounds.Basic
import Mathlib.Data.Prod.Lex
import Mathlib.Tactic

/-!
# Consistent hashing

A ring is a set of points, each a position with the name of the node that put it there.  A point owns
the positions up to its own, from the point before it.  Where two points share a position, the smaller
name comes first.  Beyond the last point the ring starts again at its first.

`Owns R h p` is a statement about the set of points alone.  So two arrays with the same points answer
alike (`Owns.unique`), and a point that owns a position keeps it when other points are taken away
(`Owns.of_subset`).
-/

namespace ConsistentHash

variable {V N : Type} [LinearOrder V] [LinearOrder N]

/-- The point of a ring that owns a position: the least point at or beyond the
position, or the least point of all when none is. -/
def Owns (R : Set (V ×ₗ N)) (h : V) (p : V ×ₗ N) : Prop :=
  IsLeast { q ∈ R | h ≤ (ofLex q).1 } p ∨ ((∀ q ∈ R, (ofLex q).1 < h) ∧ IsLeast R p)

variable {R S : Set (V ×ₗ N)} {h : V} {p q : V ×ₗ N}

theorem Owns.mem (hp : Owns R h p) : p ∈ R := by
  rcases hp with hp | hp
  · exact hp.1.1
  · exact hp.2.1

/-- At most one point owns a position. -/
theorem Owns.unique (hp : Owns R h p) (hq : Owns R h q) : p = q := by
  rcases hp with hp | ⟨hl, hp⟩ <;> rcases hq with hq | ⟨hl', hq⟩
  · exact hp.unique hq
  · exact absurd (hl' p hp.1.1) (not_lt.2 hp.1.2)
  · exact absurd (hl q hq.1.1) (not_lt.2 hq.1.2)
  · exact hp.unique hq

/-- An owner that stays on the ring stays the owner when other points leave. -/
theorem Owns.of_subset (hp : Owns R h p) (hSR : S ⊆ R) (hpS : p ∈ S) : Owns S h p := by
  rcases hp with hp | ⟨hl, hp⟩
  · exact .inl ⟨⟨hpS, hp.1.2⟩, fun q hq => hp.2 ⟨hSR hq.1, hq.2⟩⟩
  · exact .inr ⟨fun q hq => hl q (hSR hq), hpS, fun q hq => hp.2 (hSR hq)⟩

end ConsistentHash
