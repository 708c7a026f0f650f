import Mathlib.Data.List.Basic

/-!
A reader takes a value from the front of a stream.  It `Reads` a piece when it takes exactly that
piece, whatever follows, and finds the end of the stream when only a part of the piece is there.
Readers that run one after the other read their pieces one after the other.
-/

universe u v

structure Reads {τ : Type u} {ε α : Type v} (eof : ε) (read : List τ → Except ε α) (b : List τ)
    (out : List τ → α) : Prop where
  whole : ∀ r, read (b ++ r) = .ok (out r)
  cut : ∀ c, c <+: b → c ≠ b → read c = .error eof

namespace Reads

open List

variable {τ : Type u} {ε α γ : Type v} {eof : ε} {read : List τ → Except ε α} {b b' : List τ}
variable {out : List τ → α} {next : α → Except ε γ} {out' : List τ → γ}

theorem nothing (h : ∀ r, read r = .ok (out r)) : Reads eof read [] out :=
  ⟨h, fun _ hcut hne => absurd (prefix_nil.mp hcut) hne⟩

theorem bind (h : Reads eof read b out) (hnext : Reads eof (fun r => next (out r)) b' out') :
    Reads eof (fun r => read r >>= next) (b ++ b') out' := by
  constructor
  · intro r
    rw [append_assoc, h.whole]
    exact hnext.whole r
  · intro c hcut hne
    by_cases hwhole : b <+: c
    · obtain ⟨q, rfl⟩ := hwhole
      rw [h.whole]
      exact hnext.cut q ((prefix_append_right_inj b).mp hcut) fun heq => hne (by rw [heq])
    · have hpart := ( prefix_or_prefix_of_prefix hcut (prefix_append b b')).resolve_right hwhole
      rw [h.cut c hpart fun heq => hwhole (heq ▸ prefix_refl b)]
      rfl

theorem map (h : Reads eof read b out) (hnext : ∀ r, next (out r) = .ok (out' r)) :
    Reads eof (fun r => read r >>= next) b out' := by
  simpa using h.bind (nothing hnext)

end Reads
