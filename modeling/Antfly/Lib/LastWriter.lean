import Mathlib.Order.Lattice
import Mathlib.Data.List.Basic

/-!
A register holds a value that carries a version.  A guarded write replaces the content when its own
version is newer and does nothing otherwise.  The content after any sequence of guarded writes is
the initial content or one of the writes, no write is newer than it, and so it is the newest write,
whatever the order of the writes and however often each is repeated.
-/

universe u v

namespace LastWriter

open List

variable {β : Type u} {ν : Type v} [LinearOrder ν] (version : β → ν)

/-- The guarded write of `w` over `r`. -/
def later (r w : β) : β := if version r < version w then w else r

variable {version}

theorem later_of_lt {r w : β} (h : version r < version w) : later version r w = w := if_pos h

theorem later_of_le {r w : β} (h : version w ≤ version r) : later version r w = r :=
  if_neg (not_lt.mpr h)

variable (version) in
theorem version_le_later (r w : β) :
    version r ≤ version (later version r w) ∧ version w ≤ version (later version r w) := by
  rcases lt_or_ge (version r) (version w) with h | h
  · rw [later_of_lt h]
    exact ⟨le_of_lt h, le_refl _⟩
  · rw [later_of_le h]
    exact ⟨le_refl _, h⟩

variable (version) in
theorem foldl_later_mem (r : β) (ws : List β) : ws.foldl (later version) r ∈ r :: ws := by
  induction ws generalizing r with
  | nil => exact mem_singleton_self r
  | cons w ws ih =>
    have h := ih (later version r w)
    rw [foldl_cons]
    rcases mem_cons.mp h with h | h
    · rw [h]
      unfold later
      split
      · exact mem_cons_of_mem _ mem_cons_self
      · exact mem_cons_self
    · exact mem_cons_of_mem _ (mem_cons_of_mem _ h)

variable (version) in
theorem version_le_foldl_later {r w : β} {ws : List β} (h : w ∈ r :: ws) :
    version w ≤ version (ws.foldl (later version) r) := by
  induction ws generalizing r w with
  | nil =>
    obtain rfl := mem_singleton.mp h
    exact le_refl _
  | cons w' ws ih =>
    rw [foldl_cons]
    have hboth := version_le_later version r w'
    have hhead := ih (mem_cons_self (a := later version r w'))
    rcases mem_cons.mp h with rfl | h
    · exact le_trans hboth.1 hhead
    · rcases mem_cons.mp h with rfl | h
      · exact le_trans hboth.2 hhead
      · exact ih (mem_cons_of_mem _ h)

/-- A write that is newer than the initial content and than every other write is what remains. -/
theorem foldl_later_eq {r w : β} {ws : List β} (hw : w ∈ ws) (hr : version r < version w)
    (hmax : ∀ w' ∈ ws, w' = w ∨ version w' < version w) :
    ws.foldl (later version) r = w := by
  have hle := version_le_foldl_later version (mem_cons_of_mem r hw)
  rcases mem_cons.mp (foldl_later_mem version r ws) with h | h
  · rw [h] at hle
    exact absurd hr (not_lt.mpr hle)
  · rcases hmax _ h with h | h
    · exact h
    · exact absurd h (not_lt.mpr hle)

end LastWriter
