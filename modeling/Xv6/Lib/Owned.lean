import Mathlib

/-!
# Resources with one owner

Resources are numbered in the order in which they are made; `frees d` says how often
resource `d` was given back. `Owned own next frees`: every resource that was made and not
given back has exactly one holder, no holder has one that was given back, and nothing
was given back twice.

* `Owned.congr`: the holders keep what they have.
* `Owned.alloc`: a holder without a resource gets a new one.
* `Owned.move`: a resource changes hands.
* `Owned.free`: a holder gives its resource back.
-/

namespace Xv6

variable {H : Type*} {own own' : H → Option ℕ} {next : ℕ} {frees frees' : ℕ → ℕ} {h g : H} {d : ℕ}

structure Owned (own : H → Option ℕ) (next : ℕ) (frees : ℕ → ℕ) : Prop where
  lt : ∀ h d, own h = some d → d < next
  live : ∀ h d, own h = some d → frees d = 0
  inj : ∀ h h' d, own h = some d → own h' = some d → h = h'
  covered : ∀ d, d < next → frees d = 0 → ∃ h, own h = some d
  once : ∀ d, frees d ≤ 1
  beyond : ∀ d, next ≤ d → frees d = 0

namespace Owned

theorem congr (ho : Owned own next frees) (hown : ∀ h, own' h = own h) : Owned own' next frees := by
  have heq : own' = own := funext hown
  rw [heq]
  exact ho

/-- The holder `h` gets the next resource. -/
theorem alloc (ho : Owned own next frees) (hfree : own h = none) (hself : own' h = some next)
    (hne : ∀ x, x ≠ h → own' x = own x) : Owned own' (next + 1) frees where
  lt x d hx := by
    by_cases hxh : x = h
    · rw [hxh, hself] at hx
      cases hx
      omega
    · rw [hne x hxh] at hx
      have := ho.lt x d hx
      omega
  live x d hx := by
    by_cases hxh : x = h
    · rw [hxh, hself] at hx
      cases hx
      exact ho.beyond next le_rfl
    · rw [hne x hxh] at hx
      exact ho.live x d hx
  inj x y d hx hy := by
    -- the new resource is nobody else's
    have hnew : ∀ z, z ≠ h → own' z ≠ some next := by
      intro z hz hown
      rw [hne z hz] at hown
      have := ho.lt z next hown
      omega
    by_cases hxh : x = h <;> by_cases hyh : y = h
    · rw [hxh, hyh]
    · rw [hxh, hself] at hx
      cases hx
      exact absurd hy (hnew y hyh)
    · rw [hyh, hself] at hy
      cases hy
      exact absurd hx (hnew x hxh)
    · rw [hne x hxh] at hx
      rw [hne y hyh] at hy
      exact ho.inj x y d hx hy
  covered e hlt h0 := by
    by_cases he : e = next
    · exact ⟨h, by rw [hself, he]⟩
    · obtain ⟨x, hx⟩ := ho.covered e (by omega) h0
      have hxh : x ≠ h := by rintro rfl; rw [hfree] at hx; cases hx
      exact ⟨x, by rw [hne x hxh]; exact hx⟩
  once := ho.once
  beyond e he := ho.beyond e (by omega)

/-- The resource of `h` goes to `g`, which had none. -/
theorem move (ho : Owned own next frees) (hgh : g ≠ h) (hfree : own g = none) (hgive : own' h = none)
    (htake : own' g = own h) (hne : ∀ x, x ≠ h → x ≠ g → own' x = own x) : Owned own' next frees := by
  -- who has a resource now had it before, or is `g` and has that of `h`
  have hback : ∀ x d, own' x = some d → ∃ y, own y = some d ∧ (x = g ∧ y = h ∨ x ≠ g ∧ y = x) := by
    intro x d hx
    by_cases hxg : x = g
    · refine ⟨h, ?_, .inl ⟨hxg, rfl⟩⟩
      rw [← htake, ← hxg]
      exact hx
    · have hxh : x ≠ h := by rintro rfl; rw [hgive] at hx; cases hx
      exact ⟨x, by rw [← hne x hxh hxg]; exact hx, .inr ⟨hxg, rfl⟩⟩
  constructor
  · intro x d hx
    obtain ⟨y, hy, -⟩ := hback x d hx
    exact ho.lt y d hy
  · intro x d hx
    obtain ⟨y, hy, -⟩ := hback x d hx
    exact ho.live y d hy
  · intro x x' d hx hx'
    obtain ⟨y, hy, hc⟩ := hback x d hx
    obtain ⟨y', hy', hc'⟩ := hback x' d hx'
    have hyy : y = y' := ho.inj y y' d hy hy'
    rcases hc with ⟨hxg, hyh⟩ | ⟨hxg, hyx⟩ <;> rcases hc' with ⟨hxg', hyh'⟩ | ⟨hxg', hyx'⟩
    · rw [hxg, hxg']
    · have hxh : x' = h := by rw [← hyx', ← hyy, hyh]
      rw [hxh, hgive] at hx'
      cases hx'
    · have hxh : x = h := by rw [← hyx, hyy, hyh']
      rw [hxh, hgive] at hx
      cases hx
    · rw [← hyx, ← hyx', hyy]
  · intro d hlt h0
    obtain ⟨x, hx⟩ := ho.covered d hlt h0
    by_cases hxh : x = h
    · exact ⟨g, by rw [htake, ← hxh]; exact hx⟩
    · have hxg : x ≠ g := by rintro rfl; rw [hfree] at hx; cases hx
      exact ⟨x, by rw [hne x hxh hxg]; exact hx⟩
  · exact ho.once
  · exact ho.beyond

/-- The holder `h` gives its resource back. -/
theorem free (ho : Owned own next frees) (hd : own h = some d) (hgive : own' h = none)
    (hne : ∀ x, x ≠ h → own' x = own x) :
    Owned own' next (Function.update frees d (frees d + 1)) := by
  have h0 : frees d = 0 := ho.live h d hd
  -- the others have other resources
  have hback : ∀ x e, own' x = some e → own x = some e ∧ e ≠ d := by
    intro x e hx
    have hxh : x ≠ h := by rintro rfl; rw [hgive] at hx; cases hx
    rw [hne x hxh] at hx
    refine ⟨hx, ?_⟩
    rintro rfl
    exact hxh (ho.inj x h e hx hd)
  constructor
  · intro x e hx
    exact ho.lt x e (hback x e hx).1
  · intro x e hx
    obtain ⟨hx, hed⟩ := hback x e hx
    rw [Function.update_of_ne hed]
    exact ho.live x e hx
  · intro x y e hx hy
    exact ho.inj x y e (hback x e hx).1 (hback y e hy).1
  · intro e hlt he
    have hed : e ≠ d := by
      rintro rfl
      rw [Function.update_self] at he
      omega
    rw [Function.update_of_ne hed] at he
    obtain ⟨x, hx⟩ := ho.covered e hlt he
    have hxh : x ≠ h := by
      rintro rfl
      rw [hd] at hx
      cases hx
      exact hed rfl
    exact ⟨x, by rw [hne x hxh]; exact hx⟩
  · intro e
    by_cases hed : e = d
    · rw [hed, Function.update_self, h0]
    · rw [Function.update_of_ne hed]
      exact ho.once e
  · intro e he
    have hlt := ho.lt h d hd
    have hed : e ≠ d := by omega
    rw [Function.update_of_ne hed]
    exact ho.beyond e he

end Owned

end Xv6
