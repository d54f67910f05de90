import Mathlib.Data.Set.Basic
import Mathlib.Logic.Function.Basic

/-!
# Exact ownership of a pool of resources

Owners hold at most one resource of a pool each, no resource has two owners, and a flag per
resource says exactly whether somebody owns it. Handing a free resource to an owner without
one, and taking an owner's resource back, keep it so.
-/

namespace Xv6.ExactOwnership
open Function

variable {O B : Type*}

/-- The flags `used` say exactly which resources of the pool the owners hold. -/
structure Exact (pool : Set B) (used : B → Bool) (own : O → Option B) : Prop where
  inPool : ∀ {o b}, own o = some b → b ∈ pool
  inj : ∀ {o o' b}, own o = some b → own o' = some b → o = o'
  used_iff : ∀ {b}, b ∈ pool → (used b = true ↔ ∃ o, own o = some b)

variable {pool : Set B} {used : B → Bool} {own : O → Option B}

theorem Exact.own_ne (h : Exact pool used own) {b : B} (hfree : used b = false) (o : O) :
    own o ≠ some b := by
  intro ho
  have hused := (h.used_iff (h.inPool ho)).mpr ⟨o, ho⟩
  rw [hfree] at hused
  exact Bool.false_ne_true hused

theorem Exact.congr (h : Exact pool used own) {used' : B → Bool} {own' : O → Option B}
    (hused : ∀ b ∈ pool, used' b = used b) (hown : ∀ o, own' o = own o) :
    Exact pool used' own' := by
  obtain rfl : own' = own := funext hown
  exact ⟨h.inPool, h.inj, fun hb => by rw [hused _ hb]; exact h.used_iff hb⟩

variable [DecidableEq O] [DecidableEq B]

theorem Exact.assign (h : Exact pool used own) {o : O} {b : B} (ho : own o = none)
    (hb : b ∈ pool) (hfree : used b = false) :
    Exact pool (update used b true) (update own o (some b)) where
  inPool {o' c} hc := by
    by_cases hoo : o' = o
    · subst hoo
      simp only [update_self, Option.some.injEq] at hc
      exact hc ▸ hb
    · rw [update_of_ne hoo] at hc
      exact h.inPool hc
  inj {o₁ o₂ c} h₁ h₂ := by
    by_cases ho₁ : o₁ = o <;> by_cases ho₂ : o₂ = o <;>
      simp only [update_apply, ho₁, ho₂, if_true, if_false, Option.some.injEq] at h₁ h₂
    · rw [ho₁, ho₂]
    · exact absurd (h₁ ▸ h₂) (h.own_ne hfree o₂)
    · exact absurd (h₂ ▸ h₁) (h.own_ne hfree o₁)
    · exact h.inj h₁ h₂
  used_iff {c} hc := by
    by_cases hcb : c = b
    · subst hcb
      simp only [update_self, true_iff]
      exact ⟨o, by simp⟩
    · rw [update_of_ne hcb, h.used_iff hc]
      constructor
      · rintro ⟨o', ho'⟩
        refine ⟨o', ?_⟩
        rw [update_of_ne (by rintro rfl; rw [ho] at ho'; cases ho')]
        exact ho'
      · rintro ⟨o', ho'⟩
        by_cases hoo : o' = o
        · subst hoo
          simp only [update_self, Option.some.injEq] at ho'
          exact absurd ho'.symm hcb
        · exact ⟨o', by rwa [update_of_ne hoo] at ho'⟩

theorem Exact.release (h : Exact pool used own) {o : O} {b : B} (ho : own o = some b) :
    Exact pool (update used b false) (update own o none) where
  inPool {o' c} hc := by
    by_cases hoo : o' = o
    · subst hoo
      simp at hc
    · rw [update_of_ne hoo] at hc
      exact h.inPool hc
  inj {o₁ o₂ c} h₁ h₂ := by
    by_cases ho₁ : o₁ = o <;> by_cases ho₂ : o₂ = o <;>
      simp only [update_apply, ho₁, ho₂, if_true, if_false, reduceCtorEq] at h₁ h₂
    exact h.inj h₁ h₂
  used_iff {c} hc := by
    by_cases hcb : c = b
    · subst hcb
      simp only [update_self, Bool.false_eq_true, false_iff, not_exists]
      intro o' ho'
      by_cases hoo : o' = o
      · subst hoo
        simp at ho'
      · rw [update_of_ne hoo] at ho'
        exact hoo (h.inj ho' ho)
    · rw [update_of_ne hcb, h.used_iff hc]
      constructor
      · rintro ⟨o', ho'⟩
        refine ⟨o', ?_⟩
        rw [update_of_ne (by rintro rfl; exact hcb (Option.some.inj (ho' ▸ ho)))]
        exact ho'
      · rintro ⟨o', ho'⟩
        by_cases hoo : o' = o
        · subst hoo
          simp at ho'
        · exact ⟨o', by rwa [update_of_ne hoo] at ho'⟩

end Xv6.ExactOwnership
