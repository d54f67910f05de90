import Mathlib.Algebra.GroupWithZero.Nat
import Mathlib.Logic.Function.Basic
import Mathlib.Tactic.Common

/-!
# The two `memmove`s

`memmove` of the kernel (`string.c`) and of user programs (`ulib.c`). They decide in different
ways whether to copy from the end; both leave in the destination what the source had.
-/

namespace Xv6
open Function

abbrev Memory := UInt64 → UInt8

/-- `while(n-- > 0) *d++ = *s++;` -/
def copyUp : ℕ → (d s : UInt64) → Memory → Memory
  | 0, _, _, m => m
  | n + 1, d, s, m => copyUp n (d + 1) (s + 1) (update m d (m s))

/-- `while(n-- > 0) *--d = *--s;` -/
def copyDown : ℕ → (d s : UInt64) → Memory → Memory
  | 0, _, _, m => m
  | n + 1, d, s, m => copyDown n (d - 1) (s - 1) (update m (d - 1) (m (s - 1)))

def KernelString.memmove (dst src : UInt64) (n : UInt32) (m : Memory) : Memory :=
  if n = 0 then m
  else if src < dst ∧ src + n.toUInt64 > dst then
    copyDown n.toNat (dst + n.toUInt64) (src + n.toUInt64) m
  else
    copyUp n.toNat dst src m

def Ulib.memmove (dst src : UInt64) (n : Int32) (m : Memory) : Memory :=
  if src > dst then
    copyUp n.toInt.toNat dst src m
  else
    copyDown n.toInt.toNat (dst + n.toInt64.toUInt64) (src + n.toInt64.toUInt64) m

namespace MemoryMoves

/-- The memory with the `n` bytes from `src` on copied to `dst`. -/
def moved (dst src : UInt64) (n : ℕ) (m : Memory) : Memory := fun a =>
  if dst ≤ a ∧ a.toNat < dst.toNat + n then m (src + (a - dst)) else m a

variable {d s : UInt64} {n : ℕ} {m : Memory}

theorem moved_zero (d s : UInt64) (m : Memory) : moved d s 0 m = m := by
  funext a
  refine if_neg fun h => ?_
  have hle := UInt64.le_iff_toNat_le.mp h.1
  omega

theorem toNat_source {a : UInt64} (hs : s.toNat + n ≤ 2 ^ 64) (hle : d.toNat ≤ a.toNat)
    (hlt : a.toNat < d.toNat + n) : (s + (a - d)).toNat = s.toNat + (a.toNat - d.toNat) := by
  rw [UInt64.toNat_add, UInt64.toNat_sub_of_le _ _ (UInt64.le_iff_toNat_le.mpr hle)]
  exact Nat.mod_eq_of_lt (by omega)

theorem copyUp_eq (hd : d.toNat + n ≤ 2 ^ 64) (hs : s.toNat + n ≤ 2 ^ 64)
    (hsafe : d.toNat ≤ s.toNat ∨ s.toNat + n ≤ d.toNat) : copyUp n d s m = moved d s n m := by
  induction n generalizing d s m with
  | zero => exact (moved_zero d s m).symm
  | succ n ih =>
    have hd' : (d + 1).toNat = (d.toNat + 1) % 2 ^ 64 := UInt64.toNat_add d 1
    have hs' : (s + 1).toNat = (s.toNat + 1) % 2 ^ 64 := UInt64.toNat_add s 1
    rw [copyUp, ih (by omega) (by omega) (by omega)]
    funext a
    have hsub : s + 1 + (a - (d + 1)) = s + (a - d) := by grind
    simp only [moved, UInt64.le_iff_toNat_le, hsub]
    by_cases had : a = d
    · rw [had, if_neg (by omega), if_pos (by omega), update_self, UInt64.sub_self,
        UInt64.add_zero]
    have hne : a.toNat ≠ d.toNat := fun h => had (UInt64.toNat.inj h)
    by_cases hin : d.toNat < a.toNat ∧ a.toNat < d.toNat + (n + 1)
    · have hsource := toNat_source hs (Nat.le_of_lt hin.1) hin.2
      rw [if_pos (by omega), if_pos (by omega), update_of_ne]
      intro h
      rw [h] at hsource
      omega
    · rw [if_neg (by omega), if_neg (by omega), update_of_ne had]

theorem copyDown_eq (hd : d.toNat + n ≤ 2 ^ 64) (hs : s.toNat + n ≤ 2 ^ 64)
    (hsafe : s.toNat ≤ d.toNat ∨ d.toNat + n ≤ s.toNat) :
    copyDown n (d + .ofNat n) (s + .ofNat n) m = moved d s n m := by
  induction n generalizing m with
  | zero => exact (moved_zero d s m).symm
  | succ n ih =>
    have hpred (p : UInt64) : p + UInt64.ofNat (n + 1) - 1 = p + UInt64.ofNat n := by
      rw [UInt64.ofNat_add]
      grind
    have hlast (p : UInt64) (hp : p.toNat + (n + 1) ≤ 2 ^ 64) :
        (p + UInt64.ofNat n).toNat = p.toNat + n := by
      rw [UInt64.toNat_add, UInt64.toNat_ofNat', Nat.mod_eq_of_lt (show n < 2 ^ 64 by omega)]
      exact Nat.mod_eq_of_lt (by omega)
    rw [copyDown, hpred, hpred, ih (by omega) (by omega) (by omega)]
    funext a
    simp only [moved, UInt64.le_iff_toNat_le]
    by_cases had : a = d + .ofNat n
    · have ha := hlast d hd
      rw [← had] at ha
      have hsub : a - d = .ofNat n := by grind
      rw [if_neg (by omega), if_pos (by omega), had, update_self, ← had, hsub]
    have hne : a.toNat ≠ d.toNat + n := fun h => had (UInt64.toNat.inj (h.trans (hlast d hd).symm))
    by_cases hin : d.toNat ≤ a.toNat ∧ a.toNat < d.toNat + n
    · have hsource := toNat_source (s := s) (n := n) (by omega) hin.1 hin.2
      rw [if_pos hin, if_pos (by omega), update_of_ne]
      intro h
      rw [h, hlast d hd] at hsource
      omega
    · rw [if_neg hin, if_neg (by omega), update_of_ne had]

theorem kernel_memmove_eq {dst src : UInt64} {n : UInt32} (hd : dst.toNat + n.toNat ≤ 2 ^ 64)
    (hs : src.toNat + n.toNat ≤ 2 ^ 64) :
    KernelString.memmove dst src n m = moved dst src n.toNat m := by
  have hn : n.toUInt64 = .ofNat n.toNat := (UInt64.ofNat_uInt32ToNat n).symm
  have hend : (src + n.toUInt64).toNat = (src.toNat + n.toNat) % 2 ^ 64 := by
    rw [UInt64.toNat_add, UInt32.toNat_toUInt64]
  rw [KernelString.memmove]
  split_ifs with hzero hdown
  · rw [hzero]
    exact (moved_zero dst src m).symm
  · have hlt := UInt64.lt_iff_toNat_lt.mp hdown.1
    rw [hn]
    exact copyDown_eq hd hs (.inl (Nat.le_of_lt hlt))
  · refine copyUp_eq hd hs ?_
    have hpos : n.toNat ≠ 0 := fun h => hzero (UInt32.toNat.inj h)
    rw [gt_iff_lt, UInt64.lt_iff_toNat_lt, UInt64.lt_iff_toNat_lt, hend] at hdown
    omega

theorem ulib_memmove_eq {dst src : UInt64} {n : Int32} (hn : 0 ≤ n)
    (hd : dst.toNat + n.toInt.toNat ≤ 2 ^ 64) (hs : src.toNat + n.toInt.toNat ≤ 2 ^ 64) :
    Ulib.memmove dst src n m = moved dst src n.toInt.toNat m := by
  rw [Ulib.memmove]
  split_ifs with hup
  · have hlt := UInt64.lt_iff_toNat_lt.mp hup
    exact copyUp_eq hd hs (.inl (Nat.le_of_lt hlt))
  · have hle := mt UInt64.lt_iff_toNat_lt.mpr hup
    have hn' : 0 ≤ n.toInt64 := by
      rw [Int64.le_iff_toInt_le, Int32.toInt_toInt64]
      exact Int32.le_iff_toInt_le.mp hn
    have hoff : n.toInt64.toUInt64 = .ofNat n.toInt.toNat := by
      rw [← UInt64.ofNat_toNat (x := n.toInt64.toUInt64), Int64.toNat_toUInt64_of_le hn',
        Int64.toNatClampNeg, Int32.toInt_toInt64]
    rw [hoff]
    exact copyDown_eq hd hs (.inl (by omega))

/-- Both `memmove`s move the bytes of the source as it was to the destination and change nothing
else, however the ranges lie. -/
theorem memmove_moves (m : Memory) (dst src : UInt64) :
    (∀ n : UInt32, dst.toNat + n.toNat ≤ 2 ^ 64 → src.toNat + n.toNat ≤ 2 ^ 64 →
      KernelString.memmove dst src n m = moved dst src n.toNat m) ∧
    (∀ n : Int32, 0 ≤ n → dst.toNat + n.toInt.toNat ≤ 2 ^ 64 →
      src.toNat + n.toInt.toNat ≤ 2 ^ 64 →
      Ulib.memmove dst src n m = moved dst src n.toInt.toNat m ∧
      Ulib.memmove dst src n m = KernelString.memmove dst src n.toUInt32 m) := by
  refine ⟨fun n hd hs => kernel_memmove_eq hd hs, fun n hn hd hs => ?_⟩
  have hto : n.toUInt32.toNat = n.toInt.toNat := Int32.toNat_toUInt32_of_le hn
  have huser := ulib_memmove_eq (m := m) hn hd hs
  refine ⟨huser, ?_⟩
  rw [← hto] at hd hs
  rw [huser, kernel_memmove_eq hd hs, hto]

/-- Four bytes are moved up by two. -/
theorem memmove_moves_overlap :
    KernelString.memmove 2 0 4 UInt64.toUInt8 3 = 1 ∧ Ulib.memmove 2 0 4 UInt64.toUInt8 3 = 1 := by
  obtain ⟨hkernel, huser⟩ := memmove_moves UInt64.toUInt8 2 0
  rw [hkernel 4 (by decide) (by decide), (huser 4 (by decide) (by decide) (by decide)).1]
  decide

end MemoryMoves

end Xv6
