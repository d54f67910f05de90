import Xv6.FileSystemPrograms
import Mathlib.Data.List.FinRange
import Mathlib.Logic.Function.Basic

/-!
# The in-memory inode table

The entries of `itable` and the critical sections of `iget`, `idup` and `iput`, each a
function on the whole table, for any type of processes that hold the sleep-locks.
-/

namespace Xv6.Fs

/-- `struct inode`: the entry of the table, with its copy of the on-disk fields. -/
structure Inode (P : Type) where
  inum : ℕ
  ref : ℕ
  valid : Bool
  lock : Option P
  copy : Dinode

/-- `itable`. -/
abbrev Table (P : Type) := Slot → Inode P

namespace Table

variable {P : Type}

def modify (t : Table P) (ip : Slot) (f : Inode P → Inode P) : Table P :=
  Function.update t ip (f (t ip))

@[simp] theorem modify_self (t : Table P) (ip : Slot) (f : Inode P → Inode P) :
    t.modify ip f ip = f (t ip) := Function.update_self ..

theorem modify_of_ne (t : Table P) {ip x : Slot} (f : Inode P → Inode P) (h : x ≠ ip) :
    t.modify ip f x = t x := Function.update_of_ne h ..

def first (t : Table P) (q : Inode P → Bool) : Option Slot :=
  (List.finRange nInode).find? fun ip => q (t ip)

theorem first_eq_some {t : Table P} {q : Inode P → Bool} {ip : Slot} (h : t.first q = some ip) :
    q (t ip) = true := List.find?_some (p := fun ip => q (t ip)) h

theorem first_eq_none {t : Table P} {q : Inode P → Bool} (h : t.first q = none) (ip : Slot) :
    q (t ip) = false := by
  have hq := List.find?_eq_none.mp h ip (List.mem_finRange ip)
  exact Bool.eq_false_iff.mpr hq

/-- `iget`: the entry of the inode, or else an unused one; `none` if there is neither. -/
def iget (t : Table P) (inum : ℕ) : Option (Slot × Table P) :=
  match t.first fun x => 0 < x.ref ∧ x.inum = inum with
  | some ip => some (ip, t.modify ip fun x => { x with ref := x.ref + 1 })
  | none =>
    match t.first fun x => x.ref = 0 with
    | none => none
    | some ip => some (ip, t.modify ip fun x => { x with inum, ref := 1, valid := false })

theorem iget_cases {t t' : Table P} {inum : ℕ} {ip : Slot} (h : t.iget inum = some (ip, t')) :
    (0 < (t ip).ref ∧ (t ip).inum = inum ∧
        t' = t.modify ip fun x => { x with ref := x.ref + 1 }) ∨
      ((t ip).ref = 0 ∧ (∀ x, 0 < (t x).ref → (t x).inum ≠ inum) ∧
        t' = t.modify ip fun x => { x with inum, ref := 1, valid := false }) := by
  rw [iget] at h
  split at h
  · rename_i hfirst
    cases h
    have hq := first_eq_some hfirst
    simp only [decide_eq_true_eq] at hq
    exact .inl ⟨hq.1, hq.2, rfl⟩
  · rename_i hnone
    split at h
    · cases h
    · rename_i hempty
      cases h
      refine .inr ⟨by simpa using first_eq_some hempty, fun x hx heq => ?_, rfl⟩
      have hq := first_eq_none hnone x
      simp [hx, heq] at hq

/-- The test that opens `iput`. -/
def frees (x : Inode P) : Bool := x.ref = 1 ∧ x.valid = true ∧ x.copy.nlink = 0

end Table

end Xv6.Fs
