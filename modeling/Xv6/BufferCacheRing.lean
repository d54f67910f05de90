import Xv6.DoublyLinkedRings
import Xv6.TransitionSystems
import Xv6.KernelParameters
import Mathlib.Data.Fintype.Card
import Mathlib.Data.List.FinRange

/-!
# The buffer cache as a doubly linked ring

The parts of `bio.c` that run with `bcache.lock` held, on the pointers themselves.
Reference counts are 32-bit. Around the code stand three counters it does not have:
gets not yet released, pins not yet dropped, and the time of a buffer's last release
to zero.
-/

namespace Xv6.BufferCache
open DoublyLinkedRings TransitionSystems Function

/-- The list nodes: a buffer, or `bcache.head` as `none`. -/
abbrev Node := Option (Fin nBuf)

/-- The fields of `struct buf` that `bcache.lock` guards, without the list pointers. -/
structure Buf where
  valid : Bool
  dev : ℕ
  blockno : ℕ
  refcnt : ℕ
  deriving DecidableEq

structure Bcache where
  buf : Fin nBuf → Buf
  links : Links Node

/-- `refcnt++` on a `uint`. -/
def incr (n : ℕ) : ℕ := (n + 1) % 2 ^ 32

/-- `refcnt--` on a `uint`. -/
def decr (n : ℕ) : ℕ := (n + (2 ^ 32 - 1)) % 2 ^ 32

def Bcache.set (c : Bcache) (b : Fin nBuf) (f : Buf) : Bcache :=
  { c with buf := update c.buf b f }

/-- `binit` on the zeroed `bcache`: every buffer in turn goes to the front of the list. -/
def binit : Bcache where
  buf := fun _ => ⟨false, 0, 0, 0⟩
  links := (List.finRange nBuf).foldl (fun lk b => lk.insertFront none (some b))
    ⟨fun _ => none, fun _ => none⟩

/-- The test of the first loop of `bget`. -/
def Bcache.holds (c : Bcache) (dev blockno : ℕ) : Node → Bool
  | none => false
  | some b => (c.buf b).dev == dev && (c.buf b).blockno == blockno

/-- The test of the second loop of `bget`. -/
def Bcache.unused (c : Bcache) : Node → Bool
  | none => false
  | some b => (c.buf b).refcnt == 0

/-- The critical section of `bget`; `none` is `panic("bget: no buffers")`. -/
def Bcache.bget (c : Bcache) (dev blockno : ℕ) : Option (Fin nBuf × Bcache) :=
  match scan c.links.next none (c.holds dev blockno) (nBuf + 1) (c.links.next none) with
  | some (some b) => some (b, c.set b { c.buf b with refcnt := incr (c.buf b).refcnt })
  | _ => match scan c.links.prev none c.unused (nBuf + 1) (c.links.prev none) with
    | some (some b) =>
      some (b, c.set b ⟨false, dev, blockno, 1⟩)
    | _ => none

def Bcache.brelse (c : Bcache) (b : Fin nBuf) : Bcache :=
  let c' := c.set b { c.buf b with refcnt := decr (c.buf b).refcnt }
  if (c'.buf b).refcnt = 0 then
    { c' with links := (c'.links.unlink (some b)).insertFront none (some b) }
  else c'

def Bcache.bpin (c : Bcache) (b : Fin nBuf) : Bcache :=
  c.set b { c.buf b with refcnt := incr (c.buf b).refcnt }

def Bcache.bunpin (c : Bcache) (b : Fin nBuf) : Bcache :=
  c.set b { c.buf b with refcnt := decr (c.buf b).refcnt }

structure Tracked where
  cache : Bcache
  gets : Fin nBuf → ℕ
  pins : Fin nBuf → ℕ
  stamp : Fin nBuf → ℕ
  clock : ℕ

/-- The calls that touch the cache list or a reference count. -/
inductive Event where
  | bget (dev blockno : ℕ)
  | brelse (b : Fin nBuf)
  | bpin (b : Fin nBuf)
  | bunpin (b : Fin nBuf)
  deriving DecidableEq

def Tracked.refs (s : Tracked) (b : Fin nBuf) : ℕ := s.gets b + s.pins b

/-- One call by a caller that keeps to the interface: a release matches a get, an unpin
matches a pin and happens while the buffer is held, and no buffer ever has `2 ^ 32`
references at once. -/
def next (s : Tracked) : Event → Option Tracked
  | .bget dev blockno => match s.cache.bget dev blockno with
    | none => none
    | some (b, c) =>
      if s.refs b + 1 < 2 ^ 32 then
        some { s with cache := c, gets := update s.gets b (s.gets b + 1) }
      else none
  | .brelse b =>
    if 0 < s.gets b then
      let c := s.cache.brelse b
      some { s with
        cache := c
        gets := update s.gets b (s.gets b - 1)
        stamp := if (c.buf b).refcnt = 0 then update s.stamp b (s.clock + 1) else s.stamp
        clock := s.clock + 1 }
    else none
  | .bpin b =>
    if s.refs b + 1 < 2 ^ 32 then
      some { s with cache := s.cache.bpin b, pins := update s.pins b (s.pins b + 1) }
    else none
  | .bunpin b =>
    if 0 < s.pins b ∧ 0 < s.gets b then
      some { s with cache := s.cache.bunpin b, pins := update s.pins b (s.pins b - 1) }
    else none

/-- The state after `binit`. -/
def initial : Tracked := ⟨binit, fun _ => 0, fun _ => 0, fun _ => 0, 0⟩

def Step (s : Tracked) (e : Event) (t : Tracked) : Prop := next s e = some t

/-- What the calls keep: one ring through all buffers, ordered by last release; at most
one buffer a block; exact reference counts. -/
structure Inv (s : Tracked) : Prop where
  ring : ∃ l : List (Fin nBuf), Ring s.cache.links none (l.map some) ∧ (∀ b, b ∈ l) ∧
    l.Pairwise (fun a b => s.stamp b ≤ s.stamp a)
  unique : ∀ a b, (s.cache.buf a).dev ≠ 0 → (s.cache.buf a).dev = (s.cache.buf b).dev →
    (s.cache.buf a).blockno = (s.cache.buf b).blockno → a = b
  refcnt : ∀ b, (s.cache.buf b).refcnt = s.refs b
  small : ∀ b, s.refs b < 2 ^ 32
  stamp_le : ∀ b, s.stamp b ≤ s.clock

theorem incr_of_lt {n : ℕ} (h : n + 1 < 2 ^ 32) : incr n = n + 1 := Nat.mod_eq_of_lt h

theorem decr_of_pos {n : ℕ} (h : 0 < n) (hn : n < 2 ^ 32) : decr n = n - 1 := by
  unfold decr
  omega

theorem ring_foldl_insertFront (lk : Links Node) (l bs : List (Fin nBuf))
    (h : Ring lk none (l.map some)) (hnd : (bs ++ l).Nodup) :
    Ring (bs.foldl (fun lk b => lk.insertFront none (some b)) lk) none
      ((bs.reverse ++ l).map some) := by
  induction bs generalizing lk l with
  | nil => simpa using h
  | cons b bs ih =>
    rw [List.cons_append, List.nodup_cons, List.mem_append, not_or] at hnd
    have hb : some b ∉ (none :: l.map some : List Node) := by simpa using hnd.1.2
    have hperm : (bs ++ b :: l).Nodup := by
      refine List.nodup_append.mpr ⟨(List.nodup_append.mp hnd.2).1, ?_, ?_⟩
      · exact List.nodup_cons.mpr ⟨hnd.1.2, (List.nodup_append.mp hnd.2).2.1⟩
      · intro x hx y hy hxy
        subst hxy
        rcases List.mem_cons.mp hy with rfl | hy
        · exact hnd.1.1 hx
        · exact (List.nodup_append.mp hnd.2).2.2 x hx x hy rfl
    have := ih _ (b :: l) (h.insertFront hb) hperm
    simpa using this

theorem inv_initial : Inv initial := by
  have hring : Ring binit.links none (((List.finRange nBuf).reverse).map some) := by
    have := ring_foldl_insertFront ⟨fun _ => none, fun _ => none⟩ [] (List.finRange nBuf)
      (ring_nil rfl rfl) (by simpa using List.nodup_finRange nBuf)
    simpa [binit] using this
  refine ⟨⟨_, hring, by simp, ?_⟩, by simp [initial, binit], by simp [initial, binit, Tracked.refs],
    by simp [initial, Tracked.refs], by simp [initial]⟩
  exact List.pairwise_of_forall (by simp [initial])

@[simp] theorem set_buf_self (c : Bcache) (b : Fin nBuf) (f : Buf) : (c.set b f).buf b = f := by
  simp [Bcache.set]

theorem set_buf_ne (c : Bcache) {a b : Fin nBuf} (f : Buf) (h : a ≠ b) :
    (c.set b f).buf a = c.buf a := by simp [Bcache.set, h]

@[simp] theorem set_links (c : Bcache) (b : Fin nBuf) (f : Buf) : (c.set b f).links = c.links := rfl

variable {s : Tracked}

theorem Inv.scans (h : Inv s) : ∃ l : List (Fin nBuf),
    Ring s.cache.links none (l.map some) ∧ (∀ b, b ∈ l) ∧
    l.Pairwise (fun a b => s.stamp b ≤ s.stamp a) ∧
    (∀ test, scan s.cache.links.next none test (nBuf + 1) (s.cache.links.next none) =
      (l.map some).find? test) ∧
    ∀ test, scan s.cache.links.prev none test (nBuf + 1) (s.cache.links.prev none) =
      (l.map some).reverse.find? test := by
  obtain ⟨l, hring, hall, hsort⟩ := h.ring
  have hlen : (l.map some : List Node).length < nBuf + 1 := by
    have hnd : l.Nodup := by
      have := (List.nodup_cons.mp hring.nodup).2
      exact this.of_map
    have := List.Nodup.length_le_card hnd
    simp only [List.length_map, Fintype.card_fin] at this ⊢
    omega
  exact ⟨l, hring, hall, hsort, fun t => hring.scan_next t hlen, fun t => hring.scan_prev t hlen⟩

variable {b : Fin nBuf}

/-- `bget` returns the buffer of the block, or the free one that was used least recently. -/
theorem Inv.bget_cases (h : Inv s) {dev blockno : ℕ} {c : Bcache}
    (hget : s.cache.bget dev blockno = some (b, c)) :
    ((s.cache.buf b).dev = dev ∧ (s.cache.buf b).blockno = blockno ∧
      c = s.cache.set b { s.cache.buf b with refcnt := incr (s.cache.buf b).refcnt }) ∨
    ((∀ a, ¬((s.cache.buf a).dev = dev ∧ (s.cache.buf a).blockno = blockno)) ∧
      (s.cache.buf b).refcnt = 0 ∧
      (∀ a, (s.cache.buf a).refcnt = 0 → s.stamp b ≤ s.stamp a) ∧
      c = s.cache.set b ⟨false, dev, blockno, 1⟩) := by
  obtain ⟨l, hring, hall, hsort, hnext, hprev⟩ := h.scans
  unfold Bcache.bget at hget
  rw [hnext, hprev] at hget
  split at hget
  · rename_i b' hfind
    cases hget
    have := List.find?_some hfind
    simp only [Bcache.holds, Bool.and_eq_true, beq_iff_eq] at this
    exact .inl ⟨this.1, this.2, rfl⟩
  · rename_i hmiss
    have hnone : ∀ a, ¬((s.cache.buf a).dev = dev ∧ (s.cache.buf a).blockno = blockno) := by
      intro a ha
      have hsome : ((l.map some : List Node).find? (s.cache.holds dev blockno)).isSome := by
        rw [List.find?_isSome]
        exact ⟨some a, by simpa using hall a, by simp [Bcache.holds, ha]⟩
      obtain ⟨n, hn⟩ := Option.isSome_iff_exists.mp hsome
      cases n with
      | none => simpa [Bcache.holds] using List.find?_some hn
      | some x => exact hmiss x hn
    split at hget
    · rename_i b' hfind
      cases hget
      have hzero := List.find?_some hfind
      simp only [Bcache.unused, beq_iff_eq] at hzero
      refine .inr ⟨hnone, hzero, fun a ha => ?_, rfl⟩
      rw [← List.map_reverse, List.find?_map, Option.map_eq_some_iff] at hfind
      obtain ⟨x, hx, hxb⟩ := hfind
      cases hxb
      obtain ⟨-, as, bs, hl, has⟩ := List.find?_eq_some_iff_append.mp hx
      have hmem : a ∈ l.reverse := by simpa using hall a
      have hsort' : l.reverse.Pairwise (fun a b => s.stamp a ≤ s.stamp b) :=
        List.pairwise_reverse.mpr hsort
      rw [hl] at hmem hsort'
      rcases List.mem_append.mp hmem with hm | hm
      · simpa [Bcache.unused, ha] using has a hm
      · rcases List.mem_cons.mp hm with rfl | hm
        · exact le_rfl
        · exact (List.pairwise_cons.mp (List.pairwise_append.mp hsort').2.1).1 a hm
    · cases hget

theorem Inv.setCount (h : Inv s) (b : Fin nBuf) (r : ℕ) (gets pins : Fin nBuf → ℕ)
    (hcnt : r = gets b + pins b) (hsmall : r < 2 ^ 32)
    (hother : ∀ a, a ≠ b → gets a + pins a = s.refs a) : Inv { s with
      cache := s.cache.set b { s.cache.buf b with refcnt := r }, gets := gets, pins := pins } := by
  have hid : ∀ a, ((s.cache.set b { s.cache.buf b with refcnt := r }).buf a).dev =
        (s.cache.buf a).dev ∧
      ((s.cache.set b { s.cache.buf b with refcnt := r }).buf a).blockno =
        (s.cache.buf a).blockno := by
    intro a
    by_cases hab : a = b
    · subst hab
      simp
    · simp [set_buf_ne _ _ hab]
  refine ⟨h.ring, fun a c => ?_, fun a => ?_, fun a => ?_, h.stamp_le⟩
  · simp only [hid]
    exact h.unique a c
  · by_cases hab : a = b
    · subst hab
      simpa [Tracked.refs] using hcnt
    · simp [Tracked.refs, set_buf_ne _ _ hab, hother a hab, h.refcnt a]
  · by_cases hab : a = b
    · subst hab
      exact hcnt ▸ hsmall
    · exact (hother a hab).trans_lt (h.small a)

theorem Inv.recycle (h : Inv s) {dev blockno : ℕ}
    (hnone : ∀ a, ¬((s.cache.buf a).dev = dev ∧ (s.cache.buf a).blockno = blockno))
    (hzero : (s.cache.buf b).refcnt = 0) : Inv { s with
      cache := s.cache.set b ⟨false, dev, blockno, 1⟩
      gets := update s.gets b (s.gets b + 1) } := by
  have hr : s.gets b = 0 ∧ s.pins b = 0 := by
    have := h.refcnt b
    unfold Tracked.refs at this
    omega
  refine ⟨h.ring, fun a c hdev hd hn => ?_, fun a => ?_, fun a => ?_, h.stamp_le⟩
  · by_cases ha : a = b <;> by_cases hc : c = b
    · rw [ha, hc]
    · subst ha
      simp only [set_buf_self, set_buf_ne _ _ hc] at hd hn
      exact absurd ⟨hd.symm, hn.symm⟩ (hnone c)
    · subst hc
      simp only [set_buf_self, set_buf_ne _ _ ha] at hd hn
      exact absurd ⟨hd, hn⟩ (hnone a)
    · simp only [set_buf_ne _ _ ha, set_buf_ne _ _ hc] at hdev hd hn
      exact h.unique a c hdev hd hn
  · by_cases ha : a = b
    · subst ha
      simp [Tracked.refs, hr]
    · simp [Tracked.refs, set_buf_ne _ _ ha, ha, h.refcnt a]
  · by_cases ha : a = b
    · subst ha
      simp [Tracked.refs, hr]
    · simpa [Tracked.refs, ha] using h.small a

theorem Inv.moveToFront (h : Inv s) (b : Fin nBuf) : Inv { s with
      cache := { s.cache with links := (s.cache.links.unlink (some b)).insertFront none (some b) }
      stamp := update s.stamp b (s.clock + 1)
      clock := s.clock + 1 } := by
  obtain ⟨l, hring, hall, hsort⟩ := h.ring
  obtain ⟨l₁, l₂, rfl⟩ := List.append_of_mem (hall b)
  have hnd : (b :: (l₁ ++ l₂)).Nodup :=
    List.nodup_middle.mp (List.nodup_cons.mp hring.nodup).2.of_map
  have hne : ∀ a ∈ l₁ ++ l₂, a ≠ b := fun a ha e => (List.nodup_cons.mp hnd).1 (e ▸ ha)
  have hmoved : (l₁ ++ b :: l₂).Perm (b :: (l₁ ++ l₂)) := List.perm_middle
  refine ⟨⟨b :: (l₁ ++ l₂), ?_, fun a => hmoved.mem_iff.mp (hall a), ?_⟩, h.unique, h.refcnt,
    h.small, fun a => ?_⟩
  · rw [List.map_append, List.map_cons] at hring
    simpa using hring.moveToFront
  · refine List.pairwise_cons.mpr ⟨fun a ha => ?_, ?_⟩
    · have := h.stamp_le a
      simp only [update_of_ne (hne a ha), update_self]
      omega
    · have hsub : (l₁ ++ l₂).Sublist (l₁ ++ b :: l₂) := by simp
      refine (hsort.sublist hsub).imp_of_mem ?_
      intro x y hx hy hxy
      simpa [hne x hx, hne y hy] using hxy
  · by_cases hab : a = b
    · simp [hab]
    · have := h.stamp_le a
      simp only [update_of_ne hab]
      omega

theorem brelse_of_zero {c : Bcache} (h : decr (c.buf b).refcnt = 0) :
    c.brelse b = { c.set b { c.buf b with refcnt := 0 } with
      links := (c.links.unlink (some b)).insertFront none (some b) } := by
  simp [Bcache.brelse, h]

theorem brelse_of_ne_zero {c : Bcache} (h : decr (c.buf b).refcnt ≠ 0) :
    c.brelse b = c.set b { c.buf b with refcnt := decr (c.buf b).refcnt } := by
  simp [Bcache.brelse, h]

theorem inv_bget {s t : Tracked} {dev blockno : ℕ} (h : Inv s)
    (hs : Step s (.bget dev blockno) t) : Inv t := by
  simp only [Step, next] at hs
  split at hs
  · cases hs
  rename_i b c hget
  split at hs
  · rename_i hlt
    cases hs
    rcases h.bget_cases hget with ⟨-, -, rfl⟩ | ⟨hnone, hzero, -, rfl⟩
    · rw [h.refcnt b, incr_of_lt hlt]
      refine h.setCount b _ _ s.pins ?_ hlt (fun a hab => by simp [Tracked.refs, hab])
      simp only [update_self, Tracked.refs]
      omega
    · exact h.recycle hnone hzero
  · cases hs

theorem inv_brelse {s t : Tracked} (h : Inv s) (hs : Step s (.brelse b) t) : Inv t := by
  simp only [Step, next] at hs
  split at hs
  · rename_i hpos
    cases hs
    have hsmall := h.small b
    have hcnt : decr (s.cache.buf b).refcnt = s.gets b - 1 + s.pins b := by
      rw [h.refcnt b, decr_of_pos (by unfold Tracked.refs; omega) hsmall, Tracked.refs]
      omega
    have hset := h.setCount b (decr (s.cache.buf b).refcnt)
      (update s.gets b (s.gets b - 1)) s.pins (by simpa using hcnt)
      (by unfold Tracked.refs at hsmall; omega) (fun a hab => by simp [Tracked.refs, hab])
    by_cases hz : decr (s.cache.buf b).refcnt = 0
    · have hmoved := hset.moveToFront b
      rw [hz] at hmoved
      rw [brelse_of_zero hz]
      simpa using hmoved
    · rw [brelse_of_ne_zero hz]
      simp only [set_buf_self, hz, if_false]
      exact ⟨hset.ring, hset.unique, hset.refcnt, hset.small,
        fun a => (h.stamp_le a).trans (Nat.le_succ _)⟩
  · cases hs

theorem inv_bpin {s t : Tracked} (h : Inv s) (hs : Step s (.bpin b) t) : Inv t := by
  simp only [Step, next] at hs
  split at hs
  · rename_i hlt
    cases hs
    rw [Bcache.bpin, h.refcnt b, incr_of_lt hlt]
    refine h.setCount b _ s.gets _ ?_ hlt (fun a hab => by simp [Tracked.refs, hab])
    simp only [update_self, Tracked.refs]
    omega
  · cases hs

theorem inv_bunpin {s t : Tracked} (h : Inv s) (hs : Step s (.bunpin b) t) : Inv t := by
  simp only [Step, next] at hs
  split at hs
  · rename_i hpos
    cases hs
    have hsmall := h.small b
    rw [Bcache.bunpin, h.refcnt b, decr_of_pos (by unfold Tracked.refs; omega) hsmall]
    refine h.setCount b _ s.gets _ ?_ (by omega) (fun a hab => by simp [Tracked.refs, hab])
    simp only [update_self, Tracked.refs]
    omega
  · cases hs

theorem inv_step (s : Tracked) (e : Event) (t : Tracked) (h : Inv s) (hs : Step s e t) : Inv t := by
  cases e with
  | bget dev blockno => exact inv_bget h hs
  | brelse b => exact inv_brelse h hs
  | bpin b => exact inv_bpin h hs
  | bunpin b => exact inv_bunpin h hs

theorem brelse_buf_id (c : Bcache) (b a : Fin nBuf) :
    ((c.brelse b).buf a).dev = (c.buf a).dev ∧
      ((c.brelse b).buf a).blockno = (c.buf a).blockno := by
  have hset : ∀ r, ((c.set b { c.buf b with refcnt := r }).buf a).dev = (c.buf a).dev ∧
      ((c.set b { c.buf b with refcnt := r }).buf a).blockno = (c.buf a).blockno := by
    intro r
    by_cases hab : a = b
    · subst hab
      simp
    · simp [set_buf_ne _ _ hab]
  by_cases hz : decr (c.buf b).refcnt = 0
  · rw [brelse_of_zero hz]
    exact hset 0
  · rw [brelse_of_ne_zero hz]
    exact hset _

/-- A buffer that somebody has a reference to stays the buffer of its block. -/
theorem Inv.step_keeps_block {s t : Tracked} {e : Event} (h : Inv s) (hs : Step s e t)
    (hb : 0 < (s.cache.buf b).refcnt) : (t.cache.buf b).dev = (s.cache.buf b).dev ∧
      (t.cache.buf b).blockno = (s.cache.buf b).blockno := by
  have hset : ∀ (a : Fin nBuf) (r : ℕ),
      ((s.cache.set a { s.cache.buf a with refcnt := r }).buf b).dev = (s.cache.buf b).dev ∧
      ((s.cache.set a { s.cache.buf a with refcnt := r }).buf b).blockno =
        (s.cache.buf b).blockno := by
    intro a r
    by_cases hab : b = a
    · subst hab
      simp
    · simp [set_buf_ne _ _ hab]
  cases e with
  | bget dev blockno =>
    simp only [Step, next] at hs
    split at hs
    · cases hs
    rename_i a c hget
    split at hs
    · cases hs
      rcases h.bget_cases hget with ⟨-, -, rfl⟩ | ⟨-, hzero, -, rfl⟩
      · exact hset a _
      · have hab : b ≠ a := by
          rintro rfl
          omega
        simp [set_buf_ne _ _ hab]
    · cases hs
  | brelse a =>
    simp only [Step, next] at hs
    split at hs
    · cases hs
      exact brelse_buf_id s.cache a b
    · cases hs
  | bpin a =>
    simp only [Step, next] at hs
    split at hs
    · cases hs
      exact hset a _
    · cases hs
  | bunpin a =>
    simp only [Step, next] at hs
    split at hs
    · cases hs
      exact hset a _
    · cases hs

/-- `bget` panics only if no buffer has the block and every buffer is in use. -/
theorem Inv.bget_isSome_iff (h : Inv s) (dev blockno : ℕ) : (s.cache.bget dev blockno).isSome ↔
      (∃ b, (s.cache.buf b).dev = dev ∧ (s.cache.buf b).blockno = blockno) ∨
      ∃ b, (s.cache.buf b).refcnt = 0 := by
  obtain ⟨l, -, hall, -, hnext, hprev⟩ := h.scans
  have hfind (test : Node → Bool) (hnone : test none = false) (b : Fin nBuf)
      (hb : test (some b) = true) (k : List Node) (hk : some b ∈ k) :
      ∃ a, k.find? test = some (some a) := by
    obtain ⟨x, hx⟩ := Option.isSome_iff_exists.mp (List.find?_isSome.mpr ⟨some b, hk, hb⟩)
    cases x with
    | none => simpa [hnone] using List.find?_some hx
    | some a => exact ⟨a, hx⟩
  constructor
  · intro hsome
    obtain ⟨⟨b, c⟩, hget⟩ := Option.isSome_iff_exists.mp hsome
    rcases h.bget_cases hget with ⟨hdev, hno, -⟩ | ⟨-, hzero, -⟩
    · exact .inl ⟨b, hdev, hno⟩
    · exact .inr ⟨b, hzero⟩
  · unfold Bcache.bget
    rw [hnext, hprev]
    rintro (⟨b, hdev, hno⟩ | ⟨b, hzero⟩)
    · obtain ⟨a, ha⟩ := hfind (s.cache.holds dev blockno) rfl b
        (by simp [Bcache.holds, hdev, hno]) (l.map some) (by simpa using hall b)
      rw [ha]
      rfl
    · obtain ⟨a, ha⟩ := hfind s.cache.unused rfl b (by simp [Bcache.unused, hzero])
        (l.map some).reverse (by simpa using hall b)
      rw [ha]
      split <;> rfl

/-- The representation invariant of the buffer cache in every state that calls keeping to
the interface reach after `binit`: one doubly linked ring through all buffers, one buffer
a block, exact reference counts, and no referenced buffer changes its block. `bget` returns
whenever a buffer has the block or is unused. A hit is one more reference to a buffer with
the block; a miss recycles the unused buffer that was released to zero longest ago. -/
theorem bcache_representation (h : Reachable (fun s => s = initial) Step s) :
    (∃ l : List (Fin nBuf), Ring s.cache.links none (l.map some) ∧ l.Nodup ∧ ∀ b, b ∈ l) ∧
    (∀ a b, (s.cache.buf a).dev ≠ 0 → (s.cache.buf a).dev = (s.cache.buf b).dev →
      (s.cache.buf a).blockno = (s.cache.buf b).blockno → a = b) ∧
    (∀ b, (s.cache.buf b).refcnt = s.gets b + s.pins b) ∧
    (∀ e t, Step s e t → ∀ b, 0 < (s.cache.buf b).refcnt →
      (t.cache.buf b).dev = (s.cache.buf b).dev ∧
        (t.cache.buf b).blockno = (s.cache.buf b).blockno) ∧
    (∀ dev blockno, (s.cache.bget dev blockno).isSome ↔
      (∃ b, (s.cache.buf b).dev = dev ∧ (s.cache.buf b).blockno = blockno) ∨
      ∃ b, (s.cache.buf b).refcnt = 0) ∧
    ∀ dev blockno b c, s.cache.bget dev blockno = some (b, c) →
      ((s.cache.buf b).dev = dev ∧ (s.cache.buf b).blockno = blockno ∧
        c = s.cache.set b { s.cache.buf b with refcnt := incr (s.cache.buf b).refcnt }) ∨
      ((∀ a, ¬((s.cache.buf a).dev = dev ∧ (s.cache.buf a).blockno = blockno)) ∧
        (s.cache.buf b).refcnt = 0 ∧
        (∀ a, (s.cache.buf a).refcnt = 0 → s.stamp b ≤ s.stamp a) ∧
        c = s.cache.set b ⟨false, dev, blockno, 1⟩) := by
  have hinv : Inv s := h.invariant (by rintro s rfl; exact inv_initial) inv_step
  obtain ⟨l, hring, hall, -⟩ := hinv.ring
  exact ⟨⟨l, hring, (List.nodup_cons.mp hring.nodup).2.of_map, hall⟩, hinv.unique, hinv.refcnt,
    fun e t hs b hb => hinv.step_keeps_block hs hb, hinv.bget_isSome_iff,
    fun _ _ _ _ hget => hinv.bget_cases hget⟩

/-- All buffers are taken, and then 7 and 3 are released, in this order. -/
def takeAll : List Event :=
  (List.range nBuf).map (.bget 1) ++ [.bpin 4, .brelse 7, .brelse 3]

/-- The next miss recycles buffer 7. -/
theorem bcache_representation_takeAll :
    ∃ s c, exec next initial takeAll = some s ∧ s.cache.bget 1 40 = some (7, c) ∧
      c.buf 7 = ⟨false, 1, 40, 1⟩ ∧ c.buf 4 = ⟨false, 1, 4, 2⟩ := by
  have hrun : (exec next initial takeAll).any (fun s =>
      ((s.cache.bget 1 40).any fun r => r.1 = 7) ∧ s.cache.buf 7 = ⟨false, 1, 7, 0⟩ ∧
        s.cache.buf 4 = ⟨false, 1, 4, 2⟩) = true := by
    decide +kernel
  obtain ⟨s, hs, hget, hseven, hfour⟩ := exists_of_any hrun
  obtain ⟨⟨b, c⟩, hget, rfl⟩ := exists_of_any hget
  obtain ⟨-, -, -, -, -, hcases⟩ := bcache_representation (reachable_of_exec hs)
  rcases hcases 1 40 7 c hget with ⟨-, hno, -⟩ | ⟨-, -, -, rfl⟩
  · simp [hseven] at hno
  · exact ⟨s, _, hs, hget, set_buf_self _ _ _, (set_buf_ne _ _ (by decide)).trans hfour⟩

end Xv6.BufferCache
